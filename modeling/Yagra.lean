import Yagra.Proofs.ApiTokens
import Yagra.Proofs.Attribution
import Yagra.Proofs.Availability
import Yagra.Proofs.CollectOutcomes
import Yagra.Proofs.Csv
import Yagra.Proofs.DeliveryHours
import Yagra.Proofs.Derive
import Yagra.Proofs.Display
import Yagra.Proofs.Flow
import Yagra.Proofs.Folders
import Yagra.Proofs.Hysteresis
import Yagra.Proofs.InterfaceWatch
import Yagra.Proofs.Limiter
import Yagra.Proofs.MerakiLanes
import Yagra.Proofs.Ownership
import Yagra.Proofs.PoolCoverage
import Yagra.Proofs.PoolMoves
import Yagra.Proofs.RateWindow
import Yagra.Proofs.Rejections
import Yagra.Proofs.Repeats
import Yagra.Proofs.Replay
import Yagra.Proofs.Shown
import Yagra.Proofs.Snapshots
import Yagra.Proofs.Speakers
import Yagra.Proofs.StoreForward
import Yagra.Proofs.SubnetOverlaps
import Yagra.Proofs.Timeline
