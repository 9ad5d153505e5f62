import Mathlib.Algebra.Order.Ring.Nat
import Mathlib.Data.Prod.Lex
import Yagra.Common.State

/-!
# `Yagra.Common.Address`: addresses, networks and hardware addresses

An address is its bits, in one of the two families. The order is the one the sorted maps of core
use: every IPv4 address comes before every IPv6 address, and within a family the order is that of
the octets from left to right, so that of the numbers they spell.

A network is an address with its host bits cleared, together with the prefix length that cleared
them. Two addresses are in the same network only when both agree.
-/

set_option autoImplicit false

namespace Yagra

/-- An IP address. -/
inductive IpAddr where
  | v4 (bits : BitVec 32)
  | v6 (bits : BitVec 128)
deriving DecidableEq, Repr

namespace IpAddr

/-- The family and the number, which the order compares. -/
def rank : IpAddr → Nat ×ₗ Nat
  | v4 bits => toLex (0, bits.toNat)
  | v6 bits => toLex (1, bits.toNat)

theorem rank_injective : Function.Injective rank := by
  intro x y h
  cases x <;> cases y <;> simp_all [rank, BitVec.toNat_inj]

instance : LinearOrder IpAddr := LinearOrder.lift' rank rank_injective

/-- `0.0.0.0`, which stands for no address. -/
def unspecified : IpAddr := v4 0

/-- The address of all zeros. -/
def isUnspecified : IpAddr → Bool
  | v4 bits => bits = 0
  | v6 bits => bits = 0

/-- `127.0.0.0/8` and `::1`. -/
def isLoopback : IpAddr → Bool
  | v4 bits => bits.toNat / 2 ^ 24 = 127
  | v6 bits => bits = 1

/-- `224.0.0.0/4` and `ff00::/8`. -/
def isMulticast : IpAddr → Bool
  | v4 bits => bits.toNat / 2 ^ 28 = 14
  | v6 bits => bits.toNat / 2 ^ 120 = 0xff

/-- `169.254.0.0/16` and `fe80::/10`. -/
def isLinkLocal : IpAddr → Bool
  | v4 bits => bits.toNat / 2 ^ 16 = 169 * 2 ^ 8 + 254
  | v6 bits => bits.toNat / 2 ^ 118 = 0xfe80 / 2 ^ 6

/-- The number of bits of the family. -/
def width : IpAddr → Nat
  | v4 _ => 32
  | v6 _ => 128

/-- Clear every bit below the prefix. -/
def mask (prefixLen : Nat) : IpAddr → IpAddr
  | v4 bits => v4 (bits &&& (BitVec.allOnes 32 <<< (32 - prefixLen)))
  | v6 bits => v6 (bits &&& (BitVec.allOnes 128 <<< (128 - prefixLen)))

end IpAddr

/-- A network. -/
structure SubnetKey where
  network : IpAddr
  prefixLen : Nat
deriving DecidableEq, Repr

namespace SubnetKey

theorem rank_injective :
    Function.Injective fun k : SubnetKey => toLex (k.network, k.prefixLen) := by
  intro x y h
  cases x
  cases y
  simp_all

instance : LinearOrder SubnetKey := LinearOrder.lift' _ rank_injective

end SubnetKey

/-- The network of an address. A prefix length of zero, or one wider than the family, gives
none. -/
def subnetKey (ip : IpAddr) (prefixLen : Nat) : Option SubnetKey :=
  if prefixLen = 0 ∨ prefixLen > ip.width then none else some ⟨ip.mask prefixLen, prefixLen⟩

/-- Whether `other` lies wholly inside this network. -/
def SubnetKey.contains (self other : SubnetKey) : Bool :=
  if other.prefixLen < self.prefixLen then false
  else
    match self.network, other.network with
    | .v4 _, .v4 _ | .v6 _, .v6 _ => subnetKey other.network self.prefixLen = some self
    | _, _ => false

/-! ### As text -/

/-- The four octets in decimal. -/
def v4Text (n : Nat) : List Char :=
  ['.'].intercalate
    ([n / 2 ^ 24 % 256, n / 2 ^ 16 % 256, n / 2 ^ 8 % 256, n % 256].map (Nat.toDigits 10))

/-- The eight groups of sixteen bits. -/
def v6Segments (n : Nat) : List Nat := (List.range 8).map fun i => n / 2 ^ (16 * (7 - i)) % 2 ^ 16

/-- The first of the longest runs of zeros, as its start and length. -/
def zeroRun (segments : List Nat) : Nat × Nat :=
  (segments.zipIdx.foldl (fun (acc : (Nat × Nat) × Nat × Nat) segment =>
    let (longest, current) := acc
    if segment.1 = 0 then
      let current := if current.2 = 0 then (segment.2, 1) else (current.1, current.2 + 1)
      (if longest.2 < current.2 then current else longest, current)
    else (longest, (0, 0))) ((0, 0), (0, 0))).1

/-- Groups in hexadecimal. -/
def segmentsText (segments : List Nat) : List Char :=
  [':'].intercalate (segments.map (Nat.toDigits 16))

/-- The groups in hexadecimal, with the first longest run of two or more zeros left out. An address
that stands for an IPv4 address ends in it. -/
def v6Text (n : Nat) : List Char :=
  if n / 2 ^ 32 = 0xffff then "::ffff:".toList ++ v4Text (n % 2 ^ 32)
  else
    let segments := v6Segments n
    let (start, len) := zeroRun segments
    if 1 < len then
      segmentsText (segments.take start) ++ "::".toList ++
        segmentsText (segments.drop (start + len))
    else segmentsText segments

/-- The address as text. -/
def IpAddr.text : IpAddr → String
  | v4 bits => String.ofList (v4Text bits.toNat)
  | v6 bits => String.ofList (v6Text bits.toNat)

/-- The network and the length of its prefix. -/
def SubnetKey.text (k : SubnetKey) : String := k.network.text ++ "/" ++ k.prefixLen.repr

/-! ### Interface addresses -/

/-- What the agent says an address is for. -/
inductive L3AddrType where
  | unicast | anycast | broadcast | unknown
deriving DecidableEq, Repr

/-- Whether an address of this type stands for this node alone. -/
def L3AddrType.identifiesANode : L3AddrType → Bool
  | unicast | unknown => true
  | anycast | broadcast => false

/-- An address of an interface. -/
structure L3Address where
  ip : IpAddr
  prefixLen : Nat
  addrType : L3AddrType
deriving DecidableEq, Repr

namespace L3Address

/-- The prefix covers a single host. -/
def isHostRoute (a : L3Address) : Bool := a.prefixLen = a.ip.width

/-- Whether the address can place its node on a shared segment. -/
def canFormSubnetEdge (a : L3Address) : Bool :=
  if !a.addrType.identifiesANode || a.isHostRoute || a.prefixLen = 0 then false
  else !a.ip.isLoopback && !a.ip.isLinkLocal && !a.ip.isMulticast && !a.ip.isUnspecified

/-- The network the address sits in. -/
def subnet (a : L3Address) : Option SubnetKey :=
  if a.canFormSubnetEdge then subnetKey a.ip a.prefixLen else none

end L3Address

/-- The addresses a node reported. -/
structure L3Snapshot where
  addresses : List L3Address
  truncated : Bool
deriving DecidableEq, Repr

/-! ### Hardware addresses -/

/-- The six octets of a hardware address. -/
abbrev Mac := List Nat

/-- The value of a hexadecimal digit, in either case. -/
def hexDigit (c : Char) : Option Nat :=
  let n := c.toNat
  if 0x30 ≤ n ∧ n ≤ 0x39 then some (n - 0x30)
  else if 0x61 ≤ n ∧ n ≤ 0x66 then some (n - 0x61 + 10)
  else if 0x41 ≤ n ∧ n ≤ 0x46 then some (n - 0x41 + 10)
  else none

/-- The value of a part of two characters. A number may be written with a leading plus, so `+a` is
a part as well. -/
def octet : List Char → Option Nat
  | [x, y] =>
    if x = '+' then hexDigit y
    else do
      let hi ← hexDigit x
      let lo ← hexDigit y
      return 16 * hi + lo
  | _ => none

/-- Read a hardware address: six octets between colons or dashes. -/
def parseMac (s : String) : Option Mac := do
  let parts := (trim s).toList.splitOnP fun c => c == ':' || c == '-'
  guard (parts.length = 6)
  parts.mapM octet

end Yagra
