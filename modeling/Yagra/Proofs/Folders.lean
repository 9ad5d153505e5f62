import Mathlib.Data.List.Chain
import Mathlib.Data.List.TakeWhile
import Yagra.Base.Groups

/-!
# `Yagra.Proofs.Folders`: what a folder inherits

Both resolvers of `Yagra.Base.Groups` fill a table while they walk: an answer found for one
folder ends a later walk. What they should find is said without the table. `Inherits` is the way
from a folder up to the nearest value, and `Carries` says which labels a folder has: those it
adds, and those of its parent that it does not refuse.

The tables are right as far as they go (`Sound`, `Faithful`), but a walk ends after
`maxGroupDepth` links and at a cycle, and an entry made before can let it go on. So the visiting
order matters exactly where a walk can be cut and the cut makes a difference
(`inheritance_ignores_order`). For the nearest value that is a value too far up (`NearEnough`),
for labels a folder at a cut whose parent has a label it neither adds nor refuses
(`CutsHarmless`). A forest no deeper than the walk may go has neither.

`folder_walks_agree` compares the walks down and up, and says that the check of a move lets through
exactly the moves after which the links still have no cycle.
-/

set_option autoImplicit false

namespace Yagra.Groups

open Std (ExtTreeMap)
open Yagra.Lib List Option Std.ExtTreeMap
open Relation (ReflTransGen TransGen)

/-- The parent link of a folder. -/
def Link {β : Type} (own : ExtTreeMap GroupId (Option GroupId × β)) (id parent : GroupId) : Prop :=
  ∃ row, own[id]? = some (some parent, row)

theorem Link.mem {β : Type} {own : ExtTreeMap GroupId (Option GroupId × β)} {id parent : GroupId}
    (h : Link own id parent) : id ∈ own := by
  obtain ⟨row, hrow⟩ := h
  exact of_getElem?_eq_some hrow

/-! ### The nearest value -/

section Nearest

variable {T : Type} {own : ExtTreeMap GroupId (Option GroupId × Option T)}
  {resolved : ExtTreeMap GroupId (T × GroupId)} {id start : GroupId}
  {path chain order : List GroupId} {found : T × GroupId}

/-- The folders from one up to the first that carries a value, and that value with its folder. -/
inductive Inherits (own : ExtTreeMap GroupId (Option GroupId × Option T)) :
    GroupId → List GroupId → T × GroupId → Prop
  | here {id : GroupId} {parent : Option GroupId} {v : T} : own[id]? = some (parent, some v) →
      Inherits own id [id] (v, id)
  | above {id parent : GroupId} {path : List GroupId} {found : T × GroupId} :
      own[id]? = some (some parent, none) → Inherits own parent path found →
      Inherits own id (id :: path) found

/-- A folder inherits one value, along one path. -/
theorem Inherits.unique (h : Inherits own id path found) {path' : List GroupId}
    {found' : T × GroupId} (h' : Inherits own id path' found') : path = path' ∧ found = found' := by
  induction h generalizing path' with
  | here hid => cases h' <;> simp_all
  | above hid _ ih =>
    cases h' with
    | here hid' => simp [hid] at hid'
    | above hid' hup =>
      obtain rfl := by simpa [hid] using hid'
      simpa using ih hup

/-- What inherits is a folder, and its path starts with it. -/
theorem Inherits.mem (h : Inherits own id path found) : id ∈ own ∧ ∃ rest, path = id :: rest := by
  cases h <;> simp [mem_iff_isSome_getElem?, *]

/-- A folder on the path inherits the same along the rest of it. -/
theorem Inherits.of_mem (h : Inherits own id path found) {c : GroupId} (hc : c ∈ path) :
    ∃ rest, Inherits own c rest found ∧ rest.length ≤ path.length := by
  induction h with
  | here hid =>
    obtain rfl := mem_singleton.1 hc
    exact ⟨_, .here hid, le_rfl⟩
  | above hid hup ih =>
    rcases mem_cons.1 hc with rfl | hc
    · exact ⟨_, .above hid hup, le_rfl⟩
    · obtain ⟨rest, hrest, hle⟩ := ih hc
      exact ⟨rest, hrest, hle.trans (by simp)⟩

/-- No folder is on the path of its parent. -/
theorem Inherits.notMem {parent : GroupId} (h : Inherits own parent path found)
    (hid : own[id]? = some (some parent, none)) : id ∉ path := by
  intro hmem
  obtain ⟨rest, hrest, hle⟩ := h.of_mem hmem
  simp [← ((Inherits.above hid h).unique hrest).1] at hle

/-- Every answer is what its folder inherits. -/
def Sound (own : ExtTreeMap GroupId (Option GroupId × Option T))
    (resolved : ExtTreeMap GroupId (T × GroupId)) : Prop :=
  ∀ id found, resolved[id]? = some found → ∃ path, Inherits own id path found

theorem sound_empty : Sound own ∅ := fun _ _ h => by simp at h

/-- An answer that is there is what the folder inherits. -/
theorem Sound.getElem?_eq (hr : Sound own resolved) (h : Inherits own id path found)
    (hmem : id ∈ resolved) : resolved[id]? = some found := by
  obtain ⟨ans, hans⟩ := isSome_iff_exists.1 (isSome_getElem?_iff_mem.2 hmem)
  obtain ⟨_, h'⟩ := hr id ans hans
  rw [hans, (h'.unique h).2]

/-- The part of a path before the first folder with an answer. -/
def unresolved (resolved : ExtTreeMap GroupId (T × GroupId)) (path : List GroupId) :
    List GroupId :=
  path.takeWhile fun id => decide (id ∉ resolved)

theorem unresolved_empty : unresolved (∅ : ExtTreeMap GroupId (T × GroupId)) path = path :=
  takeWhile_eq_self_iff.2 (by simp)

theorem unresolved_cons : unresolved resolved (id :: path)
    = if id ∈ resolved then [] else id :: unresolved resolved path := by
  simp only [unresolved, takeWhile_cons, decide_not, Bool.not_eq_true', decide_eq_false_iff_not,
    ite_not]

theorem Inherits.unresolved_eq_nil (h : Inherits own id path found) (hmem : id ∈ resolved) :
    unresolved resolved path = [] := by
  obtain ⟨rest, rfl⟩ := h.mem.2
  rw [unresolved_cons, if_pos hmem]

/-- The walk finds what is inherited if it may go as far as the first folder with an answer. -/
theorem walkUp_eq (hr : Sound own resolved) (h : Inherits own id path found) {fuel : Nat}
    (hchain : chain.Disjoint path) (hfuel : (unresolved resolved path).length ≤ fuel) :
    walkUp own resolved fuel chain (some id)
      = (chain ++ unresolved resolved path, some found) := by
  induction fuel generalizing id chain path with
  | zero =>
    by_cases hmem : id ∈ resolved
    · simp [walkUp, hr.getElem?_eq h hmem, h.unresolved_eq_nil hmem]
    · obtain ⟨rest, rfl⟩ := h.mem.2
      simp [unresolved_cons, hmem] at hfuel
  | succ fuel ih =>
    by_cases hmem : id ∈ resolved
    · simp [walkUp, hr.getElem?_eq h hmem, h.unresolved_eq_nil hmem]
    · cases h with
      | here hid => simp [walkUp, disjoint_singleton.1 hchain, hid, unresolved, hmem]
      | above hid hup =>
        rw [unresolved_cons, if_neg hmem] at hfuel ⊢
        obtain ⟨hnew, hrest⟩ := disjoint_cons_right.1 hchain
        have hdisj : (chain ++ [id]).Disjoint _ :=
          disjoint_append_left.2 ⟨hrest, singleton_disjoint.2 (hup.notMem hid)⟩
        simp [walkUp, hmem, hnew, hid, ih hup hdisj (Nat.le_of_lt_succ hfuel)]

/-- What the walk finds is inherited, and it went no further than it may. -/
theorem walkUp_sound (hr : Sound own resolved) {fuel : Nat} {cur : Option GroupId}
    (hfound : (walkUp own resolved fuel chain cur).2 = some found) :
    ∃ id ∈ cur, ∃ path, Inherits own id path found ∧ (unresolved resolved path).length ≤ fuel := by
  have hhere : ∀ {id fuel}, resolved[id]? = some found →
      ∃ path, Inherits own id path found ∧ (unresolved resolved path).length ≤ fuel := by
    intro id fuel hres
    obtain ⟨path, h⟩ := hr id found hres
    have hmem : id ∈ resolved := of_getElem?_eq_some hres
    exact ⟨path, h, by simp [h.unresolved_eq_nil hmem]⟩
  fun_induction walkUp with
  | case1 | case4 | case5 => simp at hfound
  | case2 chain id => exact ⟨id, rfl, hhere hfound⟩
  | case3 fuel chain id ans hres => exact ⟨id, rfl, hhere (hres.trans hfound)⟩
  | case6 fuel chain id hres hnew _ v hid =>
    obtain rfl := some.inj hfound
    have hmem : id ∉ resolved := by simpa using hres
    exact ⟨id, rfl, _, .here hid, by simp [unresolved, hmem]⟩
  | case7 fuel chain id hres hnew parent hid ih =>
    obtain ⟨parent, rfl, path, h, hlen⟩ := ih hfound
    have hmem : id ∉ resolved := by simpa using hres
    exact ⟨id, rfl, _, .above hid h, by simpa [unresolved_cons, hmem] using hlen⟩

theorem getElem?_foldl_insert {chain : List GroupId} :
    (chain.foldl (fun r id => r.insert id found) resolved)[id]?
      = if id ∈ chain then some found else resolved[id]? := by
  induction chain generalizing resolved with
  | nil => simp
  | cons c rest ih => grind

/-- One turn answers every folder on the way to the first answer, or none when that is too far or
nothing is inherited. -/
theorem resolveGroup_cases (own : ExtTreeMap GroupId (Option GroupId × Option T)) (start : GroupId)
    (hr : Sound own resolved) :
    resolveGroup own resolved start = resolved ∧ (∀ path found, Inherits own start path found →
      maxGroupDepth + 1 < (unresolved resolved path).length) ∨
    ∃ path found, Inherits own start path found ∧
      (unresolved resolved path).length ≤ maxGroupDepth + 1 ∧
      ∀ id, (resolveGroup own resolved start)[id]?
        = if id ∈ unresolved resolved path then some found else resolved[id]? := by
  rw [resolveGroup]
  split
  next hmem =>
    obtain ⟨found, hfound⟩ := isSome_iff_exists.1 (isSome_getElem?_iff_mem.2 hmem)
    obtain ⟨path, h⟩ := hr start found hfound
    exact .inr ⟨path, found, h, by simp [h.unresolved_eq_nil hmem]⟩
  next =>
    cases hwalk : walkUp own resolved (maxGroupDepth + 1) [] (some start) with
    | mk chain ans =>
      cases ans with
      | none =>
        refine .inl ⟨rfl, fun path found h => lt_of_not_ge fun hlen => ?_⟩
        simp [walkUp_eq hr h (disjoint_nil_left _) hlen] at hwalk
      | some found =>
        obtain ⟨_, hstart, path, h, hlen⟩ := walkUp_sound hr (congrArg Prod.snd hwalk)
        obtain rfl := some.inj hstart
        rw [walkUp_eq hr h (disjoint_nil_left _) hlen] at hwalk
        obtain ⟨rfl, -⟩ := Prod.mk.inj hwalk
        exact .inr ⟨path, found, h, hlen, fun id => getElem?_foldl_insert⟩

/-- A turn keeps the answers sound. -/
theorem resolveGroup_sound (hr : Sound own resolved) :
    Sound own (resolveGroup own resolved start) := by
  rcases resolveGroup_cases own start hr with ⟨he, -⟩ | ⟨path, found, h, -, he⟩
  · rwa [he]
  · intro id ans hid
    rw [he] at hid
    split at hid
    next hmem =>
      obtain ⟨rest, hrest, -⟩ := h.of_mem ((takeWhile_sublist _).subset hmem)
      exact ⟨rest, some.inj hid ▸ hrest⟩
    next => exact hr id ans hid

theorem resolveInOrder_sound : Sound own (resolveInOrder own order) :=
  foldlRecOn order _ sound_empty fun _ hr _ _ => resolveGroup_sound hr

/-- The turn of a folder answers it, or the way to the first answer is too far. -/
theorem resolveGroup_turn (hr : Sound own resolved) (h : Inherits own start path found) :
    start ∈ resolveGroup own resolved start ∨ resolveGroup own resolved start = resolved ∧
      maxGroupDepth + 1 < (unresolved resolved path).length := by
  rcases resolveGroup_cases own start hr with ⟨he, hfar⟩ | ⟨path', found', h', -, he⟩
  · exact .inr ⟨he, hfar path found h⟩
  · obtain ⟨rest, rfl⟩ := h'.mem.2
    rw [mem_iff_isSome_getElem?, he, unresolved_cons]
    by_cases hmem : start ∈ resolved <;> simp [hmem]

/-- An answered folder stays answered. -/
theorem mem_resolveGroup_of_mem (hr : Sound own resolved) (h : id ∈ resolved) :
    id ∈ resolveGroup own resolved start := by
  rcases resolveGroup_cases own start hr with ⟨he, -⟩ | ⟨_, _, _, -, he⟩
  · rwa [he]
  · rw [mem_iff_isSome_getElem?, he]
    split <;> simp [h]

/-- No value is inherited over more than `maxGroupDepth` links. -/
def NearEnough (own : ExtTreeMap GroupId (Option GroupId × Option T)) : Prop :=
  ∀ id path found, Inherits own id path found → path.length ≤ maxGroupDepth + 1

/-- Where every value is near enough, the answers are all that is inherited. -/
theorem getElem?_resolveInOrder (hnear : NearEnough own) (horder : order.Perm own.keys) :
    (resolveInOrder own order)[id]? = some found ↔ ∃ path, Inherits own id path found := by
  refine ⟨resolveInOrder_sound id found, fun ⟨path, h⟩ => ?_⟩
  refine Sound.getElem?_eq resolveInOrder_sound h ?_
  obtain ⟨before, after, rfl⟩ := append_of_mem (horder.mem_iff.2 (mem_keys.2 h.mem.1))
  have hbefore : Sound own (resolveInOrder own before) := resolveInOrder_sound
  have hturn := (resolveGroup_turn hbefore h).resolve_right fun hfar =>
    not_lt.2 ((takeWhile_sublist _).length_le.trans (hnear id path found h)) hfar.2
  rw [resolveInOrder, foldl_append, foldl_cons]
  exact (foldlRecOn after _ (motive := fun r => Sound own r ∧ id ∈ r)
    ⟨resolveGroup_sound hbefore, hturn⟩ fun _ hr _ _ =>
      ⟨resolveGroup_sound hr.1, mem_resolveGroup_of_mem hr.1 hr.2⟩).2

/-- If every order gives the same, what is inherited is answered. -/
theorem mem_of_same {r : ExtTreeMap GroupId (T × GroupId)}
    (hsame : ∀ order : List GroupId, order.Perm own.keys → resolveInOrder own order = r)
    (h : Inherits own id path found) : id ∈ r := by
  -- Let a folder come last.
  have hlast : ∀ {id path}, Inherits own id path found →
      id ∈ r ∨ maxGroupDepth + 1 < (unresolved r path).length := by
    intro id path h
    have horder := (perm_append_singleton id _).trans (perm_cons_erase (mem_keys.2 h.mem.1)).symm
    rw [← hsame _ horder, resolveInOrder, foldl_append, foldl_cons, foldl_nil]
    refine (resolveGroup_turn resolveInOrder_sound h).imp_right fun ⟨he, hfar⟩ => ?_
    rwa [← resolveInOrder, he]
  -- Then it finds the answer of its parent, one folder above.
  induction h with
  | here hid =>
    exact (hlast (.here hid)).resolve_right
      (not_lt.2 ((takeWhile_sublist _).length_le.trans (by simp)))
  | above hid hup ih =>
    refine (hlast (.above hid hup)).resolve_right ?_
    rw [unresolved_cons, hup.unresolved_eq_nil (ih hlast)]
    split <;> simp

/-- An order that leaves a folder too far from its value without an answer: the folders that
inherit through it come before all others. -/
theorem exists_order_without {far : GroupId} (h : Inherits own far path found)
    (hlen : maxGroupDepth + 1 < path.length) :
    ∃ order : List GroupId, order.Perm own.keys ∧ far ∉ resolveInOrder own order := by
  classical
  let through (id : GroupId) : Prop := ∃ path found, Inherits own id path found ∧ far ∈ path
  refine ⟨_, filter_append_perm (fun id => decide (through id)) own.keys, ?_⟩
  have hfirst : (own.keys.filter (fun id => decide (through id))).foldl (resolveGroup own) ∅
      = ∅ := by
    refine foldlRecOn (motive := (· = ∅)) _ _ rfl fun r hr id hid => ?_
    obtain ⟨path', found', h', hmem⟩ := of_decide_eq_true (mem_filter.1 hid).2
    obtain ⟨rest, hrest, hle⟩ := h'.of_mem hmem
    obtain rfl := (hrest.unique h).1
    subst hr
    rcases resolveGroup_cases own id sound_empty with ⟨he, -⟩ | ⟨path₁, found₁, h₁, hnear, -⟩
    · exact he
    · rw [unresolved_empty, (h₁.unique h').1] at hnear
      omega
  rw [resolveInOrder, foldl_append, hfirst]
  refine (foldlRecOn (motive := fun r => Sound own r ∧ far ∉ r) _ _ ⟨sound_empty, by simp⟩
    fun r hr id hid => ⟨resolveGroup_sound hr.1, ?_⟩).2
  rcases resolveGroup_cases own id hr.1 with ⟨he, -⟩ | ⟨path', found', h', -, he⟩
  · rw [he]
    exact hr.2
  · have hnot : ¬ through id := by simpa using (mem_filter.1 hid).2
    have hout : far ∉ unresolved r path' := fun hmem =>
      hnot ⟨path', found', h', (takeWhile_sublist _).subset hmem⟩
    rw [mem_iff_isSome_getElem?, he, if_neg hout, ← mem_iff_isSome_getElem?]
    exact hr.2

/-- The orders agree exactly where every value is near enough. -/
theorem resolveInOrder_same_iff :
    (∀ order : List GroupId, order.Perm own.keys →
      resolveInOrder own order = resolveInOrder own own.keys) ↔ NearEnough own := by
  refine ⟨fun hsame far path found h => not_lt.1 fun hlen => ?_, fun hnear order ho => ?_⟩
  · obtain ⟨order, ho, hnot⟩ := exists_order_without h hlen
    exact hnot (hsame order ho ▸ mem_of_same hsame h)
  · refine ExtTreeMap.ext_getElem? fun {id} => Option.ext fun found => ?_
    rw [getElem?_resolveInOrder hnear ho, getElem?_resolveInOrder hnear (.refl _)]

end Nearest

/-! ### Labels -/

section Labels

variable {own : ExtTreeMap GroupId LabelRow} {resolved : ExtTreeMap GroupId (OrdSet String)}
  {id parent start : GroupId} {cur : Option GroupId} {add remove : List String}
  {chain order : List GroupId} {acc : OrdSet String} {l : String}

/-- A folder has a label: it adds it, or the folder above has it and this one does not refuse it. -/
inductive Carries (own : ExtTreeMap GroupId LabelRow) : GroupId → String → Prop
  | here {id : GroupId} {parent : Option GroupId} {add remove : List String} {l : String} :
      own[id]? = some (parent, add, remove) → l ∈ add → Carries own id l
  | above {id parent : GroupId} {add remove : List String} {l : String} :
      own[id]? = some (some parent, add, remove) → Carries own parent l → l ∉ remove →
      Carries own id l

/-- What carries a label is a folder. -/
theorem Carries.mem (h : Carries own id l) : id ∈ own := by
  cases h <;> simp [mem_iff_isSome_getElem?, *]

/-- One step: what the folder above has, without what is refused here, and what is added here. -/
theorem carries_iff (hid : own[id]? = some (cur, add, remove)) :
    Carries own id l ↔ l ∈ add ∨ (∃ parent ∈ cur, Carries own parent l) ∧ l ∉ remove := by
  refine ⟨fun h => ?_, ?_⟩
  · cases h with
    | here hid' hl =>
      obtain ⟨-, rfl, -⟩ := by simpa [hid] using hid'
      exact .inl hl
    | above hid' hl hne =>
      obtain ⟨rfl, -, rfl⟩ := by simpa [hid] using hid'
      exact .inr ⟨⟨_, rfl, hl⟩, hne⟩
  · rintro (h | ⟨⟨c, hc, h⟩, hne⟩)
    · exact .here hid h
    · exact .above (hc ▸ hid) h hne

/-- A folder that is its own parent has what it adds. -/
theorem Carries.of_self (h : Carries own id l) (hid : own[id]? = some (some id, add, remove)) :
    l ∈ add := by
  induction h with
  | here hid' hl => simp_all
  | above hid' _ _ ih =>
    obtain ⟨rfl, -⟩ := by simpa [hid] using hid'
    exact ih hid

theorem mem_foldLabels (hid : own[id]? = some (cur, add, remove)) :
    l ∈ foldLabels own id acc ↔ l ∈ add ∨ l ∈ acc ∧ l ∉ remove := by
  simp [foldLabels, hid, or_comm]

/-- The set holds the labels of the folder. -/
def Told (own : ExtTreeMap GroupId LabelRow) (id : GroupId) (labels : OrdSet String) : Prop :=
  id ∈ own ∧ ∀ l, l ∈ labels ↔ Carries own id l

/-- A folder's labels, from a set with those of the folder above. -/
theorem told_foldLabels (hid : own[id]? = some (cur, add, remove))
    (h : ∀ l, l ∈ add ∨ l ∈ remove ∨ (l ∈ acc ↔ ∃ parent ∈ cur, Carries own parent l)) :
    Told own id (foldLabels own id acc) := by
  refine ⟨of_getElem?_eq_some hid, fun l => ?_⟩
  rw [mem_foldLabels hid, carries_iff hid]
  rcases h l with h | h | h <;> simp [h]

/-- A walk along parent links can end at a folder although it has a parent: it has come as far as it
may, or it has been at the parent. -/
def CutAbove (own : ExtTreeMap GroupId LabelRow) (id : GroupId) : Prop :=
  ∃ chain : List GroupId, (chain ++ [id]).Nodup ∧ (chain ++ [id]).IsChain (Link own) ∧
    chain.length ≤ maxGroupDepth ∧
    (chain.length = maxGroupDepth ∨ ∃ c ∈ chain ++ [id], Link own id c)

/-- A folder where a walk can end so adds or refuses all that its parent has. -/
def CutsHarmless (own : ExtTreeMap GroupId LabelRow) : Prop :=
  ∀ id parent add remove l, CutAbove own id → own[id]? = some (some parent, add, remove) →
    Carries own parent l → l ∈ add ∨ l ∈ remove

/-- Every entry holds the labels of its folder. -/
def Faithful (own : ExtTreeMap GroupId LabelRow) (resolved : ExtTreeMap GroupId (OrdSet String)) :
    Prop :=
  ∀ id labels, resolved[id]? = some labels → Told own id labels

/-- The folders a walk has come through: new ones, each the parent of the one before, and the next
is the parent of the last. -/
structure Walked (own : ExtTreeMap GroupId LabelRow) (resolved : ExtTreeMap GroupId (OrdSet String))
    (chain : List GroupId) (up : Option GroupId) : Prop where
  nodup : chain.Nodup
  links : chain.IsChain (Link own)
  fresh : ∀ id ∈ chain, id ∉ resolved
  next : ∀ id ∈ chain.getLast?, ∃ row, own[id]? = some (up, row)
  short : chain.length ≤ maxGroupDepth + 1

/-- A walk ends before a folder that has labels, with those, and without any before one that is no
folder, or that it has been at, or when it has come as far as it may. -/
structure Ended (own : ExtTreeMap GroupId LabelRow) (resolved : ExtTreeMap GroupId (OrdSet String))
    (walked : List GroupId × OrdSet String) (up : Option GroupId) : Prop
    extends Walked own resolved walked.1 up where
  labels : walked.2 = (up.bind (resolved[·]?)).getD ∅
  stop : ∀ id ∈ up, id ∈ own → id ∈ resolved ∨ id ∈ walked.1 ∨ walked.1.length = maxGroupDepth + 1

theorem Walked.concat (h : Walked own resolved chain (some id)) (hnew : id ∉ chain)
    (hfresh : id ∉ resolved) (hshort : chain.length ≤ maxGroupDepth)
    {row : List String × List String} (hid : own[id]? = some (cur, row)) :
    Walked own resolved (chain ++ [id]) cur where
  nodup := h.nodup.append (nodup_singleton id) (disjoint_singleton.2 hnew)
  links := by
    refine h.links.append (isChain_singleton _) fun x hx y hy => ?_
    obtain rfl := by simpa using hy
    exact h.next x hx
  fresh := by simpa [or_imp, forall_and, hfresh] using h.fresh
  next := by simpa using ⟨row.1, row.2, hid⟩
  short := by simpa using hshort

theorem walkLabels_spec {fuel : Nat} (h : Walked own resolved chain cur)
    (hfuel : fuel + chain.length = maxGroupDepth + 1) :
    chain <+: (walkLabels own resolved fuel chain cur).1 ∧
      ∃ up, Ended own resolved (walkLabels own resolved fuel chain cur) up := by
  fun_induction walkLabels with
  | case1 _ chain => exact ⟨prefix_rfl, _, h, rfl, by simp⟩
  | case2 chain id =>
    refine ⟨prefix_rfl, _, h, by simp [getD_eq_getD_getElem?], fun _ _ _ => .inr (.inr ?_)⟩
    exact (Nat.zero_add _).symm.trans hfuel
  | case3 fuel chain id found hres =>
    have hmem : id ∈ resolved := of_getElem?_eq_some hres
    exact ⟨prefix_rfl, _, h, by simp [hres], by simp [hmem]⟩
  | case4 fuel chain id hres hmem => exact ⟨prefix_rfl, _, h, by simp [hres], by simp [hmem]⟩
  | case5 fuel chain id hres hmem hid =>
    have hout : id ∉ own := by simpa using hid
    exact ⟨prefix_rfl, _, h, by simp [hres], by simp [hout]⟩
  | case6 fuel chain id hres hnew parent row hid ih =>
    have hwalked := h.concat hnew (by simpa using hres) (by omega) hid
    obtain ⟨hpre, hended⟩ := ih hwalked (by rw [length_append, length_singleton]; omega)
    exact ⟨(prefix_append _ _).trans hpre, hended⟩

theorem unwind_cons {c : GroupId} {rest : List GroupId} :
    unwind own resolved (c :: rest, acc)
      = (foldLabels own c (unwind own resolved (rest, acc)).1,
        (unwind own resolved (rest, acc)).2.insert c
          (foldLabels own c (unwind own resolved (rest, acc)).1)) := rfl

/-- Unwinding leaves the other folders alone. -/
theorem getElem?_unwind_of_notMem (h : id ∉ chain) :
    (unwind own resolved (chain, acc)).2[id]? = resolved[id]? := by
  induction chain with
  | nil => rfl
  | cons c rest ih =>
    rw [mem_cons, not_or] at h
    rw [← ih h.2]
    simp [unwind_cons, ExtTreeMap.getElem?_insert, Ne.symm h.1]

/-- Unwinding gives the last folder of a walk what the walk ended with. -/
theorem getElem?_unwind_concat (h : id ∉ chain) :
    (unwind own resolved (chain ++ [id], acc)).2[id]? = some (foldLabels own id acc) := by
  induction chain with
  | nil => simp [unwind]
  | cons c rest ih =>
    rw [mem_cons, not_or] at h
    rw [← ih h.2, cons_append]
    simp [unwind_cons, ExtTreeMap.getElem?_insert, Ne.symm h.1]

/-- Unwinding a walk keeps the table right and fills in the folders of the walk. -/
theorem unwind_faithful (hr : Faithful own resolved) (hlinks : chain.IsChain (Link own))
    (htold : ∀ id ∈ chain.getLast?, Told own id (foldLabels own id acc)) :
    (∀ id ∈ chain.head?, Told own id (unwind own resolved (chain, acc)).1) ∧
      Faithful own (unwind own resolved (chain, acc)).2 ∧
      ∀ id ∈ chain, id ∈ (unwind own resolved (chain, acc)).2 := by
  induction chain with
  | nil => exact ⟨by simp, hr, by simp⟩
  | cons c rest ih =>
    obtain ⟨hhead, hfaithful, hmem⟩ :=
      ih (hlinks.tail) fun id hid => htold id (by rw [getLast?_cons, Option.mem_def.1 hid]; rfl)
    have hc : Told own c (foldLabels own c (unwind own resolved (rest, acc)).1) := by
      cases rest with
      | nil => exact htold c rfl
      | cons next rest =>
        obtain ⟨⟨add, remove⟩, hrow⟩ := (isChain_cons_cons.1 hlinks).1
        exact told_foldLabels hrow fun l => .inr (.inr (by simpa using (hhead next rfl).2 l))
    refine ⟨by simpa [unwind_cons] using hc, fun id labels hid => ?_, fun id hid => ?_⟩
    · rw [unwind_cons, ExtTreeMap.getElem?_insert] at hid
      split at hid
      next he =>
        obtain rfl := some.inj hid
        exact Std.compare_eq_iff_eq.1 he ▸ hc
      next => exact hfaithful id labels hid
    · rw [unwind_cons, ExtTreeMap.mem_insert]
      rcases mem_cons.1 hid with rfl | hid
      · simp
      · exact .inr (hmem id hid)

/-- One turn starts a walk, or finds the labels already there. -/
theorem accumulateGroup_cases (resolved : ExtTreeMap GroupId (OrdSet String))
    (hstart : start ∈ own) :
    start ∈ resolved ∧ accumulateGroup own resolved start = resolved ∨
    ∃ rest acc up, Ended own resolved (start :: rest, acc) up ∧
      accumulateGroup own resolved start = (unwind own resolved (start :: rest, acc)).2 := by
  by_cases h : start ∈ resolved
  · exact .inl ⟨h, if_pos h⟩
  · obtain ⟨⟨parent, row⟩, hid⟩ := isSome_iff_exists.1 (isSome_getElem?_iff_mem.2 hstart)
    have hnil : Walked own resolved [] (some start) :=
      ⟨by simp, by simp, by simp, by simp, by simp⟩
    have hwalk := walkLabels_spec (hnil.concat (by simp) h (by simp) hid)
      (show maxGroupDepth + 1 = maxGroupDepth + 1 from rfl)
    rw [accumulateGroup, if_neg h]
    simp only [walkLabels, getElem?_neg _ _ h, hid, not_mem_nil, if_false]
    generalize walkLabels own resolved maxGroupDepth ([] ++ [start]) parent = walked at hwalk ⊢
    obtain ⟨chain, acc⟩ := walked
    obtain ⟨⟨rest, rfl⟩, up, hended⟩ := hwalk
    exact .inr ⟨rest, acc, up, hended, rfl⟩

/-- The turns leave the labels of a folder that has them. -/
theorem getElem?_foldl_accumulateGroup (h : id ∈ resolved) (horder : order ⊆ own.keys) :
    (order.foldl (accumulateGroup own) resolved)[id]? = resolved[id]? := by
  refine (foldlRecOn order (accumulateGroup own) (motive := fun r => r[id]? = resolved[id]?) rfl
    fun r hr start hstart => ?_)
  obtain ⟨-, he⟩ | ⟨_, _, _, hended, he⟩ :=
    accumulateGroup_cases r (mem_keys.1 (horder hstart)) <;> rw [he]
  · exact hr
  · rw [getElem?_unwind_of_notMem fun hid => hended.fresh id hid ?_, hr]
    rwa [mem_iff_isSome_getElem?, hr, ← mem_iff_isSome_getElem?]

/-- Where cuts are harmless, the last folder of a walk gets its labels. -/
theorem Ended.told {up : Option GroupId} (hended : Ended own resolved (chain, acc) up)
    (hcuts : CutsHarmless own) (hr : Faithful own resolved) (hid : id ∈ chain.getLast?) :
    Told own id (foldLabels own id acc) := by
  obtain ⟨⟨add, remove⟩, hrow⟩ := hended.next id hid
  refine told_foldLabels hrow fun l => ?_
  obtain rfl : acc = _ := hended.labels
  by_cases hl : ∃ parent ∈ up, Carries own parent l
  · obtain ⟨parent, rfl, hl⟩ := hl
    by_cases hmem : parent ∈ resolved
    · have := (hr parent _ (getElem?_pos _ _ hmem)).2 l
      exact .inr (.inr (by simpa [hmem] using this))
    · obtain ⟨before, rfl⟩ := getLast?_eq_some_iff.1 hid
      have hstop := (hended.stop parent rfl hl.mem).resolve_left hmem
      have hcut : CutAbove own id := ⟨before, hended.nodup, hended.links,
        by simpa using hended.short, hstop.symm.imp (by simp) fun hin => ⟨parent, hin, _, hrow⟩⟩
      exact (hcuts id parent add remove l hcut hrow hl).imp_right .inl
  · refine .inr (.inr (iff_of_false (fun hmem => hl ?_) hl))
    obtain ⟨parent, rfl⟩ : ∃ parent, up = some parent := by
      cases up <;> simp_all
    cases hres : resolved[parent]? with
    | none => simp [hres] at hmem
    | some labels =>
      exact ⟨parent, rfl, ((hr parent labels hres).2 l).1 (by simpa [hres] using hmem)⟩

/-- Where cuts are harmless a turn keeps the table right, and fills in its folder. -/
theorem accumulateGroup_faithful (hcuts : CutsHarmless own) (hr : Faithful own resolved)
    (hstart : start ∈ own) : Faithful own (accumulateGroup own resolved start) ∧
      start ∈ accumulateGroup own resolved start := by
  obtain ⟨hmem, he⟩ | ⟨rest, acc, up, hended, he⟩ := accumulateGroup_cases resolved hstart <;>
    rw [he]
  · exact ⟨hr, hmem⟩
  · obtain ⟨-, hfaithful, hin⟩ :=
      unwind_faithful hr hended.links fun id hid => hended.told hcuts hr hid
    exact ⟨hfaithful, hin start (mem_cons_self ..)⟩

/-- Where cuts are harmless every folder gets its labels. -/
theorem accumulateInOrder_spec (hcuts : CutsHarmless own) (horder : order.Perm own.keys) :
    Faithful own (accumulateInOrder own order) ∧
      ∀ id, id ∈ accumulateInOrder own order ↔ id ∈ own := by
  have hrun : ∀ order : List GroupId, order ⊆ own.keys →
      Faithful own (order.foldl (accumulateGroup own) ∅) := fun order hsub =>
    foldlRecOn order _ (by simp [Faithful]) fun _ hr start hstart =>
      (accumulateGroup_faithful hcuts hr (mem_keys.1 (hsub hstart))).1
  refine ⟨hrun order horder.subset, fun id => ⟨fun hid => ?_, fun hid => ?_⟩⟩
  · exact (hrun order horder.subset id _ (getElem?_pos _ _ hid)).1
  · obtain ⟨before, after, rfl⟩ := append_of_mem (horder.mem_iff.2 (mem_keys.2 hid))
    obtain ⟨hbefore, hafter⟩ := append_subset.1 horder.subset
    have hturn := (accumulateGroup_faithful hcuts (hrun before hbefore) hid).2
    rw [accumulateInOrder, foldl_append, foldl_cons, mem_iff_isSome_getElem?,
      getElem?_foldl_accumulateGroup hturn (cons_subset.1 hafter).2, ← mem_iff_isSome_getElem?]
    exact hturn

/-- When all are filled in, a label of a folder is one in its entry. -/
theorem Faithful.carries_iff (hr : Faithful own resolved) (hmem : ∀ id, id ∈ resolved ↔ id ∈ own) :
    Carries own id l ↔ ∃ labels, resolved[id]? = some labels ∧ l ∈ labels := by
  constructor
  · intro h
    have hid := getElem?_pos _ _ ((hmem id).2 h.mem)
    exact ⟨_, hid, ((hr id _ hid).2 l).2 h⟩
  · rintro ⟨labels, hid, hl⟩
    exact ((hr id labels hid).2 l).1 hl

/-- A path of links up to a folder starts at a folder. -/
theorem head_mem (hlinks : (chain ++ [id]).IsChain (Link own)) (hid : id ∈ own)
    (hstart : (chain ++ [id]).head? = some start) : start ∈ own := by
  match chain with
  | [] => simpa [← some.inj hstart] using hid
  | [c] => exact some.inj hstart ▸ (isChain_cons_cons.1 hlinks).1.mem
  | c :: d :: rest => exact some.inj hstart ▸ (isChain_cons_cons.1 hlinks).1.mem

/-- With nothing filled in, a walk goes along any path of links. -/
theorem walkLabels_along {path : List GroupId} {last : GroupId} {row : List String × List String}
    {fuel : Nat} (hnodup : (chain ++ path).Nodup) (hlinks : path.IsChain (Link own))
    (hlast : path.getLast? = some last) (hrow : own[last]? = some (cur, row)) :
    walkLabels own ∅ (fuel + path.length) chain path.head?
      = walkLabels own ∅ fuel (chain ++ path) cur := by
  induction path generalizing chain with
  | nil => simp at hlast
  | cons c rest ih =>
    have hnew : c ∉ chain := fun hc => (disjoint_of_nodup_append hnodup) hc (mem_cons_self ..)
    cases rest with
    | nil =>
      obtain rfl := by simpa using hlast
      simp [walkLabels, hrow, hnew]
    | cons d rest =>
      obtain ⟨⟨row', hc⟩, hrest⟩ := isChain_cons_cons.1 hlinks
      have hnodup' : (chain ++ [c] ++ d :: rest).Nodup := by simpa using hnodup
      have := ih hnodup' hrest (by simpa using hlast)
      simpa [walkLabels, hc, hnew, ← Nat.add_assoc] using this

section
variable {r : ExtTreeMap GroupId (OrdSet String)}
  (hsame : ∀ order : List GroupId, order.Perm own.keys → accumulateInOrder own order = r)

include hsame

/-- If every order gives the same, the first turn of any folder settles what it fills in. -/
theorem getElem?_of_same (hstart : start ∈ own) {labels : OrdSet String}
    (h : (accumulateGroup own ∅ start)[id]? = some labels) : r[id]? = some labels := by
  rw [← hsame _ (perm_cons_erase (mem_keys.2 hstart)).symm, accumulateInOrder, foldl_cons,
    getElem?_foldl_accumulateGroup (of_getElem?_eq_some h)
      fun _ hx => mem_of_mem_erase hx, h]

/-- Then a folder has its labels from those of its parent. -/
theorem labels_of_same (hid : id ∈ own) : ∃ acc, r[id]? = some (foldLabels own id acc) ∧
    ∀ parent ∈ own, Link own id parent → id ≠ parent → r[parent]? = some acc := by
  obtain ⟨hmem, -⟩ | ⟨rest, acc, up, hended, he⟩ := accumulateGroup_cases ∅ hid
  · simp at hmem
  refine ⟨(unwind own ∅ (rest, acc)).1, getElem?_of_same hsame hid ?_,
    fun parent hparent ⟨row, hrow⟩ hne => ?_⟩
  · rw [he, unwind_cons, getElem?_insert_self]
  · refine getElem?_of_same hsame hid ?_
    cases rest with
    | nil =>
      obtain ⟨row', hrow'⟩ := hended.next id rfl
      obtain ⟨rfl, -⟩ := by simpa [hrow] using hrow'
      have := hended.stop parent rfl hparent
      simp [maxGroupDepth, Ne.symm hne] at this
    | cons c rest =>
      obtain ⟨row', hrow'⟩ := (isChain_cons_cons.1 hended.links).1
      obtain ⟨rfl, -⟩ := by simpa [hrow] using hrow'
      rw [he, unwind_cons, unwind_cons, ExtTreeMap.getElem?_insert]
      simp [hne]

/-- Then a folder where a walk can end has the labels it adds. -/
theorem labels_of_cut (hcut : CutAbove own id) (hid : own[id]? = some (some parent, add, remove)) :
    r[id]? = some (foldLabels own id ∅) := by
  obtain ⟨before, hnodup, hlinks, hshort, hend⟩ := hcut
  obtain ⟨start, hstart⟩ : ∃ start, (before ++ [id]).head? = some start := by
    cases before <;> simp
  have hstop : walkLabels own ∅ (maxGroupDepth - before.length) (before ++ [id]) (some parent)
      = (before ++ [id], ∅) := by
    rcases hend with hlen | ⟨c, hc, row, hrow⟩
    · simp [hlen, walkLabels]
    · obtain ⟨rfl, -⟩ := by simpa [hid] using hrow
      cases maxGroupDepth - before.length <;> simp_all [walkLabels]
  have hfuel : maxGroupDepth + 1 = maxGroupDepth - before.length + (before ++ [id]).length := by
    rw [length_append, length_singleton]
    omega
  have hwalk : walkLabels own ∅ (maxGroupDepth + 1) [] (some start) = (before ++ [id], ∅) := by
    rw [hfuel, ← hstart, walkLabels_along (by simpa using hnodup) hlinks (by simp) hid, ← hstop,
      nil_append]
  refine getElem?_of_same hsame (head_mem hlinks (of_getElem?_eq_some hid) hstart) ?_
  rw [accumulateGroup, if_neg (by simp), hwalk]
  exact getElem?_unwind_concat fun hmem => (disjoint_of_nodup_append hnodup) hmem (by simp)

/-- Then a folder has at least the labels it carries. -/
theorem mem_of_carries (h : Carries own id l) : ∃ labels, r[id]? = some labels ∧ l ∈ labels := by
  induction h with
  | here hid hl =>
    obtain ⟨acc, hacc, -⟩ := labels_of_same hsame (Carries.here hid hl).mem
    exact ⟨_, hacc, (mem_foldLabels hid).2 (.inl hl)⟩
  | @above id parent _ _ l hid hl hne ih =>
    by_cases hself : id = parent
    · exact hself ▸ ih
    · obtain ⟨acc, hacc, hparent⟩ := labels_of_same hsame (Carries.above hid hl hne).mem
      obtain ⟨labels, hlabels, hmem⟩ := ih
      obtain rfl := some.inj ((hparent parent hl.mem ⟨_, hid⟩ hself).symm.trans hlabels)
      exact ⟨_, hacc, (mem_foldLabels hid).2 (.inr ⟨hmem, hne⟩)⟩

end

/-- The orders agree exactly where cuts are harmless. -/
theorem accumulateInOrder_same_iff :
    (∀ order : List GroupId, order.Perm own.keys →
      accumulateInOrder own order = accumulateInOrder own own.keys) ↔ CutsHarmless own := by
  refine ⟨fun hsame id parent add remove l hcut hid hl => ?_, fun hcuts order ho => ?_⟩
  · by_cases hself : id = parent
    · exact .inl (hl.of_self (hself ▸ hid))
    · -- The labels of the folder are both those it adds and those it has with its parent's.
      obtain ⟨acc, hacc, hparent⟩ :=
        labels_of_same hsame (of_getElem?_eq_some hid)
      obtain ⟨labels, hlabels, hmem⟩ := mem_of_carries hsame hl
      obtain rfl := some.inj ((hparent parent hl.mem ⟨_, hid⟩ hself).symm.trans hlabels)
      rw [labels_of_cut hsame hcut hid] at hacc
      have hboth := congrArg (l ∈ ·) (some.inj hacc)
      simp only [mem_foldLabels hid, eq_iff_iff] at hboth
      by_contra hne
      simp_all
  · obtain ⟨hr, hmem⟩ := accumulateInOrder_spec hcuts ho
    obtain ⟨hr', hmem'⟩ := accumulateInOrder_spec hcuts (.refl _)
    refine ExtTreeMap.ext_getElem? fun {id} => ?_
    by_cases hid : id ∈ own
    · have h := getElem?_pos _ _ ((hmem id).2 hid)
      have h' := getElem?_pos _ _ ((hmem' id).2 hid)
      rw [h, h']
      exact congrArg some (OrdSet.ext fun l => ((hr id _ h).2 l).trans ((hr' id _ h').2 l).symm)
    · rw [getElem?_neg _ _ fun h => hid ((hmem id).1 h),
        getElem?_neg _ _ fun h => hid ((hmem' id).1 h)]

end Labels

/-! ### Every order -/

section Order

variable {T β : Type} {own : ExtTreeMap GroupId (Option GroupId × β)}

/-- No cycle, and no folder with more than `maxGroupDepth` folders above it. -/
structure Forest (own : ExtTreeMap GroupId (Option GroupId × β)) : Prop where
  acyclic : ∀ id, ¬ TransGen (Link own) id id
  shallow : ∀ chain : List GroupId, chain.IsChain (Link own) → (∀ id ∈ chain, id ∈ own) →
    chain.length ≤ maxGroupDepth + 1

/-- In a forest no value is too far up. -/
theorem Forest.nearEnough {own : ExtTreeMap GroupId (Option GroupId × Option T)}
    (hf : Forest own) : NearEnough own := by
  intro id path found h
  refine hf.shallow path ?_ fun c hc => ?_
  · induction h with
    | here => exact isChain_singleton _
    | above hid hup ih =>
      obtain ⟨rest, rfl⟩ := hup.mem.2
      exact isChain_cons_cons.2 ⟨⟨_, hid⟩, ih⟩
  · obtain ⟨_, hrest, -⟩ := h.of_mem hc
    exact hrest.mem.1

/-- In a forest no walk is cut before a folder. -/
theorem Forest.cutsHarmless {own : ExtTreeMap GroupId LabelRow} (hf : Forest own) :
    CutsHarmless own := by
  rintro id parent add remove l ⟨before, -, hlinks, -, hend⟩ hid hl
  have hlonger : (before ++ [id] ++ [parent]).IsChain (Link own) :=
    hlinks.append (isChain_singleton _) (by simpa using ⟨_, hid⟩)
  have hbelow := pairwise_append.1 (hlonger.imp fun _ _ => TransGen.single).pairwise
  rcases hend with hlen | ⟨c, hc, hback⟩
  · have hin : ∀ c ∈ before ++ [id] ++ [parent], c ∈ own := by
      intro c hc
      rcases mem_append.1 hc with hc | hc
      · obtain ⟨_, hlink, -⟩ := TransGen.head'_iff.1 (hbelow.2.2 c hc parent (by simp))
        exact hlink.mem
      · exact mem_singleton.1 hc ▸ hl.mem
    have := hf.shallow _ hlonger hin
    simp [hlen] at this
  · rcases mem_append.1 hc with hc | hc
    · have hup := (pairwise_append.1 hbelow.1).2.2 c hc id (by simp)
      exact absurd (hup.tail hback) (hf.acyclic c)
    · exact absurd (.single (by simpa [mem_singleton.1 hc] using hback)) (hf.acyclic id)

variable (rows : List (GroupId × Option GroupId × Option T))
  (labelRows : List (GroupId × LabelRow))

/-- In a forest, whatever order the folders come in, exactly the folders with a value at or above
them are answered, with the nearest. Every folder has labels: those of its parent without what it
refuses, and what it adds. -/
theorem folders_inherit_along_chain (hf : Forest (.ofList rows))
    (hlabels : Forest (.ofList labelRows)) :
    ((∀ order : List GroupId, order.Perm (ExtTreeMap.ofList rows).keys →
        resolveInOrder (.ofList rows) order = resolveNearestAncestor rows) ∧
      ∀ id found, (resolveNearestAncestor rows)[id]? = some found ↔
        ∃ path, Inherits (.ofList rows) id path found) ∧
    (∀ order : List GroupId, order.Perm (ExtTreeMap.ofList labelRows).keys →
      accumulateInOrder (.ofList labelRows) order = accumulateAncestorLabels labelRows) ∧
    (∀ id, id ∈ accumulateAncestorLabels labelRows ↔ id ∈ ExtTreeMap.ofList labelRows) ∧
    ∀ (id : GroupId) (parent : Option GroupId) (add remove : List String),
      (ExtTreeMap.ofList labelRows)[id]? = some (parent, add, remove) →
      ∃ labels, (accumulateAncestorLabels labelRows)[id]? = some labels ∧
        ∀ l, l ∈ labels ↔ l ∈ add ∨ l ∉ remove ∧ ∃ above ∈ parent, ∃ inherited,
          (accumulateAncestorLabels labelRows)[above]? = some inherited ∧ l ∈ inherited := by
  obtain ⟨hfaithful, hmem⟩ := accumulateInOrder_spec hlabels.cutsHarmless (.refl _)
  refine ⟨⟨fun order ho => resolveInOrder_same_iff.2 hf.nearEnough order ho,
    fun id found => getElem?_resolveInOrder hf.nearEnough (.refl _)⟩,
    fun order ho => accumulateInOrder_same_iff.2 hlabels.cutsHarmless order ho, hmem,
    fun id parent add remove hid => ?_⟩
  have hin := (hmem id).2 (of_getElem?_eq_some hid)
  refine ⟨_, getElem?_pos _ _ hin, fun l => ?_⟩
  rw [(hfaithful id _ (getElem?_pos _ _ hin)).2, carries_iff hid, and_comm]
  simp only [hfaithful.carries_iff hmem, accumulateAncestorLabels]

/-- A folder inside another. -/
theorem forest_two (outer inner : β) :
    Forest (.ofList [(1, none, outer), (2, some 1, inner)]) := by
  have hlink : ∀ x y, Link (.ofList [(1, none, outer), (2, some 1, inner)]) x y →
      x = 2 ∧ y = 1 := by
    rintro x y ⟨row, hrow⟩
    have hx : x = 1 ∨ x = 2 := by
      have := Link.mem ⟨row, hrow⟩
      simpa [mem_ofList] using this
    rcases hx with rfl | rfl
    · cases hrow
    · cases hrow
      exact ⟨rfl, rfl⟩
  refine ⟨fun id h => ?_, fun chain hlinks _ => ?_⟩
  · obtain ⟨y, hfirst, -⟩ := Relation.TransGen.head'_iff.1 h
    obtain ⟨x, -, hlast⟩ := Relation.TransGen.tail'_iff.1 h
    exact absurd ((hlink _ _ hfirst).1.symm.trans (hlink _ _ hlast).2) (by decide)
  · match chain, hlinks with
    | [], _ => simp
    | [_], _ => simp [maxGroupDepth]
    | [_, _], _ => simp [maxGroupDepth]
    | a :: b :: c :: rest, hlinks =>
      obtain ⟨hab, hrest⟩ := isChain_cons_cons.1 hlinks
      have hbc := (isChain_cons_cons.1 hrest).1
      exact absurd ((hlink _ _ hab).2.symm.trans (hlink _ _ hbc).1) (by decide)

theorem folders_inherit_along_chain_two :
    (resolveNearestAncestor [(1, none, some "tokyo"), (2, some 1, none)])[2]?
        = some ("tokyo", 1) ∧
      ∃ labels, (accumulateAncestorLabels
          [(1, none, ["site", "rack"], []), (2, some 1, ["lab"], ["site"])])[2]? = some labels ∧
        "lab" ∈ labels ∧ "site" ∉ labels := by
  obtain ⟨⟨-, hnearest⟩, -, -, hlabels⟩ := folders_inherit_along_chain
    [(1, none, some "tokyo"), (2, some 1, none)]
    [(1, none, ["site", "rack"], []), (2, some 1, ["lab"], ["site"])]
    (forest_two _ _) (forest_two _ _)
  refine ⟨(hnearest 2 _).2 ⟨_, .above rfl (.here rfl)⟩, ?_⟩
  obtain ⟨labels, hsome, hiff⟩ := hlabels 2 (some 1) ["lab"] ["site"] rfl
  exact ⟨labels, hsome, (hiff "lab").2 (by simp), by simp [hiff]⟩

/-- The visiting order does not matter exactly where no walk is cut or the cut does no harm. -/
theorem inheritance_ignores_order :
    ((∀ order : List GroupId, order.Perm (ExtTreeMap.ofList rows).keys →
      resolveInOrder (.ofList rows) order = resolveNearestAncestor rows) ↔
        NearEnough (.ofList rows)) ∧
    ((∀ order : List GroupId, order.Perm (ExtTreeMap.ofList labelRows).keys →
      accumulateInOrder (.ofList labelRows) order = accumulateAncestorLabels labelRows) ↔
        CutsHarmless (.ofList labelRows)) :=
  ⟨resolveInOrder_same_iff, accumulateInOrder_same_iff⟩

/-- Two folders that are each the parent of the other. The one the loop comes to first gets both
labels. -/
theorem labels_follow_order :
    let loop : ExtTreeMap GroupId LabelRow :=
      .ofList [(1, some 2, ["a"], []), (2, some 1, ["b"], [])]
    List.Perm [1, 2] loop.keys ∧ List.Perm [2, 1] loop.keys ∧
      (accumulateInOrder loop [1, 2])[1]?.map OrdSet.toList = some ["a", "b"] ∧
      (accumulateInOrder loop [2, 1])[1]?.map OrdSet.toList = some ["a"] := by
  decide +kernel

end Order

/-! ### Moving a folder -/

section Move

variable {edges : GroupEdges} {x y m : GroupId} {p : Option GroupId}

/-- The parent link of a folder. -/
abbrev Under (edges : GroupEdges) (x y : GroupId) : Prop := parentOf edges x = some y

/-- No folder is above itself. -/
def Acyclic (edges : GroupEdges) : Prop := ∀ g, ¬ TransGen (Under edges) g g

theorem find?_fst {e : GroupId × Option GroupId} (h : edges.find? (fun e => e.1 = x) = some e) :
    e.1 = x := by
  simpa using find?_some h

theorem mem_of_parentOf (h : parentOf edges x = some y) : (x, some y) ∈ edges := by
  obtain ⟨⟨id, parent⟩, hfind, rfl⟩ := bind_eq_some_iff.1 h
  obtain rfl : id = x := find?_fst hfind
  exact mem_of_find?_eq_some hfind

theorem parentOf_eq_some (hids : (edges.map Prod.fst).Nodup) :
    parentOf edges x = some y ↔ (x, some y) ∈ edges := by
  refine ⟨mem_of_parentOf, fun hmem => ?_⟩
  have hfind : (edges.find? fun e => e.1 = x).isSome :=
    find?_isSome.2 ⟨_, hmem, decide_eq_true rfl⟩
  obtain ⟨e, he⟩ := isSome_iff_exists.1 hfind
  have hrow := inj_on_of_nodup_map hids (mem_of_find?_eq_some he) hmem (find?_fst he)
  rw [parentOf, he, hrow]
  rfl

/-- The walk up from a folder is a breadth-first walk with one successor. -/
theorem cons_climb (fuel : Nat) (seen : OrdSet GroupId) (x : GroupId) :
    walkOrder (fun x => (parentOf edges x).toList)
        (fun y => decide (y ∈ edges.filterMap Prod.snd)) (fuel + 1) seen [x]
      = x :: climb edges fuel seen (parentOf edges x) := by
  induction fuel generalizing seen x with
  | zero => simp [walkOrder, climb]
  | succ fuel ih =>
    rw [walkOrder]
    cases hx : parentOf edges x with
    | none => simp [walkOrder, climb, discover]
    | some y =>
      have hy : y ∈ edges.filterMap Prod.snd :=
        mem_filterMap.2 ⟨_, mem_of_parentOf hx, rfl⟩
      by_cases hseen : y ∈ seen
      · simp [discover, hseen, climb, walkOrder]
      · simp [discover, hseen, hy, climb, ih]

/-- The chain has what the parent links lead to, each folder once. -/
theorem groupAncestors_spec (edges : GroupEdges) (g : GroupId) :
    (g :: groupAncestors edges g).Nodup ∧ ∀ a, a ∈ g :: groupAncestors edges g ↔
      ReflTransGen (Under edges) g a := by
  have hkeep : ∀ x, ∀ y ∈ (parentOf edges x).toList,
      decide (y ∈ edges.filterMap Prod.snd) = true := fun x y hy =>
    decide_eq_true (mem_filterMap.2 ⟨_, mem_of_parentOf (mem_toList.1 hy), rfl⟩)
  have hspec := walkOrder_spec (fun y hy => of_decide_eq_true hy) hkeep
    (Nat.succ_le_succ (length_filterMap_le Prod.snd edges)) g
  rw [cons_climb] at hspec
  simp only [mem_toList] at hspec
  exact hspec

theorem comesTo_of_reaches (h : ReflTransGen (Under edges) x m) (turns : Nat) :
    comesTo edges m turns (some x) = true := by
  induction h using ReflTransGen.head_induction_on generalizing turns with
  | refl => cases turns <;> simp [comesTo]
  | head hstep _ ih =>
    cases turns with
    | zero => rfl
    | succ turns => simp [comesTo, hstep, ih]

/-- A walk that has a turn left for each folder it was not at, and one more, comes to `m` if it
does not end. The folders it was at are below `x`, so it does not come back to them. -/
theorem reaches_of_comesTo (hacyclic : Acyclic edges) {turns : Nat} {seen : OrdSet GroupId}
    (hseen : ∀ z ∈ seen, z ≠ m → TransGen (Under edges) z x) (hm : m ∈ seen)
    (hturns : unseen (edges.map Prod.fst) seen + 2 ≤ turns)
    (h : comesTo edges m turns (some x) = true) : ReflTransGen (Under edges) x m := by
  induction turns generalizing x seen with
  | zero => omega
  | succ turns ih =>
    by_cases hx : x = m
    · rw [hx]
    · simp only [comesTo, hx, decide_false, Bool.false_or] at h
      cases hp : parentOf edges x with
      | none =>
        obtain ⟨turns, rfl⟩ : ∃ n, turns = n + 1 := ⟨turns - 1, by omega⟩
        simp [hp, comesTo] at h
      | some y =>
        rw [hp] at h
        have hnew : x ∉ seen := fun hmem => hacyclic x (hseen x hmem hx)
        have hlisted : x ∈ edges.map Prod.fst := mem_map_of_mem (mem_of_parentOf hp)
        have hlt := unseen_insert_lt hlisted hnew
        refine .head hp (@ih _ (seen.insert x) (fun z hz hzm => ?_) (by simp [hm]) (by omega) h)
        rcases OrdSet.mem_insert.1 hz with rfl | hz
        · exact .single hp
        · exact (hseen z hz hzm).tail hp

theorem wouldCreateCycle_eq_true (hacyclic : Acyclic edges) (hm : m ∈ edges.map Prod.fst) :
    wouldCreateCycle edges m p = true ↔ ∃ q, p = some q ∧ ReflTransGen (Under edges) q m := by
  constructor
  · intro h
    cases p with
    | none => cases h
    | some q =>
      have hseen : ∀ z ∈ OrdSet.insert m ∅, z ≠ m → TransGen (Under edges) z q := by
        simp +contextual
      refine ⟨q, rfl, reaches_of_comesTo hacyclic hseen (by simp) ?_ h⟩
      have hlt := unseen_insert_lt hm (OrdSet.notMem_empty m)
      have hle : unseen (edges.map Prod.fst) ∅ ≤ _ := length_filter_le ..
      rw [length_map] at hle
      omega
  · rintro ⟨q, rfl, hq⟩
    exact comesTo_of_reaches hq _

theorem parentOf_reparent (hm : m ∈ edges.map Prod.fst) (x : GroupId) :
    parentOf (reparent edges m p) x = if x = m then p else parentOf edges x := by
  have hkey : ((fun e : GroupId × Option GroupId => decide (e.1 = x)) ∘
      fun e => if e.1 = m then (e.1, p) else e) = fun e => decide (e.1 = x) := by
    funext e
    simp only [Function.comp_apply]
    split <;> rfl
  rw [parentOf, reparent, find?_map, hkey, parentOf]
  cases hfind : edges.find? fun e => e.1 = x with
  | none =>
    have hne : x ≠ m := by
      rintro rfl
      obtain ⟨e, he, hex⟩ := mem_map.1 hm
      simpa [hex] using find?_eq_none.1 hfind e he
    simp [hne]
  | some e =>
    obtain rfl := find?_fst hfind
    split <;> simp [*]

/-- A chain of the new rows is one of the old rows, or it comes to `m` and goes on from its new
parent. -/
theorem chain_reparent (hm : m ∈ edges.map Prod.fst)
    (hp : ∀ q, p = some q → ¬ ReflTransGen (Under edges) q m)
    (h : TransGen (Under (reparent edges m p)) x y) :
    TransGen (Under edges) x y ∨ ∃ q, p = some q ∧ ReflTransGen (Under edges) x m ∧
      ReflTransGen (Under edges) q y := by
  induction h with
  | single hstep =>
    rw [Under, parentOf_reparent hm] at hstep
    split at hstep
    next hx => exact .inr ⟨_, hstep, hx ▸ .refl, .refl⟩
    next => exact .inl (.single hstep)
  | tail _ hstep ih =>
    rw [Under, parentOf_reparent hm] at hstep
    split at hstep
    next hx =>
      subst hx
      rcases ih with hold | ⟨q, hq, -, hback⟩
      · exact .inr ⟨_, hstep, hold.to_reflTransGen, .refl⟩
      · exact absurd hback (hp q hq)
    next =>
      rcases ih with hold | ⟨q, hq, hto, hfrom⟩
      · exact .inl (hold.tail hstep)
      · exact .inr ⟨q, hq, hto, hfrom.tail hstep⟩

/-- The new rows have the chain up to `m` as well. -/
theorem reaches_reparent (hm : m ∈ edges.map Prod.fst) (h : ReflTransGen (Under edges) x m) :
    ReflTransGen (Under (reparent edges m p)) x m := by
  induction h using ReflTransGen.head_induction_on with
  | refl => exact .refl
  | @head x y hstep _ ih =>
    by_cases hx : x = m
    · rw [hx]
    · exact .head (by rwa [Under, parentOf_reparent hm, if_neg hx]) ih

theorem acyclic_reparent (hacyclic : Acyclic edges) (hm : m ∈ edges.map Prod.fst) :
    Acyclic (reparent edges m p) ↔ ∀ q, p = some q → ¬ ReflTransGen (Under edges) q m := by
  constructor
  · rintro hnew q rfl hq
    exact hnew m (.head' (by simp [Under, parentOf_reparent hm]) (reaches_reparent hm hq))
  · intro hp g hcycle
    rcases chain_reparent hm hp hcycle with hold | ⟨q, hq, hto, hfrom⟩
    · exact hacyclic g hold
    · exact hp q hq (hfrom.trans hto)

/-- The walk down and the walk up find each other's folders and list each once. A move is refused
exactly when it would close a cycle. -/
theorem folder_walks_agree (edges : GroupEdges) :
    ((edges.map Prod.fst).Nodup → ∀ a g, g ∈ groupSubtreeOrder edges a ↔
      g = a ∨ a ∈ groupAncestors edges g) ∧
    (∀ g, (groupSubtreeOrder edges g).Nodup ∧ (groupAncestors edges g).Nodup) ∧
    (Acyclic edges → ∀ m ∈ edges.map Prod.fst, ∀ p,
      wouldCreateCycle edges m p = false ↔ Acyclic (reparent edges m p)) := by
  refine ⟨fun hids a g => ?_, fun g => ⟨(groupSubtreeOrder_spec edges g).1,
    (List.nodup_cons.1 (groupAncestors_spec edges g).1).2⟩, fun hacyclic m hm p => ?_⟩
  · have hup := (groupAncestors_spec edges g).2 a
    rw [List.mem_cons, eq_comm] at hup
    have hlinks : Under edges = fun x y => (x, some y) ∈ edges :=
      funext₂ fun _ _ => propext (parentOf_eq_some hids)
    rw [(groupSubtreeOrder_spec edges a).2, hup, hlinks]
    exact Relation.reflTransGen_swap
  · rw [← Bool.not_eq_true, wouldCreateCycle_eq_true hacyclic hm, acyclic_reparent hacyclic hm]
    simp only [not_exists, not_and]

theorem folder_walks_agree_two :
    1 ∉ groupAncestors [(1, none), (2, none)] 2 ∧ Acyclic [(1, some 2), (2, none)] := by
  obtain ⟨hdual, -, hmove⟩ := folder_walks_agree [(1, none), (2, none)]
  refine ⟨fun h => absurd ((hdual (by decide) 1 2).2 (.inr h)) (by decide), ?_⟩
  refine (hmove (fun g h => ?_) 1 (by simp) (some 2)).1 (by decide)
  obtain ⟨y, hstep, -⟩ := Relation.TransGen.head'_iff.1 h
  simpa using mem_of_parentOf hstep

end Move

end Yagra.Groups
