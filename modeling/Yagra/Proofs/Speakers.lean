import Yagra.Alert.System
import Yagra.Proofs.Grouping

/-!
# `Yagra.Proofs.Speakers`: every rolled-up page ends at a node that pages

A node that is rolled up names the speaker of its region. Each node is judged at its own
level, so the speaker may in turn be rolled up under a third node, in a region the first node
is not part of. `page_never_lost` says that following the names always ends at a down node
that pages on its own.

Two facts carry it. A border pages at every level (`pagesAlone_of_touches`): whether its live
neighbour is a cable or an address-table link, no other level can both hide that neighbour
and still let the node be judged inside a region. A speaker that is not a border was chosen
as the lowest `speakerKey` of the whole region, so it is lower than the node that names it.
Hence every step but the last goes down in `speakerKey` (`speakerKey_lt_or_pages`).

The same two facts say what the level of the deployment does. Raising it grows the regions and
adds borders, and a node that was rolled up is neither made a border nor left to speak
(`stronger_level_rolls_up_more`).
-/

set_option autoImplicit false

namespace Yagra.Topology.LinkGraph

open Yagra.Lib Relation List

variable (g : LinkGraph)

/-! ### Borders page at every level -/

variable {level : Level} {a b : NodeId} {down : OrdSet NodeId}

/-- Every level judges a node by the same links, or by none: `off` never by any, `certain` not
where there is no cable. So what a level sees of a live neighbour is what `site` sees. -/
theorem touches_iff {node : NodeId} :
    g.touchesALiveNode node level down = true ↔
      (level ≠ .off ∧ (level = .certain → g.physical node ≠ ∅)) ∧
        g.touchesALiveNode node .site down = true := by
  by_cases hp : g.physical node = ∅ <;> cases level <;> simp [touchesALiveNode, linksAt, hp]

/-- A node with a live neighbour at one level pages on its own at every level. -/
theorem pagesAlone_of_touches {node : NodeId} (h : g.touchesALiveNode node level down = true)
    (own : Level) : g.pagesAlone node own down = true := by
  by_cases hown : own ≠ .off ∧ (own = .certain → g.physical node ≠ ∅)
  · rw [pagesAlone, g.touches_iff.2 ⟨hown, (g.touches_iff.1 h).2⟩, Bool.or_true]
  · -- The level sees no link at all and does not judge the node.
    cases own <;> simp_all [pagesAlone, mayBeInside, linksAt]

/-! ### Who is named -/

/-- A speaker is a border of the region, or the region has no border and it is the lowest of
all its nodes. -/
theorem speaker_cases {region : OrdSet NodeId} {s : NodeId}
    (h : g.speaker region level down = some s) :
    s ∈ region ∧ (g.touchesALiveNode s level down = true ∨
      ((∀ m ∈ region, g.touchesALiveNode m level down = false) ∧
        ∀ m ∈ region, g.speakerKey s ≤ g.speakerKey m)) := by
  simp only [speaker] at h
  split at h
  next hnone =>
    have hborders : ∀ m ∈ region, g.touchesALiveNode m level down = false := by
      intro m hm
      have := filter_eq_nil_iff.1 (isEmpty_iff.1 hnone) m (OrdSet.mem_toList.2 hm)
      simpa using this
    exact ⟨argmin_mem h, .inr ⟨hborders, fun m hm => le_of_mem_argmin hm h⟩⟩
  · have hs := mem_filter.1 (argmin_mem h)
    exact ⟨hs.1, .inl hs.2⟩

/-- `a` is rolled up under `b`. -/
def RolledInto (down : OrdSet NodeId) (a b : NodeId) : Prop := g.rootCause a down = some b

section

variable {g : LinkGraph} (h : g.RolledInto down a b)

include h

/-- What it takes to be rolled up: both nodes are down, the one named speaks for the other's
region at the other's level, and they differ. -/
theorem RolledInto.inv :
    a ∈ down ∧ b ≠ a ∧ g.speaker (g.region a (g.levelOf a) down) (g.levelOf a) down = some b := by
  have hdown : a ∈ down := by
    by_contra hn
    simp [RolledInto, g.rootCause_of_notMem hn] at h
  rw [RolledInto, g.rootCause_of_mem hdown] at h
  split at h
  · cases h
  · obtain ⟨hs, hne⟩ := Option.filter_eq_some_iff.1 h
    exact ⟨hdown, by simpa using hne, hs⟩

/-- A node that is named is down. -/
theorem RolledInto.mem_down : b ∈ down := by
  obtain ⟨ha, _, hs⟩ := h.inv
  exact g.mem_down_of_mem_region ha (g.speaker_cases hs).1

/-- The node named pages on its own, or it is lower than the node that names it. -/
theorem RolledInto.pages_or_lt : g.rootCause b down = none ∨ g.speakerKey b < g.speakerKey a := by
  obtain ⟨_, hne, hs⟩ := h.inv
  rcases (g.speaker_cases hs).2 with hborder | ⟨_, hlow⟩
  · left
    rw [g.rootCause_of_mem h.mem_down, g.pagesAlone_of_touches hborder, if_pos rfl]
  · right
    refine lt_of_le_of_ne (hlow a (g.mem_region_self a _ down)) ?_
    -- The id is part of the key, so two nodes never tie.
    intro heq
    exact hne (Prod.ext_iff.1 (toLex.injective heq)).2

/-- At one shared level the node named speaks for itself too: it is in the region it speaks
for, and its own region is that one. -/
theorem RolledInto.pages_of_same_level (hlevel : g.levelOf b = g.levelOf a) :
    g.rootCause b down = none := by
  obtain ⟨ha, _, hs⟩ := h.inv
  have hregion := g.region_eq_of_mem ha (g.speaker_cases hs).1
  rw [g.rootCause_of_mem h.mem_down]
  split
  · rfl
  · rw [speakerFor, hlevel, hregion, hs]
    simp

end

/-! ### Following the names -/

/-- A node that is named again was not the end of its chain, so each step that is not the last
goes down in `speakerKey`; along a chain the key of every node after the first is lower,
except that the very last may page instead. -/
theorem speakerKey_lt_or_pages (h : TransGen (g.RolledInto down) a b) :
    g.rootCause b down = none ∨ g.speakerKey b < g.speakerKey a := by
  induction h with
  | single hab => exact hab.pages_or_lt
  | tail _ hbc ih =>
    rcases hbc.pages_or_lt with hpages | hlt
    · exact .inl hpages
    · rcases ih with hnone | hlt'
      · exact absurd (hbc.symm.trans hnone) (by simp)
      · exact .inr (hlt.trans hlt')

/-- Grouping never loses a page. From a down node, following the names reaches a down node
that pages on its own. The names never leave the down set and never come back to a node, and
where all down nodes group at one level the first node named is already one that pages. -/
theorem page_never_lost (down : OrdSet NodeId) :
    (∀ n ∈ down, ∃ m ∈ down, ReflTransGen (g.RolledInto down) n m ∧ g.rootCause m down = none) ∧
    (∀ n m, n ∈ down → ReflTransGen (g.RolledInto down) n m → m ∈ down) ∧
    (∀ n, ¬ TransGen (g.RolledInto down) n n) ∧
    (∀ level, (∀ n ∈ down, g.levelOf n = level) →
      ∀ n s, g.rootCause n down = some s → g.rootCause s down = none) := by
  refine ⟨?ends, ?stays, ?acyclic, ?oneLevel⟩
  case ends =>
    -- Induction on the key: a step that does not end the chain goes down in it.
    intro n
    induction n using (InvImage.wf g.speakerKey wellFounded_lt).induction with
    | _ n ih =>
      intro hn
      cases hrc : g.rootCause n down with
      | none => exact ⟨n, hn, .refl, hrc⟩
      | some s =>
        have hstep : g.RolledInto down n s := hrc
        rcases hstep.pages_or_lt with hpages | hlt
        · exact ⟨s, hstep.mem_down, .single hstep, hpages⟩
        · obtain ⟨m, hm, hreach, hnone⟩ := ih s hlt hstep.mem_down
          exact ⟨m, hm, .head hstep hreach, hnone⟩
  case stays =>
    intro n m hn hreach
    rcases hreach.cases_tail with heq | ⟨_, _, hlast⟩
    · exact heq ▸ hn
    · exact hlast.mem_down
  case acyclic =>
    intro n hcycle
    rcases g.speakerKey_lt_or_pages hcycle with hnone | hlt
    · obtain ⟨s, hns, _⟩ := TransGen.head'_iff.1 hcycle
      exact absurd (hns.symm.trans hnone) (by simp)
    · exact lt_irrefl _ hlt
  case oneLevel =>
    intro level hlevel n s hns
    have hstep : g.RolledInto down n s := hns
    exact hstep.pages_of_same_level ((hlevel s hstep.mem_down).trans (hlevel n hstep.inv.1).symm)

/-- Nodes `2` and `3` are cabled and `1` and `2` linked through an address table, all down.
`3` accepts cables only and is rolled up under `2`. `2` accepts either link and is in turn
rolled up under `1`, which `3` never sees. -/
theorem page_never_lost_two_steps :
    let g := (((LinkGraph.new .links).addLink 2 3 true).addLink 1 2 false).setLevel 3 .certain
    let down := OrdSet.ofList [1, 2, 3]
    (g.rootCause 3 down = some 2 ∧ g.rootCause 2 down = some 1) ∧ 3 ∈ down ∧
      ∃ m ∈ down, ReflTransGen (g.RolledInto down) 3 m ∧ g.rootCause m down = none :=
  have hdown : 3 ∈ OrdSet.ofList [1, 2, 3] := by decide
  ⟨by decide +kernel, hdown, (page_never_lost _ _).1 3 hdown⟩

/-! ### A stronger level -/

section
variable {weak strong : Level} {down : OrdSet NodeId} (h : weak.order ≤ strong.order)
include h

variable {node : NodeId}

theorem region_mono {m : NodeId} (hm : m ∈ g.region node weak down) :
    m ∈ g.region node strong down := by
  refine g.mem_region_iff.2 (ReflTransGen.mono (fun a b hab => ⟨?_, hab.2⟩) _ _
    (g.mem_region_iff.1 hm))
  cases weak <;> cases strong <;> simp_all [Linked, walksLogical, Level.order]; tauto

theorem touches_mono (ht : g.touchesALiveNode node weak down = true) :
    g.touchesALiveNode node strong down = true := by
  obtain ⟨hweak, hsite⟩ := g.touches_iff.1 ht
  refine g.touches_iff.2 ⟨?_, hsite⟩
  cases weak <;> cases strong <;> simp_all [Level.order]

/-- A node that may be inside a region and touches no live node is so at the stronger level too: its
links stay those it has, and a live neighbour would have let it page before. -/
theorem pagesAlone_mono (ha : g.pagesAlone node weak down = false) :
    g.pagesAlone node strong down = false := by
  have hlive : g.touchesALiveNode node strong down = false := by
    by_contra hlive
    simp [g.pagesAlone_of_touches (by simpa using hlive) weak] at ha
  have hinside : g.mayBeInside node weak = true := by simp_all [pagesAlone]
  have hinside : g.mayBeInside node strong = true := by
    by_cases hp : g.physical node = ∅ <;> cases weak <;> cases strong <;>
      simp_all [mayBeInside, linksAt, Level.order]
  simp [pagesAlone, hlive, hinside]

/-- The speaker at the weaker level keeps the node from speaking at the stronger one: it is a border
there too, or it is lower. -/
theorem speaker_ne_of_weak {s s' : NodeId} (ha : g.pagesAlone node weak down = false)
    (hs : g.speaker (g.region node weak down) weak down = some s) (hne : s ≠ node)
    (hs' : g.speaker (g.region node strong down) strong down = some s') : s' ≠ node := by
  rintro rfl
  obtain ⟨hmem, hweak⟩ := g.speaker_cases hs
  have hstrong := g.region_mono h hmem
  rcases (g.speaker_cases hs').2 with hborder | ⟨hnone, hlow⟩
  · simp [g.pagesAlone_of_touches hborder weak] at ha
  · rcases hweak with hborder | ⟨-, hlow'⟩
    · exact absurd (g.touches_mono h hborder) (by simp [hnone s hstrong])
    · have heq := le_antisymm (hlow' s' (g.mem_region_self s' weak down)) (hlow s hstrong)
      exact hne (Prod.ext_iff.1 (toLex.injective heq)).2

/-- A node that is rolled up stays so at a stronger level. -/
theorem rolledUp_mono {n : NodeId}
    (hn : ((g.withDefaultLevel weak).attributeDown down n).isSome) :
    ((g.withDefaultLevel strong).attributeDown down n).isSome := by
  rw [attributeDown_eq_rootCause] at hn ⊢
  obtain ⟨s, hs⟩ := Option.isSome_iff_exists.1 hn
  obtain ⟨hdown, hne, hspeaker⟩ := RolledInto.inv hs
  have hlevel : ((g.withDefaultLevel weak).levelOf n).order
      ≤ ((g.withDefaultLevel strong).levelOf n).order := by
    cases hl : g.level n <;> simp [levelOf, withDefaultLevel, hl, h]
  rw [rootCause_of_mem _ hdown] at hs ⊢
  split at hs
  · cases hs
  next ha =>
    -- The graph only differs in the level, so what is known of `g` at a level carries over.
    have ha : g.pagesAlone n _ down = false := Bool.eq_false_iff.2 ha
    have ha' : (g.withDefaultLevel strong).pagesAlone n _ down = false :=
      g.pagesAlone_mono hlevel ha
    obtain ⟨s', hs'⟩ := Option.ne_none_iff_exists'.1 ((g.withDefaultLevel strong).speakerFor_ne_none
      down ((g.withDefaultLevel strong).levelOf n) n)
    simp [ha', hs', g.speaker_ne_of_weak hlevel ha hspeaker hne hs']

end

/-- Raising the level of the deployment rolls up more, so fewer nodes page. The four counts of the
preview are the down nodes that are not rolled up at each level. -/
theorem stronger_level_rolls_up_more :
    (∀ (g : LinkGraph) (down : OrdSet NodeId) (weak strong : Level), weak.order ≤ strong.order →
      ∀ n, ((g.withDefaultLevel weak).attributeDown down n).isSome →
        ((g.withDefaultLevel strong).attributeDown down n).isSome) ∧
    ∀ m : AlertManager, m.groupingPreview = (m.down.toList.length, Level.all.map fun l =>
        m.down.toList.countP fun n =>
          ((m.config.grouping.withDefaultLevel l).attributeDown m.down n).isNone) ∧
      m.groupingPreview.2.toList.Pairwise (· ≥ ·) := by
  refine ⟨fun g down _ _ h n hn => g.rolledUp_mono h hn, fun m => ⟨?_, ?_⟩⟩
  · refine Prod.ext rfl (congrArg Level.all.map (funext fun l => ?_))
    rw [notifiedCount, List.length_eq_countP_add_countP fun n =>
      ((m.config.grouping.withDefaultLevel l).attributeDown m.down n).isSome,
      Nat.add_sub_cancel_left]
    exact List.countP_congr fun n _ => by simp
  · have horder : Level.all.toList.Pairwise fun weak strong => weak.order ≤ strong.order := by
      decide
    rw [AlertManager.groupingPreview, Vector.toList_map, List.pairwise_map]
    exact horder.imp fun h => Nat.sub_le_sub_left
      (List.countP_mono_left fun n _ hn => m.config.grouping.rolledUp_mono h hn) _

/-- Two nodes that only an address table links are down: `1` speaks for `2` once such links count.
-/
theorem stronger_level_rolls_up_more_linked :
    let g := (LinkGraph.new .off).addLink 1 2 false
    let down := OrdSet.ofList [1, 2]
    (g.withDefaultLevel .certain).notifiedCount down = 2 ∧
      (g.withDefaultLevel .links).attributeDown down 2 = some 1 ∧
      ((g.withDefaultLevel .site).attributeDown down 2).isSome :=
  ⟨by decide +kernel, by decide +kernel,
    stronger_level_rolls_up_more.1 _ _ .links .site (by decide) 2 (by decide +kernel)⟩

end Yagra.Topology.LinkGraph
