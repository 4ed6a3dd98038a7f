import ScriptVm.Proofs.Collection

/-! The arena of the collector. Slots, free list, counters and edges are kept by different operations; in
every collector that these lead to, they agree. -/

namespace ScriptVm

namespace Slot
variable {π : Type}

def isOccupied : Slot π → Bool
  | .occupied _ _ => true
  | .vacant _ => false

end Slot

namespace Collector
variable {π : Type} {c : Collector π}

/-- What the parts of a collector say of each other between two operations. -/
structure Arena (c : Collector π) : Prop where
  counted : c.live = c.slots.countP Slot.isOccupied
  free : ∀ i, i ∈ c.free ↔ ∃ next, c.slots[i]? = some (.vacant next)
  distinct : c.free.Nodup
  unmarked : ∀ id n, c.node? id = some n → n.marked = false
  positive : ∀ id n, c.node? id = some n → ∀ edge ∈ n.edges, 1 ≤ edge.2
  closed : ∀ id n, c.node? id = some n → ∀ edge ∈ n.edges, c.contains edge.1 = true
  balanced : c.stats.constructed = c.live + c.stats.reclaimed

/-! ### Occupied slots -/

theorem length_ids_eq_countP (c : Collector π) : c.ids.length = c.slots.countP Slot.isOccupied := by
  have hslots := filterMap_range_getElem? c.slots.toList fun slot => if slot.isOccupied then some () else none
  have hlength := congrArg List.length hslots
  rw [List.length_filterMap_eq_countP, List.length_filterMap_eq_countP, Array.length_toList] at hlength
  rw [ids, List.length_filterMap_eq_countP, ← Array.countP_toList]
  refine Eq.trans (List.countP_congr fun i _ => ?_) (hlength.trans (List.countP_congr fun slot _ => ?_))
  · rw [Array.getElem?_toList, idAt?]
    rcases c.slots[i]? with _ | (_ | _) <;> simp [Slot.isOccupied]
  · cases slot <;> simp [Slot.isOccupied]

/-! ### Vacant slots -/

def Listed (c : Collector π) : Prop := ∀ i next, c.slots[i]? = some (.vacant next) → i ∈ c.free

theorem vacant_of_modifyNode {id : NodeId} {f : Node π → Node π} {i : Nat} {next : UInt32}
    (h : (c.modifyNode id f).slots[i]? = some (.vacant next)) : c.slots[i]? = some (.vacant next) := by
  simp only [modifyNode, Array.getElem?_modify] at h
  split_ifs at h with hi
  · obtain ⟨slot, hslot, hchanged⟩ := Option.map_eq_some_iff.1 h
    cases slot with
    | vacant next' =>
      rw [hslot, ← hchanged]
    | occupied g n =>
      dsimp only at hchanged
      split_ifs at hchanged
  · exact h

theorem Listed.modifyNode (h : c.Listed) (id : NodeId) (f : Node π → Node π) : (c.modifyNode id f).Listed :=
  fun i next hi => h i next (vacant_of_modifyNode hi)

theorem Listed.addReference (h : c.Listed) (s t : Option NodeId) : (c.addReference s t).Listed := by
  unfold Collector.addReference
  split
  · split_ifs
    · exact h.modifyNode _ _
    · exact h
  · exact h

theorem Listed.removeReference (h : c.Listed) (s t : Option NodeId) : (c.removeReference s t).Listed := by
  unfold Collector.removeReference
  split
  · exact h.modifyNode _ _
  · exact h

theorem Listed.construct (h : c.Listed) (p : π) : (c.construct p).2.Listed := by
  intro j next hj
  unfold Collector.construct at hj ⊢
  split at hj
  · rename_i i free hfree
    dsimp only at hj ⊢
    rw [Array.getElem?_setIfInBounds] at hj
    split_ifs at hj with hij
    · cases hj
    · have hold : j ∈ c.free := h j next hj
      rw [hfree] at hold
      exact (List.mem_cons.1 hold).resolve_left fun heq => hij heq.symm
  · dsimp only at hj ⊢
    rw [Array.getElem?_push] at hj
    split_ifs at hj
    · cases hj
    · exact h j next hj

theorem size_mark (c : Collector π) (work : List NodeId) : (c.mark work).slots.size = c.slots.size := by
  induction c, work using mark_rec with
  | nil c => rfl
  | skip c id rest r _ ih => exact ih
  | visit c id n rest r _ _ ih => simpa [setMark, Collector.modifyNode] using ih

theorem vacant_of_mark {work : List NodeId} {i : Nat} {next : UInt32}
    (h : (c.mark work).slots[i]? = some (.vacant next)) : ∃ next', c.slots[i]? = some (.vacant next') := by
  have hi : i < c.slots.size := by
    rw [← c.size_mark work]
    exact (Array.getElem?_eq_some_iff.1 h).1
  cases hslot : c.slots[i] with
  | vacant next' => exact ⟨next', Array.getElem?_eq_some_iff.2 ⟨hi, hslot⟩⟩
  | occupied g n =>
    have hn : c.node? ⟨i, g⟩ = some n := (c.node?_eq_some_iff _ n).2 (Array.getElem?_eq_some_iff.2 ⟨hi, hslot⟩)
    have hnode := (marks_mark c work).same.node ⟨i, g⟩
    have hvacant : (c.mark work).node? ⟨i, g⟩ = none := node?_of_vacant h
    rw [hvacant, hn] at hnode
    cases hnode

theorem vacant_of_sweep {i : Nat} {next : UInt32} (h : c.sweep.1.slots[i]? = some (.vacant next)) :
    (∃ next', c.slots[i]? = some (.vacant next')) ∨
      i < c.slots.size ∧ (c.slots[i]?.bind Slot.condemned?).isSome = true := by
  have hswept : c.slots[i]?.map Slot.swept = some (.vacant next) := by
    rw [← h]
    simp [sweep]
  obtain ⟨slot, hslot, hslot'⟩ := Option.map_eq_some_iff.1 hswept
  cases slot with
  | vacant next' => exact Or.inl ⟨next', hslot⟩
  | occupied g n =>
    right
    refine ⟨(Array.getElem?_eq_some_iff.1 hslot).1, ?_⟩
    rw [Slot.swept_occupied] at hslot'
    split_ifs at hslot' with hkept
    simp [hslot, Slot.condemned?_occupied, hkept]

theorem Listed.collect (h : c.Listed) (extra : List NodeId) : (c.collect extra).1.Listed := by
  intro i next hi
  have hfree : (c.mark (c.rootIds ++ extra)).free = c.free := (marks_mark c _).same.free
  change i ∈ List.reverse _ ++ (c.mark (c.rootIds ++ extra)).free
  rw [hfree, List.mem_append, List.mem_reverse, List.mem_filter, List.mem_range]
  rcases vacant_of_sweep hi with ⟨next', hold⟩ | hfreed
  · obtain ⟨next'', hold⟩ := vacant_of_mark hold
    exact Or.inr (h i next'' hold)
  · exact Or.inl hfreed

/-! ### Counters -/

theorem stats_addReference (c : Collector π) (s t : Option NodeId) : (c.addReference s t).stats = c.stats := by
  unfold addReference
  split
  · split_ifs <;> rfl
  · rfl

theorem stats_removeReference (c : Collector π) (s t : Option NodeId) : (c.removeReference s t).stats = c.stats := by
  unfold removeReference
  split <;> rfl

theorem live_addReference (c : Collector π) (s t : Option NodeId) : (c.addReference s t).live = c.live := by
  unfold addReference
  split
  · split_ifs <;> rfl
  · rfl

theorem live_removeReference (c : Collector π) (s t : Option NodeId) : (c.removeReference s t).live = c.live := by
  unfold removeReference
  split <;> rfl

theorem stats_construct (c : Collector π) (p : π) :
    (c.construct p).2.stats = { c.stats with constructed := c.stats.constructed + 1 } := by
  unfold construct
  split <;> rfl

theorem stats_mark (c : Collector π) (work : List NodeId) : (c.mark work).stats = c.stats := by
  induction c, work using mark_rec with
  | nil c => rfl
  | skip c id rest r _ ih => exact ih
  | visit c id n rest r _ _ ih => exact ih

theorem stats_collect (c : Collector π) (extra : List NodeId) :
    (c.collect extra).1.stats =
      { c.stats with
        passes := c.stats.passes + 1
        reclaimed := c.stats.reclaimed + (c.collect extra).2.length } := by
  rw [← c.stats_mark (c.rootIds ++ extra)]
  rfl

theorem Tidy.live_collect (h : c.Tidy) (extra : List NodeId) :
    (c.collect extra).1.live + (c.collect extra).2.length = c.live := by
  rw [(h.collect extra).counted, h.counted]
  exact h.length_ids_collect extra

theorem Reachable.balanced (h : c.Reachable) : c.stats.constructed = c.live + c.stats.reclaimed := by
  induction h with
  | new => rfl
  | construct p _ ih =>
    rw [stats_construct, live_construct]
    dsimp only
    omega
  | makeRoot id _ ih => exact ih
  | removeRoot id _ ih => exact ih
  | addReference s t _ ih => rwa [stats_addReference, live_addReference]
  | removeReference s t _ ih => rwa [stats_removeReference, live_removeReference]
  | collect extra hc ih =>
    have hlive := hc.tidy.live_collect extra
    rw [stats_collect]
    dsimp only
    omega

theorem Reachable.listed (h : c.Reachable) : c.Listed := by
  induction h with
  | new =>
    intro i next hi
    simp at hi
  | construct p _ ih => exact ih.construct p
  | makeRoot id _ ih => exact ih.modifyNode _ _
  | removeRoot id _ ih => exact ih.modifyNode _ _
  | addReference s t _ ih => exact ih.addReference s t
  | removeReference s t _ ih => exact ih.removeReference s t
  | collect extra _ ih => exact ih.collect extra

theorem Reachable.arena (h : c.Reachable) : c.Arena where
  counted := h.tidy.counted.trans c.length_ids_eq_countP
  free i := ⟨h.tidy.vacant i, fun ⟨next, hi⟩ => h.listed i next hi⟩
  distinct := h.tidy.distinct
  unmarked := h.tidy.unmarked
  positive id n hn := (h.tidy.ordered id n hn).positive
  closed id n hn edge hedge := h.tidy.closed id n hn edge.1 (List.mem_map_of_mem hedge)
  balanced := h.balanced

/-! ### What follows for the operations -/

/-- A new node takes a vacant slot or a new one, and leaves the others. -/
theorem Arena.construct (h : c.Arena) (p : π) :
    (∀ g n, c.slots[(c.construct p).1.index]? ≠ some (.occupied g n)) ∧
      ∀ i, i ≠ (c.construct p).1.index → (c.construct p).2.slots[i]? = c.slots[i]? := by
  unfold Collector.construct
  split
  · rename_i index free hfree
    obtain ⟨next, hnext⟩ := (h.free index).1 (by rw [hfree]; exact List.mem_cons_self)
    refine ⟨fun g n hslot => ?_, fun i hi => ?_⟩
    · rw [hnext] at hslot
      cases hslot
    · exact Array.getElem?_setIfInBounds_ne hi.symm
  · refine ⟨fun g n => ?_, fun i hi => ?_⟩
    · simp
    · dsimp only at hi ⊢
      rw [Array.getElem?_push, if_neg hi]

theorem Tidy.referenceCount_removeReference (h : c.Tidy) {source target : NodeId} {n : Node π}
    (hn : c.node? source = some n) (ht : target ∈ n.edges.targets) :
    (c.removeReference (some source) (some target)).referenceCount source target + 1 =
      c.referenceCount source target := by
  have hlive : (c.removeReference (some source) (some target)).contains source = true := by
    rw [contains_removeReference]
    exact contains_of_node? hn
  obtain ⟨n', hn'⟩ := (contains_iff _ _).1 hlive
  have hweight := (h.weight_removeReference hn hn').2 target
  have hpos := (Edges.mem_targets_iff (h.ordered source n hn) target).1 ht
  simp only [referenceCount, hn, hn', Option.map_some, Option.getD_some]
  simp only [and_self, if_true] at hweight
  omega

/-- The parts of a collector agree in every state that its operations lead to: occupied slots are counted,
the free list names the vacant ones once each, no mark stays, edges are recorded to live nodes with
multiplicities above zero, and what was made is live or was reclaimed. So a new node overwrites no other
one, and taking back a recorded edge takes one from its multiplicity. -/
theorem arena_consistent (h : c.Reachable) :
    c.Arena ∧
    (∀ p, (∀ g n, c.slots[(c.construct p).1.index]? ≠ some (.occupied g n)) ∧
      ∀ i, i ≠ (c.construct p).1.index → (c.construct p).2.slots[i]? = c.slots[i]?) ∧
    ∀ source n target, c.node? source = some n → target ∈ n.edges.targets →
      (c.removeReference (some source) (some target)).referenceCount source target + 1 =
        c.referenceCount source target :=
  ⟨h.arena, h.arena.construct, fun _ _ _ hn ht => h.tidy.referenceCount_removeReference hn ht⟩

/-- The ring loses its first node's edge, gets a third node, keeps the first as a root and makes a pass. -/
def brokenRing : Collector Unit :=
  (((ring.removeReference (some ⟨0, 0⟩) (some ⟨1, 0⟩)).construct ()).2.makeRoot ⟨0, 0⟩ |>.collect []).1

theorem brokenRing_reachable : brokenRing.Reachable :=
  .collect [] (.makeRoot _ (.construct () (.removeReference _ _ ring_reachable)))

/-- Two slots are free, the one reclaimed last in front, and the next node takes that one. -/
theorem arena_consistent_brokenRing :
    brokenRing.Reachable ∧ brokenRing.free = [2, 1] ∧ brokenRing.live = 1 ∧
      brokenRing.stats = { constructed := 3, passes := 1, reclaimed := 2 } ∧
      (∀ i, i ∈ brokenRing.free ↔ ∃ next, brokenRing.slots[i]? = some (.vacant next)) ∧
      (brokenRing.construct ()).1 = ⟨2, 1⟩ ∧
      (∀ g n, brokenRing.slots[(brokenRing.construct ()).1.index]? ≠ some (.occupied g n)) :=
  ⟨brokenRing_reachable, by cbv, by cbv, by cbv, (arena_consistent brokenRing_reachable).1.free, by cbv,
    ((arena_consistent brokenRing_reachable).2.1 ()).1⟩

end Collector
end ScriptVm
