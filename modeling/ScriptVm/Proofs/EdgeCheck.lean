import ScriptVm.Proofs.Nodes

/-! The integrity check of the collector, for any collector and whatever its payloads hold. The check
walks the recorded edges of a node and then looks for what is left over in the payload. All it needs is
that no target is recorded twice; in which order the targets stand, and in which order a payload visits
what it holds, does not matter. -/

namespace ScriptVm

namespace Edges

variable {e : Edges} {t : NodeId} {n : Nat}

theorem weight_of_mem (h : e.targets.Nodup) (hm : (t, n) ∈ e) : e.weight t = n := by
  induction e with
  | nil => cases hm
  | cons x e ih =>
    obtain ⟨id, k⟩ := x
    obtain ⟨hid, htail⟩ := List.nodup_cons.1 h
    rcases List.mem_cons.1 hm with heq | hm
    · obtain ⟨rfl, rfl⟩ := Prod.mk.inj heq
      exact if_pos rfl
    · have hne : id ≠ t := by
        rintro rfl
        exact hid (List.mem_map.2 ⟨_, hm, rfl⟩)
      rw [weight, if_neg hne]
      exact ih htail hm

theorem mem_targets_of_weight (h : e.weight t ≠ 0) : t ∈ e.targets := by
  by_contra hout
  refine h (weight_eq_zero fun y hy hyt => hout ?_)
  exact hyt ▸ List.mem_map_of_mem hy

theorem Ordered.nodup (h : e.Ordered) : e.targets.Nodup := by
  rw [targets, List.nodup_iff_pairwise_ne, List.pairwise_map]
  refine h.sorted.imp fun hxy heq => ?_
  rw [heq] at hxy
  exact NodeId.before_irrefl _ hxy

end Edges

namespace Node

variable {π : Type} {n : Node π} {id : NodeId} {held : List NodeId} {e : EdgeMismatch}

/-- What the check reports of a node are the true multiplicities of the target it names. -/
theorem mismatch?_eq_some (h : n.edges.targets.Nodup) (he : n.mismatch? id held = some e) :
    e.node = id ∧ e.recorded = n.edges.weight e.target ∧ e.observed = held.count e.target ∧
      e.recorded ≠ e.observed := by
  unfold mismatch? at he
  split at he
  · rename_i t k hfind
    obtain rfl := Option.some.inj he
    have hne : held.count t ≠ k := by simpa using List.find?_some hfind
    exact ⟨rfl, (Edges.weight_of_mem h (List.mem_of_find?_eq_some hfind)).symm, rfl, hne.symm⟩
  · split at he
    · rename_i t hfind
      obtain rfl := Option.some.inj he
      have hzero : n.edges.weight t = 0 := by simpa using List.find?_some hfind
      have hpos := List.count_pos_iff.2 (List.mem_of_find?_eq_some hfind)
      exact ⟨rfl, hzero.symm, rfl, hpos.ne⟩
    · cases he

theorem mismatch?_eq_none_iff (h : n.edges.targets.Nodup) :
    n.mismatch? id held = none ↔ ∀ t, held.count t = n.edges.weight t := by
  constructor
  · intro hnone t
    unfold mismatch? at hnone
    split at hnone
    · cases hnone
    rename_i hedges
    split at hnone
    · cases hnone
    rename_i hheld
    rw [List.find?_eq_none] at hedges hheld
    by_cases ht : t ∈ n.edges.targets
    · obtain ⟨⟨t', k⟩, hmem, rfl⟩ := List.mem_map.1 ht
      rw [Edges.weight_of_mem h hmem]
      simpa using hedges _ hmem
    · have hzero : n.edges.weight t = 0 := by
        by_contra hne
        exact ht (Edges.mem_targets_of_weight hne)
      have hout : t ∉ held := fun hin => by simpa [hzero] using hheld t hin
      rw [List.count_eq_zero_of_not_mem hout, hzero]
  · intro hall
    by_contra hne
    obtain ⟨e, he⟩ := Option.ne_none_iff_exists'.1 hne
    obtain ⟨-, hrecorded, hobserved, hdiff⟩ := mismatch?_eq_some h he
    exact hdiff (hrecorded.trans ((hall e.target).symm.trans hobserved.symm))

end Node

namespace Collector

variable {π : Type}

/-- The edges recorded for a live node are those that its payload holds, each as often. Nothing is asked
of a payload that is detached. -/
def Agrees (c : Collector π) (held : π → Option (List NodeId)) (id : NodeId) : Prop :=
  ∀ n l, c.node? id = some n → held n.payload = some l → ∀ t, l.count t = c.referenceCount id t

/-- No target is recorded twice in one node. -/
def Keyed (c : Collector π) : Prop := ∀ id n, c.node? id = some n → n.edges.targets.Nodup

theorem Tidy.keyed {c : Collector π} (h : c.Tidy) : c.Keyed := fun id n hn => (h.ordered id n hn).nodup

section
variable {c : Collector π} {held : π → Option (List NodeId)} (h : c.Keyed)

theorem referenceCount_of_node? {id : NodeId} {n : Node π} (hn : c.node? id = some n) (t : NodeId) :
    c.referenceCount id t = n.edges.weight t := by
  rw [referenceCount, hn]
  rfl

include h

theorem mismatchAt?_eq_some {i : Nat} {e : EdgeMismatch} (he : c.mismatchAt? held i = some e) :
    e.node.index = i ∧ ∃ n l, c.node? e.node = some n ∧ held n.payload = some l ∧
      e.recorded = c.referenceCount e.node e.target ∧ e.observed = l.count e.target ∧
      e.recorded ≠ e.observed := by
  unfold mismatchAt? at he
  split at he
  · rename_i g n hslot
    have hn := (c.node?_eq_some_iff ⟨i, g⟩ n).2 hslot
    obtain ⟨l, hl, hmis⟩ := Option.bind_eq_some_iff.1 he
    obtain ⟨hid, hrecorded, hobserved, hdiff⟩ := Node.mismatch?_eq_some (h _ n hn) hmis
    rw [hid]
    exact ⟨rfl, n, l, hn, hl, hrecorded.trans (referenceCount_of_node? hn _).symm, hobserved, hdiff⟩
  · cases he

theorem mismatchAt?_eq_none_iff {i : Nat} :
    c.mismatchAt? held i = none ↔ ∀ id : NodeId, id.index = i → c.Agrees held id := by
  constructor
  · rintro hnone id rfl n l hn hl t
    rw [mismatchAt?, (c.node?_eq_some_iff id n).1 hn] at hnone
    dsimp only at hnone
    rw [hl] at hnone
    rw [referenceCount_of_node? hn]
    exact (Node.mismatch?_eq_none_iff (h id n hn)).1 hnone t
  · intro hall
    by_contra hne
    obtain ⟨e, he⟩ := Option.ne_none_iff_exists'.1 hne
    obtain ⟨hi, n, l, hn, hl, hrecorded, hobserved, hdiff⟩ := mismatchAt?_eq_some h he
    exact hdiff (hrecorded.trans ((hall _ hi n l hn hl _).symm.trans hobserved.symm))

theorem integrityCheck_eq_ok_iff : c.integrityCheck held = .ok () ↔ ∀ id, c.Agrees held id := by
  have hok : c.integrityCheck held = .ok () ↔
      (List.range c.slots.size).findSome? (c.mismatchAt? held) = none := by
    unfold integrityCheck
    split <;> simp_all
  simp only [hok, List.findSome?_eq_none_iff, mismatchAt?_eq_none_iff h, List.mem_range]
  refine ⟨fun hall id n l hn => ?_, fun hall i _ id _ => hall id⟩
  have hslot := (c.node?_eq_some_iff id n).1 hn
  exact hall id.index (Array.getElem?_eq_some_iff.1 hslot).1 id rfl n l hn

/-- The node reported is the first in slot order: the slots before it were walked without a report. -/
theorem integrityCheck_eq_error {e : EdgeMismatch} (he : c.integrityCheck held = .error e) :
    (∃ n l, c.node? e.node = some n ∧ held n.payload = some l ∧
      e.recorded = c.referenceCount e.node e.target ∧ e.observed = l.count e.target ∧
      e.recorded ≠ e.observed) ∧
    ∀ id : NodeId, id.index < e.node.index → c.Agrees held id := by
  have hfind : (List.range c.slots.size).findSome? (c.mismatchAt? held) = some e := by
    unfold integrityCheck at he
    split at he <;> simp_all
  obtain ⟨before, i, after, hrange, hi, hbefore⟩ := List.findSome?_eq_some_iff.1 hfind
  obtain ⟨hindex, hmismatch⟩ := mismatchAt?_eq_some h hi
  refine ⟨hmismatch, fun id hlt => ?_⟩
  rw [List.range_eq_range', List.range'_eq_append_iff] at hrange
  obtain ⟨k, -, rfl, hrest⟩ := hrange
  obtain ⟨rfl, -⟩ := List.range'_eq_cons_iff.1 hrest.symm
  have hmem : id.index ∈ List.range' 0 k := by
    rw [List.mem_range'_1]
    omega
  exact (mismatchAt?_eq_none_iff h).1 (hbefore _ hmem) id rfl

end

/-- The integrity check passes just when the edges of every live node agree with what its payload holds,
unless that is detached, target by target; targets that are no longer live count like any other. When it
fails it names a live node whose payload is not detached, a target, and the two true multiplicities of
that target there, which differ; and every node in a slot before agrees. -/
theorem Keyed.integrityCheck_exact {c : Collector π} (h : c.Keyed) (held : π → Option (List NodeId)) :
    (c.integrityCheck held = .ok () ↔ ∀ id, c.Agrees held id) ∧
    ∀ e, c.integrityCheck held = .error e →
      (∃ n l, c.node? e.node = some n ∧ held n.payload = some l ∧
        e.recorded = c.referenceCount e.node e.target ∧ e.observed = l.count e.target ∧
        e.recorded ≠ e.observed) ∧
      ∀ id : NodeId, id.index < e.node.index → c.Agrees held id :=
  ⟨integrityCheck_eq_ok_iff h, fun _ he => integrityCheck_eq_error h he⟩

/-- A detached node, one that agrees, a vacancy, and one that holds twice what was in the vacant slot and
has recorded it once. The edges stand in no order. -/
def tangle : Collector (Option (List NodeId)) where
  slots := #[
    .occupied 0 { payload := none, edges := [(⟨1, 0⟩, 7)] },
    .occupied 0 { payload := some [⟨3, 4⟩, ⟨2, 0⟩, ⟨3, 4⟩], edges := [(⟨3, 4⟩, 2), (⟨2, 0⟩, 1)] },
    .vacant 1,
    .occupied 4 { payload := some [⟨0, 0⟩, ⟨2, 0⟩, ⟨2, 0⟩], edges := [(⟨2, 0⟩, 1), (⟨0, 0⟩, 1)] }]
  free := [2]
  live := 3

theorem tangle_keyed : tangle.Keyed := by
  intro id n hn
  have hmem := Array.mem_of_getElem? ((tangle.node?_eq_some_iff id n).1 hn)
  simp only [tangle, List.mem_toArray, List.mem_cons, List.not_mem_nil, Slot.occupied.injEq, reduceCtorEq,
    or_false, false_or] at hmem
  obtain ⟨-, rfl⟩ | ⟨-, rfl⟩ | ⟨-, rfl⟩ := hmem
  · decide
  · decide
  · decide

theorem integrityCheck_exact_tangle :
    tangle.Keyed ∧ tangle.integrityCheck id = .error ⟨⟨3, 4⟩, ⟨2, 0⟩, 1, 2⟩ ∧
      (¬∀ i, tangle.Agrees id i) ∧ tangle.Agrees id ⟨0, 0⟩ ∧ tangle.Agrees id ⟨1, 0⟩ := by
  have herror : tangle.integrityCheck id = .error ⟨⟨3, 4⟩, ⟨2, 0⟩, 1, 2⟩ := by decide
  have hbefore := (tangle_keyed.integrityCheck_exact id).2 _ herror |>.2
  refine ⟨tangle_keyed, herror, fun hall => ?_, hbefore _ (by decide), hbefore _ (by decide)⟩
  cases herror.symm.trans ((tangle_keyed.integrityCheck_exact id).1.2 hall)

end Collector
end ScriptVm
