import ScriptVm.Collector.Basic
import ScriptVm.Proofs.Edges

/-! What the operations of the collector do to the node behind an id. `Tidy` is what they keep: no
node is marked between passes, edges are ordered and lead to live nodes, free slots are vacant, and
the number of live nodes is right. -/

namespace ScriptVm.Collector
variable {π : Type}

def idAt? (c : Collector π) (index : Nat) : Option NodeId :=
  match c.slots[index]? with
  | some (.occupied generation _) => some ⟨index, generation⟩
  | _ => none

/-- The ids of the live nodes, in slot order. -/
def ids (c : Collector π) : List NodeId := (List.range c.slots.size).filterMap c.idAt?

structure Tidy (c : Collector π) : Prop where
  unmarked : ∀ id n, c.node? id = some n → n.marked = false
  ordered : ∀ id n, c.node? id = some n → n.edges.Ordered
  closed : ∀ id n, c.node? id = some n → ∀ t ∈ n.edges.targets, c.contains t = true
  vacant : ∀ i ∈ c.free, ∃ next, c.slots[i]? = some (.vacant next)
  distinct : c.free.Nodup
  counted : c.live = c.ids.length

theorem contains_iff (c : Collector π) (id : NodeId) :
    c.contains id = true ↔ ∃ n, c.node? id = some n := by
  simp [contains, Option.isSome_iff_exists]

theorem contains_of_node? {c : Collector π} {id : NodeId} {n : Node π} (h : c.node? id = some n) :
    c.contains id = true := (c.contains_iff id).2 ⟨n, h⟩

theorem node?_eq_some_iff (c : Collector π) (id : NodeId) (n : Node π) :
    c.node? id = some n ↔ c.slots[id.index]? = some (.occupied id.generation n) := by
  unfold node?
  split
  · rename_i g m hslot
    rw [hslot]
    by_cases hg : g = id.generation
    · simp [hg]
    · simp [hg]
  · rename_i hslot
    simp only [reduceCtorEq, false_iff]
    exact hslot _ _

theorem node?_of_vacant {c : Collector π} {id : NodeId} {next : UInt32}
    (h : c.slots[id.index]? = some (.vacant next)) : c.node? id = none := by
  simp [node?, h]

theorem idAt?_eq_some_iff (c : Collector π) (i : Nat) (id : NodeId) :
    c.idAt? i = some id ↔ id.index = i ∧ c.contains id = true := by
  rw [contains_iff]
  simp only [node?_eq_some_iff]
  unfold idAt?
  constructor
  · intro h
    split at h
    · rename_i g n hslot
      obtain rfl := Option.some.inj h
      exact ⟨rfl, n, hslot⟩
    · cases h
  · rintro ⟨rfl, n, hn⟩
    rw [hn]

theorem mem_ids_iff (c : Collector π) (id : NodeId) : id ∈ c.ids ↔ c.contains id = true := by
  simp only [ids, List.mem_filterMap, List.mem_range, idAt?_eq_some_iff]
  constructor
  · rintro ⟨i, -, -, h⟩
    exact h
  · intro h
    obtain ⟨n, hn⟩ := (c.contains_iff id).1 h
    have hin := Array.getElem?_eq_some_iff.1 ((c.node?_eq_some_iff id n).1 hn)
    exact ⟨id.index, hin.1, rfl, h⟩

theorem nodup_ids (c : Collector π) : c.ids.Nodup := by
  apply List.Nodup.filterMap _ List.nodup_range
  intro i j id hi hj
  rw [((c.idAt?_eq_some_iff i id).1 hi).1.symm, ((c.idAt?_eq_some_iff j id).1 hj).1]

theorem ids_perm {c d : Collector π} (h : ∀ id, d.contains id = c.contains id) : d.ids.Perm c.ids := by
  rw [List.perm_ext_iff_of_nodup d.nodup_ids c.nodup_ids]
  intro id
  rw [mem_ids_iff, mem_ids_iff, h]

theorem length_ids_congr {c d : Collector π} (h : ∀ id, d.contains id = c.contains id) :
    d.ids.length = c.ids.length := (ids_perm h).length_eq

/-! ### Changing one node -/

@[simp] theorem node?_modifyNode (c : Collector π) (id id' : NodeId) (f : Node π → Node π) :
    (c.modifyNode id f).node? id' = if id' = id then (c.node? id).map f else c.node? id' := by
  obtain ⟨i, g⟩ := id
  obtain ⟨j, k⟩ := id'
  simp only [node?, modifyNode, Array.getElem?_modify, NodeId.mk.injEq]
  by_cases hij : j = i
  · subst hij
    cases hslot : c.slots[j]? with
    | none => simp
    | some slot =>
      cases slot with
      | vacant next => simp
      | occupied g' n =>
        by_cases hg : g' = g
        · subst hg
          by_cases hk : g' = k
          · simp [hk]
          · simp [hk, Ne.symm hk]
        · by_cases hk : k = g
          · subst hk
            simp [hg]
          · simp [hg, hk]
  · simp [hij, Ne.symm hij]

@[simp] theorem contains_modifyNode (c : Collector π) (id id' : NodeId) (f : Node π → Node π) :
    (c.modifyNode id f).contains id' = c.contains id' := by
  simp only [contains, node?_modifyNode]
  split_ifs with h
  · subst h
    simp
  · rfl

theorem vacant_modifyNode {c : Collector π} {i : Nat} {next : UInt32} (id : NodeId)
    (f : Node π → Node π) (h : c.slots[i]? = some (.vacant next)) :
    (c.modifyNode id f).slots[i]? = some (.vacant next) := by
  simp only [modifyNode, Array.getElem?_modify, h]
  split_ifs <;> rfl

theorem Tidy.modifyNode {c : Collector π} (h : c.Tidy) (id : NodeId) (f : Node π → Node π)
    (hmark : ∀ n, c.node? id = some n → (f n).marked = false)
    (hord : ∀ n, c.node? id = some n → (f n).edges.Ordered)
    (hlive : ∀ n, c.node? id = some n → ∀ t ∈ (f n).edges.targets, c.contains t = true) :
    (c.modifyNode id f).Tidy := by
  refine ⟨?_, ?_, ?_, ?_, h.distinct, ?_⟩
  · intro id' n hn
    rw [node?_modifyNode] at hn
    split_ifs at hn
    · obtain ⟨m, hm, rfl⟩ := Option.map_eq_some_iff.1 hn
      exact hmark m hm
    · exact h.unmarked id' n hn
  · intro id' n hn
    rw [node?_modifyNode] at hn
    split_ifs at hn
    · obtain ⟨m, hm, rfl⟩ := Option.map_eq_some_iff.1 hn
      exact hord m hm
    · exact h.ordered id' n hn
  · intro id' n hn t ht
    rw [node?_modifyNode] at hn
    rw [contains_modifyNode]
    split_ifs at hn
    · obtain ⟨m, hm, rfl⟩ := Option.map_eq_some_iff.1 hn
      exact hlive m hm t ht
    · exact h.closed id' n hn t ht
  · intro i hi
    obtain ⟨next, hnext⟩ := h.vacant i hi
    exact ⟨next, vacant_modifyNode id f hnext⟩
  · rw [length_ids_congr (fun id' => contains_modifyNode c id id' f)]
    exact h.counted

theorem Tidy.makeRoot {c : Collector π} (h : c.Tidy) (id : NodeId) : (c.makeRoot id).Tidy :=
  h.modifyNode id _ (h.unmarked id) (h.ordered id) (h.closed id)

theorem Tidy.removeRoot {c : Collector π} (h : c.Tidy) (id : NodeId) : (c.removeRoot id).Tidy :=
  h.modifyNode id _ (h.unmarked id) (h.ordered id) (h.closed id)

@[simp] theorem contains_addReference (c : Collector π) (s t : Option NodeId) (id : NodeId) :
    (c.addReference s t).contains id = c.contains id := by
  unfold addReference
  split
  · split_ifs <;> simp
  · rfl

@[simp] theorem contains_removeReference (c : Collector π) (s t : Option NodeId) (id : NodeId) :
    (c.removeReference s t).contains id = c.contains id := by
  unfold removeReference
  split <;> simp

theorem Tidy.addReference {c : Collector π} (h : c.Tidy) (s t : Option NodeId) :
    (c.addReference s t).Tidy := by
  unfold Collector.addReference
  split
  · rename_i s t
    split_ifs with ht
    · refine h.modifyNode s _ (h.unmarked s) (fun n hn => Edges.ordered_add (h.ordered s n hn) t) ?_
      intro n hn u hu
      obtain ⟨y, hy, rfl⟩ := List.mem_map.1 hu
      rcases Edges.mem_add hy with rfl | hy
      · exact ht
      · exact h.closed s n hn _ (List.mem_map_of_mem hy)
    · exact h
  · exact h

theorem Tidy.removeReference {c : Collector π} (h : c.Tidy) (s t : Option NodeId) :
    (c.removeReference s t).Tidy := by
  unfold Collector.removeReference
  split
  · rename_i s t
    refine h.modifyNode s _ (h.unmarked s) (fun n hn => Edges.ordered_remove (h.ordered s n hn) t) ?_
    intro n hn u hu
    obtain ⟨y, hy, rfl⟩ := List.mem_map.1 hu
    obtain ⟨k, hk, -⟩ := Edges.mem_remove hy
    exact h.closed s n hn y.1 (List.mem_map.2 ⟨(y.1, k), hk, rfl⟩)
  · exact h

theorem payload_modifyNode (c : Collector π) (id : NodeId) {f : Node π → Node π}
    (hf : ∀ n, (f n).payload = n.payload) (id' : NodeId) :
    ((c.modifyNode id f).node? id').map (·.payload) = (c.node? id').map (·.payload) := by
  rw [node?_modifyNode]
  split_ifs with hid
  · subst hid
    cases c.node? id' <;> simp [hf]
  · rfl

theorem payload_addReference (c : Collector π) (s t : Option NodeId) (id : NodeId) :
    ((c.addReference s t).node? id).map (·.payload) = (c.node? id).map (·.payload) := by
  unfold addReference
  split
  · split_ifs
    · apply payload_modifyNode
      intro n
      rfl
    · rfl
  · rfl

theorem payload_removeReference (c : Collector π) (s t : Option NodeId) (id : NodeId) :
    ((c.removeReference s t).node? id).map (·.payload) = (c.node? id).map (·.payload) := by
  unfold removeReference
  split
  · apply payload_modifyNode
    intro n
    rfl
  · rfl

theorem Tidy.weight_addReference {c : Collector π} (h : c.Tidy) {s t : Option NodeId}
    (ht : ∀ x, t = some x → c.contains x = true) {id : NodeId} {n n' : Node π}
    (hn : c.node? id = some n) (hn' : (c.addReference s t).node? id = some n') :
    n'.roots = n.roots ∧
      ∀ u, n'.edges.weight u = n.edges.weight u + if s = some id ∧ t = some u then 1 else 0 := by
  unfold Collector.addReference at hn'
  split at hn'
  · rename_i s t
    rw [if_pos (ht t rfl), node?_modifyNode] at hn'
    split_ifs at hn' with hid
    · subst hid
      obtain rfl : _ = n' := by simpa [hn] using hn'
      refine ⟨rfl, fun u => ?_⟩
      simp [Edges.weight_add (h.ordered id n hn)]
    · obtain rfl := Option.some.inj (hn.symm.trans hn')
      simp [Ne.symm hid]
  · rename_i hnone
    obtain rfl := Option.some.inj (hn.symm.trans hn')
    refine ⟨rfl, fun u => ?_⟩
    rw [if_neg, Nat.add_zero]
    rintro ⟨rfl, rfl⟩
    exact hnone id u rfl rfl

theorem Tidy.weight_removeReference {c : Collector π} (h : c.Tidy) {s t : Option NodeId} {id : NodeId}
    {n n' : Node π} (hn : c.node? id = some n) (hn' : (c.removeReference s t).node? id = some n') :
    n'.roots = n.roots ∧
      ∀ u, n'.edges.weight u = n.edges.weight u - if s = some id ∧ t = some u then 1 else 0 := by
  unfold Collector.removeReference at hn'
  split at hn'
  · rename_i s t
    rw [node?_modifyNode] at hn'
    split_ifs at hn' with hid
    · subst hid
      obtain rfl : _ = n' := by simpa [hn] using hn'
      refine ⟨rfl, fun u => ?_⟩
      simp [Edges.weight_remove (h.ordered id n hn)]
    · obtain rfl := Option.some.inj (hn.symm.trans hn')
      simp [Ne.symm hid]
  · rename_i hnone
    obtain rfl := Option.some.inj (hn.symm.trans hn')
    refine ⟨rfl, fun u => ?_⟩
    rw [if_neg, Nat.sub_zero]
    rintro ⟨rfl, rfl⟩
    exact hnone id u rfl rfl

theorem roots_makeRoot {c : Collector π} {id id' : NodeId} {n n' : Node π} (hn : c.node? id' = some n)
    (hn' : (c.makeRoot id).node? id' = some n') :
    n'.edges = n.edges ∧ n'.roots = n.roots + if id = id' then 1 else 0 := by
  rw [makeRoot, node?_modifyNode] at hn'
  split_ifs at hn' with hid
  · subst hid
    obtain rfl : _ = n' := by simpa [hn] using hn'
    simp
  · obtain rfl := Option.some.inj (hn.symm.trans hn')
    simp [Ne.symm hid]

theorem roots_removeRoot {c : Collector π} {id id' : NodeId} {n n' : Node π} (hn : c.node? id' = some n)
    (hn' : (c.removeRoot id).node? id' = some n') :
    n'.edges = n.edges ∧ n'.roots = n.roots - if id = id' then 1 else 0 := by
  rw [removeRoot, node?_modifyNode] at hn'
  split_ifs at hn' with hid
  · subst hid
    obtain rfl : _ = n' := by simpa [hn] using hn'
    simp
  · obtain rfl := Option.some.inj (hn.symm.trans hn')
    simp [Ne.symm hid]

/-! ### A new node -/

theorem Tidy.node?_fresh {c : Collector π} (h : c.Tidy) (p : π) :
    c.node? (c.construct p).1 = none := by
  unfold construct
  split
  · rename_i i free hfree
    obtain ⟨next, hnext⟩ := h.vacant i (by simp [hfree])
    exact node?_of_vacant hnext
  · simp [node?]

theorem Tidy.node?_construct {c : Collector π} (h : c.Tidy) (p : π) (id : NodeId) :
    (c.construct p).2.node? id =
      if id = (c.construct p).1 then some { payload := p } else c.node? id := by
  obtain ⟨j, k⟩ := id
  unfold construct
  split
  · rename_i i free hfree
    obtain ⟨next, hnext⟩ := h.vacant i (by simp [hfree])
    have hin : i < c.slots.size := (Array.getElem?_eq_some_iff.1 hnext).1
    simp only [node?, hnext, Array.getElem?_setIfInBounds, hin, if_true, NodeId.mk.injEq]
    by_cases hij : i = j
    · subst hij
      by_cases hk : next = k
      · simp [hk]
      · simp [hk, Ne.symm hk, hnext]
    · simp [hij, Ne.symm hij]
  · simp only [node?, Array.getElem?_push, NodeId.mk.injEq]
    by_cases hj : j = c.slots.size
    · subst hj
      by_cases hk : (0 : UInt32) = k
      · simp [hk]
      · simp [hk, Ne.symm hk]
    · simp [hj]

theorem Tidy.contains_construct {c : Collector π} (h : c.Tidy) (p : π) (id : NodeId) :
    (c.construct p).2.contains id = (decide (id = (c.construct p).1) || c.contains id) := by
  simp only [contains, h.node?_construct]
  by_cases hid : id = (c.construct p).1 <;> simp [hid]

theorem Tidy.not_mem_ids {c : Collector π} (h : c.Tidy) (p : π) : (c.construct p).1 ∉ c.ids := by
  rw [mem_ids_iff, contains, h.node?_fresh]
  simp

theorem Tidy.ids_construct {c : Collector π} (h : c.Tidy) (p : π) :
    (c.construct p).2.ids.Perm ((c.construct p).1 :: c.ids) := by
  rw [List.perm_ext_iff_of_nodup (nodup_ids _) (List.nodup_cons.2 ⟨h.not_mem_ids p, c.nodup_ids⟩)]
  intro id
  simp [mem_ids_iff, h.contains_construct]

theorem Tidy.length_ids_construct {c : Collector π} (h : c.Tidy) (p : π) :
    (c.construct p).2.ids.length = c.ids.length + 1 := by
  rw [(h.ids_construct p).length_eq, List.length_cons]

theorem Tidy.free_construct {c : Collector π} (h : c.Tidy) (p : π) :
    (∀ i ∈ (c.construct p).2.free, ∃ next, (c.construct p).2.slots[i]? = some (.vacant next)) ∧
      (c.construct p).2.free.Nodup := by
  have hvac := h.vacant
  have hdist := h.distinct
  unfold construct
  split
  · rename_i i free hfree
    rw [hfree] at hvac hdist
    obtain ⟨hi, hnodup⟩ := List.nodup_cons.1 hdist
    refine ⟨fun j hj => ?_, hnodup⟩
    obtain ⟨next, hnext⟩ := hvac j (List.mem_cons_of_mem _ hj)
    have hij : i ≠ j := fun he => hi (he ▸ hj)
    exact ⟨next, by simpa [hij] using hnext⟩
  · rename_i hfree
    simp [hfree]

theorem live_construct (c : Collector π) (p : π) : (c.construct p).2.live = c.live + 1 := by
  unfold construct
  split <;> rfl

theorem Tidy.construct {c : Collector π} (h : c.Tidy) (p : π) : (c.construct p).2.Tidy := by
  refine ⟨?_, ?_, ?_, (h.free_construct p).1, (h.free_construct p).2, ?_⟩
  · intro id n hn
    rw [h.node?_construct] at hn
    split_ifs at hn
    · obtain rfl := Option.some.inj hn
      rfl
    · exact h.unmarked id n hn
  · intro id n hn
    rw [h.node?_construct] at hn
    split_ifs at hn
    · obtain rfl := Option.some.inj hn
      exact Edges.ordered_nil
    · exact h.ordered id n hn
  · intro id n hn t ht
    rw [h.node?_construct] at hn
    rw [h.contains_construct]
    split_ifs at hn
    · obtain rfl := Option.some.inj hn
      simp [Edges.targets] at ht
    · simp [h.closed id n hn t ht]
  · rw [live_construct, h.length_ids_construct, h.counted]

theorem tidy_new : (({} : Collector π)).Tidy := by
  refine ⟨?_, ?_, ?_, by simp, List.nodup_nil, rfl⟩ <;> intro id n hn <;> simp [node?] at hn

end ScriptVm.Collector
