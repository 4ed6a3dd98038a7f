import ScriptVm.Proofs.Arena

/-! Runs of the collector's interface as lists of calls. The generation of a slot counts the nodes that the
slot has had, so an id is issued once, and an id whose node is gone names nothing again. -/

namespace ScriptVm.Collector
variable {π : Type} {c : Collector π}

/-- A call of the interface that may change the collector. -/
inductive Operation (π : Type) where
  | construct (payload : π)
  | makeRoot (id : NodeId)
  | removeRoot (id : NodeId)
  | addReference (source target : Option NodeId)
  | removeReference (source target : Option NodeId)
  | collect (extra : List NodeId)

def perform (c : Collector π) : Operation π → Collector π
  | .construct payload => (c.construct payload).2
  | .makeRoot id => c.makeRoot id
  | .removeRoot id => c.removeRoot id
  | .addReference source target => c.addReference source target
  | .removeReference source target => c.removeReference source target
  | .collect extra => (c.collect extra).1

def performAll (c : Collector π) (ops : List (Operation π)) : Collector π := ops.foldl perform c

/-- The id that a call gives back. -/
def issued? (c : Collector π) : Operation π → Option NodeId
  | .construct payload => some (c.construct payload).1
  | _ => none

/-- The ids that a run gives back, in order. -/
def issued (c : Collector π) : List (Operation π) → List NodeId
  | [] => []
  | op :: ops => (c.issued? op).toList ++ (c.perform op).issued ops

theorem performAll_append (c : Collector π) (ops rest : List (Operation π)) :
    c.performAll (ops ++ rest) = (c.performAll ops).performAll rest := List.foldl_append

theorem issued_append (c : Collector π) (ops rest : List (Operation π)) :
    c.issued (ops ++ rest) = c.issued ops ++ (c.performAll ops).issued rest := by
  induction ops generalizing c with
  | nil => rfl
  | cons op ops ih =>
    rw [List.cons_append, issued, issued, ih, List.append_assoc]
    rfl

theorem Reachable.perform (h : c.Reachable) (op : Operation π) : (c.perform op).Reachable := by
  cases op with
  | construct p => exact h.construct p
  | makeRoot id => exact h.makeRoot id
  | removeRoot id => exact h.removeRoot id
  | addReference s t => exact h.addReference s t
  | removeReference s t => exact h.removeReference s t
  | collect extra => exact h.collect extra

theorem Reachable.performAll (h : c.Reachable) (ops : List (Operation π)) : (c.performAll ops).Reachable := by
  induction ops generalizing c with
  | nil => exact h
  | cons op ops ih => exact ih (h.perform op)

/-! ### Slots and their generations -/

/-- How many nodes a slot has had, by the generation that it shows. -/
def turns (c : Collector π) (index : Nat) : Nat :=
  match c.slots[index]? with
  | some (.occupied generation _) => generation.toNat + 1
  | some (.vacant next) => next.toNat
  | none => 0

theorem turns_of_node? {id : NodeId} {n : Node π} (h : c.node? id = some n) :
    c.turns id.index = id.generation.toNat + 1 := by
  rw [turns, (c.node?_eq_some_iff id n).1 h]

theorem turns_modifyNode (c : Collector π) (id : NodeId) (f : Node π → Node π) (index : Nat) :
    (c.modifyNode id f).turns index = c.turns index := by
  simp only [turns, modifyNode, Array.getElem?_modify]
  split_ifs
  · rcases c.slots[index]? with _ | (_ | _)
    · rfl
    · dsimp only [Option.map_some]
      split_ifs <;> rfl
    · rfl
  · rfl

theorem turns_addReference (c : Collector π) (s t : Option NodeId) (index : Nat) :
    (c.addReference s t).turns index = c.turns index := by
  unfold addReference
  split
  · split_ifs
    · exact turns_modifyNode ..
    · rfl
  · rfl

theorem turns_removeReference (c : Collector π) (s t : Option NodeId) (index : Nat) :
    (c.removeReference s t).turns index = c.turns index := by
  unfold removeReference
  split
  · exact turns_modifyNode ..
  · rfl

theorem turns_mark (c : Collector π) (work : List NodeId) (index : Nat) :
    (c.mark work).turns index = c.turns index := by
  induction c, work using mark_rec with
  | nil c => rfl
  | skip c id rest r _ ih => exact ih
  | visit c id n rest r _ _ ih => exact ih.trans (turns_modifyNode ..)

/-- A sweep ends no turn of a slot and begins none, as long as the generation does not wrap. -/
theorem turns_sweep {index : Nat} (h : c.turns index < 2 ^ 32) : c.sweep.1.turns index = c.turns index := by
  revert h
  simp only [turns, sweep, Array.getElem?_map]
  rcases c.slots[index]? with _ | (⟨g, n⟩ | next) <;> intro h
  · rfl
  · rw [Option.map_some, Slot.swept_occupied]
    split_ifs
    · rfl
    · exact (UInt32.toNat_add g 1).trans (Nat.mod_eq_of_lt h)
  · rfl

theorem turns_collect {index : Nat} (h : c.turns index < 2 ^ 32) (extra : List NodeId) :
    (c.collect extra).1.turns index = c.turns index := by
  have hmark := c.turns_mark (c.rootIds ++ extra) index
  exact (turns_sweep (hmark ▸ h)).trans hmark

theorem Tidy.generation_construct (h : c.Tidy) (p : π) :
    (c.construct p).1.generation.toNat = c.turns (c.construct p).1.index := by
  unfold Collector.construct turns
  split
  · rename_i i free hfree
    obtain ⟨next, hnext⟩ := h.vacant i (by simp [hfree])
    simp [hnext]
  · simp

theorem Tidy.turns_construct (h : c.Tidy) (p : π) (index : Nat) :
    (c.construct p).2.turns index = c.turns index + if (c.construct p).1.index = index then 1 else 0 := by
  by_cases hindex : (c.construct p).1.index = index
  · have hnew := h.node?_construct p (c.construct p).1
    rw [if_pos rfl] at hnew
    rw [if_pos hindex, ← hindex, turns_of_node? hnew, h.generation_construct]
  · rw [if_neg hindex, Nat.add_zero]
    unfold Collector.construct at hindex ⊢
    unfold turns
    split at hindex
    · rw [Array.getElem?_setIfInBounds_ne hindex]
    · rw [Array.getElem?_push, if_neg (Ne.symm hindex)]

/-! ### What has been issued -/

/-- Every slot has had as many nodes as ids of it were issued, each of an earlier turn. -/
structure Accounted (c : Collector π) (ids : List NodeId) : Prop where
  turns : ∀ index, c.turns index = ids.countP (·.index = index)
  earlier : ∀ id ∈ ids, id.generation.toNat < c.turns id.index
  distinct : ids.Nodup

theorem accounted_new : ({} : Collector π).Accounted [] :=
  ⟨fun _ => rfl, fun _ h => absurd h List.not_mem_nil, List.nodup_nil⟩

theorem Accounted.quiet {d : Collector π} {ids : List NodeId} (h : c.Accounted ids)
    (hturns : ∀ index, d.turns index = c.turns index) : d.Accounted (ids ++ []) := by
  rw [List.append_nil]
  exact ⟨fun index => (hturns index).trans (h.turns index), fun id hid => hturns id.index ▸ h.earlier id hid,
    h.distinct⟩

theorem Accounted.construct {ids : List NodeId} (h : c.Accounted ids) (htidy : c.Tidy) (p : π) :
    (c.construct p).2.Accounted (ids ++ [(c.construct p).1]) := by
  set id := (c.construct p).1
  have hlater : ∀ index, c.turns index ≤ (c.construct p).2.turns index := fun index => by
    rw [htidy.turns_construct]
    exact Nat.le_add_right _ _
  have hfresh : id ∉ ids := fun hmem =>
    absurd (h.earlier id hmem) (by rw [htidy.generation_construct]; exact Nat.lt_irrefl _)
  refine ⟨fun index => ?_, fun id' hid' => ?_, ?_⟩
  · rw [htidy.turns_construct, h.turns, List.countP_append, List.countP_singleton]
    simp [id]
  · rcases List.mem_append.1 hid' with hold | hnew
    · exact lt_of_lt_of_le (h.earlier id' hold) (hlater _)
    · obtain rfl := List.mem_singleton.1 hnew
      rw [htidy.turns_construct, if_pos rfl, htidy.generation_construct]
      exact Nat.lt_succ_self _
  · exact List.nodup_append.2 ⟨h.distinct, List.nodup_singleton _, fun a ha b hb hab =>
      hfresh (List.mem_singleton.1 hb ▸ hab ▸ ha)⟩

theorem Accounted.perform {ids : List NodeId} (h : c.Accounted ids) (htidy : c.Tidy)
    (hfew : ids.length < 2 ^ 32) (op : Operation π) :
    (c.perform op).Accounted (ids ++ (c.issued? op).toList) := by
  cases op with
  | construct p => exact h.construct htidy p
  | makeRoot id => exact h.quiet fun _ => turns_modifyNode ..
  | removeRoot id => exact h.quiet fun _ => turns_modifyNode ..
  | addReference s t => exact h.quiet fun _ => turns_addReference ..
  | removeReference s t => exact h.quiet fun _ => turns_removeReference ..
  | collect extra =>
    have hbelow : ∀ index, c.turns index < 2 ^ 32 := fun index =>
      lt_of_le_of_lt (h.turns index ▸ List.countP_le_length) hfew
    exact h.quiet fun index => turns_collect (hbelow index) extra

theorem Accounted.performAll {ids : List NodeId} {ops : List (Operation π)} (h : c.Accounted ids)
    (hreach : c.Reachable) (hfew : (ids ++ c.issued ops).length < 2 ^ 32) :
    (c.performAll ops).Accounted (ids ++ c.issued ops) := by
  induction ops generalizing c ids with
  | nil => exact (List.append_nil ids).symm ▸ h
  | cons op ops ih =>
    rw [issued, ← List.append_assoc] at hfew ⊢
    have hids : ids.length < 2 ^ 32 := by
      rw [List.length_append, List.length_append] at hfew
      omega
    exact ih (h.perform hreach.tidy hids op) (hreach.perform op) hfew

/-! ### Ids whose node is gone -/

theorem Tidy.contains_perform (h : c.Tidy) {op : Operation π} {id : NodeId}
    (hid : (c.perform op).contains id = true) : c.contains id = true ∨ c.issued? op = some id := by
  cases op with
  | construct p =>
    rw [Collector.perform, h.contains_construct, Bool.or_eq_true, decide_eq_true_eq] at hid
    exact hid.symm.imp_right fun heq => congrArg some heq.symm
  | makeRoot id' => exact Or.inl (contains_modifyNode c id' id _ ▸ hid)
  | removeRoot id' => exact Or.inl (contains_modifyNode c id' id _ ▸ hid)
  | addReference s t => exact Or.inl (contains_addReference c s t id ▸ hid)
  | removeReference s t => exact Or.inl (contains_removeReference c s t id ▸ hid)
  | collect extra => exact Or.inl ((h.contains_collect extra id).1 hid).contains

theorem Reachable.contains_performAll (h : c.Reachable) {ops : List (Operation π)} {id : NodeId}
    (hid : (c.performAll ops).contains id = true) : c.contains id = true ∨ id ∈ c.issued ops := by
  induction ops generalizing c with
  | nil => exact Or.inl hid
  | cons op ops ih =>
    rw [issued, List.mem_append, Option.mem_toList]
    rcases ih (h.perform op) hid with hlive | hlater
    · exact (h.tidy.contains_perform hlive).imp_right Or.inl
    · exact Or.inr (Or.inr hlater)

theorem modifyNode_eq_self {id : NodeId} {f : Node π → Node π} (h : ∀ n, c.node? id = some n → f n = n) :
    c.modifyNode id f = c := by
  unfold modifyNode
  congr 1
  apply Array.ext_getElem?
  intro i
  rw [Array.getElem?_modify]
  split_ifs with hi
  · subst hi
    rcases hslot : c.slots[id.index]? with _ | (⟨g, n⟩ | next)
    · rfl
    · dsimp only [Option.map_some]
      split_ifs with hg
      · rw [h n ((c.node?_eq_some_iff id n).2 (hg ▸ hslot))]
      · rfl
    · rfl
  · rfl

/-- An id that names no node: nothing is seen through it, and no call with it has an effect. -/
structure Void (c : Collector π) (id : NodeId) : Prop where
  contains : c.contains id = false
  isRoot : c.isRoot id = false
  references : c.references id = []
  outgoing : ∀ target, c.referenceCount id target = 0
  incoming : ∀ source, c.referenceCount source id = 0
  makeRoot : c.makeRoot id = c
  removeRoot : c.removeRoot id = c
  addReference : ∀ other, c.addReference (some id) other = c ∧ c.addReference other (some id) = c
  removeReference : ∀ other, c.removeReference (some id) other = c ∧ c.removeReference other (some id) = c

theorem Tidy.not_mem_targets (h : c.Tidy) {id source : NodeId} {n : Node π} (hid : c.contains id = false)
    (hn : c.node? source = some n) : id ∉ n.edges.targets := fun hmem =>
  Bool.false_ne_true (hid.symm.trans (h.closed source n hn id hmem))

theorem Tidy.void (h : c.Tidy) {id : NodeId} (hid : c.contains id = false) : c.Void id := by
  have hnone : c.node? id = none := by simpa [Collector.contains] using hid
  have hself : ∀ f, c.modifyNode id f = c := fun f => modifyNode_eq_self fun n hn => by
    rw [hnone] at hn
    cases hn
  refine ⟨hid, ?_, ?_, fun target => ?_, fun source => ?_, hself _, hself _, fun other => ⟨?_, ?_⟩,
    fun other => ⟨?_, ?_⟩⟩
  · simp [Collector.isRoot, hnone]
  · simp [Collector.references, hnone]
  · simp [referenceCount, hnone]
  · cases hn : c.node? source with
    | none => simp [referenceCount, hn]
    | some n =>
      have hout := h.not_mem_targets hid hn
      rw [Edges.mem_targets_iff (h.ordered source n hn)] at hout
      simpa [referenceCount, hn] using hout
  · cases other with
    | none => rfl
    | some target =>
      rw [Collector.addReference, hself]
      exact ite_self c
  · cases other with
    | none => rfl
    | some source =>
      rw [Collector.addReference, if_neg (by simp [hid])]
  · cases other with
    | none => rfl
    | some target => exact hself _
  · cases other with
    | none => rfl
    | some source =>
      refine modifyNode_eq_self fun n hn => ?_
      rw [Edges.remove_eq_self (h.not_mem_targets hid hn)]

/-- As long as fewer nodes are made than there are generations, no two of them get the same id, and an id
whose node has been reclaimed is void from then on. -/
theorem ids_never_alias {ops : List (Operation π)} (hfew : (issued {} ops).length < 2 ^ 32) :
    (issued {} ops).Nodup ∧
    ∀ before after id, ops = before ++ after → id ∈ issued {} before →
      (performAll {} before).contains id = false → (performAll {} ops).Void id := by
  have hdistinct := (accounted_new.performAll Reachable.new hfew).distinct
  refine ⟨hdistinct, ?_⟩
  rintro before after id rfl hissued hgone
  have hmid : (performAll ({} : Collector π) before).Reachable := Reachable.new.performAll before
  rw [performAll_append]
  refine (hmid.performAll after).tidy.void (Bool.eq_false_iff.2 fun hlive => ?_)
  rcases hmid.contains_performAll hlive with hbefore | hagain
  · exact Bool.false_ne_true (hgone.symm.trans hbefore)
  · rw [List.nil_append, issued_append] at hdistinct
    exact (List.nodup_append.1 hdistinct).2.2 id hissued id hagain rfl

/-- A node is reclaimed and its slot used again: the new node is a root, the old id is not. -/
theorem ids_never_alias_reused :
    let before : List (Operation Unit) := [.construct (), .collect []]
    let after : List (Operation Unit) := [.construct (), .makeRoot ⟨0, 1⟩]
    (issued {} (before ++ after)).length < 2 ^ 32 ∧
      issued {} (before ++ after) = [⟨0, 0⟩, ⟨0, 1⟩] ∧
      (performAll {} (before ++ after)).isRoot ⟨0, 1⟩ = true ∧
      (performAll {} (before ++ after)).Void ⟨0, 0⟩ := by
  refine ⟨by decide +kernel, by cbv, by cbv, ?_⟩
  exact (ids_never_alias (by decide +kernel)).2 _ _ ⟨0, 0⟩ rfl (by decide +kernel) (by cbv)

end ScriptVm.Collector
