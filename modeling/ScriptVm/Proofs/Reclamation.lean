import ScriptVm.Proofs.Histories

/-! The log of hooks over a run of the collector. What the log names and what is still live are together
what was made, so no hook runs twice; within a pass the hooks follow the slots of the nodes it reclaims. -/

namespace ScriptVm

namespace Hook
variable {π : Type}

def cleaned? : Hook π → Option π
  | .cleanup p => some p
  | .delete _ => none

def deleted? : Hook π → Option π
  | .cleanup _ => none
  | .delete p => some p

theorem cleaned_sequence (ps : List π) : (sequence ps).filterMap cleaned? = ps := by
  simp [sequence, List.filterMap_append, List.filterMap_map, Function.comp_def, cleaned?]

theorem deleted_sequence (ps : List π) : (sequence ps).filterMap deleted? = ps := by
  simp [sequence, List.filterMap_append, List.filterMap_map, Function.comp_def, deleted?]

end Hook

namespace Collector
variable {π : Type} {c : Collector π}

def payload? (c : Collector π) (id : NodeId) : Option π := (c.node? id).map (·.payload)

/-- The payloads of the live nodes, in slot order. -/
def payloads (c : Collector π) : List π := c.ids.filterMap c.payload?

/-- The live nodes that a pass reclaims, in slot order. -/
def reclaimed (c : Collector π) (extra : List NodeId) : List NodeId :=
  c.ids.filter fun id => !(c.collect extra).1.contains id

def hooks (c : Collector π) : Operation π → List (Hook π)
  | .collect extra => Hook.sequence (c.collect extra).2
  | _ => []

def log (c : Collector π) : List (Operation π) → List (Hook π)
  | [] => []
  | op :: ops => c.hooks op ++ (c.perform op).log ops

def Operation.payload? : Operation π → Option π
  | .construct p => some p
  | _ => none

theorem payload?_eq_some_iff (id : NodeId) (p : π) :
    c.payload? id = some p ↔ ∃ n, c.node? id = some n ∧ n.payload = p := Option.map_eq_some_iff

theorem mem_payloads_iff (p : π) : p ∈ c.payloads ↔ ∃ id, c.payload? id = some p := by
  simp only [payloads, List.mem_filterMap, mem_ids_iff]
  refine ⟨fun ⟨id, _, hid⟩ => ⟨id, hid⟩, fun ⟨id, hid⟩ => ⟨id, ?_, hid⟩⟩
  obtain ⟨n, hn, -⟩ := (payload?_eq_some_iff id p).1 hid
  exact contains_of_node? hn

/-! ### One pass -/

theorem pairwise_ids (c : Collector π) : c.ids.Pairwise (·.index < ·.index) := by
  rw [ids, List.pairwise_filterMap]
  refine List.pairwise_lt_range.imp fun {i j} hij a ha b hb => ?_
  rw [((c.idAt?_eq_some_iff i a).1 ha).1, ((c.idAt?_eq_some_iff j b).1 hb).1]
  exact hij

theorem payload?_mark (c : Collector π) (work : List NodeId) (id : NodeId) :
    (c.mark work).payload? id = c.payload? id := by
  have hnode := congrArg (Option.map Node.payload) ((marks_mark c work).same.node id)
  rw [Option.map_map, Option.map_map] at hnode
  exact hnode

/-- A sweep takes the payloads of the nodes it does not keep, in the order of their slots. -/
theorem condemned_sweep (c : Collector π) :
    c.sweep.2 = (c.ids.filter fun id => !c.sweep.1.contains id).filterMap c.payload? := by
  rw [condemned_eq, ids, List.filter_filterMap, List.filterMap_filterMap]
  refine List.filterMap_congr fun i _ => ?_
  cases hslot : c.slots[i]? with
  | none => simp [idAt?, hslot]
  | some slot =>
    cases slot with
    | vacant next => simp [idAt?, hslot, Slot.condemned?]
    | occupied g n =>
      have hn : c.node? ⟨i, g⟩ = some n := (c.node?_eq_some_iff ⟨i, g⟩ n).2 hslot
      by_cases hkeep : n.kept = true <;>
        simp [idAt?, hslot, Slot.condemned?_occupied, hkeep, contains, node?_sweep, hn, Option.filter, payload?]

theorem ids_mark (c : Collector π) (work : List NodeId) : (c.mark work).ids = c.ids := by
  have hsame := (marks_mark c work).same
  rw [ids, ids, size_mark]
  refine List.filterMap_congr fun i _ => Option.ext fun id => ?_
  rw [idAt?_eq_some_iff, idAt?_eq_some_iff, hsame.contains]

theorem condemned_collect (c : Collector π) (extra : List NodeId) :
    (c.collect extra).2 = (c.reclaimed extra).filterMap c.payload? := by
  have hpayload : (c.mark (c.rootIds ++ extra)).payload? = c.payload? :=
    funext (payload?_mark c (c.rootIds ++ extra))
  change (c.mark (c.rootIds ++ extra)).sweep.2 = _
  rw [condemned_sweep, ids_mark, hpayload]
  rfl

theorem mem_reclaimed_iff (extra : List NodeId) (id : NodeId) :
    id ∈ c.reclaimed extra ↔ c.contains id = true ∧ (c.collect extra).1.contains id = false := by
  rw [reclaimed, List.mem_filter, mem_ids_iff, Bool.not_eq_true']

/-! ### What was made is live or is in the log -/

theorem payloads_perm {d : Collector π} (h : ∀ id, d.payload? id = c.payload? id) : d.payloads.Perm c.payloads := by
  have hcontains : ∀ id, d.contains id = c.contains id := fun id => by
    have hid := congrArg Option.isSome (h id)
    simpa [payload?, contains] using hid
  rw [payloads, payloads, funext h]
  exact (ids_perm hcontains).filterMap _

theorem Tidy.payloads_construct (h : c.Tidy) (p : π) : (c.construct p).2.payloads.Perm (p :: c.payloads) := by
  have hold : c.ids.filterMap (c.construct p).2.payload? = c.payloads := by
    refine List.filterMap_congr fun id hid => ?_
    have hne : id ≠ (c.construct p).1 := fun heq => h.not_mem_ids p (heq ▸ hid)
    simp only [payload?]
    rw [h.node?_construct, if_neg hne]
  have hfirst : (c.construct p).2.payload? (c.construct p).1 = some p := by
    simp only [payload?]
    rw [h.node?_construct, if_pos rfl]
    rfl
  refine ((h.ids_construct p).filterMap _).trans ?_
  rw [List.filterMap_cons_some hfirst, hold]

theorem Tidy.payloads_collect (h : c.Tidy) (extra : List NodeId) :
    ((c.collect extra).2 ++ (c.collect extra).1.payloads).Perm c.payloads := by
  set kept := c.ids.filter fun id => (c.collect extra).1.contains id 
  have hsame : kept.filterMap (c.collect extra).1.payload? = kept.filterMap c.payload? := by
    refine List.filterMap_congr fun id hid => ?_
    obtain ⟨n, hn⟩ := (contains_iff _ id).1 (List.mem_filter.1 hid).2
    simp only [payload?, hn, ((h.node?_collect_iff extra id n).1 hn).1]
  have hsplit : (c.reclaimed extra ++ kept).Perm c.ids := by
    refine List.perm_append_comm.trans ?_
    exact List.filter_append_perm (fun id => (c.collect extra).1.contains id) c.ids
  have hafter : (c.collect extra).1.payloads.Perm (kept.filterMap c.payload?) :=
    hsame ▸ (h.ids_collect extra).filterMap _
  rw [condemned_collect]
  refine (hafter.append_left _).trans ?_
  rw [← List.filterMap_append]
  exact hsplit.filterMap _

/-- One call: what its log names and what it leaves are what it found and what it made. -/
theorem Tidy.payloads_perform (h : c.Tidy) {named? : Hook π → Option π}
    (hnamed : ∀ ps, (Hook.sequence ps).filterMap named? = ps) (op : Operation π) :
    ((c.hooks op).filterMap named? ++ (c.perform op).payloads).Perm (op.payload?.toList ++ c.payloads) := by
  cases op with
  | construct p => exact h.payloads_construct p
  | makeRoot id => exact payloads_perm (payload_modifyNode c id (fun _ => rfl))
  | removeRoot id => exact payloads_perm (payload_modifyNode c id (fun _ => rfl))
  | addReference s t => exact payloads_perm (payload_addReference c s t)
  | removeReference s t => exact payloads_perm (payload_removeReference c s t)
  | collect extra =>
    rw [hooks, hnamed]
    exact h.payloads_collect extra

theorem Reachable.payloads_performAll (h : c.Reachable) {named? : Hook π → Option π}
    (hnamed : ∀ ps, (Hook.sequence ps).filterMap named? = ps) (ops : List (Operation π)) :
    ((c.log ops).filterMap named? ++ (c.performAll ops).payloads).Perm
      (ops.filterMap Operation.payload? ++ c.payloads) := by
  induction ops generalizing c with
  | nil => exact List.Perm.refl _
  | cons op ops ih =>
    have hrest := ih (h.perform op)
    have hfirst := h.tidy.payloads_perform hnamed op
    have hmade : (op :: ops).filterMap Operation.payload? =
        op.payload?.toList ++ ops.filterMap Operation.payload? := by
      rw [List.filterMap_cons]
      cases op.payload? <;> rfl
    rw [log, List.filterMap_append, List.append_assoc, hmade, List.append_assoc]
    refine (hrest.append_left _).trans (List.perm_append_comm_assoc _ _ _ |>.trans ?_)
    exact (hfirst.append_left _).trans (List.perm_append_comm_assoc _ _ _)

/-! ### The hooks of a pass and of a run -/

/-- The hooks of a pass: cleanup and deletion of each node that it reclaims, in two phases and in slot order.
When no two nodes have the same payload, a live node's hooks are called if and only if it is reclaimed. -/
structure Phased (c : Collector π) (extra : List NodeId) : Prop where
  reclaimed : ∀ id, id ∈ c.reclaimed extra ↔
    c.contains id = true ∧ (c.perform (.collect extra)).contains id = false
  ordered : (c.reclaimed extra).Pairwise (·.index < ·.index)
  phases : ∃ gone : List π, gone.map some = (c.reclaimed extra).map c.payload? ∧
    c.hooks (.collect extra) = gone.map .cleanup ++ gone.map .delete
  told : c.payloads.Nodup → ∀ id p, c.payload? id = some p →
    (.cleanup p ∈ c.hooks (.collect extra) ↔ (c.perform (.collect extra)).contains id = false) ∧
    (.delete p ∈ c.hooks (.collect extra) ↔ (c.perform (.collect extra)).contains id = false)

theorem Tidy.mem_condemned_iff (h : c.Tidy) (hdistinct : c.payloads.Nodup) {extra : List NodeId} {id : NodeId}
    {p : π} (hp : c.payload? id = some p) :
    p ∈ (c.collect extra).2 ↔ (c.collect extra).1.contains id = false := by
  obtain ⟨n, hn, hpayload⟩ := (payload?_eq_some_iff id p).1 hp
  constructor
  · intro hmem
    refine Bool.eq_false_iff.2 fun hlive => ?_
    -- its payload would be both among those taken and among those left
    obtain ⟨m, hm⟩ := (contains_iff _ id).1 hlive
    have hsame : n = m := Option.some.inj (hn.symm.trans ((h.node?_collect_iff extra id m).1 hm).1)
    have hleft : p ∈ (c.collect extra).1.payloads :=
      (mem_payloads_iff p).2 ⟨id, (payload?_eq_some_iff id p).2 ⟨m, hm, hsame ▸ hpayload⟩⟩
    have happart := List.nodup_append.1 ((h.payloads_collect extra).nodup_iff.2 hdistinct)
    exact happart.2.2 p hmem p hleft rfl
  · intro hgone
    rw [condemned_collect, List.mem_filterMap]
    exact ⟨id, (mem_reclaimed_iff extra id).2 ⟨contains_of_node? hn, hgone⟩, hp⟩

theorem Tidy.phased (h : c.Tidy) (extra : List NodeId) : c.Phased extra where
  reclaimed := mem_reclaimed_iff extra
  ordered := c.pairwise_ids.filter _
  phases := by
    refine ⟨(c.collect extra).2, ?_, rfl⟩
    have hall : ∀ id ∈ c.reclaimed extra, (c.payload? id).map some = some (c.payload? id) := fun id hid => by
      obtain ⟨n, hn⟩ := (c.contains_iff id).1 ((mem_reclaimed_iff extra id).1 hid).1
      simp [payload?, hn]
    rw [condemned_collect, List.map_filterMap, List.filterMap_congr hall, ← List.filterMap_eq_map]
    rfl
  told hdistinct id p hp := by
    rw [Collector.perform, ← h.mem_condemned_iff hdistinct hp]
    simp [hooks, Hook.sequence]

/-- A log that repeats no cleanup and no deletion repeats nothing. -/
theorem nodup_of_named {hooks : List (Hook π)} (hcleaned : (hooks.filterMap Hook.cleaned?).Nodup)
    (hdeleted : (hooks.filterMap Hook.deleted?).Nodup) : hooks.Nodup := by
  induction hooks with
  | nil => exact List.nodup_nil
  | cons hook hooks ih =>
    cases hook with
    | cleanup p =>
      simp only [List.filterMap_cons, Hook.cleaned?, Hook.deleted?, List.nodup_cons, List.mem_filterMap]
        at hcleaned hdeleted
      exact List.nodup_cons.2 ⟨fun hp => hcleaned.1 ⟨_, hp, rfl⟩, ih hcleaned.2 hdeleted⟩
    | delete p =>
      simp only [List.filterMap_cons, Hook.cleaned?, Hook.deleted?, List.nodup_cons, List.mem_filterMap]
        at hcleaned hdeleted
      exact List.nodup_cons.2 ⟨fun hp => hdeleted.1 ⟨_, hp, rfl⟩, ih hcleaned hdeleted.2⟩

theorem log_append (c : Collector π) (ops rest : List (Operation π)) :
    c.log (ops ++ rest) = c.log ops ++ (c.performAll ops).log rest := by
  induction ops generalizing c with
  | nil => rfl
  | cons op ops ih =>
    rw [List.cons_append, log, log, ih, List.append_assoc]
    rfl

/-- In every run each payload that was made is cleaned up once or its node is live, and likewise deleted, so
that payloads told apart have each hook at most once and none while their node is live. Passes alone run
hooks, and the log is made of theirs: cleanups, then deletions, of what they reclaim, in slot order. -/
theorem hooks_run_once (ops : List (Operation π)) :
    ((log {} ops).filterMap Hook.cleaned? ++ (performAll {} ops).payloads).Perm
      (ops.filterMap Operation.payload?) ∧
    ((log {} ops).filterMap Hook.deleted? ++ (performAll {} ops).payloads).Perm
      (ops.filterMap Operation.payload?) ∧
    ((ops.filterMap Operation.payload?).Nodup →
      (log {} ops).Nodup ∧ (performAll {} ops).payloads.Nodup ∧
        ∀ p ∈ (performAll {} ops).payloads, .cleanup p ∉ log {} ops ∧ .delete p ∉ log {} ops) ∧
    ∀ before op after, ops = before ++ op :: after →
      log {} ops = log {} before ++ (performAll {} before).hooks op ++
        ((performAll {} before).perform op).log after ∧
      ((∀ extra, op ≠ .collect extra) → (performAll {} before).hooks op = []) ∧
      ∀ extra, (performAll ({} : Collector π) before).Phased extra := by
  have hnew : ({} : Collector π).payloads = [] := rfl
  have hcleaned := Reachable.new.payloads_performAll Hook.cleaned_sequence ops
  have hdeleted := Reachable.new.payloads_performAll Hook.deleted_sequence ops
  rw [hnew, List.append_nil] at hcleaned hdeleted
  refine ⟨hcleaned, hdeleted, fun hdistinct => ?_, ?_⟩
  · have honce := List.nodup_append.1 (hcleaned.nodup_iff.2 hdistinct)
    have honce' := List.nodup_append.1 (hdeleted.nodup_iff.2 hdistinct)
    refine ⟨nodup_of_named honce.1 honce'.1, honce.2.1, fun p hp => ⟨fun hmem => ?_, fun hmem => ?_⟩⟩
    · exact honce.2.2 p (List.mem_filterMap.2 ⟨_, hmem, rfl⟩) p hp rfl
    · exact honce'.2.2 p (List.mem_filterMap.2 ⟨_, hmem, rfl⟩) p hp rfl
  · rintro before op after rfl
    refine ⟨?_, fun hop => ?_, (Reachable.new.performAll before).tidy.phased⟩
    · rw [log_append, log, List.append_assoc]
    · cases op with
      | collect extra => exact absurd rfl (hop extra)
      | _ => rfl

/-- Two passes over three nodes, the last in the slot of the first one's node. -/
theorem hooks_run_once_reused :
    let before : List (Operation Nat) := [.construct 0, .construct 1, .makeRoot ⟨1, 0⟩, .collect [], .construct 2]
    let after : List (Operation Nat) := [.removeRoot ⟨1, 0⟩, .collect [], .collect []]
    ((before ++ after).filterMap Operation.payload?).Nodup ∧ (log {} (before ++ after)).Nodup ∧
      (log {} before).filterMap Hook.cleaned? = [0] ∧
      (log {} (before ++ after)).filterMap Hook.cleaned? = [0, 2, 1] ∧
      (log {} (before ++ after)).filterMap Hook.deleted? = [0, 2, 1] :=
  ⟨by decide, ((hooks_run_once _).2.2.1 (by decide)).1, by cbv, by cbv, by cbv⟩

end Collector
end ScriptVm
