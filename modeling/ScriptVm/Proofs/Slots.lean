import ScriptVm.Proofs.Custody
import ScriptVm.Proofs.Entries
import ScriptVm.World.Basic

/-! The slots of a world in which arrays are roots themselves: globals, and the variables of its
instances. Setting one exchanges a value for another; removing instances gives their arrays up. -/

namespace ScriptVm

namespace World

def slots (w : World) : List Value := w.globals.values ++ w.instances.flatMap (·.fields.values)

def builtinValues (w : World) : List Value := w.instances.flatMap (·.builtins.values)

/-- A world without nodes of its own whose instances have ids of their own, and whose built-in
variables hold no arrays. -/
structure Plain (w : World) : Prop where
  anchoring : w.anchoring = .roots
  node : ∀ i ∈ w.instances, i.node = none
  distinct : (w.instances.map (·.id)).Nodup
  builtins : ∀ v ∈ w.builtinValues, v.isArray = false

/-- A value has a place among the slots: it can be exchanged for another. -/
def Place (slots : List Value) (old : Value) (exchanged : Value → List Value) : Prop :=
  ∃ rest, (∀ v, (v :: rest).Perm (exchanged v)) ∧
    (slots.Perm (old :: rest) ∨ old = .undefined ∧ slots.Perm rest)

theorem place_entries (es : List (VariableId × Value)) (id : VariableId) :
    Place (es.map Prod.snd) (Entries.look es id) fun v => (Variables.setIn es id v).map Prod.snd := by
  refine ⟨Entries.others es id, fun v => ?_, ?_⟩
  · dsimp only
    rw [Entries.put_variables]
    exact (Entries.perm_put es id v).symm
  · refine (Entries.perm_others es id).imp_right fun ⟨hlook, hothers⟩ => ⟨hlook, ?_⟩
    rw [hothers]

theorem Place.within {slots : List Value} {old : Value} {exchanged : Value → List Value}
    (hp : Place slots old exchanged) (before after : List Value) :
    Place (before ++ slots ++ after) old fun v => before ++ exchanged v ++ after := by
  obtain ⟨rest, hnew, hold⟩ := hp
  refine ⟨before ++ rest ++ after, fun v => ?_, ?_⟩
  · have hmove : (v :: (before ++ rest ++ after)).Perm (before ++ (v :: rest) ++ after) := by
      rw [← List.cons_append]
      exact (List.perm_middle.symm).append_right after
    exact hmove.trans (((hnew v).append_left before).append_right after)
  · rcases hold with hold | ⟨hnone, hold⟩
    · left
      refine ((hold.append_left before).append_right after).trans ?_
      rw [← List.cons_append]
      exact List.perm_middle.append_right after
    · exact Or.inr ⟨hnone, (hold.append_left before).append_right after⟩

theorem place_global (w : World) (id : VariableId) :
    Place w.slots (w.globals.get id) fun v => ({ w with globals := w.globals.set id v } : World).slots :=
  (place_entries w.globals.entries id).within [] _

theorem Place.open {slots : List Value} {old : Value} {exchanged : Value → List Value}
    (hp : Place slots old exchanged) {strict : Prop} {m : Memory} {free kept : List Value}
    (h : m.Custody strict free slots kept) :
    ∃ rest, m.Custody strict free (old :: rest) kept ∧ ∀ {m' : Memory} {free' : List Value} {v : Value},
      m'.Custody strict free' (v :: rest) kept → m'.Custody strict free' (exchanged v) kept := by
  obtain ⟨rest, hnew, hold⟩ := hp
  refine ⟨rest, ?_, fun hv => hv.perm (List.Perm.refl _) (hnew _) (List.Perm.refl _)⟩
  rcases hold with hold | ⟨rfl, hold⟩
  · exact h.perm (List.Perm.refl _) hold (List.Perm.refl _)
  · exact (Memory.Custody.slot_null rfl).2 (h.perm (List.Perm.refl _) hold (List.Perm.refl _))

/-! ### Instances -/

theorem modifyInstance_eq {w : World} {i : Instance} {before after : List Instance}
    (hsplit : w.instances = before ++ i :: after) (hdistinct : (w.instances.map (·.id)).Nodup)
    (f : Instance → Instance) :
    (w.modifyInstance i.id f).instances = before ++ f i :: after := by
  rw [hsplit, List.map_append, List.map_cons, List.nodup_middle, List.nodup_cons, ← List.map_append] at hdistinct
  have hother : ∀ j ∈ before ++ after, (if j.id = i.id then f j else j) = j := by
    intro j hj
    rw [if_neg]
    intro heq
    exact hdistinct.1 (heq ▸ List.mem_map_of_mem hj)
  simp only [modifyInstance, hsplit, List.map_append, List.map_cons, if_true]
  rw [List.map_congr_left (g := id) fun j hj => hother j (List.mem_append_left _ hj),
    List.map_congr_left (g := id) fun j hj => hother j (List.mem_append_right _ hj), List.map_id, List.map_id]

theorem place_field {w : World} (hdistinct : (w.instances.map (·.id)).Nodup) {i : Instance} (hi : i ∈ w.instances)
    (id : VariableId) : Place w.slots (i.fields.get id) fun v =>
      (w.modifyInstance i.id fun j => { j with fields := j.fields.set id v }).slots := by
  obtain ⟨before, after, hsplit⟩ := List.append_of_mem hi
  have hplace := (place_entries i.fields.entries id).within
    (w.globals.values ++ before.flatMap (·.fields.values)) (after.flatMap (·.fields.values))
  have hbefore : w.slots = w.globals.values ++ before.flatMap (·.fields.values) ++
      i.fields.entries.map Prod.snd ++ after.flatMap (·.fields.values) := by
    rw [slots, hsplit]
    simp [Variables.values]
  have hafter : ∀ v, (w.modifyInstance i.id fun j => { j with fields := j.fields.set id v }).slots =
      w.globals.values ++ before.flatMap (·.fields.values) ++
        (Variables.setIn i.fields.entries id v).map Prod.snd ++ after.flatMap (·.fields.values) := by
    intro v
    rw [slots, modifyInstance_eq hsplit hdistinct]
    simp [Variables.values, Variables.set, modifyInstance]
  simp only [hbefore, hafter]
  exact hplace

theorem ids_modifyInstance (w : World) (id : InstanceId) {f : Instance → Instance} (hf : ∀ i, (f i).id = i.id) :
    (w.modifyInstance id f).instances.map (·.id) = w.instances.map (·.id) := by
  simp only [modifyInstance, List.map_map]
  apply List.map_congr_left
  intro i _
  dsimp only [Function.comp]
  split_ifs
  · exact hf i
  · rfl

theorem Plain.modifyInstance {w : World} (hw : w.Plain) (id : InstanceId) {f : Instance → Instance}
    (hf : ∀ i, (f i).id = i.id ∧ (f i).node = i.node)
    (hbuiltins : ∀ i ∈ w.instances, ∀ v ∈ (f i).builtins.values, v.isArray = false) :
    (w.modifyInstance id f).Plain := by
  have hmem : ∀ j ∈ (w.modifyInstance id f).instances, ∃ i ∈ w.instances, j = f i ∨ j = i := by
    intro j hj
    obtain ⟨i, hi, rfl⟩ := List.mem_map.1 hj
    refine ⟨i, hi, ?_⟩
    split_ifs
    · exact Or.inl rfl
    · exact Or.inr rfl
  refine ⟨hw.anchoring, fun j hj => ?_, ?_, fun v hv => ?_⟩
  · obtain ⟨i, hi, rfl | rfl⟩ := hmem j hj
    · rw [(hf i).2]
      exact hw.node i hi
    · exact hw.node j hi
  · rw [w.ids_modifyInstance id fun i => (hf i).1]
    exact hw.distinct
  · obtain ⟨j, hj, hv⟩ := List.mem_flatMap.1 hv
    obtain ⟨i, hi, rfl | rfl⟩ := hmem j hj
    · exact hbuiltins i hi v hv
    · exact hw.builtins v (List.mem_flatMap.2 ⟨j, hi, hv⟩)

theorem slots_modifyInstance (w : World) (id : InstanceId) {f : Instance → Instance}
    (hf : ∀ i, (f i).fields = i.fields) : (w.modifyInstance id f).slots = w.slots := by
  simp only [slots, modifyInstance, List.flatMap_map]
  congr 2
  funext i
  split_ifs
  · rw [hf i]
  · rfl

theorem Plain.destroy {w : World} (hw : w.Plain) (id : InstanceId) : (w.destroy id).Plain :=
  hw.modifyInstance id (fun _ => ⟨rfl, rfl⟩) fun i hi v hv => hw.builtins v (List.mem_flatMap.2 ⟨i, hi, hv⟩)

theorem slots_destroy (w : World) (id : InstanceId) : (w.destroy id).slots = w.slots :=
  w.slots_modifyInstance id fun _ => rfl

theorem Plain.create {w : World} (hw : w.Plain) (m : Memory) (object : Int64)
    (hfresh : w.instance? w.nextId = none) :
    (w.create m object).2.1.Plain ∧ (w.create m object).2.1.slots = w.slots ∧ (w.create m object).2.2 = m := by
  unfold World.create
  rw [hw.anchoring]
  refine ⟨⟨rfl, fun i hi => ?_, ?_, fun v hv => ?_⟩, ?_, rfl⟩
  · rcases List.mem_append.1 hi with hi | hi
    · exact hw.node i hi
    · rw [List.mem_singleton.1 hi]
  · rw [List.map_append, List.nodup_append]
    refine ⟨hw.distinct, List.nodup_singleton _, ?_⟩
    rintro id hid _ hnew rfl
    obtain ⟨i, hi, rfl⟩ := List.mem_map.1 hid
    have hother := List.find?_eq_none.1 hfresh i hi
    rw [List.mem_singleton.1 hnew] at hother
    simp at hother
  · refine hw.builtins v ?_
    rw [builtinValues, List.flatMap_append] at hv
    simpa [builtinValues, Variables.values] using hv
  · simp [slots, List.flatMap_append, Variables.values]

/-! ### Cleaning up -/

theorem foldl_unanchor (m : Memory) (gone : List Instance) :
    gone.foldl (unanchor .roots) m =
      (gone.flatMap (·.fields.values)).foldl (fun m v => (m.releaseRoot v).2) m := by
  induction gone generalizing m with
  | nil => rfl
  | cons i gone ih => rw [List.foldl_cons, List.flatMap_cons, List.foldl_append, ih]; rfl

/-- Destroyed instances go, and with them the roots and the values of their variables. -/
theorem custody_cleanup {strict : Prop} {w : World} (hanchoring : w.anchoring = .roots) {m : Memory}
    {free kept : List Value} (h : m.Custody strict free w.slots (kept ++ w.builtinValues)) :
    (w.cleanup m).2.Custody strict free (w.cleanup m).1.slots (kept ++ (w.cleanup m).1.builtinValues) := by
  set gone := w.instances.filter (!·.active) with hgone
  have hall : w.instances.Perm (gone ++ w.active) :=
    (List.filter_append_perm (fun i : Instance => i.active) w.instances).symm.trans List.perm_append_comm
  have hparted : ∀ f : Instance → List Value, (w.instances.flatMap f).Perm (gone.flatMap f ++ w.active.flatMap f) := by
    intro f
    rw [← List.flatMap_append]
    exact hall.flatMap_right f
  have hslots : w.slots.Perm (gone.flatMap (·.fields.values) ++ (w.cleanup m).1.slots) :=
    ((hparted _).append_left w.globals.values).trans (List.perm_append_comm_assoc _ _ _)
  have hretired := (h.perm (List.Perm.refl _) hslots (List.Perm.refl _)).retireAll
  have hplain : (gone.flatMap (·.builtins.values)).map Value.share = gone.flatMap (·.builtins.values) := by
    refine (List.map_congr_left fun v hv => ?_).trans (List.map_id _)
    have hmem : v ∈ w.builtinValues := (hparted (·.builtins.values)).symm.subset (List.mem_append_left _ hv)
    exact Value.share_of_plain (h.plain v (List.mem_append_right _ (List.mem_append_right _ hmem)))
  -- the dead fields are dropped together with the built-in variables, instance by instance
  have hdropped : ((gone.flatMap (·.fields.values)).map Value.share ++ (kept ++ w.builtinValues)).Perm
      ((gone.flatMap fun i => i.fields.values ++ i.builtins.values).map Value.share ++
        (kept ++ (w.cleanup m).1.builtinValues)) := by
    have hjoined := (List.flatMap_append_perm gone (·.fields.values) (·.builtins.values)).map Value.share
    rw [List.map_append, hplain] at hjoined
    refine List.Perm.trans ?_ (hjoined.append_right _)
    rw [List.append_assoc]
    refine List.Perm.append_left _ ?_
    exact ((hparted _).append_left kept).trans (List.perm_append_comm_assoc _ _ _)
  have hreleased := (hretired.perm (List.Perm.refl _) (List.Perm.refl _) hdropped).release_kept
  have hsame : (w.cleanup m).2 = ((gone.flatMap (·.fields.values)).foldl (fun m v => (m.releaseRoot v).2) m).release
      ((gone.flatMap fun i => i.fields.values ++ i.builtins.values).map Value.share) := by
    unfold World.cleanup
    rw [hanchoring]
    simp only [← hgone, foldl_unanchor, Memory.release]
    congr 1
    apply Heap.release_congr
    simp [List.filterMap_map]
  rw [hsame]
  exact hreleased

theorem Plain.withoutDestroyed {w : World} (hw : w.Plain) (m : Memory) : (w.cleanup m).1.Plain := by
  have hsub : ∀ i ∈ w.active, i ∈ w.instances := fun i hi => (List.mem_filter.1 hi).1
  refine ⟨hw.anchoring, fun i hi => hw.node i (hsub i hi), hw.distinct.sublist (List.filter_sublist.map _), ?_⟩
  intro v hv
  obtain ⟨i, hi, hv⟩ := List.mem_flatMap.1 hv
  exact hw.builtins v (List.mem_flatMap.2 ⟨i, hsub i hi, hv⟩)

theorem Plain.cleanup {strict : Prop} {w : World} (hw : w.Plain) {m : Memory} {free kept : List Value}
    (h : m.Custody strict free w.slots kept) :
    (w.cleanup m).1.Plain ∧ (w.cleanup m).2.Custody strict free (w.cleanup m).1.slots kept := by
  have hnulls : ∀ {w : World}, w.Plain → ∀ v ∈ w.builtinValues, v.target? = none ∧ v.isRooted = false :=
    fun hw v hv => ⟨Value.target?_of_not_array (hw.builtins v hv), Value.isRooted_of_not_array (hw.builtins v hv)⟩
  have hboth := ((Memory.Custody.kept_nulls (hnulls hw)).2 h).perm (List.Perm.refl _) (List.Perm.refl _)
    List.perm_append_comm
  have hcleaned := (custody_cleanup hw.anchoring hboth).perm (List.Perm.refl _) (List.Perm.refl _) List.perm_append_comm
  exact ⟨hw.withoutDestroyed m, (Memory.Custody.kept_nulls (hnulls (hw.withoutDestroyed m))).1 hcleaned⟩

/-! ### Built-in variables -/

theorem Plain.builtin_get {w : World} (hw : w.Plain) {i : Instance} (hi : i ∈ w.instances)
    (id : VariableId) : (i.builtins.get id).isArray = false := by
  rcases Entries.look_mem i.builtins.entries id with hmem | hnone
  · exact hw.builtins _ (List.mem_flatMap.2 ⟨i, hi, hmem⟩)
  · rw [show i.builtins.get id = .undefined from hnone]
    rfl

theorem Plain.setBuiltins {w : World} (hw : w.Plain) (instanceId : InstanceId) (id : VariableId) {v : Value}
    (hv : v.isArray = false) :
    (w.modifyInstance instanceId fun i => { i with builtins := i.builtins.set id v }).Plain := by
  refine hw.modifyInstance instanceId (fun _ => ⟨rfl, rfl⟩) fun i hi u hu => ?_
  have hp := Entries.perm_put i.builtins.entries id v
  rw [← Entries.put_variables] at hp
  rcases List.mem_cons.1 (hp.subset hu) with rfl | hu
  · exact hv
  · refine hw.builtins u (List.mem_flatMap.2 ⟨i, hi, ?_⟩)
    rcases Entries.perm_others i.builtins.entries id with hp | ⟨-, heq⟩
    · exact hp.symm.subset (List.mem_cons_of_mem _ hu)
    · rw [← heq] at hu
      exact hu

theorem slots_setBuiltins (w : World) (instanceId : InstanceId) (id : VariableId) (v : Value) :
    (w.modifyInstance instanceId fun i => { i with builtins := i.builtins.set id v }).slots = w.slots :=
  w.slots_modifyInstance instanceId fun _ => rfl

theorem Plain.instance_mem {w : World} {id : InstanceId} {i : Instance} (hi : w.instance? id = some i) :
    i ∈ w.instances := List.mem_of_find?_eq_some hi

end World
end ScriptVm
