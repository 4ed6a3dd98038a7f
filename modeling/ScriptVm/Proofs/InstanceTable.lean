import ScriptVm.Proofs.Registry

/-! What becomes of instances while a host makes, destroys and removes them. Each is followed from its creation on:
it counts as active until it is destroyed, and its id names it until the first cleanup after that. -/

namespace ScriptVm

namespace Registry

/-- What a host does with its instances. -/
inductive Act where
  | create (object : Int64)
  | destroy (id : InstanceId)
  | cleanup
  | assign (id : InstanceId) (fields builtins : Variables)
deriving DecidableEq

def Act.isCreate : Act → Bool
  | .create _ => true
  | _ => false

def perform (r : Registry) : Act → Registry
  | .create object => (r.create object).2
  | .destroy id => r.destroy id
  | .cleanup => r.cleanup
  | .assign id fields builtins => r.modify id fun i => { i with fields, builtins }

def after (r : Registry) (acts : List Act) : Registry := acts.foldl perform r

/-- How many instances the acts make. -/
def creations (acts : List Act) : Nat := acts.countP Act.isCreate

/-- An instance that has been made, and what was done later. -/
structure Birth where
  id : InstanceId
  object : Int64
  later : List Act
deriving DecidableEq

namespace Birth

def Lives (b : Birth) : Prop := .destroy b.id ∉ b.later

/-- The instance has been destroyed, and there was a cleanup after that. -/
def Removed (b : Birth) : Prop := [.destroy b.id, .cleanup].Sublist b.later

instance (b : Birth) : Decidable b.Lives := inferInstanceAs (Decidable (_ ∉ _))

instance (b : Birth) : Decidable b.Removed := inferInstanceAs (Decidable (List.Sublist _ _))

end Birth

/-- The instances that the acts make, in the order of their creation. -/
def births (r : Registry) : List Act → List Birth
  | [] => []
  | .create object :: acts => ⟨(r.create object).1, object, acts⟩ :: births (r.create object).2 acts
  | act :: acts => births (r.perform act) acts

theorem births_of_not_create (r : Registry) {act : Act} (hact : act.isCreate = false) (acts : List Act) :
    births r (act :: acts) = births (r.perform act) acts := by
  cases act with
  | create object => cases hact
  | _ => rfl

/-- An act, the memory that it meets, and whether it is given the collector. -/
structure Occasion where
  act : Act
  memory : Memory := {}
  tracked : Bool := true

end Registry

open Registry

namespace World
variable {w : World}

def perform (w : World) (o : Occasion) : World :=
  match o.act with
  | .create object => (w.create o.memory object).2.1
  | .destroy id => w.destroy id
  | .cleanup => (o.memory.trackedIf o.tracked w.cleanup).1
  | .assign id fields builtins => w.modifyInstance id fun i => { i with fields, builtins }

def after (w : World) (os : List Occasion) : World := os.foldl perform w

theorem cleanup_trackedIf (w : World) (m : Memory) (tracked : Bool) :
    (m.trackedIf tracked w.cleanup).1 = { w with instances := w.active } := by
  cases tracked <;> rfl

/-- Arrays are roots themselves, and the instances have distinct ids, which are no objects and have been handed out. -/
structure Numbered (w : World) : Prop where
  anchoring : w.anchoring = .roots
  distinct : (w.instances.map (·.id)).Nodup
  range : ∀ id ∈ w.instances.map (·.id), 100000 ≤ id.toNat ∧ id.toNat < w.nextId.toNat
  next : 100000 ≤ w.nextId.toNat

theorem numbered_new : ({} : World).Numbered := ⟨rfl, List.nodup_nil, nofun, by decide⟩

theorem Numbered.fresh (hw : w.Numbered) : w.instance? w.nextId = none := by
  cases hfound : w.instance? w.nextId with
  | none => rfl
  | some i =>
    obtain ⟨hi, hid⟩ := instance?_mem hfound
    have hlt := (hw.range i.id (List.mem_map_of_mem hi)).2
    rw [hid] at hlt
    exact absurd hlt (lt_irrefl _)

theorem Numbered.sublist {w' : World} (hw : w.Numbered) (hanchoring : w'.anchoring = w.anchoring)
    (hids : (w'.instances.map (·.id)).Sublist (w.instances.map (·.id))) (hnext : w'.nextId = w.nextId) :
    w'.Numbered := by
  refine ⟨hanchoring.trans hw.anchoring, hids.nodup hw.distinct, fun id hid => ?_, ?_⟩
  · rw [hnext]
    exact hw.range id (hids.subset hid)
  · rw [hnext]
    exact hw.next

theorem Numbered.modifyInstance (hw : w.Numbered) (id : InstanceId) {f : Instance → Instance}
    (hf : ∀ i, (f i).id = i.id) : (w.modifyInstance id f).Numbered :=
  hw.sublist rfl (by rw [ids_modifyInstance w id hf]) rfl

theorem Numbered.registry_perform (hw : w.Numbered) (o : Occasion) :
    (w.perform o).registry = w.registry.perform o.act := by
  unfold perform
  cases o.act with
  | create object => exact (registry_create hw.anchoring hw.fresh o.memory object).2
  | destroy id => exact registry_destroy w id
  | cleanup =>
    dsimp only
    rw [cleanup_trackedIf]
    exact registry_cleanup hw.distinct {}
  | assign id fields builtins => exact registry_modifyInstance id fun _ => rfl

def Roomy (w : World) (acts : List Act) : Prop := w.nextId.toNat + creations acts < 2 ^ 32

theorem nextId_perform {o : Occasion} {acts : List Act} (hroom : w.Roomy (o.act :: acts)) (hw : w.Numbered) :
    (w.perform o).nextId.toNat = w.nextId.toNat + creations [o.act] := by
  unfold Roomy creations at hroom
  rw [List.countP_cons] at hroom
  obtain ⟨act, m, tracked⟩ := o
  cases act with
  | create object =>
    have hlt : w.nextId.toNat + 1 < 2 ^ 32 := by
      simp only [Act.isCreate, if_true] at hroom
      omega
    change (w.create m object).2.1.nextId.toNat = w.nextId.toNat + 1
    rw [create_roots hw.anchoring]
    exact (UInt32.toNat_add _ _).trans (Nat.mod_eq_of_lt hlt)
  | cleanup =>
    change (m.trackedIf tracked w.cleanup).1.nextId.toNat = w.nextId.toNat
    rw [cleanup_trackedIf]
  | _ => rfl

theorem Numbered.create (hw : w.Numbered) (m : Memory) (object : Int64)
    (hnext : (w.nextId + 1).toNat = w.nextId.toNat + 1) : (w.create m object).2.1.Numbered := by
  have hfirst := hw.next
  have hfresh : w.nextId ∉ w.instances.map (·.id) := fun hin => lt_irrefl _ (hw.range _ hin).2
  rw [create_roots hw.anchoring]
  refine ⟨hw.anchoring, ?_, fun id hid => ?_, ?_⟩
  · rw [List.map_append, List.nodup_append]
    refine ⟨hw.distinct, List.nodup_singleton _, fun x hx y hy => ?_⟩
    rw [List.mem_singleton.1 hy]
    exact ne_of_mem_of_not_mem hx hfresh
  · rw [List.map_append, List.map_singleton, List.mem_append, List.mem_singleton] at hid
    dsimp only
    rcases hid with hid | hid
    · have hrange := hw.range id hid
      omega
    · rw [hid, hnext]
      exact ⟨hfirst, Nat.lt_succ_self _⟩
  · dsimp only
    omega

theorem Numbered.perform {o : Occasion} {acts : List Act} (hw : w.Numbered) (hroom : w.Roomy (o.act :: acts)) :
    (w.perform o).Numbered := by
  have hnext := nextId_perform hroom hw
  obtain ⟨act, m, tracked⟩ := o
  cases act with
  | create object =>
    change (w.create m object).2.1.nextId.toNat = w.nextId.toNat + 1 at hnext
    rw [create_roots hw.anchoring] at hnext
    exact hw.create m object hnext
  | destroy id => exact hw.modifyInstance id fun _ => rfl
  | cleanup =>
    change (m.trackedIf tracked w.cleanup).1.Numbered
    rw [cleanup_trackedIf]
    exact hw.sublist rfl (List.filter_sublist.map _) rfl
  | assign id fields builtins => exact hw.modifyInstance id fun _ => rfl

theorem Numbered.roomy {o : Occasion} {acts : List Act} (hw : w.Numbered) (hroom : w.Roomy (o.act :: acts)) :
    (w.perform o).Roomy acts := by
  have hnext := nextId_perform hroom hw
  have hcount : creations ([o.act] ++ acts) = creations [o.act] + creations acts := List.countP_append
  rw [List.singleton_append] at hcount
  unfold Roomy at hroom ⊢
  omega

/-! ### Who is active -/

/-- The active instances in the order of their creation, with their objects. -/
def roster (w : World) : List (InstanceId × Int64) := w.active.map fun i => (i.id, i.object)

theorem roster_create (hw : w.Numbered) (m : Memory) (object : Int64) :
    (w.create m object).2.1.roster = w.roster ++ [(w.nextId, object)] := by
  rw [create_roots hw.anchoring]
  simp [roster, active, List.filter_append]

theorem roster_destroy (w : World) (id : InstanceId) : (w.destroy id).roster = w.roster.filter (·.1 ≠ id) := by
  unfold roster active destroy modifyInstance
  induction w.instances with
  | nil => rfl
  | cons i is ih =>
    rw [List.map_cons, List.filter_cons, List.filter_cons]
    by_cases hid : i.id = id
    · cases hactive : i.active <;> simp [hid, ih]
    · cases hactive : i.active <;> simp [hid, hactive, ih]

theorem roster_cleanup (w : World) : ({ w with instances := w.active } : World).roster = w.roster := by
  simp [roster, active]

theorem roster_assign (w : World) (id : InstanceId) (fields builtins : Variables) :
    (w.modifyInstance id fun i => { i with fields, builtins }).roster = w.roster := by
  unfold roster active modifyInstance
  induction w.instances with
  | nil => rfl
  | cons i is ih =>
    rw [List.map_cons, List.filter_cons, List.filter_cons]
    by_cases hid : i.id = id <;> cases hactive : i.active <;> simp [hid, hactive, ih]

theorem roster_after {os : List Occasion} (hw : w.Numbered) (hroom : w.Roomy (os.map (·.act))) :
    (w.after os).roster = (w.roster.filter fun p => .destroy p.1 ∉ os.map (·.act)) ++
      ((births w.registry (os.map (·.act))).filter fun b => b.Lives).map fun b => (b.id, b.object) := by
  induction os generalizing w with
  | nil => simp [after, births]
  | cons o os ih =>
    rw [List.map_cons] at hroom
    rw [after, List.foldl_cons, ← after, ih (hw.perform hroom) (hw.roomy hroom), hw.registry_perform, List.map_cons]
    generalize os.map (·.act) = acts
    unfold perform
    cases o.act with
    | create object =>
      have hnew : births w.registry (.create object :: acts) =
          ⟨w.nextId, object, acts⟩ :: births (w.registry.perform (.create object)) acts := rfl
      dsimp only
      rw [hnew, roster_create hw, List.filter_append, List.append_assoc, List.filter_cons, List.filter_cons]
      by_cases hlives : Act.destroy w.nextId ∈ acts <;> simp [Birth.Lives, hlives]
    | destroy id =>
      dsimp only
      rw [births_of_not_create _ rfl, roster_destroy, List.filter_filter]
      congr 1
      refine List.filter_congr fun p _ => ?_
      simp [Bool.and_comm]
    | cleanup =>
      dsimp only
      rw [births_of_not_create _ rfl, cleanup_trackedIf, roster_cleanup]
      simp
    | assign id fields builtins =>
      dsimp only
      rw [births_of_not_create _ rfl, roster_assign]
      simp

/-! ### Whom an id names -/

/-- Whether an id names an instance, and if so an active one. -/
def standing (w : World) (id : InstanceId) : Option Bool := (w.instance? id).map (·.active)

/-- What an act does to the standing of an id that is in use or has been. -/
def standingAfter (id : InstanceId) (standing : Option Bool) : Act → Option Bool
  | .create _ | .assign .. => standing
  | .destroy other => if other = id then standing.map fun _ => false else standing
  | .cleanup => standing.filter fun active => active

theorem standing_modifyInstance (id other : InstanceId) {f : Instance → Instance} (hf : ∀ i, (f i).id = i.id) :
    (w.modifyInstance other f).standing id =
      (w.instance? id).map fun i => if id = other then (f i).active else i.active := by
  unfold standing
  rw [instance?_modifyInstance hf, Option.map_map]
  refine congrArg (fun g => (w.instance? id).map g) (funext fun i => ?_)
  exact apply_ite Instance.active (id = other) (f i) i

theorem standing_create (hw : w.Numbered) {id : InstanceId} (hid : id ≠ w.nextId) (m : Memory) (object : Int64) :
    (w.create m object).2.1.standing id = w.standing id := by
  have hnew : [({ id := w.nextId, object } : Instance)].find? (·.id == id) = none := by simp [Ne.symm hid]
  unfold standing instance?
  rw [create_roots hw.anchoring]
  dsimp only
  rw [List.find?_append, hnew, Option.or_none]

theorem standing_created (hw : w.Numbered) (m : Memory) (object : Int64) :
    (w.create m object).2.1.standing w.nextId = some true := by
  have hfresh := hw.fresh
  unfold instance? at hfresh
  unfold standing instance?
  rw [create_roots hw.anchoring]
  dsimp only
  rw [List.find?_append, hfresh]
  simp

theorem standing_cleanup (hw : w.Numbered) (id : InstanceId) :
    ({ w with instances := w.active } : World).standing id = (w.standing id).filter fun active => active := by
  have hcleaned : ({ w with instances := w.active } : World).instance? id = (w.instance? id).filter (·.active) :=
    instance?_cleanup hw.distinct {} id
  unfold standing
  rw [hcleaned]
  cases hi : w.instance? id with
  | none => rfl
  | some i => cases hactive : i.active <;> simp [Option.filter_some, hactive]

theorem standing_perform (hw : w.Numbered) {id : InstanceId} (hid : id ≠ w.nextId) (o : Occasion) :
    (w.perform o).standing id = standingAfter id (w.standing id) o.act := by
  unfold perform
  cases o.act with
  | create object => exact standing_create hw hid o.memory object
  | destroy other =>
    refine (standing_modifyInstance (f := fun i => { i with active := false }) id other fun _ => rfl).trans ?_
    unfold standingAfter standing
    by_cases hother : other = id
    · simp [hother]
    · simp [hother, Ne.symm hother]
  | cleanup =>
    dsimp only
    rw [cleanup_trackedIf]
    exact standing_cleanup hw id
  | assign other fields builtins =>
    refine (standing_modifyInstance (f := fun i => { i with fields, builtins }) id other fun _ => rfl).trans ?_
    simp [standingAfter, standing]

/-- An active instance is there until it is destroyed and a cleanup follows, and a destroyed one until the next. -/
theorem isSome_foldl_standingAfter_iff (id : InstanceId) (acts : List Act) (standing : Option Bool) :
    (acts.foldl (standingAfter id) standing).isSome ↔ match standing with
      | none => False
      | some true => ¬ [.destroy id, .cleanup].Sublist acts
      | some false => .cleanup ∉ acts := by
  induction acts generalizing standing with
  | nil => rcases standing with _ | _ | _ <;> simp
  | cons act acts ih =>
    rw [List.foldl_cons, ih]
    cases act with
    | destroy other =>
      by_cases hother : other = id
      · rcases standing with _ | _ | _ <;> simp [standingAfter, hother, List.singleton_sublist]
      · rcases standing with _ | _ | _ <;> simp [standingAfter, hother, List.sublist_cons_iff, Ne.symm hother]
    | cleanup =>
      rcases standing with _ | _ | _ <;> simp [standingAfter, Option.filter_some, List.sublist_cons_iff]
    | _ =>
      rcases standing with _ | _ | _ <;> simp [standingAfter, List.sublist_cons_iff]

theorem standing_after {os : List Occasion} (hw : w.Numbered) (hroom : w.Roomy (os.map (·.act))) {id : InstanceId}
    (hid : id.toNat < w.nextId.toNat) :
    (w.after os).standing id = (os.map (·.act)).foldl (standingAfter id) (w.standing id) := by
  induction os generalizing w with
  | nil => rfl
  | cons o os ih =>
    rw [List.map_cons] at hroom
    have hne : id ≠ w.nextId := by
      rintro rfl
      exact lt_irrefl _ hid
    have hnext : id.toNat < (w.perform o).nextId.toNat := by
      rw [nextId_perform hroom hw]
      exact Nat.lt_add_right _ hid
    rw [after, List.foldl_cons, ← after, ih (hw.perform hroom) (hw.roomy hroom) hnext, standing_perform hw hne,
      List.map_cons, List.foldl_cons]

/-! ### Births -/

theorem births_cons (hw : w.Numbered) (o : Occasion) (acts : List Act) :
    (∃ object, o.act = .create object ∧
      births w.registry (o.act :: acts) = ⟨w.nextId, object, acts⟩ :: births (w.perform o).registry acts) ∨
    births w.registry (o.act :: acts) = births (w.perform o).registry acts := by
  rw [hw.registry_perform]
  cases o.act with
  | create object => exact Or.inl ⟨object, rfl, rfl⟩
  | _ => exact Or.inr (births_of_not_create _ rfl acts)

theorem le_of_mem_births {os : List Occasion} (hw : w.Numbered) (hroom : w.Roomy (os.map (·.act))) {b : Birth}
    (hb : b ∈ births w.registry (os.map (·.act))) : w.nextId.toNat ≤ b.id.toNat := by
  induction os generalizing w with
  | nil => cases hb
  | cons o os ih =>
    rw [List.map_cons] at hroom hb
    have hlater : b ∈ births (w.perform o).registry (os.map (·.act)) → w.nextId.toNat ≤ b.id.toNat := fun hb => by
      have hle := ih (hw.perform hroom) (hw.roomy hroom) hb
      rw [nextId_perform hroom hw] at hle
      exact Nat.le_of_add_right_le hle
    rcases births_cons hw o (os.map (·.act)) with ⟨object, -, hcons⟩ | hcons
    · rw [hcons, List.mem_cons] at hb
      rcases hb with rfl | hb
      · exact le_rfl
      · exact hlater hb
    · exact hlater (hcons ▸ hb)

theorem nodup_births {os : List Occasion} (hw : w.Numbered) (hroom : w.Roomy (os.map (·.act))) :
    ((births w.registry (os.map (·.act))).map (·.id)).Nodup := by
  induction os generalizing w with
  | nil => exact List.nodup_nil
  | cons o os ih =>
    rw [List.map_cons] at hroom ⊢
    have hlater := ih (hw.perform hroom) (hw.roomy hroom)
    rcases births_cons hw o (os.map (·.act)) with ⟨object, hact, hcons⟩ | hcons
    · rw [hcons, List.map_cons, List.nodup_cons]
      refine ⟨fun hin => ?_, hlater⟩
      obtain ⟨b, hb, hid⟩ := List.mem_map.1 hin
      have hle := le_of_mem_births (hw.perform hroom) (hw.roomy hroom) hb
      rw [nextId_perform hroom hw, hact, hid] at hle
      exact absurd hle (Nat.not_succ_le_self _)
    · rw [hcons]
      exact hlater

/-- A new instance is there until it has been destroyed and a cleanup has followed. -/
theorem isSome_birth_iff {os : List Occasion} (hw : w.Numbered) (hroom : w.Roomy (os.map (·.act))) {b : Birth}
    (hb : b ∈ births w.registry (os.map (·.act))) : ((w.after os).instance? b.id).isSome ↔ ¬ b.Removed := by
  induction os generalizing w with
  | nil => cases hb
  | cons o os ih =>
    rw [List.map_cons] at hroom hb
    have hlater := ih (hw.perform hroom) (hw.roomy hroom)
    rw [after, List.foldl_cons, ← after]
    rcases births_cons hw o (os.map (·.act)) with ⟨object, hact, hcons⟩ | hcons
    · rw [hcons, List.mem_cons] at hb
      rcases hb with rfl | hb
      · have hnew : (w.perform o).standing w.nextId = some true := by
          unfold perform
          rw [hact]
          exact standing_created hw o.memory object
        have hlt : w.nextId.toNat < (w.perform o).nextId.toNat := by
          rw [nextId_perform hroom hw, hact]
          exact Nat.lt_succ_self _
        have hstanding := standing_after (hw.perform hroom) (hw.roomy hroom) hlt
        rw [hnew, standing] at hstanding
        rw [← Option.isSome_map, hstanding]
        exact isSome_foldl_standingAfter_iff w.nextId (os.map (·.act)) (some true)
      · exact hlater hb
    · exact hlater (hcons ▸ hb)

/-! ### What instances keep -/

/-- An instance that is still there after an act is of the same object and, unless the act sets its variables, has
the same in them. -/
theorem variables_perform (hw : w.Numbered) (o : Occasion) {id : InstanceId} {i i' : Instance}
    (hi : w.instance? id = some i) (hi' : (w.perform o).instance? id = some i') : i'.object = i.object ∧
      ((∀ fields builtins, o.act ≠ .assign id fields builtins) → i'.fields = i.fields ∧ i'.builtins = i.builtins) := by
  obtain ⟨act, m, tracked⟩ := o
  cases act with
  | create object =>
    change (w.create m object).2.1.instance? id = some i' at hi'
    rw [create_roots hw.anchoring, instance?, List.find?_append, ← instance?, hi, Option.some_or] at hi'
    obtain rfl := Option.some.inj hi'
    exact ⟨rfl, fun _ => ⟨rfl, rfl⟩⟩
  | destroy other =>
    change (w.modifyInstance other fun i => { i with active := false }).instance? id = some i' at hi'
    rw [instance?_modifyInstance (f := fun i => { i with active := false }) fun _ => rfl, hi, Option.map_some] at hi'
    obtain rfl := Option.some.inj hi'
    split_ifs <;> exact ⟨rfl, fun _ => ⟨rfl, rfl⟩⟩
  | cleanup =>
    change (m.trackedIf tracked w.cleanup).1.instance? id = some i' at hi'
    rw [cleanup_trackedIf] at hi'
    have hcleaned := (instance?_cleanup hw.distinct {} id).symm.trans hi'
    rw [hi, Option.filter_eq_some_iff] at hcleaned
    obtain rfl := Option.some.inj hcleaned.1
    exact ⟨rfl, fun _ => ⟨rfl, rfl⟩⟩
  | assign other fields builtins =>
    change (w.modifyInstance other fun i => { i with fields, builtins }).instance? id = some i' at hi'
    rw [instance?_modifyInstance (f := fun i => { i with fields, builtins }) fun _ => rfl, hi, Option.map_some] at hi'
    obtain rfl := Option.some.inj hi'
    split_ifs with hother
    · subst hother
      exact ⟨rfl, fun hne => absurd rfl (hne fields builtins)⟩
    · exact ⟨rfl, fun _ => ⟨rfl, rfl⟩⟩

def values (w : World) : List Value := w.instances.flatMap fun i => i.fields.values ++ i.builtins.values

theorem heap_cleanup (hroots : w.anchoring = .roots) (m : Memory) : (w.cleanup m).2.heap =
    m.heap.release ((w.instances.filter (!·.active)).flatMap fun i => i.fields.values ++ i.builtins.values) := by
  have hheap : ∀ (vs : List Value) (m : Memory), (vs.foldl (fun m v => (m.releaseRoot v).2) m).heap = m.heap := by
    intro vs
    induction vs with
    | nil => exact fun _ => rfl
    | cons v vs ih => exact fun m => (ih _).trans (m.heap_releaseRoot v)
  unfold cleanup
  rw [hroots]
  dsimp only [Memory.release]
  rw [foldl_unanchor, hheap]

/-- Cleaning up leaves the arrays that instances still have, or anyone else, as they are. -/
theorem agrees_cleanup (hroots : w.anchoring = .roots) (m : Memory) (tracked : Bool) {vs : List Value}
    (hs : m.heap.Supports (w.values ++ vs)) :
    Heap.Agrees ((w.cleanup m).1.values ++ vs) m.heap (m.trackedIf tracked w.cleanup).2.heap := by
  set gone := w.instances.filter (!·.active) with hgone
  have hparted : w.instances.Perm (gone ++ w.active) :=
    (List.filter_append_perm (fun i : Instance => i.active) w.instances).symm.trans List.perm_append_comm
  have hvalues : (w.values ++ vs).Perm ((gone.flatMap fun i => i.fields.values ++ i.builtins.values) ++
      ((w.cleanup m).1.values ++ vs)) := by
    rw [← List.append_assoc]
    refine List.Perm.append_right vs ?_
    have hmapped := hparted.flatMap_right fun i => i.fields.values ++ i.builtins.values
    rwa [List.flatMap_append] at hmapped
  have hheap : (m.trackedIf tracked w.cleanup).2.heap =
      m.heap.release (gone.flatMap fun i => i.fields.values ++ i.builtins.values) := by
    cases tracked with
    | true => exact heap_cleanup hroots m
    | false => exact heap_cleanup hroots { m with collector := none }
  rw [hheap]
  exact Heap.agrees_release _ (hs.perm hvalues)

theorem numbered_after {os : List Occasion} (hw : w.Numbered) (hroom : w.Roomy (os.map (·.act))) :
    (w.after os).Numbered ∧ (w.after os).registry = w.registry.after (os.map (·.act)) := by
  induction os generalizing w with
  | nil => exact ⟨hw, rfl⟩
  | cons o os ih =>
    rw [List.map_cons] at hroom
    obtain ⟨hnumbered, hregistry⟩ := ih (hw.perform hroom) (hw.roomy hroom)
    refine ⟨hnumbered, hregistry.trans ?_⟩
    rw [hw.registry_perform]
    rfl

/-! ### Resolving -/

theorem all_eq_roster (w : World) : w.all = w.roster.map Prod.fst := by
  rw [all, roster, List.map_map]
  rfl

theorem ofObject_eq_roster (w : World) (object : Int64) :
    w.ofObject object = (w.roster.filter (·.2 == object)).map Prod.fst := by
  rw [ofObject, roster, List.filter_map, List.map_map]
  rfl

theorem resolve_object (hroots : w.anchoring = .roots) {n : Int64} (hn : n.toInt < 100000) :
    w.resolve n = .multi (w.ofObject n) := by
  have hout : ¬ (((100000 : Nat) : Int) ≤ n.toInt ∧ n.toInt < (UInt32.size : Int)) := by omega
  unfold resolve
  rw [hroots]
  exact if_neg hout

theorem resolve_id (hroots : w.anchoring = .roots) {id : InstanceId} (hid : 100000 ≤ id.toNat) :
    w.resolve (.ofInt id.toNat) = if (w.instance? id).isSome then .single id else .noone := by
  have hlt : id.toNat < 2 ^ 32 := id.toNat_lt
  have hn : (Int64.ofInt id.toNat).toInt = id.toNat := Int64.toInt_ofInt_of_le (by omega) (by omega)
  have hback : (id.toNat : Int).toNat.toUInt32 = id := by simp
  have hin : ((100000 : Nat) : Int) ≤ (id.toNat : Int) ∧ (id.toNat : Int) < (UInt32.size : Int) := by
    unfold UInt32.size
    omega
  unfold resolve
  rw [hroots, hn]
  refine (if_pos hin).trans ?_
  dsimp only
  rw [hback]

/-- What holds of the instances of a host, as a world `w` and as a registry `r`, after the births `bs`. -/
structure Accounted (w : World) (r : Registry) (bs : List Birth) : Prop where
  /-- The world has the instances that the registry has, and answers as it does. -/
  registry : w.registry = r
  answers : (∀ m object, (w.create m object).1 = (r.create object).1) ∧ w.all = r.all ∧ ∀ n, w.resolve n = r.resolve n
  issued : (bs.map (·.id)).Nodup
  order : r.order.Nodup
  mem_order : ∀ id, id ∈ r.order ↔ (r.table id).isSome
  all : r.all = (bs.filter fun b => b.Lives).map (·.id)
  object : ∀ n : Int64, 0 ≤ n.toInt → n.toInt < 100000 →
    r.resolve n = .multi ((bs.filter fun b => b.Lives ∧ b.object = n).map (·.id))
  id : ∀ b ∈ bs, r.resolve (.ofInt b.id.toNat) = if b.Removed then .noone else .single b.id
  /-- An act that leaves an instance there leaves it its variables, unless it is to set them. -/
  kept : ∀ act id i i', r.table id = some i → (r.perform act).table id = some i' → i'.object = i.object ∧
    ((∀ fields builtins, act ≠ .assign id fields builtins) → i'.fields = i.fields ∧ i'.builtins = i.builtins)
  /-- Making an instance does nothing to memory, and cleaning up nothing to arrays that are in a variable still. -/
  arrays : ∀ m, (∀ object, (w.create m object).2.2 = m) ∧
    ∀ tracked vs, m.heap.Supports (w.values ++ vs) →
      Heap.Agrees ((m.trackedIf tracked w.cleanup).1.values ++ vs) m.heap (m.trackedIf tracked w.cleanup).2.heap

/-- Whatever instances a host makes, destroys, removes and works on, in whatever order and memories, as long as it
makes fewer than there are ids: no id is given twice, table and order have the same ids, the active instances are
those that have been made and not destroyed, in the order of their creation, and so are those of each object; and an id
that has been given names its instance until the first cleanup after it was destroyed, and nothing from then on. -/
theorem accounted_after (os : List Occasion) (hfew : creations (os.map (·.act)) < 2 ^ 32 - 100000) :
    Accounted (({} : World).after os) (({} : Registry).after (os.map (·.act))) (births {} (os.map (·.act))) := by
  have hroom : ({} : World).Roomy (os.map (·.act)) := by
    have hnext : ({} : World).nextId.toNat = 100000 := by decide
    unfold Roomy
    omega
  have hnew : ({} : World).registry = {} := rfl
  obtain ⟨hw, hregistry⟩ := numbered_after numbered_new hroom
  have hroster := roster_after numbered_new hroom
  rw [hnew] at hregistry hroster
  rw [← hregistry]
  set w' := ({} : World).after os
  set bs := births {} (os.map (·.act))
  have hroster : w'.roster = (bs.filter fun b => b.Lives).map fun b => (b.id, b.object) := hroster
  have hcreate : ∀ m object, (w'.create m object).1 = (w'.registry.create object).1 := fun m object =>
    (registry_create hw.anchoring hw.fresh m object).1
  have hresolve : ∀ n, w'.resolve n = w'.registry.resolve n := fun n =>
    (resolve_registry hw.anchoring hw.distinct n).symm
  refine ⟨rfl, ⟨hcreate, (all_registry hw.distinct).symm, hresolve⟩, nodup_births numbered_new hroom, hw.distinct,
    fun id => ?_, ?_, fun n _ hlt => ?_, fun b hb => ?_, fun act id i i' hi hi' => ?_,
    fun m => ⟨fun object => ?_, fun tracked vs hs => ?_⟩⟩
  · have hmem : (w'.registry.table id).isSome ↔ ∃ i ∈ w'.instances, (i.id == id) = true := List.find?_isSome
    rw [hmem, registry, List.mem_map]
    simp only [beq_iff_eq]
  · rw [all_registry hw.distinct, all_eq_roster, hroster, List.map_map]
    rfl
  · rw [← hresolve, resolve_object hw.anchoring hlt, ofObject_eq_roster, hroster,
      List.filter_map, List.map_map, List.filter_filter]
    congr 2
    refine List.filter_congr fun b _ => ?_
    by_cases hobject : b.object = n <;> simp [hobject]
  · have hid : 100000 ≤ b.id.toNat := le_of_mem_births numbered_new hroom hb
    have hthere := isSome_birth_iff numbered_new hroom hb
    rw [← hresolve, resolve_id hw.anchoring hid]
    by_cases hremoved : b.Removed
    · rw [if_pos hremoved, if_neg fun hsome => hthere.1 hsome hremoved]
    · rw [if_neg hremoved, if_pos (hthere.2 hremoved)]
  · have hstep := congrArg (fun r => r.table id) (hw.registry_perform ⟨act, {}, true⟩)
    exact variables_perform hw ⟨act, {}, true⟩ hi (hstep.trans hi')
  · rw [create_roots hw.anchoring]
  · rw [cleanup_trackedIf]
    exact agrees_cleanup hw.anchoring m tracked hs

def changes : List Occasion :=
  [⟨.create 3, {}, true⟩, ⟨.create 3, {}, true⟩, ⟨.destroy 100000, {}, true⟩, ⟨.destroy 100000, {}, true⟩,
    ⟨.create 4, {}, true⟩, ⟨.cleanup, {}, true⟩]

theorem accounted_after_changes : creations (changes.map (·.act)) < 2 ^ 32 - 100000 ∧
    (({} : World).after changes).all = [100001, 100002] ∧
    (({} : World).after changes).resolve 3 = .multi [100001] ∧
    (({} : World).after changes).resolve 100000 = .noone ∧
    (({} : World).after changes).resolve 100001 = .single 100001 := by
  have hfew : creations (changes.map (·.act)) < 2 ^ 32 - 100000 := by decide
  have h := accounted_after changes hfew
  refine ⟨hfew, ?_, ?_, ?_, ?_⟩
  · rw [h.answers.2.1, h.all]
    decide
  · rw [h.answers.2.2, h.object 3 (by decide) (by decide)]
    decide
  · have hfirst := h.id ⟨100000, 3, (changes.map (·.act)).drop 1⟩ (by decide)
    rw [h.answers.2.2]
    exact hfirst.trans (if_pos (by decide))
  · have hsecond := h.id ⟨100001, 3, (changes.map (·.act)).drop 2⟩ (by decide)
    rw [h.answers.2.2]
    exact hsecond.trans (if_neg (by decide))

end World
end ScriptVm
