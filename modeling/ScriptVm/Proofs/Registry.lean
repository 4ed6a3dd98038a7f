import ScriptVm.Proofs.Spots

/-! The instances of a host as a registry: a table from ids to instances and, apart from it, the ids in the order of
their creation, from which cleaning up drops those whose instances it takes out of the table. Seen as a registry, a
world that gives each instance an id of its own does what the registry does. -/

namespace ScriptVm

structure Registry where
  table : InstanceId → Option Instance := fun _ => none
  order : List InstanceId := []
  nextId : UInt32 := 100000

namespace Registry

def create (r : Registry) (object : Int64) : InstanceId × Registry :=
  (r.nextId, { table := Function.update r.table r.nextId (some { id := r.nextId, object })
               order := r.order ++ [r.nextId]
               nextId := r.nextId + 1 })

def modify (r : Registry) (id : InstanceId) (f : Instance → Instance) : Registry :=
  { r with table := Function.update r.table id ((r.table id).map f) }

def destroy (r : Registry) (id : InstanceId) : Registry := r.modify id fun i => { i with active := false }

/-- Goes through ids and keeps those of active instances. What the others name is taken out of the table. -/
def retain : List InstanceId → (InstanceId → Option Instance) → List InstanceId × (InstanceId → Option Instance)
  | [], table => ([], table)
  | id :: ids, table =>
    if (table id).any (·.active) then
      let (order, table) := retain ids table
      (id :: order, table)
    else retain ids (Function.update table id none)

def cleanup (r : Registry) : Registry :=
  let (order, table) := retain r.order r.table
  { r with order, table }

def active (r : Registry) : List Instance := (r.order.filterMap r.table).filter (·.active)

def all (r : Registry) : List InstanceId := r.active.map (·.id)

/-- An instance, if the number is in the range of their ids, and the instances of an object otherwise. -/
def resolve (r : Registry) (id : Int64) : Owner :=
  let n := id.toInt
  if 100000 ≤ n ∧ n < UInt32.size then
    let id := n.toNat.toUInt32
    if (r.table id).isSome then .single id else .noone
  else .multi ((r.active.filter (·.object == id)).map (·.id))

theorem retain_eq (ids : List InstanceId) (table : InstanceId → Option Instance) :
    retain ids table = (ids.filter fun id => (table id).any (·.active),
      fun id => if id ∈ ids then (table id).filter (·.active) else table id) := by
  induction ids generalizing table with
  | nil => simp [retain]
  | cons id ids ih =>
    rw [retain]
    split_ifs with hkeep
    · have hsame : (table id).filter (·.active) = table id := by
        cases hi : table id with
        | none => rfl
        | some i => simpa [hi] using hkeep
      rw [ih]
      refine Prod.ext (by simp [hkeep]) (funext fun other => ?_)
      by_cases hother : other = id
      · simp [hother, hsame]
      · simp [hother]
    · have hgone : (table id).filter (·.active) = none := by
        cases hi : table id with
        | none => rfl
        | some i => simpa [hi] using hkeep
      rw [ih]
      refine Prod.ext ?_ (funext fun other => ?_)
      · simp only [List.filter_cons, hkeep]
        refine List.filter_congr fun other _ => ?_
        by_cases hother : other = id
        · subst hother
          simp [hkeep]
        · simp [hother]
      · by_cases hother : other = id
        · subst hother
          simp [hgone]
        · simp [hother]

end Registry

namespace World
variable {w : World}

def registry (w : World) : Registry := ⟨w.instance?, w.instances.map (·.id), w.nextId⟩

theorem instance?_eq_some_iff (hw : (w.instances.map (·.id)).Nodup) {id : InstanceId} {i : Instance} :
    w.instance? id = some i ↔ i ∈ w.instances ∧ i.id = id := by
  refine ⟨instance?_mem, ?_⟩
  rintro ⟨hi, rfl⟩
  cases hfound : w.instance? i.id with
  | none => simpa using List.find?_eq_none.1 hfound i hi
  | some j =>
    obtain ⟨hj, hid⟩ := instance?_mem hfound
    rw [List.inj_on_of_nodup_map hw hj hi hid]

theorem registry_modifyInstance (id : InstanceId) {f : Instance → Instance} (hf : ∀ i, (f i).id = i.id) :
    (w.modifyInstance id f).registry = w.registry.modify id f := by
  have htable : (w.modifyInstance id f).instance? = Function.update w.instance? id ((w.instance? id).map f) := by
    funext other
    rw [instance?_modifyInstance hf]
    by_cases hother : other = id
    · subst hother
      simp
    · simp [hother]
  rw [registry, htable, ids_modifyInstance w id hf]
  rfl

theorem registry_destroy (w : World) (id : InstanceId) : (w.destroy id).registry = w.registry.destroy id :=
  registry_modifyInstance id fun _ => rfl

theorem create_roots (hroots : w.anchoring = .roots) (m : Memory) (object : Int64) : w.create m object =
    (w.nextId, { w with instances := w.instances ++ [{ id := w.nextId, object }], nextId := w.nextId + 1 }, m) := by
  unfold create
  rw [hroots]

theorem registry_create (hroots : w.anchoring = .roots) (hfresh : w.instance? w.nextId = none) (m : Memory)
    (object : Int64) : (w.create m object).1 = (w.registry.create object).1 ∧
      (w.create m object).2.1.registry = (w.registry.create object).2 := by
  rw [create_roots hroots]
  refine ⟨rfl, ?_⟩
  set i : Instance := { id := w.nextId, object }
  have htable : ({ w with instances := w.instances ++ [i], nextId := w.nextId + 1 } : World).instance? =
      Function.update w.instance? w.nextId (some i) := by
    funext other
    rw [instance?, List.find?_append]
    by_cases hother : other = w.nextId
    · subst hother
      rw [instance?] at hfresh
      simp [hfresh, i]
    · simp [hother, instance?, Ne.symm hother, i]
  rw [registry, htable, List.map_append]
  rfl

theorem instance?_cleanup (hw : (w.instances.map (·.id)).Nodup) (m : Memory) (id : InstanceId) :
    (w.cleanup m).1.instance? id = (w.instance? id).filter (·.active) := by
  have hcleaned : ((w.cleanup m).1.instances.map (·.id)).Nodup := (List.filter_sublist.map _).nodup hw
  have hmem : ∀ i, i ∈ (w.cleanup m).1.instances ↔ i ∈ w.instances ∧ i.active = true := fun i => List.mem_filter
  ext i
  rw [instance?_eq_some_iff hcleaned, hmem, Option.filter_eq_some_iff, instance?_eq_some_iff hw]
  tauto

theorem registry_cleanup (hw : (w.instances.map (·.id)).Nodup) (m : Memory) :
    (w.cleanup m).1.registry = w.registry.cleanup := by
  have horder : (w.cleanup m).1.instances.map (·.id) =
      (w.instances.map (·.id)).filter fun id => (w.instance? id).any (·.active) := by
    rw [List.filter_map]
    refine congrArg _ (List.filter_congr fun i hi => ?_)
    rw [Function.comp_apply, (instance?_eq_some_iff hw).2 ⟨hi, rfl⟩, Option.any_some]
  have htable : (w.cleanup m).1.instance? =
      fun id => if id ∈ w.instances.map (·.id) then (w.instance? id).filter (·.active) else w.instance? id := by
    funext id
    rw [instance?_cleanup hw]
    split_ifs with hid
    · rfl
    · cases hi : w.instance? id with
      | none => rfl
      | some i =>
        obtain ⟨hmem, rfl⟩ := instance?_mem hi
        exact absurd (List.mem_map_of_mem hmem) hid
  rw [Registry.cleanup, Registry.retain_eq, registry, horder, htable]
  rfl

theorem active_registry (hw : (w.instances.map (·.id)).Nodup) : w.registry.active = w.active := by
  have hinstances : w.registry.order.filterMap w.registry.table = w.instances := by
    rw [registry, List.filterMap_map]
    refine (List.filterMap_congr fun i hi => ?_).trans List.filterMap_some
    exact (instance?_eq_some_iff hw).2 ⟨hi, rfl⟩
  rw [Registry.active, hinstances, active]

theorem all_registry (hw : (w.instances.map (·.id)).Nodup) : w.registry.all = w.all := by
  rw [Registry.all, active_registry hw, all]

theorem resolve_registry (hroots : w.anchoring = .roots) (hw : (w.instances.map (·.id)).Nodup) (id : Int64) :
    w.registry.resolve id = w.resolve id := by
  unfold resolve
  rw [hroots]
  simp only [Registry.resolve, active_registry hw]
  rfl

end World
end ScriptVm
