import ScriptVm.Proofs.Counting
import ScriptVm.Proofs.Retrieval

/-! Variables one by one. A store puts a value into one of them, or into a cell that a path from it leads to. It is
read back along that path, and every other variable is read as before, since array data that one of them leads to is
split before it is written. -/

namespace ScriptVm

/-- A variable of a program: a place on the operand stack, as locals are, a global, or a variable of an instance. -/
inductive Spot where
  | slot (index : Nat)
  | global (id : VariableId)
  | field (instanceId : InstanceId) (id : VariableId)
deriving DecidableEq

namespace World
variable {w : World}

theorem instance?_modifyInstance {f : Instance → Instance} (hf : ∀ i, (f i).id = i.id) (id other : InstanceId) :
    (w.modifyInstance id f).instance? other = (w.instance? other).map fun i => if other = id then f i else i := by
  unfold instance? modifyInstance
  rw [List.find?_map]
  have hsame : ((fun i : Instance => i.id == other) ∘ fun i => if i.id = id then f i else i) =
      fun i => i.id == other := by
    funext i
    dsimp only [Function.comp]
    split_ifs
    · rw [hf]
    · rfl
  rw [hsame]
  cases hi : w.instances.find? (fun i => i.id == other) with
  | none => rfl
  | some i =>
    obtain rfl : i.id = other := by simpa using List.find?_some hi
    rfl

/-- Owner ids denote the same while ids and objects of the instances stay and nothing is destroyed. -/
theorem roster_modifyInstance {f : Instance → Instance}
    (hf : ∀ i, (f i).id = i.id ∧ (f i).object = i.object ∧ (f i).active = i.active) (id : InstanceId) :
    (w.modifyInstance id f).all = w.all ∧ ∀ n, (w.modifyInstance id f).resolve n = w.resolve n := by
  set g : Instance → Instance := fun i => if i.id = id then f i else i with hg
  have hkept : ∀ i, (g i).id = i.id ∧ (g i).object = i.object ∧ (g i).active = i.active := by
    intro i
    rw [hg]
    dsimp only
    split_ifs
    · exact hf i
    · exact ⟨rfl, rfl, rfl⟩
  have hactive : (w.modifyInstance id f).active = w.active.map g := by
    simp only [active, modifyInstance, List.filter_map, ← hg, Function.comp_def, hkept]
  refine ⟨?_, fun n => ?_⟩
  · simp only [all, hactive, List.map_map, Function.comp_def, hkept]
  · have hobject : (w.modifyInstance id f).ofObject n = w.ofObject n := by
      simp only [ofObject, hactive, List.filter_map, List.map_map, Function.comp_def, hkept]
    have hfound : ∀ other, ((w.modifyInstance id f).instance? other).isSome = (w.instance? other).isSome := by
      intro other
      rw [instance?_modifyInstance fun i => (hf i).1, Option.isSome_map]
    simp only [resolve, hobject, hfound]
    rfl

theorem instance?_mem {id : InstanceId} {i : Instance} (hi : w.instance? id = some i) : i ∈ w.instances ∧ i.id = id :=
  ⟨List.mem_of_find?_eq_some hi, by simpa using List.find?_some hi⟩

end World

namespace Variables

theorem mem_values {t : Variables} {id : VariableId} {v : Value} (hv : t.get? id = some v) : v ∈ t.values := by
  obtain ⟨before, after, hsplit, -⟩ := List.lookup_eq_some_iff.1 hv
  refine List.mem_map.2 ⟨(id, v), ?_, rfl⟩
  rw [hsplit]
  exact List.mem_append_right _ List.mem_cons_self

end Variables

namespace Core
variable {c c' : Core} {spot : Spot} {v : Value}

/-- What a variable holds, if it is there and has been set. -/
def content? (c : Core) : Spot → Option Value
  | .slot index => c.executor.stack[index]?
  | .global id => c.world.globals.get? id
  | .field instanceId id => (c.world.instance? instanceId).bind fun i => i.fields.get? id

def content (c : Core) (spot : Spot) : Value := (c.content? spot).getD .undefined

def read? (c : Core) (spot : Spot) (path : List Cell) : Option (Except Fault Value) :=
  (c.content? spot).map fun v => c.memory.peekNested v path

def put (c : Core) (v : Value) : Spot → Core
  | .slot index => { c with executor := c.executor.setSlot index v }
  | .global id => { c with world := { c.world with globals := c.world.globals.set id v } }
  | .field instanceId id =>
    { c with world := c.world.modifyInstance instanceId fun i => { i with fields := i.fields.set id v } }

/-- The variable can be set. -/
def Has (c : Core) : Spot → Prop
  | .slot index => index < c.executor.stack.size
  | .global _ => True
  | .field instanceId _ => (c.world.instance? instanceId).isSome

theorem content?_put_same (hspot : c.Has spot) (v : Value) : (c.put v spot).content? spot = some v := by
  cases spot with
  | slot index =>
    have hlt : index < c.executor.stack.size := hspot
    simp [put, content?, Executor.setSlot, hlt]
  | global id => simp [put, content?]
  | field instanceId id =>
    obtain ⟨i, hi⟩ := Option.isSome_iff_exists.1 hspot
    simp [put, content?, World.instance?_modifyInstance, hi]

theorem content?_put_other {other : Spot} (hother : other ≠ spot) (v : Value) :
    (c.put v spot).content? other = c.content? other := by
  cases spot with
  | slot index =>
    cases other with
    | slot index' =>
      have hne : index ≠ index' := fun h => hother (by rw [h])
      simp [put, content?, Executor.setSlot, Array.getElem?_setIfInBounds_ne hne]
    | _ => rfl
  | global id =>
    cases other with
    | global id' =>
      have hne : id' ≠ id := fun h => hother (by rw [h])
      simp [put, content?, hne]
    | _ => rfl
  | field instanceId id =>
    cases other with
    | field instanceId' id' =>
      simp only [put, content?, World.instance?_modifyInstance, implies_true]
      cases c.world.instance? instanceId' with
      | none => rfl
      | some i =>
        simp only [Option.map_some, Option.bind_some]
        split_ifs with h
        · have hne : id' ≠ id := fun h' => hother (by rw [h, h'])
          simp [hne]
        · rfl
    | _ => rfl

theorem content_mem (hv : c.content? spot = some v) : v ∈ c.values := by
  cases spot with
  | slot index =>
    exact List.mem_append_left _ (List.mem_append_left _ (Array.mem_toList_iff.2 (Array.mem_of_getElem? hv)))
  | global id =>
    exact List.mem_append_left _ (List.mem_append_right _ (List.mem_append_left _ (Variables.mem_values hv)))
  | field instanceId id =>
    obtain ⟨i, hi, hv⟩ := Option.bind_eq_some_iff.1 hv
    have hfield : v ∈ c.world.instances.flatMap (·.fields.values) :=
      List.mem_flatMap.2 ⟨i, (World.instance?_mem hi).1, Variables.mem_values hv⟩
    exact List.mem_append_left _ (List.mem_append_right _ (List.mem_append_right _ hfield))

theorem place_put (hdistinct : (c.world.instances.map (·.id)).Nodup) (hspot : c.Has spot) :
    World.Place c.values (c.content spot) fun v => (c.put v spot).values := by
  cases spot with
  | slot index =>
    have hlt : index < c.executor.stack.toList.length := hspot
    have hcontent : c.content (.slot index) = c.executor.stack.toList[index] := by
      simp [content, content?, Array.getElem?_eq_getElem (show index < c.executor.stack.size from hspot)]
    have hplace : World.Place c.executor.stack.toList c.executor.stack.toList[index]
        fun v => (c.executor.stack.setIfInBounds index v).toList := by
      refine ⟨c.executor.stack.toList.eraseIdx index, fun v => ?_, Or.inl ?_⟩
      · dsimp only
        rw [Array.toList_setIfInBounds]
        exact (List.set_perm_cons_eraseIdx hlt v).symm
      · exact (List.getElem_cons_eraseIdx_perm hlt).symm
    rw [hcontent]
    have hwithin := (hplace.within [] c.world.slots).within [] c.world.builtinValues
    exact hwithin
  | global id =>
    exact (c.world.place_global id).within c.executor.stack.toList c.world.builtinValues
  | field instanceId id =>
    obtain ⟨i, hi⟩ := Option.isSome_iff_exists.1 hspot
    obtain ⟨hmem, rfl⟩ := World.instance?_mem hi
    have hcontent : c.content (.field i.id id) = i.fields.get id := by
      simp [content, content?, hi, Variables.get]
    have hplace := (World.place_field hdistinct hmem id).within c.executor.stack.toList c.world.builtinValues
    rw [hcontent]
    have hbuiltins : ∀ v, (c.put v (.field i.id id)).world.builtinValues = c.world.builtinValues := fun v => by
      rw [World.builtinValues_eq, World.builtinValues_eq]
      exact congrArg _ (Eraser.shelf.rest_fields c.world i.id fun i => i.fields.set id v)
    simp only [values, hbuiltins]
    exact hplace

theorem owner_put (c : Core) (v : Value) (spot : Spot) (id : Int64) : (c.put v spot).owner id = c.owner id := by
  cases spot with
  | slot index => rfl
  | global var => rfl
  | field instanceId var =>
    obtain ⟨hall, hresolve⟩ := c.world.roster_modifyInstance
      (f := fun i => { i with fields := i.fields.set var v }) (fun _ => ⟨rfl, rfl, rfl⟩) instanceId
    simp only [owner, put, hall, hresolve]

theorem memory_put (c : Core) (v : Value) (spot : Spot) : (c.put v spot).memory = c.memory := by cases spot <;> rfl

/-! ### Stores -/

/-- From `c` to `c'` a value has been stored in each of the variables, at the end of the path, and in no other. -/
structure Stored (c : Core) (spots : List Spot) (path : List Cell) (v : Value) (c' : Core) : Prop where
  read : ∀ spot ∈ spots, ∃ w, c'.read? spot path = some (.ok w) ∧ w.share = v.share
  spares : ∀ spot ∉ spots, ∀ other, c'.read? spot other = c.read? spot other
  owner : ∀ id, c'.owner id = c.owner id
  executor : c'.executor = { c.executor with stack := c'.executor.stack }
  size : c'.executor.stack.size = c.executor.stack.size

theorem stored_of_agrees {us : List Value} {m : Memory} (path : List Cell) (v : Value)
    (hs : c.memory.heap.Supports (c.values ++ us)) (ha : Heap.Agrees c.values c.memory.heap m.heap) :
    c.Stored [] path v { c with memory := m } := by
  refine ⟨nofun, fun spot _ other => ?_, fun _ => rfl, rfl, rfl⟩
  change (c.content? spot).map (m.peekNested · other) = (c.content? spot).map (c.memory.peekNested · other)
  cases hcontent : c.content? spot with
  | none => rfl
  | some u =>
    have hu := content_mem hcontent
    refine congrArg some (Memory.peekNested_congr hs (hs.holds.one (List.mem_append_left _ hu)) (ha.mono ?_) other)
    intro x hx
    rwa [List.mem_singleton.1 hx]

namespace Stored
variable {spots spots' : List Spot} {path : List Cell} {v v' : Value} {c₁ c₂ : Core}

theorem refl (c : Core) (path : List Cell) (v : Value) : c.Stored [] path v c :=
  ⟨nofun, fun _ _ _ => rfl, fun _ => rfl, rfl, rfl⟩

theorem trans (h : c.Stored spots path v c₁) (h' : c₁.Stored spots' path v' c₂) (hshare : v'.share = v.share) :
    c.Stored (spots ++ spots') path v c₂ := by
  refine ⟨fun spot hspot => ?_, fun spot hspot other => ?_, fun id => (h'.owner id).trans (h.owner id), ?_,
    h'.size.trans h.size⟩
  · by_cases hlast : spot ∈ spots'
    · obtain ⟨w, hread, hw⟩ := h'.read spot hlast
      exact ⟨w, hread, hw.trans hshare⟩
    · rw [h'.spares spot hlast]
      exact h.read spot ((List.mem_append.1 hspot).resolve_right hlast)
  · obtain ⟨hfirst, hlast⟩ := not_or.1 (mt List.mem_append.2 hspot)
    exact (h'.spares spot hlast other).trans (h.spares spot hfirst other)
  · rw [h'.executor, h.executor]

end Stored

/-- What is stored in a variable is read back there, and other variables are read as before. -/
theorem Counted.store {held : List Value} {path : List Cell} {new : Value} {r : Value × Memory}
    (hc : c.Counted (new :: held)) (hspot : c.Has spot)
    (hr : ∀ vs, c.memory.heap.Supports (c.content spot :: new :: vs) →
      c.memory.Stores (c.content spot) new path vs r) :
    (({ c with memory := r.2 } : Core).put r.1 spot).Counted held ∧
      c.Stored [spot] path new (({ c with memory := r.2 } : Core).put r.1 spot) := by
  obtain ⟨rest, hnew, hold⟩ := place_put hc.distinct hspot
  have hcount : ∀ a, handlesOn a (c.content spot :: rest) = handlesOn a c.values := by
    intro a
    rcases hold with hold | ⟨hnone, hold⟩
    · exact (handlesOn_perm hold a).symm
    · rw [handlesOn_perm hold, hnone]
      simp [Value.target?]
  -- what an unset variable holds is taken along, so that every content of another variable is among the rest
  have hs : c.memory.heap.Supports (c.content spot :: new :: .undefined :: (rest ++ held)) := by
    refine hc.supports.of_le fun a => ?_
    have := hcount a
    simp [Value.target?] at this ⊢
    omega
  obtain ⟨hsupports, hagrees, w, hw, hshare⟩ := hr _ hs
  have hvalues : (({ c with memory := r.2 } : Core).put r.1 spot).values = (c.put r.1 spot).values := by
    cases spot <;> rfl
  refine ⟨⟨?_, ?_, ?_⟩, ⟨?_, ?_, ?_, ?_, ?_⟩⟩
  · rw [memory_put, hvalues]
    refine hsupports.of_le fun a => ?_
    have := handlesOn_perm (hnew r.1) a
    simp [Value.target?] at this ⊢
    omega
  · cases spot <;> exact hc.anchoring
  · cases spot with
    | field instanceId id =>
      have hids := c.world.ids_modifyInstance instanceId
        (f := fun i => { i with fields := i.fields.set id r.1 }) fun _ => rfl
      exact hids ▸ hc.distinct
    | _ => exact hc.distinct
  · intro other hother
    obtain rfl := List.mem_singleton.1 hother
    refine ⟨w, ?_, hshare⟩
    have hthere : ({ c with memory := r.2 } : Core).Has other := by cases other <;> exact hspot
    have hcontent := content?_put_same hthere r.1
    rw [read?, hcontent, memory_put, Option.map_some, hw]
  · intro other hother path'
    have hne : other ≠ spot := fun h => hother (List.mem_singleton.2 h)
    have hcontent : (({ c with memory := r.2 } : Core).put r.1 spot).content? other = c.content? other :=
      (content?_put_other hne r.1).trans (by cases other <;> rfl)
    rw [read?, hcontent, memory_put, read?]
    cases hu : c.content? other with
    | none => rfl
    | some u =>
      have hmem : u ∈ .undefined :: (rest ++ held) := by
        have hkept : u ∈ (c.put .undefined spot).values := content_mem ((content?_put_other hne _).trans hu)
        rw [← List.cons_append]
        exact List.mem_append_left _ ((hnew .undefined).symm.subset hkept)
      refine congrArg some (Memory.peekNested_congr hs (hs.holds.one ?_) (hagrees.mono fun x hx => ?_) path')
      · exact List.mem_cons_of_mem _ (List.mem_cons_of_mem _ hmem)
      · rwa [List.mem_singleton.1 hx]
  · exact owner_put { c with memory := r.2 } r.1 spot
  · cases spot <;> rfl
  · cases spot with
    | slot index => exact Array.size_setIfInBounds
    | _ => rfl

end Core
end ScriptVm
