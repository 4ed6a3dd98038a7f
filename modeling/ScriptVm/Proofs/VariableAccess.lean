import ScriptVm.Proofs.Execution

/-! Variables as instructions reach them. A store puts a value in a slot and anchors it there; to
several instances it shares the value out. A load offers what a slot holds. Built-in variables are no
slots: an array in one of them is beyond the collector's knowledge. -/

namespace ScriptVm

/-- An array has got into a built-in variable. -/
def Core.Tainted (c : Core) : Prop :=
  c.world.anchoring = .roots ∧ ∃ v ∈ c.world.builtinValues, v.isArray = true

namespace Exec
variable {strict : Prop}

/-! ### Stores -/

theorem moves_updateGlobal (ins : List Value) {id : VariableId} {f : Memory → Value → Value × Memory}
    (hf : ∀ strict (m : Memory) old free slots kept, m.Custody strict (ins ++ free) (old :: slots) kept →
      (f m old).2.Custody strict free ((f m old).1 :: slots) kept) :
    Moves ins (updateGlobal id f) fun _ => [] := by
  intro strict hand kept c hc
  obtain ⟨rest, hplace, hclose⟩ := (c.world.place_global id).open
    (hc.custody.perm_free (List.perm_append_comm_assoc _ _ _))
  refine ⟨hclose (hf _ _ _ _ _ _ hplace), ?_⟩
  obtain ⟨hanchoring, hnode, hdistinct, hbuiltins⟩ := hc.world
  exact ⟨hanchoring, hnode, hdistinct, hbuiltins⟩

theorem triple_updateVariable (ins : List Value) {hand kept : List Value} {i : Instance} {id : VariableId}
    {f : Memory → Value → Value × Memory}
    (hf : ∀ (m : Memory) old free slots, m.Custody strict (ins ++ free) (old :: slots) kept →
      (f m old).2.Custody strict free ((f m old).1 :: slots) kept) :
    Triple (fun c => c.Sound strict (ins ++ hand) kept ∧ i ∈ c.world.instances) (updateVariable i id f)
      (fun _ c => c.Sound strict hand kept) (·.Sound strict hand kept) := by
  rintro c ⟨hc, hi⟩
  obtain ⟨rest, hplace, hclose⟩ :=
    (World.place_field hc.world.distinct hi id).open (hc.custody.perm_free (List.perm_append_comm_assoc _ _ _))
  refine ⟨hclose (hf _ _ _ _ hplace), ?_⟩
  refine hc.world.modifyInstance i.id (fun _ => ⟨rfl, rfl⟩) fun j hj v hv => ?_
  exact hc.world.builtins v (List.mem_flatMap.2 ⟨j, hj, hv⟩)

theorem triple_storeTarget (id : InstanceId) (P : Core → Prop) :
    Triple P (storeTarget id) (fun i c => P c ∧ i ∈ c.world.instances) P := by
  intro c hc
  unfold storeTarget
  rw [run_get]
  dsimp only
  cases hi : c.world.instance? id with
  | none => exact hc
  | some i => exact ⟨hc, World.Plain.instance_mem hi⟩

theorem triple_loadTarget (id : InstanceId) (P : Core → Prop) :
    Triple P (loadTarget id) (fun i c => P c ∧ i ∈ c.world.instances) P := by
  intro c hc
  unfold loadTarget
  rw [run_get]
  dsimp only
  cases hi : c.world.instance? id with
  | none => exact hc
  | some i => exact ⟨hc, World.Plain.instance_mem hi⟩

theorem moves_storeEach {ids : List InstanceId} {v : Value} {f : Instance → Value → Exec Unit}
    (hf : ∀ i v' strict hand kept, Triple (fun c => c.Sound strict (v' :: hand) kept ∧ i ∈ c.world.instances) (f i v')
      (fun _ c => c.Sound strict hand kept) (·.Sound strict hand kept)) :
    Moves [v] (storeEach ids v f) fun _ => [] := by
  intro strict hand kept
  refine Triple.thenDrop (Triple.forM fun id _ => ?_) fun c hc => hc.release [v]
  refine (triple_storeTarget id _).bind fun i => ?_
  have hshare : Triple (fun c => c.Sound strict ([v] ++ hand) kept ∧ i ∈ c.world.instances) (share v)
      (fun v' c => c.Sound strict (v' :: ([v] ++ hand)) kept ∧ i ∈ c.world.instances)
      (·.Sound strict ([v] ++ hand) kept) := by
    rintro c ⟨hc, hi⟩
    have hoffers : c.OffersIf strict v := hc.offers (Or.inl (by simp))
    exact ⟨uses_share v _ _ _ c ⟨hc, hoffers⟩, hi⟩
  exact hshare.bind fun v' => hf i v' _ _ _

theorem moves_storeVariable (owner : Owner) (id : VariableId) (v : Value) :
    Moves [v] (storeVariable owner id v) fun _ => [] := by
  have hstore : ∀ (i : Instance) (v' : Value) strict hand kept,
      Triple (fun c => c.Sound strict (v' :: hand) kept ∧ i ∈ c.world.instances)
        (updateVariable i id fun m old => m.replaceSlot old i.node v') (fun _ c => c.Sound strict hand kept)
        (·.Sound strict hand kept) := by
    rintro i v' strict hand kept c ⟨hc, hi⟩
    rw [hc.world.node i hi]
    exact triple_updateVariable [v'] (fun m old free slots hcustody => hcustody.replaceSlot) c ⟨hc, hi⟩
  cases owner with
  | noone => exact moves_drop [v]
  | global => exact moves_updateGlobal [v] fun _ m old free slots kept hcustody => hcustody.replaceSlot
  | single i => exact moves_storeEach hstore
  | multi is => exact moves_storeEach hstore

theorem moves_storeVariableCell (owner : Owner) (id : VariableId) {path : List Cell} (hpath : path ≠ [])
    (v : Value) : Moves [v] (storeVariableCell owner id path v) fun _ => [] := by
  have hstore : ∀ (copy : Bool) (i : Instance) (v' : Value) strict hand kept,
      Triple (fun c => c.Sound strict (v' :: hand) kept ∧ i ∈ c.world.instances)
        (updateVariable i id fun m old => m.storeInSlot old i.node path v' copy) (fun _ c => c.Sound strict hand kept)
        (·.Sound strict hand kept) := by
    rintro copy i v' strict hand kept c ⟨hc, hi⟩
    rw [hc.world.node i hi]
    exact triple_updateVariable [v']
      (fun m old free slots hcustody => hcustody.storeInSlot hpath copy) c ⟨hc, hi⟩
  refine (moves_get [v]).bind fun c => ?_
  cases owner with
  | noone => exact moves_drop [v]
  | global =>
    exact moves_updateGlobal [v] fun _ m old free slots kept hcustody => hcustody.storeInSlot hpath _
  | single i => exact moves_storeEach (hstore _)
  | multi is => exact moves_storeEach (hstore _)

/-! ### Loads -/

theorem offers_slot {c : Core} {hand kept : List Value} (hc : c.Sound strict hand kept) (es : List (VariableId × Value))
    (hes : ∀ v ∈ es.map Prod.snd, v ∈ c.world.slots) (id : VariableId) : c.OffersIf strict (Entries.look es id) := by
  rcases Entries.look_mem es id with hmem | hnone
  · exact hc.offers (Or.inr (hes _ hmem))
  · rw [hnone]
    exact offers_null c rfl

theorem triple_readVariable (i : Instance) (id : VariableId) (hand kept : List Value) :
    Triple (fun c => c.Sound strict hand kept ∧ i ∈ c.world.instances) (readVariable i id)
      (fun v c => c.Sound strict hand kept ∧ c.OffersIf strict v) (·.Sound strict hand kept) := by
  rintro c ⟨hc, hi⟩
  unfold readVariable
  cases hv : i.fields.get? id with
  | none => exact hc
  | some v =>
    have hlook : Entries.look i.fields.entries id = v := by
      rw [Entries.look, show i.fields.entries.lookup id = some v from hv, Option.getD_some]
    have hoffers := offers_slot hc i.fields.entries (fun w hw => ?_) id
    · rw [hlook] at hoffers
      exact ⟨hc, hoffers⟩
    · exact List.mem_append_right _ (List.mem_flatMap.2 ⟨i, hi, hw⟩)

theorem lends_loadVariable (owner : Owner) (id : VariableId) : Lends (loadVariable owner id) := by
  intro strict hand kept
  cases owner with
  | noone => exact fun c hc => hc
  | global =>
    have htouch : Safe (updateGlobal id fun m v => (v, m)) :=
      moves_updateGlobal [] fun _ m old free slots kept hcustody => hcustody
    refine (htouch strict hand kept).bind fun _ c hc => ?_
    rw [run_get]
    exact ⟨hc, offers_slot hc _ (fun w hw => List.mem_append_left _ hw) id⟩
  | single i => exact (triple_loadTarget i _).bind fun i => triple_readVariable i id hand kept
  | multi is =>
    cases is with
    | nil => exact fun c hc => hc
    | cons i is => exact (triple_loadTarget i _).bind fun i => triple_readVariable i id hand kept

/-- A built-in variable holds no array. -/
theorem triple_readBuiltin (i : Instance) (id : VariableId) (cell? : Option Cell) (hand kept : List Value) :
    Triple (fun c => c.Sound strict hand kept ∧ i ∈ c.world.instances)
      (do
        let c ← get
        match cell? with
        | some cell => ofExcept (c.world.builtinCell c.memory i id cell)
        | none => ofExcept (c.world.builtin i id) : Exec Value)
      (fun v c => c.Sound strict hand kept ∧ c.OffersIf strict v) (·.Sound strict hand kept) := by
  rintro c ⟨hc, hi⟩
  rw [run_get]
  cases cell? with
  | some cell =>
    dsimp only
    rw [World.builtinCell, hc.world.anchoring]
    exact hc
  | none =>
    dsimp only
    unfold World.builtin
    cases hv : i.builtins.get? id with
    | none =>
      rw [hc.world.anchoring]
      exact hc
    | some v =>
      refine ⟨hc, offers_null c (Value.target?_of_not_array ?_)⟩
      have hget := hc.world.builtin_get hi id
      rwa [Variables.get, hv] at hget

theorem lends_loadBuiltin (owner : Owner) (id : VariableId) (cell? : Option Cell) :
    Lends (loadBuiltin owner id cell?) := by
  intro strict hand kept
  have hload := fun i => @triple_readBuiltin strict i id cell? hand kept
  cases owner with
  | noone => exact fun c hc => hc
  | global => exact fun c hc => hc
  | single i => exact (triple_loadTarget i _).bind hload
  | multi is =>
    cases is with
    | nil => exact fun c hc => hc
    | cons i is => exact (triple_loadTarget i _).bind hload

/-! ### Stores into built-in variables -/

/-- Sound, unless an array has got into a built-in variable. -/
def Checked (strict : Prop) (hand kept : List Value) (c : Core) : Prop := c.Sound strict hand kept ∨ c.Tainted

theorem tainted_set {w : World} {i : Instance} (hi : i ∈ w.instances) (id : VariableId) {v : Value}
    (hv : v.isArray = true) :
    ∃ u ∈ (w.modifyInstance i.id fun j => { j with builtins := j.builtins.set id v }).builtinValues,
      u.isArray = true := by
  refine ⟨v, List.mem_flatMap.2 ⟨_, List.mem_map_of_mem hi, ?_⟩, hv⟩
  rw [if_pos rfl]
  have hp := Entries.perm_put i.builtins.entries id v
  rw [← Entries.put_variables] at hp
  exact hp.symm.subset List.mem_cons_self

theorem triple_onWorld {P R : Core → Prop} {f : World → Memory → Except Fault Unit × World × Memory}
    (hf : ∀ c, P c → R { c with world := (f c.world c.memory).2.1, memory := (f c.world c.memory).2.2 }) :
    Triple P (onWorld f) (fun _ => R) R := by
  unfold onWorld
  refine Triple.bind (R := fun _ => R) (fun c hc => hf c hc) fun r => ?_
  cases r with
  | ok u => exact fun c hc => hc
  | error e => exact fun c hc => hc

/-- The value is in hand, or it is an array and has got into a built-in variable before. -/
def Storing (strict : Prop) (v : Value) (hand kept : List Value) (c : Core) : Prop :=
  c.Sound strict hand kept ∨ v.isArray = true ∧ c.Tainted

theorem triple_storeBuiltinAt (i : Instance) (id : VariableId) (cell? : Option Cell) (v : Value)
    (hand kept : List Value) :
    Triple (fun c => Storing strict v (v :: hand) kept c ∧ i ∈ c.world.instances)
      (onWorld fun w m =>
        match cell? with
        | some cell => w.storeBuiltinCell m i id cell v
        | none => w.setBuiltin m i id v)
      (fun _ => Storing strict v hand kept) (Storing strict v hand kept) := by
  refine triple_onWorld ?_
  rintro c ⟨hc, hi⟩
  have hroots : c.world.anchoring = .roots := hc.elim (·.world.anchoring) (·.2.1)
  -- a store that is refused drops the value
  have hrefused : Storing strict v hand kept { c with memory := c.memory.release [v] } :=
    hc.imp (fun hsound => hsound.release [v]) fun ⟨hv, htaint⟩ => ⟨hv, htaint⟩
  cases cell? with
  | some cell =>
    simp only [World.storeBuiltinCell, hroots]
    exact hrefused
  | none =>
    simp only [World.setBuiltin]
    split_ifs
    · by_cases hv : v.isArray = true
      · exact Or.inr ⟨hv, hroots, tainted_set hi id hv⟩
      · rw [Bool.not_eq_true] at hv
        rcases hc with hc | ⟨harray, -⟩
        · left
          have hold : (i.builtins.get id).target? = none :=
            Value.target?_of_not_array (hc.world.builtin_get hi id)
          have hnew : v.target? = none := Value.target?_of_not_array hv
          have hsame : c.memory.release [i.builtins.get id] = c.memory := by
            rw [Memory.release, Heap.release_nulls (by simp [hold])]
          refine ⟨?_, hc.world.setBuiltins i.id id hv⟩
          dsimp only
          rw [hsame, World.slots_setBuiltins]
          exact (hc.custody.perm_free List.perm_middle).forget hnew
        · rw [hv] at harray
          cases harray
    · exact hrefused

theorem triple_shareStoring (i : Instance) (v : Value) (hand kept : List Value) :
    Triple (fun c => Storing strict v (v :: hand) kept c ∧ i ∈ c.world.instances) (share v)
      (fun v' c => v' = v.share ∧ Storing strict v' (v' :: v :: hand) kept c ∧ i ∈ c.world.instances)
      (Storing strict v (v :: hand) kept) := by
  rintro c ⟨hc, hi⟩
  have hsame : v.share.isArray = v.isArray := by cases v <;> rfl
  refine ⟨rfl, hc.imp (fun hsound => ?_) fun ⟨hv, htaint⟩ => ⟨hsame.trans hv, htaint⟩, hi⟩
  exact uses_share v _ _ _ c ⟨hsound, hsound.offers (Or.inl (by simp))⟩

theorem triple_storeBuiltin (owner : Owner) (id : VariableId) (cell? : Option Cell) (v : Value)
    (hand kept : List Value) :
    Triple (·.Sound strict (v :: hand) kept) (storeBuiltin owner id cell? v) (fun _ => Checked strict hand kept)
      (Checked strict hand kept) := by
  have heach : ∀ ids : List InstanceId, Triple (·.Sound strict (v :: hand) kept)
      (storeEach ids v fun i v => onWorld fun w m =>
        match cell? with
        | some cell => w.storeBuiltinCell m i id cell v
        | none => w.setBuiltin m i id v)
      (fun _ => Checked strict hand kept) (Checked strict hand kept) := by
    intro ids
    have hall : Triple (Storing strict v (v :: hand) kept)
        (ids.forM fun instanceId => do
          let i ← storeTarget instanceId
          let v' ← share v
          onWorld fun w m =>
            match cell? with
            | some cell => w.storeBuiltinCell m i id cell v'
            | none => w.setBuiltin m i id v')
        (fun _ => Storing strict v (v :: hand) kept) (Storing strict v (v :: hand) kept) := by
      refine Triple.forM fun instanceId _ => (triple_storeTarget instanceId _).bind fun i => ?_
      refine (triple_shareStoring i v hand kept).bind fun v' c hc => ?_
      obtain ⟨rfl, hc⟩ := hc
      have hstored := triple_storeBuiltinAt i id cell? v.share (v :: hand) kept c hc
      have hsame : v.share.isArray = v.isArray := by cases v <;> rfl
      simpa only [Storing, hsame] using hstored
    refine fun c hc => hall.thenDrop (fun c hc => ?_) c (Or.inl hc)
    exact hc.imp (fun hsound => hsound.release [v]) fun ⟨_, htaint⟩ => htaint
  cases owner with
  | noone => exact fun c hc => Or.inl (moves_drop [v] strict hand kept c hc)
  | global => exact fun c hc => Or.inl (hc.release [v])
  | single i => exact heach [i]
  | multi is => exact heach is

end Exec
end ScriptVm
