import ScriptVm.Proofs.Forms
import ScriptVm.Proofs.Iterations
import ScriptVm.Proofs.Spots

/-! What instructions store to and load from. A target is a local of the running call or a variable of an owner,
which may be one instance, several, or nobody. -/

namespace ScriptVm

def Owner.spots (id : VariableId) : Owner → List Spot
  | .noone => []
  | .single instanceId => [.field instanceId id]
  | .multi ids => ids.map (.field · id)
  | .global => [.global id]

def Target.spots (base : Nat) : Target → List Spot
  | .slot index => [.slot (base + index.toNat)]
  | .owned owner id => owner.spots id

namespace Exec
variable {c : Core} {held : List Value} {path : List Cell} {v : Value} {id : VariableId}

/-! ### Stores -/

theorem counted_dropped {done : List Spot} {d : Core} (hd : d.Counted (v :: held)) (hstored : c.Stored done path v d) :
    ({ d with memory := d.memory.release [v] } : Core).Counted held ∧
      c.Stored done path v { d with memory := d.memory.release [v] } := by
  refine ⟨hd.release [v], ?_⟩
  have hs : d.memory.heap.Supports ([v] ++ (d.values ++ held)) :=
    hd.supports.perm (List.perm_append_comm_assoc d.values [v] held)
  have hagrees : Heap.Agrees d.values d.memory.heap (d.memory.release [v]).heap :=
    (Heap.agrees_release [v] hs).mono fun w hw => List.mem_append_left held hw
  have hall := hstored.trans (Core.stored_of_agrees path v hd.supports hagrees) rfl
  rwa [List.append_nil] at hall

section
variable {op : Option NodeId → Memory → Value → Value → Value × Memory}
  (hop : ∀ owner (m : Memory) old new vs, m.heap.Supports (old :: new :: vs) →
    m.Stores old new path vs (op owner m old new))
include hop

/-- One instance gets a second holder of the value. -/
theorem counted_storeOne (done : List Spot) (instanceId : InstanceId) :
    Triple (fun d => d.Counted (v :: held) ∧ c.Stored done path v d)
      (do
        let i ← storeTarget instanceId
        let v' ← share v
        updateVariable i id fun m old => op i.node m old v')
      (fun _ d => d.Counted (v :: held) ∧ c.Stored (done ++ [.field instanceId id]) path v d) fun _ => True := by
  rintro d ⟨hd, hstored⟩
  unfold storeTarget
  simp only [bind_assoc]
  rw [run_get]
  cases hi : d.world.instance? instanceId with
  | none => trivial
  | some i =>
    obtain ⟨-, rfl⟩ := World.instance?_mem hi
    have hv : d.memory.heap.Holds [v] := hd.supports.holds.one (by simp)
    have hretained : d.Stored [] path v { d with memory := d.memory.retain v } :=
      Core.stored_of_agrees path v hd.supports ((Heap.sameRows_retain d.memory.heap v).keeps.agrees _)
    have hcontent : d.content (.field i.id id) = i.fields.get id := by
      simp [Core.content, Core.content?, hi, Variables.get]
    have hspot : ({ d with memory := d.memory.retain v } : Core).Has (.field i.id id) := by
      simp [Core.Has, hi]
    have hstores : ∀ vs, (d.memory.retain v).heap.Supports (d.content (.field i.id id) :: v.share :: vs) →
        (d.memory.retain v).Stores (d.content (.field i.id id)) v.share path vs
          (op i.node (d.memory.retain v) (i.fields.get id) v.share) := by
      rw [hcontent]
      exact hop i.node _ _ _
    obtain ⟨hcounted, hput⟩ := (hd.retain hv).store hspot hstores
    refine ⟨hcounted, ?_⟩
    have hall := (hstored.trans hretained rfl).trans hput v.share_share
    rwa [List.append_nil] at hall

/-- Each instance gets one, one after the other, and none of them gets at what the others have. -/
theorem counted_storeAll (done : List Spot) (ids : List InstanceId) :
    Triple (fun d => d.Counted (v :: held) ∧ c.Stored done path v d)
      (ids.forM fun instanceId => do
        let i ← storeTarget instanceId
        let v' ← share v
        updateVariable i id fun m old => op i.node m old v')
      (fun _ d => d.Counted (v :: held) ∧ c.Stored (done ++ ids.map (.field · id)) path v d) fun _ => True := by
  induction ids generalizing done with
  | nil =>
    intro d hd
    rw [List.map_nil, List.append_nil]
    exact hd
  | cons instanceId ids ih =>
    refine (counted_storeOne hop done instanceId).bind fun _ => ?_
    have hrest := ih (done ++ [.field instanceId id])
    rwa [List.append_assoc, List.singleton_append] at hrest

theorem counted_storeEach (ids : List InstanceId) :
    Triple (fun d => d.Counted (v :: held) ∧ c.Stored [] path v d)
      (storeEach ids v fun i v' => updateVariable i id fun m old => op i.node m old v')
      (fun _ d => d.Counted held ∧ c.Stored (ids.map (.field · id)) path v d) fun _ => True := by
  intro d hd
  have hall : Triple _ _ (fun _ d => d.Counted (v :: held) ∧ c.Stored (ids.map (.field · id)) path v d) _ :=
    counted_storeAll hop [] ids
  have hrun := hall d hd
  unfold storeEach thenDrop
  split at hrun
  · rename_i u d' hxd
    rw [hxd]
    exact counted_dropped hrun.1 hrun.2
  · rename_i f d' hxd
    rw [hxd]
    trivial

theorem counted_updateGlobal :
    Triple (fun d => d.Counted (v :: held) ∧ c.Stored [] path v d) (updateGlobal id fun m old => op none m old v)
      (fun _ d => d.Counted held ∧ c.Stored [.global id] path v d) fun _ => True := by
  rintro d ⟨hd, hstored⟩
  have hspot : d.Has (.global id) := trivial
  obtain ⟨hcounted, hput⟩ := hd.store hspot (hop none d.memory (d.world.globals.get id) v)
  exact ⟨hcounted, hstored.trans hput rfl⟩

end

theorem counted_storeVariable (owner : Owner) :
    Triple (fun d => d.Counted (v :: held) ∧ c.Stored [] [] v d) (storeVariable owner id v)
      (fun _ d => d.Counted held ∧ c.Stored (owner.spots id) [] v d) fun _ => True := by
  have hop : ∀ owner (m : Memory) old new vs, m.heap.Supports (old :: new :: vs) →
      m.Stores old new [] vs (m.replaceSlot old owner new) := fun owner _ _ _ _ hs => Memory.stores_replaceSlot hs owner
  cases owner with
  | noone => exact fun d hd => counted_dropped hd.1 hd.2
  | global => exact counted_updateGlobal hop
  | single i => exact counted_storeEach hop [i]
  | multi is => exact counted_storeEach hop is

theorem counted_storeVariableCell (owner : Owner) (hcopying : c.executor.copying = true) :
    Triple (fun d => d.Counted (v :: held) ∧ c.Stored [] path v d) (storeVariableCell owner id path v)
      (fun _ d => d.Counted held ∧ c.Stored (owner.spots id) path v d) fun _ => True := by
  have hop : ∀ owner (m : Memory) old new vs, m.heap.Supports (old :: new :: vs) →
      m.Stores old new path vs (m.storeInSlot old owner path new true) :=
    fun owner _ _ _ _ hs => Memory.stores_storeInSlot hs owner path
  intro d hd
  have hcopying' : d.executor.copying = true := by rw [hd.2.executor, hcopying]
  unfold storeVariableCell
  rw [run_get, hcopying']
  cases owner with
  | noone => exact counted_dropped hd.1 hd.2
  | global => exact counted_updateGlobal hop d hd
  | single i => exact counted_storeEach hop [i] d hd
  | multi is => exact counted_storeEach hop is d hd

theorem counted_storeLocalCell (index : UInt32) (hcopying : c.executor.copying = true) :
    Triple (fun d => d.Counted (v :: held) ∧ c.Stored [] path v d) (storeLocalCell index path v)
      (fun _ d => d.Counted held ∧ c.Stored [.slot (c.executor.base + index.toNat)] path v d) fun _ => True := by
  rintro d ⟨hd, hstored⟩
  have hbase : d.executor.base = c.executor.base := by rw [hstored.executor]
  have hcopying' : d.executor.copying = true := by rw [hstored.executor, hcopying]
  have hlocal : localSlot index d = (ofExcept (d.executor.localSlot index) : Exec Nat) d := rfl
  cases hslot : d.executor.localSlot index with
  | error f =>
    have hfound : orDrop [v] (localSlot index) d = .error f { d with memory := d.memory.release [v] } := by
      rw [orDrop, hlocal, hslot]
      rfl
    simp only [storeLocalCell, bind, EStateM.bind, hfound]
  | ok slot =>
    obtain ⟨rfl, hlt⟩ := Executor.localSlot_eq_ok hslot
    have hfound : orDrop [v] (localSlot index) d = .ok (d.executor.base + index.toNat) d := by
      rw [orDrop, hlocal, hslot]
      rfl
    have hspot : d.Has (.slot (d.executor.base + index.toNat)) := hlt
    obtain ⟨hcounted, hput⟩ := hd.store hspot fun vs hs => Memory.stores_storeNested hs path none
    have hrun : storeLocalCell index path v d = updateSlot (d.executor.base + index.toNat)
        (fun m old => ((), m.storeNested old path v d.executor.copying none)) d := by
      simp only [storeLocalCell, bind, EStateM.bind, hfound]
      rfl
    rw [hcopying'] at hrun
    rw [hrun, ← hbase]
    exact ⟨hcounted, hstored.trans hput rfl⟩

/-- What a store to a target does when it succeeds: the value is in the variables that the target addresses, and all
others are as before. -/
theorem counted_store (target : Target) (hcopying : c.executor.copying = true) :
    Triple (fun d => d.Counted (v :: held) ∧ c.Stored [] path v d) (target.store path v)
      (fun _ d => d.Counted held ∧ c.Stored (target.spots c.executor.base) path v d) fun _ => True := by
  cases target with
  | slot index => exact counted_storeLocalCell index hcopying
  | owned owner id =>
    unfold Target.store
    split_ifs with hpath
    · subst hpath
      exact counted_storeVariable owner
    · exact counted_storeVariableCell owner hcopying

/-! ### Loads -/

theorem loadCell_ok {u w : Value} (hread : c.memory.peekNested u path = .ok w) :
    loadCell u path c = .ok () { c with memory := c.memory.retain w, executor := c.executor.push w.share } := by
  change (ofExcept (c.memory.peekNested u path) >>= pushShared : Exec Unit) c = _
  rw [hread]
  rfl

theorem loadVariable_field {instanceId : InstanceId} {u : Value} (hu : c.content? (.field instanceId id) = some u) :
    (loadTarget instanceId >>= (readVariable · id) : Exec Value) c = .ok u c := by
  obtain ⟨i, hi, hfield⟩ := Option.bind_eq_some_iff.1 hu
  have htarget : loadTarget instanceId c = .ok i c := by
    unfold loadTarget
    rw [run_get, hi]
    rfl
  simp only [bind, EStateM.bind, htarget, readVariable, hfield]
  rfl

/-- What the first of the addressed variables holds is found. A global is set by that, if it was not. -/
theorem load_ok {target : Target} {slots : List Spot} {spot : Spot} {u : Value}
    (hspots : target.spots c.executor.base = spot :: slots) (hu : c.content? spot = some u)
    (hlocal : ∀ index, target = .slot index → ∃ slot, c.executor.localSlot index = .ok slot) :
    ∃ world, target.load c = .ok u { c with world } := by
  cases target with
  | slot index =>
    obtain ⟨slot, hslot⟩ := hlocal index rfl
    obtain ⟨rfl, hlt⟩ := Executor.localSlot_eq_ok hslot
    obtain ⟨rfl, -⟩ := List.cons.inj hspots
    have hvalue : c.executor.localValue index = .ok u := by
      rw [Executor.localValue, hslot]
      change Except.ok ((c.executor.stack[c.executor.base + index.toNat]?).getD .undefined) = _
      rw [show c.executor.stack[c.executor.base + index.toNat]? = some u from hu]
      rfl
    refine ⟨c.world, ?_⟩
    change (ofExcept (c.executor.localValue index) : Exec Value) c = _
    rw [hvalue]
    rfl
  | owned owner id =>
    cases owner with
    | noone => cases hspots
    | global =>
      obtain ⟨rfl, -⟩ := List.cons.inj hspots
      have hget : c.world.globals.get id = u := by
        rw [Variables.get, show c.world.globals.get? id = some u from hu]; rfl
      have hset : (c.world.globals.set id (c.world.globals.get id)).get id = u := by
        rw [Variables.get, Variables.get?_set, if_pos rfl, hget]
        rfl
      exact ⟨{ c.world with globals := c.world.globals.set id (c.world.globals.get id) }, by rw [← hset]; rfl⟩
    | single i =>
      obtain ⟨rfl, -⟩ := List.cons.inj hspots
      exact ⟨c.world, loadVariable_field hu⟩
    | multi is =>
      cases is with
      | nil => cases hspots
      | cons i is =>
        obtain ⟨rfl, -⟩ := List.cons.inj hspots
        exact ⟨c.world, loadVariable_field hu⟩

end Exec
end ScriptVm
