import ScriptVm.Proofs.Erasers
import ScriptVm.Proofs.Forms

/-! Execution takes no notice of what an eraser takes away. Each piece of it, run on the state that is
left, does what it does on the whole: the same results, but for the values the eraser changes, the same
faults, and what is left of the state afterwards. The rule for sequences carries this from the small
operations to the instructions. -/

namespace ScriptVm

/-- `y` does on what is left what `x` does on the whole; `e` takes the results along. -/
def Eraser.Erases {α β : Type} (R : Eraser) (e : α → β) (x : Exec α) (y : Exec β) : Prop :=
  ∀ c : Core, match x c with
    | .ok a d => y (R.core c) = .ok (e a) (R.core d) ∧ R.rest d.world.instances = R.rest c.world.instances
    | .error f d => y (R.core c) = .error f (R.core d) ∧ R.rest d.world.instances = R.rest c.world.instances

/-- A piece whose results hold no values does the same on what is left. -/
abbrev Eraser.Oblivious {α : Type} (R : Eraser) (x : Exec α) : Prop := R.Erases id x x

def Flow.map (f : Value → Value) : Flow → Flow
  | .native index arguments => .native index (arguments.map f)
  | flow => flow

/-- The instructions that store into built-in variables or load from them. -/
def Opcode.onBuiltins : List Opcode := [.stt, .ldt, .stp, .ldp, .stpa, .ldpa]

def Form.onBuiltins : Form → Bool
  | storeBuiltin _ _ _ | loadBuiltin _ _ _ => true
  | _ => false

namespace Eraser
open Exec
variable {R : Eraser} {α β γ δ : Type}

/-! ### Sequences -/

theorem Erases.bind {e : α → β} {e' : γ → δ} {x : Exec α} {y : Exec β} {f : α → Exec γ} {g : β → Exec δ}
    (hx : R.Erases e x y) (hf : ∀ a, R.Erases e' (f a) (g (e a))) : R.Erases e' (x >>= f) (y >>= g) := by
  intro c
  have hrun := hx c
  simp only [Bind.bind, EStateM.bind]
  rcases hxc : x c with ⟨a, d⟩ | ⟨fault, d⟩ <;> rw [hxc] at hrun <;> obtain ⟨hrun, hrest⟩ := hrun <;> rw [hrun]
  · have hnext := hf a d
    dsimp only
    rcases hfd : f a d with ⟨b, d'⟩ | ⟨fault, d'⟩ <;> rw [hfd] at hnext <;> exact ⟨hnext.1, hnext.2.trans hrest⟩
  · exact ⟨rfl, hrest⟩

theorem erases_pure (e : α → β) (a : α) : R.Erases e (pure a) (pure (e a)) := fun _ => ⟨rfl, rfl⟩

theorem erases_throw (e : α → β) (f : Fault) : R.Erases e (throw f) (throw f) := fun _ => ⟨rfl, rfl⟩

theorem erases_get : R.Erases R.core get get := fun _ => ⟨rfl, rfl⟩

theorem erases_ofExcept (e : α → β) {r : Except Fault α} {r' : Except Fault β} (h : r' = r.map e) :
    R.Erases e (ofExcept r) (ofExcept r') := by
  intro c
  rw [h]
  cases r <;> exact ⟨rfl, rfl⟩

theorem oblivious_ofExcept (r : Except Fault α) : R.Oblivious (ofExcept r) :=
  erases_ofExcept id (by cases r <;> rfl)

theorem erases_modify {f g : Core → Core} (h : ∀ c, g (R.core c) = R.core (f c))
    (hrest : ∀ c, R.rest (f c).world.instances = R.rest c.world.instances) : R.Erases id (modify f) (modify g) := by
  intro c
  refine ⟨?_, hrest c⟩
  change EStateM.Result.ok () (g (R.core c)) = EStateM.Result.ok () (R.core (f c))
  rw [h]

theorem erases_modifyGet {e : α → β} {f : Core → α × Core} {g : Core → β × Core}
    (h : ∀ c, g (R.core c) = (e (f c).1, R.core (f c).2))
    (hrest : ∀ c, R.rest (f c).2.world.instances = R.rest c.world.instances) : R.Erases e (modifyGet f) (modifyGet g) := by
  intro c
  refine ⟨?_, hrest c⟩
  change EStateM.Result.ok (g (R.core c)).1 (g (R.core c)).2 = EStateM.Result.ok (e (f c).1) (R.core (f c).2)
  rw [h]

theorem Erases.ite {e : α → β} {x x' : Exec α} {y y' : Exec β} {p : Prop} [Decidable p] (hx : R.Erases e x y)
    (hx' : R.Erases e x' y') : R.Erases e (if p then x else x') (if p then y else y') := by
  split_ifs
  · exact hx
  · exact hx'

theorem Erases.guarded {e : α → β} {x : Exec α} {y : Exec β} {p : Prop} [Decidable p] (hx : R.Erases e x y) (f : Fault) :
    R.Erases e (if p then (throw f : Exec Unit) >>= fun _ => x else x) (if p then (throw f : Exec Unit) >>= fun _ => y else y) :=
  Erases.ite ((erases_throw id f).bind fun _ => hx) hx

theorem Erases.inspect {e : α → β} {f : Core → Exec α} {g : Core → Exec β}
    (h : ∀ c : Core, R.Erases e (f c) (g (R.core c))) : R.Erases e (get >>= f) (get >>= g) := erases_get.bind h

theorem Erases.orDrop {e : α → β} {x : Exec α} {y : Exec β} (hx : R.Erases e x y) (vs : List Value) :
    R.Erases e (orDrop vs x) (orDrop (vs.map R.value) y) := by
  intro c
  have hrun := hx c
  unfold Exec.orDrop
  rcases hxc : x c with ⟨a, d⟩ | ⟨fault, d⟩ <;> rw [hxc] at hrun <;> obtain ⟨hrun, hrest⟩ := hrun <;> rw [hrun]
  · exact ⟨rfl, hrest⟩
  · refine ⟨?_, hrest⟩
    simp only [core, R.memory_release]

theorem Erases.thenDrop {e : α → β} {x : Exec α} {y : Exec β} (hx : R.Erases e x y) (vs : List Value) :
    R.Erases e (thenDrop vs x) (thenDrop (vs.map R.value) y) := by
  intro c
  have hrun := hx c
  unfold Exec.thenDrop
  rcases hxc : x c with ⟨a, d⟩ | ⟨fault, d⟩ <;> rw [hxc] at hrun <;> obtain ⟨hrun, hrest⟩ := hrun <;> rw [hrun] <;>
    refine ⟨?_, hrest⟩ <;> simp only [core, R.memory_release]

theorem Erases.forM {f : α → Exec Unit} {g : β → Exec Unit} {e : α → β} (h : ∀ a, R.Erases id (f a) (g (e a)))
    (as : List α) : R.Erases id (as.forM f) ((as.map e).forM g) := by
  induction as with
  | nil => exact erases_pure id ()
  | cons a as ih => exact (h a).bind fun _ => ih

theorem Erases.map {e : α → β} {e' : γ → δ} {f : α → γ} {g : β → δ} {x : Exec α} {y : Exec β} (hx : R.Erases e x y)
    (h : ∀ a, g (e a) = e' (f a)) : R.Erases e' (f <$> x) (g <$> y) := by
  intro c
  have hrun := hx c
  simp only [Functor.map, EStateM.map]
  rcases hxc : x c with ⟨a, d⟩ | ⟨fault, d⟩ <;> rw [hxc] at hrun <;> obtain ⟨hrun, hrest⟩ := hrun <;> rw [hrun]
  · exact ⟨congrArg (EStateM.Result.ok · (R.core d)) (h a), hrest⟩
  · exact ⟨rfl, hrest⟩

theorem Erases.mapM {f : α → Exec γ} {g : β → Exec δ} {e : α → β} {e' : γ → δ} (h : ∀ a, R.Erases e' (f a) (g (e a)))
    (as : List α) : R.Erases (List.map e') (as.mapM f) ((as.map e).mapM g) := by
  induction as with
  | nil => exact erases_pure _ []
  | cons a as ih =>
    rw [List.map_cons, List.mapM_cons, List.mapM_cons]
    exact (h a).bind fun b => ih.bind fun bs => erases_pure _ (b :: bs)

/-! ### Values on the stack -/

theorem erases_onExecutor {e : α → β} {x : EStateM Fault Executor α} {y : EStateM Fault Executor β}
    (h : ∀ s, y (R.executor s) = match x s with
      | .ok a t => .ok (e a) (R.executor t)
      | .error f t => .error f (R.executor t)) : R.Erases e (onExecutor x) (onExecutor y) := by
  intro c
  unfold onExecutor
  have hexecutor : (R.core c).executor = R.executor c.executor := rfl
  rw [hexecutor, h]
  cases x c.executor <;> exact ⟨rfl, rfl⟩

theorem erases_push (v : Value) : R.Erases id (push v) (push (R.value v)) :=
  erases_modify (fun c => by simp [core, executor_push]) fun _ => rfl

theorem oblivious_push {v : Value} (h : v.isArray = false) : R.Oblivious (push v) := by
  have hpush := erases_push (R := R) v
  rwa [R.value_plain v h] at hpush

theorem erases_pop : R.Erases R.value pop pop := by
  refine erases_onExecutor fun e => ?_
  unfold Executor.pop
  simp only [executor, Array.back?_map]
  cases e.stack.back? with
  | none => rfl
  | some v => simp

theorem erases_drop (vs : List Value) : R.Erases id (drop vs) (drop (vs.map R.value)) :=
  erases_modify (fun c => by simp [core, R.memory_release]) fun _ => rfl

theorem erases_share (v : Value) : R.Erases R.value (share v) (share (R.value v)) :=
  erases_modifyGet (fun c => by simp only [core, Memory.share, R.share_value, R.memory_retain]) fun _ => rfl

theorem erases_pushShared (v : Value) : R.Erases id (pushShared v) (pushShared (R.value v)) :=
  (erases_share v).bind erases_push

theorem oblivious_popCoerced (t : CastTarget) : R.Oblivious (popCoerced t) :=
  erases_pop.bind fun v => (erases_drop [v]).bind fun _ => by
    rw [R.coerce_value]
    exact oblivious_ofExcept _

theorem oblivious_popExact (t : CastTarget) : R.Oblivious (popExact t) :=
  erases_pop.bind fun v => (erases_drop [v]).bind fun _ => by
    rw [R.exact_value]
    exact oblivious_ofExcept _

theorem oblivious_popCell : R.Oblivious popCell :=
  (oblivious_popCoerced .int).bind fun col => (oblivious_popCoerced .int).bind fun row =>
    Erases.ite (erases_pure id (row.toInt.toNat, col.toInt.toNat)) (erases_throw id _)

theorem oblivious_popPath (n : Nat) : R.Oblivious (popPath n) := by
  induction n with
  | zero => exact erases_pure id []
  | succ n ih => exact oblivious_popCell.bind fun cell => ih.bind fun path => erases_pure id (cell :: path)

theorem oblivious_owner (id : Int64) : R.Oblivious (do return (← get).owner id) :=
  Erases.inspect fun c => by
    rw [R.owner_core]
    exact erases_pure _ (c.owner id)

theorem oblivious_popOwner : R.Oblivious popOwner := (oblivious_popCoerced .int64).bind fun id => oblivious_owner id

theorem oblivious_leaveScope : R.Oblivious leaveScope := by
  refine erases_pop.bind fun saved => (erases_drop [saved]).bind fun _ => erases_onExecutor fun e => ?_
  unfold Executor.leaveScope
  rw [R.restore_value]
  cases Executor.restore saved <;> rfl

theorem oblivious_setCondition (b : Bool) : R.Oblivious (setCondition b) := erases_modify (fun _ => rfl) fun _ => rfl

theorem oblivious_localSlot (index : UInt32) : R.Oblivious (localSlot index) :=
  Erases.inspect fun c => by
    have hslot : (R.core c).executor.localSlot index = c.executor.localSlot index := R.localSlot_executor c.executor index
    rw [hslot]
    exact oblivious_ofExcept _

theorem erases_localValue (index : UInt32) : R.Erases R.value (localValue index) (localValue index) :=
  Erases.inspect fun c => erases_ofExcept _ (R.localValue_executor c.executor index)

theorem oblivious_topSlot : R.Oblivious topSlot :=
  Erases.inspect fun c => by
    dsimp only
    rw [R.size_core]
    exact Erases.ite (erases_throw id _) (erases_pure id _)

theorem erases_updateSlot {e : α → β} {f : Memory → Value → α × Value × Memory} {g : Memory → Value → β × Value × Memory}
    (h : ∀ m v, g (R.memory m) (R.value v) = (e (f m v).1, R.value (f m v).2.1, R.memory (f m v).2.2)) (slot : Nat) :
    R.Erases e (updateSlot slot f) (updateSlot slot g) := by
  intro c
  have hslot : ((R.core c).executor.stack[slot]?).getD .undefined = R.value ((c.executor.stack[slot]?).getD .undefined) :=
    R.slot_executor c.executor slot
  have hmemory : (R.core c).memory = R.memory c.memory := rfl
  refine ⟨?_, rfl⟩
  unfold updateSlot
  rw [hslot, hmemory, h]
  simp only [core, executor_setSlot]

theorem erases_operateSlot (op : Operator) (slot : Nat) (right : Value) :
    R.Erases id (operateSlot op slot right) (operateSlot op slot (R.value right)) :=
  (erases_updateSlot (e := id) (fun m v => R.operate_memory m op v right) slot).bind fun r => oblivious_ofExcept r

theorem oblivious_operateSlot (op : Operator) (slot : Nat) {right : Value} (h : right.isArray = false) :
    R.Oblivious (operateSlot op slot right) := by
  have hrun := erases_operateSlot (R := R) op slot right
  rwa [R.value_plain right h] at hrun

theorem oblivious_enterSection (index : UInt32) : R.Oblivious (enterSection index) := by
  refine Erases.inspect fun c => ?_
  have hdepth : (R.core c).config.maxCallDepth = c.config.maxCallDepth := R.maxCallDepth_config c.config
  rw [hdepth]
  refine Erases.ite (erases_throw id _) ?_
  have hsections : (R.core c).sections = c.sections := rfl
  rw [hsections]
  cases c.sections.get index with
  | error e => exact erases_throw id _
  | ok home => exact erases_modify (fun _ => rfl) fun _ => rfl

/-! ### Variables -/

theorem erases_storeTarget (id : InstanceId) : R.Erases R.inst (storeTarget id) (storeTarget id) :=
  Erases.inspect fun c => by
    have hfound : (R.core c).world.instance? id = (c.world.instance? id).map R.inst := R.instance?_world c.world id
    rw [hfound]
    cases c.world.instance? id with
    | some i => exact erases_pure _ i
    | none => exact erases_throw _ _

theorem erases_loadTarget (id : InstanceId) : R.Erases R.inst (loadTarget id) (loadTarget id) :=
  Erases.inspect fun c => by
    have hfound : (R.core c).world.instance? id = (c.world.instance? id).map R.inst := R.instance?_world c.world id
    rw [hfound]
    cases c.world.instance? id with
    | some i => exact erases_pure _ i
    | none => exact erases_throw _ _

theorem erases_firstTarget (ids : List InstanceId) : R.Erases R.inst (firstTarget ids) (firstTarget ids) := by
  cases ids with
  | nil => exact erases_throw _ _
  | cons id ids => exact erases_loadTarget id

theorem erases_updateGlobal {f g : Memory → Value → Value × Memory}
    (h : ∀ m v, g (R.memory m) (R.value v) = (R.value (f m v).1, R.memory (f m v).2)) (var : VariableId) :
    R.Erases id (updateGlobal var f) (updateGlobal var g) := by
  refine erases_modify (fun c => ?_) fun _ => rfl
  have hold : (R.core c).world.globals.get var = R.value (c.world.globals.get var) := R.get_table c.world.globals var
  have hmemory : (R.core c).memory = R.memory c.memory := rfl
  rw [hold, hmemory, h]
  simp [core, world, table_set]

theorem erases_updateVariable {f g : Memory → Value → Value × Memory}
    (h : ∀ m v, g (R.memory m) (R.value v) = (R.value (f m v).1, R.memory (f m v).2)) (i : Instance) (var : VariableId) :
    R.Erases id (updateVariable i var f) (updateVariable (R.inst i) var g) := by
  refine erases_modify (fun c => ?_) fun c => R.rest_fields c.world i.id _
  have hold : (R.inst i).fields.get var = R.value (i.fields.get var) := R.get_table i.fields var
  have hmemory : (R.core c).memory = R.memory c.memory := rfl
  rw [hold, hmemory, h]
  simp only [core, world_setField]
  rfl

theorem erases_storeEach {f g : Instance → Value → Exec Unit} (h : ∀ i v, R.Erases id (f i v) (g (R.inst i) (R.value v)))
    (ids : List InstanceId) (v : Value) : R.Erases id (storeEach ids v f) (storeEach ids (R.value v) g) := by
  have heach := Erases.forM (f := fun i => do f (← storeTarget i) (← share v))
    (g := fun i => do g (← storeTarget i) (← share (R.value v))) (e := id)
    (fun i => (erases_storeTarget i).bind fun i => (erases_share v).bind fun w => h i w) ids
  rw [List.map_id] at heach
  exact heach.thenDrop [v]

theorem erases_storeVariable (owner : Owner) (var : VariableId) (v : Value) :
    R.Erases id (storeVariable owner var v) (storeVariable owner var (R.value v)) := by
  have hstore : ∀ i v, R.Erases id (updateVariable i var fun m old => m.replaceSlot old i.node v)
      (updateVariable (R.inst i) var fun m old => m.replaceSlot old (R.inst i).node (R.value v)) := fun i v =>
    erases_updateVariable (fun m old => R.replaceSlot_memory m old i.node v) i var
  have hglobal : ∀ m old, (R.memory m).replaceSlot (R.value old) none (R.value v) =
      (R.value (m.replaceSlot old none v).1, R.memory (m.replaceSlot old none v).2) := by
    intro m old
    rw [← R.replaceSlot_memory, R.node_none]
  unfold storeVariable
  cases owner with
  | noone => exact erases_drop [v]
  | global => exact erases_updateGlobal hglobal var
  | single i => exact erases_storeEach hstore [i] v
  | multi is => exact erases_storeEach hstore is v

theorem erases_storeVariableCell (owner : Owner) (var : VariableId) (path : List Cell) (v : Value) :
    R.Erases id (storeVariableCell owner var path v) (storeVariableCell owner var path (R.value v)) := by
  refine Erases.inspect fun c => ?_
  have hstore : ∀ i v, R.Erases id (updateVariable i var fun m old => m.storeInSlot old i.node path v c.executor.copying)
      (updateVariable (R.inst i) var fun m old => m.storeInSlot old (R.inst i).node path (R.value v) c.executor.copying) :=
    fun i v => erases_updateVariable (fun m old => R.storeInSlot_memory m old i.node path v _) i var
  have hglobal : ∀ m old, (R.memory m).storeInSlot (R.value old) none path (R.value v) c.executor.copying =
      (R.value (m.storeInSlot old none path v c.executor.copying).1,
        R.memory (m.storeInSlot old none path v c.executor.copying).2) := by
    intro m old
    rw [← R.storeInSlot_memory, R.node_none]
  cases owner with
  | noone => exact erases_drop [v]
  | global => exact erases_updateGlobal hglobal var
  | single i => exact erases_storeEach hstore [i] v
  | multi is => exact erases_storeEach hstore is v

theorem erases_readVariable (i : Instance) (var : VariableId) :
    R.Erases R.value (readVariable i var) (readVariable (R.inst i) var) := by
  have hget : (R.inst i).fields.get? var = (i.fields.get? var).map R.value := R.get?_table i.fields var
  unfold readVariable
  rw [hget]
  cases i.fields.get? var with
  | some v => exact erases_pure _ v
  | none => exact erases_throw _ _

theorem erases_loadVariable (owner : Owner) (var : VariableId) :
    R.Erases R.value (loadVariable owner var) (loadVariable owner var) := by
  cases owner with
  | noone => exact erases_throw _ _
  | global =>
    refine (erases_updateGlobal (fun _ _ => rfl) var).bind fun _ => Erases.inspect fun c => ?_
    have hglobal : (R.core c).world.globals.get var = R.value (c.world.globals.get var) :=
      R.get_table c.world.globals var
    rw [hglobal]
    exact erases_pure _ _
  | single i => exact (erases_loadTarget i).bind fun i => erases_readVariable i var
  | multi is => exact (erases_firstTarget is).bind fun i => erases_readVariable i var

/-- An eraser that does not take built-in variables away. -/
structure LeavesBuiltins (R : Eraser) : Prop where
  rest_eq : ∀ is js, R.rest is = R.rest js
  setBuiltin : ∀ w m i var v, (R.world w).setBuiltin (R.memory m) (R.inst i) var (R.value v) =
    ((w.setBuiltin m i var v).1, R.world (w.setBuiltin m i var v).2.1, R.memory (w.setBuiltin m i var v).2.2)
  storeBuiltinCell : ∀ w m i var cell v,
    (R.world w).storeBuiltinCell (R.memory m) (R.inst i) var cell (R.value v) =
      ((w.storeBuiltinCell m i var cell v).1, R.world (w.storeBuiltinCell m i var cell v).2.1,
        R.memory (w.storeBuiltinCell m i var cell v).2.2)
  builtin : ∀ w i var, (R.world w).builtin (R.inst i) var = (w.builtin i var).map R.value
  builtinCell : ∀ w m i var cell, (R.world w).builtinCell (R.memory m) (R.inst i) var cell =
    (w.builtinCell m i var cell).map R.value

theorem erases_onWorld (hR : R.LeavesBuiltins) {f g : World → Memory → Except Fault Unit × World × Memory}
    (h : ∀ w m, g (R.world w) (R.memory m) = ((f w m).1, R.world (f w m).2.1, R.memory (f w m).2.2)) :
    R.Erases id (onWorld f) (onWorld g) := by
  refine (erases_modifyGet (e := id) (fun c => ?_) fun c => hR.rest_eq _ _).bind fun r => oblivious_ofExcept r
  have hworld : g (R.core c).world (R.core c).memory = _ := h c.world c.memory
  rw [hworld]
  rfl

theorem erases_storeBuiltinAt (hR : R.LeavesBuiltins) (i : Instance) (var : VariableId) (cell? : Option Cell)
    (v : Value) :
    R.Erases id
      (onWorld fun w m =>
        match cell? with
        | some cell => w.storeBuiltinCell m i var cell v
        | none => w.setBuiltin m i var v)
      (onWorld fun w m =>
        match cell? with
        | some cell => w.storeBuiltinCell m (R.inst i) var cell (R.value v)
        | none => w.setBuiltin m (R.inst i) var (R.value v)) := by
  refine erases_onWorld hR fun w m => ?_
  cases cell? with
  | some cell => exact hR.storeBuiltinCell w m i var cell v
  | none => exact hR.setBuiltin w m i var v

theorem erases_storeBuiltin (hR : R.LeavesBuiltins) (owner : Owner) (var : VariableId) (cell? : Option Cell)
    (v : Value) : R.Erases id (storeBuiltin owner var cell? v) (storeBuiltin owner var cell? (R.value v)) := by
  have hstore := fun i u => erases_storeBuiltinAt hR i var cell? u
  cases owner with
  | noone => exact erases_drop [v]
  | global => exact (erases_throw id _).orDrop [v]
  | single i => exact erases_storeEach hstore [i] v
  | multi is => exact erases_storeEach hstore is v

theorem erases_readBuiltin (hR : R.LeavesBuiltins) (i : Instance) (var : VariableId) (cell? : Option Cell) :
    R.Erases R.value
      (do
        let c ← get
        match cell? with
        | some cell => ofExcept (c.world.builtinCell c.memory i var cell)
        | none => ofExcept (c.world.builtin i var))
      (do
        let c ← get
        match cell? with
        | some cell => ofExcept (c.world.builtinCell c.memory (R.inst i) var cell)
        | none => ofExcept (c.world.builtin (R.inst i) var)) := by
  refine Erases.inspect fun c => ?_
  cases cell? with
  | some cell => exact erases_ofExcept _ (hR.builtinCell c.world c.memory i var cell)
  | none => exact erases_ofExcept _ (hR.builtin c.world i var)

theorem erases_loadBuiltin (hR : R.LeavesBuiltins) (owner : Owner) (var : VariableId) (cell? : Option Cell) :
    R.Erases R.value (loadBuiltin owner var cell?) (loadBuiltin owner var cell?) := by
  have hread := fun i => erases_readBuiltin hR i var cell?
  cases owner with
  | noone => exact erases_throw _ _
  | global => exact erases_throw _ _
  | single i => exact (erases_loadTarget i).bind hread
  | multi is => exact (erases_firstTarget is).bind hread

/-! ### Instructions -/

theorem oblivious_binary (op : Operator) : R.Oblivious (binary op) :=
  erases_pop.bind fun right => Erases.thenDrop
    (oblivious_topSlot.bind fun slot => erases_operateSlot op slot right) [right]

theorem oblivious_compare {test : Value → Value → Except Fault Bool} (h : ∀ a b, test (R.value a) (R.value b) = test a b) :
    R.Oblivious (compare test) :=
  erases_pop.bind fun right => (erases_pop.orDrop [right]).bind fun left =>
    (erases_drop [left, right]).bind fun _ => by
      rw [h]
      exact (oblivious_ofExcept _).bind fun b => oblivious_setCondition b

theorem oblivious_logical (connective : Bool → Bool → Bool) : R.Oblivious (logical connective) :=
  (oblivious_popCoerced .bool).bind fun _ => (oblivious_popCoerced .bool).bind fun _ => oblivious_push rfl

theorem oblivious_invertTop : R.Oblivious invertTop := by
  refine oblivious_topSlot.bind fun slot => ?_
  refine (erases_updateSlot (e := id) (fun m v => ?_) slot).bind fun r => oblivious_ofExcept r
  rw [R.invert_value]
  cases hinverted : v.invert with
  | ok inverted => simp only [R.value_plain inverted (Value.isArray_of_invert hinverted), id_eq]
  | error f => rfl

theorem oblivious_openLocals (count : UInt32) : R.Oblivious (openLocals count) :=
  erases_modify (fun c => by simp [core, executor, Executor.push, R.value_plain (.uint _) rfl]) fun _ => rfl

theorem erases_storeLocalCell (index : UInt32) (path : List Cell) (v : Value) :
    R.Erases id (storeLocalCell index path v) (storeLocalCell index path (R.value v)) := by
  refine ((oblivious_localSlot index).orDrop [v]).bind fun slot => Erases.inspect fun c => ?_
  refine erases_updateSlot (fun m old => ?_) slot
  exact congrArg (Prod.mk ()) (R.storeNested_memory m old path v _)

theorem erases_loadCell (v : Value) (path : List Cell) : R.Erases id (loadCell v path) (loadCell (R.value v) path) :=
  Erases.inspect fun c => (erases_ofExcept R.value (R.peekNested_memory c.memory v path)).bind erases_pushShared

theorem oblivious_duplicate (count : Nat) : R.Oblivious (duplicate count) := by
  refine Erases.inspect fun c => ?_
  have hvalues : ∀ slot, (R.core c).executor.valuesFrom slot = (c.executor.valuesFrom slot).map (List.map R.value) :=
    R.valuesFrom_executor c.executor
  dsimp only
  rw [R.size_core]
  refine Erases.ite (erases_throw id _) ((oblivious_ofExcept _).bind fun start => ?_)
  exact (erases_ofExcept _ (hvalues start)).bind fun vs => Erases.forM erases_pushShared vs

theorem oblivious_duplicateAt (depth : Nat) : R.Oblivious (duplicateAt depth) :=
  Erases.inspect fun c => (erases_ofExcept R.value (R.peek_executor c.executor depth)).bind erases_pushShared

theorem oblivious_deleteAt (depth : Nat) : R.Oblivious (deleteAt depth) := by
  refine Erases.inspect fun c => ?_
  refine (erases_ofExcept R.value (R.peek_executor c.executor depth)).bind fun _ => ?_
  dsimp only
  rw [R.size_core]
  refine (oblivious_ofExcept _).bind fun last => (oblivious_ofExcept _).bind fun slot => ?_
  refine (erases_ofExcept _ (R.removeSlot_executor c.executor slot)).bind fun (v, executor) => ?_
  have hset : R.Erases id (modify fun d => { d with executor })
      (modify fun d => { d with executor := R.executor executor }) := erases_modify (fun _ => rfl) fun _ => rfl
  exact hset.bind fun _ => erases_drop [v]

theorem oblivious_swap : R.Oblivious swap := by
  refine Erases.inspect fun c => ?_
  refine (erases_ofExcept R.value (R.peek_executor c.executor 1)).bind fun _ => ?_
  rw [R.size_core]
  refine (oblivious_ofExcept _).bind fun last => (oblivious_ofExcept _).bind fun second => ?_
  exact (erases_ofExcept _ (R.swapSlots_executor c.executor last second)).bind fun _ => erases_modify (fun _ => rfl) fun _ => rfl

theorem oblivious_pushInstance (id : Option InstanceId) : R.Oblivious (pushInstance id) := oblivious_push rfl

theorem oblivious_openIteration (owner : Owner) : R.Oblivious (openIteration owner) := by
  refine erases_modify (fun c => ?_) fun _ => rfl
  have hsaved : R.value (Executor.saved c.executor.other) = Executor.saved c.executor.other := by
    cases c.executor.other <;> exact R.value_plain _ rfl
  simp [core, executor, Executor.push, Executor.enterScope, hsaved, R.value_plain (.uint _) rfl]

theorem oblivious_closeIteration : R.Oblivious closeIteration :=
  erases_pop.bind fun v => (erases_drop [v]).bind fun _ => oblivious_leaveScope.bind fun _ =>
    erases_modify (fun _ => rfl) fun _ => rfl

theorem oblivious_advanceIteration : R.Oblivious advanceIteration := by
  refine Erases.inspect fun c => (erases_ofExcept R.value (R.peek_executor c.executor 0)).bind fun top => ?_
  rw [R.exact_value]
  refine (oblivious_ofExcept _).bind fun index => Erases.inspect fun d => ?_
  have hiterations : (R.core d).executor.iterations = d.executor.iterations := rfl
  have hclose : R.Oblivious (do closeIteration; setCondition true) :=
    oblivious_closeIteration.bind fun _ => oblivious_setCondition true
  simp only [hiterations, id_eq]
  cases d.executor.iterations[index.toNat]? with
  | none => exact erases_throw id _
  | some iteration =>
    dsimp only
    cases iteration.current? with
    | some i => exact erases_modify (fun _ => rfl) fun _ => rfl
    | none => exact hclose

theorem oblivious_branch (target : Int32) : R.Oblivious (branch target) := by
  intro c
  have hpc : (R.core c).executor.pc = c.executor.pc := rfl
  unfold branch
  rw [hpc]
  cases Cursor.seek target c.executor.pc <;> exact ⟨rfl, rfl⟩

/-! ### Stores and loads -/

theorem oblivious_operands (mode : Mode) (cells : Nat) : R.Oblivious (mode.operands cells) := by
  have hpath := oblivious_popPath (R := R) cells
  cases mode with
  | slot index => exact hpath.bind fun path => erases_pure id (Target.slot index, path)
  | self var =>
    refine hpath.bind fun path => Erases.inspect fun c => ?_
    rw [R.owner_core]
    exact erases_pure id (Target.owned (c.owner OwnerId.self) var, path)
  | owner var =>
    exact oblivious_popOwner.bind fun owner => hpath.bind fun path => erases_pure id (Target.owned owner var, path)
  | global var => exact hpath.bind fun path => erases_pure id (Target.owned .global var, path)

theorem erases_store (target : Target) (path : List Cell) (v : Value) :
    R.Erases id (target.store path v) (target.store path (R.value v)) := by
  cases target with
  | slot index => exact erases_storeLocalCell index path v
  | owned owner var => exact Erases.ite (erases_storeVariable owner var v) (erases_storeVariableCell owner var path v)

theorem erases_load (target : Target) : R.Erases R.value target.load target.load := by
  cases target with
  | slot index => exact erases_localValue index
  | owned owner var => exact erases_loadVariable owner var

theorem oblivious_builtinOwner (owned : Bool) : R.Oblivious (builtinOwner owned) := by
  cases owned with
  | true => exact oblivious_popOwner
  | false => exact oblivious_owner _

theorem oblivious_builtinCell? (celled : Bool) : R.Oblivious (builtinCell? celled) := by
  cases celled with
  | true => exact oblivious_popCell.bind fun cell => erases_pure id _
  | false => exact erases_pure id _

/-! ### Instructions that stay in their section -/

theorem oblivious_form (f : Form) (hR : f.onBuiltins = true → R.LeavesBuiltins) : R.Oblivious f.effect := by
  cases f with
  | constant v hv => exact oblivious_push hv
  | self | other => exact Erases.inspect fun c => oblivious_pushInstance _
  | newArray =>
    refine (erases_modifyGet (e := R.value) (fun c => ?_) fun _ => rfl).bind erases_push
    have hmemory := R.ensureArray_memory c.memory .undefined
    rw [R.value_undefined] at hmemory
    have hcore : (R.core c).memory = R.memory c.memory := rfl
    rw [hcore, hmemory]
    rfl
  | adjustTop op => exact oblivious_topSlot.bind fun slot => oblivious_operateSlot op slot rfl
  | adjustLocal op index => exact (oblivious_localSlot index).bind fun slot => oblivious_operateSlot op slot rfl
  | binary op => exact oblivious_binary op
  | relate r => exact oblivious_compare (R.related_value r)
  | equal => exact oblivious_compare fun a b => congrArg Except.ok (R.equals_value a b)
  | unequal => exact oblivious_compare fun a b => congrArg (fun same => Except.ok !same) (R.equals_value a b)
  | logical connective => exact oblivious_logical connective
  | invert => exact oblivious_invertTop
  | test g => exact (oblivious_popCoerced .bool).bind fun b => oblivious_setCondition _
  | condition => exact Erases.inspect fun c => oblivious_push rfl
  | copying b => exact erases_modify (fun _ => rfl) fun _ => rfl
  | openLocals count => exact oblivious_openLocals count
  | store mode cells =>
    exact erases_pop.bind fun v => ((oblivious_operands mode cells).orDrop [v]).bind fun operands =>
      erases_store operands.1 operands.2 v
  | load mode cells =>
    exact (oblivious_operands mode cells).bind fun operands =>
      (erases_load operands.1).bind fun v => erases_loadCell v operands.2
  | storeBuiltin owned celled var =>
    exact erases_pop.bind fun v => ((oblivious_builtinOwner owned).orDrop [v]).bind fun owner =>
      ((oblivious_builtinCell? celled).orDrop [v]).bind fun cell? => erases_storeBuiltin (hR rfl) owner var cell? v
  | loadBuiltin owned celled var =>
    exact (oblivious_builtinOwner owned).bind fun owner => (oblivious_builtinCell? celled).bind fun cell? =>
      (erases_loadBuiltin (hR rfl) owner var cell?).bind erases_pushShared
  | discard => exact erases_pop.bind fun v => erases_drop [v]
  | duplicate count => exact oblivious_duplicate count
  | duplicateAt depth => exact oblivious_duplicateAt depth.toNat
  | deleteAt depth => exact oblivious_deleteAt depth.toNat
  | swap => exact oblivious_swap
  | openIteration => exact oblivious_popOwner.bind fun owner => oblivious_openIteration owner
  | advanceIteration => exact oblivious_advanceIteration
  | closeIteration => exact oblivious_closeIteration
  | branch target => exact oblivious_branch target
  | branchIf target => exact Erases.inspect fun c => Erases.ite (oblivious_branch target) (erases_pure id ())
  | endOfUnit => exact erases_throw id _
  | nothing => exact erases_pure id ()

theorem oblivious_effect (i : Instruction) (hR : i.op ∈ Opcode.onBuiltins → R.LeavesBuiltins) : R.Oblivious i.effect := by
  rw [i.effect_form]
  refine oblivious_form i.form fun hbuiltin => hR ?_
  obtain ⟨op, operands⟩ := i
  cases op with
  | stt | ldt | stp | ldp | stpa | ldpa => simp [Opcode.onBuiltins]
  | _ => cases hbuiltin

/-! ### Calls -/

theorem oblivious_cut (size : Nat) :
    R.Oblivious (modify fun d => { d with executor := { d.executor with stack := d.executor.stack.take size } }) :=
  erases_modify (fun d => by simp [core, executor]) fun _ => rfl

theorem erases_drain (count : Nat) : R.Erases (List.map R.value) (drain count) (drain count) := by
  refine Erases.inspect fun c => ?_
  dsimp only
  rw [R.size_core]
  refine (oblivious_ofExcept _).bind fun start => ?_
  refine (erases_ofExcept _ (R.valuesFrom_executor c.executor start)).bind fun vs => ?_
  exact (oblivious_cut start).bind fun _ => erases_pure _ vs

theorem erases_popMany (count : Nat) : R.Erases (List.map R.value) (popMany count) (popMany count) :=
  Erases.inspect fun c => by
    rw [R.size_core]
    exact (erases_drain count).guarded _

theorem oblivious_truncate (size : Nat) : R.Oblivious (truncate size) := by
  refine Erases.inspect fun c => ?_
  have hstack : (R.core c).executor.stack.toList = c.executor.stack.toList.map R.value := R.toList_executor c.executor
  simp only [hstack, ← List.map_drop]
  exact (oblivious_cut size).bind fun _ => erases_drop _

theorem oblivious_closeCall : R.Oblivious closeCall := by
  refine Erases.inspect fun c => (oblivious_truncate _).bind fun _ => (oblivious_popExact .size).bind fun base => ?_
  have hbase : R.Oblivious (modify fun d => { d with executor := { d.executor with base := base.toNat } }) :=
    erases_modify (fun _ => rfl) fun _ => rfl
  refine hbase.bind fun _ => (oblivious_popExact .size).bind fun count => Erases.inspect fun d => ?_
  rw [R.size_core]
  exact (oblivious_truncate _).guarded _

theorem oblivious_replaceCall (count : Nat) : R.Oblivious (replaceCall count) :=
  (erases_drain count).bind fun results => (oblivious_closeCall.orDrop results).bind fun _ =>
    Erases.forM erases_push results

theorem oblivious_backToCaller : R.Oblivious backToCaller := by
  refine Erases.inspect fun c => ?_
  have hcallers : (R.core c).executor.callers = c.executor.callers := rfl
  rw [hcallers]
  cases c.executor.callers.back? with
  | none => exact erases_throw id _
  | some pc => exact erases_modify (fun _ => rfl) fun _ => rfl

theorem oblivious_leaveSection (count : Nat) : R.Oblivious (leaveSection count) := by
  refine Erases.inspect fun c => ?_
  have hreturn : R.Oblivious (do replaceCall count; backToCaller) :=
    (oblivious_replaceCall count).bind fun _ => oblivious_backToCaller
  refine (oblivious_ofExcept _).bind fun needed => ?_
  rw [R.size_core]
  exact hreturn.guarded _

theorem erases_nativeArguments (signature? : Option Signature) (index : UInt32) (arity : Int8) :
    R.Erases (List.map R.value) (nativeArguments signature? index arity) (nativeArguments signature? index arity) := by
  cases signature? with
  | none => exact erases_throw _ _
  | some s =>
    refine Erases.guarded ?_ _
    refine Erases.ite ?_ (Erases.ite ?_ ?_)
    · exact (oblivious_popExact .size).bind fun n => (erases_pure id n.toNat).bind erases_popMany
    · exact (erases_pure id 1).bind erases_popMany
    · exact (erases_pure id _).bind erases_popMany

theorem erases_execute (natives : UInt32 → Option Signature) (i : Instruction)
    (hR : i.op ∈ Opcode.onBuiltins → R.LeavesBuiltins) :
    R.Erases (Flow.map R.value) (i.execute natives) (i.execute natives) := by
  obtain ⟨op, operands⟩ := i
  cases op with
  | nat =>
    obtain ⟨index, arity, ⟨⟩⟩ := operands
    exact (erases_nativeArguments _ index arity).bind fun vs => erases_pure (Flow.map R.value) (.native index vs)
  | call =>
    obtain ⟨callee, count, ⟨⟩⟩ := operands
    refine Erases.inspect fun c => ?_
    have hsections : (R.core c).sections = c.sections := rfl
    rw [hsections]
    have hcall : R.Erases (Flow.map R.value) (do push (.int (.ofInt count.toNat)); enterSection callee; return .entered)
        (do push (.int (.ofInt count.toNat)); enterSection callee; return .entered) :=
      (oblivious_push rfl).bind fun _ => (oblivious_enterSection callee).bind fun _ => erases_pure (Flow.map R.value) .entered
    cases c.sections.get callee with
    | error e => exact (erases_throw id _).bind fun _ => hcall
    | ok home => exact (oblivious_ofExcept _).bind fun _ => hcall
  | ret =>
    obtain ⟨count, ⟨⟩⟩ := operands
    exact (oblivious_leaveSection _).bind fun _ => erases_pure (Flow.map R.value) .returned
  | sus =>
    refine Erases.inspect fun c => ?_
    exact (erases_pure (Flow.map R.value) .suspended).guarded _
  | _ => exact (oblivious_effect _ hR).bind fun _ => erases_pure (Flow.map R.value) .next

theorem oblivious_scan {α : Type} (x : Scan α) : R.Oblivious (scan x) := by
  intro c
  have hpc : (R.core c).executor.pc = c.executor.pc := rfl
  unfold scan
  rw [hpc]
  cases x c.executor.pc <;> exact ⟨rfl, rfl⟩

theorem erases_step (hR : R.LeavesBuiltins) (natives : UInt32 → Option Signature) :
    R.Erases (Flow.map R.value) (step natives) (step natives) := by
  rw [step_eq]
  exact (oblivious_scan _).bind fun i => erases_execute natives i fun _ => hR

end Eraser
end ScriptVm
