import Mathlib.Tactic
import ScriptVm.Machine.Instruction

/-! Parts of the state that instructions take no notice of. An eraser takes such a part away, from values,
from memory and from the world; what instructions look up and what they change is then the same, but for
the values it changes. -/

namespace ScriptVm

theorem Value.isArray_of_invert {v inverted : Value} (h : v.invert = .ok inverted) : inverted.isArray = false := by
  cases v <;> cases h <;> rfl

/-- A way to take a part of the state away, and what instructions ask of it. -/
structure Eraser where
  value : Value → Value
  memory : Memory → Memory
  node : Option NodeId → Option NodeId
  builtins : Variables → Variables
  config : Config → Config
  /-- What is taken away of the instances and stays as it is. -/
  rest : List Instance → List Variables
  value_plain : ∀ v, v.isArray = false → value v = v
  value_array : ∀ h, ∃ h' : Handle, value (.array h) = .array h' ∧ h'.target = h.target
  share_value : ∀ v, (value v).share = value v.share
  node_none : node none = none
  maxCallDepth_config : ∀ c, (config c).maxCallDepth = c.maxCallDepth
  rest_fields : ∀ (w : World) (id : InstanceId) (f : Instance → Variables),
    rest (w.modifyInstance id fun i => { i with fields := f i }).instances = rest w.instances
  memory_release : ∀ m vs, memory (m.release vs) = (memory m).release (vs.map value)
  memory_retain : ∀ m v, memory (m.retain v) = (memory m).retain (value v)
  operate_memory : ∀ m op v right, (memory m).operate op (value v) (value right) =
    ((m.operate op v right).1, value (m.operate op v right).2.1, memory (m.operate op v right).2.2)
  ensureArray_memory : ∀ m v, (memory m).ensureArray (value v) none =
    (value (m.ensureArray v none).1, memory (m.ensureArray v none).2)
  storeNested_memory : ∀ m v path new copy, (memory m).storeNested (value v) path (value new) copy none =
    (value (m.storeNested v path new copy none).1, memory (m.storeNested v path new copy none).2)
  peekNested_memory : ∀ m v path, (memory m).peekNested (value v) path = (m.peekNested v path).map value
  replaceSlot_memory : ∀ m slot owner v, (memory m).replaceSlot (value slot) (node owner) (value v) =
    (value (m.replaceSlot slot owner v).1, memory (m.replaceSlot slot owner v).2)
  storeInSlot_memory : ∀ m slot owner path v copy,
    (memory m).storeInSlot (value slot) (node owner) path (value v) copy =
      (value (m.storeInSlot slot owner path v copy).1, memory (m.storeInSlot slot owner path v copy).2)

namespace Eraser
variable (R : Eraser)

/-! ### Values -/

theorem value_cases (v : Value) : R.value v = v ∧ v.isArray = false ∨
    ∃ h h', v = .array h ∧ R.value v = .array h' ∧ h'.target = h.target := by
  cases v with
  | array h =>
    obtain ⟨h', hvalue, htarget⟩ := R.value_array h
    exact Or.inr ⟨h, h', rfl, hvalue, htarget⟩
  | _ => exact Or.inl ⟨R.value_plain _ rfl, rfl⟩

@[simp] theorem value_undefined : R.value .undefined = .undefined := R.value_plain _ rfl

theorem coerce_value (t : CastTarget) (v : Value) : (R.value v).coerce t = v.coerce t := by
  rcases R.value_cases v with ⟨hvalue, -⟩ | ⟨h, h', rfl, hvalue, -⟩
  · rw [hvalue]
  · rw [hvalue]
    cases t <;> rfl

theorem exact_value (t : CastTarget) (v : Value) : (R.value v).exact t = v.exact t := by
  rcases R.value_cases v with ⟨hvalue, -⟩ | ⟨h, h', rfl, hvalue, -⟩
  · rw [hvalue]
  · rw [hvalue]
    cases t <;> rfl

theorem num?_value (v : Value) : (R.value v).num? = v.num? := by
  rcases R.value_cases v with ⟨hvalue, -⟩ | ⟨h, h', rfl, hvalue, -⟩ <;> rw [hvalue]
  rfl

theorem related_value (r : Relation) (a b : Value) : Value.related r (R.value a) (R.value b) = Value.related r a b := by
  simp only [Value.related, Value.order, num?_value]

theorem equals_value (a b : Value) : (R.value a).equals (R.value b) = a.equals b := by
  rcases R.value_cases a with ⟨ha, hplain⟩ | ⟨h, h', rfl, ha, htarget⟩ <;>
    rcases R.value_cases b with ⟨hb, hplain'⟩ | ⟨k, k', rfl, hb, htarget'⟩ <;> rw [ha, hb]
  · cases a <;> first | rfl | cases hplain
  · cases b <;> first | rfl | cases hplain'
  · simp [Value.equals, Value.num?, htarget, htarget']

theorem invert_value (v : Value) : (R.value v).invert = v.invert := by
  rcases R.value_cases v with ⟨hvalue, -⟩ | ⟨h, h', rfl, hvalue, -⟩ <;> rw [hvalue]
  rfl

theorem restore_value (v : Value) : Executor.restore (R.value v) = Executor.restore v := by
  rcases R.value_cases v with ⟨hvalue, -⟩ | ⟨h, h', rfl, hvalue, -⟩ <;> rw [hvalue]
  rfl

/-! ### Variables, instances and the world -/

def table (t : Variables) : Variables := ⟨t.entries.map fun e => (e.1, R.value e.2)⟩

theorem get?_table (t : Variables) (id : VariableId) : (R.table t).get? id = (t.get? id).map R.value := by
  obtain ⟨entries⟩ := t
  unfold Variables.get? table
  induction entries with
  | nil => rfl
  | cons e entries ih =>
    obtain ⟨key, v⟩ := e
    rw [List.map_cons, Variables.lookup_cons_eq, Variables.lookup_cons_eq, ih]
    split_ifs <;> rfl

theorem get_table (t : Variables) (id : VariableId) : (R.table t).get id = R.value (t.get id) := by
  rw [Variables.get, Variables.get, get?_table]
  cases t.get? id with
  | some v => rfl
  | none => exact R.value_undefined.symm

theorem table_set (t : Variables) (id : VariableId) (v : Value) :
    R.table (t.set id v) = (R.table t).set id (R.value v) := by
  obtain ⟨entries⟩ := t
  simp only [Variables.set, table, Variables.mk.injEq]
  induction entries with
  | nil => rfl
  | cons e entries ih =>
    obtain ⟨key, old⟩ := e
    simp only [Variables.setIn, List.map_cons]
    split_ifs
    · rfl
    · rw [List.map_cons, ih]

def inst (i : Instance) : Instance :=
  { i with fields := R.table i.fields, builtins := R.builtins i.builtins, node := R.node i.node }

def world (w : World) : World := { w with instances := w.instances.map R.inst, globals := R.table w.globals }

variable (w : World)

theorem instance?_world (id : InstanceId) : (R.world w).instance? id = (w.instance? id).map R.inst := by
  simp only [World.instance?, world, List.find?_map]
  rfl

theorem world_modifyInstance {f g : Instance → Instance} (hfg : ∀ i, R.inst (f i) = g (R.inst i)) (id : InstanceId) :
    R.world (w.modifyInstance id f) = (R.world w).modifyInstance id g := by
  simp only [World.modifyInstance, world, World.mk.injEq, true_and, and_true, List.map_map]
  apply List.map_congr_left
  intro i _
  have hid : (R.inst i).id = i.id := rfl
  simp only [Function.comp_apply, hid]
  split_ifs
  · exact hfg i
  · rfl

theorem world_setField (instanceId : InstanceId) (id : VariableId) (v : Value) :
    R.world (w.modifyInstance instanceId fun i => { i with fields := i.fields.set id v }) =
      (R.world w).modifyInstance instanceId fun i => { i with fields := i.fields.set id (R.value v) } :=
  R.world_modifyInstance w (fun i => by simp [inst, table_set]) instanceId

theorem active_world : (R.world w).active = w.active.map R.inst := by
  simp only [World.active, world, List.filter_map]
  rfl

theorem all_world : (R.world w).all = w.all := by
  simp only [World.all, active_world, List.map_map]
  rfl

theorem ofObject_world (object : Int64) : (R.world w).ofObject object = w.ofObject object := by
  simp only [World.ofObject, active_world, List.filter_map, List.map_map]
  rfl

theorem resolve_world (id : Int64) : (R.world w).resolve id = w.resolve id := by
  have hanchoring : (R.world w).anchoring = w.anchoring := rfl
  unfold World.resolve
  simp only [hanchoring, ofObject_world, instance?_world, Option.isSome_map]

/-! ### The operand stack -/

def executor (e : Executor) : Executor := { e with stack := e.stack.map R.value }

variable (e : Executor)

theorem size_executor : (R.executor e).stack.size = e.stack.size := Array.size_map

theorem toList_executor : (R.executor e).stack.toList = e.stack.toList.map R.value := Array.toList_map

theorem peek_executor (depth : Nat) : (R.executor e).peek depth = (e.peek depth).map R.value := by
  unfold Executor.peek
  cases Word.add depth 1 with
  | error f => rfl
  | ok places =>
    simp only [bind, Except.bind, size_executor]
    split_ifs
    · simp only [executor, Array.getElem?_map]
      cases e.stack[e.stack.size - places]? with
      | none => rfl
      | some v => rfl
    · rfl

theorem executor_push (v : Value) : R.executor (e.push v) = (R.executor e).push (R.value v) := by
  simp [Executor.push, executor]

theorem executor_setSlot (slot : Nat) (v : Value) : R.executor (e.setSlot slot v) = (R.executor e).setSlot slot (R.value v) := by
  simp [Executor.setSlot, executor]

theorem valuesFrom_executor (slot : Nat) : (R.executor e).valuesFrom slot = (e.valuesFrom slot).map (List.map R.value) := by
  unfold Executor.valuesFrom
  rw [size_executor, toList_executor]
  split_ifs
  · simp [Except.map]
  · rfl

theorem localSlot_executor (index : UInt32) : (R.executor e).localSlot index = e.localSlot index := by
  unfold Executor.localSlot
  have hbase : (R.executor e).base = e.base := rfl
  rw [hbase, size_executor]

theorem slot_executor (slot : Nat) :
    ((R.executor e).stack[slot]?).getD .undefined = R.value ((e.stack[slot]?).getD .undefined) := by
  simp only [executor, Array.getElem?_map]
  cases e.stack[slot]? with
  | none => exact R.value_undefined.symm
  | some v => rfl

theorem localValue_executor (index : UInt32) : (R.executor e).localValue index = (e.localValue index).map R.value := by
  unfold Executor.localValue
  rw [localSlot_executor]
  cases e.localSlot index with
  | error f => rfl
  | ok slot => exact congrArg Except.ok (R.slot_executor e slot)

theorem removeSlot_executor (slot : Nat) :
    (R.executor e).removeSlot slot = (e.removeSlot slot).map fun p => (R.value p.1, R.executor p.2) := by
  unfold Executor.removeSlot
  by_cases h : slot < e.stack.size
  · have h' : slot < (R.executor e).stack.size := by rwa [size_executor]
    have hstack : (e.stack.map R.value).eraseIdx slot (by simpa) = (e.stack.eraseIdx slot).map R.value := by
      rw [← Array.toList_inj, Array.toList_eraseIdx, Array.toList_map, Array.toList_map, Array.toList_eraseIdx,
        List.eraseIdx_map]
    rw [dif_pos h, dif_pos h']
    simp only [executor, hstack, Array.getElem_map, Except.map]
  · have h' : ¬ slot < (R.executor e).stack.size := by rwa [size_executor]
    rw [dif_neg h, dif_neg h']
    rfl

theorem swapSlots_executor (i j : Nat) : (R.executor e).swapSlots i j = (e.swapSlots i j).map R.executor := by
  unfold Executor.swapSlots
  by_cases h : i < e.stack.size ∧ j < e.stack.size
  · have h' : i < (R.executor e).stack.size ∧ j < (R.executor e).stack.size := by rwa [size_executor]
    have hstack : (e.stack.map R.value).swap i j (by simpa using h.1) (by simpa using h.2) =
        (e.stack.swap i j h.1 h.2).map R.value := by
      apply Array.ext_getElem?
      intro k
      simp only [Array.getElem?_map, Array.getElem?_swap, Array.getElem_map]
      split_ifs <;> rfl
    rw [dif_pos h, dif_pos h']
    simp only [executor, hstack, Except.map]
  · have h' : ¬ (i < (R.executor e).stack.size ∧ j < (R.executor e).stack.size) := by rwa [size_executor]
    rw [dif_neg h, dif_neg h']
    rfl

/-! ### The state of execution -/

/-- What an eraser leaves of the state. -/
def core (c : Core) : Core :=
  { c with
    executor := R.executor c.executor
    world := R.world c.world
    memory := R.memory c.memory
    config := R.config c.config }

variable (c : Core)

theorem size_core : (R.core c).executor.stack.size = c.executor.stack.size := R.size_executor c.executor

theorem owner_core (id : Int64) : (R.core c).owner id = c.owner id := by
  have hall : (R.core c).world.all = c.world.all := R.all_world c.world
  have hresolve : (R.core c).world.resolve id = c.world.resolve id := R.resolve_world c.world id
  unfold Core.owner
  rw [hall, hresolve]
  rfl

theorem core_reset : R.core c.reset = (R.core c).reset := by
  have hstack : (R.core c).executor.stack.toList = c.executor.stack.toList.map R.value := R.toList_executor c.executor
  unfold Core.reset
  rw [hstack]
  simp only [core, R.memory_release]
  simp [Executor.reset, executor]

end Eraser
end ScriptVm
