import ScriptVm.Proofs.Erasure
import ScriptVm.Proofs.ErasedExecution

/-! The eraser of the collector's bookkeeping: node ids, nodes and flags of roots go, all else stays. -/

namespace ScriptVm

/-- Takes the collector's bookkeeping away, as under a configuration without a collector. -/
def Eraser.bookkeeping : Eraser where
  value := Value.share
  memory := Memory.erased
  node := fun _ => none
  builtins := fun t => ⟨t.entries.map fun e => (e.1, e.2.share)⟩
  config := fun c => { c with collecting := false }
  rest := fun _ => []
  value_plain v hv := by cases v <;> first | rfl | cases hv
  value_array h := ⟨h.share, rfl, rfl⟩
  share_value _ := rfl
  node_none := rfl
  maxCallDepth_config _ := rfl
  rest_fields _ _ _ := rfl
  memory_release m vs := by rw [Memory.release_share, Memory.erased_release]
  memory_retain m v := by rw [Memory.retain_share, Memory.erased_retain]
  operate_memory := Memory.operate_erased
  ensureArray_memory m v := m.ensureArray_erased v none none
  storeNested_memory m v path new copy := m.storeNested_erased v path new copy none none
  peekNested_memory := Memory.peekNested_erased
  replaceSlot_memory m slot owner v := m.replaceSlot_erased slot v owner none
  storeInSlot_memory m slot owner path v copy := m.storeInSlot_erased slot path v copy owner none

namespace Eraser
variable (w : World) (m : Memory) (i : Instance)

theorem get?_builtins (var : VariableId) :
    (bookkeeping.inst i).builtins.get? var = (i.builtins.get? var).map Value.share :=
  bookkeeping.get?_table i.builtins var

theorem get_builtins (var : VariableId) : (bookkeeping.inst i).builtins.get var = (i.builtins.get var).share :=
  bookkeeping.get_table i.builtins var

theorem world_setBuiltins (instanceId : InstanceId) (var : VariableId) (v : Value) :
    bookkeeping.world (w.modifyInstance instanceId fun i => { i with builtins := i.builtins.set var v }) =
      (bookkeeping.world w).modifyInstance instanceId fun i => { i with builtins := i.builtins.set var v.share } := by
  refine bookkeeping.world_modifyInstance w (fun i => ?_) instanceId
  have hset : bookkeeping.builtins (i.builtins.set var v) = (bookkeeping.builtins i.builtins).set var v.share :=
    bookkeeping.table_set i.builtins var v
  simp only [inst, hset]

theorem setBuiltin_bookkeeping (var : VariableId) (v : Value) :
    (bookkeeping.world w).setBuiltin m.erased (bookkeeping.inst i) var v.share =
      ((w.setBuiltin m i var v).1, bookkeeping.world (w.setBuiltin m i var v).2.1, (w.setBuiltin m i var v).2.2.erased) := by
  have hadmits : (bookkeeping.world w).admitsBuiltin (bookkeeping.inst i) var = w.admitsBuiltin i var := by
    have hanchoring : (bookkeeping.world w).anchoring = w.anchoring := rfl
    unfold World.admitsBuiltin
    rw [get?_builtins, hanchoring, Option.isSome_map]
  unfold World.setBuiltin
  rw [hadmits, get_builtins]
  split_ifs
  · simp only [world_setBuiltins, Memory.erased_release]
    rw [← Memory.release_share _ [i.builtins.get var]]
    rfl
  · simp only [Memory.erased_release]
    rw [← Memory.release_share _ [v]]
    rfl

theorem storeBuiltinCell_bookkeeping (var : VariableId) (cell : Cell) (v : Value) :
    (bookkeeping.world w).storeBuiltinCell m.erased (bookkeeping.inst i) var cell v.share =
      ((w.storeBuiltinCell m i var cell v).1, bookkeeping.world (w.storeBuiltinCell m i var cell v).2.1,
        (w.storeBuiltinCell m i var cell v).2.2.erased) := by
  have hanchoring : (bookkeeping.world w).anchoring = w.anchoring := rfl
  unfold World.storeBuiltinCell
  rw [hanchoring, get_builtins]
  cases w.anchoring with
  | roots =>
    simp only [Memory.erased_release]
    rw [← Memory.release_share _ [v]]
    rfl
  | nodes =>
    have hstored := Memory.untracked_erased (f := (·.store (i.builtins.get var) cell v true none))
      (g := (·.store (i.builtins.get var).share cell v.share true none)) (e := Value.share)
      (fun m => m.store_erased (i.builtins.get var) cell v true none none) m
    simp only [hstored, world_setBuiltins]
    rfl

theorem builtin_bookkeeping (var : VariableId) :
    (bookkeeping.world w).builtin (bookkeeping.inst i) var = (w.builtin i var).map Value.share := by
  have hanchoring : (bookkeeping.world w).anchoring = w.anchoring := rfl
  unfold World.builtin
  rw [get?_builtins, hanchoring]
  cases i.builtins.get? var with
  | some v => rfl
  | none => cases w.anchoring <;> rfl

theorem builtinCell_bookkeeping (var : VariableId) (cell : Cell) :
    (bookkeeping.world w).builtinCell m.erased (bookkeeping.inst i) var cell =
      (w.builtinCell m i var cell).map Value.share := by
  have hanchoring : (bookkeeping.world w).anchoring = w.anchoring := rfl
  unfold World.builtinCell
  rw [hanchoring]
  cases w.anchoring with
  | roots => rfl
  | nodes =>
    dsimp only
    rw [builtin_bookkeeping]
    cases w.builtin i var with
    | error f => rfl
    | ok v => exact m.peek_erased v cell

theorem leavesBuiltins_bookkeeping : bookkeeping.LeavesBuiltins where
  rest_eq _ _ := rfl
  setBuiltin := setBuiltin_bookkeeping
  storeBuiltinCell := storeBuiltinCell_bookkeeping
  builtin := builtin_bookkeeping
  builtinCell := builtinCell_bookkeeping

end Eraser
end ScriptVm
