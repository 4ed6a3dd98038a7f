import ScriptVm.Machine.Basic
import ScriptVm.Number.Decimal
import ScriptVm.Text.Quoted

/-! Summaries of a world and of a whole machine, for people. -/

namespace ScriptVm

def Value.summary : Value → String
  | .undefined => "Undefined"
  | .bool b => s!"Bool({b})"
  | .int i => s!"Int32({i.toInt})"
  | .uint n => s!"UInt64({n.toNat})"
  | .real x => "Real(" ++ Decimal.detailed64 x ++ ")"
  | .string s => "String(" ++ Quoted.ofString s ++ ")"
  | .array ⟨none, _⟩ => "Array(ArrayHandle(null))"
  | .array ⟨some a, _⟩ => s!"Array(ArrayHandle({a}))"
  | .pointer p => s!"Pointer(Pointer({p.toNat}))"

def braced (items : List String) : String := "\x7b" ++ String.intercalate ", " items ++ "\x7d"

def Variables.summary (t : Variables) : String :=
  braced (t.entries.map fun (id, v) => s!"{id.toNat}: {v.summary}")

def Instance.summary (i : Instance) : String :=
  s!"BasicInstance \x7b id: {Executor.instanceSummary (some i.id)}, object_index: {i.object.toInt}, " ++
    s!"variables: {i.fields.summary}, builtins: {i.builtins.summary}, active: {i.active} \x7d"

def World.summary (w : World) : String :=
  let instances := braced (w.instances.map fun i => s!"InstanceId({i.id.toNat}): {i.summary}")
  let order := w.instances.map fun i => s!"InstanceId({i.id.toNat})"
  "BasicFrame \x7b instances: " ++ instances ++ ", order: [" ++ String.intercalate ", " order ++
    s!"], globals: {w.globals.summary}, next_id: {w.nextId.toNat} \x7d"

/-- A summary of the machine; the number of natives is the environment's to know. -/
def Machine.summary {δ ν : Type} (m : Machine δ ν) (natives : Nat) : String :=
  let collector := match m.core.memory.collector with
    | some c => "Some(" ++ c.summary ++ ")"
    | none => "None"
  let suspended := match m.suspended with
    | some n => s!"Some({n.toNat})"
    | none => "None"
  s!"Vm \x7b executor: {m.core.executor.summary}, frame: {m.core.world.summary}, " ++
    s!"sections: {m.core.sections.size}, natives: {natives}, gc: {collector}, " ++
    s!"debugger: {m.debugger.isSome}, suspended: {suspended} \x7d"

end ScriptVm
