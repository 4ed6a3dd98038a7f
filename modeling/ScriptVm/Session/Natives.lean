import ScriptVm.Session.Debugger

/-! The natives that scripts can call. -/

namespace ScriptVm.MachineSession

abbrev Body := List Value → Host (Except Fault (Option Value))

/-- A native that is a piece of execution with a result. -/
def computing (f : List Value → Exec Value) : Body := fun vs => exec (some <$> f vs)

def doing (f : List Value → Host (Except Fault Unit)) : Body := fun vs => do
  match ← f vs with
  | .ok () => return .ok none
  | .error f => return .error f

/-- Shows how it was called. -/
def echo (name : String) : Body := computing fun vs => do
  let m := (← get).memory
  return .string (name ++ "(" ++ String.intercalate "," (vs.map m.text) ++ ")")

def argument : Body := computing fun vs => do
  let index ← ofExcept ((vs.headD .undefined).coerce .size)
  Exec.share (← ofExcept ((← get).executor.argument index.toNat))

def argumentCount : Body := computing fun _ => do
  return .uint (← ofExcept (← get).executor.argumentCount).toUInt64

def stackHeight : Body := computing fun _ => return .uint (← get).executor.stack.size.toUInt64

def sum : Body := computing fun vs => ofExcept (vs.foldlM (Operator.apply .add) (.int 0))

def log : Body := doing fun vs => do
  note (.log (← Program.read fun m => m.core.memory.text (vs.headD .undefined)))
  return .ok ()

/-- Calls the section that the first argument names with the others; gives its first result. -/
def callSection : Body
  | [] => return .error (.raised .misc "call needs a section")
  | target :: arguments => do
    match target.exact .uint64 with
    | .error f => return .error f
    | .ok index =>
      match ← Program.run (.call index.toUInt32 arguments) with
      | .error failure => return .error failure.fault
      | .ok .suspended => return .ok (some (.string "suspended"))
      | .ok (.finished []) => return .ok (some .undefined)
      | .ok (.finished (first :: rest)) =>
        drop rest
        return .ok (some first)

def collect : Body := computing fun _ => do
  return .uint (← modifyGet Core.collect).toUInt64

def create : Body := computing fun vs => do
  let object ← ofExcept ((vs.headD .undefined).coerce .int64)
  let id ← modifyGet fun c =>
    let (id, world, memory) := c.world.create c.memory object
    (id, { c with world, memory })
  return .int (.ofInt id.toNat)

def destroy : Body := computing fun vs => do
  let id ← ofExcept ((vs.headD .undefined).coerce .uint64)
  modify fun c => { c with world := c.world.destroy id.toUInt32 }
  return .undefined

/-- Removes the destroyed instances and counts the others. -/
def cleanup (tracked : Bool) : Exec Nat := modifyGet fun c =>
  let (world, memory) := c.memory.trackedIf tracked c.world.cleanup
  (world.instances.length, { c with world, memory })

def fail : Body := computing fun vs =>
  match vs with
  | [kind, message] => do
    let kind ← ofExcept (kind.exact .string)
    let message := (← get).memory.text message
    throw (.raised ((FaultKind.ofName? kind).getD .misc) message)
  | _ => return .undefined

def array : Body := computing fun vs => do
  let cells ← vs.mapM Exec.share
  modifyGet fun c =>
    let (v, memory) := c.memory.newArray #[cells.toArray]
    (v, { c with memory })

def trace : Body := computing fun _ => return .string (← get).trace.text

def detach : Body := fun _ => do
  Program.modify (·.detach)
  return .ok (some .undefined)

def hasDebugger : Body := fun _ => return .ok (some (.bool (← Program.read (·.hasDebugger))))

def refuse : Body := doing fun vs => do
  let text ← Program.read fun m => m.core.memory.text (vs.headD .undefined)
  return .error (.raised .type ("refused " ++ text))

def resume : Body := fun _ => do
  match ← callAndShow .resume with
  | .ok _ => return .ok (some .undefined)
  | .error failure => return .error failure.fault

def length : Body := computing fun vs =>
  match vs with
  | [v, row] => do
    let row ← ofExcept (row.exact .size)
    return .uint (← ofExcept ((← get).memory.rowLength v row.toNat)).toUInt64
  | _ => return .undefined

/-- The table of natives: seventeen that echo, by arity, and then those that do something. -/
def natives : Array (Native Debugger Note) :=
  (Array.range 17).map (fun n => ⟨s!"f{n}", .fixed n, echo s!"f{n}"⟩) ++ #[
    ⟨"argument", .fixed 1, argument⟩,
    ⟨"argc", .fixed 0, argumentCount⟩,
    ⟨"height", .fixed 0, stackHeight⟩,
    ⟨"sum", .variadic, sum⟩,
    ⟨"log", .silent, log⟩,
    ⟨"call", .variadic, callSection⟩,
    ⟨"gc", .fixed 0, collect⟩,
    ⟨"create", .fixed 1, create⟩,
    ⟨"destroy", .fixed 1, destroy⟩,
    ⟨"cleanup", .fixed 0, computing fun _ => return .uint (← cleanup true).toUInt64⟩,
    ⟨"fail", .fixed 2, fail⟩,
    ⟨"array", .variadic, array⟩,
    ⟨"trace", .fixed 0, trace⟩,
    ⟨"detach", .fixed 0, detach⟩,
    ⟨"has_debugger", .fixed 0, hasDebugger⟩,
    ⟨"refuse", .silent, refuse⟩,
    ⟨"resume", .fixed 0, resume⟩,
    ⟨"length", .fixed 2, length⟩]

end ScriptVm.MachineSession
