import ScriptVm.Config
import ScriptVm.Machine.Executor
import ScriptVm.Machine.Trace

/-! What instructions work on, and the small operations they are made of. A value that is taken off
the stack belongs to the instruction: it must be moved on or dropped, also when a later step of the
instruction fails. -/

namespace ScriptVm

structure Core where
  executor : Executor := {}
  world : World := {}
  memory : Memory := {}
  sections : SectionTable := {}
  config : Config := {}
  /-- How many runs are in progress, each one inside the one before. -/
  runs : Nat := 0

/-- A piece of execution. What it changed before a fault stays changed. -/
abbrev Exec := EStateM Fault Core

namespace Core

/-- The active calls; the place the outermost one returns to is not one of them. -/
def trace (c : Core) : Trace :=
  if c.executor.callers.isEmpty then []
  else (c.executor.callers.toList.drop 1 ++ [c.executor.pc]).map Cursor.traceEntry

/-- What an owner id denotes: five negative ids have fixed meanings, the other negative ones denote
nothing, and the rest is up to the world. -/
def owner (c : Core) (id : Int64) : Owner :=
  let single (id : Option InstanceId) : Owner := (id.map Owner.single).getD .noone
  if id = OwnerId.self then single c.executor.self
  else if id = OwnerId.other then single c.executor.other
  else if id = OwnerId.all then .multi c.world.all
  else if id = OwnerId.global then .global
  else if 0 ≤ id.toInt then c.world.resolve id
  else .noone

/-- A collector pass in which the arrays on the operand stack count as roots. -/
def collect (c : Core) : Nat × Core :=
  let roots := c.executor.stack.toList.filterMap c.memory.node?
  let (taken, memory) := c.memory.collect roots
  (taken.getD 0, { c with memory })

def reset (c : Core) : Core :=
  { c with
    memory := c.memory.release c.executor.stack.toList
    executor := c.executor.reset }

end Core

namespace Exec
variable {α : Type}

def onExecutor (x : EStateM Fault Executor α) : Exec α := fun c =>
  match x c.executor with
  | .ok a executor => .ok a { c with executor }
  | .error f executor => .error f { c with executor }

def push (v : Value) : Exec Unit := modify fun c => { c with executor := c.executor.push v }

def pop : Exec Value := onExecutor Executor.pop

def drop (vs : List Value) : Exec Unit := modify fun c => { c with memory := c.memory.release vs }

/-- Runs a step that the values must survive; if it fails they are dropped. -/
def orDrop (vs : List Value) (x : Exec α) : Exec α := fun c =>
  match x c with
  | .ok a c => .ok a c
  | .error f c => .error f { c with memory := c.memory.release vs }

/-- Runs a step that only looks at the values, which are dropped in the end. -/
def thenDrop (vs : List Value) (x : Exec α) : Exec α := fun c =>
  match x c with
  | .ok a c => .ok a { c with memory := c.memory.release vs }
  | .error f c => .error f { c with memory := c.memory.release vs }

def share (v : Value) : Exec Value := modifyGet fun c =>
  let (v, memory) := c.memory.share v
  (v, { c with memory })

def pushShared (v : Value) : Exec Unit := do push (← share v)

def popCoerced (t : CastTarget) : Exec t.Carrier := do
  let v ← pop
  drop [v]
  ofExcept (v.coerce t)

def popExact (t : CastTarget) : Exec t.Carrier := do
  let v ← pop
  drop [v]
  ofExcept (v.exact t)

/-- Takes a place in an array off the stack: the column lies above the row. -/
def popCell : Exec Cell := do
  let col ← popCoerced .int
  let row ← popCoerced .int
  if 0 ≤ row.toInt ∧ 0 ≤ col.toInt then return (row.toInt.toNat, col.toInt.toNat)
  else throw (.invalidIndex row col)

/-- Takes a path of cells off the stack, the outermost array's cell on top. -/
def popPath : Nat → Exec (List Cell)
  | 0 => return []
  | n + 1 => return (← popCell) :: (← popPath n)

def popOwner : Exec Owner := do
  let id ← popCoerced .int64
  return (← get).owner id

/-- Leaves a scope; what was saved at its start is on top of the stack. -/
def leaveScope : Exec Unit := do
  let saved ← pop
  drop [saved]
  onExecutor (Executor.leaveScope saved)

def setCondition (b : Bool) : Exec Unit :=
  modify fun c => { c with executor := { c.executor with condition := b } }

def localSlot (index : UInt32) : Exec Nat := do ofExcept ((← get).executor.localSlot index)

def localValue (index : UInt32) : Exec Value := do ofExcept ((← get).executor.localValue index)

def topSlot : Exec Nat := do
  let size := (← get).executor.stack.size
  if size = 0 then throw .underflow
  return size - 1

/-- Replaces the value in a slot of the stack by what an operation on memory makes of it. -/
def updateSlot (slot : Nat) (f : Memory → Value → α × Value × Memory) : Exec α := fun c =>
  let (a, v, memory) := f c.memory ((c.executor.stack[slot]?).getD .undefined)
  .ok a { c with memory, executor := c.executor.setSlot slot v }

def operateSlot (op : Operator) (slot : Nat) (right : Value) : Exec Unit := do
  ofExcept (← updateSlot slot fun m v => m.operate op v right)

/-- Goes to the start of a section; the present place becomes the one to return to. -/
def enterSection (index : UInt32) : Exec Unit := do
  let c ← get
  if c.config.maxCallDepth ≤ c.executor.depth then throw .tooDeep
  match c.sections.get index with
  | .error e => throw (.code e)
  | .ok home =>
    modify fun c => { c with
      executor := { c.executor with callers := c.executor.callers.push c.executor.pc, pc := { home := home } } }

end Exec

def Section.checkArguments (s : Section) (given : Nat) : Except Fault Unit :=
  match s.parameters with
  | some expected =>
    if expected.toNat = given then .ok () else .error (.argumentCount s.name expected given)
  | none => .ok ()

end ScriptVm
