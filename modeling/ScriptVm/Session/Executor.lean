import ScriptVm.Machine.Instruction
import ScriptVm.Session.Literal

/-! Scripts over the state of execution alone. -/

namespace ScriptVm

structure ExecutorView where
  stack : List Snapshot
  base : Nat
  depth : Nat
  /-- The name of the section the program counter is in. -/
  home : String
  position : Nat
  iterations : Nat
  condition : Bool
  copying : Bool
  self : Option InstanceId
  other : Option InstanceId

def Core.view (c : Core) : ExecutorView :=
  let e := c.executor
  { stack := e.stack.toList.map c.memory.snapshot
    base := e.base
    depth := e.depth
    home := e.pc.home.name
    position := e.pc.position
    iterations := e.iterations.size
    condition := e.condition
    copying := e.copying
    self := e.self
    other := e.other }

namespace ExecutorSession

inductive Step where
  | push (value : Literal)
  | pop
  | peek (depth : Nat)
  | replaceTop (value : Literal)
  | localValue (index : UInt32)
  | setLocal (index : UInt32) (value : Literal)
  | belowBase (index : Nat)
  | argumentCount
  | argument (index : Nat)
  | enterScope (id : Option InstanceId)
  | leaveScope
  | reset
  | setBase (base : Nat)
  | setSelf (id : Option InstanceId)
  | setOther (id : Option InstanceId)
  | summary

inductive Reply where
  | nothing
  | value (v : Snapshot)
  | size (n : Nat)
  | text (s : String)

def build (l : Literal) : Exec Value := modifyGet fun c =>
  let (v, memory) := l.build c.memory
  (v, { c with memory })

def modifyExecutor (f : Executor → Executor) : Exec Unit :=
  modify fun c => { c with executor := f c.executor }

def look (v : Value) : Exec Reply := do return .value ((← get).memory.snapshot v)

def Step.perform : Step → Exec Reply
  | .push l => do
    Exec.push (← build l)
    return .nothing
  | .pop => do
    let v ← Exec.pop
    let reply ← look v
    Exec.drop [v]
    return reply
  | .peek depth => do look (← ofExcept ((← get).executor.peek depth))
  | .replaceTop l => do
    let v ← build l
    let slot ← Exec.orDrop [v] Exec.topSlot
    let old ← Exec.updateSlot slot fun m old => (old, v, m)
    let reply ← look old
    Exec.drop [old]
    return reply
  | .localValue index => do look (← Exec.localValue index)
  | .setLocal index l => do
    Exec.storeLocal index (← build l)
    return .nothing
  | .belowBase index => do look (← ofExcept ((← get).executor.belowBase index))
  | .argumentCount => do return .size (← ofExcept (← get).executor.argumentCount)
  | .argument index => do look (← ofExcept ((← get).executor.argument index))
  | .enterScope id => do
    modifyExecutor (·.enterScope id)
    return .nothing
  | .leaveScope => do
    Exec.leaveScope
    return .nothing
  | .reset => do
    modify Core.reset
    return .nothing
  | .setBase base => do
    modifyExecutor fun e => { e with base }
    return .nothing
  | .setSelf id => do
    modifyExecutor fun e => { e with self := id }
    return .nothing
  | .setOther id => do
    modifyExecutor fun e => { e with other := id }
    return .nothing
  | .summary => do return .text (← get).executor.summary

/-- Runs the steps and gives for each the reply and the state afterwards; stops at a crash. -/
def run (c : Core) : List Step → List (Except Fault Reply × ExecutorView)
  | [] => []
  | step :: steps =>
    match step.perform c with
    | .ok reply c => (.ok reply, c.view) :: run c steps
    | .error .crash _ => []
    | .error f c => (.error f, c.view) :: run c steps

def start (copying : Bool) : Core := { executor := { copying := copying } }

end ExecutorSession
end ScriptVm
