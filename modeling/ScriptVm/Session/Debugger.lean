import ScriptVm.Machine.Control
import ScriptVm.Machine.Stepping
import ScriptVm.Heap.Tree

/-! A debugger that follows a script. It counts its turns and does at each what the script says. -/

namespace ScriptVm.MachineSession

/-- What came of a call, the results as they stood when it ended. -/
inductive CallReply where
  | finished (results : List Snapshot)
  | suspended

structure Script where
  name : String
  traces : Bool := false
  inline : Bool := false
  /-- Whether each turn is noted. -/
  ticks : Bool := false
  /-- The turn at which to detach the debugger. -/
  detachAt : Option Nat := none
  /-- The turn at which to attach another debugger. -/
  attachAt : Option (Nat × Script) := none
  /-- The turn at which to call a section. -/
  evaluateAt : Option (Nat × UInt32) := none
  /-- Steps through the program; no intent means that nothing is waited for. -/
  stepping : Option (Option StepIntent) := none
  /-- The turn at which to fail. -/
  failAt : Option Nat := none
deriving Inhabited

/-- A debugger with its script; without one it never does anything. -/
structure Debugger where
  script : Option Script := none
  turns : Nat := 0
  tracker : Tracker := {}

inductive Note where
  | log (text : String)
  | tick (name home : String) (pc depth : Nat)
  | hasDebugger (b : Bool)
  | evaluated (outcome : Except Failure CallReply)
  | pause (home : String) (pc depth : Nat) (line : Option UInt32)

abbrev Host := HostCode Debugger Note

def exec {α : Type} (x : Exec α) : Host (Except Fault α) := Program.state (·.exec x)

def note (n : Note) : Host Unit := Program.modify (·.tell (.note n))

def drop (vs : List Value) : Host Unit := Program.modify fun m => (m.exec (Exec.drop vs)).2

/-- Has a section run and shows the results, which are dropped. -/
def callAndShow (entry : Entry) : Host (Except Failure CallReply) := do
  match ← Program.run entry with
  | .error failure => return .error failure
  | .ok .suspended => return .ok .suspended
  | .ok (.finished vs) =>
    let shown ← Program.read fun m => vs.map m.core.memory.snapshot
    drop vs
    return .ok (.finished shown)

def noteDebugger : Host Unit := do note (.hasDebugger (← Program.read (·.hasDebugger)))

namespace Debugger

/-- Notes the turn, detaches, attaches and calls as the script says. -/
def act (s : Script) (turn : Nat) : Host Unit := do
  if s.ticks then
    let e ← Program.read (·.core.executor)
    note (.tick s.name e.pc.home.name e.pc.position e.depth)
  if s.detachAt = some turn then
    Program.modify (·.detach)
    noteDebugger
  match s.attachAt with
  | some (due, other) =>
    if due = turn then
      Program.modify (·.attach { script := some other })
      noteDebugger
  | none => pure ()
  match s.evaluateAt with
  | some (due, index) =>
    if due = turn then note (.evaluated (← callAndShow (.call index [])))
  | none => pure ()

/-- Follows the program by steps: a pause is noted, and the next step starts there. -/
def follow (s : Script) (turn : Nat) (tracker : Tracker) : Host Tracker := do
  match s.stepping with
  | none => return tracker
  | some intent =>
    let e ← Program.read (·.core.executor)
    let again := Tracker.begin intent e.pc e.depth
    if turn = 1 then return again
    match tracker.visit e.pc e.depth with
    | (true, _) =>
      note (.pause e.pc.home.name e.pc.position e.depth (e.pc.home.lineAt? e.pc.position))
      return again
    | (false, tracker) => return tracker

def tick (d : Debugger) : Host (Except Fault Unit × Debugger) := do
  match d.script with
  | none => return (.ok (), d)
  | some s =>
    let turns := d.turns + 1
    act s turns
    let tracker ← follow s turns d.tracker
    let result := if s.failAt = some turns then .error (.raised .misc "debugger stop") else .ok ()
    return (result, { d with turns, tracker })

end Debugger

def debugging : Debugging Debugger Note :=
  { tick := Debugger.tick
    traces := fun d => d.script.any (·.traces)
    inline := fun d => d.script.any (·.inline) }

end ScriptVm.MachineSession
