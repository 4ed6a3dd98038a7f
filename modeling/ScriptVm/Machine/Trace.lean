import ScriptVm.Code.Cursor
import ScriptVm.Fault

/-! Traces: the calls that were active when a fault was raised. A trace lists the outermost call
first; its text starts with the innermost one. -/

namespace ScriptVm

structure TraceEntry where
  name : String
  pc : Nat
  /-- The source line of the code just before `pc`. -/
  line : Option UInt32
deriving DecidableEq, Repr

def TraceEntry.text (e : TraceEntry) : String :=
  match e.line with
  | some line => s!"{e.name}: line {line.toNat}, pc {e.pc}"
  | none => s!"{e.name}: pc {e.pc}"

def Cursor.traceEntry (c : Cursor) : TraceEntry :=
  { name := c.home.name, pc := c.position, line := c.home.lineAt? (c.position - 1) }

abbrev Trace := List TraceEntry

def Trace.text (t : Trace) : String :=
  match t.reverse with
  | [] => "<no trace data>"
  | innermost :: callers =>
    "  at " ++ innermost.text ++ String.join (callers.map fun e => "\n  by " ++ e.text)

/-- A fault and the calls that were active when it was raised. -/
structure Failure where
  fault : Fault
  trace : Trace := []
deriving DecidableEq, Repr

def Failure.text (f : Failure) : String :=
  if f.trace.isEmpty then f.fault.message else f.fault.message ++ "\n" ++ f.trace.text

end ScriptVm
