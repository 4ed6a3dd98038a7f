import ScriptVm.Machine.Trace
import ScriptVm.Value.Basic

/-! Code of the host: natives, debuggers, and what the host does between calls. It works on the state
of the machine and may have sections run, any number of times; what it does next may depend on how
such a run ended. -/

namespace ScriptVm

/-- A way in which the host has a section run. -/
inductive Entry where
  /-- Calls a section with arguments and collects its results. The arguments stay the caller's. -/
  | call (index : UInt32) (arguments : List Value)
  /-- Runs a section and leaves its results on the operand stack. Arguments and their number are there
  already if it is `ready`. -/
  | execute (index : UInt32) (ready : Bool)
  | resume

/-- How a run ended that did not fail. -/
inductive Execution where
  | finished (results : List Value)
  | suspended
deriving DecidableEq, Repr

/-- Host code on a state `σ` with a result. -/
inductive Program (σ α : Type) where
  | finish (a : α)
  | act (f : σ → Program σ α × σ)
  | enter (entry : Entry) (next : Except Failure Execution → Program σ α)

namespace Program
variable {σ α β : Type}

mutual

def bind : Program σ α → (α → Program σ β) → Program σ β
  | .finish a, k => k a
  | .act f, k => .act fun s => bindResult (f s) k
  | .enter entry next, k => .enter entry fun r => (next r).bind k

def bindResult : Program σ α × σ → (α → Program σ β) → Program σ β × σ
  | (p, s), k => (p.bind k, s)

end

instance : Monad (Program σ) where
  pure := finish
  bind := bind

def state (f : σ → α × σ) : Program σ α :=
  .act fun s =>
    let (a, s) := f s
    (.finish a, s)

def modify (f : σ → σ) : Program σ Unit := .act fun s => (.finish (), f s)

def read (f : σ → α) : Program σ α := .act fun s => (.finish (f s), s)

def run (entry : Entry) : Program σ (Except Failure Execution) := .enter entry .finish

end Program
end ScriptVm
