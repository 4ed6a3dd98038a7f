import ScriptVm.Code.Cursor

/-! Stepping. A step is asked for at one place of the program and is over at the first place that
satisfies it. -/

namespace ScriptVm

inductive StepUnit where
  | statement
  | instruction
deriving DecidableEq, Repr

inductive StepReach where
  | into
  /-- At the depth of the start or above it. -/
  | over
  /-- In a caller. -/
  | out
  /-- Anywhere but in the section of the start, at its depth or above it. -/
  | finish
deriving DecidableEq, Repr

structure StepIntent where
  unit : StepUnit
  reach : StepReach
deriving DecidableEq, Repr

/-- A step that is under way: what is wanted and where it started. -/
structure PendingStep where
  intent : StepIntent
  depth : Nat
  home : Section
deriving DecidableEq, Repr

def Cursor.startsStatement (c : Cursor) : Bool := c.home.symbols?.any (·.startsAt c.position)

namespace PendingStep

/-- Whether the section of the start has been left. -/
def left (s : PendingStep) (pc : Cursor) (depth : Nat) : Bool :=
  depth < s.depth || (depth == s.depth && !s.home.sameAs pc.home)

def reaches (s : PendingStep) (pc : Cursor) (depth : Nat) : Bool :=
  match s.intent.reach with
  | .into => true
  | .over => depth ≤ s.depth
  | .out => depth < s.depth
  | .finish => s.left pc depth

def satisfied (s : PendingStep) (pc : Cursor) (depth : Nat) : Bool :=
  (s.intent.unit == .instruction || pc.startsStatement) && s.reaches pc depth

end PendingStep

/-- Watches for the end of a step, if one is under way. -/
structure Tracker where
  step? : Option PendingStep := none
deriving DecidableEq, Repr

namespace Tracker

/-- Starts a step here; no intent means none. -/
def begin (intent? : Option StepIntent) (pc : Cursor) (depth : Nat) : Tracker :=
  ⟨intent?.map fun intent => { intent, depth, home := pc.home }⟩

def intent? (t : Tracker) : Option StepIntent := t.step?.map (·.intent)

/-- Whether to pause at this place. The step is then over. -/
def visit (t : Tracker) (pc : Cursor) (depth : Nat) : Bool × Tracker :=
  if t.step?.any (·.satisfied pc depth) then (true, {}) else (false, t)

end Tracker
end ScriptVm
