import ScriptVm.Code.Cursor
import ScriptVm.Value.Cast
import ScriptVm.World.Iteration

/-! The state of execution. There are no frame objects: the arguments of a call, their number, the
saved base of the caller's locals, the locals and the temporaries all lie on the one operand stack,
in this order, and `base` is where the locals begin. -/

namespace ScriptVm

/-- The section in which nothing runs, where the program counter rests between calls. Each reset
sends it to another one. -/
def Section.host (resets : Nat) : Section := { name? := some "<host>", id := .rest resets }

namespace Word

/-- The sum of two machine words, which must be one. -/
def add (a b : Nat) : Except Fault Nat :=
  if a + b < UInt64.size then .ok (a + b) else .error .crash

def sub (a b : Nat) : Except Fault Nat := if b ≤ a then .ok (a - b) else .error .crash

theorem add_eq_ok_iff {a b n : Nat} : add a b = .ok n ↔ a + b < UInt64.size ∧ a + b = n := by
  unfold add
  split <;> rename_i hword
  · simp [hword]
  · simp [hword]

theorem sub_of_le {a b : Nat} (h : b ≤ a) : sub a b = .ok (a - b) := if_pos h

end Word

structure Executor where
  stack : Array Value := #[]
  base : Nat := 0
  /-- Where the callers go on, the outermost first. -/
  callers : Array Cursor := #[]
  pc : Cursor := { home := .host 0 }
  /-- Open iterations, the innermost last. -/
  iterations : Array Iteration := #[]
  condition : Bool := false
  copying : Bool := true
  self : Option InstanceId := none
  other : Option InstanceId := none
  resets : Nat := 0

namespace Executor

def depth (e : Executor) : Nat := e.callers.size

def push (e : Executor) (v : Value) : Executor := { e with stack := e.stack.push v }

/-- The value `depth` places below the top. -/
def peek (e : Executor) (depth : Nat) : Except Fault Value := do
  let places ← Word.add depth 1
  if places ≤ e.stack.size then
    match e.stack[e.stack.size - places]? with
    | some v => .ok v
    | none => .error .underflow
  else .error .underflow

theorem peek_of_lt {e : Executor} {depth : Nat} (hword : depth + 1 < UInt64.size)
    (h : depth < e.stack.size) : e.peek depth = .ok e.stack[e.stack.size - 1 - depth] := by
  have hslot : e.stack.size - (depth + 1) < e.stack.size := by omega
  unfold peek
  rw [Word.add_eq_ok_iff.2 ⟨hword, rfl⟩]
  change (if depth + 1 ≤ e.stack.size then _ else _) = _
  rw [if_pos (Nat.succ_le_of_lt h), Array.getElem?_eq_getElem hslot]
  simp only [Nat.sub_sub, Nat.add_comm 1]

theorem peek_of_le {e : Executor} {depth : Nat} (hword : depth + 1 < UInt64.size)
    (h : e.stack.size ≤ depth) : e.peek depth = .error .underflow := by
  unfold peek
  rw [Word.add_eq_ok_iff.2 ⟨hword, rfl⟩]
  exact if_neg (Nat.not_le_of_lt (Nat.lt_succ_of_le h))

theorem peek_eq_ok {e : Executor} {depth : Nat} {v : Value} (h : e.peek depth = .ok v) :
    ∃ _ : depth < e.stack.size, e.stack[e.stack.size - 1 - depth] = v := by
  by_cases hword : depth + 1 < UInt64.size
  · by_cases hdepth : depth < e.stack.size
    · rw [peek_of_lt hword hdepth] at h
      exact ⟨hdepth, Except.ok.inj h⟩
    · rw [peek_of_le hword (Nat.le_of_not_lt hdepth)] at h
      cases h
  · unfold peek Word.add at h
    rw [if_neg hword] at h
    cases h

def pop : EStateM Fault Executor Value := fun e =>
  match e.stack.back? with
  | some v => .ok v { e with stack := e.stack.pop }
  | none => .error .underflow e

def setSlot (e : Executor) (slot : Nat) (v : Value) : Executor :=
  { e with stack := e.stack.setIfInBounds slot v }

/-- The values from a slot on. The slot must be on the stack or right above it. -/
def valuesFrom (e : Executor) (slot : Nat) : Except Fault (List Value) :=
  if slot ≤ e.stack.size then .ok (e.stack.toList.drop slot) else .error .crash

def removeSlot (e : Executor) (slot : Nat) : Except Fault (Value × Executor) :=
  if h : slot < e.stack.size then .ok (e.stack[slot], { e with stack := e.stack.eraseIdx slot })
  else .error .crash

def swapSlots (e : Executor) (i j : Nat) : Except Fault Executor :=
  if h : i < e.stack.size ∧ j < e.stack.size then
    .ok { e with stack := e.stack.swap i j h.1 h.2 }
  else .error .crash

def localSlot (e : Executor) (index : UInt32) : Except Fault Nat := do
  let slot ← Word.add e.base index.toNat
  if slot < e.stack.size then .ok slot else .error (.noLocal index)

theorem localSlot_eq_ok {e : Executor} {index : UInt32} {slot : Nat} (h : e.localSlot index = .ok slot) :
    slot = e.base + index.toNat ∧ slot < e.stack.size := by
  unfold localSlot at h
  cases hword : Word.add e.base index.toNat with
  | error f =>
    rw [hword] at h
    cases h
  | ok sum =>
    obtain ⟨-, rfl⟩ := Word.add_eq_ok_iff.1 hword
    rw [hword] at h
    change (if e.base + index.toNat < e.stack.size then _ else _) = _ at h
    split at h <;> cases h
    exact ⟨rfl, ‹_›⟩

def localValue (e : Executor) (index : UInt32) : Except Fault Value := do
  return (e.stack[← e.localSlot index]?).getD .undefined

/-- The value `index` places below the locals: the saved base, the number of arguments, then the
arguments from the last to the first. -/
def belowBase (e : Executor) (index : Nat) : Except Fault Value := do
  let places ← Word.add index 1
  if places ≤ e.base then
    match e.stack[e.base - places]? with
    | some v => .ok v
    | none => .error .underflow
  else .error .underflow

def argumentCount (e : Executor) : Except Fault Nat := do
  return (← (← e.belowBase 1).exact .size).toNat

/-- An argument of the running call, the first one being number zero. -/
def argument (e : Executor) (index : Nat) : Except Fault Value := do
  let count ← e.argumentCount
  if count ≤ index then throw (.noArgument index count)
  e.belowBase (← Word.add (count - index) 1)

def saved : Option InstanceId → Value
  | some id => .pointer id.toUInt64
  | none => .undefined

def restore : Value → Except Fault (Option InstanceId)
  | .undefined => .ok none
  | .pointer p => if p.toNat < UInt32.size then .ok (some p.toUInt32) else .error .corruptInstance
  | v => .error (.notAnInstance v.kind.name)

/-- Enters the scope of an instance: `other` is saved on the stack and `self` takes its place. -/
def enterScope (e : Executor) (id : Option InstanceId) : Executor :=
  { e.push (saved e.other) with other := e.self, self := id }

/-- Leaves a scope. `self` is back even if what was saved is no instance. -/
def leaveScope (v : Value) : EStateM Fault Executor Unit := fun e =>
  let e := { e with self := e.other }
  match restore v with
  | .ok other => .ok () { e with other }
  | .error f => .error f e

/-- Forgets all calls. Flags and scope stay; the values of the stack are the caller's to drop. -/
def reset (e : Executor) : Executor :=
  { e with
    stack := #[]
    base := 0
    callers := #[]
    pc := { home := .host (e.resets + 1) }
    iterations := #[]
    resets := e.resets + 1 }

def instanceSummary : Option InstanceId → String
  | some id => s!"Some(InstanceId({id.toNat}))"
  | none => "None"

def summary (e : Executor) : String :=
  s!"Executor \x7b stack_len: {e.stack.size}, locals_start: {e.base}, depth: {e.depth}, " ++
    s!"pc: {e.pc.summary}, with_depth: {e.iterations.size}, status_cond: {e.condition}, " ++
    s!"status_cow: {e.copying}, self_id: {instanceSummary e.self}, " ++
    s!"other_id: {instanceSummary e.other} \x7d"

end Executor
end ScriptVm
