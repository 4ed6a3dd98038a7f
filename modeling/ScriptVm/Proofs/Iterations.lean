import ScriptVm.Proofs.CallDepth
import ScriptVm.Proofs.Passages

/-! Loops over instances. The state of such a loop lies in three places: its snapshot among the open iterations, the
number of that iteration on the operand stack, and below it what `other` was. A body that leaves these alone is
started once for each instance of the snapshot, whatever becomes of the instances meanwhile. -/

namespace ScriptVm
variable {δ ν ρ : Type}

namespace Executor

/-- Inside an iteration that was opened in the state `e₀`, when these values lay below the owner. -/
structure Iterating (e₀ : Executor) (below : Array Value) (it : Iteration) (e : Executor) : Prop where
  stack : e.stack = (below.push (saved e₀.other)).push (.uint e₀.iterations.size.toUInt64)
  other : e.other = e₀.self
  iterations : e.iterations = e₀.iterations.push it

/-- The stack, `other` and the open iterations are the same. -/
structure SameScope (e e' : Executor) : Prop where
  stack : e'.stack = e.stack
  other : e'.other = e.other
  iterations : e'.iterations = e.iterations

end Executor

namespace Exec
variable {c : Core} {below : Array Value}

theorem next_of_ok {x : Exec Unit} {c' : Core} (h : x c = .ok () c') :
    (x >>= fun _ => pure Flow.next : Exec Flow) c = .ok .next c' := by
  simp only [bind, EStateM.bind, h]
  rfl

theorem pop_of_push {v : Value} (h : c.executor.stack = below.push v) :
    pop c = .ok v { c with executor := { c.executor with stack := below } } := by
  have hback : c.executor.stack.back? = some v := by rw [h, Array.back?_push]
  have hpop : c.executor.stack.pop = below := by rw [h, Array.pop_push]
  simp only [pop, onExecutor, Executor.pop, hback, hpop]

theorem popOwner_of_push {v : Value} {id : Int64} (h : c.executor.stack = below.push v)
    (hid : v.coerce .int64 = .ok id) :
    popOwner c = .ok (c.owner id) { c with
      executor := { c.executor with stack := below }, memory := c.memory.release [v] } := by
  simp only [popOwner, popCoerced, bind, EStateM.bind, pop_of_push h, drop, hid, modify, modifyGet,
    MonadStateOf.modifyGet, EStateM.modifyGet]
  rfl

theorem execute_wti (natives : UInt32 → Option Signature) {v : Value} {id : Int64}
    (h : c.executor.stack = below.push v) (hid : v.coerce .int64 = .ok id) :
    ∃ c', Instruction.execute natives ⟨.wti, ()⟩ c = .ok .next c' ∧ c'.executor.pc = c.executor.pc ∧
      c.executor.Iterating below (.ofOwner (c.owner id)) c'.executor := by
  have heffect : (popOwner >>= openIteration) c = openIteration (c.owner id) { c with
      executor := { c.executor with stack := below }, memory := c.memory.release [v] } := by
    simp only [bind, EStateM.bind, popOwner_of_push h hid]
  exact ⟨_, next_of_ok heffect, rfl, rfl, rfl, rfl⟩

theorem branch_of_le {target : Int32} {position : Nat} (htarget : target.toInt = position)
    (hle : position ≤ c.executor.pc.home.size) :
    branch target c = .ok () (c.withPc ⟨c.executor.pc.home, position⟩) := by
  have hseek : Cursor.seek target c.executor.pc = .ok () ⟨c.executor.pc.home, position⟩ := by
    unfold Cursor.seek
    rw [if_pos (by omega), htarget]
    rfl
  unfold branch
  rw [hseek]
  rfl

theorem execute_jmp (natives : UInt32 → Option Signature) {target : Int32} {position : Nat}
    (htarget : target.toInt = position) (hle : position ≤ c.executor.pc.home.size) :
    Instruction.execute natives ⟨.jmp, (target, ())⟩ c = .ok .next (c.withPc ⟨c.executor.pc.home, position⟩) :=
  next_of_ok (branch_of_le htarget hle)

end Exec

/-! ### The loop -/

/-- The places of a loop over instances in a section. -/
structure Loop where
  home : Section
  /-- Where the iteration is opened. -/
  start : Nat
  /-- Where it goes on to the next instance. -/
  top : Nat
  /-- The branch out of the loop. -/
  test : Nat
  body : Nat
  /-- The jump back to the top. -/
  last : Nat
  done : Nat

namespace Loop

def place (l : Loop) (position : Nat) : Cursor := ⟨l.home, position⟩

/-- The section has the instructions of a loop in these places. The body can be anything. -/
structure Written (l : Loop) : Prop where
  start : Cursor.readInstruction (l.place l.start) = .ok ⟨.wti, ()⟩ (l.place l.top)
  top : Cursor.readInstruction (l.place l.top) = .ok ⟨.wty, ()⟩ (l.place l.test)
  test : ∃ exit : Int32, exit.toInt = l.done ∧
    Cursor.readInstruction (l.place l.test) = .ok ⟨.bcond, (exit, ())⟩ (l.place l.body)
  last : ∃ (back : Int32) (after : Nat), back.toInt = l.top ∧
    Cursor.readInstruction (l.place l.last) = .ok ⟨.jmp, (back, ())⟩ (l.place after)
  top_le : l.top ≤ l.home.size
  done_le : l.done ≤ l.home.size

variable (env : Environment δ ν) (l : Loop) (e₀ : Executor) (below : Array Value)

end Loop

namespace State.At
variable {env : Environment δ ν} {l : Loop} {below : Array Value} {s : State δ ν ρ}

theorem opens (hl : l.Written) (h : s.At env (l.place l.start)) {v : Value} {id : Int64}
    (hstack : s.machine.core.executor.stack = below.push v) (hid : v.coerce .int64 = .ok id) :
    ∃ s₁, Passes env [l.place l.start] s s₁ ∧ s₁.At env (l.place l.top) ∧ s₁.waiting = s.waiting ∧
      s.machine.core.executor.Iterating below (.ofOwner (s.machine.core.owner id)) s₁.machine.core.executor := by
  obtain ⟨c, hexecute, hpc, hstack', hother, hiterations⟩ :=
    Exec.execute_wti env.signature? (c := s.machine.core.withPc (l.place l.top)) hstack hid
  obtain ⟨s₁, hpasses, hat, rfl, hwaiting⟩ := h.passes hl.start hexecute hpc
  exact ⟨s₁, hpasses, hat, hwaiting, hstack', hother, hiterations⟩

variable {e₀ : Executor} {it : Iteration}

theorem returns (hl : l.Written) (h : s.At env (l.place l.last)) :
    ∃ t, Passes env [l.place l.last] s t ∧ t.At env (l.place l.top) ∧
      s.machine.core.executor.SameScope t.machine.core.executor ∧ t.waiting = s.waiting := by
  obtain ⟨back, after, hback, hlast⟩ := hl.last
  obtain ⟨t, hpasses, hat, hcore, hwaiting⟩ :=
    h.passes hlast (Exec.execute_jmp env.signature? (c := s.machine.core.withPc (l.place after)) hback hl.top_le) rfl
  exact ⟨t, hpasses, hat, hcore ▸ ⟨rfl, rfl, rfl⟩, hwaiting⟩

end State.At

namespace Loop
variable {env : Environment δ ν} {l : Loop} {below : Array Value} {s s₁ : State δ ν ρ} {e₀ : Executor}

end Loop

/-! ### A loop that keeps the last instance -/

/-- Stores `self` in a global for each instance of an object. -/
def visiting : Section :=
  { code := (List.flatMap Instruction.encode [⟨.ldiS32, (2, ())⟩, ⟨.wti, ()⟩, ⟨.wty, ()⟩, ⟨.bcond, (23, ())⟩,
      ⟨.ldiSelf, ()⟩, ⟨.stg, (0, ())⟩, ⟨.jmp, (6, ())⟩]).toArray }

def visitingLoop : Loop := { home := visiting, start := 5, top := 6, test := 7, body := 12, last := 18, done := 23 }

def State.visiting : State Unit Unit Unit :=
  { machine := { Machine.new {} {} with
      core := {
        executor := { stack := #[.int 2], pc := visitingLoop.place 5, self := some 100000, other := some 100002 }
        world := { instances := [⟨100000, 1, {}, {}, true, none⟩, ⟨100001, 2, {}, {}, true, none⟩,
          ⟨100002, 2, {}, {}, true, none⟩], nextId := 100003 } } }
    focus := .tick }

end ScriptVm
