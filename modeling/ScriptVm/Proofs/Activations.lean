import ScriptVm.Proofs.Turns

/-! Calls from beginning to end, with all that runs inside them. What a call finds below its arguments is
there again when it returns, and its arguments can be looked at as long as it runs: every move of its own
leaves the cells below its locals alone, and a call inside it does so because it is such a call too. -/

namespace ScriptVm
variable {δ ν ρ : Type}

structure Core.Retains (k : Nat) (c c' : Core) : Prop where
  base : c'.executor.base = c.executor.base
  callers : c'.executor.callers = c.executor.callers
  runs : c'.runs = c.runs
  stack : c.executor.stack.toList.take k <+: c'.executor.stack.toList

namespace Core.Retains
variable {k : Nat} {c c' : Core}

theorem of_eq (h : c' = c) : c.Retains k c' := by
  subst h
  exact ⟨rfl, rfl, rfl, List.take_prefix _ _⟩

theorem laden (vs : List Value) (memory : Memory) : c.Retains k (c.laden vs memory) := by
  refine ⟨rfl, rfl, rfl, ?_⟩
  rw [c.toList_laden]
  exact (List.take_prefix _ _).trans (List.prefix_append _ _)

theorem of_withPc {pc : Cursor} (h : (c.withPc pc).Retains k c') : c.Retains k c' :=
  ⟨h.base, h.callers, h.runs, h.stack⟩

theorem isPrefix (h : c.Retains k c') {cells : List Value} (hcells : cells <+: c.executor.stack.toList)
    (hk : k = cells.length) : cells <+: c'.executor.stack.toList := by
  have htake := h.stack
  rwa [hk, ← List.prefix_iff_eq_take.1 hcells] at htake

end Core.Retains

/-! ### Moves that call nothing -/

namespace State
variable {env : Environment δ ν} {m : Machine δ ν} {waiting : List (Waiting δ ν ρ)} {s' : State δ ν ρ} {k : Nat}

/-- An instruction that enters no section and is neither `all` nor `ret`. -/
theorem retains_dispatch {cells : List Value} (hbase : m.core.executor.base = cells.length)
    (hcells : cells <+: m.core.executor.stack.toList)
    (hreach : ∀ i next, Cursor.readInstruction m.core.executor.pc = .ok i next →
      i.op ≠ .all ∧ i.op ≠ .ret ∧
        m.core.executor.base + i.reach env.signature? (m.core.withPc next) ≤ m.core.executor.stack.size)
    (hwaiting : (dispatch env m waiting).waiting = waiting) :
    m.core.Retains cells.length (dispatch env m waiting).machine.core := by
  unfold dispatch at hwaiting ⊢
  cases hread : Cursor.readInstruction m.core.executor.pc with
  | error e pc =>
    rw [Machine.exec_of_error (Exec.step_of_unread hread)]
    exact ⟨rfl, rfl, rfl, List.take_prefix _ _⟩
  | ok i next =>
    obtain ⟨hall, hret, hroom⟩ := hreach i next hread
    have hstep : Exec.step env.signature? m.core = _ := Exec.step_of_read hread
    by_cases hcall : i.op = .call
    · obtain ⟨op, operands⟩ := i
      cases hcall
      rcases Exec.execute_call_cases env.signature? operands.1 operands.2.1 (m.core.withPc next) with
        ⟨home, -, hentered⟩ | ⟨f, vs, hfailed⟩
      · rw [Machine.exec_of_ok (hstep.trans hentered)] at hwaiting
        exact absurd hwaiting (List.cons_ne_self _ _)
      · rw [Machine.exec_of_error (hstep.trans hfailed)]
        exact (Core.Retains.laden vs _).of_withPc
    · have habove : (m.core.withPc next).Above cells (i.reach env.signature? (m.core.withPc next)) := by
        refine ⟨hbase, ?_⟩
        obtain ⟨above, habove⟩ := hcells
        refine ⟨above, habove.symm, ?_⟩
        rw [← Array.length_toList, ← habove, List.length_append] at hroom
        omega
      have hends := i.above_execute hall hcall hret habove
      have hshift := i.shift_execute env.signature? (m.core.withPc next)
      have hretains : ∀ c', Shift i (m.core.withPc next).bearings c'.bearings → c'.Above cells 0 →
          m.core.Retains cells.length c' := by
        intro c' hbearings hkept
        obtain ⟨hb, hcallers, hruns⟩ := hbearings.keeps hall hcall hret
        refine ⟨hb, hcallers, hruns, ?_⟩
        rw [← List.prefix_iff_eq_take.1 hcells]
        exact hkept.isPrefix
      cases hexecute : i.execute env.signature? (m.core.withPc next) with
      | error f c' =>
        rw [hexecute] at hends hshift
        rw [Machine.exec_of_error (hstep.trans hexecute)]
        exact hretains c' hshift.1 hends
      | ok flow c' =>
        rw [hexecute] at hends hshift
        rw [Machine.exec_of_ok (hstep.trans hexecute)] at hwaiting ⊢
        have hkept := hretains c' hshift hends
        cases flow with
        | entered => exact absurd hwaiting (List.cons_ne_self _ _)
        | native index arguments =>
          dsimp only
          cases env.native? index <;> exact hkept
        | _ => exact hkept

theorem dispatch_of_returned {c : Core} (h : Exec.step env.signature? m.core = .ok .returned c) :
    dispatch env m waiting = ⟨{ m with core := c }, .leave (.ok false), waiting⟩ := by
  unfold dispatch
  rw [Machine.exec_of_ok h]

/-- Host code that wants a section to run and is refused. -/
theorem retains_enter (hruns : m.core.runs ≠ 0) (next : Except Failure Execution → Task δ ν ρ) (entry : Entry)
    (hwaiting : (enter m waiting next entry).waiting = waiting) :
    m.core.Retains k (enter m waiting next entry).machine.core := by
  cases entry with
  | call index arguments =>
    rcases enter_call_cases m waiting next index arguments with
      ⟨home, memory, -, -, hentered⟩ | ⟨failure, hrefused⟩ | ⟨memory, failure, hrefused⟩
    · rw [hentered] at hwaiting
      exact absurd hwaiting (List.cons_ne_self _ _)
    · rw [hrefused]
      exact .of_eq rfl
    · -- what failed inside a run resets nothing
      rw [hrefused, Machine.abandon, if_neg (show (m.laden _ memory).core.runs ≠ 0 from hruns)]
      exact .laden _ memory
  | execute index ready =>
    rcases enter_execute_cases m waiting next index ready with ⟨home, -, hentered⟩ | ⟨failure, hrefused⟩
    · rw [hentered] at hwaiting
      exact absurd hwaiting (List.cons_ne_self _ _)
    · rw [hrefused]
      exact .laden _ _
  | resume =>
    unfold enter at hwaiting ⊢
    cases hsuspended : m.suspended with
    | none => exact .of_eq rfl
    | some results =>
      simp only [hsuspended] at hwaiting
      exact absurd hwaiting (List.cons_ne_self _ _)

end State

/-! ### Calls -/

/-- A call of a section, as it was made. The number of arguments is one that can be read back, and the
stack is one that a machine can have. -/
structure Activation (δ ν ρ : Type) where
  before : State δ ν ρ
  home : Section
  back : Cursor
  /-- The stack before the arguments were pushed. -/
  below : List Value
  arguments : List Value
  count : Value
  counted : count.exact .size = .ok (.ofNat arguments.length)
  fits : below.length + arguments.length + 2 < UInt64.size
  based : before.machine.core.executor.base < UInt64.size

inductive Phase where
  /-- Nothing was dispatched yet. -/
  | opening
  | running
  | suspended
deriving DecidableEq

def State.topValues (s : State δ ν ρ) (count : Nat) : List Value :=
  s.machine.core.executor.stack.toList.drop (s.machine.core.executor.stack.size - count)

/-- Whether the one who waits is going to take so many results, if any. -/
def Waiting.awaits (results : UInt8) : Waiting δ ν ρ → Prop
  | .caller n _ => n = results
  | _ => True

namespace Activation

/-- The cells of the stack that the call needs: those of its caller, the arguments and their number, and the
saved base once it has opened its locals. -/
def cells (A : Activation δ ν ρ) : Phase → List Value
  | .opening => A.below ++ A.arguments ++ [A.count]
  | _ => A.below ++ A.arguments ++ [A.count, .uint A.before.machine.core.executor.base.toUInt64]

/-- The ways to make a call: by an instruction, or by host code that hands the arguments over, has pushed
them and their number itself, or has none. -/
inductive Made (A : Activation δ ν ρ) : Prop where
  | instruction (index : UInt32) (count : UInt8) :
      A.before.focus = .dispatch →
      Cursor.readInstruction A.before.machine.core.executor.pc = .ok ⟨.call, (index, count, ())⟩ A.back →
      A.before.machine.core.sections.get index = .ok A.home →
      A.before.machine.core.executor.stack.toList = A.below ++ A.arguments →
      A.arguments.length = count.toNat → A.count = .int (.ofInt count.toNat) → Made A
  | call (index : UInt32) (arguments : List Value) (next : Except Failure Execution → Task δ ν ρ) :
      A.before.focus = .host (.enter (.call index arguments) next) →
      A.back = A.before.machine.core.executor.pc →
      A.before.machine.core.sections.get index = .ok A.home →
      A.before.machine.core.executor.stack.toList = A.below →
      A.arguments = arguments.map Value.share → A.count = .int (.ofInt arguments.length) → Made A
  | execute (index : UInt32) (ready : Bool) (next : Except Failure Execution → Task δ ν ρ) :
      A.before.focus = .host (.enter (.execute index ready) next) →
      A.back = A.before.machine.core.executor.pc →
      A.before.machine.core.sections.get index = .ok A.home →
      (if ready then A.before.machine.core.executor.stack.toList = A.below ++ A.arguments ++ [A.count]
        else A.before.machine.core.executor.stack.toList = A.below ∧ A.arguments = [] ∧ A.count = .int 0) → Made A

structure Begins (env : Environment δ ν) (A : Activation δ ν ρ) (s : State δ ν ρ) : Prop where
  made : A.Made
  step : A.before.step env = .inl s
  entered : s.focus = .tick

/-- A move of the call itself. It dispatches nothing before `all` and no second one, and no instruction
reaches below its locals; host code leaves the cells below and the call itself alone. -/
structure Moves (env : Environment δ ν) (A : Activation δ ν ρ) (phase : Phase) (s s' : State δ ν ρ) : Prop where
  step : s.step env = .inl s'
  waiting : s'.waiting = s.waiting
  instruction : s.focus = .dispatch → phase = .running ∧
    ∀ i next, Cursor.readInstruction s.machine.core.executor.pc = .ok i next → i.op ≠ .all ∧ i.op ≠ .ret ∧
      s.machine.core.executor.base + i.reach env.signature? (s.machine.core.withPc next) ≤
        s.machine.core.executor.stack.size
  host : s.acts = true ∨ phase = .suspended → s.machine.core.Retains (A.cells phase).length s'.machine.core

/-- The last instruction: a `ret` with as many results as the section has, all of them above the base. -/
structure AtReturn (A : Activation δ ν ρ) (s : State δ ν ρ) : Prop where
  focus : s.focus = .dispatch
  ret : ∃ next, Cursor.readInstruction s.machine.core.executor.pc = .ok ⟨.ret, (A.home.results, ())⟩ next
  room : s.machine.core.executor.base + A.home.results.toNat ≤ s.machine.core.executor.stack.size
  word : s.machine.core.executor.stack.size < UInt64.size

end Activation

/-- The moments of a call: who waits beneath it, and the state. Calls that are made inside it are such calls
themselves and return; what they leave on the stack is above the cells of the outer one. -/
inductive Active (env : Environment δ ν) :
    Activation δ ν ρ → Phase → List (Waiting δ ν ρ) → State δ ν ρ → Prop where
  | enter {A : Activation δ ν ρ} {s : State δ ν ρ} : A.Begins env s → Active env A .opening A.before.waiting s
  | move {A : Activation δ ν ρ} {phase : Phase} {ws : List (Waiting δ ν ρ)} {s s' : State δ ν ρ} :
      Active env A phase ws s → A.Moves env phase s s' → Active env A phase ws s'
  /-- The first instruction is `all`, on the stack that the section was called with. -/
  | all {A : Activation δ ν ρ} {ws : List (Waiting δ ν ρ)} {s s' : State δ ν ρ} {count : UInt32} {next : Cursor} :
      Active env A .opening ws s → s.focus = .dispatch →
      Cursor.readInstruction s.machine.core.executor.pc = .ok ⟨.all, (count, ())⟩ next →
      s.machine.core.executor.stack.size = (A.cells .opening).length →
      s.step env = .inl s' → Active env A .running ws s'
  | nested {A B : Activation δ ν ρ} {phase : Phase} {ws : List (Waiting δ ν ρ)} {s s₁ s₂ : State δ ν ρ} :
      Active env A phase ws B.before → (B.before.focus = .dispatch → phase = .running) →
      (A.cells phase).length ≤ B.below.length →
      Active env B .running B.before.waiting s → B.AtReturn s →
      s.step env = .inl s₁ → s₁.step env = .inl s₂ → Active env A phase ws s₂
  | suspend {A : Activation δ ν ρ} {ws : List (Waiting δ ν ρ)} {s s' : State δ ν ρ} {task : Task δ ν ρ} :
      Active env A .running ws s → s.focus = .leave (.ok true) → s.step env = .inl s' → s'.focus = .host task →
      Active env A .suspended ws s'
  /-- The host's code comes to its end and begins anew. -/
  | again {A : Activation δ ν ρ} {ws : List (Waiting δ ν ρ)} {s : State δ ν ρ} {r : ρ} {m : Machine δ ν}
      (code : Task δ ν ρ) : Active env A .suspended ws s → s.step env = .inr (r, m) →
      Active env A .suspended [] ⟨m, .host code, []⟩
  | resume {A : Activation δ ν ρ} {ws : List (Waiting δ ν ρ)} {s s' : State δ ν ρ}
      {next : Except Failure Execution → Task δ ν ρ} :
      Active env A .suspended ws s → s.focus = .host (.enter .resume next) →
      s.machine.suspended = some A.home.results → s.step env = .inl s' → Active env A .running ws s'

namespace Activation
variable {env : Environment δ ν} {A : Activation δ ν ρ} {phase : Phase} {ws : List (Waiting δ ν ρ)} {s s' : State δ ν ρ}

structure Holds (A : Activation δ ν ρ) (phase : Phase) (ws : List (Waiting δ ν ρ)) (s : State δ ν ρ) : Prop where
  base : s.machine.core.executor.base =
    if phase = .opening then A.before.machine.core.executor.base else (A.cells phase).length
  callers : s.machine.core.executor.callers = A.before.machine.core.executor.callers.push A.back
  runs : s.machine.core.runs = A.before.machine.core.runs + if phase = .suspended then 0 else 1
  cells : A.cells phase <+: s.machine.core.executor.stack.toList
  waiting : if phase = .suspended then s.waiting = ws else ∃ w, s.waiting = w :: ws ∧ w.awaits A.home.results

theorem Holds.retain (h : A.Holds phase ws s)
    (hretains : s.machine.core.Retains (A.cells phase).length s'.machine.core) (hwaiting : s'.waiting = s.waiting) :
    A.Holds phase ws s' where
  base := hretains.base.trans h.base
  callers := hretains.callers.trans h.callers
  runs := hretains.runs.trans h.runs
  cells := hretains.isPrefix h.cells rfl
  waiting := by
    rw [hwaiting]
    exact h.waiting

theorem Moves.retains (hmove : A.Moves env phase s s') (h : A.Holds phase ws s) :
    s.machine.core.Retains (A.cells phase).length s'.machine.core := by
  by_cases hhost : s.acts = true ∨ phase = .suspended
  · exact hmove.host hhost
  obtain ⟨hacts, hphase⟩ := not_or.1 hhost
  have hwait := h.waiting
  rw [if_neg hphase] at hwait
  obtain ⟨w, hwaiting, -⟩ := hwait
  have hruns : s.machine.core.runs ≠ 0 := by
    rw [h.runs, if_neg hphase]
    omega
  have hsame := hmove.waiting
  cases State.coreStep_of_step (Bool.eq_false_iff.2 hacts) hmove.step with
  | spares _ hcore => exact .of_eq hcore
  | dispatch m waiting =>
    obtain ⟨rfl, hreach⟩ := hmove.instruction rfl
    exact State.retains_dispatch h.base h.cells hreach hsame
  | leave m result waiting =>
    cases hwaiting
    rw [State.waiting_leave] at hsame
    exact absurd hsame.symm (List.cons_ne_self _ _)
  | enter m entry next waiting => exact State.retains_enter hruns next entry hsame
  | @native m waiting arguments result _ hsettled =>
    rcases result with f | _ | v <;> cases hsettled
    · exact ⟨rfl, rfl, rfl, List.take_prefix _ _⟩
    · exact ⟨rfl, rfl, rfl, List.take_prefix _ _⟩
    · refine ⟨rfl, rfl, rfl, ?_⟩
      change _ <+: (m.core.executor.stack.push v).toList
      rw [Array.toList_push]
      exact (List.take_prefix _ _).trans (List.prefix_append _ _)

/-! ### The moments of a call -/

theorem length_cells_opening (A : Activation δ ν ρ) :
    (A.cells .opening).length = A.below.length + A.arguments.length + 1 := by
  simp [cells]
  omega

theorem length_cells (A : Activation δ ν ρ) (hphase : phase ≠ .opening) :
    (A.cells phase).length = A.below.length + A.arguments.length + 2 := by
  cases phase with
  | opening => exact absurd rfl hphase
  | running | suspended =>
    simp [cells]
    omega

theorem cells_running (A : Activation δ ν ρ) :
    A.cells .running = A.cells .opening ++ [.uint A.before.machine.core.executor.base.toUInt64] := by
  simp [cells]

theorem Made.below_isPrefix (h : A.Made) : A.below <+: A.before.machine.core.executor.stack.toList := by
  cases h with
  | instruction _ _ _ _ _ hstack _ _ => exact ⟨_, hstack.symm⟩
  | call _ _ _ _ _ _ hstack _ _ => exact ⟨[], by rw [hstack, List.append_nil]⟩
  | execute _ ready _ _ _ _ hstack =>
    split_ifs at hstack
    · exact ⟨A.arguments ++ [A.count], by rw [hstack, List.append_assoc]⟩
    · exact ⟨[], by rw [hstack.1, List.append_nil]⟩

theorem holds_of_entering {m : Machine δ ν} {vs : List Value} {memory : Memory} {w : Waiting δ ν ρ}
    (hbase : m.core.executor.base = A.before.machine.core.executor.base)
    (hcallers : m.core.executor.callers = A.before.machine.core.executor.callers)
    (hruns : m.core.runs = A.before.machine.core.runs) (hpc : m.core.executor.pc = A.back)
    (hstack : m.core.executor.stack.toList ++ vs = A.below ++ A.arguments ++ [A.count]) (hw : w.awaits A.home.results)
    (home : Section) :
    A.Holds .opening ws ⟨{ m with core := (m.core.laden vs memory).entering home }.openRun, .tick, w :: ws⟩ where
  base := hbase
  callers := by
    rw [← hcallers, ← hpc]
    rfl
  runs := congrArg (· + 1) hruns
  cells := by
    change _ <+: (m.core.laden vs memory).executor.stack.toList
    rw [m.core.toList_laden, hstack]
    exact List.prefix_rfl
  waiting := ⟨w, rfl, hw⟩

theorem Begins.holds (h : A.Begins env s) : A.Holds .opening A.before.waiting s := by
  obtain ⟨hmade, hstep, hentered⟩ := h
  rcases hA : A.before with ⟨m, focus, ws⟩
  have hmachine : A.before.machine = m := by rw [hA]
  rw [hA] at hstep
  cases hmade with
  | instruction index count hfocus hread hhome hstack hlength hcount =>
    rw [hA] at hfocus
    rw [hmachine] at hread hstack
    cases hfocus
    obtain rfl := Sum.inl.inj hstep
    have hdispatch : Exec.step env.signature? m.core = _ := Exec.step_of_read hread
    unfold State.dispatch at hentered ⊢
    rcases Exec.execute_call_cases env.signature? index count (m.core.withPc A.back) with
      ⟨home, -, hcall⟩ | ⟨f, vs, hfailed⟩
    · rw [Machine.exec_of_ok (hdispatch.trans hcall)]
      refine holds_of_entering (m := { m with core := m.core.withPc A.back }) (by rw [hmachine]; rfl) (by rw [hmachine]; rfl)
        (by rw [hmachine]; rfl) rfl ?_ ?_ _
      · rw [hcount]
        exact congrArg (· ++ _) hstack
      · exact trivial
    · rw [Machine.exec_of_error (hdispatch.trans hfailed)] at hentered
      cases hentered
  | call index arguments next hfocus hback hhome hstack harguments hcount =>
    rw [hA] at hfocus
    rw [hmachine] at hback hhome hstack
    cases hfocus
    obtain rfl := Sum.inl.inj hstep
    rcases State.enter_call_cases m ws next index arguments with
      ⟨home, memory, hhome', -, hopened⟩ | ⟨failure, hrefused⟩ | ⟨memory, failure, hrefused⟩
    · cases hhome.symm.trans hhome'
      rw [hopened]
      refine holds_of_entering (by rw [hmachine]) (by rw [hmachine]) (by rw [hmachine]) hback.symm ?_ ?_ _
      · rw [hstack, harguments, hcount, List.append_assoc]
        rfl
      · exact rfl
    · rw [hrefused] at hentered
      cases hentered
    · rw [hrefused] at hentered
      cases hentered
  | execute index ready next hfocus hback hhome hstack =>
    rw [hA] at hfocus
    rw [hmachine] at hback hstack
    cases hfocus
    obtain rfl := Sum.inl.inj hstep
    rcases State.enter_execute_cases m ws next index ready with ⟨home, -, hopened⟩ | ⟨failure, hrefused⟩
    · rw [hopened]
      refine holds_of_entering (by rw [hmachine]) (by rw [hmachine]) (by rw [hmachine]) hback.symm ?_ ?_ _
      · split_ifs at hstack ⊢
        · rw [hstack, List.append_nil]
        · obtain ⟨hbelow, harguments, hcount⟩ := hstack
          rw [hbelow, harguments, hcount, List.append_nil]
      · exact trivial
    · rw [hrefused] at hentered
      cases hentered

/-- Opening the locals saves the base of the caller. -/
theorem Holds.all (h : A.Holds .opening ws s) (hfocus : s.focus = .dispatch) {count : UInt32} {next : Cursor}
    (hread : Cursor.readInstruction s.machine.core.executor.pc = .ok ⟨.all, (count, ())⟩ next)
    (hsize : s.machine.core.executor.stack.size = (A.cells .opening).length) (hstep : s.step env = .inl s') :
    A.Holds .running ws s' := by
  obtain ⟨m, focus, waiting⟩ := s
  cases hfocus
  obtain rfl := Sum.inl.inj hstep
  have hstack : m.core.executor.stack.toList = A.cells .opening :=
    (h.cells.eq_of_length (by rw [Array.length_toList]; exact hsize.symm)).symm
  have hopened : Exec.step env.signature? m.core = _ := Exec.step_of_read hread
  change A.Holds _ ws (State.dispatch env m waiting)
  unfold State.dispatch
  have hall : Instruction.execute env.signature? ⟨.all, (count, ())⟩ (m.core.withPc next) = .ok .next
      { m.core.withPc next with executor := { (m.core.withPc next).executor with
        base := (m.core.executor.stack.push (.uint m.core.executor.base.toUInt64)).size
        stack := m.core.executor.stack.push (.uint m.core.executor.base.toUInt64) ++
          Array.replicate count.toNat Value.undefined } } := rfl
  rw [Machine.exec_of_ok (hopened.trans hall)]
  refine ⟨?_, h.callers, h.runs, ?_, h.waiting⟩
  · change (m.core.executor.stack.push _).size = _
    rw [Array.size_push, hsize, length_cells_opening, if_neg (by decide), length_cells A (by decide)]
  · change _ <+: (m.core.executor.stack.push _ ++ _).toList
    rw [Array.toList_append, Array.toList_push, hstack, show m.core.executor.base = _ from h.base]
    exact ⟨List.replicate count.toNat .undefined, by simp [cells_running]⟩

/-- What is left when a call returns. The results are the top values, in the order in which they were pushed;
a caller that collects them gets them, for the others they stay on the stack. -/
structure Returned (A : Activation δ ν ρ) (w : Waiting δ ν ρ) (ws : List (Waiting δ ν ρ)) (results : List Value)
    (s : State δ ν ρ) : Prop where
  base : s.machine.core.executor.base = A.before.machine.core.executor.base
  callers : s.machine.core.executor.callers = A.before.machine.core.executor.callers
  runs : s.machine.core.runs = A.before.machine.core.runs
  pc : s.machine.core.executor.pc = A.back
  waiting : s.waiting = ws
  handed : match w with
    | .instruction => s.focus = .tick ∧ s.machine.core.executor.stack.toList = A.below ++ results
    | .caller _ next =>
      s.focus = .host (next (.ok (.finished results))) ∧ s.machine.core.executor.stack.toList = A.below
    | .executor next =>
      s.focus = .host (next (.ok (.finished []))) ∧ s.machine.core.executor.stack.toList = A.below ++ results

/-- Right after `ret`, the results are on the stack that the call was made on. -/
theorem Holds.ret (env : Environment δ ν) (h : A.Holds .running ws s) (hreturn : A.AtReturn s) :
    ∃ m, s.step env = .inl ⟨m, .leave (.ok false), s.waiting⟩ ∧
      m.core.executor.stack.toList = A.below ++ s.topValues A.home.results.toNat ∧
      m.core.executor.base = A.before.machine.core.executor.base ∧
      m.core.executor.callers = A.before.machine.core.executor.callers ∧ m.core.executor.pc = A.back ∧
      m.core.runs = s.machine.core.runs := by
  obtain ⟨m, focus, waiting⟩ := s
  obtain ⟨hfocus, ⟨next, hread⟩, hroom, hword⟩ := hreturn
  cases hfocus
  obtain ⟨above, habove⟩ := h.cells
  have hlength : (UInt64.ofNat A.arguments.length).toNat = A.arguments.length :=
    UInt64.toNat_ofNat_of_lt' (by have := A.fits; omega)
  have hsaved : A.before.machine.core.executor.base.toUInt64.toNat = A.before.machine.core.executor.base :=
    UInt64.toNat_ofNat_of_lt' A.based
  have hbase : m.core.executor.base = A.below.length + A.arguments.length + 2 :=
    h.base.trans (length_cells A (by decide))
  have hstack : m.core.executor.stack.toList = A.below ++ A.arguments ++
      [A.count, .uint A.before.machine.core.executor.base.toUInt64] ++ above := habove.symm
  have hsize : m.core.executor.stack.size = m.core.executor.base + above.length := by
    rw [← Array.length_toList, ← show A.cells .running ++ above = _ from habove, List.length_append, h.base,
      if_neg (by decide)]
  have htop : State.topValues ⟨m, .dispatch, waiting⟩ A.home.results.toNat =
      above.drop (above.length - A.home.results.toNat) := by
    have hcut : m.core.executor.stack.size - A.home.results.toNat =
        (A.cells .running).length + (above.length - A.home.results.toNat) := by
      have hlocals : m.core.executor.base = (A.cells .running).length := h.base
      dsimp only at hroom
      omega
    change m.core.executor.stack.toList.drop (m.core.executor.stack.size - _) = _
    rw [hcut, ← show A.cells .running ++ above = _ from habove, List.drop_length_add_append]
  dsimp only at hroom hword
  have henough : A.home.results.toNat ≤ above.length := by omega
  obtain ⟨memory, hleave⟩ := Exec.leaveSection_of_call (c := m.core.withPc next) hbase hstack A.counted hlength h.callers
    henough (lt_of_le_of_lt hroom hword)
  have hstep : Exec.step env.signature? m.core = _ := (Exec.step_of_read hread).trans (Exec.execute_ret hleave)
  refine ⟨_, congrArg Sum.inl (State.dispatch_of_returned hstep), ?_, hsaved, rfl, rfl, rfl⟩
  rw [htop]

theorem Holds.returned (env : Environment δ ν) (h : A.Holds .running ws s) (hreturn : A.AtReturn s) :
    ∃ w s₁ s₂, s.waiting = w :: ws ∧ s.step env = .inl s₁ ∧ s₁.step env = .inl s₂ ∧
      s₁.machine.core.executor.stack.toList = A.below ++ s.topValues A.home.results.toNat ∧
      A.Returned w ws (s.topValues A.home.results.toNat) s₂ := by
  obtain ⟨m, hret, hstack, hbase, hcallers, hpc, hruns⟩ := h.ret env hreturn
  obtain ⟨w, hwaiting, hawaits⟩ := h.waiting
  have hclosed : m.core.runs - 1 = A.before.machine.core.runs := by
    rw [hruns, h.runs]
    simp
  rw [hwaiting] at hret
  refine ⟨w, _, State.leave m (.ok false) (w :: ws), hwaiting, hret, rfl, hstack, ?_⟩
  cases w with
  | instruction => exact ⟨hbase, hcallers, hclosed, hpc, rfl, rfl, hstack⟩
  | executor next => exact ⟨hbase, hcallers, hclosed, hpc, rfl, rfl, hstack⟩
  | caller results next =>
    cases hawaits
    have hroom := hreturn.room
    have hlength : (s.topValues A.home.results.toNat).length = A.home.results.toNat := by
      rw [State.topValues, List.length_drop, Array.length_toList]
      omega
    have hpop : Exec.popMany A.home.results.toNat m.closeRun.core = _ := Exec.popMany_of_append hstack hlength
    simp only [State.leave, Machine.complete, Machine.exec_of_ok hpop]
    exact ⟨hbase, hcallers, hclosed, hpc, rfl, rfl, rfl⟩

/-- For the one who called, a call is a step that leaves alone what is below its arguments. -/
theorem Returned.retains {w : Waiting δ ν ρ} {results : List Value} (h : A.Returned w ws results s) (hmade : A.Made)
    {k : Nat} (hk : k ≤ A.below.length) : A.before.machine.core.Retains k s.machine.core := by
  have hbelow : A.below <+: s.machine.core.executor.stack.toList := by
    have hhanded := h.handed
    cases w with
    | instruction => exact ⟨results, hhanded.2.symm⟩
    | executor next => exact ⟨results, hhanded.2.symm⟩
    | caller n next => exact ⟨[], by rw [hhanded.2, List.append_nil]⟩
  refine ⟨h.base, h.callers, h.runs, ?_⟩
  obtain ⟨rest, hrest⟩ := hmade.below_isPrefix
  rw [← hrest, List.take_append_of_le_length hk]
  exact (List.take_prefix _ _).trans hbelow

theorem Holds.suspend (h : A.Holds .running ws s) (hfocus : s.focus = .leave (.ok true))
    (hstep : s.step env = .inl s') {task : Task δ ν ρ} (htask : s'.focus = .host task) :
    A.Holds .suspended ws s' := by
  obtain ⟨m, focus, waiting⟩ := s
  cases hfocus
  obtain ⟨w, hwaiting, -⟩ := h.waiting
  cases hwaiting
  obtain rfl := Sum.inl.inj hstep
  have hclosed : m.core.runs - 1 = A.before.machine.core.runs := by
    rw [h.runs]
    simp
  cases w with
  | instruction => cases htask
  | caller results next => exact ⟨h.base, h.callers, hclosed, h.cells, rfl⟩
  | executor next => exact ⟨h.base, h.callers, hclosed, h.cells, rfl⟩

theorem Holds.resume (h : A.Holds .suspended ws s) {next : Except Failure Execution → Task δ ν ρ}
    (hfocus : s.focus = .host (.enter .resume next)) (hsuspended : s.machine.suspended = some A.home.results)
    (hstep : s.step env = .inl s') : A.Holds .running ws s' := by
  obtain ⟨m, focus, waiting⟩ := s
  cases hfocus
  obtain rfl := Sum.inl.inj hstep
  have hentered : State.enter m waiting next .resume =
      ⟨{ m with suspended := none }.openRun, .tick, .caller A.home.results next :: waiting⟩ := by
    simp only [State.enter, show m.suspended = _ from hsuspended]
  change A.Holds _ _ (State.enter m waiting next .resume)
  rw [hentered]
  refine ⟨h.base, h.callers, ?_, h.cells, _, congrArg _ h.waiting, rfl⟩
  exact congrArg (· + 1) h.runs

end Activation

/-- The run: what holds at every moment of a call, however deep the calls inside it go. -/
theorem Active.holds {env : Environment δ ν} {A : Activation δ ν ρ} {phase : Phase} {ws : List (Waiting δ ν ρ)}
    {s : State δ ν ρ} (h : Active env A phase ws s) : A.Made ∧ A.Holds phase ws s := by
  induction h with
  | enter hbegins => exact ⟨hbegins.made, hbegins.holds⟩
  | move _ hmove ih => exact ⟨ih.1, ih.2.retain (hmove.retains ih.2) hmove.waiting⟩
  | all _ hfocus hread hsize hstep ih => exact ⟨ih.1, ih.2.all hfocus hread hsize hstep⟩
  | nested _ _ hfloor _ hreturn hstep₁ hstep₂ ih ihB =>
    obtain ⟨w, s₁', s₂', -, hret, hleave, -, hreturned⟩ := ihB.2.returned env hreturn
    cases hstep₁.symm.trans hret
    cases hstep₂.symm.trans hleave
    exact ⟨ih.1, ih.2.retain (hreturned.retains ihB.1 hfloor) hreturned.waiting⟩
  | suspend _ hfocus hstep htask ih => exact ⟨ih.1, ih.2.suspend hfocus hstep htask⟩
  | again code _ hstep ih =>
    have hsame := Run.finish_inr hstep
    refine ⟨ih.1, ?_, ?_, ?_, ?_, rfl⟩
    · rw [← hsame]
      exact ih.2.base
    · rw [← hsame]
      exact ih.2.callers
    · rw [← hsame]
      exact ih.2.runs
    · rw [← hsame]
      exact ih.2.cells
  | resume _ hfocus hsuspended hstep ih => exact ⟨ih.1, ih.2.resume hfocus hsuspended hstep⟩

/-- The stack discipline of calls. From `all` on, also while it is suspended, a call that keeps to its own
operands can look at all its arguments. Its `ret` succeeds: the results take the place of the arguments on the
stack that was there before, whoever waited goes on behind the call, and a caller that collects the results gets
them in the order in which they were pushed. Base, callers and number of runs are those from before the call. -/
theorem Active.stack_discipline {env : Environment δ ν} {A : Activation δ ν ρ} {phase : Phase} {ws : List (Waiting δ ν ρ)}
    {s : State δ ν ρ} (h : Active env A phase ws s) :
    (phase ≠ .opening → s.machine.core.executor.argumentCount = .ok A.arguments.length ∧
      ∀ i (hi : i < A.arguments.length), s.machine.core.executor.argument i = .ok A.arguments[i]) ∧
    (phase = .running → A.AtReturn s → ∃ w s₁ s₂, s.waiting = w :: ws ∧ s.step env = .inl s₁ ∧ s₁.step env = .inl s₂ ∧
      s₁.machine.core.executor.stack.toList = A.below ++ s.topValues A.home.results.toNat ∧
      A.Returned w ws (s.topValues A.home.results.toNat) s₂) := by
  obtain ⟨hmade, hholds⟩ := h.holds
  refine ⟨fun hphase => ?_, ?_⟩
  · have hlength : (UInt64.ofNat A.arguments.length).toNat = A.arguments.length :=
      UInt64.toNat_ofNat_of_lt' (by have := A.fits; omega)
    have hbase : s.machine.core.executor.base = A.below.length + A.arguments.length + 2 := by
      rw [hholds.base, if_neg hphase, A.length_cells hphase]
    have hcells : A.below ++ A.arguments ++ [A.count, .uint A.before.machine.core.executor.base.toUInt64] <+:
        s.machine.core.executor.stack.toList := by
      have hkept := hholds.cells
      cases phase with
      | opening => exact absurd rfl hphase
      | running | suspended => exact hkept
    refine ⟨?_, fun i hi => Executor.argument_of_call hbase hcells A.counted hlength A.fits hi⟩
    rw [Executor.argumentCount_of_call hbase hcells A.counted, hlength]
  · rintro rfl hreturn
    exact hholds.returned env hreturn

/-! ### A call inside a call -/

section
variable {env : Environment δ ν} {A : Activation δ ν ρ} {ws waiting : List (Waiting δ ν ρ)} {phase : Phase} {m : Machine δ ν}

theorem Active.tick (h : Active env A phase ws ⟨m, .tick, waiting⟩) (hdebugger : m.debugger = none) :
    Active env A phase ws ⟨m, .dispatch, waiting⟩ := by
  refine h.move ⟨?_, rfl, nofun, ?_⟩
  · change Sum.inl (State.tick env m waiting) = _
    simp only [State.tick, hdebugger]
  · exact fun _ => .of_eq rfl

theorem Active.instruction (h : Active env A .running ws ⟨m, .dispatch, waiting⟩) {i : Instruction} {next : Cursor}
    {c : Core} (hread : Cursor.readInstruction m.core.executor.pc = .ok i next) (hall : i.op ≠ .all) (hret : i.op ≠ .ret)
    (hreach : m.core.executor.base + i.reach env.signature? (m.core.withPc next) ≤ m.core.executor.stack.size)
    (hexecute : i.execute env.signature? (m.core.withPc next) = .ok .next c) :
    Active env A .running ws ⟨{ m with core := c }, .tick, waiting⟩ := by
  refine h.move ⟨?_, rfl, fun _ => ⟨rfl, fun i' next' hread' => ?_⟩, ?_⟩
  · change Sum.inl (State.dispatch env m waiting) = _
    unfold State.dispatch
    rw [Machine.exec_of_ok ((Exec.step_of_read hread).trans hexecute)]
  · cases hread.symm.trans hread'
    exact ⟨hall, hret, hreach⟩
  · rintro (hacts | hphase)
    · cases hacts
    · cases hphase

end

/-- Takes one argument and gives what another section makes of 5. -/
def asking : Section :=
  { code := (List.flatMap Instruction.encode [⟨.all, (0, ())⟩, ⟨.ldiS32, (5, ())⟩, ⟨.call, (1, 1, ())⟩,
      ⟨.ret, (1, ())⟩]).toArray
    results := 1
    parameters := some 1
    id := .loaded 1 }

/-- Takes one argument and gives 42. -/
def answering : Section :=
  { code := (List.flatMap Instruction.encode [⟨.all, (0, ())⟩, ⟨.ldiS32, (42, ())⟩, ⟨.ret, (1, ())⟩]).toArray
    results := 1
    parameters := some 1
    id := .loaded 2 }

def ask : Except Failure Execution → Task Unit Unit (Except Failure Execution) := fun r => .finish (.host r)

def askedAt (executor : Executor) (runs : Nat) (focus : Focus Unit Unit (Except Failure Execution))
    (waiting : List (Waiting Unit Unit (Except Failure Execution))) : State Unit Unit (Except Failure Execution) :=
  ⟨{ core := { executor, runs, sections := ((({} : SectionTable).add asking).2.add answering).2 } }, focus, waiting⟩

def hostCall : Activation Unit Unit (Except Failure Execution) where
  before := askedAt {} 0 (.host (.enter (.call 0 [.int 7]) ask)) []
  home := asking
  back := { home := .host 0 }
  below := []
  arguments := [.int 7]
  count := .int 1
  counted := by decide
  fits := by decide
  based := by decide

def asked : Executor :=
  { stack := #[.int 7, .int 1, .uint 0, .int 5]
    base := 3
    callers := #[{ home := .host 0 }]
    pc := { home := asking, position := 10 } }

def answered : Executor :=
  { stack := #[.int 7, .int 1, .uint 0, .int 5, .int 1, .uint 3, .int 42]
    base := 6
    callers := #[{ home := .host 0 }, { home := asking, position := 16 }]
    pc := { home := answering, position := 10 } }

def told : Executor :=
  { stack := #[.int 7, .int 1, .uint 0, .int 42]
    base := 3
    callers := #[{ home := .host 0 }]
    pc := { home := asking, position := 16 } }

def innerCall : Activation Unit Unit (Except Failure Execution) where
  before := askedAt asked 1 .dispatch [.caller 1 ask]
  home := answering
  back := { home := asking, position := 16 }
  below := [.int 7, .int 1, .uint 0]
  arguments := [.int 5]
  count := .int 1
  counted := by decide
  fits := by decide
  based := by decide

theorem active_asked : Active .bare hostCall .running [] (askedAt asked 1 .dispatch [.caller 1 ask]) := by
  have hentered : Active .bare hostCall .opening [] (askedAt
      { stack := #[.int 7, .int 1]
        callers := #[{ home := .host 0 }]
        pc := { home := asking } } 1 .tick [.caller 1 ask]) :=
    .enter ⟨.call 0 [.int 7] ask rfl rfl (by cbv) rfl rfl rfl, by cbv, rfl⟩
  have hall : Cursor.readInstruction { home := asking } = .ok ⟨.all, (0, ())⟩ { home := asking, position := 5 } := by cbv
  have hopened : Active .bare hostCall .running [] (askedAt
      { asked with stack := #[.int 7, .int 1, .uint 0], pc := { home := asking, position := 5 } } 1 .tick
      [.caller 1 ask]) :=
    (hentered.tick rfl).all rfl hall rfl (by cbv)
  have hpushed := (hopened.tick rfl).instruction (i := ⟨.ldiS32, (5, ())⟩) (c := (askedAt asked 1 .tick []).machine.core)
    (by cbv) (by decide) (by decide) (by decide) (by cbv)
  exact hpushed.tick rfl

theorem active_answered : Active .bare innerCall .running [.caller 1 ask]
    (askedAt answered 2 .dispatch [.instruction, .caller 1 ask]) := by
  have hcall : Cursor.readInstruction asked.pc = .ok ⟨.call, (1, 1, ())⟩ { home := asking, position := 16 } := by cbv
  have hentered : Active .bare innerCall .opening [.caller 1 ask] (askedAt
      { answered with
        stack := #[.int 7, .int 1, .uint 0, .int 5, .int 1]
        base := 3
        pc := { home := answering } } 2 .tick [.instruction, .caller 1 ask]) :=
    .enter ⟨.instruction 1 1 rfl hcall (by cbv) rfl rfl rfl, by cbv, rfl⟩
  have hall : Cursor.readInstruction { home := answering } =
      .ok ⟨.all, (0, ())⟩ { home := answering, position := 5 } := by cbv
  have hopened : Active .bare innerCall .running [.caller 1 ask] (askedAt
      { answered with
        stack := #[.int 7, .int 1, .uint 0, .int 5, .int 1, .uint 3]
        pc := { home := answering, position := 5 } } 2 .tick [.instruction, .caller 1 ask]) :=
    (hentered.tick rfl).all rfl hall rfl (by cbv)
  have hpushed := (hopened.tick rfl).instruction (i := ⟨.ldiS32, (42, ())⟩)
    (c := (askedAt answered 2 .tick []).machine.core) (by cbv) (by decide) (by decide) (by decide) (by cbv)
  exact hpushed.tick rfl

theorem active_told : Active .bare hostCall .running [] (askedAt told 1 .dispatch [.caller 1 ask]) := by
  have hreturn : innerCall.AtReturn (askedAt answered 2 .dispatch [.instruction, .caller 1 ask]) :=
    ⟨rfl, ⟨{ home := answering, position := 12 }, by cbv⟩, by decide, by decide⟩
  have htold : Active .bare hostCall .running [] (askedAt told 1 .tick [.caller 1 ask]) :=
    active_asked.nested (B := innerCall) (fun _ => rfl) (by decide) active_answered hreturn
      (show _ = Sum.inl (askedAt told 2 (.leave (.ok false)) [.instruction, .caller 1 ask]) by cbv) rfl
  exact htold.tick rfl

theorem stack_discipline_told :
    Active .bare hostCall .running [] (askedAt told 1 .dispatch [.caller 1 ask]) ∧
      told.argumentCount = .ok 1 ∧ told.argument 0 = .ok (.int 7) ∧
      ∃ s₁ s₂, (askedAt told 1 .dispatch [.caller 1 ask]).step .bare = .inl s₁ ∧ s₁.step .bare = .inl s₂ ∧
        s₂.focus = .host (ask (.ok (.finished [.int 42]))) ∧ s₂.machine.core.executor.stack.toList = [] ∧
        s₂.machine.core.executor.pc = { home := .host 0 } := by
  have hreturn : hostCall.AtReturn (askedAt told 1 .dispatch [.caller 1 ask]) :=
    ⟨rfl, ⟨{ home := asking, position := 18 }, by cbv⟩, by decide, by decide⟩
  obtain ⟨hcount, hargument⟩ := active_told.stack_discipline.1 (by decide)
  obtain ⟨w, s₁, s₂, hw, hret, hleave, -, hreturned⟩ := active_told.stack_discipline.2 rfl hreturn
  cases hw
  exact ⟨active_told, hcount, hargument 0 (by decide), s₁, s₂, hret, hleave, hreturned.handed.1, hreturned.handed.2,
    hreturned.pc⟩

end ScriptVm
