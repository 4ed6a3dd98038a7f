import ScriptVm.Proofs.Calls

/-! What one transition does to the calls. A run is opened when the one who waits for it is put on top
of the others, and is left when that one goes on. In between, the number of runs and of those who wait
grow and shrink together, whatever natives, debuggers and the host do, since they cannot get at it. -/

namespace ScriptVm
variable {δ ν ρ : Type}

/-- What host code cannot get at: how many runs are in progress, and which call is suspended. -/
structure Machine.KeepsRuns (m m' : Machine δ ν) : Prop where
  runs : m'.core.runs = m.core.runs
  suspended : m'.suspended = m.suspended

/-- The places where callers go on stay as well. -/
structure Machine.KeepsCalls (m m' : Machine δ ν) : Prop extends m.KeepsRuns m' where
  callers : m'.core.executor.callers = m.core.executor.callers

def Machine.laden (m : Machine δ ν) (vs : List Value) (memory : Memory) : Machine δ ν :=
  { m with core := m.core.laden vs memory }

/-- What a call by the host puts on the stack: further holders of the arguments, and their number. -/
def Entry.load (arguments : List Value) : List Value := arguments.map Value.share ++ [.int (.ofInt arguments.length)]

/-- How the innermost run has ended, if it has and did not fail. -/
def Focus.outcome? : Focus δ ν ρ → Option Bool
  | .leave (.ok suspended) => some suspended
  | _ => none

def Focus.ended : Focus δ ν ρ → Bool
  | .leave _ => true
  | _ => false

/-- Whether the one who waits called the section and is to be given its results. -/
def Waiting.collects : Waiting δ ν ρ → Bool
  | .caller .. => true
  | _ => false

/-- What a transition does to the calls that are active. -/
inductive State.Turn (s s' : State δ ν ρ) : Prop where
  | idle : s.waiting = [] → s' = s → Turn s s'
  /-- No call begins and none ends. -/
  | quiet : s'.waiting = s.waiting → s.machine.KeepsCalls s'.machine → s.focus.ended = false →
      s'.focus.outcome? = none → Turn s s'
  | returns : s'.waiting = s.waiting → s.machine.KeepsRuns s'.machine → s.focus.ended = false →
      s'.focus = .leave (.ok false) → s.machine.core.executor.callers ≠ #[] →
      s'.machine.core.executor.callers = s.machine.core.executor.callers.pop → Turn s s'
  /-- A `sus` is executed. Only the outermost run can be suspended. -/
  | suspends : s'.waiting = s.waiting → s.machine.KeepsCalls s'.machine → s.focus.ended = false →
      s'.focus = .leave (.ok true) → s.machine.core.runs ≤ 1 → s.focus = .dispatch →
      (∃ next, Cursor.readInstruction s.machine.core.executor.pc = .ok ⟨.sus, ()⟩ next) → Turn s s'
  /-- A section is entered. While a call is suspended, the host cannot make another one. -/
  | opens (w : Waiting δ ν ρ) (back : Cursor) : s'.waiting = w :: s.waiting → s.focus.ended = false →
      s'.focus = .tick → s'.machine.core.runs = s.machine.core.runs + 1 →
      s'.machine.suspended = s.machine.suspended →
      s'.machine.core.executor.callers = s.machine.core.executor.callers.push back →
      (w.collects = true → s.machine.core.runs = 0 → s.machine.suspended = none) → Turn s s'
  | resumes (results : UInt8) (next : Except Failure Execution → Task δ ν ρ) :
      s.machine.suspended = some results → s'.waiting = .caller results next :: s.waiting →
      s.focus.ended = false → s'.focus = .tick → s'.machine.core.runs = s.machine.core.runs + 1 →
      s'.machine.suspended = none → s'.machine.core.executor.callers = s.machine.core.executor.callers → Turn s s'
  /-- The host's call is refused for its depth, and all calls are forgotten. -/
  | forgets (task : Task δ ν ρ) : s'.waiting = s.waiting → s.focus.ended = false → s'.focus = .host task →
      s.machine.core.runs = 0 → s'.machine.core.runs = 0 → s'.machine.suspended = none →
      s'.machine.core.executor.callers = #[] → Turn s s'
  /-- A run is left, and the one who waits for it goes on. -/
  | leaves (w : Waiting δ ν ρ) (result : Except Failure Bool) (waiting : List (Waiting δ ν ρ)) :
      s.focus = .leave result → s.waiting = w :: waiting →
      s' = State.leave s.machine result (w :: waiting) → Turn s s'

/-! ### Instructions -/

namespace Instruction
open Exec

theorem execute_ret_eq_ok {natives : UInt32 → Option Signature} {count : UInt8} {flow : Flow} {c c' : Core}
    (h : execute natives ⟨.ret, (count, ())⟩ c = .ok flow c') : leaveSection count.toNat c = .ok () c' := by
  simp only [execute, bind, EStateM.bind] at h
  cases hleave : leaveSection count.toNat c with
  | ok u c₁ =>
    rw [hleave] at h
    cases h
    rfl
  | error f c₁ =>
    rw [hleave] at h
    cases h

theorem execute_sus_eq_ok {natives : UInt32 → Option Signature} {flow : Flow} {c c' : Core}
    (h : execute natives ⟨.sus, ()⟩ c = .ok flow c') : flow = .suspended ∧ c' = c ∧ c.runs ≤ 1 := by
  change (if 1 < c.runs then _ else _ : Exec Flow) c = _ at h
  split_ifs at h with hruns
  · cases h
  · cases h
    exact ⟨rfl, rfl, Nat.le_of_not_lt hruns⟩

/-- Instructions other than calls, returns and suspensions just go on, or call a native. -/
theorem flow_of_plain {natives : UInt32 → Option Signature} {i : Instruction} {flow : Flow} {c c' : Core}
    (hcall : i.op ≠ .call) (hret : i.op ≠ .ret) (hsus : i.op ≠ .sus) (h : i.execute natives c = .ok flow c') :
    flow = .next ∨ ∃ index arguments, flow = .native index arguments := by
  have hends : ∀ {x : Exec Unit}, (x >>= fun _ => pure Flow.next : Exec Flow) c = .ok flow c' → flow = .next := by
    intro x hx
    simp only [bind, EStateM.bind] at hx
    split at hx <;> cases hx
    rfl
  obtain ⟨op, operands⟩ := i
  cases op with
  | call => exact absurd rfl hcall
  | ret => exact absurd rfl hret
  | sus => exact absurd rfl hsus
  | nat =>
    right
    simp only [execute, bind, EStateM.bind] at h
    split at h <;> cases h
    exact ⟨_, _, rfl⟩
  | _ => exact Or.inl (hends h)

/-- Only calls and returns change the callers, and only when they succeed. -/
theorem callers_execute {i : Instruction} (natives : UInt32 → Option Signature) (c : Core)
    (hcall : i.op ≠ .call) (hret : i.op ≠ .ret) :
    Ends (fun c' => c'.executor.callers = c.executor.callers ∧ c'.runs = c.runs)
      (fun _ c' => c'.executor.callers = c.executor.callers ∧ c'.runs = c.runs) (i.execute natives c) := by
  have hkeeps : ∀ {b : Bearings}, Shift i c.bearings b → b.callers = c.executor.callers ∧ b.runs = c.runs := by
    intro b hshift
    cases hshift with
    | stay => exact ⟨rfl, rfl⟩
    | rebase base _ => exact ⟨rfl, rfl⟩
    | jump _ _ => exact ⟨rfl, rfl⟩
    | enter h _ => exact absurd h hcall
    | leave base h _ => exact absurd h hret
  exact (shift_execute natives i c).mono (fun _ hshift => hkeeps hshift) fun _ _ hfailed => hkeeps hfailed.1

theorem callers_execute_error {i : Instruction} {natives : UInt32 → Option Signature} {c c' : Core} {f : Fault}
    (h : i.execute natives c = .error f c') : c'.executor.callers = c.executor.callers ∧ c'.runs = c.runs := by
  by_cases hcall : i.op = .call
  · obtain ⟨op, operands⟩ := i
    cases hcall
    rcases execute_call_cases natives operands.1 operands.2.1 c with ⟨home, -, hentered⟩ | ⟨g, vs, hfailed⟩
    · cases hentered.symm.trans h
    · cases hfailed.symm.trans h
      exact ⟨rfl, rfl⟩
  · by_cases hret : i.op = .ret
    · obtain ⟨op, operands⟩ := i
      cases hret
      have hrun := bearings_leaveSection operands.1.toNat c
      simp only [execute, bind, EStateM.bind] at h
      cases hleave : leaveSection operands.1.toNat c with
      | ok u c₁ =>
        rw [hleave] at h
        cases h
      | error g c₁ =>
        rw [hleave] at h hrun
        cases h
        obtain ⟨⟨base, hbearings⟩, -⟩ := hrun
        exact ⟨congrArg Bearings.callers hbearings, congrArg Bearings.runs hbearings⟩
    · have hends := callers_execute natives c hcall hret
      rwa [h] at hends

end Instruction

/-! ### Transitions -/

namespace Machine
variable {m m' : Machine δ ν}

theorem KeepsRuns.refl (m : Machine δ ν) : m.KeepsRuns m := ⟨rfl, rfl⟩

theorem KeepsCalls.refl (m : Machine δ ν) : m.KeepsCalls m := ⟨.refl m, rfl⟩

theorem keepsCalls_takeBack (m : Machine δ ν) (d : Attached δ) : m.KeepsCalls (m.takeBack d) := by
  unfold takeBack
  dsimp only
  split_ifs <;> exact ⟨⟨rfl, rfl⟩, rfl⟩

theorem keepsCalls_laden (m : Machine δ ν) (vs : List Value) (memory : Memory) : m.KeepsCalls (m.laden vs memory) :=
  ⟨⟨rfl, rfl⟩, rfl⟩

/-- A failed call outside all runs has everything forgotten; inside a run it changes nothing. -/
theorem abandon_eq (m : Machine δ ν) :
    m.core.runs = 0 ∧ m.abandon = { m with core := m.core.reset, suspended := none } ∨
      m.core.runs ≠ 0 ∧ m.abandon = m := by
  unfold abandon
  split_ifs with hruns
  · exact Or.inl ⟨hruns, rfl⟩
  · exact Or.inr ⟨hruns, rfl⟩

theorem suspended_of_prepareCall {index : UInt32} {arguments : List Value} {results : UInt8} {m₁ : Machine δ ν}
    (h : m.prepareCall index arguments = (.ok results, m₁)) (hruns : m.core.runs = 0) : m.suspended = none := by
  unfold prepareCall at h
  split at h
  · cases h
  · rename_i hbusy
    cases hsuspended : m.suspended with
    | none => rfl
    | some results => exact absurd (by rw [hsuspended, hruns]; rfl) hbusy

end Machine

namespace State
variable {env : Environment δ ν} {m : Machine δ ν} {waiting : List (Waiting δ ν ρ)}

theorem turn_tick : Turn ⟨m, .tick, waiting⟩ (tick env m waiting) := by
  unfold tick
  cases m.debugger with
  | none => exact .quiet rfl (.refl m) rfl rfl
  | some d =>
    dsimp only
    split_ifs
    · exact .quiet rfl ⟨⟨rfl, rfl⟩, rfl⟩ rfl rfl
    · exact .quiet rfl ⟨⟨rfl, rfl⟩, rfl⟩ rfl rfl

theorem turn_fail (f : Fault) : Turn ⟨m, .fail f, waiting⟩ (fail env m waiting f) := by
  unfold fail
  split_ifs
  · exact .quiet rfl (.refl m) rfl rfl
  · exact .quiet rfl (.refl m) rfl rfl
  · dsimp only
    cases m.debugger with
    | none => exact .quiet rfl (.refl m) rfl rfl
    | some d => exact .quiet rfl ⟨⟨rfl, rfl⟩, rfl⟩ rfl rfl

theorem turn_dispatch : Turn ⟨m, .dispatch, waiting⟩ (dispatch env m waiting) := by
  unfold dispatch
  cases hread : Cursor.readInstruction m.core.executor.pc with
  | error e pc =>
    rw [Machine.exec_of_error (Exec.step_of_unread hread)]
    exact .quiet rfl ⟨⟨rfl, rfl⟩, rfl⟩ rfl rfl
  | ok i next =>
    have hstep : Exec.step env.signature? m.core = _ := Exec.step_of_read hread
    cases hexecute : i.execute env.signature? (m.core.withPc next) with
    | error f c =>
      obtain ⟨hcallers, hruns⟩ := i.callers_execute_error hexecute
      rw [Machine.exec_of_error (hstep.trans hexecute)]
      exact .quiet rfl ⟨⟨hruns, rfl⟩, hcallers⟩ rfl rfl
    | ok flow c =>
      rw [Machine.exec_of_ok (hstep.trans hexecute)]
      by_cases hcall : i.op = .call
      · obtain ⟨op, operands⟩ := i
        cases hcall
        rcases Exec.execute_call_cases env.signature? operands.1 operands.2.1 (m.core.withPc next) with
          ⟨home, -, hentered⟩ | ⟨g, vs, hfailed⟩
        · cases hentered.symm.trans hexecute
          exact .opens .instruction next rfl rfl rfl rfl rfl rfl nofun
        · cases hfailed.symm.trans hexecute
      by_cases hret : i.op = .ret
      · obtain rfl := i.flow_of_ret hret hexecute
        obtain ⟨op, operands⟩ := i
        cases hret
        have hleave := Exec.bearings_leaveSection operands.1.toNat (m.core.withPc next)
        rw [Instruction.execute_ret_eq_ok hexecute] at hleave
        obtain ⟨base, pc, hback, hbearings⟩ := hleave
        refine .returns rfl ⟨congrArg Bearings.runs hbearings, rfl⟩ rfl rfl ?_ (congrArg Bearings.callers hbearings)
        intro hnone
        have hnone : m.core.executor.callers = #[] := hnone
        simp only [Core.withPc, hnone] at hback
        cases hback
      by_cases hsus : i.op = .sus
      · obtain ⟨op, operands⟩ := i
        cases hsus
        obtain ⟨rfl, rfl, hruns⟩ := Instruction.execute_sus_eq_ok hexecute
        exact .suspends rfl ⟨⟨rfl, rfl⟩, rfl⟩ rfl rfl hruns rfl ⟨next, hread⟩
      have hkeeps := i.callers_execute env.signature? (m.core.withPc next) hcall hret
      rw [hexecute] at hkeeps
      have hcalls : m.KeepsCalls { m with core := c } := ⟨⟨hkeeps.2, rfl⟩, hkeeps.1⟩
      rcases i.flow_of_plain hcall hret hsus hexecute with rfl | ⟨index, arguments, rfl⟩
      · exact .quiet rfl hcalls rfl rfl
      · dsimp only
        cases env.native? index with
        | none => exact .quiet rfl hcalls rfl rfl
        | some n => exact .quiet rfl hcalls rfl rfl

theorem turn_leave (result : Except Failure Bool) : Turn ⟨m, .leave result, waiting⟩ (leave m result waiting) := by
  cases waiting with
  | nil => exact .idle rfl rfl
  | cons w waiting => exact .leaves w result waiting rfl rfl rfl

/-- How a call by the host is entered or refused: it is refused before anything is pushed, or on its way
into the section. -/
theorem enter_call_cases (m : Machine δ ν) (waiting : List (Waiting δ ν ρ))
    (next : Except Failure Execution → Task δ ν ρ) (index : UInt32) (arguments : List Value) :
    (∃ home memory, m.core.sections.get index = .ok home ∧ (m.core.runs = 0 → m.suspended = none) ∧
      enter m waiting next (.call index arguments) =
        ⟨{ m with core := (m.core.laden (Entry.load arguments) memory).entering home }.openRun, .tick,
          .caller home.results next :: waiting⟩) ∨
    (∃ failure, enter m waiting next (.call index arguments) = ⟨m, .host (next (.error failure)), waiting⟩) ∨
    ∃ memory failure, enter m waiting next (.call index arguments) =
      ⟨(m.laden (Entry.load arguments) memory).abandon, .host (next (.error failure)), waiting⟩ := by
  unfold enter
  rcases m.prepareCall_cases index arguments with ⟨home, memory, hhome, hprepared⟩ | ⟨failure, hrefused⟩
  · simp only [hprepared]
    rcases Machine.exec_enterSection_cases { m with
        core := m.core.laden (arguments.map Value.share ++ [.int (.ofInt arguments.length)]) memory } index with
      ⟨home', hhome', hentered⟩ | ⟨f, hfailed⟩
    · cases hhome.symm.trans hhome'
      simp only [hentered]
      exact Or.inl ⟨home, memory, hhome, Machine.suspended_of_prepareCall hprepared, rfl⟩
    · simp only [hfailed, Machine.complete]
      exact Or.inr (Or.inr ⟨memory, _, rfl⟩)
  · simp only [hrefused]
    exact Or.inr (Or.inl ⟨failure, rfl⟩)

theorem turn_enter (next : Except Failure Execution → Task δ ν ρ) (entry : Entry) :
    Turn ⟨m, .host (.enter entry next), waiting⟩ (enter m waiting next entry) := by
  cases entry with
  | call index arguments =>
    rcases enter_call_cases m waiting next index arguments with
      ⟨home, memory, -, hfree, hentered⟩ | ⟨failure, hrefused⟩ | ⟨memory, failure, hrefused⟩
    · rw [hentered]
      exact .opens _ m.core.executor.pc rfl rfl rfl rfl rfl rfl fun _ => hfree
    · rw [hrefused]
      exact .quiet rfl (.refl m) rfl rfl
    · rw [hrefused]
      rcases (m.laden (Entry.load arguments) memory).abandon_eq with ⟨hruns, habandon⟩ | ⟨-, habandon⟩
      · rw [habandon]
        exact .forgets _ rfl rfl rfl hruns hruns rfl rfl
      · rw [habandon]
        exact .quiet rfl (m.keepsCalls_laden _ memory) rfl rfl
  | execute index ready =>
    rcases enter_execute_cases m waiting next index ready with ⟨home, -, hentered⟩ | ⟨failure, hrefused⟩
    · rw [hentered]
      exact .opens (.executor next) m.core.executor.pc rfl rfl rfl rfl rfl rfl nofun
    · rw [hrefused]
      exact .quiet rfl (m.keepsCalls_laden _ _) rfl rfl
  | resume =>
    unfold enter
    cases hsuspended : m.suspended with
    | none => exact .quiet rfl (.refl m) rfl rfl
    | some results => exact .resumes results next hsuspended rfl rfl rfl rfl rfl rfl

theorem turn_settle (verdict : Verdict δ ρ) {s : State δ ν ρ} (h : settle m waiting verdict = .inl s) :
    Turn ⟨m, .host (.finish verdict), waiting⟩ s := by
  cases verdict with
  | host result => cases h
  | native arguments result => rcases result with f | _ | v <;> cases h <;> exact .quiet rfl ⟨⟨rfl, rfl⟩, rfl⟩ rfl rfl
  | tick d result => cases result <;> cases h <;> exact .quiet rfl (m.keepsCalls_takeBack d) rfl rfl
  | pause d failure =>
    cases h
    exact .quiet rfl (m.keepsCalls_takeBack d) rfl rfl

/-- What a transition does to the calls, if it is not up to host code. -/
theorem turn_of_step {s s' : State δ ν ρ} (hacts : s.acts = false) (h : s.step env = .inl s') : s.Turn s' := by
  obtain ⟨m, focus, waiting⟩ := s
  cases focus with
  | tick =>
    cases h
    exact turn_tick
  | dispatch =>
    cases h
    exact turn_dispatch
  | fail f =>
    cases h
    exact turn_fail f
  | leave result =>
    cases h
    exact turn_leave result
  | host task =>
    cases task with
    | act f => cases hacts
    | enter entry next =>
      cases h
      exact turn_enter next entry
    | finish verdict => exact turn_settle verdict h

theorem waiting_of_acts {s s' : State δ ν ρ} (hacts : s.acts = true) (h : s.step env = .inl s') :
    s'.waiting = s.waiting ∧ s.focus.ended = false ∧ ∃ task, s'.focus = .host task := by
  obtain ⟨m, focus, waiting⟩ := s
  cases focus with
  | host task =>
    cases task with
    | act f =>
      cases h
      exact ⟨rfl, rfl, _, rfl⟩
    | enter entry next => cases hacts
    | finish verdict => cases hacts
  | _ => cases hacts

/-! ### Runs -/

theorem isDown_of_run {s : State δ ν ρ} {r : ρ × Machine δ ν} {fuel : Nat} (hrun : run env fuel s = some r) :
    s.isDown = false := by
  cases fuel with
  | zero => cases hrun
  | succ fuel =>
    rw [run] at hrun
    split_ifs at hrun with hdown
    exact Bool.eq_false_of_not_eq_true hdown

theorem run_of_inl {s t : State δ ν ρ} (hdown : s.isDown = false) (hstep : s.step env = .inl t) (n : Nat) :
    run env (n + 1) s = run env n t := by
  simp only [run, hdown, hstep]
  rfl

theorem run_of_inr {s : State δ ν ρ} {r : ρ × Machine δ ν} (hstep : s.step env = .inr r) (n : Nat) :
    run env (n + 1) s = some r := by
  have hdown : s.isDown = false := by
    obtain ⟨m, focus, waiting⟩ := s
    cases focus with
    | host task => rfl
    | _ => cases hstep
  simp only [run, hdown, hstep]
  rfl

end State

theorem Focus.outcome?_of_running {focus : Focus δ ν ρ} (h : focus.ended = false) : focus.outcome? = none := by
  cases focus with
  | leave result => cases h
  | _ => rfl

/-- How many runs have given their places up and not been left. -/
def State.returning (s : State δ ν ρ) : Nat := if s.focus.outcome? = some false then 1 else 0

namespace State
variable {s : State δ ν ρ}

theorem returning_le (s : State δ ν ρ) : s.returning ≤ 1 := by
  unfold returning
  split_ifs <;> omega

theorem returning_of_outcome (h : s.focus.outcome? = none) : s.returning = 0 := by
  unfold returning
  rw [h]
  rfl

theorem returning_of_running (h : s.focus.ended = false) : s.returning = 0 :=
  returning_of_outcome (Focus.outcome?_of_running h)

theorem returning_of_returned (h : s.focus = .leave (.ok false)) : s.returning = 1 := by
  unfold returning
  rw [h]
  rfl

end State

/-! ### Leaving a run -/

/-- What becomes of the calls when a run is left. -/
inductive Waiting.Goes (w : Waiting δ ν ρ) (m : Machine δ ν) (result : Except Failure Bool) (m' : Machine δ ν) :
    Prop where
  | keeps : (w.collects = true → result ≠ .ok true) → m.closeRun.KeepsCalls m' → Goes w m result m'
  | suspends (results : UInt8) : w.collects = true → result = .ok true →
      m' = { m.closeRun with suspended := some results } → Goes w m result m'
  | forgets (failure : Failure) : w.collects = true → result = .error failure → m.core.runs - 1 = 0 →
      m' = { m.closeRun with core := m.closeRun.core.reset, suspended := none } → Goes w m result m'

theorem Machine.complete_returned (m : Machine δ ν) (results : UInt8) :
    (∃ vs m', m.complete results (.ok false) = (.ok (.finished vs), m') ∧ m.KeepsCalls m') ∨
      m.core.executor.stack.size < results.toNat ∧
        m.complete results (.ok false) = (.error { fault := .underflow }, m) := by
  have hpopped := Exec.popMany_eq results.toNat m.core
  unfold complete
  split_ifs at hpopped with hsize
  · rw [Machine.exec_of_error hpopped]
    exact Or.inr ⟨hsize, rfl⟩
  · rw [Machine.exec_of_ok hpopped]
    exact Or.inl ⟨_, _, rfl, ⟨⟨rfl, rfl⟩, rfl⟩⟩

namespace State
variable {m : Machine δ ν} {waiting : List (Waiting δ ν ρ)}

theorem leave_caller (result : Except Failure Bool) (results : UInt8) (next : Except Failure Execution → Task δ ν ρ) :
    leave m result (.caller results next :: waiting) = ⟨(m.closeRun.complete results result).2,
      .host (next (m.closeRun.complete results result).1), waiting⟩ := rfl

theorem goes_leave (m : Machine δ ν) (result : Except Failure Bool) (w : Waiting δ ν ρ) (waiting : List (Waiting δ ν ρ)) :
    w.Goes m result (leave m result (w :: waiting)).machine ∧
      (leave m result (w :: waiting)).focus.outcome? = none := by
  cases w with
  | instruction => rcases result with failure | _ | _ <;> exact ⟨.keeps nofun (.refl _), rfl⟩
  | executor next => exact ⟨.keeps nofun (.refl _), rfl⟩
  | caller results next =>
    refine ⟨?_, rfl⟩
    rw [leave_caller]
    rcases result with failure | _ | _
    · change Waiting.Goes _ m _ m.closeRun.abandon
      rcases m.closeRun.abandon_eq with ⟨hruns, habandon⟩ | ⟨-, habandon⟩ <;> rw [habandon]
      · exact .forgets failure rfl rfl hruns rfl
      · exact .keeps nofun (.refl _)
    · rcases m.closeRun.complete_returned results with ⟨vs, m', hfinished, hkeeps⟩ | ⟨-, hfailed⟩
      · rw [hfinished]
        exact .keeps nofun hkeeps
      · rw [hfailed]
        exact .keeps nofun (.refl _)
    · exact .suspends results rfl rfl rfl

end State

theorem Waiting.Goes.runs {w : Waiting δ ν ρ} {m m' : Machine δ ν} {result : Except Failure Bool}
    (h : w.Goes m result m') : m'.core.runs = m.core.runs - 1 := by
  cases h with
  | keeps _ hkeeps => exact hkeeps.runs
  | suspends results _ _ hm' => rw [hm']; rfl
  | forgets failure _ _ _ hm' => rw [hm']; rfl

/-! ### From one moment to another -/

/-- The moments from a state on while all who wait there still do. What host code does in between is as `R`
allows. -/
inductive During (R : Machine δ ν → Machine δ ν → Prop) (env : Environment δ ν) (s₀ : State δ ν ρ) :
    State δ ν ρ → Prop where
  | start : During R env s₀ s₀
  | go {s s' : State δ ν ρ} : During R env s₀ s → s.step env = .inl s' →
      (s.acts = true → R s.machine s'.machine) → s₀.waiting.length ≤ s'.waiting.length → During R env s₀ s'

/-- The same wait at the bottom, and the number of runs counts those who wait above them. -/
structure State.Above (s₀ s : State δ ν ρ) : Prop where
  waiting : s₀.waiting <:+ s.waiting
  runs : s.machine.core.runs + s₀.waiting.length = s₀.machine.core.runs + s.waiting.length

namespace State.Above
variable {s₀ s s' : State δ ν ρ}

theorem refl (s : State δ ν ρ) : Above s s := ⟨List.suffix_refl _, rfl⟩

theorem same (h : Above s₀ s) (hwaiting : s'.waiting = s.waiting)
    (hruns : s'.machine.core.runs = s.machine.core.runs) : Above s₀ s' :=
  ⟨by rw [hwaiting]; exact h.waiting, by rw [hwaiting, hruns]; exact h.runs⟩

theorem push (h : Above s₀ s) {w : Waiting δ ν ρ} (hwaiting : s'.waiting = w :: s.waiting)
    (hruns : s'.machine.core.runs = s.machine.core.runs + 1) : Above s₀ s' := by
  have hcount := h.runs
  refine ⟨by rw [hwaiting]; exact h.waiting.trans (List.suffix_cons w _), ?_⟩
  rw [hwaiting, hruns, List.length_cons]
  omega

theorem pop (h : Above s₀ s) {w : Waiting δ ν ρ} (hwaiting : s.waiting = w :: s'.waiting)
    (hruns : s'.machine.core.runs = s.machine.core.runs - 1) (hlength : s₀.waiting.length ≤ s'.waiting.length) :
    Above s₀ s' := by
  have hcount := h.runs
  have hsuffix := h.waiting
  rw [hwaiting, List.length_cons] at hcount
  rw [hwaiting] at hsuffix
  refine ⟨?_, by omega⟩
  rcases List.suffix_cons_iff.1 hsuffix with hall | htail
  · rw [hall, List.length_cons] at hlength
    omega
  · exact htail

end State.Above

theorem State.Turn.above {s₀ s s' : State δ ν ρ} (hturn : s.Turn s') (h : State.Above s₀ s)
    (hlength : s₀.waiting.length ≤ s'.waiting.length) : State.Above s₀ s' := by
  cases hturn with
  | idle _ hs =>
    rw [hs]
    exact h
  | quiet hwaiting hkeeps => exact h.same hwaiting hkeeps.runs
  | returns hwaiting hkeeps => exact h.same hwaiting hkeeps.runs
  | suspends hwaiting hkeeps => exact h.same hwaiting hkeeps.runs
  | opens w back hwaiting _ _ hruns => exact h.push hwaiting hruns
  | resumes results next _ hwaiting _ _ hruns => exact h.push hwaiting hruns
  | forgets task hwaiting _ _ hzero hruns => exact h.same hwaiting (hruns.trans hzero.symm)
  | leaves w result waiting _ hwaiting hs' =>
    subst hs'
    have hleft := State.waiting_leave s.machine result w waiting
    exact h.pop (by rw [hwaiting, hleft]) (State.goes_leave _ result w waiting).1.runs hlength

/-- The state after so many transitions, if host code does nothing in them and as many as before still wait. -/
def State.advance (env : Environment δ ν) (floor : Nat) : Nat → State δ ν ρ → Option (State δ ν ρ) :=
  walk (next? env fun s s' => !s.acts && decide (floor ≤ s'.waiting.length))

def Task.report (outcome : Except Failure Execution) : Task δ ν (Except Failure Execution) := .finish (.host outcome)

namespace During
variable {R : Machine δ ν → Machine δ ν → Prop} {env : Environment δ ν} {s₀ s s' : State δ ν ρ}

theorem above (hR : ∀ m m', R m m' → m.KeepsRuns m') (h : During R env s₀ s) : State.Above s₀ s := by
  induction h with
  | start => exact .refl s₀
  | @go s s' _ hstep hacts hlength ih =>
    cases hact : s.acts with
    | true => exact ih.same (State.waiting_of_acts hact hstep).1 (hR _ _ (hacts hact)).runs
    | false => exact (State.turn_of_step hact hstep).above ih hlength

theorem ends (hR : ∀ m m', R m m' → m.KeepsRuns m') (h : During R env s₀ s) (hstep : s.step env = .inl s')
    (hlength : s'.waiting.length < s₀.waiting.length) :
    ∃ w waiting result, s₀.waiting = w :: waiting ∧ s.waiting = w :: waiting ∧ s.focus = .leave result ∧
      s' = State.leave s.machine result (w :: waiting) ∧ s.machine.core.runs = s₀.machine.core.runs := by
  have habove := h.above hR
  have hle := habove.waiting.length_le
  cases hact : s.acts with
  | true =>
    rw [(State.waiting_of_acts hact hstep).1] at hlength
    omega
  | false =>
    cases State.turn_of_step hact hstep with
    | leaves w result waiting hfocus hwaiting hs' =>
      have hsize : s.waiting.length = waiting.length + 1 := by rw [hwaiting, List.length_cons]
      rw [hs', State.waiting_leave] at hlength
      have hall := habove.waiting.eq_of_length (by omega)
      have hruns := habove.runs
      rw [hall] at hruns
      exact ⟨w, waiting, result, hall.trans hwaiting, hwaiting, hfocus, hs', by omega⟩
    | idle _ hs =>
      rw [hs] at hlength
      omega
    | quiet hwaiting | returns hwaiting | suspends hwaiting | forgets _ hwaiting =>
      rw [hwaiting] at hlength
      omega
    | opens w _ hwaiting | resumes _ _ _ hwaiting =>
      rw [hwaiting, List.length_cons] at hlength
      omega

theorem advance (h : During R env s₀ s) {n : Nat} (hs : s.advance env s₀.waiting.length n = some s') :
    During R env s₀ s' := by
  refine walk_induction (P := (During R env s₀ ·)) (fun t u ht hnext => ?_) h hs
  obtain ⟨hstep, hallowed⟩ := State.next?_eq_some.1 hnext
  simp only [Bool.and_eq_true, Bool.not_eq_true', decide_eq_true_eq] at hallowed
  exact ht.go hstep (fun hact => absurd hact (by simp [hallowed.1])) hallowed.2

end During
end ScriptVm
