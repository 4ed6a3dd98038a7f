import ScriptVm.Proofs.AssembledRuns
import ScriptVm.Proofs.Attendance
import ScriptVm.Proofs.Debuggers

/-! Transitions without debuggers and without natives that call sections. The host has control, or sections run for it
one inside another and may call natives. So a transition leaves the places alone, has all calls forgotten, enters or
continues a section for the host, or executes an instruction. -/

namespace ScriptVm
variable {δ ν ρ α : Type}

/-! ### Instructions -/

theorem Shift.home_pc {i : Instruction} {b b' : Bearings} (h : Shift i b b') (hcall : i.op ≠ .call)
    (hret : i.op ≠ .ret) : b'.pc.home = b.pc.home := by
  cases h with
  | stay => rfl
  | rebase base _ => rfl
  | jump _ hseek =>
    unfold Cursor.seek at hseek
    split_ifs at hseek
    cases hseek
    rfl
  | enter h _ => exact absurd h hcall
  | leave base h _ => exact absurd h hret

namespace Instruction
open Exec

theorem pc_execute_error {i : Instruction} {natives : UInt32 → Option Signature} {c c' : Core} {f : Fault}
    (h : i.execute natives c = .error f c') : c'.executor.pc = c.executor.pc := by
  suffices hends : Ends (fun _ => True) (fun _ c' => c'.executor.pc = c.executor.pc) (i.execute natives c) by
    rwa [h] at hends
  have hbranch : ∀ target, Ends (fun _ => True) (fun _ c' => c'.executor.pc = c.executor.pc) (branch target c) :=
    fun target => (bearings_branch target c).mono (fun _ _ => trivial) fun _ _ hc => congrArg Bearings.pc hc.1
  cases hsteers : i.steers with
  | false =>
    exact (steady_execute hsteers natives c).mono (fun _ _ => trivial) fun _ _ hc => congrArg Bearings.pc hc.1
  | true =>
    obtain ⟨op, operands⟩ := i
    cases op with
    | all => exact trivial
    | jmp => exact (hbranch _).give _
    | bcond =>
      refine Ends.give (x := do if (← get).executor.condition then branch operands.1) ?_ Flow.next
      change Ends _ _ ((if c.executor.condition then branch operands.1 else pure ()) c)
      split_ifs
      · exact hbranch _
      · exact trivial
    | call =>
      rcases execute_call_cases natives operands.1 operands.2.1 c with ⟨home, -, hentered⟩ | ⟨g, vs, hfailed⟩
      · rw [hentered]
        exact trivial
      · rw [hfailed]
        exact rfl
    | ret =>
      refine Ends.give ((bearings_leaveSection operands.1.toNat c).mono (fun _ _ => trivial) ?_) Flow.returned
      rintro f c' ⟨⟨base, hc⟩, -⟩
      exact congrArg Bearings.pc hc
    | _ => cases hsteers

theorem op_of_native {i : Instruction} {natives : UInt32 → Option Signature} {c c' : Core} {index : UInt32}
    {arguments : List Value} (h : i.execute natives c = .ok (.native index arguments) c') : i.op = .nat := by
  have hends : ∀ {x : Exec Unit} {flow : Flow},
      (x >>= fun _ => pure flow : Exec Flow) c = .ok (.native index arguments) c' → flow = .native index arguments := by
    intro x flow hx
    simp only [bind, EStateM.bind] at hx
    split at hx <;> cases hx
    rfl
  obtain ⟨op, operands⟩ := i
  cases op with
  | nat => rfl
  | sus => cases (execute_sus_eq_ok h).1
  | ret => cases hends (x := leaveSection operands.1.toNat) h
  | call =>
    rcases execute_call_cases natives operands.1 operands.2.1 c with ⟨home, -, hentered⟩ | ⟨g, vs, hfailed⟩
    · cases hentered.symm.trans h
    · cases hfailed.symm.trans h
  | _ => cases hends h

end Instruction

/-! ### Who waits -/

/-- Execution stands at the same place, and so does what it comes back to. -/
structure Executor.SamePlaces (e e' : Executor) : Prop where
  pc : e'.pc = e.pc
  callers : e'.callers = e.callers

/-- Who waits goes on with what its run has come to. -/
inductive Waiting.Gives (next : Except Failure Execution → Task δ ν ρ) : Waiting δ ν ρ → Prop where
  | caller (results : UInt8) : Gives next (.caller results next)
  | executor : Gives next (.executor next)

/-- Sections called one another, and the first of them was called by the host. -/
inductive Waiting.Chain (next : Except Failure Execution → Task δ ν ρ) : List (Waiting δ ν ρ) → Prop where
  | host {w : Waiting δ ν ρ} : w.Gives next → Chain next [w]
  | instruction {waiting : List (Waiting δ ν ρ)} : Chain next waiting → Chain next (.instruction :: waiting)

def Verdict.IsHost (v : Verdict δ ρ) : Prop := ∃ result, v = .host result

def Verdict.IsNative (v : Verdict δ ρ) : Prop := ∃ arguments result, v = .native arguments result

/-- Either the host has control, or sections run for it that may call natives. -/
inductive State.Driven (s : State δ ν ρ) : Prop where
  | idle (task : Task δ ν ρ) : s.waiting = [] → s.focus = .host task → HostCode.ComesTo Verdict.IsHost task → Driven s
  | busy (next : Except Failure Execution → Task δ ν ρ) : Waiting.Chain next s.waiting →
      (∀ o, HostCode.ComesTo Verdict.IsHost (next o)) →
      (∀ task, s.focus = .host task → HostCode.ComesTo Verdict.IsNative task) → Driven s

structure Machine.Unwatched (m : Machine δ ν) : Prop where
  debugger : m.debugger = none
  ticking : m.ticking = false

/-- Execution stands behind the instruction that was read last. -/
def State.Halted : State δ ν ρ → Prop
  | ⟨_, .fail _, _⟩ | ⟨_, .leave (.ok true), _⟩ | ⟨_, .host _, _ :: _⟩ => True
  | _ => False

/-- What host code may do. A native leaves the places in code alone, while the host may also have all calls forgotten;
neither attaches debuggers, and all sections that are loaded were assembled. -/
structure State.Considerate (s s' : State δ ν ρ) : Prop where
  spares : s.machine.Spares Section.Assembled s'.machine
  native : s.waiting ≠ [] → s.machine.core.executor.SamePlaces s'.machine.core.executor
  debugger : s.machine.SameDebugger s'.machine

/-- What a transition does to the places. -/
inductive State.Stride (env : Environment δ ν) (s s' : State δ ν ρ) : Prop where
  | stays : s.machine.core.executor.SamePlaces s'.machine.core.executor → s'.waiting.length ≤ s.waiting.length →
      s.focus ≠ .dispatch → (s'.Halted → s.Halted) → Stride env s s'
  | forgets : s'.machine.core.executor.callers = #[] → ¬ s'.Halted → Stride env s s'
  | begins (home : Section) : s.waiting = [] → s.focus ≠ .dispatch → s'.machine.core.executor.pc = { home } →
      s'.machine.core.executor.callers = s.machine.core.executor.callers.push s.machine.core.executor.pc →
      s'.focus = .tick → Stride env s s'
  | resumes : s.machine.core.executor.SamePlaces s'.machine.core.executor → s.waiting.length < s'.waiting.length →
      s.focus ≠ .dispatch → s'.focus = .tick → Stride env s s'
  | dispatches : s.focus = .dispatch → s.waiting ≠ [] → s' = State.dispatch env s.machine s.waiting → Stride env s s'

theorem Executor.SamePlaces.refl (e : Executor) : e.SamePlaces e := ⟨rfl, rfl⟩

theorem HostCode.ComesTo.mono {p q : α → Prop} {x : HostCode δ ν α} (h : HostCode.ComesTo p x) (hpq : ∀ a, p a → q a) :
    HostCode.ComesTo q x := by
  induction h with
  | finish ha => exact .finish (hpq _ ha)
  | act _ ih => exact .act ih
  | enter entry _ ih => exact .enter entry ih

theorem Waiting.Chain.ne_nil {next : Except Failure Execution → Task δ ν ρ} {waiting : List (Waiting δ ν ρ)}
    (h : Waiting.Chain next waiting) : waiting ≠ [] := by
  cases h <;> exact List.cons_ne_nil _ _

theorem Machine.Unwatched.same {m m' : Machine δ ν} (h : m.Unwatched) (hsame : m.SameDebugger m') : m'.Unwatched :=
  ⟨hsame.debugger.trans h.debugger, hsame.ticking.trans h.ticking⟩

namespace State
variable {env : Environment δ ν} {m : Machine δ ν} {waiting : List (Waiting δ ν ρ)} {s s' : State δ ν ρ}

theorem Driven.inControl (h : s.Driven) : s.InControl [] := by
  obtain ⟨m, focus, waiting⟩ := s
  cases h with
  | idle task hwaiting hfocus htask =>
    cases hwaiting
    cases hfocus
    refine .intro none (HostCode.ComesTo.mono htask ?_) .none
    rintro _ ⟨result, rfl⟩
    rfl
  | busy next hchain hnext htask =>
    have hserve : Waiting.Serve waiting [] := by
      clear htask
      dsimp only at hchain
      induction hchain with
      | host hgives =>
        have hserves : ∀ o, (Focus.host (next o)).Serves none := fun o => by
          refine HostCode.ComesTo.mono (hnext o) ?_
          rintro _ ⟨result, rfl⟩
          rfl
        cases hgives with
        | caller results => exact .caller results none hserves .none
        | executor => exact .executor none hserves .none
      | instruction _ ih => exact .instruction ih
    refine .intro none ?_ hserve
    cases focus with
    | host task =>
      refine HostCode.ComesTo.mono (htask task rfl) ?_
      rintro _ ⟨arguments, result, rfl⟩
      rfl
    | _ => rfl

theorem Driven.unwatched (h : s.Driven) (hm : s.machine.Unwatched) (hstep : s.step env = .inl s')
    (hacts : s.acts = true → s.Considerate s') : s'.machine.Unwatched := by
  cases hact : s.acts with
  | true => exact hm.same (hacts hact).debugger
  | false =>
    obtain ⟨turns, -, hpassing⟩ := h.inControl.passing hact hstep
    cases hpassing with
    | quiet hattire => exact hm.same (.of_attire hattire)
    | engages d _ _ hdebugger => cases hm.debugger.symm.trans hdebugger

theorem samePlaces_of_bearings {c c' : Core} (h : c'.bearings = c.bearings) : c.executor.SamePlaces c'.executor :=
  ⟨congrArg Bearings.pc h, congrArg Bearings.callers h⟩

theorem enter_gives (m : Machine δ ν) (waiting : List (Waiting δ ν ρ)) (next : Except Failure Execution → Task δ ν ρ)
    (entry : Entry) :
    (∃ m' w, w.Gives next ∧ enter m waiting next entry = ⟨m', .tick, w :: waiting⟩ ∧
      ((∃ home, m'.core.executor.pc = { home } ∧
        m'.core.executor.callers = m.core.executor.callers.push m.core.executor.pc) ∨
          m.core.executor.SamePlaces m'.core.executor)) ∨
      ∃ m' outcome, enter m waiting next entry = ⟨m', .host (next outcome), waiting⟩ ∧
        (m.core.executor.SamePlaces m'.core.executor ∨ m'.core.executor.callers = #[]) := by
  cases entry with
  | call index arguments =>
    rcases enter_call_cases m waiting next index arguments with
      ⟨home, memory, -, -, hentered⟩ | ⟨failure, hrefused⟩ | ⟨memory, failure, hrefused⟩
    · exact .inl ⟨_, _, .caller _, hentered, .inl ⟨home, rfl, rfl⟩⟩
    · exact .inr ⟨_, _, hrefused, .inl (.refl _)⟩
    · refine .inr ⟨_, _, hrefused, ?_⟩
      rcases (m.laden (Entry.load arguments) memory).abandon_eq with ⟨-, habandon⟩ | ⟨-, habandon⟩ <;> rw [habandon]
      · exact .inr rfl
      · exact .inl ⟨rfl, rfl⟩
  | execute index ready =>
    rcases enter_execute_cases m waiting next index ready with ⟨home, -, hentered⟩ | ⟨failure, hrefused⟩
    · exact .inl ⟨_, _, .executor, hentered, .inl ⟨home, rfl, rfl⟩⟩
    · exact .inr ⟨_, _, hrefused, .inl ⟨rfl, rfl⟩⟩
  | resume =>
    unfold enter
    cases m.suspended with
    | none => exact .inr ⟨_, _, rfl, .inl (.refl _)⟩
    | some results => exact .inl ⟨_, _, .caller results, rfl, .inr ⟨rfl, rfl⟩⟩

theorem places_complete (m : Machine δ ν) (results : UInt8) (result : Except Failure Bool) :
    m.core.executor.SamePlaces (m.complete results result).2.core.executor ∨
      (m.complete results result).2.core.executor.callers = #[] := by
  rcases result with failure | _ | _
  · change m.core.executor.SamePlaces m.abandon.core.executor ∨ m.abandon.core.executor.callers = #[]
    rcases m.abandon_eq with ⟨-, habandon⟩ | ⟨-, habandon⟩ <;> rw [habandon]
    · exact .inr rfl
    · exact .inl (.refl _)
  · have hsame : m.core.executor.SamePlaces (m.exec (Exec.popMany results.toNat)).2.core.executor :=
      samePlaces_of_bearings (Machine.bearings_exec (Exec.steady_popMany _))
    unfold Machine.complete
    rcases hpopped : m.exec (Exec.popMany results.toNat) with ⟨f | vs, m'⟩ <;>
      rw [hpopped] at hsame <;> exact .inl hsame
  · exact .inl ⟨rfl, rfl⟩

theorem leave_gives (m : Machine δ ν) {next : Except Failure Execution → Task δ ν ρ} {w : Waiting δ ν ρ}
    (hgives : w.Gives next) (result : Except Failure Bool) :
    ∃ m' outcome, leave m result [w] = ⟨m', .host (next outcome), []⟩ ∧
      (m.core.executor.SamePlaces m'.core.executor ∨ m'.core.executor.callers = #[]) ∧
      ∀ failure, result = .error failure → outcome = .error failure := by
  cases hgives with
  | caller results =>
    refine ⟨_, _, leave_caller result results next, places_complete m.closeRun results result, ?_⟩
    rintro failure rfl
    rfl
  | executor =>
    refine ⟨_, _, rfl, .inl ⟨rfl, rfl⟩, ?_⟩
    rintro failure rfl
    rfl

theorem driven_dispatch {next : Except Failure Execution → Task δ ν ρ} (hchain : Waiting.Chain next waiting)
    (hnext : ∀ o, HostCode.ComesTo Verdict.IsHost (next o)) : (dispatch env m waiting).Driven := by
  unfold dispatch
  rcases m.exec (Exec.step env.signature?) with ⟨f | flow, n⟩
  · exact .busy next hchain hnext nofun
  · cases flow with
    | entered => exact .busy next (.instruction hchain) hnext nofun
    | native index arguments =>
      dsimp only
      cases env.native? index with
      | none => exact .busy next hchain hnext nofun
      | some native =>
        refine .busy next hchain hnext ?_
        rintro task ⟨⟩
        exact HostCode.comesTo_bind _ fun r => .finish ⟨arguments, r, rfl⟩
    | _ => exact .busy next hchain hnext nofun

theorem fail_unwatched (hm : m.Unwatched) {f : Fault} (hcrash : f ≠ .crash) :
    fail env m waiting f = ⟨m, .leave (.error (m.traced f)), waiting⟩ := by
  have hpassed : ¬ (m.ticking || m.debugger.any (env.debugging.inline ·.state)) = true := by
    simp [hm.debugger, hm.ticking]
  unfold fail
  rw [if_neg hcrash, if_neg hpassed, hm.debugger]

theorem stride_idle {task : Task δ ν ρ} (htask : HostCode.ComesTo Verdict.IsHost task)
    (hstep : State.step env ⟨m, .host task, []⟩ = .inl s')
    (hacts : State.acts ⟨m, .host task, []⟩ = true → State.Considerate ⟨m, .host task, []⟩ s') :
    s'.Driven ∧ Stride env ⟨m, .host task, []⟩ s' := by
  cases htask with
  | finish hverdict =>
    obtain ⟨result, rfl⟩ := hverdict
    cases hstep
  | act hnext =>
    have hspares := (hacts rfl).spares.places
    cases hstep
    refine ⟨.idle _ rfl rfl (hnext m), ?_⟩
    rcases hspares with ⟨hpc, hcallers⟩ | ⟨n, -, hcallers⟩
    · exact .stays ⟨hpc, hcallers⟩ (Nat.le_refl _) nofun id
    · exact .forgets hcallers id
  | enter entry hnext =>
    cases hstep
    rcases enter_gives m [] _ entry with ⟨m', w, hgives, hentered, hplaces⟩ | ⟨m', outcome, hrefused, hplaces⟩
    · rw [hentered]
      refine ⟨.busy _ (.host hgives) hnext nofun, ?_⟩
      rcases hplaces with ⟨home, hpc, hcallers⟩ | hsame
      · exact .begins home rfl nofun hpc hcallers rfl
      · exact .resumes hsame (Nat.lt_succ_self _) nofun rfl
    · rw [hrefused]
      refine ⟨.idle _ rfl rfl (hnext outcome), ?_⟩
      rcases hplaces with hsame | hcallers
      · exact .stays hsame (Nat.le_refl _) nofun id
      · exact .forgets hcallers id

theorem stride_leave {next : Except Failure Execution → Task δ ν ρ} (hchain : Waiting.Chain next waiting)
    (hnext : ∀ o, HostCode.ComesTo Verdict.IsHost (next o)) (result : Except Failure Bool) :
    (leave m result waiting).Driven ∧ Stride env ⟨m, .leave result, waiting⟩ (leave m result waiting) := by
  cases hchain with
  | host hgives =>
    obtain ⟨m', outcome, hleft, hplaces, -⟩ := leave_gives m hgives result
    rw [hleft]
    refine ⟨.idle _ rfl rfl (hnext outcome), ?_⟩
    rcases hplaces with hsame | hcallers
    · exact .stays hsame (Nat.zero_le _) nofun nofun
    · exact .forgets hcallers id
  | @instruction waiting hchain =>
    have hle : waiting.length ≤ (Waiting.instruction :: waiting).length := Nat.le_succ _
    rcases result with failure | _ | _
    · exact ⟨.busy next hchain hnext nofun, .stays ⟨rfl, rfl⟩ hle nofun nofun⟩
    · exact ⟨.busy next hchain hnext nofun, .stays ⟨rfl, rfl⟩ hle nofun nofun⟩
    · exact ⟨.busy next hchain hnext nofun, .stays ⟨rfl, rfl⟩ hle nofun fun _ => trivial⟩

theorem stride_settle {next : Except Failure Execution → Task δ ν ρ} (hchain : Waiting.Chain next waiting)
    (hnext : ∀ o, HostCode.ComesTo Verdict.IsHost (next o)) (arguments : List Value)
    (result : Except Fault (Option Value)) (hstep : settle m waiting (.native arguments result) = .inl s') :
    s'.Driven ∧ Stride env ⟨m, .host (.finish (.native arguments result)), waiting⟩ s' := by
  have hhalted : State.Halted ⟨m, .host (.finish (.native arguments result)), waiting⟩ := by
    cases waiting with
    | nil => exact absurd rfl hchain.ne_nil
    | cons w waiting => trivial
  rcases result with f | _ | v <;> cases hstep <;>
    exact ⟨.busy next hchain hnext nofun, .stays ⟨rfl, rfl⟩ (Nat.le_refl _) nofun fun _ => hhalted⟩

/-- What a transition can do, and that control stays where it may be. -/
theorem Driven.stride (h : s.Driven) (hm : s.machine.Unwatched) (hstep : s.step env = .inl s')
    (hacts : s.acts = true → s.Considerate s')
    (hnative : ∀ entry next, s.focus = .host (.enter entry next) → s.waiting = []) : s'.Driven ∧ Stride env s s' := by
  obtain ⟨m, focus, waiting⟩ := s
  cases h with
  | idle task hwaiting hfocus htask =>
    cases hwaiting
    cases hfocus
    exact stride_idle htask hstep hacts
  | busy next hchain hnext htask =>
    dsimp only at hchain
    cases focus with
    | tick =>
      have htick : tick env m waiting = ⟨m, .dispatch, waiting⟩ := by
        unfold tick
        rw [hm.debugger]
      cases hstep
      rw [htick]
      exact ⟨.busy next hchain hnext nofun, .stays (.refl _) (Nat.le_refl _) nofun nofun⟩
    | dispatch =>
      cases hstep
      exact ⟨driven_dispatch hchain hnext, .dispatches rfl hchain.ne_nil rfl⟩
    | fail f =>
      cases hstep
      by_cases hcrash : f = .crash
      · have hdown : fail env m waiting f = ⟨m, .fail .crash, waiting⟩ := if_pos hcrash
        rw [hdown]
        exact ⟨.busy next hchain hnext nofun, .stays (.refl _) (Nat.le_refl _) nofun fun _ => trivial⟩
      · rw [fail_unwatched hm hcrash]
        exact ⟨.busy next hchain hnext nofun, .stays (.refl _) (Nat.le_refl _) nofun nofun⟩
    | leave result =>
      cases hstep
      exact stride_leave hchain hnext result
    | host task =>
      cases htask task rfl with
      | finish hverdict =>
        obtain ⟨arguments, result, rfl⟩ := hverdict
        exact stride_settle hchain hnext arguments result hstep
      | act hbody =>
        have hsame := (hacts rfl).native hchain.ne_nil
        cases hstep
        refine ⟨.busy next hchain hnext ?_, .stays hsame (Nat.le_refl _) nofun fun h => ?_⟩
        · rintro task ⟨⟩
          exact hbody m
        · cases waiting with
          | nil => exact h
          | cons w waiting => trivial
      | enter entry _ => exact absurd (hnative _ _ rfl) hchain.ne_nil

end State

theorem State.not_halted_of_tick {s : State δ ν ρ} (h : s.focus = .tick) : ¬ s.Halted := by
  obtain ⟨m, focus, waiting⟩ := s
  cases h
  exact id

end ScriptVm
