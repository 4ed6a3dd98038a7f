import ScriptVm.Proofs.Likeness
import ScriptVm.Proofs.Turns
import ScriptVm.Proofs.Wakefulness

/-! Two machines side by side, one of them with `nop` in place of each `sus`. As long as the first does not come to a
`sus`, they go through the same transitions, and differ in the code alone. Host code cannot tell them apart if it does
not look at the instructions. -/

namespace ScriptVm
variable {δ ν ρ α β : Type}

def Event.unread : Event δ ν → Event δ ν
  | .traced d _ => .traced d ""
  | e => e

/-- The same machine on the code without suspensions. -/
def Machine.wakeful (m : Machine δ ν) : Machine δ ν := { m with core := m.core.wakeful }

/-- The second machine is the first one on the code without suspensions. Both have told the same, except that
debuggers were shown other instructions. -/
def Machine.Woken (m m' : Machine δ ν) : Prop :=
  ∃ journal, journal.map Event.unread = m.journal.map Event.unread ∧ m' = { m.wakeful with journal }

/-- The code of the first consists of instructions. -/
structure Machine.Wakes (m m' : Machine δ ν) : Prop where
  woken : m.Woken m'
  within : m.core.bearings.Within Cursor.Aligned

/-- Host code that does the same on both machines, with a result as `p` says, unless a call that it makes is
suspended. It cannot get at the number of runs and at the call that is suspended, though it may look at them. -/
inductive HostCode.Parallel (p : α → Prop) : HostCode δ ν α → HostCode δ ν α → Prop where
  | finish {a : α} : p a → Parallel p (.finish a) (.finish a)
  | act {f g : Machine δ ν → HostCode δ ν α × Machine δ ν} :
      (∀ m m', m.Wakes m' → Parallel p (f m).1 (g m').1) →
      (∀ m m', m.Wakes m' → (f m).2.Wakes (g m').2 ∧ m.KeepsRuns (f m).2) → Parallel p (.act f) (.act g)
  | enter (entry : Entry) {next next' : Except Failure Execution → HostCode δ ν α} :
      (∀ o, o ≠ .ok .suspended → Parallel p (next o) (next' o)) → Parallel p (.enter entry next) (.enter entry next')

/-- Natives and debuggers that do not look at the instructions. -/
structure Environment.Unconcerned (env : Environment δ ν) : Prop where
  natives : ∀ n ∈ env.natives, ∀ vs, HostCode.Parallel (fun _ => True) (n.body vs) (n.body vs)
  tick : ∀ d, HostCode.Parallel (fun _ => True) (env.debugging.tick d) (env.debugging.tick d)

theorem HostCode.Parallel.bind {p : α → Prop} {q : β → Prop} {x y : HostCode δ ν α} {k k' : α → HostCode δ ν β}
    (h : Parallel p x y) (hk : ∀ a, p a → Parallel q (k a) (k' a)) : Parallel q (x.bind k) (y.bind k') := by
  induction h with
  | finish ha => exact hk _ ha
  | act _ hstate ih =>
    refine .act (fun m m' hm => ?_) fun m m' hm => ?_
    · rw [Program.bindResult_fst, Program.bindResult_fst]
      exact ih m m' hm
    · rw [Program.bindResult_snd, Program.bindResult_snd]
      exact hstate m m' hm
  | enter entry _ ih => exact .enter entry ih

theorem Core.reset_wakeful (c : Core) : c.wakeful.reset = c.reset.wakeful := by
  have hhost : ∀ n, (Section.host n).wakeful = Section.host n := by
    intro n
    have hempty : (Section.host n).MadeOf [] := ⟨rfl, nofun⟩
    rw [hempty.wakeful_eq]
    rfl
  unfold reset Executor.reset
  simp only [wakeful, relocate, Cursor.relocate, hhost, Array.map_empty]

/-! ### Machines -/

namespace Machine
variable {m m' : Machine δ ν}

theorem woken_wakeful (m : Machine δ ν) : m.Woken m.wakeful := ⟨m.journal, rfl, rfl⟩

theorem Woken.map (hm : m.Woken m') {f : Machine δ ν → Machine δ ν} (hwakeful : ∀ m, f m.wakeful = (f m).wakeful)
    (hjournal : ∀ m journal, f { m with journal } = { f m with journal }) : (f m).Woken (f m') := by
  obtain ⟨journal, htold, rfl⟩ := hm
  refine ⟨journal, ?_, ?_⟩
  · have hkept := congrArg Machine.journal (hjournal m m.journal)
    change (f m).journal = m.journal at hkept
    rw [hkept]
    exact htold
  · rw [hjournal, hwakeful]

theorem Woken.tell (hm : m.Woken m') (e e' : Event δ ν) (he : e'.unread = e.unread) :
    (m.tell e).Woken (m'.tell e') := by
  obtain ⟨journal, htold, rfl⟩ := hm
  refine ⟨journal.push e', ?_, rfl⟩
  change (journal.push e').map Event.unread = (m.journal.push e).map Event.unread
  rw [Array.map_push, Array.map_push, htold, he]

theorem Woken.exec (hm : m.Woken m') {x : Exec α} (hx : x m.core.wakeful = Exec.relocate Section.wakeful (x m.core)) :
    (∃ a n n', m.exec x = (.ok a, n) ∧ m'.exec x = (.ok a, n') ∧ n.Woken n') ∨
      ∃ f n n', m.exec x = (.error f, n) ∧ m'.exec x = (.error f, n') ∧ n.Woken n' := by
  obtain ⟨journal, htold, rfl⟩ := hm
  cases hrun : x m.core with
  | ok a c =>
    rw [hrun] at hx
    exact Or.inl ⟨a, _, _, exec_of_ok hrun, exec_of_ok hx, journal, htold, rfl⟩
  | error f c =>
    rw [hrun] at hx
    exact Or.inr ⟨f, _, _, exec_of_error hrun, exec_of_error hx, journal, htold, rfl⟩

theorem Woken.exec_snd (hm : m.Woken m') {x : Exec α} (hx : Exec.Placeless Section.wakeful x) :
    (m.exec x).2.Woken (m'.exec x).2 := by
  rcases hm.exec (hx m.core) with ⟨a, n, n', hrun, hrun', hn⟩ | ⟨f, n, n', hrun, hrun', hn⟩ <;> rw [hrun, hrun'] <;>
    exact hn

theorem Woken.congr (hm : m.Woken m') (f : Machine δ ν → α)
    (hf : ∀ (m : Machine δ ν) journal, f { m.wakeful with journal } = f m) : f m' = f m := by
  obtain ⟨journal, -, rfl⟩ := hm
  exact hf m journal

theorem Woken.runs (hm : m.Woken m') : m'.core.runs = m.core.runs := hm.congr (·.core.runs) fun _ _ => rfl

theorem Woken.suspended (hm : m.Woken m') : m'.suspended = m.suspended := hm.congr (·.suspended) fun _ _ => rfl

theorem Woken.debugger (hm : m.Woken m') : m'.debugger = m.debugger := hm.congr (·.debugger) fun _ _ => rfl

theorem Woken.traced (hm : m.Woken m') (f : Fault) : m'.traced f = m.traced f :=
  hm.congr (·.traced f) fun m _ => congrArg (Failure.mk f) (Core.trace_relocate Section.matches_wakeful m.core)

theorem Woken.openRun (hm : m.Woken m') : m.openRun.Woken m'.openRun := hm.map (fun _ => rfl) fun _ _ => rfl

theorem Woken.closeRun (hm : m.Woken m') : m.closeRun.Woken m'.closeRun := hm.map (fun _ => rfl) fun _ _ => rfl

theorem Woken.setSuspended (hm : m.Woken m') (results : Option UInt8) :
    Woken { m with suspended := results } { m' with suspended := results } :=
  hm.map (f := fun m => { m with suspended := results }) (fun _ => rfl) fun _ _ => rfl

theorem Woken.handOver (hm : m.Woken m') : m.handOver.Woken m'.handOver := hm.map (fun _ => rfl) fun _ _ => rfl

theorem Woken.takeBack (hm : m.Woken m') (d : Attached δ) : (m.takeBack d).Woken (m'.takeBack d) := by
  obtain ⟨journal, htold, rfl⟩ := hm
  have hleft : Woken { m with ticking := false, detachPending := false }
      { { m.wakeful with journal } with ticking := false, detachPending := false } := ⟨journal, htold, rfl⟩
  unfold Machine.takeBack
  change (if m.detachPending || m.debugger.isSome then _ else _ : Machine δ ν).Woken
    (if m.detachPending || m.debugger.isSome then _ else _)
  split_ifs
  · exact hleft.tell _ _ rfl
  · exact ⟨journal, htold, rfl⟩

theorem Woken.abandon (hm : m.Woken m') : m.abandon.Woken m'.abandon := by
  unfold Machine.abandon
  rw [hm.runs]
  split_ifs
  · exact (hm.map (f := fun m => m.modifyCore Core.reset)
      (fun m => congrArg (fun core => { m with core }) (Core.reset_wakeful m.core)) fun _ _ => rfl).setSuspended none
  · exact hm

theorem Woken.complete (hm : m.Woken m') (results : UInt8) (result : Except Failure Bool) :
    ∃ o n n', m.complete results result = (o, n) ∧ m'.complete results result = (o, n') ∧ n.Woken n' ∧
      (result ≠ .ok true → o ≠ .ok .suspended) := by
  unfold Machine.complete
  rcases result with failure | _ | _
  · exact ⟨_, _, _, rfl, rfl, hm.abandon, nofun⟩
  · rcases hm.exec (Exec.placeless_popMany results.toNat m.core) with
      ⟨vs, n, n', hrun, hrun', hn⟩ | ⟨f, n, n', hrun, hrun', hn⟩ <;> simp only [hrun, hrun'] <;>
      exact ⟨_, _, _, rfl, rfl, hn, nofun⟩
  · exact ⟨_, _, _, rfl, rfl, hm.setSuspended (some results), fun hresult => absurd rfl hresult⟩

theorem Woken.prepareCall (hm : m.Woken m') (index : UInt32) (arguments : List Value) :
    ∃ result n n', m.prepareCall index arguments = (result, n) ∧ m'.prepareCall index arguments = (result, n') ∧
      n.Woken n' := by
  have hpush : Exec.Placeless Section.wakeful (do
      arguments.forM Exec.pushShared
      Exec.push (.int (.ofInt arguments.length))) :=
    (Exec.Placeless.forM Exec.placeless_pushShared arguments).bind fun _ => Exec.placeless_push _
  have hget : m'.core.sections.get index = (m.core.sections.get index).map Section.wakeful := by
    obtain ⟨journal, -, rfl⟩ := hm
    exact m.core.sections.get_relocate Section.wakeful index
  unfold Machine.prepareCall
  rw [hm.runs, hm.suspended, hget]
  split_ifs
  · exact ⟨_, m, m', rfl, rfl, hm⟩
  · cases m.core.sections.get index with
    | error e => exact ⟨_, m, m', rfl, rfl, hm⟩
    | ok home =>
      have hmatches := Section.matches_wakeful home
      simp only [Except.map, hmatches.checkArguments, hmatches.results]
      cases home.checkArguments arguments.length with
      | error f => exact ⟨_, m, m', rfl, rfl, hm⟩
      | ok _ => exact ⟨_, _, _, rfl, rfl, hm.exec_snd hpush⟩

end Machine

/-- A piece of execution that looks at no places in code and keeps them. -/
theorem HostCode.parallel_exec {x : Exec α} {q : Bearings → Fault → Prop} (hx : Exec.Placeless Section.wakeful x)
    (hsteady : Exec.Steady q x) :
    Parallel (δ := δ) (ν := ν) (fun _ => True) (Program.state (·.exec x)) (Program.state (·.exec x)) := by
  refine .act (fun m m' hm => ?_) fun m m' hm => ?_
  · rcases hm.woken.exec (hx m.core) with ⟨a, n, n', hrun, hrun', -⟩ | ⟨f, n, n', hrun, hrun', -⟩ <;>
      simp only [hrun, hrun'] <;> exact .finish trivial
  · have hkept := Machine.bearings_exec (m := m) hsteady
    refine ⟨⟨hm.woken.exec_snd hx, ?_⟩, congrArg Bearings.runs hkept, ?_⟩
    · change (m.exec x).2.core.bearings.Within Cursor.Aligned
      rw [hkept]
      exact hm.within
    · change (m.exec x).2.suspended = m.suspended
      unfold Machine.exec
      cases x m.core <;> rfl

/-! ### States -/

def Verdict.Grants (p : ρ → Prop) : Verdict δ ρ → Prop
  | .host result => p result
  | _ => True

def Task.Parallel (p : ρ → Prop) (next next' : Except Failure Execution → Task δ ν ρ) : Prop :=
  ∀ o, o ≠ .ok .suspended → HostCode.Parallel (Verdict.Grants p) (next o) (next' o)

theorem Task.Parallel.failed {p : ρ → Prop} {next next' : Except Failure Execution → Task δ ν ρ}
    (h : Task.Parallel p next next') (failure : Failure) :
    HostCode.Parallel (Verdict.Grants p) (next (.error failure)) (next' (.error failure)) := h _ nofun

inductive Focus.Parallel (p : ρ → Prop) : Focus δ ν ρ → Focus δ ν ρ → Prop where
  | tick : Parallel p .tick .tick
  | dispatch : Parallel p .dispatch .dispatch
  | fail (f : Fault) : Parallel p (.fail f) (.fail f)
  | leave (result : Except Failure Bool) : Parallel p (.leave result) (.leave result)
  | host {task task' : Task δ ν ρ} : HostCode.Parallel (Verdict.Grants p) task task' →
      Parallel p (.host task) (.host task')

inductive Waiting.Parallel (p : ρ → Prop) : Waiting δ ν ρ → Waiting δ ν ρ → Prop where
  | instruction : Parallel p .instruction .instruction
  | caller (results : UInt8) {next next' : Except Failure Execution → Task δ ν ρ} : Task.Parallel p next next' →
      Parallel p (.caller results next) (.caller results next')
  | executor {next next' : Except Failure Execution → Task δ ν ρ} : Task.Parallel p next next' →
      Parallel p (.executor next) (.executor next')

structure State.Beside (p : ρ → Prop) (s s' : State δ ν ρ) : Prop where
  machine : s.machine.Woken s'.machine
  focus : Focus.Parallel p s.focus s'.focus
  waiting : List.Forall₂ (Waiting.Parallel p) s.waiting s'.waiting

/-- The same result, which is as `p` says, and the machines side by side. -/
def State.JointEnd (p : ρ → Prop) (a b : ρ × Machine δ ν) : Prop := p a.1 ∧ b.1 = a.1 ∧ a.2.Woken b.2

namespace State
variable {p : ρ → Prop} {m m' : Machine δ ν} {waiting waiting' : List (Waiting δ ν ρ)} {env : Environment δ ν}

theorem beside_enter (hm : m.Woken m') (hw : List.Forall₂ (Waiting.Parallel p) waiting waiting')
    {next next' : Except Failure Execution → Task δ ν ρ} (hnext : Task.Parallel p next next') (entry : Entry) :
    Beside p (enter m waiting next entry) (enter m' waiting' next' entry) := by
  cases entry with
  | call index arguments =>
    obtain ⟨result, n, n', hready, hready', hn⟩ := hm.prepareCall index arguments
    simp only [enter, hready, hready']
    cases result with
    | error failure => exact ⟨hn, .host (hnext.failed failure), hw⟩
    | ok results =>
      rcases hn.exec (Exec.placeless_enterSection index n.core) with
        ⟨_, o, o', hrun, hrun', ho⟩ | ⟨f, o, o', hrun, hrun', ho⟩ <;> simp only [hrun, hrun']
      · exact ⟨ho.openRun, .tick, .cons (.caller results hnext) hw⟩
      · rw [ho.traced f]
        obtain ⟨r, q, q', hfailed, hfailed', hq, hends⟩ := ho.complete results (.error (o.traced f))
        simp only [hfailed, hfailed']
        exact ⟨hq, .host (hnext r (hends (by simp))), hw⟩
  | execute index ready =>
    have hstart : Exec.Placeless Section.wakeful (if ready then pure () else Exec.push (.int 0)) :=
      Exec.Placeless.ite (Exec.placeless_pure ()) (Exec.placeless_push _)
    have hn := hm.exec_snd hstart
    rcases hn.exec (Exec.placeless_enterSection index _) with
      ⟨_, o, o', hrun, hrun', ho⟩ | ⟨f, o, o', hrun, hrun', ho⟩ <;> simp only [enter, hrun, hrun']
    · exact ⟨ho.openRun, .tick, .cons (.executor hnext) hw⟩
    · rw [ho.traced f]
      exact ⟨ho, .host (hnext.failed _), hw⟩
  | resume =>
    simp only [enter, hm.suspended]
    cases m.suspended with
    | none => exact ⟨hm, .host (hnext.failed _), hw⟩
    | some results => exact ⟨(hm.setSuspended none).openRun, .tick, .cons (.caller results hnext) hw⟩

theorem beside_settle (hm : m.Woken m') (hw : List.Forall₂ (Waiting.Parallel p) waiting waiting') {v : Verdict δ ρ}
    (hv : v.Grants p) : Sum.LiftRel (Beside p) (JointEnd p) (settle m waiting v) (settle m' waiting' v) := by
  cases v with
  | host result => exact .inr ⟨hv, rfl, hm⟩
  | native vs x =>
    have hn := hm.exec_snd (Exec.placeless_drop vs)
    rcases x with f | _ | v
    · exact .inl ⟨hn, .fail f, hw⟩
    · exact .inl ⟨hn, .tick, hw⟩
    · exact .inl ⟨hn.exec_snd (Exec.placeless_push v), .tick, hw⟩
  | tick d result =>
    have hn := hm.takeBack d
    cases result with
    | error f =>
      simp only [settle, hn.traced f]
      exact .inl ⟨hn, .leave _, hw⟩
    | ok _ => exact .inl ⟨hn, .dispatch, hw⟩
  | pause d failure => exact .inl ⟨hm.takeBack d, .leave _, hw⟩

theorem beside_tick (henv : env.Unconcerned) (hm : m.Woken m') (hw : List.Forall₂ (Waiting.Parallel p) waiting waiting') :
    Beside p (tick env m waiting) (tick env m' waiting') := by
  unfold tick
  rw [hm.debugger]
  cases m.debugger with
  | none => exact ⟨hm, .dispatch, hw⟩
  | some d =>
    have hturn : HostCode.Parallel (Verdict.Grants p) _ _ := (henv.tick d.state).bind fun a _ =>
      .finish (a := Verdict.tick { d with state := a.2 } a.1) trivial
    have hshown : ∀ line line', (m.tell (.traced d line)).Woken (m'.tell (.traced d line')) :=
      fun _ _ => hm.tell _ _ rfl
    dsimp only
    split_ifs
    · exact ⟨(hshown _ _).handOver, .host hturn, hw⟩
    · exact ⟨hm.handOver, .host hturn, hw⟩

theorem beside_fail (henv : env.Unconcerned) (hm : m.Woken m') (hw : List.Forall₂ (Waiting.Parallel p) waiting waiting')
    (f : Fault) : Beside p (fail env m waiting f) (fail env m' waiting' f) := by
  have hticking : m'.ticking = m.ticking := hm.congr (·.ticking) fun _ _ => rfl
  unfold fail
  rw [hm.debugger, hticking, hm.traced f]
  split_ifs
  · exact ⟨hm, .fail _, hw⟩
  · exact ⟨hm, .leave _, hw⟩
  · cases m.debugger with
    | none => exact ⟨hm, .leave _, hw⟩
    | some d => exact ⟨(hm.tell _ _ rfl).handOver, .host ((henv.tick d.state).bind fun a _ => .finish trivial), hw⟩

theorem beside_dispatch (henv : env.Unconcerned) (hm : m.Wakes m')
    (hw : List.Forall₂ (Waiting.Parallel p) waiting waiting') (hawake : m.core.executor.pc.sleepy = false) :
    Beside p (dispatch env m waiting) (dispatch env m' waiting') := by
  have hstep : Exec.step env.signature? m.core.wakeful = _ :=
    Exec.step_wakeful env.signature? hm.within.pc hawake
  rcases hm.woken.exec hstep with ⟨flow, n, n', hrun, hrun', hn⟩ | ⟨f, n, n', hrun, hrun', hn⟩ <;>
    simp only [dispatch, hrun, hrun']
  · cases flow with
    | next => exact ⟨hn, .tick, hw⟩
    | returned => exact ⟨hn, .leave _, hw⟩
    | suspended => exact ⟨hn, .leave _, hw⟩
    | entered => exact ⟨hn.openRun, .tick, .cons .instruction hw⟩
    | native index vs =>
      dsimp only
      cases hnative : env.native? index with
      | none => exact ⟨hn, .fail _, hw⟩
      | some native =>
        have hinvoke : HostCode.Parallel (fun _ => True) (native.invoke vs) (native.invoke vs) := by
          unfold Native.invoke
          split_ifs
          · exact henv.natives native (Array.mem_of_getElem? hnative) vs
          · exact .finish trivial
        exact ⟨hn, .host (hinvoke.bind fun x _ => .finish trivial), hw⟩
  · exact ⟨hn, .fail f, hw⟩

theorem beside_leave (hm : m.Woken m') (hw : List.Forall₂ (Waiting.Parallel p) waiting waiting')
    {result : Except Failure Bool} (hresult : result ≠ .ok true) : Beside p (leave m result waiting) (leave m' result waiting') := by
  cases hw with
  | nil => exact ⟨hm, .leave _, .nil⟩
  | cons hhead hw =>
    have hn := hm.closeRun
    cases hhead with
    | instruction =>
      rcases result with failure | _ | _
      · exact ⟨hn, .leave _, hw⟩
      · exact ⟨hn, .tick, hw⟩
      · exact absurd rfl hresult
    | caller results hnext =>
      obtain ⟨r, q, q', hended, hended', hq, hends⟩ := hn.complete results result
      simp only [leave, hended, hended']
      exact ⟨hq, .host (hnext r (hends hresult)), hw⟩
    | executor hnext =>
      refine ⟨hn, .host (hnext _ ?_), hw⟩
      rcases result with failure | _ | _
      · nofun
      · nofun
      · exact absurd rfl hresult

def drowsy : State δ ν ρ → Bool
  | ⟨m, .dispatch, _⟩ => m.core.executor.pc.sleepy
  | _ => false

variable {s s' : State δ ν ρ}

theorem beside_step (henv : env.Unconcerned) (h : Beside p s s')
    (hwithin : s.machine.core.bearings.Within Cursor.Aligned) (hawake : s.drowsy = false)
    (hends : s.focus.outcome? ≠ some true) : Sum.LiftRel (Beside p) (JointEnd p) (s.step env) (s'.step env) := by
  obtain ⟨m, focus, waiting⟩ := s
  obtain ⟨m', focus', waiting'⟩ := s'
  obtain ⟨hm, hfocus, hw⟩ := h
  cases hfocus with
  | tick => exact .inl (beside_tick henv hm hw)
  | dispatch => exact .inl (beside_dispatch henv ⟨hm, hwithin⟩ hw hawake)
  | fail f => exact .inl (beside_fail henv hm hw f)
  | leave result =>
    refine .inl (beside_leave hm hw ?_)
    rintro rfl
    exact hends rfl
  | host htask =>
    cases htask with
    | finish hverdict => exact beside_settle hm hw hverdict
    | act hcode hstate => exact .inl ⟨(hstate m m' ⟨hm, hwithin⟩).1.woken, .host (hcode m m' ⟨hm, hwithin⟩), hw⟩
    | enter entry hnext => exact .inl (beside_enter hm hw hnext entry)

/-- Host code in parallel leaves the calls and the places in code as they have to be. -/
theorem Beside.kept_of_acts (h : Beside p s s') (hwithin : s.machine.core.bearings.Within Cursor.Aligned)
    (hacts : s.acts = true) {t : State δ ν ρ} (hstep : s.step env = .inl t) :
    s.machine.KeepsRuns t.machine ∧ t.machine.core.bearings.Within Cursor.Aligned := by
  obtain ⟨m, focus, waiting⟩ := s
  obtain ⟨m', focus', waiting'⟩ := s'
  obtain ⟨hm, hfocus, -⟩ := h
  cases hfocus with
  | host htask =>
    cases htask with
    | act _ hstate =>
      obtain ⟨hwakes, hkeeps⟩ := hstate m m' ⟨hm, hwithin⟩
      cases hstep
      exact ⟨hkeeps, hwakes.within⟩
    | finish verdict => cases hacts
    | enter entry _ => cases hacts
  | _ => cases hacts

theorem Beside.isDown (h : Beside p s s') : s'.isDown = s.isDown := by
  obtain ⟨m, focus, waiting⟩ := s
  obtain ⟨m', focus', waiting'⟩ := s'
  cases h.focus with
  | fail f => cases f <;> rfl
  | _ => rfl

end State
end ScriptVm
