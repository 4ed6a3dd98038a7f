import ScriptVm.Proofs.Stranding

/-! How deep calls can go. Sections are entered in three ways, by an instruction, by a call of the host and by
having one executed, and each of them looks at the same limit first. Every run that is in progress has its place
among the callers, so that the limit bounds the runs as well, and with them how far the machine runs itself. -/

namespace ScriptVm
variable {δ ν ρ : Type}

def Core.IsFull (c : Core) : Prop := c.config.maxCallDepth ≤ c.executor.depth

/-- The calls are no deeper than before, or there was room for one more. -/
structure Core.Climbs (c c' : Core) : Prop where
  config : c'.config = c.config
  depth : c'.executor.depth ≤ c.executor.depth ∨ ¬ c.IsFull ∧ c'.executor.depth = c.executor.depth + 1

/-- The states that a new machine gets into, whatever has sections run and whatever is done about their failures.
The host, natives and debuggers leave the calls and the limit alone but by having sections run, except that all
calls can be forgotten while nothing runs and nothing is suspended. -/
inductive Reentrant (env : Environment δ ν) : State δ ν ρ → Prop where
  | start (config : Config) (world : World) (code : Task δ ν ρ) : Reentrant env ⟨.new config world, .host code, []⟩
  | step {s s' : State δ ν ρ} : Reentrant env s → s.acts = false → s.step env = .inl s' → Reentrant env s'
  | act {m : Machine δ ν} {waiting : List (Waiting δ ν ρ)} {f : Machine δ ν → Task δ ν ρ × Machine δ ν} :
      Reentrant env ⟨m, .host (.act f), waiting⟩ → m.KeepsRuns (f m).2 → (f m).2.core.config = m.core.config →
      (f m).2.core.executor.callers = m.core.executor.callers ∨
        m.core.runs = 0 ∧ m.suspended = none ∧ (f m).2.core.executor.callers = #[] →
      Reentrant env ⟨(f m).2, .host (f m).1, waiting⟩
  | again {s : State δ ν ρ} {r : ρ} {m : Machine δ ν} (code : Task δ ν ρ) : Reentrant env s →
      s.step env = .inr (r, m) → m.core.runs = 0 → Reentrant env ⟨m, .host code, []⟩

/-- What happens next is that the section is entered, if the calls are not too deep for it. -/
inductive State.Attempts (index : UInt32) : State δ ν ρ → Prop where
  | instruction {m : Machine δ ν} {waiting : List (Waiting δ ν ρ)} {count : UInt8} {next : Cursor} {home : Section} :
      Cursor.readInstruction m.core.executor.pc = .ok ⟨.call, (index, count, ())⟩ next →
      m.core.sections.get index = .ok home → home.checkArguments count.toNat = .ok () →
      Attempts index ⟨m, .dispatch, waiting⟩
  | call {m m₁ : Machine δ ν} {waiting : List (Waiting δ ν ρ)} {arguments : List Value} {results : UInt8}
      {next : Except Failure Execution → Task δ ν ρ} : m.prepareCall index arguments = (.ok results, m₁) →
      Attempts index ⟨m, .host (.enter (.call index arguments) next), waiting⟩
  | execute {m : Machine δ ν} {waiting : List (Waiting δ ν ρ)} {ready : Bool}
      {next : Except Failure Execution → Task δ ν ρ} :
      Attempts index ⟨m, .host (.enter (.execute index ready) next), waiting⟩

/-- A section was not entered because the calls are too deep, and whoever wanted it entered is told so. -/
structure State.Refused (s s' : State δ ν ρ) : Prop where
  waiting : s'.waiting = s.waiting
  runs : s'.machine.core.runs = s.machine.core.runs
  /-- A failed call outside all runs has everything forgotten. -/
  callers : s'.machine.core.executor.callers = s.machine.core.executor.callers ∨
    s.machine.core.runs = 0 ∧ s'.machine.core.executor.callers = #[]
  raised : ∃ f : Fault, f.kind = .misc ∧ f.message = "Maximum call depth exceeded" ∧
    (s.focus = .dispatch ∧ s'.focus = .fail f ∨
      ∃ entry next trace, s.focus = .host (.enter entry next) ∧ s'.focus = .host (next (.error { fault := f, trace })))

/-! ### Entering at the limit -/

theorem Core.Climbs.refl (c : Core) : c.Climbs c := ⟨rfl, Or.inl (Nat.le_refl _)⟩

theorem Core.Climbs.of_eq {c c' : Core} (hconfig : c'.config = c.config)
    (hcallers : c'.executor.callers = c.executor.callers) : c.Climbs c' :=
  ⟨hconfig, Or.inl (by rw [Executor.depth, hcallers, Executor.depth])⟩

theorem Core.Climbs.congr {c c' c₁ c₁' : Core} (h : c₁.Climbs c₁') (hconfig : c.config = c₁.config)
    (hcallers : c.executor.callers = c₁.executor.callers) (hconfig' : c'.config = c₁'.config)
    (hcallers' : c'.executor.callers = c₁'.executor.callers) : c.Climbs c' := by
  refine ⟨by rw [hconfig, hconfig', h.config], ?_⟩
  unfold IsFull Executor.depth
  rw [hconfig, hcallers, hcallers']
  exact h.depth

theorem Core.climbs_laden (c : Core) (vs : List Value) (memory : Memory) : c.Climbs (c.laden vs memory) :=
  .of_eq rfl rfl

theorem Core.climbs_entering {c : Core} (hroom : ¬ c.IsFull) (home : Section) : c.Climbs (c.entering home) :=
  ⟨rfl, Or.inr ⟨hroom, Array.size_push _⟩⟩

theorem Core.Climbs.bounded {c c' : Core} (h : c.Climbs c') (hc : c.executor.depth ≤ c.config.maxCallDepth) :
    c'.executor.depth ≤ c'.config.maxCallDepth := by
  rw [h.config]
  rcases h.depth with hle | ⟨hroom, hone⟩
  · exact Nat.le_trans hle hc
  · rw [hone]
    exact Nat.lt_of_not_le hroom

namespace Exec

theorem enterSection_full {c : Core} (hfull : c.IsFull) (index : UInt32) :
    enterSection index c = .error .tooDeep c := by
  unfold Core.IsFull at hfull
  unfold enterSection
  rw [run_get, if_pos hfull]
  rfl

/-- A call whose section is there and takes so many arguments has nothing left to fail for but its depth. -/
theorem execute_call_checked (natives : UInt32 → Option Signature) {callee : UInt32} {count : UInt8} {c : Core}
    {home : Section} (hhome : c.sections.get callee = .ok home) (hcheck : home.checkArguments count.toNat = .ok ()) :
    Instruction.execute natives ⟨.call, (callee, count, ())⟩ c =
      (enterSection callee >>= fun _ => pure Flow.entered : Exec Flow)
        (c.laden [.int (.ofInt count.toNat)] c.memory) := by
  simp only [Instruction.execute, bind, EStateM.bind, get, getThe, MonadStateOf.get, EStateM.get, hhome, hcheck]
  rfl

theorem execute_call_full (natives : UInt32 → Option Signature) {callee : UInt32} {count : UInt8} {c : Core}
    {home : Section} (hfull : c.IsFull) (hhome : c.sections.get callee = .ok home)
    (hcheck : home.checkArguments count.toNat = .ok ()) :
    Instruction.execute natives ⟨.call, (callee, count, ())⟩ c =
      .error .tooDeep (c.laden [.int (.ofInt count.toNat)] c.memory) := by
  have hrefused := enterSection_full (c := c.laden [.int (.ofInt count.toNat)] c.memory) hfull callee
  rw [execute_call_checked natives hhome hcheck]
  simp only [bind, EStateM.bind, hrefused]

theorem climbs_execute_call (natives : UInt32 → Option Signature) (callee : UInt32) (count : UInt8) (c : Core) :
    Ends c.Climbs (fun _ => c.Climbs) (Instruction.execute natives ⟨.call, (callee, count, ())⟩ c) := by
  rcases execute_call_cases natives callee count c with ⟨home, hhome, hentered⟩ | ⟨f, vs, hfailed⟩
  · rw [hentered]
    refine (Core.climbs_entering (c := c) (fun hfull => ?_) home).congr rfl rfl rfl rfl
    cases hcheck : home.checkArguments count.toNat with
    | ok u => cases hentered.symm.trans (execute_call_full natives hfull hhome hcheck)
    | error f =>
      simp only [Instruction.execute, bind, EStateM.bind, get, getThe, MonadStateOf.get, EStateM.get, hhome,
        hcheck] at hentered
      cases hentered
  · rw [hfailed]
    exact c.climbs_laden vs _

theorem climbs_execute (natives : UInt32 → Option Signature) (i : Instruction) (c : Core) :
    Ends c.Climbs (fun _ => c.Climbs) (i.execute natives c) := by
  by_cases hcall : i.op = .call
  · obtain ⟨op, operands⟩ := i
    cases hcall
    exact climbs_execute_call natives operands.1 operands.2.1 c
  · have hclimbs : ∀ {c' : Core}, Shift i c.bearings c'.bearings → c.Climbs c' := by
      intro c' hshift
      generalize hb : c'.bearings = b at hshift
      have hconfig : c'.config = b.config := by rw [← hb]; rfl
      have hcallers : c'.executor.callers = b.callers := by rw [← hb]; rfl
      cases hshift with
      | stay | rebase | jump => exact .of_eq hconfig hcallers
      | enter h _ => exact absurd h hcall
      | leave base _ _ =>
        refine ⟨hconfig, Or.inl ?_⟩
        rw [Executor.depth, hcallers, Array.size_pop]
        exact Nat.sub_le _ _
    exact (Instruction.shift_execute natives i c).mono (fun _ => hclimbs) fun _ _ h => hclimbs h.1

end Exec

namespace Machine
variable {m : Machine δ ν}

theorem climbs_abandon (m : Machine δ ν) : m.core.Climbs m.abandon.core := by
  rcases m.abandon_eq with ⟨-, habandon⟩ | ⟨-, habandon⟩ <;> rw [habandon]
  · exact ⟨rfl, Or.inl (Nat.zero_le _)⟩
  · exact .refl _

theorem climbs_complete (m : Machine δ ν) (results : UInt8) (r : Except Failure Bool) :
    m.core.Climbs (m.complete results r).2.core := by
  rcases r with failure | _ | _
  · exact m.climbs_abandon
  · have hpopped := Exec.popMany_eq results.toNat m.core
    unfold complete
    split_ifs at hpopped
    · rw [exec_of_error hpopped]
      exact .refl _
    · rw [exec_of_ok hpopped]
      exact .of_eq rfl rfl
  · exact .refl _

end Machine

namespace State
variable {env : Environment δ ν} {m : Machine δ ν} {waiting : List (Waiting δ ν ρ)}

theorem enter_call_full (waiting : List (Waiting δ ν ρ)) (hfull : m.core.IsFull) {index : UInt32}
    {arguments : List Value} {results : UInt8} {m₁ : Machine δ ν}
    (hprepared : m.prepareCall index arguments = (.ok results, m₁))
    (next : Except Failure Execution → Task δ ν ρ) :
    ∃ memory, enter m waiting next (.call index arguments) =
      ⟨(m.laden (Entry.load arguments) memory).abandon,
        .host (next (.error ((m.laden (Entry.load arguments) memory).traced .tooDeep))), waiting⟩ := by
  rcases m.prepareCall_cases index arguments with ⟨home, memory, -, hready⟩ | ⟨failure, hrefused⟩
  · have hrefused := Machine.exec_of_error
      (m := { m with core := m.core.laden (arguments.map Value.share ++ [.int (.ofInt arguments.length)]) memory })
      (Exec.enterSection_full (c := m.core.laden _ memory) hfull index)
    refine ⟨memory, ?_⟩
    unfold enter
    simp only [hready, hrefused, Machine.complete]
    rfl
  · cases hrefused.symm.trans hprepared

theorem enter_execute_full (waiting : List (Waiting δ ν ρ)) (hfull : m.core.IsFull) (index : UInt32) (ready : Bool)
    (next : Except Failure Execution → Task δ ν ρ) :
    ∃ vs, enter m waiting next (.execute index ready) =
      ⟨m.laden vs m.core.memory, .host (next (.error ((m.laden vs m.core.memory).traced .tooDeep))), waiting⟩ := by
  have hrefused := Machine.exec_of_error
    (m := { m with core := m.core.laden (if ready then [] else [.int 0]) m.core.memory })
    (Exec.enterSection_full (c := m.core.laden _ m.core.memory) hfull index)
  refine ⟨if ready then [] else [.int 0], ?_⟩
  unfold enter
  simp only [m.exec_ready, hrefused]
  rfl

theorem climbs_enter (next : Except Failure Execution → Task δ ν ρ) (entry : Entry) :
    m.core.Climbs (enter m waiting next entry).machine.core := by
  cases entry with
  | call index arguments =>
    rcases enter_call_cases m waiting next index arguments with
      ⟨home, memory, -, -, hentered⟩ | ⟨failure, hrefused⟩ | ⟨memory, failure, hrefused⟩
    · rw [hentered]
      refine (Core.climbs_entering (c := m.core) (fun hfull => ?_) home).congr rfl rfl rfl rfl
      rcases hprepared : m.prepareCall index arguments with ⟨failure | results, m₁⟩
      · unfold enter at hentered
        simp only [hprepared] at hentered
        cases hentered
      · obtain ⟨memory', hfailed⟩ := enter_call_full waiting hfull hprepared next
        cases congrArg focus (hentered.symm.trans hfailed)
    · rw [hrefused]
      exact .refl _
    · rw [hrefused]
      exact (m.laden (Entry.load arguments) memory).climbs_abandon.congr rfl rfl rfl rfl
  | execute index ready =>
    rcases enter_execute_cases m waiting next index ready with ⟨home, -, hentered⟩ | ⟨failure, hrefused⟩
    · rw [hentered]
      refine (Core.climbs_entering (c := m.core) (fun hfull => ?_) home).congr rfl rfl rfl rfl
      obtain ⟨vs, hfailed⟩ := enter_execute_full waiting hfull index ready next
      cases congrArg focus (hentered.symm.trans hfailed)
    · rw [hrefused]
      exact m.core.climbs_laden _ _
  | resume =>
    unfold enter
    cases m.suspended with
    | none => exact .refl _
    | some results => exact .of_eq rfl rfl

theorem climbs_dispatch : m.core.Climbs (dispatch env m waiting).machine.core := by
  unfold dispatch
  cases hread : Cursor.readInstruction m.core.executor.pc with
  | error e pc =>
    rw [Machine.exec_of_error (Exec.step_of_unread hread)]
    exact .of_eq rfl rfl
  | ok i next =>
    have hclimbs := Exec.climbs_execute env.signature? i (m.core.withPc next)
    have hstep : Exec.step env.signature? m.core = _ := Exec.step_of_read hread
    cases hexecute : i.execute env.signature? (m.core.withPc next) with
    | error f c =>
      rw [hexecute] at hclimbs
      rw [Machine.exec_of_error (hstep.trans hexecute)]
      exact hclimbs.congr rfl rfl rfl rfl
    | ok flow c =>
      rw [hexecute] at hclimbs
      rw [Machine.exec_of_ok (hstep.trans hexecute)]
      cases flow with
      | native index arguments =>
        dsimp only
        cases env.native? index <;> exact hclimbs.congr rfl rfl rfl rfl
      | _ => exact hclimbs.congr rfl rfl rfl rfl

theorem climbs_leave (result : Except Failure Bool) : m.core.Climbs (leave m result waiting).machine.core := by
  rcases waiting with _ | ⟨_ | ⟨results, next⟩ | next, waiting⟩
  · exact .refl _
  · rcases result with failure | _ | _ <;> exact .of_eq rfl rfl
  · exact (m.closeRun.climbs_complete results result).congr rfl rfl rfl rfl
  · exact .of_eq rfl rfl

theorem climbs_of_step {s s' : State δ ν ρ} (hacts : s.acts = false) (h : s.step env = .inl s') :
    s.machine.core.Climbs s'.machine.core := by
  cases coreStep_of_step hacts h with
  | spares _ hcore => exact hcore ▸ .refl _
  | dispatch m waiting => exact climbs_dispatch
  | leave m result waiting => exact climbs_leave result
  | enter m entry next waiting => exact climbs_enter next entry
  | @native m waiting arguments result _ hsettled =>
    rcases result with f | _ | v <;> cases hsettled <;> exact .of_eq rfl rfl

theorem Attempts.refused {s : State δ ν ρ} {index : UInt32} (h : s.Attempts index) (hfull : s.machine.core.IsFull) :
    ∃ s', s.step env = .inl s' ∧ s.Refused s' := by
  cases h with
  | @instruction m waiting count next home hread hhome hcheck =>
    have hexecute := Exec.execute_call_full env.signature? (c := m.core.withPc next) hfull hhome hcheck
    have hstep : Exec.step env.signature? m.core = _ := Exec.step_of_read hread
    refine ⟨_, rfl, ?_⟩
    unfold dispatch
    rw [Machine.exec_of_error (hstep.trans hexecute)]
    exact ⟨rfl, rfl, Or.inl rfl, .tooDeep, rfl, rfl, Or.inl ⟨rfl, rfl⟩⟩
  | @call m m₁ waiting arguments results next hprepared =>
    obtain ⟨memory, hrefused⟩ := enter_call_full waiting hfull hprepared next
    refine ⟨_, congrArg Sum.inl hrefused, ?_⟩
    rcases (m.laden (Entry.load arguments) memory).abandon_eq with ⟨hruns, habandon⟩ | ⟨-, habandon⟩ <;> rw [habandon]
    · exact ⟨rfl, rfl, Or.inr ⟨hruns, rfl⟩, .tooDeep, rfl, rfl, Or.inr ⟨_, next, _, rfl, rfl⟩⟩
    · exact ⟨rfl, rfl, Or.inl rfl, .tooDeep, rfl, rfl, Or.inr ⟨_, next, _, rfl, rfl⟩⟩
  | @execute m waiting ready next =>
    obtain ⟨vs, hrefused⟩ := enter_execute_full waiting hfull index ready next
    exact ⟨_, congrArg Sum.inl hrefused, rfl, rfl, Or.inl rfl, .tooDeep, rfl, rfl, Or.inr ⟨_, next, _, rfl, rfl⟩⟩

end State

namespace Reentrant
variable {env : Environment δ ν} {s : State δ ν ρ}

/-- Every run has its place, apart from places that were left behind. -/
theorem balanced (h : Reentrant env s) : ∃ n, s.Balanced n := by
  induction h with
  | start config world code => exact ⟨0, rfl, rfl, nofun, nofun⟩
  | step _ hacts hstep ih =>
    obtain ⟨n, hbalanced⟩ := ih
    exact ⟨_, (State.turn_of_step hacts hstep).balanced hbalanced⟩
  | @act m waiting f _ hkeeps _ hcallers ih =>
    obtain ⟨n, hbalanced⟩ := ih
    rcases hcallers with hcallers | ⟨hzero, hfree, hnone⟩
    · exact ⟨n, hbalanced.same rfl ⟨hkeeps, hcallers⟩ rfl nofun⟩
    · have hnobody : waiting.length = 0 := hbalanced.runs.symm.trans hzero
      refine ⟨0, hkeeps.runs.trans hbalanced.runs, ?_, fun _ _ _ => hkeeps.suspended.trans hfree, nofun⟩
      rw [hnone, Machine.KeepsRuns.shelved hkeeps, Machine.shelved, hfree, hnobody]
      rfl
  | again code _ hstep hzero ih =>
    obtain ⟨n, hbalanced⟩ := ih
    exact ⟨n, hbalanced.ended code hstep hzero⟩

theorem depth_le (h : Reentrant env s) :
    s.machine.core.executor.depth ≤ s.machine.core.config.maxCallDepth := by
  induction h with
  | start config world code => exact Nat.zero_le _
  | step _ hacts hstep ih => exact (State.climbs_of_step hacts hstep).bounded ih
  | act _ _ hconfig hcallers ih =>
    rcases hcallers with hcallers | ⟨-, -, hnone⟩
    · exact (Core.Climbs.of_eq hconfig hcallers).bounded ih
    · rw [Executor.depth, hnone]
      exact Nat.zero_le _
  | again code _ hstep _ ih =>
    rw [← Run.finish_inr hstep]
    exact ih

theorem runs_le (h : Reentrant env s) : s.machine.core.runs ≤ s.machine.core.executor.depth + s.returning := by
  obtain ⟨n, hbalanced⟩ := h.balanced
  have hplaces := hbalanced.places
  rw [hbalanced.runs, Executor.depth]
  omega

theorem runs_le_of_running (h : Reentrant env s) (hrunning : s.focus.outcome? ≠ some false) :
    s.machine.core.runs ≤ s.machine.core.executor.depth := by
  have hle := h.runs_le
  rwa [State.returning, if_neg hrunning] at hle

/-- The runs in progress are no more than the calls, and the calls no more than the limit. A run that has returned
has given its place up, and is counted until the next transition leaves it. At the limit, no section is entered. -/
theorem recursion_bounded (h : Reentrant env s) :
    (s.focus.outcome? ≠ some false → s.machine.core.runs ≤ s.machine.core.executor.depth) ∧
    (s.focus.outcome? = some false → s.machine.core.runs ≤ s.machine.core.executor.depth + 1 ∧
      ∃ s', s.step env = .inl s' ∧ s'.machine.core.runs ≤ s'.machine.core.executor.depth) ∧
    s.machine.core.executor.depth ≤ s.machine.core.config.maxCallDepth ∧
    ∀ index, s.Attempts index → s.machine.core.executor.depth = s.machine.core.config.maxCallDepth →
      ∃ s', s.step env = .inl s' ∧ s.Refused s' := by
  refine ⟨h.runs_le_of_running, fun hreturned => ⟨?_, ?_⟩, h.depth_le,
    fun index hattempts hlimit => hattempts.refused (Nat.le_of_eq hlimit.symm)⟩
  · exact Nat.le_trans h.runs_le (Nat.add_le_add_left s.returning_le _)
  · obtain ⟨m, focus, waiting⟩ := s
    cases focus with
    | leave result =>
      have hstep : State.step env ⟨m, .leave result, waiting⟩ = .inl (State.leave m result waiting) := rfl
      refine ⟨_, hstep, ?_⟩
      cases waiting with
      | nil =>
        obtain ⟨n, hbalanced⟩ := h.balanced
        exact Nat.le_trans (Nat.le_of_eq hbalanced.runs) (Nat.zero_le _)
      | cons w waiting =>
        refine (h.step rfl hstep).runs_le_of_running ?_
        rw [(State.goes_leave m result w waiting).2]
        nofun
    | _ => cases hreturned

theorem advance (h : Reentrant env s) {n : Nat} {s' : State δ ν ρ} (hs : s.advance env 0 n = some s') :
    Reentrant env s' := by
  refine walk_induction (P := (Reentrant env ·)) (fun t u ht hnext => ?_) h hs
  obtain ⟨hstep, hallowed⟩ := State.next?_eq_some.1 hnext
  simp only [Bool.and_eq_true, Bool.not_eq_true'] at hallowed
  exact ht.step hallowed.1 hstep

end Reentrant

/-! ### A section that calls itself -/

def endless : Section :=
  { code := (List.flatMap Instruction.encode [⟨.all, (0, ())⟩, ⟨.call, (0, 0, ())⟩, ⟨.ret, (0, ())⟩]).toArray }

def loadEndless (m : Machine Unit Unit) : Machine Unit Unit :=
  { m with core := { m.core with sections := (m.core.sections.add endless).2 } }

def endlessAtLimit : Machine Unit Unit :=
  { loadEndless (.new { maxCallDepth := 1 } {}) with
    core := { (loadEndless (.new { maxCallDepth := 1 } {})).core with
      runs := 1
      executor :=
        { stack := #[.int 0, .uint 0]
          base := 2
          callers := #[{ home := .host 0 }]
          pc := { home := { endless with id := .loaded 1 }, position := 5 } } } }

theorem recursion_bounded_endless :
    ∃ s : State Unit Unit (Except Failure Execution),
      s = ⟨endlessAtLimit, .dispatch, [.executor Task.report]⟩ ∧ Reentrant .bare s ∧
      s.machine.core.runs = 1 ∧ s.machine.core.executor.depth = 1 ∧
      ∃ s', s.step .bare = .inl s' ∧ s.Refused s' := by
  have hstart : Reentrant .bare (ρ := Except Failure Execution)
      ⟨.new { maxCallDepth := 1 } {},
        .host (.act fun m => (.enter (.execute 0 false) Task.report, loadEndless m)), []⟩ :=
    .start { maxCallDepth := 1 } {} _
  have hlimit : Reentrant .bare (ρ := Except Failure Execution)
      ⟨endlessAtLimit, .dispatch, [.executor Task.report]⟩ :=
    (hstart.act ⟨rfl, rfl⟩ rfl (Or.inl rfl)).advance (n := 4) (by cbv)
  have hread : Cursor.readInstruction endlessAtLimit.core.executor.pc =
      .ok ⟨.call, (0, 0, ())⟩ { home := { endless with id := .loaded 1 }, position := 11 } := by cbv
  have hattempts : State.Attempts 0 (⟨endlessAtLimit, .dispatch, [.executor Task.report]⟩ :
      State Unit Unit (Except Failure Execution)) := .instruction hread (by cbv) (by cbv)
  exact ⟨_, rfl, hlimit, rfl, rfl, hlimit.recursion_bounded.2.2.2 0 hattempts rfl⟩

end ScriptVm
