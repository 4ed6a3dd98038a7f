import ScriptVm.Proofs.Turns

/-! A failed outermost call discards all calls. A failure leaves one run after the other, and where the last one
is left everything is forgotten. Too few results are found behind that place: the section has returned by then,
and what it left on the stack stays there. -/

namespace ScriptVm
variable {δ ν ρ : Type}

structure Machine.Cleared (m : Machine δ ν) : Prop where
  stack : m.core.executor.stack = #[]
  base : m.core.executor.base = 0
  callers : m.core.executor.callers = #[]
  iterations : m.core.executor.iterations = #[]
  pc : ∃ n, m.core.executor.pc = { home := .host n }
  suspended : m.suspended = none
  runs : m.core.runs = 0

theorem Machine.cleared_abandon {m : Machine δ ν} (hruns : m.core.runs = 0) : m.abandon.Cleared := by
  rcases m.abandon_eq with ⟨-, habandon⟩ | ⟨hbusy, -⟩
  · rw [habandon]
    exact ⟨rfl, rfl, rfl, rfl, ⟨_, rfl⟩, rfl, hruns⟩
  · exact absurd hruns hbusy

def Entry.collects : Entry → Bool
  | .execute .. => false
  | _ => true

/-- An outermost call that is under way: nothing is suspended, and only the call itself can get so. -/
structure State.Outermost (s₀ s : State δ ν ρ) : Prop extends State.Above s₀ s where
  free : s.machine.suspended = none
  own : s.focus.outcome? = some true → s.waiting.length = s₀.waiting.length

namespace State
variable {m : Machine δ ν} {outer : List (Waiting δ ν ρ)} {next : Except Failure Execution → Task δ ν ρ} {entry : Entry}

/-- How a call by the host starts while no run is in progress. -/
theorem enter_started (hentry : entry.collects = true) (hruns : m.core.runs = 0)
    (hstarts : (enter m outer next entry).focus = .tick) :
    ∃ results, (enter m outer next entry).waiting = .caller results next :: outer ∧
      (enter m outer next entry).machine.core.runs = 1 ∧ (enter m outer next entry).machine.suspended = none := by
  cases entry with
  | execute index ready => cases hentry
  | call index arguments =>
    rcases enter_call_cases m outer next index arguments with
      ⟨home, memory, -, hfree, hentered⟩ | ⟨failure, hrefused⟩ | ⟨memory, failure, hrefused⟩
    · rw [hentered]
      exact ⟨home.results, rfl, congrArg (· + 1) hruns, hfree hruns⟩
    · rw [hrefused] at hstarts
      cases hstarts
    · rw [hrefused] at hstarts
      cases hstarts
  | resume =>
    unfold enter at hstarts ⊢
    cases hsuspended : m.suspended with
    | none =>
      simp only [hsuspended] at hstarts
      cases hstarts
    | some results => exact ⟨results, rfl, congrArg (· + 1) hruns, rfl⟩

theorem Turn.outermost {s₀ s s' : State δ ν ρ} (hturn : s.Turn s') (h : Outermost s₀ s)
    (hruns : s₀.machine.core.runs = 1) (hlength : s₀.waiting.length ≤ s'.waiting.length) : Outermost s₀ s' := by
  have habove := hturn.above h.toAbove hlength
  cases hturn with
  | idle _ hs =>
    rw [hs]
    exact h
  | quiet _ hkeeps _ hfocus => exact ⟨habove, hkeeps.suspended.trans h.free, by rw [hfocus]; nofun⟩
  | returns _ hkeeps _ hfocus => exact ⟨habove, hkeeps.suspended.trans h.free, by rw [hfocus]; nofun⟩
  | suspends hwaiting hkeeps _ _ hle =>
    refine ⟨habove, hkeeps.suspended.trans h.free, fun _ => ?_⟩
    have hcount := habove.runs
    rw [hkeeps.runs] at hcount
    omega
  | opens w back _ _ hfocus _ hsuspended =>
    exact ⟨habove, hsuspended.trans h.free, by rw [hfocus]; nofun⟩
  | resumes results next hsuspended =>
    rw [h.free] at hsuspended
    cases hsuspended
  | forgets task _ _ hfocus _ _ hsuspended => exact ⟨habove, hsuspended, by rw [hfocus]; nofun⟩
  | leaves w result waiting hfocus hwaiting hs' =>
    subst hs'
    obtain ⟨hgoes, hrunning⟩ := goes_leave s.machine result w waiting
    refine ⟨habove, ?_, by rw [hrunning]; nofun⟩
    cases hgoes with
    | keeps _ hkeeps => exact hkeeps.suspended.trans h.free
    | forgets failure _ _ _ hm => rw [hm]
    | suspends results _ hresult _ =>
      -- A call that somebody above waits for cannot be suspended.
      have hown := h.own (by rw [hfocus, hresult]; rfl)
      rw [hwaiting, List.length_cons] at hown
      rw [waiting_leave] at hlength
      omega

end State

namespace During
variable {env : Environment δ ν} {m : Machine δ ν} {outer : List (Waiting δ ν ρ)}
  {next : Except Failure Execution → Task δ ν ρ} {entry : Entry} {s₀ s s' : State δ ν ρ}

theorem outermost (h : During Machine.KeepsRuns env s₀ s) (hruns : s₀.machine.core.runs = 1)
    (hfree : s₀.machine.suspended = none) (hfocus : s₀.focus.outcome? = none) : State.Outermost s₀ s := by
  induction h with
  | start => exact ⟨.refl s₀, hfree, by rw [hfocus]; nofun⟩
  | @go s s' _ hstep hacts hlength ih =>
    cases hact : s.acts with
    | true =>
      obtain ⟨hwaiting, -, task, htask⟩ := State.waiting_of_acts hact hstep
      have hkeeps := hacts hact
      exact ⟨ih.same hwaiting hkeeps.runs, hkeeps.suspended.trans ih.free, by rw [htask]; nofun⟩
    | false => exact (State.turn_of_step hact hstep).outermost ih hruns hlength

/-- A call or continuation that the host starts while no run is in progress gives it an outcome when it is over.
If that is a failure, everything is discarded, whatever has failed, except where the section has returned with
fewer values on the stack than it has results. These stay there, and so do base, callers, iterations and program
counter; no run is in progress then and nothing is suspended. -/
theorem outermost_failure_discards (hentry : entry.collects = true) (hruns : m.core.runs = 0)
    (hstarts : (State.enter m outer next entry).focus = .tick)
    (h : During Machine.KeepsRuns env (State.enter m outer next entry) s) (hstep : s.step env = .inl s')
    (hover : s'.waiting.length ≤ outer.length) :
    ∃ results outcome, s.waiting = .caller results next :: outer ∧ s'.waiting = outer ∧
      s'.focus = .host (next outcome) ∧ ∀ failure, outcome = .error failure → s'.machine.Cleared ∨
        s.focus = .leave (.ok false) ∧ s.machine.core.executor.stack.size < results.toNat ∧
          failure = { fault := .underflow } ∧ s'.machine = s.machine.closeRun ∧ s'.machine.core.runs = 0 ∧
          s'.machine.suspended = none := by
  obtain ⟨results, hwaiting, hone, hfree⟩ := State.enter_started hentry hruns hstarts
  have hshorter : s'.waiting.length < (State.enter m outer next entry).waiting.length := by
    rw [hwaiting, List.length_cons]
    omega
  obtain ⟨w, waiting, result, hopened, hs, hfocus, rfl, hlast⟩ := h.ends (fun _ _ => id) hstep hshorter
  obtain ⟨rfl, rfl⟩ := List.cons.inj (hopened.symm.trans hwaiting)
  have hout := h.outermost hone hfree (by rw [hstarts]; rfl)
  have hnone : s.machine.closeRun.core.runs = 0 := by
    change s.machine.core.runs - 1 = 0
    omega
  rw [State.leave_caller]
  refine ⟨results, (s.machine.closeRun.complete results result).1, hs, rfl, rfl, fun failure hfailure => ?_⟩
  rcases result with failed | _ | _
  · exact Or.inl (Machine.cleared_abandon hnone)
  · rcases s.machine.closeRun.complete_returned results with ⟨vs, m', hfinished, -⟩ | ⟨hsize, hshort⟩
    · rw [hfinished] at hfailure
      cases hfailure
    · rw [hshort] at hfailure ⊢
      exact Or.inr ⟨hfocus, hsize, (Except.error.inj hfailure).symm, rfl, hnone, hout.free⟩
  · cases hfailure

end During

/-! ### A failure in a call of a call, and one behind the return -/

def stumbling : Section :=
  { code := (List.flatMap Instruction.encode [⟨.all, (0, ())⟩, ⟨.ldiS32, (5, ())⟩, ⟨.call, (1, 0, ())⟩,
      ⟨.ret, (0, ())⟩]).toArray }

def failing : Section := { code := (List.flatMap Instruction.encode [⟨.all, (1, ())⟩, ⟨.eof, ()⟩]).toArray }

def stumbler : Machine Unit Unit := { core := { sections := ((({} : SectionTable).add stumbling).2.add failing).2 } }

def mishap : Failure := { fault := .endOfUnit, trace := [⟨"<anonymous>", 16, none⟩, ⟨"<anonymous>", 6, none⟩] }

def fallen : State Unit Unit (Except Failure Execution) :=
  ⟨{ stumbler with
      core := { stumbler.core with
        runs := 1
        executor :=
          { stack := #[.int 0, .uint 0, .int 5, .int 0, .uint 2, .undefined]
            base := 5
            callers := #[{ home := .host 0 }, { home := { stumbling with id := .loaded 1 }, position := 16 }]
            pc := { home := { failing with id := .loaded 2 }, position := 6 } } } },
    .leave (.error mishap), [.caller 0 Task.report]⟩

theorem during_fallen :
    During Machine.KeepsRuns .bare (State.enter stumbler [] Task.report (.call 0 [])) fallen :=
  During.start.advance (n := 12) (by cbv)

/-- The inner section fails, and nothing is left of either call. -/
theorem outermost_failure_discards_fallen :
    During Machine.KeepsRuns .bare (State.enter stumbler [] Task.report (.call 0 [])) fallen ∧
      ∃ s', fallen.step .bare = .inl s' ∧ s'.focus = .host (Task.report (.error mishap)) ∧ s'.machine.Cleared := by
  have hstarts : (State.enter stumbler [] Task.report (.call 0 [])).focus = .tick := by cbv
  refine ⟨during_fallen, _, rfl, rfl, ?_⟩
  obtain ⟨results, outcome, -, -, hfocus, hdiscards⟩ :=
    during_fallen.outermost_failure_discards rfl rfl hstarts rfl (Nat.le_refl 0)
  cases hfocus
  rcases hdiscards mishap rfl with hcleared | ⟨hreturned, -⟩
  · exact hcleared
  · cases hreturned

/-- Returns with one value, and has two results. -/
def lacking : Section :=
  { code := (List.flatMap Instruction.encode [⟨.all, (0, ())⟩, ⟨.ldiS32, (5, ())⟩, ⟨.ret, (1, ())⟩]).toArray
    results := 2 }

def lacker : Machine Unit Unit := { core := { sections := (({} : SectionTable).add lacking).2 } }

/-- What is there after the call: its value is still on the stack. -/
def lacked : Machine Unit Unit := { lacker with core := { lacker.core with executor := { stack := #[.int 5] } } }

/-- A call fails behind the return of its section and leaves a value behind. -/
theorem lacking_leaves_value : lacker.core.runs = 0 ∧
    Machine.perform .bare 12 lacker (Program.run (.call 0 [])) = some (.error { fault := .underflow }, lacked) ∧
      ¬ lacked.Cleared := by
  refine ⟨rfl, by cbv, fun hcleared => ?_⟩
  have hsize := congrArg Array.size hcleared.stack
  cases hsize

end ScriptVm
