import ScriptVm.Proofs.Turns

/-! Places that are left behind. Each run has its place among the callers and so has the call that is suspended.
A run that returns gives its place up. One that ends otherwise does not: the place of a collected call that is
suspended is kept with it, but the places of a suspended section that was only executed, and of a run whose failure
is dealt with inside another run, are left behind. They stay until a failed outermost call has all calls forgotten,
and as long as there are any, the callers say that there is more to continue than what is suspended. -/

namespace ScriptVm
variable {δ ν ρ : Type}

def Machine.shelved (m : Machine δ ν) : Nat := if m.suspended.isSome then 1 else 0

namespace State

/-- How many runs are left next without having given their places up or having them kept. -/
def strands : State δ ν ρ → Nat
  | ⟨_, .leave (.error _), _ :: _⟩ => 1
  | ⟨_, .leave (.ok true), w :: _⟩ => if w.collects then 0 else 1
  | _ => 0

def atRest : State δ ν ρ → Bool
  | ⟨m, .host _, _⟩ => m.core.runs == 0
  | _ => false

/-- How many of the places are left if there were so many: none if there are no callers at all. -/
def remaining (n : Nat) (s : State δ ν ρ) : Nat :=
  if s.atRest && s.machine.core.executor.callers.isEmpty then 0 else n

end State

/-- The states that a new machine gets into, and how many places have been left behind on the way. Neither the host
nor natives and debuggers can get at the calls but by having sections run. -/
inductive Tally (env : Environment δ ν) : Nat → State δ ν ρ → Prop where
  | start (config : Config) (world : World) (code : Task δ ν ρ) : Tally env 0 ⟨.new config world, .host code, []⟩
  | step {n : Nat} {s s' : State δ ν ρ} : Tally env n s → s.acts = false → s.step env = .inl s' →
      Tally env (s'.remaining (n + s.strands)) s'
  | act {n : Nat} {m : Machine δ ν} {waiting : List (Waiting δ ν ρ)} {f : Machine δ ν → Task δ ν ρ × Machine δ ν} :
      Tally env n ⟨m, .host (.act f), waiting⟩ → m.KeepsCalls (f m).2 → Tally env n ⟨(f m).2, .host (f m).1, waiting⟩
  /-- The host's code comes to its end and begins anew. -/
  | again {n : Nat} {s : State δ ν ρ} {r : ρ} {m : Machine δ ν} (code : Task δ ν ρ) : Tally env n s →
      s.step env = .inr (r, m) → m.core.runs = 0 → Tally env n ⟨m, .host code, []⟩

/-- Every place is accounted for. -/
structure State.Balanced (n : Nat) (s : State δ ν ρ) : Prop where
  runs : s.machine.core.runs = s.waiting.length
  places : s.machine.core.executor.callers.size + s.returning = s.waiting.length + s.machine.shelved + n
  bottom : ∀ w ∈ s.waiting.getLast?, w.collects = true → s.machine.suspended = none
  alone : s.focus.outcome? = some true → s.waiting.length ≤ 1

namespace Machine
variable {m m' : Machine δ ν}

theorem shelved_congr (h : m'.suspended = m.suspended) : m'.shelved = m.shelved := by
  unfold shelved
  rw [h]

theorem shelved_of_none (h : m.suspended = none) : m.shelved = 0 := by
  unfold shelved
  rw [h]
  rfl

theorem shelved_of_some {results : UInt8} (h : m.suspended = some results) : m.shelved = 1 := by
  unfold shelved
  rw [h]
  rfl

theorem KeepsRuns.shelved (h : m.KeepsRuns m') : m'.shelved = m.shelved := shelved_congr h.suspended

end Machine

namespace State
variable {n : Nat} {s s' : State δ ν ρ}

theorem strands_of_running (h : s.focus.ended = false) : s.strands = 0 := by
  obtain ⟨m, focus, waiting⟩ := s
  cases focus with
  | leave result => cases h
  | _ => rfl

theorem strands_idle (h : s.waiting = []) : s.strands = 0 := by
  obtain ⟨m, focus, waiting⟩ := s
  cases h
  rcases focus with _ | _ | _ | result | _
  · rfl
  · rfl
  · rfl
  · rcases result with failure | _ | _ <;> rfl
  · rfl

theorem Balanced.remaining (h : Balanced n s) : Balanced (s.remaining n) s := by
  unfold State.remaining
  split_ifs with hnone
  · simp only [Bool.and_eq_true, Array.isEmpty_iff] at hnone
    obtain ⟨hrest, hcallers⟩ := hnone
    have hreturning : s.returning = 0 := by
      obtain ⟨m, focus, waiting⟩ := s
      cases focus with
      | host task => rfl
      | _ => cases hrest
    have hplaces := h.places
    rw [hcallers, hreturning] at hplaces
    have hn : n = 0 := by
      have hzero : (#[] : Array Cursor).size = 0 := rfl
      omega
    exact hn ▸ h
  · exact h

theorem Balanced.same (h : Balanced n s) (hwaiting : s'.waiting = s.waiting) (hkeeps : s.machine.KeepsCalls s'.machine)
    (hreturning : s'.returning = s.returning) (halone : s'.focus.outcome? = some true → s'.waiting.length ≤ 1) :
    Balanced n s' := by
  refine ⟨?_, ?_, ?_, halone⟩
  · rw [hkeeps.runs, hwaiting]
    exact h.runs
  · rw [hkeeps.callers, hreturning, hwaiting, hkeeps.shelved]
    exact h.places
  · rw [hwaiting, hkeeps.suspended]
    exact h.bottom

theorem Balanced.opened (h : Balanced n s) {w : Waiting δ ν ρ} {back : Cursor} (hwaiting : s'.waiting = w :: s.waiting)
    (hrunning : s.focus.ended = false) (hfocus : s'.focus = .tick)
    (hruns : s'.machine.core.runs = s.machine.core.runs + 1) (hsuspended : s'.machine.suspended = s.machine.suspended)
    (hcallers : s'.machine.core.executor.callers = s.machine.core.executor.callers.push back)
    (hfree : w.collects = true → s.machine.core.runs = 0 → s.machine.suspended = none) : Balanced n s' := by
  have hplaces := h.places
  rw [returning_of_running hrunning] at hplaces
  have hshelved := Machine.shelved_congr hsuspended
  refine ⟨?_, ?_, ?_, by rw [hfocus]; nofun⟩
  · rw [hruns, hwaiting, List.length_cons, h.runs]
  · rw [returning_of_outcome (by rw [hfocus]; rfl), hcallers, Array.size_push, hwaiting, List.length_cons, hshelved]
    omega
  · intro v hv hcollects
    rw [hsuspended]
    rw [hwaiting, List.getLast?_cons] at hv
    cases hlast : s.waiting.getLast? with
    | none =>
      rw [hlast] at hv
      obtain rfl := Option.mem_some_iff.1 hv
      exact hfree hcollects (by rw [h.runs, List.getLast?_eq_none_iff.1 hlast, List.length_nil])
    | some u =>
      rw [hlast] at hv
      obtain rfl := Option.mem_some_iff.1 hv
      exact h.bottom u hlast hcollects

theorem Balanced.resumed (h : Balanced n s) {results : UInt8} {next : Except Failure Execution → Task δ ν ρ}
    (hsuspended : s.machine.suspended = some results) (hwaiting : s'.waiting = .caller results next :: s.waiting)
    (hrunning : s.focus.ended = false) (hfocus : s'.focus = .tick)
    (hruns : s'.machine.core.runs = s.machine.core.runs + 1) (hfree : s'.machine.suspended = none)
    (hcallers : s'.machine.core.executor.callers = s.machine.core.executor.callers) : Balanced n s' := by
  have hplaces := h.places
  rw [returning_of_running hrunning, Machine.shelved_of_some hsuspended] at hplaces
  refine ⟨?_, ?_, fun _ _ _ => hfree, by rw [hfocus]; nofun⟩
  · rw [hruns, hwaiting, List.length_cons, h.runs]
  · rw [returning_of_outcome (by rw [hfocus]; rfl), hcallers, hwaiting, List.length_cons,
      Machine.shelved_of_none hfree]
    omega

theorem balanced_forgotten (k : Nat) (hwaiting : s.waiting = []) (hrest : s.atRest = true) (hfree : s.machine.suspended = none)
    (hcallers : s.machine.core.executor.callers = #[]) : Balanced (s.remaining k) s := by
  have hnone : s.remaining k = 0 := by
    unfold State.remaining
    rw [hrest, hcallers]
    rfl
  obtain ⟨m, focus, waiting⟩ := s
  cases hwaiting
  cases focus with
  | host task =>
    have hruns : m.core.runs = 0 := by simpa [atRest] using hrest
    refine ⟨hruns, ?_, nofun, nofun⟩
    rw [hnone, hcallers, Machine.shelved_of_none hfree]
    rfl
  | _ => cases hrest

/-- A run that does not return is left without giving its place up, unless the place is kept. -/
theorem returning_add_strands (m : Machine δ ν) {result : Except Failure Bool} {w : Waiting δ ν ρ}
    (waiting : List (Waiting δ ν ρ)) (h : w.collects = true → result ≠ .ok true) :
    returning ⟨m, .leave result, w :: waiting⟩ + strands ⟨m, .leave result, w :: waiting⟩ = 1 := by
  rcases result with failure | _ | _
  · rfl
  · rfl
  · cases hcollects : w.collects with
    | true => exact absurd rfl (h hcollects)
    | false => simp [returning, strands, Focus.outcome?, hcollects]

theorem Balanced.left {m : Machine δ ν} {result : Except Failure Bool} {w : Waiting δ ν ρ}
    {waiting : List (Waiting δ ν ρ)} (h : Balanced n ⟨m, .leave result, w :: waiting⟩) :
    Balanced ((leave m result (w :: waiting)).remaining (n + strands ⟨m, .leave result, w :: waiting⟩))
      (leave m result (w :: waiting)) := by
  obtain ⟨hgoes, hrunning⟩ := goes_leave m result w waiting
  have hplaces := h.places
  have hruns : m.core.runs - 1 = waiting.length := by
    have hall := h.runs
    simp only [List.length_cons] at hall
    omega
  have hleft := waiting_leave m result w waiting
  simp only [List.length_cons] at hplaces
  cases hgoes with
  | keeps hkept hkeeps =>
    refine Balanced.remaining ⟨?_, ?_, fun v hv hcollects => ?_, by rw [hrunning]; nofun⟩
    · rw [hkeeps.runs, hleft]
      exact hruns
    · have hone := returning_add_strands m waiting hkept
      have hshelved : (leave m result (w :: waiting)).machine.shelved = m.shelved := hkeeps.shelved
      have hcallers : (leave m result (w :: waiting)).machine.core.executor.callers = m.core.executor.callers :=
        hkeeps.callers
      rw [returning_of_outcome hrunning, hcallers, hleft, hshelved]
      omega
    · rw [hleft] at hv
      have hsuspended : (leave m result (w :: waiting)).machine.suspended = m.suspended := hkeeps.suspended
      rw [hsuspended]
      refine h.bottom v ?_ hcollects
      rw [List.getLast?_cons, Option.mem_def.1 hv]
      rfl
  | suspends results hcollects hresult hm =>
    subst hresult
    have hlast : waiting = [] := by
      have halone := h.alone rfl
      simp only [List.length_cons] at halone
      exact List.eq_nil_of_length_eq_zero (by omega)
    subst hlast
    have hfree : m.shelved = 0 := Machine.shelved_of_none (h.bottom w rfl hcollects)
    have hstrands : strands ⟨m, .leave (.ok true), [w]⟩ = 0 := by simp [strands, hcollects]
    refine Balanced.remaining ⟨?_, ?_, by rw [hleft]; nofun, by rw [hrunning]; nofun⟩
    · rw [hm, hleft]
      exact hruns
    · rw [returning_of_outcome hrunning, hleft, hm, hstrands]
      simp only [hfree] at hplaces
      exact hplaces
  | forgets failure hcollects hresult hzero hm =>
    cases w with
    | caller results next =>
      refine balanced_forgotten _ ?_ ?_ (by rw [hm]) (by rw [hm]; rfl)
      · rw [hleft]
        exact List.eq_nil_of_length_eq_zero (hruns.symm.trans hzero)
      · change ((leave m result (.caller results next :: waiting)).machine.core.runs == 0) = true
        rw [hm]
        exact beq_iff_eq.2 hzero
    | instruction => cases hcollects
    | executor next => cases hcollects

theorem Turn.balanced (hturn : s.Turn s') (h : Balanced n s) : Balanced (s'.remaining (n + s.strands)) s' := by
  cases hturn with
  | idle hnobody hs =>
    rw [hs, strands_idle hnobody]
    exact h.remaining
  | quiet hwaiting hkeeps hrunning hfocus =>
    rw [strands_of_running hrunning]
    refine (h.same hwaiting hkeeps ?_ (by rw [hfocus]; nofun)).remaining
    rw [returning_of_outcome hfocus, returning_of_running hrunning]
  | returns hwaiting hkeeps hrunning hfocus hsome hcallers =>
    have hplaces := h.places
    have hreturning : s'.returning = 1 := returning_of_returned hfocus
    have hsize : 0 < s.machine.core.executor.callers.size := Array.size_pos_iff.2 hsome
    rw [returning_of_running hrunning] at hplaces
    rw [strands_of_running hrunning]
    refine Balanced.remaining ⟨?_, ?_, ?_, by rw [hfocus]; nofun⟩
    · rw [hkeeps.runs, hwaiting]
      exact h.runs
    · rw [hcallers, Array.size_pop, hreturning, hwaiting, hkeeps.shelved]
      omega
    · rw [hwaiting, hkeeps.suspended]
      exact h.bottom
  | suspends hwaiting hkeeps hrunning hfocus hle =>
    rw [strands_of_running hrunning]
    refine (h.same hwaiting hkeeps ?_ fun _ => ?_).remaining
    · rw [returning_of_running hrunning]
      unfold returning
      rw [hfocus]
      rfl
    · rw [hwaiting, ← h.runs]
      exact hle
  | opens w back hwaiting hrunning hfocus hruns hsuspended hcallers hfree =>
    rw [strands_of_running hrunning]
    exact (h.opened hwaiting hrunning hfocus hruns hsuspended hcallers hfree).remaining
  | resumes results next hsuspended hwaiting hrunning hfocus hruns hfree hcallers =>
    rw [strands_of_running hrunning]
    exact (h.resumed hsuspended hwaiting hrunning hfocus hruns hfree hcallers).remaining
  | forgets task hwaiting _ hfocus hzero hruns hfree hcallers =>
    refine balanced_forgotten _ ?_ ?_ hfree hcallers
    · rw [hwaiting]
      exact List.eq_nil_of_length_eq_zero (h.runs.symm.trans hzero)
    · obtain ⟨m, focus, waiting⟩ := s'
      cases hfocus
      exact beq_iff_eq.2 hruns
  | leaves w result waiting hfocus hwaiting hs' =>
    obtain ⟨m, focus, _⟩ := s
    cases hfocus
    cases hwaiting
    rw [hs']
    exact h.left

theorem Balanced.ended {env : Environment δ ν} (h : Balanced n s) {r : ρ} {m : Machine δ ν} (code : Task δ ν ρ)
    (hstep : s.step env = .inr (r, m)) (hzero : m.core.runs = 0) : Balanced (ρ := ρ) n ⟨m, .host code, []⟩ := by
  have hplaces := h.places
  have hnobody := h.runs
  rw [Run.finish_inr hstep, hzero] at hnobody
  have hwaiting := List.eq_nil_of_length_eq_zero hnobody.symm
  have hreturning : s.returning = 0 := by
    obtain ⟨m₀, focus, waiting⟩ := s
    cases focus with
    | host task => rfl
    | _ => cases hstep
  rw [Run.finish_inr hstep, hreturning, hwaiting] at hplaces
  exact ⟨hzero, hplaces, nofun, nofun⟩

end State

namespace Tally
variable {env : Environment δ ν} {n : Nat} {s : State δ ν ρ}

/-- At every moment each caller's place belongs to a run, to what is suspended, or has been left behind. -/
theorem balanced (h : Tally env n s) : s.Balanced n := by
  induction h with
  | start config world code => exact ⟨rfl, rfl, nofun, nofun⟩
  | step _ hacts hstep ih => exact (State.turn_of_step hacts hstep).balanced ih
  | act _ hkeeps ih => exact ih.same rfl hkeeps rfl nofun
  | again code _ hstep hzero ih => exact ih.ended code hstep hzero

/-- Whenever control is back in the host, the callers are what is suspended and what was left behind. So that a call
is suspended exactly if there are callers, is true exactly as long as nothing was left behind or something is
suspended. -/
theorem suspended_iff_callers (h : Tally env n s) (hrest : s.atRest = true) :
    s.machine.core.executor.callers.size = n + s.machine.shelved ∧
      ((s.machine.suspended.isSome = true ↔ s.machine.core.executor.callers ≠ #[]) ↔
        n = 0 ∨ s.machine.suspended.isSome = true) := by
  have hbalanced := h.balanced
  have hplaces := hbalanced.places
  obtain ⟨m, focus, waiting⟩ := s
  cases focus with
  | host task =>
    have hzero : m.core.runs = 0 := by simpa [State.atRest] using hrest
    have hnobody : waiting.length = 0 := hbalanced.runs.symm.trans hzero
    have hsize : m.core.executor.callers.size = n + m.shelved := by
      rw [State.returning_of_running rfl] at hplaces
      dsimp only at hplaces
      omega
    refine ⟨hsize, ?_⟩
    have hsome : m.core.executor.callers ≠ #[] ↔ 0 < n + m.shelved := by rw [← hsize, Array.size_pos_iff]
    dsimp only
    rw [hsome]
    unfold Machine.shelved
    cases m.suspended with
    | none => simp
    | some results => simp
  | _ => cases hrest

def after (env : Environment δ ν) (k n : Nat) (s : State δ ν ρ) : Option (Nat × State δ ν ρ) :=
  walk (State.nextNoted? env (fun s _ => !s.acts) fun n s s' => s'.remaining (n + s.strands)) k (n, s)

theorem of_after (h : Tally env n s) {k n' : Nat} {s' : State δ ν ρ} (hs : after env k n s = some (n', s')) :
    Tally env n' s' := by
  refine walk_induction (P := fun r => Tally env r.1 r.2) (fun r r' hr hnext => ?_) h hs
  obtain ⟨t, hstep, hallowed, rfl⟩ := State.nextNoted?_eq_some.1 hnext
  exact hr.step (by simpa using hallowed) hstep

end Tally

/-! ### A section that is executed and sleeps -/

def sleeping : Section :=
  { code := (List.flatMap Instruction.encode [⟨.all, (0, ())⟩, ⟨.sus, ()⟩, ⟨.ret, (0, ())⟩]).toArray }

def loadSleeping (m : Machine Unit Unit) : Machine Unit Unit :=
  { m with core := { m.core with sections := (m.core.sections.add sleeping).2 } }

def slept : Machine Unit Unit :=
  { loadSleeping (.new {} {}) with
    core := { (loadSleeping (.new {} {})).core with
      executor :=
        { stack := #[.int 0, .uint 0]
          base := 2
          callers := #[{ home := .host 0 }]
          pc := { home := { sleeping with id := .loaded 1 }, position := 6 } } } }

theorem suspended_iff_callers_slept :
    Tally .bare 1 (ρ := Except Failure Execution) ⟨slept, .host (Task.report (.ok .suspended)), []⟩ ∧
      slept.core.executor.callers.size = 1 ∧
      ¬ (slept.suspended.isSome = true ↔ slept.core.executor.callers ≠ #[]) := by
  have hstart : Tally .bare 0 (ρ := Except Failure Execution)
      ⟨.new {} {}, .host (.act fun m => (.enter (.execute 0 false) Task.report, loadSleeping m)), []⟩ := .start {} {} _
  have hslept : Tally .bare 1 (ρ := Except Failure Execution)
      ⟨slept, .host (Task.report (.ok .suspended)), []⟩ :=
    (hstart.act ⟨⟨rfl, rfl⟩, rfl⟩).of_after (k := 6) (by cbv)
  obtain ⟨hsize, htells⟩ := hslept.suspended_iff_callers rfl
  refine ⟨hslept, hsize, fun hflag => ?_⟩
  rcases htells.1 hflag with hone | hsome
  · cases hone
  · cases hsome

/-- Nothing is recorded as suspended, although a caller's place is left, and it cannot be continued. -/
theorem sleeping_unrecorded :
    Machine.perform .bare 9 (loadSleeping (.new {} {})) (Program.run (.execute 0 false)) =
        some (.ok .suspended, slept) ∧
      slept.core.runs = 0 ∧ ¬ (slept.suspended.isSome = true ↔ slept.core.executor.callers ≠ #[]) ∧
      Machine.perform .bare 3 slept (Program.run .resume) = some (.error { fault := .notSuspended }, slept) := by
  refine ⟨by cbv, rfl, fun hflag => ?_, rfl⟩
  exact absurd (hflag.2 (by decide)) (by decide)

end ScriptVm
