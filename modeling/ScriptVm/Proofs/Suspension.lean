import ScriptVm.Proofs.Invisibility
import ScriptVm.Proofs.Lockstep

/-! Suspension is transparent. A host that resumes a call whenever it was suspended gets what it would get if the code
just went on. Where the one run stands at a `sus`, the other one passes a `nop`; then the first leaves its only run,
records how many results it will have, and comes back to the next instruction with all of this undone. In between,
both runs are in lockstep. -/

namespace ScriptVm
variable {δ ν : Type}

def State.begun (m : Machine δ ν) (entry : Entry) : State δ ν (Except Failure Execution) :=
  ⟨m, .host (.enter entry Task.report), []⟩

/-- What a call comes to when the host resumes it whenever it was suspended, making up to so many calls in all. -/
def Machine.pursue (env : Environment δ ν) (fuel : Nat) :
    Nat → Machine δ ν → Entry → Option (Except Failure Execution × Machine δ ν)
  | 0, _, _ => none
  | calls + 1, m, entry =>
    match m.perform env fuel (Program.run entry) with
    | some (.ok .suspended, m) => pursue env fuel calls m .resume
    | ended => ended

/-- The moments of a call, and of resuming it whenever it was suspended. -/
inductive Pursued (env : Environment δ ν) (m : Machine δ ν) (entry : Entry) :
    State δ ν (Except Failure Execution) → Prop where
  | begin : Pursued env m entry (.begun m entry)
  | step {s t : State δ ν (Except Failure Execution)} : Pursued env m entry s → s.step env = .inl t →
      Pursued env m entry t
  | resume {s : State δ ν (Except Failure Execution)} {n : Machine δ ν} : Pursued env m entry s →
      s.step env = .inr (.ok .suspended, n) → Pursued env m entry (.begun n .resume)

/-- Whenever a `sus` is executed, no more than one run is in progress. -/
def Machine.SleepsOutermost (env : Environment δ ν) (m : Machine δ ν) (entry : Entry) : Prop :=
  ∀ s, Pursued env m entry s → s.drowsy = true → s.machine.core.runs ≤ 1

/-- What a call comes to from its middle on, if it is suspended or over after at most `n` more transitions. -/
def State.pursue (env : Environment δ ν) (fuel calls n : Nat) (s : State δ ν (Except Failure Execution)) :
    Option (Except Failure Execution × Machine δ ν) :=
  match run env n s with
  | some (.ok .suspended, m) => m.pursue env fuel calls .resume
  | ended => ended

/-! ### Falling asleep -/

theorem Exec.step_of_sus {natives : UInt32 → Option Signature} {c : Core} {next : Cursor}
    (hread : Cursor.readInstruction c.executor.pc = .ok ⟨.sus, ()⟩ next) (hruns : c.runs ≤ 1) :
    step natives c = .ok .suspended (c.withPc next) := by
  rw [step_of_read hread]
  change (if 1 < c.runs then _ else _ : Exec Flow) (c.withPc next) = _
  rw [if_neg (Nat.not_lt_of_le hruns)]
  rfl

theorem Cursor.sleepy_of_read {pc next : Cursor} (h : readInstruction pc = .ok ⟨.sus, ()⟩ next) : pc.sleepy = true := by
  rw [sleepy, h]
  rfl

/-! ### Being in the middle of a call -/

namespace State
variable {env : Environment δ ν} {s s' t : State δ ν (Except Failure Execution)}

/-- In the middle of a call of the host, which is to be given its outcome. -/
structure Running (s : State δ ν (Except Failure Execution)) : Prop where
  bottom : ∃ results, s.waiting.getLast? = some (.caller results Task.report)
  runs : s.machine.core.runs = s.waiting.length
  free : s.machine.suspended = none
  upright : s.focus.outcome? ≠ some true

/-- The call may be over already, if the host has been given its outcome. -/
def Underway (s : State δ ν (Except Failure Execution)) : Prop :=
  s.Running ∨ s.waiting = [] ∧ ∃ o, s.focus = .host (Task.report o)

theorem Running.ne_nil (h : s.Running) : s.waiting ≠ [] := by
  obtain ⟨results, hbottom⟩ := h.bottom
  intro hnil
  rw [hnil] at hbottom
  cases hbottom

theorem Running.same (h : s.Running) (hwaiting : t.waiting = s.waiting) (hkeeps : s.machine.KeepsRuns t.machine)
    (hupright : t.focus.outcome? ≠ some true) : t.Running := by
  refine ⟨?_, ?_, ?_, hupright⟩
  · rw [hwaiting]
    exact h.bottom
  · rw [hkeeps.runs, hwaiting]
    exact h.runs
  · rw [hkeeps.suspended]
    exact h.free

theorem Running.opened (h : s.Running) {w : Waiting δ ν (Except Failure Execution)} (hwaiting : t.waiting = w :: s.waiting)
    (hfocus : t.focus = .tick) (hruns : t.machine.core.runs = s.machine.core.runs + 1)
    (hfree : t.machine.suspended = s.machine.suspended) : t.Running := by
  refine ⟨?_, ?_, hfree.trans h.free, by rw [hfocus]; nofun⟩
  · obtain ⟨results, hbottom⟩ := h.bottom
    rw [hwaiting, List.getLast?_cons, hbottom]
    exact ⟨results, rfl⟩
  · rw [hruns, hwaiting, List.length_cons, h.runs]

theorem Running.left {m : Machine δ ν} {result : Except Failure Bool} {w : Waiting δ ν (Except Failure Execution)}
    {waiting : List (Waiting δ ν (Except Failure Execution))} (h : Running ⟨m, .leave result, w :: waiting⟩) :
    (leave m result (w :: waiting)).Underway := by
  obtain ⟨results, hbottom⟩ := h.bottom
  have hawake : result ≠ .ok true := by
    rintro rfl
    exact h.upright rfl
  have hruns : m.core.runs = waiting.length + 1 := h.runs
  cases waiting with
  | nil =>
    obtain rfl := Option.some.inj hbottom
    exact Or.inr ⟨rfl, _, rfl⟩
  | cons v waiting =>
    left
    obtain ⟨hgoes, hrunning⟩ := goes_leave m result w (v :: waiting)
    have hleft := waiting_leave m result w (v :: waiting)
    have hlast : (v :: waiting).getLast? = some (.caller results Task.report) := by
      rwa [List.getLast?_cons_cons] at hbottom
    have hcount := hgoes.runs
    rw [hruns, Nat.add_sub_cancel] at hcount
    refine ⟨⟨results, by rw [hleft]; exact hlast⟩, by rw [hcount, hleft], ?_, by rw [hrunning]; nofun⟩
    cases hgoes with
    | keeps _ hkeeps => exact hkeeps.suspended.trans h.free
    | suspends _ _ hresult _ => exact absurd hresult hawake
    | forgets _ _ _ hzero _ =>
      rw [hruns, List.length_cons] at hzero
      omega

theorem Running.go (h : s.Running) (hawake : s.drowsy = false) (hstep : s.step env = .inl t)
    (hkeeps : s.acts = true → s.machine.KeepsRuns t.machine) : t.Underway := by
  cases hacts : s.acts with
  | true =>
    obtain ⟨hwaiting, -, task, hfocus⟩ := waiting_of_acts hacts hstep
    exact Or.inl (h.same hwaiting (hkeeps hacts) (by rw [hfocus]; nofun))
  | false =>
    cases turn_of_step hacts hstep with
    | idle hnobody _ => exact absurd hnobody h.ne_nil
    | quiet hwaiting hkeeps _ hfocus => exact Or.inl (h.same hwaiting hkeeps.toKeepsRuns (by rw [hfocus]; nofun))
    | returns hwaiting hkeeps _ hfocus => exact Or.inl (h.same hwaiting hkeeps (by rw [hfocus]; nofun))
    | suspends _ _ _ _ _ hfocus hread =>
      obtain ⟨m, focus, waiting⟩ := s
      cases hfocus
      obtain ⟨next, hread⟩ := hread
      cases (Cursor.sleepy_of_read hread).symm.trans hawake
    | opens w back hwaiting _ hfocus hruns hfree => exact Or.inl (h.opened hwaiting hfocus hruns hfree)
    | resumes results next hsuspended =>
      rw [h.free] at hsuspended
      cases hsuspended
    | forgets task _ _ _ hzero =>
      rw [h.runs] at hzero
      exact absurd (List.eq_nil_of_length_eq_zero hzero) h.ne_nil
    | leaves w result waiting hfocus hwaiting ht =>
      obtain ⟨m, focus, _⟩ := s
      cases hfocus
      cases hwaiting
      rw [ht]
      exact h.left

/-- A moment of a call, and the moment of the same call on the code without suspensions. -/
structure Abreast (s s' : State δ ν (Except Failure Execution)) : Prop where
  beside : Beside (· ≠ .ok .suspended) s s'
  within : s.machine.core.bearings.Within Cursor.Aligned
  underway : s.Underway

theorem Underway.upright (h : s.Underway) : s.focus.outcome? ≠ some true := by
  rcases h with hrunning | ⟨-, o, hfocus⟩
  · exact hrunning.upright
  · rw [hfocus]
    nofun

theorem Abreast.go (henv : env.Unconcerned) (h : Abreast s s') (hawake : s.drowsy = false) :
    (∃ t t', s.step env = .inl t ∧ s'.step env = .inl t' ∧ Abreast t t') ∨
      ∃ a b, s.step env = .inr a ∧ s'.step env = .inr b ∧ JointEnd (· ≠ .ok .suspended) a b := by
  have hlift := beside_step henv h.beside h.within hawake h.underway.upright
  rcases hstep : s.step env with t | a <;> rcases hstep' : s'.step env with t' | b <;> rw [hstep, hstep'] at hlift
  · cases hlift with
    | inl hbeside =>
      refine Or.inl ⟨t, t', rfl, rfl, hbeside, ?_, ?_⟩
      · cases hacts : s.acts with
        | true => exact (h.beside.kept_of_acts h.within hacts hstep).2
        | false => exact within_transition Cursor.enclosed_aligned h.within hacts hstep
      · rcases h.underway with hrunning | ⟨-, o, hfocus⟩
        · exact hrunning.go hawake hstep fun hacts => (h.beside.kept_of_acts h.within hacts hstep).1
        · obtain ⟨m, focus, waiting⟩ := s
          cases hfocus
          cases hstep
  · cases hlift
  · cases hlift
  · cases hlift with
    | inr hend => exact Or.inr ⟨a, b, rfl, rfl, hend⟩

/-- A call that is suspended and resumed comes back to the instruction after the `sus`, with all else as it was. -/
theorem nap (env : Environment δ ν) {m : Machine δ ν} {next : Cursor} (results : UInt8)
    (hread : Cursor.readInstruction m.core.executor.pc = .ok ⟨.sus, ()⟩ next) (hruns : m.core.runs = 1)
    (hfree : m.suspended = none) :
    ∃ n, (∀ k, run env (k + 3) ⟨m, .dispatch, [.caller results Task.report]⟩ = some (.ok .suspended, n)) ∧
      (begun n .resume).step env =
        .inl ⟨{ m with core := m.core.withPc next }, .tick, [.caller results Task.report]⟩ := by
  have hsus : step env ⟨m, .dispatch, [.caller results Task.report]⟩ =
      .inl ⟨{ m with core := m.core.withPc next }, .leave (.ok true), [.caller results Task.report]⟩ := by
    change Sum.inl (dispatch env m _) = _
    unfold dispatch
    rw [Machine.exec_of_ok (Exec.step_of_sus hread (Nat.le_of_eq hruns))]
  refine ⟨{ ({ m with core := m.core.withPc next } : Machine δ ν).closeRun with suspended := some results },
    fun k => ?_, ?_⟩
  · rw [run_of_inl rfl hsus, run_of_inl rfl rfl]
    exact run_of_inr rfl k
  · -- one run less, and one more; no call suspended, one, and none again
    have hback : m.core.runs - 1 + 1 = m.core.runs := by omega
    change Sum.inl (State.mk { m with
      core := { m.core.withPc next with runs := m.core.runs - 1 + 1 }
      suspended := none } .tick [.caller results Task.report]) = _
    rw [hback, ← hfree]
    rfl

/-- At a `sus` the first run is left and continued, while the second one just goes on. -/
theorem Abreast.sleeps (h : Abreast s s') (hdrowsy : s.drowsy = true) (hruns : s.machine.core.runs ≤ 1) :
    ∃ n t t', (∀ k, run env (k + 3) s = some (.ok .suspended, n)) ∧ (begun n .resume).step env = .inl t ∧
      s'.step env = .inl t' ∧ Abreast t t' := by
  rcases h.underway with hrunning | ⟨-, o, hfocus⟩
  · obtain ⟨m, focus, waiting⟩ := s
    obtain ⟨m', focus', waiting'⟩ := s'
    obtain ⟨⟨journal, htold, hwoken⟩, hfocus, hw⟩ := h.beside
    obtain ⟨results, hbottom⟩ := hrunning.bottom
    have hcount : m.core.runs = waiting.length := hrunning.runs
    cases hfocus with
    | dispatch =>
      cases hw with
      | nil => cases hbottom
      | @cons w w' above above' hhead hw =>
        have hle : m.core.runs ≤ 1 := hruns
        rw [List.length_cons] at hcount
        obtain rfl : above = [] := List.eq_nil_of_length_eq_zero (by omega)
        cases hw
        obtain rfl := Option.some.inj hbottom
        obtain ⟨next, hread, hpassed⟩ := Exec.step_sleepy env.signature? h.within.pc hdrowsy
        obtain ⟨n, hsuspended, hresumed⟩ := nap env results hread hcount hrunning.free
        have hwoken : m' = { m.wakeful with journal } := hwoken
        have hnop : step env ⟨m', .dispatch, [w']⟩ =
            .inl ⟨{ m' with core := (m.core.withPc next).wakeful }, .tick, [w']⟩ := by
          change Sum.inl (dispatch env m' _) = _
          unfold dispatch
          rw [hwoken, Machine.exec_of_ok hpassed]
        refine ⟨n, _, _, hsuspended, hresumed, hnop, ⟨⟨journal, htold, ?_⟩, .tick, .cons hhead .nil⟩,
          ⟨(h.within.pc.read hread).1, h.within.callers, h.within.sections⟩,
          Or.inl ⟨⟨results, rfl⟩, hcount, hrunning.free, nofun⟩⟩
        rw [hwoken]
        rfl
    | _ => cases hdrowsy
  · obtain ⟨m, focus, waiting⟩ := s
    cases hfocus
    cases hdrowsy

/-! ### Both calls to their end -/

variable {m n : Machine δ ν} {entry : Entry} {fuel calls : Nat}

theorem pursue_succ (env : Environment δ ν) (fuel calls : Nat) (m : Machine δ ν) (entry : Entry) :
    m.pursue env fuel (calls + 1) entry = (begun m entry).pursue env fuel calls fuel := rfl

theorem pursue_of_inl (hdown : s.isDown = false) (hstep : s.step env = .inl t) (k : Nat) :
    s.pursue env fuel calls (k + 1) = t.pursue env fuel calls k := by
  unfold pursue
  rw [run_of_inl hdown hstep]

theorem pursue_of_suspended {k : Nat} (h : run env k s = some (.ok .suspended, n)) :
    s.pursue env fuel calls k = n.pursue env fuel calls .resume := by
  unfold pursue
  rw [h]

theorem exists_run_of_pursue {r : Except Failure Execution × Machine δ ν} {k : Nat}
    (h : s.pursue env fuel calls k = some r) : ∃ r', run env k s = some r' := by
  unfold pursue at h
  cases hrun : run env k s with
  | none =>
    rw [hrun] at h
    cases h
  | some r' => exact ⟨r', rfl⟩

theorem pursue_of_inr {r : Except Failure Execution × Machine δ ν} (hstep : s.step env = .inr r)
    (hr : r.1 ≠ .ok .suspended) (k : Nat) : s.pursue env fuel calls (k + 1) = some r := by
  unfold pursue
  rw [run_of_inr hstep]
  split
  · rename_i heq
    cases heq
    exact absurd rfl hr
  · rfl

end State

theorem Pursued.suspended {env : Environment δ ν} {m n : Machine δ ν} {entry : Entry}
    {s : State δ ν (Except Failure Execution)} (h : Pursued env m entry s) {k : Nat}
    (hrun : State.run env k s = some (.ok .suspended, n)) : Pursued env m entry (.begun n .resume) := by
  induction k generalizing s with
  | zero => cases hrun
  | succ k ih =>
    rw [State.run] at hrun
    split_ifs at hrun
    cases hstep : s.step env with
    | inl t =>
      rw [hstep] at hrun
      exact ih (h.step hstep) hrun
    | inr r =>
      rw [hstep] at hrun
      cases hrun
      exact h.resume hstep

namespace State
variable {env : Environment δ ν} {s s' : State δ ν (Except Failure Execution)} {m : Machine δ ν} {entry : Entry}

theorem Abreast.ends_awake (henv : env.Unconcerned) (hsleeps : m.SleepsOutermost env entry) {fuel calls k : Nat}
    {o : Except Failure Execution} {mA : Machine δ ν} (h : Abreast s s') (hs : Pursued env m entry s)
    (hend : s.pursue env fuel calls k = some (o, mA)) : ∃ j mB, run env j s' = some (o, mB) ∧ mA.Woken mB := by
  induction calls using Nat.strong_induction_on generalizing k s s' with
  | _ calls hresume =>
    induction k generalizing s s' with
    | zero => cases hend
    | succ k ih =>
      obtain ⟨r, hrun⟩ := exists_run_of_pursue hend
      cases hdown : s.isDown with
      | true =>
        rw [run, if_pos hdown] at hrun
        cases hrun
      | false =>
        have hdown' : s'.isDown = false := h.beside.isDown.trans hdown
        cases hdrowsy : s.drowsy with
        | false =>
          rcases h.go henv hdrowsy with ⟨t, t', hstep, hstep', hnext⟩ | ⟨a, b, hstep, hstep', hawake, hsame, hwoken⟩
          · rw [pursue_of_inl hdown hstep] at hend
            obtain ⟨j, mB, hrun', hwoken⟩ := ih hnext (hs.step hstep) hend
            exact ⟨j + 1, mB, (run_of_inl hdown' hstep' j).trans hrun', hwoken⟩
          · rw [pursue_of_inr hstep hawake] at hend
            obtain rfl := Option.some.inj hend
            exact ⟨1, b.2, (run_of_inr hstep' 0).trans (congrArg (fun o => some (o, b.2)) hsame), hwoken⟩
        | true =>
          obtain ⟨n, t, t', hnap, hresumed, hstep', hnext⟩ := h.sleeps hdrowsy (hsleeps s hs hdrowsy)
          have hsuspended := (run_add hrun 3).symm.trans (hnap (k + 1))
          rw [hsuspended] at hrun
          rw [pursue_of_suspended hrun] at hend
          cases calls with
          | zero => cases hend
          | succ calls =>
            rw [pursue_succ] at hend
            cases fuel with
            | zero => cases hend
            | succ fuel =>
              rw [pursue_of_inl rfl hresumed] at hend
              obtain ⟨j, mB, hrun', hwoken⟩ :=
                hresume calls (Nat.lt_succ_self calls) hnext ((hs.suspended hrun).step hresumed) hend
              exact ⟨j + 1, mB, (run_of_inl hdown' hstep' j).trans hrun', hwoken⟩

theorem Abreast.ends_asleep (henv : env.Unconcerned) (hsleeps : m.SleepsOutermost env entry) {j : Nat}
    {o : Except Failure Execution} {mB : Machine δ ν} (h : Abreast s s') (hs : Pursued env m entry s)
    (hend : run env j s' = some (o, mB)) :
    ∃ mA, mA.Woken mB ∧ ∃ enough, ∀ fuel calls k, enough ≤ fuel → enough ≤ calls → enough ≤ k →
      s.pursue env fuel calls k = some (o, mA) := by
  induction j generalizing s s' with
  | zero => cases hend
  | succ j ih =>
    cases hdown : s'.isDown with
    | true =>
      rw [run, if_pos hdown] at hend
      cases hend
    | false =>
      cases hdrowsy : s.drowsy with
      | false =>
        rcases h.go henv hdrowsy with ⟨t, t', hstep, hstep', hnext⟩ | ⟨a, b, hstep, hstep', hawake, hsame, hwoken⟩
        · rw [run_of_inl hdown hstep'] at hend
          obtain ⟨mA, hwoken, enough, hpursued⟩ := ih hnext (hs.step hstep) hend
          refine ⟨mA, hwoken, enough + 1, fun fuel calls k hfuel hcalls hk => ?_⟩
          obtain ⟨k, rfl⟩ := Nat.exists_eq_add_of_le' (Nat.le_trans (Nat.le_add_left 1 enough) hk)
          rw [pursue_of_inl (h.beside.isDown.symm.trans hdown) hstep]
          exact hpursued fuel calls k (by omega) (by omega) (by omega)
        · rw [run_of_inr hstep'] at hend
          obtain rfl := Option.some.inj hend
          refine ⟨a.2, hwoken, 1, fun fuel calls k _ _ hk => ?_⟩
          obtain ⟨k, rfl⟩ := Nat.exists_eq_add_of_le' hk
          rw [pursue_of_inr hstep hawake, ← Prod.mk.eta (p := a), ← hsame]
      | true =>
        obtain ⟨n, t, t', hnap, hresumed, hstep', hnext⟩ := h.sleeps hdrowsy (hsleeps s hs hdrowsy)
        rw [run_of_inl hdown hstep'] at hend
        obtain ⟨mA, hwoken, enough, hpursued⟩ := ih hnext ((hs.suspended (hnap 0)).step hresumed) hend
        refine ⟨mA, hwoken, enough + 3, fun fuel calls k hfuel hcalls hk => ?_⟩
        obtain ⟨fuel, rfl⟩ := Nat.exists_eq_add_of_le' (Nat.le_trans (by omega : 1 ≤ enough + 3) hfuel)
        obtain ⟨calls, rfl⟩ := Nat.exists_eq_add_of_le' (Nat.le_trans (by omega : 1 ≤ enough + 3) hcalls)
        obtain ⟨k, rfl⟩ := Nat.exists_eq_add_of_le' (Nat.le_trans (Nat.le_add_left 3 enough) hk)
        rw [pursue_of_suspended (hnap k), pursue_succ, pursue_of_inl rfl hresumed]
        exact hpursued (fuel + 1) calls fuel (by omega) (by omega) (by omega)

theorem abreast_call (env : Environment δ ν) (hcode : m.core.bearings.Within Cursor.Aligned) (hrest : m.core.runs = 0)
    (index : UInt32) (arguments : List Value) :
    ∃ t t', (begun m (.call index arguments)).step env = .inl t ∧
      (begun m.wakeful (.call index arguments)).step env = .inl t' ∧ Abreast t t' := by
  have hreport : Task.Parallel (δ := δ) (ν := ν) (· ≠ .ok .suspended) Task.report Task.report := fun o ho => .finish ho
  refine ⟨_, _, rfl, rfl, beside_enter m.woken_wakeful .nil hreport (.call index arguments),
    within_enter Cursor.enclosed_aligned hcode Task.report (.call index arguments), ?_⟩
  rcases enter_call_cases m [] Task.report index arguments with
    ⟨home, memory, -, hfree, hentered⟩ | ⟨failure, hrefused⟩ | ⟨memory, failure, hrefused⟩
  · rw [hentered]
    exact Or.inl ⟨⟨home.results, rfl⟩, congrArg (· + 1) hrest, hfree hrest, nofun⟩
  · rw [hrefused]
    exact Or.inr ⟨rfl, _, rfl⟩
  · rw [hrefused]
    exact Or.inr ⟨rfl, _, rfl⟩

end State

/-- Suspension is transparent. Let a machine at rest have sections made of instructions, as assembled ones are, and let
`sus` be executed in the outermost run only. Then a call that the host resumes until it has ended or failed comes to
what the call comes to when each `sus` is a `nop`, and the one ends just when the other does. The outcome is the same,
with results or with fault and trace, and the machines that are left differ in the code alone. -/
theorem Machine.suspension_transparent {env : Environment δ ν} (henv : env.Unconcerned) {m : Machine δ ν}
    (hcode : m.core.bearings.Within Cursor.Aligned) (hrest : m.core.runs = 0) {index : UInt32} {arguments : List Value}
    (hsleeps : m.SleepsOutermost env (.call index arguments)) :
    (∀ fuel calls o mA, m.pursue env fuel calls (.call index arguments) = some (o, mA) →
      ∃ fuel mB, m.wakeful.perform env fuel (Program.run (.call index arguments)) = some (o, mB) ∧ mA.Woken mB) ∧
    (∀ fuel o mB, m.wakeful.perform env fuel (Program.run (.call index arguments)) = some (o, mB) →
      ∃ fuel calls mA, m.pursue env fuel calls (.call index arguments) = some (o, mA) ∧ mA.Woken mB) := by
  obtain ⟨t, t', hstep, hstep', habreast⟩ := State.abreast_call env hcode hrest index arguments
  have hs : Pursued env m (.call index arguments) t := Pursued.begin.step hstep
  refine ⟨fun fuel calls o mA hend => ?_, fun fuel o mB hend => ?_⟩
  · cases calls with
    | zero => cases hend
    | succ calls =>
      rw [State.pursue_succ] at hend
      cases fuel with
      | zero => cases hend
      | succ fuel =>
        rw [State.pursue_of_inl rfl hstep] at hend
        obtain ⟨j, mB, hrun, hwoken⟩ := habreast.ends_awake henv hsleeps hs hend
        exact ⟨j + 1, mB, (State.run_of_inl rfl hstep' j).trans hrun, hwoken⟩
  · cases fuel with
    | zero => cases hend
    | succ fuel =>
      have hrun : State.run env fuel t' = some (o, mB) := (State.run_of_inl rfl hstep' fuel).symm.trans hend
      obtain ⟨mA, hwoken, enough, hpursued⟩ := habreast.ends_asleep henv hsleeps hs hrun
      refine ⟨enough + 1, enough + 1, mA, ?_, hwoken⟩
      rw [State.pursue_succ, State.pursue_of_inl rfl hstep]
      exact hpursued (enough + 1) enough enough (by omega) (by omega) (by omega)

/-! ### A call that is suspended twice -/

namespace State
variable {env : Environment δ ν}

/-- Whether a call comes to its end in so many transitions, and each `sus` is executed in the outermost run. -/
def dozes (env : Environment δ ν) : Nat → State δ ν (Except Failure Execution) → Bool
  | 0, _ => false
  | n + 1, s => (!s.drowsy || s.machine.core.runs ≤ 1) &&
    match s.step env with
    | .inl t => dozes env n t
    | .inr (.ok .suspended, m) => dozes env n (begun m .resume)
    | .inr _ => true

end State

theorem Machine.sleepsOutermost_of_dozes {env : Environment δ ν} {m : Machine δ ν} {entry : Entry} {n : Nat}
    (h : (State.begun m entry).dozes env n = true) : m.SleepsOutermost env entry := by
  have hdozes : ∀ s, Pursued env m entry s → ∃ n, s.dozes env (n + 1) = true := by
    intro s hs
    induction hs with
    | begin =>
      cases n with
      | zero => cases h
      | succ n => exact ⟨n, h⟩
    | step _ hstep ih =>
      obtain ⟨n, hn⟩ := ih
      simp only [State.dozes, hstep, Bool.and_eq_true] at hn
      cases n with
      | zero => cases hn.2
      | succ n => exact ⟨n, hn.2⟩
    | resume _ hstep ih =>
      obtain ⟨n, hn⟩ := ih
      simp only [State.dozes, hstep, Bool.and_eq_true] at hn
      cases n with
      | zero => cases hn.2
      | succ n => exact ⟨n, hn.2⟩
  intro s hs hdrowsy
  obtain ⟨n, hn⟩ := hdozes s hs
  simp only [State.dozes, hdrowsy, Bool.and_eq_true, Bool.not_true, Bool.false_or, decide_eq_true_eq] at hn
  exact hn.1

theorem Assembler.Built.emits {a : Assembler} (h : a.Built) {is : List Instruction} (his : ∀ i ∈ is, i.op.isBranch = false) :
    (is.foldl Assembler.emit a).Built := by
  induction is generalizing a with
  | nil => exact h
  | cons i is ih => exact ih (h.emit i (his i List.mem_cons_self)) fun j hj => his j (List.mem_cons_of_mem i hj)

def Environment.measuring : Environment MachineSession.Debugger MachineSession.Note :=
  { Environment.arrays with natives := #[⟨"height", .fixed 0, MachineSession.stackHeight⟩] }

theorem Environment.unconcerned_measuring : measuring.Unconcerned where
  natives := by
    intro n hn vs
    obtain rfl := Array.mem_singleton.1 hn
    have hplaceless : Exec.Placeless Section.wakeful
        (get >>= fun c : Core => pure (some (Value.uint c.executor.stack.size.toUInt64))) :=
      Exec.Placeless.inspect (fun _ => Exec.placeless_pure _) fun _ => rfl
    exact HostCode.parallel_exec hplaceless (Exec.steady_get.bind fun _ => Exec.steady_pure (p := Exec.ordinarily) _)
  tick := fun _ => .finish trivial

/-- Counts to three, suspended before each of the last two steps, and measures the stack at the end. -/
def countingOut : List Instruction :=
  [⟨.all, (1, ())⟩, ⟨.ldiS32, (1, ())⟩, ⟨.stl, (0, ())⟩, ⟨.sus, ()⟩, ⟨.incl, (0, ())⟩, ⟨.sus, ()⟩, ⟨.incl, (0, ())⟩,
    ⟨.ldl, (0, ())⟩, ⟨.nat, (0, 0, ())⟩, ⟨.ret, (2, ())⟩]

def dozing : Section := { results := 2, code := (countingOut.flatMap Instruction.encode).toArray }

theorem assembled_dozing (id : SectionId) : Section.Assembled { dozing with id } :=
  ⟨countingOut.foldl Assembler.emit {}, 2, some 0, dozing, Assembler.Built.emits (.start none) (by decide), rfl, by decide,
    rfl⟩

def Machine.dozing : Machine MachineSession.Debugger MachineSession.Note :=
  launch {} {} {} (SectionTable.add {} ScriptVm.dozing).2

theorem Machine.within_dozing : Machine.dozing.core.bearings.Within Cursor.Aligned := by
  refine ⟨Cursor.enclosed_aligned.rest 0, nofun, fun index home hhome => ?_⟩
  rcases SectionTable.of_get_add hhome with hnone | rfl
  · cases hnone
  · exact (assembled_dozing _).aligned

theorem Machine.suspension_transparent_dozing :
    Environment.measuring.Unconcerned ∧ Machine.dozing.core.bearings.Within Cursor.Aligned ∧
      Machine.dozing.core.runs = 0 ∧ Machine.dozing.SleepsOutermost .measuring (.call 0 []) ∧
      (Machine.dozing.perform .measuring 20 (Program.run (.call 0 []))).map (·.1) = some (.ok .suspended) ∧
      ∃ mA fuel mB, Machine.dozing.pursue .measuring 20 3 (.call 0 []) = some (.ok (.finished [.int 3, .uint 4]), mA) ∧
        Machine.dozing.wakeful.perform .measuring fuel (Program.run (.call 0 [])) =
          some (.ok (.finished [.int 3, .uint 4]), mB) ∧ mA.Woken mB := by
  have hsleeps : Machine.dozing.SleepsOutermost .measuring (.call 0 []) :=
    sleepsOutermost_of_dozes (n := 60) (by cbv)
  have hpursued : (Machine.dozing.pursue .measuring 20 3 (.call 0 [])).map (·.1) =
      some (.ok (.finished [.int 3, .uint 4])) := by cbv
  obtain ⟨⟨o, mA⟩, hend, ho⟩ := Option.map_eq_some_iff.1 hpursued
  obtain rfl : o = _ := ho
  obtain ⟨fuel, mB, hperformed, hwoken⟩ :=
    (suspension_transparent Environment.unconcerned_measuring within_dozing rfl hsleeps).1 20 3 _ mA hend
  exact ⟨Environment.unconcerned_measuring, within_dozing, rfl, hsleeps, by cbv, mA, fuel, mB, hend, hperformed, hwoken⟩

end ScriptVm
