import ScriptVm.Proofs.Attire
import ScriptVm.Proofs.Turns

/-! Who is in control. Host code runs for the host, for a native or for a debugger, and stays with that however often it
has sections run. So the debuggers in control at a moment are known from the code that runs and the code that waits, and
a transition that is not up to host code gives a debugger control, takes it back from the one that has it, or has
nothing to do with debuggers. -/

namespace ScriptVm
variable {δ ν ρ α β : Type}

/-- Whatever it meets on the way, the host code comes to a result as `p` says, if it comes to one. -/
inductive HostCode.ComesTo (p : α → Prop) : HostCode δ ν α → Prop where
  | finish {a : α} : p a → ComesTo p (.finish a)
  | act {f : Machine δ ν → HostCode δ ν α × Machine δ ν} : (∀ m, ComesTo p (f m).1) → ComesTo p (.act f)
  | enter (entry : Entry) {next : Except Failure Execution → HostCode δ ν α} : (∀ o, ComesTo p (next o)) →
      ComesTo p (.enter entry next)

def Verdict.turn? : Verdict δ ρ → Option Nat
  | .tick d _ | .pause d _ => some d.serial
  | _ => none

def Focus.Serves (k : Option Nat) : Focus δ ν ρ → Prop
  | .host task => HostCode.ComesTo (fun verdict => verdict.turn? = k) task
  | _ => k = none

/-- The debuggers whose turns wait for a run to end, the innermost first. -/
inductive Waiting.Serve : List (Waiting δ ν ρ) → List Nat → Prop where
  | none : Serve [] []
  | instruction {waiting : List (Waiting δ ν ρ)} {turns : List Nat} : Serve waiting turns →
      Serve (.instruction :: waiting) turns
  | caller {waiting : List (Waiting δ ν ρ)} {turns : List Nat} (results : UInt8)
      {next : Except Failure Execution → Task δ ν ρ} (k : Option Nat) : (∀ o, (Focus.host (next o)).Serves k) →
      Serve waiting turns → Serve (.caller results next :: waiting) (k.toList ++ turns)
  | executor {waiting : List (Waiting δ ν ρ)} {turns : List Nat} {next : Except Failure Execution → Task δ ν ρ}
      (k : Option Nat) : (∀ o, (Focus.host (next o)).Serves k) → Serve waiting turns →
      Serve (.executor next :: waiting) (k.toList ++ turns)

/-- The debuggers of these numbers have control, the innermost first. -/
inductive State.InControl (s : State δ ν ρ) : List Nat → Prop where
  | intro {turns : List Nat} (k : Option Nat) : s.focus.Serves k → Waiting.Serve s.waiting turns →
      InControl s (k.toList ++ turns)

/-! ### Host code -/

theorem Program.induction {σ : Type} {p : Program σ α → Prop} (finish : ∀ a, p (.finish a))
    (act : ∀ f, (∀ s, p (f s).1) → p (.act f)) (enter : ∀ entry next, (∀ o, p (next o)) → p (.enter entry next))
    (x : Program σ α) : p x :=
  @Program.rec σ α p (fun r => p r.1) finish act enter (fun _ _ h => h) x

/-- What is done with a result in the end tells what host code comes to. -/
theorem HostCode.comesTo_bind {q : β → Prop} (x : HostCode δ ν α) {k : α → HostCode δ ν β}
    (hk : ∀ a, HostCode.ComesTo q (k a)) : HostCode.ComesTo q (x.bind k) := by
  induction x using Program.induction with
  | finish a => exact hk a
  | act f ih =>
    refine .act fun m => ?_
    rw [Program.bindResult_fst]
    exact ih m
  | enter entry next ih => exact .enter entry ih

namespace State
variable {env : Environment δ ν} {m : Machine δ ν} {waiting : List (Waiting δ ν ρ)} {turns : List Nat}

theorem inControl_outset (m : Machine δ ν) (host : HostCode δ ν ρ) :
    InControl ⟨m, .host (host.bind fun r => .finish (.host r)), []⟩ [] :=
  .intro none (HostCode.comesTo_bind host fun _ => .finish rfl) .none

/-! ### Transitions -/

/-- What happens to the debuggers in control in a transition that is not up to host code. -/
inductive Passing (env : Environment δ ν) (s s' : State δ ν ρ) : List Nat → List Nat → Prop where
  | quiet {turns : List Nat} : s'.machine.attire = s.machine.attire →
      (∀ v, s.focus = .host (.finish v) → v.turn? = none) → Passing env s s' turns turns
  /-- The debugger gets control. It may be shown the instruction before, or be told to pause because of a fault. -/
  | engages {turns : List Nat} (d : Attached δ) (told? : Option (Event δ ν))
      (verdict : Except Fault Unit × δ → Verdict δ ρ) : s.machine.debugger = some d →
      (∀ e ∈ told?, (∃ line, e = .traced d line) ∨ e = .broke d ∧ ∃ f, s.focus = .fail f) →
      (∀ task, s.focus ≠ .host task) → s'.machine = (told?.elim s.machine s.machine.tell).handOver →
      s'.focus = .host ((env.debugging.tick d.state).bind fun r => .finish (verdict r)) →
      (∀ r, (verdict r).turn? = some d.serial) → s'.waiting = s.waiting → Passing env s s' turns (d.serial :: turns)
  | releases {turns : List Nat} (d : Attached δ) (v : Verdict δ ρ) : s.focus = .host (.finish v) →
      v.turn? = some d.serial → s'.machine = s.machine.takeBack d → Passing env s s' (d.serial :: turns) turns

theorem serves_turn (turn : HostCode δ ν (Except Fault Unit × δ)) {verdict : Except Fault Unit × δ → Verdict δ ρ}
    {k : Nat} (hverdict : ∀ r, (verdict r).turn? = some k) :
    (Focus.host (turn.bind fun r => .finish (verdict r))).Serves (some k) :=
  HostCode.comesTo_bind turn fun r => .finish (hverdict r)

theorem passing_tick (hw : Waiting.Serve waiting turns) :
    ∃ turns', InControl (tick env m waiting) turns' ∧
      Passing env ⟨m, .tick, waiting⟩ (tick env m waiting) turns turns' := by
  unfold tick
  cases hdebugger : m.debugger with
  | none => exact ⟨turns, .intro none rfl hw, .quiet rfl nofun⟩
  | some d =>
    have hserves : (Focus.host ((env.debugging.tick d.state).bind fun r =>
        .finish (.tick { d with state := r.2 } r.1)) : Focus δ ν ρ).Serves (some d.serial) := serves_turn _ fun _ => rfl
    dsimp only
    split_ifs
    · refine ⟨_, .intro (some d.serial) hserves hw,
        .engages d (some (.traced d _)) _ hdebugger ?_ nofun rfl rfl (fun _ => rfl) rfl⟩
      rintro e he
      exact .inl ⟨_, (Option.mem_some.1 he).symm⟩
    · exact ⟨_, .intro (some d.serial) hserves hw, .engages d none _ hdebugger nofun nofun rfl rfl (fun _ => rfl) rfl⟩

theorem passing_fail (f : Fault) (hw : Waiting.Serve waiting turns) :
    ∃ turns', InControl (fail env m waiting f) turns' ∧
      Passing env ⟨m, .fail f, waiting⟩ (fail env m waiting f) turns turns' := by
  unfold fail
  split_ifs
  · exact ⟨turns, .intro none rfl hw, .quiet rfl nofun⟩
  · exact ⟨turns, .intro none rfl hw, .quiet rfl nofun⟩
  · dsimp only
    cases hdebugger : m.debugger with
    | none => exact ⟨turns, .intro none rfl hw, .quiet rfl nofun⟩
    | some d =>
      have hserves : (Focus.host ((env.debugging.tick d.state).bind fun r =>
          .finish (.pause { d with state := r.2 } (m.traced f))) : Focus δ ν ρ).Serves (some d.serial) :=
        serves_turn _ fun _ => rfl
      refine ⟨_, .intro (some d.serial) hserves hw,
        .engages d (some (.broke d)) _ hdebugger ?_ nofun rfl rfl (fun _ => rfl) rfl⟩
      rintro e he
      exact .inr ⟨(Option.mem_some.1 he).symm, f, rfl⟩

theorem inControl_dispatch (hw : Waiting.Serve waiting turns) : InControl (dispatch env m waiting) turns := by
  unfold dispatch
  rcases m.exec (Exec.step env.signature?) with ⟨f | flow, n⟩
  · exact .intro none rfl hw
  · cases flow with
    | entered => exact .intro none rfl (.instruction hw)
    | native index arguments =>
      dsimp only
      cases env.native? index with
      | none => exact .intro none rfl hw
      | some native => exact .intro none (HostCode.comesTo_bind _ fun _ => .finish rfl) hw
    | _ => exact .intro none rfl hw

theorem inControl_leave (result : Except Failure Bool) (hw : Waiting.Serve waiting turns) :
    InControl (leave m result waiting) turns := by
  cases hw with
  | none => exact .intro none rfl .none
  | instruction hw => rcases result with failure | _ | _ <;> exact .intro none rfl hw
  | caller results k hnext hw => exact .intro k (hnext _) hw
  | executor k hnext hw => exact .intro k (hnext _) hw

theorem inControl_enter {k : Option Nat} {next : Except Failure Execution → Task δ ν ρ}
    (hnext : ∀ o, (Focus.host (next o)).Serves k) (entry : Entry) (hw : Waiting.Serve waiting turns) :
    InControl (enter m waiting next entry) (k.toList ++ turns) := by
  cases entry with
  | call index arguments =>
    rcases enter_call_cases m waiting next index arguments with
      ⟨home, memory, -, -, hentered⟩ | ⟨failure, hrefused⟩ | ⟨memory, failure, hrefused⟩
    · rw [hentered]
      exact .intro none rfl (.caller _ k hnext hw)
    · rw [hrefused]
      exact .intro k (hnext _) hw
    · rw [hrefused]
      exact .intro k (hnext _) hw
  | execute index ready =>
    rcases enter_execute_cases m waiting next index ready with ⟨home, -, hentered⟩ | ⟨failure, hrefused⟩
    · rw [hentered]
      exact .intro none rfl (.executor k hnext hw)
    · rw [hrefused]
      exact .intro k (hnext _) hw
  | resume =>
    unfold enter
    cases m.suspended with
    | none => exact .intro k (hnext _) hw
    | some results => exact .intro none rfl (.caller _ k hnext hw)

variable (env) in
theorem passing_settle {k : Option Nat} {verdict : Verdict δ ρ} {s : State δ ν ρ} (hverdict : verdict.turn? = k)
    (hw : Waiting.Serve waiting turns) (h : settle m waiting verdict = .inl s) :
    InControl s turns ∧ Passing env ⟨m, .host (.finish verdict), waiting⟩ s (k.toList ++ turns) turns := by
  subst hverdict
  cases verdict with
  | host result => cases h
  | native arguments result =>
    have hplain : ∀ v, (Focus.host (.finish (.native arguments result)) : Focus δ ν ρ) = .host (.finish v) →
        v.turn? = none := by
      rintro v hv
      cases hv
      rfl
    rcases result with f | _ | v <;> cases h <;> exact ⟨.intro none rfl hw, .quiet rfl hplain⟩
  | tick d result => cases result <;> cases h <;> exact ⟨.intro none rfl hw, .releases d _ rfl rfl rfl⟩
  | pause d failure =>
    cases h
    exact ⟨.intro none rfl hw, .releases d _ rfl rfl rfl⟩

theorem InControl.acts {s s' : State δ ν ρ} (h : s.InControl turns) (hacts : s.acts = true)
    (hstep : s.step env = .inl s') : s'.InControl turns := by
  obtain ⟨m, focus, waiting⟩ := s
  obtain ⟨k, hserves, hw⟩ := h
  cases focus with
  | host task =>
    cases task with
    | act f =>
      cases hserves with
      | act hf =>
        cases hstep
        exact .intro k (hf m) hw
    | enter entry next => cases hacts
    | finish verdict => cases hacts
  | _ => cases hacts

theorem InControl.passing {s s' : State δ ν ρ} (h : s.InControl turns) (hacts : s.acts = false)
    (hstep : s.step env = .inl s') : ∃ turns', s'.InControl turns' ∧ Passing env s s' turns turns' := by
  obtain ⟨m, focus, waiting⟩ := s
  obtain ⟨k, hserves, hw⟩ := h
  cases focus with
  | tick =>
    cases hserves
    cases hstep
    exact passing_tick hw
  | dispatch =>
    cases hserves
    cases hstep
    have hattire := attire_eq (F := fun m => dispatch env m waiting) fun a => dispatch_dressed m a waiting
    exact ⟨_, inControl_dispatch hw, .quiet hattire nofun⟩
  | fail f =>
    cases hserves
    cases hstep
    exact passing_fail f hw
  | leave result =>
    cases hserves
    cases hstep
    have hattire := attire_eq (F := fun m => leave m result waiting) fun a => leave_dressed m a waiting result
    exact ⟨_, inControl_leave result hw, .quiet hattire nofun⟩
  | host task =>
    cases task with
    | act f => cases hacts
    | enter entry next =>
      cases hserves with
      | enter entry hnext =>
        cases hstep
        have hattire :=
          attire_eq (F := fun m => enter m waiting next entry) fun a => enter_dressed m a waiting next entry
        exact ⟨_, inControl_enter hnext entry hw, .quiet hattire nofun⟩
    | finish verdict =>
      cases hserves with
      | finish hverdict => exact ⟨_, passing_settle env hverdict hw hstep⟩

end State
end ScriptVm
