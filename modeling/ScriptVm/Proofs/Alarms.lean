import ScriptVm.Proofs.Attendance
import ScriptVm.Proofs.Debuggers

/-! What a debugger hears of a fault. A fault goes up from the instruction that raised it to the host's call, through
sections that called one another and through natives that called sections and pass it on. A debugger that only looks on
is told to pause where the fault was raised, not where sections were called, and again at each native that passes it
on. -/

namespace ScriptVm
variable {δ ν ρ : Type}

/-- Host code for a native that ends it with the fault, and has nothing to do with debuggers before. -/
inductive HostCode.PassesOn (f : Fault) : Task δ ν ρ → Prop where
  | finish (arguments : List Value) : PassesOn f (.finish (.native arguments (.error f)))
  | act {g : Machine δ ν → Task δ ν ρ × Machine δ ν} : (∀ m : Machine δ ν, m.SameDebugger (g m).2) →
      (∀ m, PassesOn f (g m).1) → PassesOn f (.act g)

/-- Those who wait hand the fault up to the host's call, which goes on with it. So many natives are on the way. -/
inductive Waiting.Relay (f : Fault) (next : Except Failure Execution → Task δ ν ρ) :
    List (Waiting δ ν ρ) → Nat → Prop where
  | called (results : UInt8) : Relay f next [.caller results next] 0
  | executed : Relay f next [.executor next] 0
  | instruction {waiting : List (Waiting δ ν ρ)} {natives : Nat} : Relay f next waiting natives →
      Relay f next (.instruction :: waiting) natives
  | caller {waiting : List (Waiting δ ν ρ)} {natives : Nat} (results : UInt8)
      {inner : Except Failure Execution → Task δ ν ρ} :
      (∀ failure : Failure, failure.fault = f → HostCode.PassesOn f (inner (.error failure))) →
      Relay f next waiting natives → Relay f next (.caller results inner :: waiting) (natives + 1)
  | executor {waiting : List (Waiting δ ν ρ)} {natives : Nat} {inner : Except Failure Execution → Task δ ν ρ} :
      (∀ failure : Failure, failure.fault = f → HostCode.PassesOn f (inner (.error failure))) →
      Relay f next waiting natives → Relay f next (.executor inner :: waiting) (natives + 1)

/-- The moments of a run up to the first fault. Host code leaves debuggers alone. -/
inductive Calm (env : Environment δ ν) (s₀ : State δ ν ρ) : State δ ν ρ → Prop where
  | start : Calm env s₀ s₀
  | goes {s s' : State δ ν ρ} : Calm env s₀ s → s.step env = .inl s' →
      (s.acts = true → s.machine.SameDebugger s'.machine) → (∀ f, s.focus ≠ .fail f) → Calm env s₀ s'

namespace State
variable {env : Environment δ ν} {s s' : State δ ν ρ}

theorem leadsTo_of_calm {s₀ : State δ ν ρ} (h : Calm env s₀ s) : LeadsTo env s₀ s := by
  induction h with
  | start => exact .refl s₀
  | goes _ hstep _ _ ih => exact ih.trans (.of_step hstep)

end State

/-! ### A debugger that only looks on -/

/-- A debugger is attached and waits for its turn, as long as it was told to pause so often. -/
structure Machine.Watched (m : Machine δ ν) (breaks : Nat) : Prop where
  watching : m.attire.Watching
  breaks : m.breaks = breaks

structure Machine.Busy (m : Machine δ ν) (breaks : Nat) : Prop where
  engaged : m.attire.Engaged
  breaks : m.breaks = breaks

namespace Machine
variable {m m' : Machine δ ν} {n : Nat}

theorem Watched.same (h : m.Watched n) (hsame : m.SameDebugger m') : m'.Watched n := by
  have hdebugger : m'.attire.debugger = m.attire.debugger := hsame.debugger
  refine ⟨⟨?_, hsame.ticking.trans h.watching.ticking, hsame.detachPending.trans h.watching.detachPending⟩,
    hsame.breaks.trans h.breaks⟩
  rw [hdebugger]
  exact h.watching.debugger

theorem Busy.same (h : m.Busy n) (hsame : m.SameDebugger m') : m'.Busy n :=
  ⟨⟨hsame.debugger.trans h.engaged.debugger, hsame.ticking.trans h.engaged.ticking,
    hsame.detachPending.trans h.engaged.detachPending⟩, hsame.breaks.trans h.breaks⟩

theorem Watched.handOver (h : m.Watched n) : m.handOver.Busy n :=
  ⟨⟨rfl, rfl, h.watching.detachPending⟩, h.breaks⟩

theorem Watched.tell (h : m.Watched n) (e : Event δ ν) : (m.tell e).Watched (n + if e.isBreak then 1 else 0) :=
  ⟨⟨h.watching.debugger, h.watching.ticking, h.watching.detachPending⟩, h.breaks ▸ m.breaks_tell e⟩

theorem attire_exec {α : Type} (m : Machine δ ν) (x : Exec α) : (m.exec x).2.attire = m.attire := by
  unfold exec
  cases x m.core <;> rfl

theorem attire_abandon (m : Machine δ ν) : m.abandon.attire = m.attire := by
  rcases m.abandon_eq with ⟨-, habandon⟩ | ⟨-, habandon⟩ <;> rw [habandon]
  rfl

theorem Watched.closeRun (h : m.Watched n) : m.closeRun.Watched n := h.same (.of_attire rfl)

theorem Watched.abandon (h : m.Watched n) : m.abandon.Watched n := h.same (.of_attire m.attire_abandon)

theorem Busy.takeBack (h : m.Busy n) (d : Attached δ) : (m.takeBack d).Watched n := by
  have htaken : m.takeBack d = { m with ticking := false, detachPending := false, debugger := some d } := by
    obtain ⟨⟨hdebugger, -, hpending⟩, -⟩ := h
    change m.debugger = none at hdebugger
    change m.detachPending = false at hpending
    unfold Machine.takeBack
    rw [hdebugger, hpending]
    rfl
  rw [htaken]
  exact ⟨⟨rfl, rfl, rfl⟩, h.breaks⟩

end Machine

namespace State
variable {env : Environment δ ν} {m : Machine δ ν} {waiting : List (Waiting δ ν ρ)} {n : Nat}

variable (env waiting) in
/-- A turn of a debugger that only looks on comes to its end. -/
theorem leadsTo_end {turn : HostCode δ ν (Except Fault Unit × δ)} (hturn : turn.Passive) (hm : m.Busy n)
    (verdict : Except Fault Unit × δ → Verdict δ ρ) :
    ∃ m' d, m'.Busy n ∧ LeadsTo env ⟨m, .host (turn.bind fun r => .finish (verdict r)), waiting⟩
      ⟨m', .host (.finish (verdict (.ok (), d))), waiting⟩ := by
  induction hturn generalizing m with
  | finish d => exact ⟨m, d, hm, .refl _⟩
  | @act f _ hsame _ ih =>
    obtain ⟨m', d, hm', hleads⟩ := ih m (hm.same (hsame m))
    exact ⟨m', d, hm', .trans (.of_step (step_act env m f _ waiting)) hleads⟩

variable (waiting) in
/-- A fault where a debugger is attached that only looks on: it is told to pause, and the run is left. -/
theorem leadsTo_leave (hpassive : env.debugging.Passive) {f : Fault} (hcrash : f ≠ .crash) (hm : m.Watched n) :
    ∃ m' failure, failure.fault = f ∧ m'.Watched (n + 1) ∧
      LeadsTo env ⟨m, .fail f, waiting⟩ ⟨m', .leave (.error failure), waiting⟩ := by
  obtain ⟨d, hdebugger⟩ := Option.isSome_iff_exists.1 hm.watching.debugger
  change m.debugger = some d at hdebugger
  have hidle : m.ticking = false := hm.watching.ticking
  have hfail : fail env m waiting f = ⟨(m.tell (.broke d)).handOver,
      .host ((env.debugging.tick d.state).bind fun r => .finish (.pause { d with state := r.2 } (m.traced f))),
      waiting⟩ := by
    have hasks : ¬ (m.ticking || m.debugger.any (env.debugging.inline ·.state)) = true := by
      simp [hidle, hdebugger, hpassive.inline]
    unfold fail
    rw [if_neg hcrash, if_neg hasks, hdebugger]
  obtain ⟨m', state, hm', hleads⟩ := leadsTo_end env waiting (hpassive.tick d.state)
    (hm.tell (.broke d)).handOver fun r => (.pause { d with state := r.2 } (m.traced f) : Verdict δ ρ)
  refine ⟨m'.takeBack { d with state }, m.traced f, rfl, hm'.takeBack _, ?_⟩
  have hstart : LeadsTo env ⟨m, .fail f, waiting⟩ (fail env m waiting f) := .of_step rfl
  rw [hfail] at hstart
  exact (hstart.trans hleads).trans (.of_step rfl)

variable (waiting) in
/-- A native passes the fault on, which is then dealt with as a fault of the instruction that called the native. -/
theorem leadsTo_passed (hpassive : env.debugging.Passive) {f : Fault} (hcrash : f ≠ .crash) {task : Task δ ν ρ}
    (htask : HostCode.PassesOn f task) (hm : m.Watched n) :
    ∃ m' failure, failure.fault = f ∧ m'.Watched (n + 1) ∧
      LeadsTo env ⟨m, .host task, waiting⟩ ⟨m', .leave (.error failure), waiting⟩ := by
  induction htask generalizing m with
  | finish arguments =>
    have hdropped : (m.exec (Exec.drop arguments)).2.Watched n := hm.same (.of_attire (m.attire_exec _))
    obtain ⟨m', failure, hfault, hm', hleads⟩ := leadsTo_leave waiting hpassive hcrash hdropped
    exact ⟨m', failure, hfault, hm', .trans (.of_step rfl) hleads⟩
  | act hsame _ ih =>
    obtain ⟨m', failure, hfault, hm', hleads⟩ := ih m (hm.same (hsame m))
    exact ⟨m', failure, hfault, hm', .trans (.of_step rfl) hleads⟩

/-- The fault reaches the host's call. Each native on the way raises it anew, and the debugger is told again. -/
theorem leadsTo_host (hpassive : env.debugging.Passive) {f : Fault} (hcrash : f ≠ .crash)
    {next : Except Failure Execution → Task δ ν ρ} {natives : Nat} (hrelay : Waiting.Relay f next waiting natives)
    {failure : Failure} (hfault : failure.fault = f) (hm : m.Watched n) :
    ∃ m' failure', failure'.fault = f ∧ m'.Watched (n + natives) ∧
      LeadsTo env ⟨m, .leave (.error failure), waiting⟩ ⟨m', .host (next (.error failure')), []⟩ := by
  induction hrelay generalizing m n failure with
  | called results => exact ⟨_, failure, hfault, hm.closeRun.abandon, .of_step rfl⟩
  | executed => exact ⟨_, failure, hfault, hm.closeRun, .of_step rfl⟩
  | instruction _ ih =>
    obtain ⟨m', failure', hfault', hm', hleads⟩ := ih hfault hm.closeRun
    exact ⟨m', failure', hfault', hm', .trans (.of_step rfl) hleads⟩
  | @caller waiting natives results inner hinner _ ih =>
    obtain ⟨m₁, failure₁, hfault₁, hm₁, hpassed⟩ := leadsTo_passed waiting hpassive hcrash
      (hinner failure hfault) hm.closeRun.abandon
    obtain ⟨m', failure', hfault', hm', hleads⟩ := ih hfault₁ hm₁
    refine ⟨m', failure', hfault', ?_, .trans (.of_step rfl) (hpassed.trans hleads)⟩
    rwa [Nat.add_assoc, Nat.add_comm 1] at hm'
  | @executor waiting natives inner hinner _ ih =>
    obtain ⟨m₁, failure₁, hfault₁, hm₁, hpassed⟩ := leadsTo_passed waiting hpassive hcrash
      (hinner failure hfault) hm.closeRun
    obtain ⟨m', failure', hfault', hm', hleads⟩ := ih hfault₁ hm₁
    refine ⟨m', failure', hfault', ?_, .trans (.of_step rfl) (hpassed.trans hleads)⟩
    rwa [Nat.add_assoc, Nat.add_comm 1] at hm'

end State

/-! ### Up to the fault -/

/-- A debugger looks on, and waits for its turn or has it. It was told to pause so often. -/
inductive State.Attentive (n : Nat) (s : State δ ν ρ) : Prop where
  | watched : s.machine.Watched n → s.InControl [] → Attentive n s
  | busy (turn : HostCode δ ν (Except Fault Unit × δ)) (verdict : Except Fault Unit × δ → Verdict δ ρ) (k : Nat) :
      turn.Passive → s.machine.Busy n → s.focus = .host (turn.bind fun r => .finish (verdict r)) →
      (∀ r, (verdict r).turn? = some k) → Waiting.Serve s.waiting [] → Attentive n s

namespace State
variable {env : Environment δ ν} {s s' : State δ ν ρ} {n : Nat}

theorem InControl.serve {turns : List Nat} (h : s.InControl turns) (hnone : turns = []) :
    Waiting.Serve s.waiting [] := by
  obtain ⟨k, -, hwaiting⟩ := h
  rwa [(List.append_eq_nil_iff.1 hnone).2] at hwaiting

/-- As long as there is no fault, the debugger gets its turns and is told nothing else. -/
theorem Attentive.goes (hpassive : env.debugging.Passive) (h : s.Attentive n) (hstep : s.step env = .inl s')
    (hacts : s.acts = true → s.machine.SameDebugger s'.machine) (hfocus : ∀ f, s.focus ≠ .fail f) : s'.Attentive n := by
  cases h with
  | watched hm hcontrol =>
    cases hact : s.acts with
    | true => exact .watched (hm.same (hacts hact)) (hcontrol.acts hact hstep)
    | false =>
      obtain ⟨turns, hcontrol', hpassing⟩ := hcontrol.passing hact hstep
      cases hpassing with
      | quiet hattire => exact .watched (hm.same (.of_attire hattire)) hcontrol'
      | engages d told? verdict _ htold _ hmachine hturn hverdict hwaiting =>
        have hbusy : s'.machine.Busy n := by
          rw [hmachine]
          cases told? with
          | none => exact hm.handOver
          | some e =>
            rcases htold e rfl with ⟨line, rfl⟩ | ⟨-, f, hf⟩
            · exact (hm.tell _).handOver
            · exact absurd hf (hfocus f)
        exact .busy _ verdict d.serial (hpassive.tick d.state) hbusy hturn hverdict (hwaiting ▸ hcontrol.serve rfl)
  | busy turn verdict k hturn hm hhost hverdict hwaiting =>
    obtain ⟨m, focus, waiting⟩ := s
    cases hhost
    cases hturn with
    | finish d =>
      obtain ⟨hcontrol, hpassing⟩ := passing_settle env (hverdict (.ok (), d)) hwaiting hstep
      cases hpassing with
      | releases d' v _ _ hmachine =>
        refine .watched ?_ hcontrol
        rw [hmachine]
        exact hm.takeBack d'
    | @act f hres hsame hnext =>
      cases (step_act env m f _ waiting).symm.trans hstep
      exact .busy _ verdict k (hnext m) (hm.same (hsame m)) rfl hverdict hwaiting

theorem attentive_of_calm {m : Machine δ ν} {host : HostCode δ ν ρ} (hpassive : env.debugging.Passive)
    (hm : m.attire.Watching) (h : Calm env (m.outset host) s) : s.Attentive m.breaks := by
  induction h with
  | start => exact .watched ⟨hm, rfl⟩ (inControl_outset m host)
  | goes _ hstep hacts hfocus ih => exact ih.goes hpassive hstep hacts hfocus

end State

/-- Up to the first fault a debugger that only looks on is not told to pause. From there the fault reaches the host's
call. By then the debugger was told once for the instruction that raised it, whatever sections had called one another,
and once more for each native that passed it on; and it is still attached. -/
theorem breaks_of_fault {env : Environment δ ν} {m : Machine δ ν} {host : HostCode δ ν ρ} {s : State δ ν ρ} {f : Fault}
    {next : Except Failure Execution → Task δ ν ρ} {natives : Nat} (hpassive : env.debugging.Passive)
    (hattached : m.attire.Watching) (hcalm : Calm env (m.outset host) s) (hfault : s.focus = .fail f) (hcrash : f ≠ .crash)
    (hrelay : Waiting.Relay f next s.waiting natives) :
    s.machine.breaks = m.breaks ∧
      ∃ k n failure, failure.fault = f ∧ n.attire.Watching ∧ n.breaks = m.breaks + 1 + natives ∧
        State.Reaches env k (m.outset host) ⟨n, .host (next (.error failure)), []⟩ ∧
        ∀ fuel, m.perform env (fuel + k) host = State.run env fuel ⟨n, .host (next (.error failure)), []⟩ := by
  have hleads := State.leadsTo_of_calm hcalm
  obtain ⟨m₁, focus, waiting⟩ := s
  cases hfault
  cases State.attentive_of_calm hpassive hattached hcalm with
  | busy _ _ _ _ _ hhost => cases hhost
  | watched hwatched _ =>
    refine ⟨hwatched.breaks, ?_⟩
    obtain ⟨m₂, failure₂, hfault₂, hm₂, hraised⟩ := State.leadsTo_leave waiting hpassive hcrash hwatched
    obtain ⟨n, failure, hfault', hn, hpassed⟩ := State.leadsTo_host hpassive hcrash hrelay hfault₂ hm₂
    obtain ⟨k, hreaches⟩ := hleads.trans (hraised.trans hpassed)
    exact ⟨k, n, failure, hfault', hn.watching, hn.breaks, hreaches, hreaches.run⟩

/-! ### A native on the way -/

def State.fails : State δ ν ρ → Bool
  | ⟨_, .fail _, _⟩ => true
  | _ => false

/-- So many transitions, if none of them is up to host code or deals with a fault. -/
def State.untroubled (env : Environment δ ν) : Nat → State δ ν ρ → Option (State δ ν ρ) :=
  walk (next? env fun s _ => !s.acts && !s.fails)

theorem Calm.untroubled {env : Environment δ ν} {s₀ s s' : State δ ν ρ} (h : Calm env s₀ s) {n : Nat}
    (hs : s.untroubled env n = some s') : Calm env s₀ s' := by
  refine walk_induction (P := (Calm env s₀ ·)) (fun t u ht hnext => ?_) h hs
  obtain ⟨hstep, hallowed⟩ := State.next?_eq_some.1 hnext
  simp only [Bool.and_eq_true, Bool.not_eq_true'] at hallowed
  refine ht.goes hstep (fun hact => absurd hact (by simp [hallowed.1])) fun f hfocus => ?_
  obtain ⟨m, focus, waiting⟩ := t
  cases hfocus
  cases hallowed.2

/-- A native gives nothing back when its call has ended, and passes on what failed. -/
def relayed :
    Except Failure Execution → HostCode MachineSession.Debugger MachineSession.Note (Except Fault (Option Value))
  | .ok _ => .finish (.ok none)
  | .error failure => .finish (.error failure.fault)

/-- A native that calls the second section, and a debugger that does nothing. -/
def Environment.listening : Environment MachineSession.Debugger MachineSession.Note :=
  { natives := #[⟨"relay", .variadic, fun _ => .enter (.call 1 []) relayed⟩]
    debugging := { tick := fun d => .finish (.ok (), d), traces := fun _ => false, inline := fun _ => false } }

theorem Environment.passive_listening : listening.debugging.Passive := ⟨fun d => .finish d, fun _ => rfl⟩

/-- The section called by the native divides by zero. -/
def alarmed : State MachineSession.Debugger MachineSession.Note (Except Failure Execution) :=
  ⟨(((delegated.attach {}).outset (Program.run (.call 0 []))).untroubled .listening 26).elim delegated State.machine,
    .fail .divideByZero,
    [.caller 0 fun r => (relayed r).bind fun r => .finish (.native [.uint 1] r), .caller 0 fun r => .finish (.host r)]⟩

theorem breaks_of_fault_alarmed :
    Environment.listening.debugging.Passive ∧ (delegated.attach {}).attire.Watching ∧
      Calm .listening ((delegated.attach {}).outset (Program.run (.call 0 []))) alarmed ∧
      ∃ k n failure, failure.fault = .divideByZero ∧ n.breaks = 2 ∧
        State.Reaches .listening k ((delegated.attach {}).outset (Program.run (.call 0 [])))
          ⟨n, .host (.finish (.host (.error failure))), []⟩ ∧ ∀ fuel,
        (delegated.attach {}).perform .listening (fuel + k) (Program.run (.call 0 [])) =
          State.run .listening fuel ⟨n, .host (.finish (.host (.error failure))), []⟩ := by
  have hwatching : (delegated.attach {}).attire.Watching := ⟨rfl, rfl, rfl⟩
  have hcalm : Calm .listening ((delegated.attach {}).outset (Program.run (.call 0 []))) alarmed :=
    Calm.start.untroubled (n := 26) (by cbv)
  have hrelay : Waiting.Relay .divideByZero (fun r => .finish (.host r)) alarmed.waiting 1 := by
    refine .caller 0 (fun failure hfault => ?_) (.called 0)
    rw [← hfault]
    exact .finish [.uint 1]
  obtain ⟨-, k, n, failure, hfault, -, hbreaks, hreaches, hrun⟩ :=
    breaks_of_fault Environment.passive_listening hwatching hcalm rfl (by decide) hrelay
  exact ⟨Environment.passive_listening, hwatching, hcalm, k, n, failure, hfault, hbreaks, hreaches, hrun⟩

/-- One instruction divides by zero, and the debugger is told to pause twice. -/
theorem debugger_broken_twice :
    Environment.listening.debugging.Passive ∧ (delegated.attach {}).breaks = 0 ∧
      ((delegated.attach {}).perform .listening 34 (Program.run (.call 0 []))).map (fun r => (r.1, r.2.breaks)) =
        some (.error { fault := .divideByZero, trace := [⟨"main", 29, none⟩, ⟨"<anonymous>", 16, none⟩] }, 2) :=
  ⟨Environment.passive_listening, rfl, by cbv⟩

end ScriptVm
