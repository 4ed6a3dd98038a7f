import ScriptVm.Proofs.Attendance

/-! The way from one state to another: which instructions are executed on it. A debugger that only looks on has its
turns between them, and code is followed one instruction after the other. -/

namespace ScriptVm
variable {δ ν ρ : Type}

/-- One state leads to another. These are the places on the way where an instruction is executed. -/
inductive Passes (env : Environment δ ν) : List Cursor → State δ ν ρ → State δ ν ρ → Prop where
  | refl (s : State δ ν ρ) : Passes env [] s s
  | quiet {places : List Cursor} {s s' s'' : State δ ν ρ} : s.focus.dispatches = false → s.step env = .inl s' →
      Passes env places s' s'' → Passes env places s s''
  | instruction {places : List Cursor} {s s' s'' : State δ ν ρ} : s.focus.dispatches = true → s.step env = .inl s' →
      Passes env places s' s'' → Passes env (s.machine.core.executor.pc :: places) s s''

/-- No debugger is attached, or debuggers only look on. -/
def Environment.Undisturbed (env : Environment δ ν) (m : Machine δ ν) : Prop :=
  m.debugger = none ∨ ∀ d, HostCode.Passive (env.debugging.tick d)

/-- The instruction at this place is next, and no debugger interferes. -/
structure State.At (env : Environment δ ν) (s : State δ ν ρ) (pc : Cursor) : Prop where
  focus : s.focus = .tick
  pc : s.machine.core.executor.pc = pc
  undisturbed : env.Undisturbed s.machine

variable {env : Environment δ ν} {s s' s'' : State δ ν ρ} {places places' : List Cursor}

theorem Passes.trans (h : Passes env places s s') (h' : Passes env places' s' s'') :
    Passes env (places ++ places') s s'' := by
  induction h with
  | refl s => exact h'
  | quiet hfocus hstep _ ih => exact .quiet hfocus hstep (ih h')
  | instruction hfocus hstep _ ih => exact .instruction hfocus hstep (ih h')

theorem passes_turn {turn : HostCode δ ν (Except Fault Unit × δ)} (hturn : turn.Passive) (m : Machine δ ν)
    (serial : Nat) (waiting : List (Waiting δ ν ρ)) :
    ∃ m', Passes env [] ⟨m, .host (turn.bind fun r => .finish (.tick ⟨serial, r.2⟩ r.1)), waiting⟩
      ⟨m', .dispatch, waiting⟩ ∧ m'.Resembles m := by
  induction hturn generalizing m with
  | finish d =>
    refine ⟨m.takeBack ⟨serial, d⟩, .quiet rfl rfl (.refl _), State.core_takeBack _, ?_⟩
    unfold Machine.takeBack
    dsimp only
    split_ifs <;> rfl
  | @act f hsame _ _ ih =>
    obtain ⟨m', hpasses, hresembles⟩ := ih m (f m).2
    exact ⟨m', .quiet rfl (State.step_act env m f _ waiting) hpasses, hresembles.core.trans (hsame m).core,
      hresembles.suspended.trans (hsame m).suspended⟩

theorem passes_tick {m : Machine δ ν} (h : env.Undisturbed m) (waiting : List (Waiting δ ν ρ)) :
    ∃ m', Passes env [] ⟨m, .tick, waiting⟩ ⟨m', .dispatch, waiting⟩ ∧ m'.Resembles m ∧ env.Undisturbed m' := by
  have hstep : State.step env ⟨m, .tick, waiting⟩ = .inl (State.tick env m waiting) := rfl
  unfold State.tick at hstep
  cases hdebugger : m.debugger with
  | none =>
    rw [hdebugger] at hstep
    exact ⟨m, .quiet rfl hstep (.refl _), .refl m, h⟩
  | some d =>
    rcases h with hnone | hpassive
    · cases hdebugger.symm.trans hnone
    rw [hdebugger] at hstep
    dsimp only at hstep
    split_ifs at hstep
    all_goals
      obtain ⟨m', hpasses, hresembles⟩ := passes_turn (hpassive d.state) (Machine.handOver _) d.serial waiting
      exact ⟨m', .quiet rfl hstep hpasses, ⟨hresembles.core, hresembles.suspended⟩, Or.inr hpassive⟩

namespace State.At

theorem passes {pc next after : Cursor} {i : Instruction} {c : Core} (h : s.At env pc)
    (hread : Cursor.readInstruction pc = .ok i next)
    (hexecute : i.execute env.signature? (s.machine.core.withPc next) = .ok .next c) (hafter : c.executor.pc = after) :
    ∃ s', Passes env [pc] s s' ∧ s'.At env after ∧ s'.machine.core = c ∧ s'.waiting = s.waiting := by
  obtain ⟨m, focus, waiting⟩ := s
  obtain ⟨hfocus, hpc, hundisturbed⟩ := h
  cases hfocus
  obtain ⟨m', hpasses, hresembles, hundisturbed'⟩ := passes_tick hundisturbed waiting
  have hcore : m'.core = m.core := hresembles.core
  have hstep : State.step env ⟨m', .dispatch, waiting⟩ = .inl ⟨{ m' with core := c }, .tick, waiting⟩ := by
    have hread' : Cursor.readInstruction m'.core.executor.pc = .ok i next := by rw [hcore, hpc, hread]
    have hexec := (Exec.step_of_read hread').trans
      ((congrArg (fun n => i.execute _ (Core.withPc n next)) hcore).trans hexecute)
    change Sum.inl (State.dispatch env m' waiting) = _
    unfold State.dispatch
    rw [Machine.exec_of_ok hexec]
  refine ⟨⟨{ m' with core := c }, .tick, waiting⟩, ?_, ⟨rfl, hafter, hundisturbed'⟩, rfl, rfl⟩
  have hplace : m'.core.executor.pc = pc := by rw [hcore, hpc]
  exact hplace ▸ hpasses.trans (.instruction rfl hstep (.refl _))

end State.At
end ScriptVm
