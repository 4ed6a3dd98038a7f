import ScriptVm.Machine.Control

/-! Walks through the states of a machine. A walk takes so many transitions, each of which has to be allowed, and carries
along what is noted of them. What the allowed transitions keep holds at its end. -/

namespace ScriptVm

/-- So many steps, if each of them can be taken. -/
def walk {σ : Type} (next : σ → Option σ) : Nat → σ → Option σ
  | 0, s => some s
  | n + 1, s => (next s).bind (walk next n)

section
variable {σ : Type} {next : σ → Option σ} {s t : σ} {m n : Nat}

theorem walk_add (next : σ → Option σ) (m n : Nat) (s : σ) :
    walk next (m + n) s = (walk next m s).bind (walk next n) := by
  induction m generalizing s with
  | zero => rw [Nat.zero_add, walk, Option.bind_some]
  | succ m ih =>
    rw [Nat.succ_add, walk, walk]
    cases next s with
    | none => rfl
    | some t => exact ih t

theorem walk_induction {P : σ → Prop} (hkeeps : ∀ s t, P s → next s = some t → P t) (h : P s)
    (hwalk : walk next n s = some t) : P t := by
  induction n generalizing s with
  | zero =>
    obtain rfl := Option.some.inj hwalk
    exact h
  | succ n ih =>
    obtain ⟨u, hnext, hrest⟩ := Option.bind_eq_some_iff.1 hwalk
    exact ih (hkeeps s u h hnext) hrest

end

namespace State
variable {δ ν ρ α : Type}

def next? (env : Environment δ ν) (allowed : State δ ν ρ → State δ ν ρ → Bool) (s : State δ ν ρ) : Option (State δ ν ρ) :=
  (s.step env).getLeft?.filter (allowed s)

/-- The next state and what is noted by then. -/
def nextNoted? (env : Environment δ ν) (allowed : State δ ν ρ → State δ ν ρ → Bool)
    (note : α → State δ ν ρ → State δ ν ρ → α) : α × State δ ν ρ → Option (α × State δ ν ρ)
  | (a, s) => (s.next? env allowed).map fun s' => (note a s s', s')

variable {env : Environment δ ν} {allowed : State δ ν ρ → State δ ν ρ → Bool} {s s' s'' : State δ ν ρ}

theorem next?_eq_some : s.next? env allowed = some s' ↔ s.step env = .inl s' ∧ allowed s s' = true := by
  rw [next?, Option.filter_eq_some_iff, Sum.getLeft?_eq_some_iff]

theorem nextNoted?_eq_some {note : α → State δ ν ρ → State δ ν ρ → α} {a : α} {r : α × State δ ν ρ} :
    nextNoted? env allowed note (a, s) = some r ↔
      ∃ s', s.step env = .inl s' ∧ allowed s s' = true ∧ (note a s s', s') = r := by
  simp only [nextNoted?, Option.map_eq_some_iff, next?_eq_some, and_assoc]

/-! ### Reachability -/

/-- So many transitions lead from the one state to the other. -/
def Reaches (env : Environment δ ν) (k : Nat) (s s' : State δ ν ρ) : Prop :=
  walk (next? env fun _ _ => true) k s = some s'

theorem Reaches.refl (s : State δ ν ρ) : Reaches env 0 s s := rfl

theorem Reaches.of_step (hstep : s.step env = .inl s') : Reaches env 1 s s' := by
  rw [Reaches, walk, next?_eq_some.2 ⟨hstep, rfl⟩]
  rfl

theorem Reaches.trans {k l : Nat} (h : Reaches env k s s') (h' : Reaches env l s' s'') : Reaches env (k + l) s s'' := by
  rw [Reaches, walk_add, h]
  exact h'

theorem step_of_isDown (env : Environment δ ν) (hdown : s.isDown = true) : s.step env = .inl s := by
  obtain ⟨m, focus, waiting⟩ := s
  cases focus with
  | fail f =>
    cases f with
    | crash => rfl
    | _ => cases hdown
  | _ => cases hdown

theorem run_of_isDown (env : Environment δ ν) (hdown : s.isDown = true) (fuel : Nat) : run env fuel s = none := by
  cases fuel with
  | zero => rfl
  | succ fuel => rw [run, if_pos hdown]

/-- What a state comes to is what those that it reaches come to. -/
theorem Reaches.run {k : Nat} (h : Reaches env k s s') (fuel : Nat) : run env (fuel + k) s = run env fuel s' := by
  induction k generalizing s with
  | zero =>
    obtain rfl := Option.some.inj h
    rfl
  | succ k ih =>
    obtain ⟨t, hnext, hrest⟩ := Option.bind_eq_some_iff.1 h
    obtain ⟨hstep, -⟩ := next?_eq_some.1 hnext
    rw [← ih hrest]
    cases hdown : s.isDown with
    | true =>
      obtain rfl := Sum.inl.inj ((step_of_isDown env hdown).symm.trans hstep)
      rw [run_of_isDown env hdown, run_of_isDown env hdown]
    | false =>
      rw [← Nat.add_assoc]
      simp only [State.run, hdown, hstep, Bool.false_eq_true, if_false]

def LeadsTo (env : Environment δ ν) (s s' : State δ ν ρ) : Prop := ∃ k, Reaches env k s s'

theorem LeadsTo.refl (s : State δ ν ρ) : LeadsTo env s s := ⟨0, .refl s⟩

theorem LeadsTo.of_step (hstep : s.step env = .inl s') : LeadsTo env s s' := ⟨1, .of_step hstep⟩

theorem LeadsTo.trans (h : LeadsTo env s s') (h' : LeadsTo env s' s'') : LeadsTo env s s'' := by
  obtain ⟨k, hk⟩ := h
  obtain ⟨l, hl⟩ := h'
  exact ⟨k + l, hk.trans hl⟩

end State
end ScriptVm
