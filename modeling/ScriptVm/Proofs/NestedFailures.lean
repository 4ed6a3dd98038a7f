import ScriptVm.Proofs.Turns

/-! What a failed call inside a run leaves to the program that it interrupts. Nothing is restored: the executor is
that of the moment when the failure was found. Only the number of runs is again that of the interrupted program, and
the places of its callers and its own place are still at the bottom of those that the failure left. -/

namespace ScriptVm
variable {δ ν ρ : Type}

/-- A call inside a run that is under way, with nothing suspended. Nothing gets suspended in it, and each run above it
has its place above those that were there; a section that has returned has given its place up. -/
structure State.Nested (s₀ s : State δ ν ρ) : Prop extends State.Above s₀ s where
  free : s.machine.suspended = none
  awake : s.focus.outcome? ≠ some true
  room : s₀.machine.core.executor.callers.size + s.waiting.length ≤
    s.machine.core.executor.callers.size + s₀.waiting.length + s.returning
  places : s₀.machine.core.executor.callers.toList.take
    (s₀.machine.core.executor.callers.size + s.waiting.length - s₀.waiting.length - s.returning) <+:
      s.machine.core.executor.callers.toList

theorem isPrefix_dropLast {α : Type} {l l' : List α} {n : Nat} (h : l <+: l') (hn : n < l'.length) :
    l.take n <+: l'.dropLast := by
  rw [List.dropLast_eq_take]
  exact List.prefix_take_iff.2 ⟨(List.take_prefix n l).trans h, by rw [List.length_take]; omega⟩

namespace State.Nested
variable {s₀ s s' : State δ ν ρ}

theorem length_le (h : Nested s₀ s) : s₀.waiting.length ≤ s.waiting.length := h.waiting.length_le

/-- As long as the call itself has not returned, all the places that were there are. -/
theorem isPrefix (h : Nested s₀ s) (hmore : s.returning ≤ s.waiting.length - s₀.waiting.length) :
    s₀.machine.core.executor.callers.toList <+: s.machine.core.executor.callers.toList := by
  have hplaces := h.places
  have hle := h.length_le
  rwa [List.take_of_length_le (by rw [Array.length_toList]; omega)] at hplaces

theorem of_isPrefix (habove : Above s₀ s') (hfree : s'.machine.suspended = none) (hawake : s'.focus.outcome? ≠ some true)
    (hroom : s₀.machine.core.executor.callers.size + s'.waiting.length ≤
      s'.machine.core.executor.callers.size + s₀.waiting.length + s'.returning)
    (hplaces : s₀.machine.core.executor.callers.toList <+: s'.machine.core.executor.callers.toList) : Nested s₀ s' :=
  ⟨habove, hfree, hawake, hroom, (List.take_prefix _ _).trans hplaces⟩

end State.Nested

theorem State.Turn.nested {s₀ s s' : State δ ν ρ} (hturn : s.Turn s') (h : State.Nested s₀ s)
    (hbusy : 2 ≤ s₀.machine.core.runs) (hlength : s₀.waiting.length ≤ s'.waiting.length) : State.Nested s₀ s' := by
  have habove := hturn.above h.toAbove hlength
  have hle := h.length_le
  have hruns := h.runs
  have hroom := h.room
  cases hturn with
  | idle _ hs =>
    rw [hs]
    exact h
  | quiet hwaiting hkeeps hrunning hfocus =>
    rw [returning_of_running hrunning] at hroom
    refine .of_isPrefix habove (hkeeps.suspended.trans h.free) (by rw [hfocus]; nofun) ?_ ?_
    · rw [hwaiting, hkeeps.callers]
      omega
    · rw [hkeeps.callers]
      exact h.isPrefix (by rw [returning_of_running hrunning]; exact Nat.zero_le _)
  | returns hwaiting hkeeps hrunning hfocus hsome hcallers =>
    have hall := h.isPrefix (by rw [returning_of_running hrunning]; exact Nat.zero_le _)
    have hsize : 0 < s.machine.core.executor.callers.size := Array.size_pos_iff.2 hsome
    rw [returning_of_running hrunning] at hroom
    refine ⟨habove, hkeeps.suspended.trans h.free, by rw [hfocus]; nofun, ?_, ?_⟩
    · rw [hwaiting, hcallers, Array.size_pop, returning_of_returned hfocus]
      omega
    · rw [hwaiting, hcallers, Array.toList_pop, returning_of_returned hfocus]
      exact isPrefix_dropLast hall (by rw [Array.length_toList]; omega)
  | suspends _ _ _ _ hone => omega
  | opens w back hwaiting hrunning hfocus _ hsuspended hcallers =>
    have hall := h.isPrefix (by rw [returning_of_running hrunning]; exact Nat.zero_le _)
    rw [returning_of_running hrunning] at hroom
    refine .of_isPrefix habove (hsuspended.trans h.free) (by rw [hfocus]; nofun) ?_ ?_
    · rw [hwaiting, hcallers, Array.size_push, List.length_cons]
      omega
    · rw [hcallers, Array.toList_push]
      exact hall.trans (List.prefix_append _ _)
  | resumes results next hsuspended =>
    rw [h.free] at hsuspended
    cases hsuspended
  | forgets task _ _ _ hzero => omega
  | leaves w result waiting hfocus hwaiting hs' =>
    subst hs'
    obtain ⟨hgoes, hrunning⟩ := goes_leave s.machine result w waiting
    have hleft := waiting_leave s.machine result w waiting
    rw [hleft] at hlength
    rw [hwaiting, List.length_cons] at hroom hruns
    have hreturning := s.returning_le
    cases hgoes with
    | keeps _ hkeeps =>
      have hcallers : (leave s.machine result (w :: waiting)).machine.core.executor.callers =
          s.machine.core.executor.callers := hkeeps.callers
      refine .of_isPrefix habove (hkeeps.suspended.trans h.free) (by rw [hrunning]; nofun) ?_ ?_
      · rw [hleft, hcallers]
        omega
      · rw [hcallers]
        refine h.isPrefix ?_
        rw [hwaiting, List.length_cons]
        omega
    | suspends results _ hresult => exact absurd (by rw [hfocus, hresult]; rfl) h.awake
    | forgets failure _ _ hzero => omega

namespace During
variable {env : Environment δ ν} {s₀ s : State δ ν ρ}

theorem nested (h : During Machine.KeepsCalls env s₀ s) (hbusy : 2 ≤ s₀.machine.core.runs)
    (hfree : s₀.machine.suspended = none) (hfocus : s₀.focus = .tick) : State.Nested s₀ s := by
  induction h with
  | start => exact .of_isPrefix (.refl s₀) hfree (by rw [hfocus]; nofun) (Nat.le_add_right _ _) (List.prefix_refl _)
  | @go s s' _ hstep hacts hlength ih =>
    cases hact : s.acts with
    | true =>
      obtain ⟨hwaiting, hrunning, task, htask⟩ := State.waiting_of_acts hact hstep
      have hkeeps := hacts hact
      have hturn : s.Turn s' := .quiet hwaiting hkeeps hrunning (by rw [htask]; rfl)
      exact hturn.nested ih hbusy hlength
    | false => exact (State.turn_of_step hact hstep).nested ih hbusy hlength

end During

namespace State
variable {env : Environment δ ν} {m : Machine δ ν} {outer : List (Waiting δ ν ρ)}
  {next : Except Failure Execution → Task δ ν ρ} {s s' : State δ ν ρ}

end State

/-! ### A debugger that calls a section -/

end ScriptVm
