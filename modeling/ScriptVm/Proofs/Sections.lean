import ScriptVm.Proofs.Instructions

/-! Instructions that enter or leave a section, and single instructions as they are read. -/

namespace ScriptVm

/-- The values that what follows an instruction takes along. -/
def Flow.held : Flow → List Value
  | .native _ arguments => arguments
  | _ => []

namespace Exec
variable {strict : Prop}

theorem toList_take_append_drop (stack : Array Value) (n : Nat) :
    (stack.take n).toList ++ stack.toList.drop n = stack.toList := by
  simp

theorem sound_take {c : Core} {hand kept : List Value} (hc : c.Sound strict hand kept) (n : Nat) :
    ({ c with executor := { c.executor with stack := c.executor.stack.take n } } : Core).Sound strict
      (c.executor.stack.toList.drop n ++ hand) kept := by
  refine ⟨?_, hc.world⟩
  have hcustody := hc.custody
  rw [← toList_take_append_drop c.executor.stack n, List.append_assoc] at hcustody
  exact hcustody

theorem moves_drain (count : Nat) : Moves [] (drain count) fun vs => vs := by
  intro strict hand kept c hc
  by_cases hsize : count ≤ c.executor.stack.size
  · rw [drain_eq hsize]
    exact sound_take hc _
  · unfold drain Word.sub
    rw [run_get, if_neg hsize]
    exact hc

theorem moves_popMany (count : Nat) : Moves [] (popMany count) fun vs => vs := by
  intro strict hand kept c hc
  rw [popMany_eq]
  split_ifs
  · exact hc
  · exact sound_take hc _

theorem safe_truncate (size : Nat) : Safe (truncate size) := by
  intro strict hand kept c hc
  unfold truncate
  rw [run_get]
  refine Core.Sound.release (c.executor.stack.toList.drop size) ⟨?_, hc.world⟩
  refine hc.custody.perm_free ?_
  change (c.executor.stack.toList ++ hand).Perm
    ((c.executor.stack.take size).toList ++ (c.executor.stack.toList.drop size ++ hand))
  rw [← List.append_assoc, toList_take_append_drop]

theorem safe_closeCall : Safe closeCall := by
  refine safe_get.bind fun c => (safe_truncate _).bind fun _ => (safe_popExact .size).bind fun base => ?_
  refine Moves.bind (safe_modify fun _ => ⟨rfl, rfl, rfl⟩) fun _ => (safe_popExact .size).bind fun count => ?_
  refine safe_get.bind fun c => ?_
  dsimp only
  split_ifs
  · exact (safe_throw _).bind fun _ => safe_truncate _
  · exact safe_truncate _

theorem moves_pushAll (vs : List Value) : Moves vs (vs.forM push) fun _ => [] := by
  induction vs with
  | nil => exact safe_pure ()
  | cons v vs ih =>
    have hpush : Moves (v :: vs) (push v) fun _ => vs := by
      intro strict hand kept c hc
      exact moves_push v strict (vs ++ hand) kept c hc
    exact hpush.bind fun _ => ih

theorem safe_replaceCall (count : Nat) : Safe (replaceCall count) :=
  (moves_drain count).bind fun results => (Moves.orDrop safe_closeCall).bind fun _ => moves_pushAll results

theorem safe_backToCaller : Safe backToCaller := by
  refine safe_get.bind fun c => ?_
  split
  · exact safe_throw _
  · exact safe_modify fun _ => ⟨rfl, rfl, rfl⟩

theorem safe_leaveSection (count : Nat) : Safe (leaveSection count) := by
  have hrest := (safe_replaceCall count).bind fun _ => safe_backToCaller
  refine safe_get.bind fun c => (safe_ofExcept _).bind fun needed => ?_
  dsimp only
  split_ifs
  · exact (safe_throw _).bind fun _ => hrest
  · exact hrest

theorem moves_nativeArguments (signature? : Option Signature) (index : UInt32) (arity : Int8) :
    Moves [] (nativeArguments signature? index arity) fun vs => vs := by
  unfold nativeArguments
  cases signature? with
  | none => exact moves_throw _ _
  | some s =>
    dsimp only
    split_ifs
    · exact (safe_throw _).bind fun _ => (safe_popExact .size).bind fun n => moves_popMany _
    · exact (safe_throw _).bind fun _ => moves_popMany _
    · exact (safe_throw _).bind fun _ => moves_popMany _
    · exact (safe_popExact .size).bind fun n => moves_popMany _
    · exact moves_popMany _
    · exact moves_popMany _

theorem moves_call (callee : UInt32) (count : Nat) : Moves [] (do
    match (← get).sections.get callee with
    | .error e => throw (.code e)
    | .ok home => ofExcept (home.checkArguments count)
    push (.int (.ofInt count))
    enterSection callee
    return .entered : Exec Flow) Flow.held := by
  have hrest : Moves [] (do
      push (.int (.ofInt count))
      enterSection callee
      return .entered : Exec Flow) Flow.held :=
    Moves.bind (safe_push rfl rfl) fun _ => (safe_enterSection callee).bind fun _ => safe_pure Flow.entered
  refine safe_get.bind fun c => ?_
  dsimp only
  split
  · exact (safe_throw _).bind fun _ => hrest
  · exact (safe_ofExcept _).bind fun _ => hrest

theorem checked_execute (natives : UInt32 → Option Signature) (i : Instruction) (hand kept : List Value) :
    Triple (·.Sound strict hand kept) (i.execute natives) (fun flow => Checked strict (flow.held ++ hand) kept)
      (Checked strict hand kept) := by
  have hmoves : ∀ {x : Exec Flow}, Moves [] x Flow.held →
      Triple (·.Sound strict hand kept) x (fun flow => Checked strict (flow.held ++ hand) kept)
        (Checked strict hand kept) :=
    fun hx => (hx strict hand kept).mono (fun _ hc => hc) (fun _ _ => Or.inl) fun _ => Or.inl
  obtain ⟨op, operands⟩ := i
  cases op with
  | nat =>
    refine hmoves ((moves_nativeArguments _ _ _).bind fun vs => ?_)
    exact fun _ _ _ _ hc => hc
  | call => exact hmoves (moves_call _ _)
  | ret => exact hmoves ((safe_leaveSection _).bind fun _ => safe_pure Flow.returned)
  | sus =>
    refine hmoves (safe_get.bind fun c => ?_)
    dsimp only
    split_ifs
    · exact (safe_throw _).bind fun _ => safe_pure Flow.suspended
    · exact safe_pure Flow.suspended
  | _ => exact (checked_effect _ hand kept).bind fun _ c hc => hc

theorem safe_scan {α : Type} (x : Scan α) : Safe (scan x) := by
  intro strict hand kept c hc
  unfold scan
  cases x c.executor.pc with
  | ok a pc => exact hc.same rfl rfl rfl
  | error e pc => exact hc.same rfl rfl rfl

theorem checked_step (natives : UInt32 → Option Signature) (hand kept : List Value) :
    Triple (·.Sound strict hand kept) (step natives) (fun flow => Checked strict (flow.held ++ hand) kept)
      (Checked strict hand kept) := by
  rw [step_eq]
  refine Triple.bind ?_ fun i => checked_execute natives i hand kept
  exact (safe_scan Cursor.readInstruction strict hand kept).mono (fun _ hc => hc) (fun _ _ hc => hc) fun _ => Or.inl

end Exec
end ScriptVm
