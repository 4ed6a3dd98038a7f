import ScriptVm.Proofs.AssembledRuns
import ScriptVm.Proofs.Relocation

/-! Code without suspensions: `nop` in place of each `sus`. Both take one byte, so every other instruction stays where
it is, and so do the targets of branches. An instruction that is no `sus` does the same there. -/

namespace ScriptVm

/-- The instruction, with `nop` for `sus`. -/
def Instruction.wakeful : Instruction → Instruction
  | ⟨.sus, _⟩ => ⟨.nop, ()⟩
  | i => i

namespace Instruction

theorem wakeful_of_ne {i : Instruction} (h : i.op ≠ .sus) : i.wakeful = i := by
  obtain ⟨op, operands⟩ := i
  cases op with
  | sus => exact absurd rfl h
  | _ => rfl

theorem wakeful_cases (i : Instruction) : i = ⟨.sus, ()⟩ ∧ i.wakeful = ⟨.nop, ()⟩ ∨ i.op ≠ .sus ∧ i.wakeful = i := by
  by_cases h : i.op = .sus
  · obtain ⟨op, operands⟩ := i
    cases h
    exact Or.inl ⟨rfl, rfl⟩
  · exact Or.inr ⟨h, wakeful_of_ne h⟩

theorem length_encode_wakeful (i : Instruction) : i.wakeful.encode.length = i.encode.length := by
  rcases i.wakeful_cases with ⟨rfl, -⟩ | ⟨-, h⟩
  · rfl
  · rw [h]

theorem isReadable_wakeful (i : Instruction) : i.wakeful.isReadable = i.isReadable := by
  rcases i.wakeful_cases with ⟨rfl, -⟩ | ⟨-, h⟩
  · rfl
  · rw [h]

theorem length_flatMap_wakeful (is : List Instruction) :
    ((is.map wakeful).flatMap encode).length = (is.flatMap encode).length := by
  rw [List.flatMap_map, List.length_flatMap, List.length_flatMap]
  simp only [length_encode_wakeful]

end Instruction

/-! ### Sections -/

def Section.wakeful (s : Section) : Section :=
  match s.instructions with
  | .ok is => { s with code := (is.flatMap fun i => i.instruction.wakeful.encode).toArray }
  | .error _ => s

theorem flatMap_locate {α : Type} (f : Instruction → List α) (start : Nat) (is : List Instruction) :
    (locate start is).flatMap (fun i => f i.instruction) = is.flatMap f := by
  induction is generalizing start with
  | nil => rfl
  | cons i is ih => rw [locate, List.flatMap_cons, List.flatMap_cons, ih]

namespace Section
variable {s : Section} {is : List Instruction}

theorem matches_wakeful (s : Section) : s.Matches s.wakeful := by
  unfold wakeful
  cases s.instructions <;> exact ⟨rfl, rfl, rfl, rfl⟩

theorem MadeOf.wakeful_eq (h : s.MadeOf is) :
    s.wakeful = { s with code := ((is.map Instruction.wakeful).flatMap Instruction.encode).toArray } := by
  unfold Section.wakeful
  rw [h.instructions]
  dsimp only
  rw [flatMap_locate (fun i => i.wakeful.encode), List.flatMap_map]

theorem MadeOf.wakeful (h : s.MadeOf is) : s.wakeful.MadeOf (is.map Instruction.wakeful) := by
  rw [h.wakeful_eq]
  refine ⟨rfl, fun i hi => ?_⟩
  obtain ⟨j, hj, rfl⟩ := List.mem_map.1 hi
  rw [j.isReadable_wakeful]
  exact h.readable j hj

theorem MadeOf.size_wakeful (h : s.MadeOf is) : s.wakeful.size = s.size := by
  have hcode := h.wakeful.code
  unfold size
  rw [← Array.length_toList, hcode, Instruction.length_flatMap_wakeful, ← h.code, Array.length_toList]

end Section

/-! ### Reading and executing -/

abbrev Cursor.wakeful (pc : Cursor) : Cursor := pc.relocate Section.wakeful

/-- Whether a `sus` comes next. -/
def Cursor.sleepy (pc : Cursor) : Bool :=
  match Cursor.readInstruction pc with
  | .ok i _ => i.op == .sus
  | .error _ _ => false

abbrev Core.wakeful (c : Core) : Core := c.relocate Section.wakeful

namespace Cursor
variable {pc pc' next : Cursor} {i : Instruction} {e : CodeError}

theorem Between.wakeful {done rest : List Instruction} (h : pc.Between done rest) :
    pc.wakeful.Between (done.map Instruction.wakeful) (rest.map Instruction.wakeful) := by
  refine ⟨?_, ?_⟩
  · rw [← List.map_append]
    exact h.home.wakeful
  · rw [Instruction.length_flatMap_wakeful]
    exact h.position

theorem Aligned.size_wakeful (h : pc.Aligned) : pc.home.wakeful.size = pc.home.size := by
  obtain ⟨done, rest, hlinked, -⟩ := h
  exact hlinked.toMadeOf.size_wakeful

theorem Aligned.read_wakeful (h : pc.Aligned) (hread : readInstruction pc = .ok i next) :
    readInstruction pc.wakeful = .ok i.wakeful next.wakeful := by
  obtain ⟨done, rest, hlinked, hposition⟩ := h
  have hbetween : pc.Between done rest := ⟨hlinked.toMadeOf, hposition⟩
  cases rest with
  | nil => cases hbetween.readInstruction_end.symm.trans hread
  | cons j rest =>
    cases hbetween.readInstruction.1.symm.trans hread
    have hawake : pc.wakeful.Between (done.map Instruction.wakeful) (i.wakeful :: rest.map Instruction.wakeful) :=
      hbetween.wakeful
    rw [hawake.readInstruction.1, i.length_encode_wakeful]
    rfl

theorem Aligned.unread_wakeful (h : pc.Aligned) (hread : readInstruction pc = .error e pc') :
    readInstruction pc.wakeful = .error e pc'.wakeful := by
  obtain ⟨done, rest, hlinked, hposition⟩ := h
  have hbetween : pc.Between done rest := ⟨hlinked.toMadeOf, hposition⟩
  cases rest with
  | nil =>
    cases hbetween.readInstruction_end.symm.trans hread
    have hawake : pc.wakeful.Between (done.map Instruction.wakeful) [] := hbetween.wakeful
    exact hawake.readInstruction_end
  | cons j rest => cases hbetween.readInstruction.1.symm.trans hread

end Cursor

namespace Exec
variable {c : Core}

theorem step_wakeful (natives : UInt32 → Option Signature) (hpc : c.executor.pc.Aligned)
    (hawake : c.executor.pc.sleepy = false) : step natives c.wakeful = relocate Section.wakeful (step natives c) := by
  cases hread : Cursor.readInstruction c.executor.pc with
  | error e pc' =>
    have hwoken : Cursor.readInstruction c.wakeful.executor.pc = .error e pc'.wakeful := hpc.unread_wakeful hread
    rw [step_of_unread hread, step_of_unread hwoken]
    rfl
  | ok i next =>
    have hne : i.op ≠ .sus := by
      intro hop
      rw [Cursor.sleepy, hread] at hawake
      simp [hop] at hawake
    have hwoken := hpc.read_wakeful hread
    rw [Instruction.wakeful_of_ne hne] at hwoken
    have hhome : next.Aligned := (hpc.read hread).1
    rw [step_of_read hread, step_of_read (c := c.wakeful) hwoken]
    exact i.execute_relocate Section.matches_wakeful natives (c := c.withPc next) hhome.size_wakeful

/-- Where there is a `sus`, the other code passes. -/
theorem step_sleepy (natives : UInt32 → Option Signature) (hpc : c.executor.pc.Aligned)
    (hsleepy : c.executor.pc.sleepy = true) :
    ∃ next, Cursor.readInstruction c.executor.pc = .ok ⟨.sus, ()⟩ next ∧
      step natives c.wakeful = .ok .next (c.withPc next).wakeful := by
  cases hread : Cursor.readInstruction c.executor.pc with
  | error e pc' =>
    rw [Cursor.sleepy, hread] at hsleepy
    cases hsleepy
  | ok i next =>
    rw [Cursor.sleepy, hread] at hsleepy
    rcases i.wakeful_cases with ⟨rfl, hi⟩ | ⟨hne, -⟩
    · have hwoken := hpc.read_wakeful hread
      rw [hi] at hwoken
      refine ⟨next, rfl, ?_⟩
      rw [step_of_read (c := c.wakeful) hwoken]
      rfl
    · exact absurd (beq_iff_eq.1 hsleepy) hne

end Exec
end ScriptVm
