import ScriptVm.Proofs.Assembly
import ScriptVm.Proofs.Placement

/-! Runs of assembled sections. The program counter and the callers stand between instructions, always, so
what is read is an instruction that was emitted, and what a branch names is an address. -/

namespace ScriptVm
variable {δ ν ρ : Type}

theorem mem_locate (start : Nat) (done : List Instruction) (i : Instruction) (rest : List Instruction) :
    ⟨start + (done.flatMap Instruction.encode).length, i⟩ ∈ locate start (done ++ i :: rest) := by
  induction done generalizing start with
  | nil => exact List.mem_cons_self
  | cons j done ih =>
    have hrest := ih (start + j.encode.length)
    rw [Nat.add_assoc, ← List.length_append, ← List.flatMap_cons] at hrest
    exact List.mem_cons_of_mem _ hrest

namespace Cursor

/-- Stands at an instruction of its section, as reading all of them lists it, or at the end. -/
def AtInstruction (pc : Cursor) : Prop :=
  ∃ is, pc.home.instructions = .ok is ∧ ((∃ i ∈ is, i.address = pc.position) ∨ pc.position = pc.home.size)

def Aligned (pc : Cursor) : Prop :=
  ∃ done rest, pc.home.Linked (done ++ rest) ∧ pc.position = (done.flatMap Instruction.encode).length

variable {pc pc' next : Cursor} {i : Instruction}

theorem Aligned.atInstruction (h : pc.Aligned) : pc.AtInstruction := by
  obtain ⟨done, rest, hlinked, hposition⟩ := h
  refine ⟨_, hlinked.toMadeOf.instructions, ?_⟩
  cases rest with
  | nil =>
    right
    have hend : pc.Between done [] := ⟨hlinked.toMadeOf, hposition⟩
    exact hend.size_eq.symm
  | cons i rest =>
    left
    have hmem := mem_locate 0 done i rest
    rw [Nat.zero_add, ← hposition] at hmem
    exact ⟨_, hmem, rfl⟩

theorem Aligned.read (h : pc.Aligned) (hread : readInstruction pc = .ok i next) :
    next.Aligned ∧ next.home = pc.home ∧ ∃ is, pc.home.Linked is ∧ i ∈ is := by
  obtain ⟨done, rest, hlinked, hposition⟩ := h
  have hbetween : pc.Between done rest := ⟨hlinked.toMadeOf, hposition⟩
  cases rest with
  | nil => cases hbetween.readInstruction_end.symm.trans hread
  | cons j rest =>
    obtain ⟨hj, hnext⟩ := hbetween.readInstruction
    cases hj.symm.trans hread
    refine ⟨⟨done ++ [i], rest, ?_, hnext.position⟩, rfl, _, hlinked, List.mem_append_right _ List.mem_cons_self⟩
    rw [List.append_assoc]
    exact hlinked

theorem Aligned.unread {e : CodeError} (h : pc.Aligned) (hread : readInstruction pc = .error e pc') :
    e = .unexpectedEnd pc.position ∧ pc' = pc ∧ pc.position = pc.home.size := by
  obtain ⟨done, rest, hlinked, hposition⟩ := h
  have hbetween : pc.Between done rest := ⟨hlinked.toMadeOf, hposition⟩
  cases rest with
  | nil =>
    cases hbetween.readInstruction_end.symm.trans hread
    exact ⟨rfl, rfl, hbetween.size_eq.symm⟩
  | cons j rest => cases hbetween.readInstruction.1.symm.trans hread

theorem Aligned.seek {target : Int32} (h : pc.Aligned) (hread : readInstruction pc = .ok i next)
    (htarget : i.target? = some target) :
    ∃ pc', Cursor.seek target next = .ok () pc' ∧ pc'.Aligned := by
  obtain ⟨-, hhome, is, hlinked, hi⟩ := h.read hread
  obtain ⟨done, rest, rfl, haddress⟩ := hlinked.targets i hi target htarget
  have hle : (done.flatMap Instruction.encode).length ≤ next.home.size := by
    rw [hhome]
    unfold Section.size
    rw [← Array.length_toList, hlinked.code, List.flatMap_append, List.length_append]
    exact Nat.le_add_right ..
  refine ⟨{ next with position := target.toInt.toNat }, if_pos ?_, done, rest, ?_, ?_⟩
  · rw [haddress]
    exact ⟨Int.natCast_nonneg _, Int.ofNat_le.2 hle⟩
  · rw [hhome]
    exact hlinked
  · rw [haddress]
    rfl

theorem enclosed_aligned : Enclosed Aligned where
  read h hread := (h.read hread).1
  unread h hread := (h.unread hread).2.1 ▸ h
  seek h hread htarget hseek := by
    obtain ⟨pc', hpc', haligned⟩ := h.seek hread htarget
    cases hpc'.symm.trans hseek
    exact haligned
  rest n := ⟨[], [], ⟨⟨rfl, nofun⟩, nofun⟩, rfl⟩

end Cursor

theorem Section.Assembled.aligned {s : Section} (h : s.Assembled) : Cursor.Aligned { home := s } := by
  obtain ⟨is, hlinked⟩ := h.linked
  exact ⟨[], is, hlinked, rfl⟩

/-- In a run of assembled sections the program counter and every caller stand at an instruction or at the
end of a section. No unknown opcode, no malformed text and no address outside is ever met, and code
ends unexpectedly only at its end. -/
theorem Course.at_instructions {env : Environment δ ν} {s : State δ ν ρ} (h : Course Section.Assembled env s) :
    s.machine.core.executor.pc.AtInstruction ∧ (∀ pc ∈ s.machine.core.executor.callers, pc.AtInstruction) ∧
    ∀ e c', Exec.step env.signature? s.machine.core = .error (.code e) c' →
      (∃ index, e = .noSuchSection index) ∨
      e = .unexpectedEnd s.machine.core.executor.pc.position ∧ c'.executor.pc = s.machine.core.executor.pc ∧
        s.machine.core.executor.pc.position = s.machine.core.executor.pc.home.size := by
  have hwithin := h.within Cursor.enclosed_aligned fun _ hhome => hhome.aligned
  have hpc : s.machine.core.executor.pc.Aligned := hwithin.pc
  refine ⟨hpc.atInstruction, fun pc hmem => (hwithin.callers pc hmem).atInstruction, fun e c' hstep => ?_⟩
  cases hread : Cursor.readInstruction s.machine.core.executor.pc with
  | error e' pc' =>
    rw [Exec.step_of_unread hread] at hstep
    cases hstep
    obtain ⟨he, hpc', hend⟩ := hpc.unread hread
    exact Or.inr ⟨he, hpc', hend⟩
  | ok i next =>
    rw [Exec.step_of_read hread] at hstep
    have hshift := Instruction.shift_execute env.signature? i (s.machine.core.withPc next)
    rw [hstep] at hshift
    cases hshift.2 with
    | ordinary hf => cases hf
    | target htarget hseek =>
      obtain ⟨pc', hpc', -⟩ := hpc.seek hread htarget
      cases hpc'.symm.trans hseek
    | callee _ _ => exact Or.inl ⟨_, rfl⟩

/-! ### A run -/

theorem Course.stretch {kind : Section → Prop} {env : Environment δ ν} {s s' : State δ ν ρ} (h : Course kind env s)
    {n : Nat} (hs : s.stretch env n = some s') : Course kind env s' := by
  refine walk_induction (P := (Course kind env ·)) (fun t u ht hnext => ?_) h hs
  obtain ⟨hstep, hallowed⟩ := State.next?_eq_some.1 hnext
  simp only [State.unremarkable, Bool.and_eq_true, Bool.not_eq_true'] at hallowed
  exact ht.step hallowed.1.1.1.1 hstep

theorem SectionTable.of_get_add {t : SectionTable} {s home : Section} {index : UInt32}
    (h : (t.add s).2.get index = .ok home) :
    t.get index = .ok home ∨ home = { s with id := .loaded (t.loaded + 1) } := by
  simp only [get, get?, add, Array.getElem?_push] at h
  split_ifs at h
  · cases h
    exact Or.inr rfl
  · exact Or.inl h

/-- Jumps over a constant to the end. -/
def leap : Section := { code := #[Opcode.jmp.byte, 10, 0, 0, 0, Opcode.ldiS32.byte, 1, 0, 0, 0] }

theorem assembled_leap (id : SectionId) : Section.Assembled { leap with id } := by
  refine ⟨(((({} : Assembler).label.2).branch false 0).load (.int 1)).bind 0, 0, some 0, leap, ?_, rfl, by decide, rfl⟩
  exact .bind _ (.load _ (.branch _ _ (.label (.start none))))

def loadLeap (m : Machine Unit Unit) : Machine Unit Unit :=
  { m with core := { m.core with sections := (m.core.sections.add leap).2 } }

def runLeap : Task Unit Unit Unit := .enter (.execute 0 false) fun _ => .finish (.host ())

def leaped : State Unit Unit Unit :=
  (State.stretch .bare 3 ⟨loadLeap (.new {} {}), .host runLeap, []⟩).getD ⟨.new {} {}, .dispatch, []⟩

theorem course_leaped : Course Section.Assembled .bare leaped := by
  have hstart : Course (ρ := Unit) Section.Assembled .bare ⟨.new {} {}, .host (.act fun m => (runLeap, loadLeap m)), []⟩ :=
    .start {} {} _
  have hloaded := hstart.act ⟨Or.inl ⟨rfl, rfl⟩, fun index home hhome => ?_⟩
  · exact hloaded.stretch (n := 3) rfl
  · rcases SectionTable.of_get_add hhome with hnone | rfl
    · cases hnone
    · exact assembled_leap _

theorem at_instructions_leaped :
    Course Section.Assembled .bare leaped ∧ leaped.machine.core.executor.pc.position = 10 ∧
      leaped.machine.core.executor.pc.AtInstruction :=
  ⟨course_leaped, rfl, course_leaped.at_instructions.1⟩

end ScriptVm
