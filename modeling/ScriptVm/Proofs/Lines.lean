import ScriptVm.Proofs.AssembledRuns
import ScriptVm.Proofs.Transcripts

/-! Lines. A statement is noted where the assembler stands, which is between instructions and never goes back. So a
section that was put together tells for all bytes of an instruction the same line: that of the latest statement noted
at or before the address of the instruction. -/

namespace ScriptVm

/-! ### Symbols -/

namespace Symbols
variable {s : Symbols} {address : Nat}

/-- The statements are in order, and none begins behind the address. -/
structure Ordered (s : Symbols) (address : Nat) : Prop where
  sorted : s.statements.toList.Pairwise (·.1 < ·.1)
  le : ∀ t ∈ s.statements.toList, t.1 ≤ address

theorem Ordered.mono (h : s.Ordered address) {later : Nat} (hle : address ≤ later) : s.Ordered later :=
  ⟨h.sorted, fun t ht => (h.le t ht).trans hle⟩

theorem Ordered.toList_add (h : s.Ordered address) (line : UInt32) :
    ∃ front, (∀ t ∈ front, t.1 < address) ∧ (s.add address line).statements.toList = front ++ [(address, line)] ∧
      (s.statements.toList = front ∨ ∃ old, s.statements.toList = front ++ [(address, old)]) := by
  obtain ⟨statements⟩ := s
  cases hback : statements.back? with
  | none =>
    obtain rfl := Array.back?_eq_none_iff.1 hback
    exact ⟨[], nofun, rfl, .inl rfl⟩
  | some t =>
    obtain ⟨last, old⟩ := t
    obtain ⟨front, rfl⟩ := Array.back?_eq_some_iff.1 hback
    have hsorted := h.sorted
    have hle := h.le
    simp only [Array.toList_push, List.pairwise_append, List.mem_append, List.mem_singleton] at hsorted hle
    have hfront : ∀ t ∈ front.toList, t.1 < last := fun t ht => hsorted.2.2 t ht _ rfl
    have hlast : last ≤ address := hle _ (.inr rfl)
    unfold add
    rw [Array.back?_push]
    dsimp only
    split_ifs with hsame
    · subst hsame
      exact ⟨front.toList, hfront, by simp, .inr ⟨old, by simp⟩⟩
    · refine ⟨front.toList ++ [(last, old)], fun t ht => ?_, by simp, .inl (by simp)⟩
      rcases List.mem_append.1 ht with ht | ht
      · exact (hfront t ht).trans_le hlast
      · obtain rfl := List.mem_singleton.1 ht
        exact lt_of_le_of_ne hlast hsame

theorem Ordered.add (h : s.Ordered address) (line : UInt32) : (s.add address line).Ordered address := by
  obtain ⟨front, hbefore, hadded, hfront⟩ := h.toList_add line
  have hsorted : front.Pairwise (·.1 < ·.1) := by
    rcases hfront with hsame | ⟨old, hsame⟩
    · exact hsame ▸ h.sorted
    · exact (List.pairwise_append.1 (hsame ▸ h.sorted)).1
  constructor
  · rw [hadded, List.pairwise_append]
    refine ⟨hsorted, List.pairwise_singleton _ _, fun t ht u hu => ?_⟩
    obtain rfl := List.mem_singleton.1 hu
    exact hbefore t ht
  · intro t ht
    rw [hadded, List.mem_append, List.mem_singleton] at ht
    rcases ht with ht | rfl
    · exact (hbefore t ht).le
    · exact Nat.le_refl _

theorem Ordered.lineAt?_add (h : s.Ordered address) (line : UInt32) (x : Nat) :
    (s.add address line).lineAt? x = if address ≤ x then some line else s.lineAt? x := by
  obtain ⟨front, hbefore, hadded, hfront⟩ := h.toList_add line
  have hmem : ∀ t, t ∈ (s.add address line).statements ↔ t ∈ front ∨ t = (address, line) := by
    intro t
    rw [← Array.mem_toList_iff, hadded, List.mem_append, List.mem_singleton]
  unfold lineAt?
  split_ifs with hx
  · have hfound : (s.add address line).find? x = some (address, line) := by
      refine (find?_eq_some_iff (h.add line).sorted).2 ⟨(hmem _).2 (.inr rfl), hx, fun u hu _ => ?_⟩
      exact (h.add line).le u (Array.mem_toList_iff.2 hu)
    rw [hfound]
    rfl
  · -- up to the address the same statements have begun
    have hsame : ∀ t, t.1 ≤ x → (t ∈ (s.add address line).statements ↔ t ∈ s.statements) := by
      intro t ht
      have hold : ∀ l, t ≠ (address, l) := by
        rintro l rfl
        exact hx ht
      rw [hmem, ← Array.mem_toList_iff]
      rcases hfront with hsame | ⟨old, hsame⟩ <;> rw [hsame] <;> simp [hold]
    have hfind : (s.add address line).find? x = s.find? x := by
      ext t
      rw [find?_eq_some_iff (h.add line).sorted, find?_eq_some_iff h.sorted]
      constructor
      · rintro ⟨ht, hle, hlast⟩
        exact ⟨(hsame t hle).1 ht, hle, fun u hu hux => hlast u ((hsame u hux).2 hu) hux⟩
      · rintro ⟨ht, hle, hlast⟩
        exact ⟨(hsame t hle).2 ht, hle, fun u hu hux => hlast u ((hsame u hux).1 hu) hux⟩
    rw [hfind]

end Symbols

/-! ### Notes -/

namespace Assembler

/-- The line that the call notes, if the assembler is not behind the address. -/
def Call.line? (a : Assembler) (address : Nat) : Call → Option UInt32
  | statement line => if a.position ≤ address then some line else none
  | _ => none

/-- The line of the latest statement that was noted at or before the address. -/
def Transcript.lineAt? (t : List (Assembler × Call)) (address : Nat) : Option UInt32 :=
  (t.filterMap fun e => e.2.line? e.1 address).getLast?

open Transcript

variable {a : Assembler} {call : Call} {calls : List Call}

theorem Transcript.lineAt?_cons (a : Assembler) (call : Call) (t : List (Assembler × Call)) (address : Nat) :
    lineAt? ((a, call) :: t) address = (lineAt? t address).or (call.line? a address) := by
  unfold lineAt?
  rw [List.filterMap_cons]
  cases call.line? a address with
  | none => exact (Option.or_none ..).symm
  | some line =>
    rw [List.getLast?_cons]
    cases (t.filterMap fun e => e.2.line? e.1 address).getLast? <;> rfl

theorem symbols_emit (a : Assembler) (i : Instruction) : (a.emit i).symbols = a.symbols := by
  unfold emit
  split_ifs <;> rfl

theorem symbols_load (a : Assembler) (v : Value) : (a.load v).symbols = a.symbols := by
  unfold load
  split
  · exact symbols_emit a _
  · rfl

theorem symbols_branch (a : Assembler) (conditional : Bool) (l : Label) :
    (a.branch conditional l).symbols = a.symbols := by
  unfold branch
  dsimp only
  split <;> rfl

theorem position_append (a : Assembler) (bytes : List UInt8) : a.position ≤ (a.append bytes).position := by
  have hcode : (a.append bytes).code.toList = a.code.toList ++ bytes := Array.toList_appendList
  unfold position
  rw [← Array.length_toList, ← Array.length_toList, hcode, List.length_append]
  exact Nat.le_add_right ..

theorem position_emit (a : Assembler) (i : Instruction) : a.position ≤ (a.emit i).position := by
  unfold emit
  split_ifs <;> exact position_append _ _

theorem Call.position_perform (a : Assembler) (call : Call) : a.position ≤ (call.perform a).position := by
  cases call with
  | emit i => exact position_emit a i
  | load v =>
    rw [perform, Assembler.load]
    split
    · exact position_emit a _
    · exact Nat.le_refl _
  | branch conditional l =>
    rw [perform, Assembler.branch]
    dsimp only
    split <;> exact (position_append a _).trans (position_append _ _)
  | _ => exact Nat.le_refl _

theorem Call.ordered_perform (h : a.symbols.Ordered a.position) (call : Call) :
    (call.perform a).symbols.Ordered (call.perform a).position := by
  have hle := call.position_perform a
  refine Symbols.Ordered.mono ?_ hle
  cases call with
  | statement line => exact h.add line
  | emit i => exact (symbols_emit a i).symm ▸ h
  | load v => exact (symbols_load a v).symm ▸ h
  | branch conditional l => exact (symbols_branch a conditional l).symm ▸ h
  | _ => exact h

theorem Call.lineAt?_perform (h : a.symbols.Ordered a.position) (call : Call) (address : Nat) :
    (call.perform a).symbols.lineAt? address = (call.line? a address).or (a.symbols.lineAt? address) := by
  cases call with
  | statement line =>
    rw [line?]
    refine (h.lineAt?_add line address).trans ?_
    split_ifs <;> rfl
  | emit i => exact congrArg (·.lineAt? address) (symbols_emit a i)
  | load v => exact congrArg (·.lineAt? address) (symbols_load a v)
  | branch conditional l => exact congrArg (·.lineAt? address) (symbols_branch a conditional l)
  | _ => rfl

/-- The symbols tell the line of the latest statement. -/
theorem lineAt?_performAll (h : a.symbols.Ordered a.position) (calls : List Call) (address : Nat) :
    (a.performAll calls).symbols.lineAt? address =
      (lineAt? (a.transcript calls) address).or (a.symbols.lineAt? address) := by
  induction calls generalizing a with
  | nil => rfl
  | cons call calls ih =>
    have hrest := ih (call.ordered_perform h)
    rw [call.lineAt?_perform h, ← Option.or_assoc] at hrest
    rw [transcript, lineAt?_cons]
    exact hrest

/-- A section has no symbols if nothing was noted. -/
theorem lineAt?_finish {results : UInt8} {parameters : Option UInt8} {s : Section}
    (h : a.finish results parameters = .ok s) (address : Nat) : s.lineAt? address = a.symbols.lineAt? address := by
  unfold finish at h
  split at h
  · cases h
  · cases hcode : fill a.labels a.code a.gaps with
    | error e =>
      rw [hcode] at h
      cases h
    | ok code =>
      rw [hcode] at h
      cases h
      unfold Section.lineAt?
      dsimp only
      split_ifs with hnone
      · have hempty : a.symbols = {} := congrArg Symbols.mk (Array.isEmpty_iff.1 hnone)
        rw [hempty]
        rfl
      · rfl

/-! ### Sections that were put together -/

/-- A branch is emitted by its label only. -/
def Call.isPlain : Call → Bool
  | emit i => !i.op.isBranch
  | _ => true

theorem Written.perform_plain {items : List Item} (h : a.Written items) (hcall : call.isPlain = true) :
    ∃ more, (call.perform a).Written (items ++ more) := by
  have hsilent : ∀ {b : Assembler}, b.Written items → ∃ more, b.Written (items ++ more) := by
    intro b hb
    exact ⟨[], (List.append_nil items).symm ▸ hb⟩
  cases call with
  | label => exact hsilent h.label
  | bind l => exact hsilent (h.bind l)
  | here => exact hsilent (h.label.bind _)
  | statement line => exact hsilent { h with }
  | emit i => exact ⟨_, h.emit (by simpa [Call.isPlain] using hcall)⟩
  | load v =>
    simp only [Call.perform, Assembler.load]
    cases hv : constant? v with
    | some i => exact ⟨_, h.emit (isBranch_constant hv)⟩
    | none => exact hsilent (h.fail _)
  | branch conditional l => exact ⟨_, h.branch conditional l⟩

theorem Written.boundary_transcript {items : List Item} (h : a.Written items)
    (hcalls : ∀ call ∈ calls, call.isPlain = true) :
    ∃ more, (a.performAll calls).Written (items ++ more) ∧
      ∀ e ∈ a.transcript calls, Boundary (items ++ more) e.1.position := by
  induction calls generalizing a items with
  | nil =>
    refine ⟨[], ?_, List.forall_mem_nil _⟩
    rw [List.append_nil]
    exact h
  | cons call calls ih =>
    rw [List.forall_mem_cons] at hcalls
    obtain ⟨added, hadded⟩ := h.perform_plain hcalls.1
    obtain ⟨more, hwritten, hboundaries⟩ := ih hadded hcalls.2
    rw [List.append_assoc] at hwritten hboundaries
    refine ⟨added ++ more, hwritten, fun e he => ?_⟩
    rcases List.mem_cons.1 he with rfl | he
    · rw [h.position]
      exact (boundary_end items).append _
    · exact hboundaries e he

theorem performAll_append (a : Assembler) (calls more : List Call) :
    a.performAll (calls ++ more) = (a.performAll calls).performAll more := List.foldl_append

theorem built_performAll (h : Built a) (hcalls : ∀ call ∈ calls, call.isPlain = true) : Built (a.performAll calls) := by
  induction calls generalizing a with
  | nil => exact h
  | cons call calls ih =>
    rw [List.forall_mem_cons] at hcalls
    refine ih ?_ hcalls.2
    cases call with
    | label => exact h.label
    | bind l => exact h.bind l
    | here => exact h.here
    | statement line => exact h.statement line
    | emit i => exact h.emit i (by simpa [Call.isPlain] using hcalls.1)
    | load v => exact h.load v
    | branch conditional l => exact h.branch conditional l

theorem Built.exists_calls (h : Built a) :
    ∃ name? calls, (∀ call ∈ calls, call.isPlain = true) ∧ a = performAll { name? } calls := by
  have hlater : ∀ {b : Assembler} (call : Call), call.isPlain = true →
      (∃ name? calls, (∀ call ∈ calls, call.isPlain = true) ∧ b = performAll { name? } calls) →
      ∃ name? calls, (∀ call ∈ calls, call.isPlain = true) ∧ call.perform b = performAll { name? } calls := by
    rintro _ call hcall ⟨name?, calls, hcalls, rfl⟩
    refine ⟨name?, calls ++ [call], fun c hc => ?_, (performAll_append _ calls [call]).symm⟩
    rcases List.mem_append.1 hc with hc | hc
    · exact hcalls c hc
    · exact List.mem_singleton.1 hc ▸ hcall
  induction h with
  | start name? => exact ⟨name?, [], nofun, rfl⟩
  | label _ ih => exact hlater .label rfl ih
  | bind l _ ih => exact hlater (.bind l) rfl ih
  | here _ ih => exact hlater .here rfl ih
  | statement line _ ih => exact hlater (.statement line) rfl ih
  | emit i _ hi ih => exact hlater (.emit i) (by simp [Call.isPlain, hi]) ih
  | load v _ ih => exact hlater (.load v) rfl ih
  | branch conditional l _ ih => exact hlater (.branch conditional l) rfl ih

end Assembler

open Assembler

/-- These calls put the section together. -/
structure Section.WrittenBy (s : Section) (name? : Option String) (calls : List Call) : Prop where
  plain : ∀ call ∈ calls, call.isPlain = true
  finished : ∃ results parameters t, (performAll { name? } calls).finish results parameters = .ok t ∧
    s = { t with id := s.id }
  size : s.size < 2 ^ 31

/-- Every section of a program that an assembler made has a transcript. -/
theorem Section.assembled_iff {s : Section} : s.Assembled ↔ ∃ name? calls, s.WrittenBy name? calls := by
  constructor
  · rintro ⟨a, results, parameters, t, hbuilt, ht, hsize, hs⟩
    obtain ⟨name?, calls, hcalls, rfl⟩ := hbuilt.exists_calls
    have hcode : s.code = t.code := by rw [hs]
    exact ⟨name?, calls, hcalls, ⟨results, parameters, t, ht, hs⟩, by rwa [size, hcode]⟩
  · rintro ⟨name?, calls, hcalls, ⟨results, parameters, t, ht, hs⟩, hsize⟩
    have hcode : s.code = t.code := by rw [hs]
    rw [size, hcode] at hsize
    exact ⟨_, results, parameters, t, built_performAll (.start name?) hcalls, ht, hsize, hs⟩

theorem locate_instructions (start : Nat) (is : List Instruction) : (locate start is).map (·.instruction) = is := by
  induction is generalizing start with
  | nil => rfl
  | cons i is ih => exact congrArg (i :: ·) (ih _)

theorem Section.MadeOf.unique {s : Section} {is js : List Instruction} (h : s.MadeOf is) (h' : s.MadeOf js) :
    is = js := by
  have hlocated : locate 0 is = locate 0 js := Except.ok.inj (h.instructions.symm.trans h'.instructions)
  rw [← locate_instructions 0 is, hlocated, locate_instructions]

/-- No instruction begins inside another. -/
theorem length_encode_le {done rest before after : List Instruction} {i : Instruction}
    (h : done ++ rest = before ++ i :: after) :
    (done.flatMap Instruction.encode).length ≤ (before.flatMap Instruction.encode).length ∨
      (before.flatMap Instruction.encode).length + i.encode.length ≤ (done.flatMap Instruction.encode).length := by
  rcases List.append_eq_append_iff.1 h with ⟨more, rfl, -⟩ | ⟨more, rfl, hmore⟩
  · left
    rw [List.flatMap_append, List.length_append]
    exact Nat.le_add_right ..
  · cases more with
    | nil =>
      left
      rw [List.append_nil]
    | cons j more =>
      cases hmore
      right
      rw [List.flatMap_append, List.flatMap_cons, List.length_append, List.length_append]
      omega

namespace Section.WrittenBy
variable {s : Section} {name? : Option String} {calls : List Call}

theorem lineAt?_eq (h : s.WrittenBy name? calls) (address : Nat) :
    s.lineAt? address = Transcript.lineAt? (transcript { name? } calls) address := by
  obtain ⟨results, parameters, t, ht, hs⟩ := h.finished
  have hlines : s.lineAt? address = t.lineAt? address := by
    rw [hs]
    rfl
  have hstart : Symbols.Ordered ({ name? } : Assembler).symbols ({ name? } : Assembler).position := ⟨.nil, nofun⟩
  rw [hlines, lineAt?_finish ht, lineAt?_performAll hstart]
  exact Option.or_none ..

theorem position_le (h : s.WrittenBy name? calls) {e : Assembler × Call} (he : e ∈ transcript { name? } calls)
    {position : Nat} {i : Instruction} {next : Cursor} (haligned : Cursor.Aligned ⟨s, position⟩)
    (hread : Cursor.readInstruction ⟨s, position⟩ = .ok i next) :
    e.1.position ≤ position ∨ next.position ≤ e.1.position := by
  obtain ⟨results, parameters, t, ht, hs⟩ := h.finished
  obtain ⟨items, hwritten, hboundaries⟩ := (written_start name?).boundary_transcript h.plain
  rw [List.nil_append] at hwritten hboundaries
  obtain ⟨done, rest, hsplit, hposition⟩ := (hboundaries e he).resolve (performAll { name? } calls).labels
  obtain ⟨before, after, hlinked, hbefore⟩ := haligned
  have hmade := hwritten.madeOf ht
  have hsame : s.MadeOf _ := ⟨(congrArg (·.code.toList) hs).trans hmade.code, hmade.readable⟩
  have hbetween : Cursor.Between ⟨s, position⟩ before after := ⟨hlinked.toMadeOf, hbefore⟩
  cases after with
  | nil => cases hbetween.readInstruction_end.symm.trans hread
  | cons j after =>
    obtain ⟨hj, -⟩ := hbetween.readInstruction
    cases hj.symm.trans hread
    have hall := hsame.unique hlinked.toMadeOf
    rw [hsplit, List.map_append] at hall
    rw [hposition, ← flatMap_encode]
    have hapart := length_encode_le hall
    dsimp only at hbefore ⊢
    rwa [hbefore]

/-- All of an instruction is on the line of the latest statement that was noted at or before its address. -/
theorem lineAt?_end (h : s.WrittenBy name? calls) {position : Nat} {i : Instruction} {next : Cursor}
    (haligned : Cursor.Aligned ⟨s, position⟩) (hread : Cursor.readInstruction ⟨s, position⟩ = .ok i next) :
    s.lineAt? (next.position - 1) = Transcript.lineAt? (transcript { name? } calls) position := by
  have hlt := (Cursor.lt_of_readInstruction hread).2.1
  rw [h.lineAt?_eq]
  unfold Transcript.lineAt?
  congr 1
  refine List.filterMap_congr fun e he => ?_
  have hapart := h.position_le he haligned hread
  obtain ⟨a, call⟩ := e
  cases call with
  | statement line =>
    unfold Call.line?
    dsimp only at hlt hapart ⊢
    exact if_congr (by omega) rfl rfl
  | _ => rfl

end Section.WrittenBy
end ScriptVm
