import Mathlib
import ScriptVm.Code.Assembler

/-! Reading back what was written. A reader is described by the bytes it takes and what it makes of
them, and readers in a row take the bytes in a row. So code that is the encoding of instructions is read
as these instructions, each at the address where its encoding begins. -/

namespace ScriptVm

namespace Cursor
variable {α β : Type}

def Sees (c : Cursor) (bytes : List UInt8) : Prop := bytes <+: c.home.code.toList.drop c.position

/-- Takes these bytes, wherever they stand, for `a`, and passes them. -/
def Reads (x : Scan α) (bytes : List UInt8) (a : α) : Prop :=
  ∀ c : Cursor, c.Sees bytes → x c = .ok a { c with position := c.position + bytes.length }

theorem Sees.left {c : Cursor} {bs cs : List UInt8} (h : c.Sees (bs ++ cs)) : c.Sees bs :=
  (List.prefix_append bs cs).trans h

theorem Sees.right {c : Cursor} {bs cs : List UInt8} (h : c.Sees (bs ++ cs)) :
    Sees { c with position := c.position + bs.length } cs := by
  obtain ⟨rest, hrest⟩ := h
  refine ⟨rest, ?_⟩
  rw [← List.drop_drop, ← hrest, List.append_assoc, List.drop_left]

theorem Sees.fits {c : Cursor} {bs : List UInt8} (h : c.Sees bs) (hne : bs ≠ []) :
    c.position + bs.length ≤ c.home.size := by
  have hle := List.IsPrefix.length_le h
  rw [List.length_drop, @Array.length_toList _ c.home.code] at hle
  have hpos := List.length_pos_iff.2 hne
  unfold Section.size
  omega

theorem Sees.extract {c : Cursor} {bs : List UInt8} (h : c.Sees bs) :
    (c.home.code.extract c.position (c.position + bs.length)).toList = bs := by
  obtain ⟨rest, hrest⟩ := h
  rw [Array.toList_extract, List.extract_eq_take_drop, ← hrest, Nat.add_sub_cancel_left, List.take_left]

theorem reads_pure (a : α) : Reads (pure a) [] a := fun _ _ => rfl

theorem Reads.bind {x : Scan α} {f : α → Scan β} {bs cs : List UInt8} {a : α} {b : β} (hx : Reads x bs a)
    (hf : Reads (f a) cs b) : Reads (x >>= f) (bs ++ cs) b := by
  intro c h
  simp only [Bind.bind, EStateM.bind, hx c h.left, hf _ h.right, List.length_append, Nat.add_assoc]

theorem Reads.map {x : Scan α} {bs : List UInt8} {a : α} (hx : Reads x bs a) (g : α → β) :
    Reads (x >>= fun a => pure (g a)) bs (g a) := by
  have h := hx.bind (f := fun a => pure (g a)) (reads_pure (g a))
  rwa [List.append_nil] at h

theorem reads_readBytes {bs : List UInt8} (hne : bs ≠ []) : Reads (readBytes bs.length) bs bs := by
  intro c h
  simp only [readBytes]
  rw [if_pos (h.fits hne), h.extract]

theorem reads_readNat {width : Nat} (hwidth : 0 < width) (n : Nat) :
    Reads (readNat width) (LittleEndian.bytes width n) (n % 1 <<< (8 * width)) := by
  have hlength := LittleEndian.length_bytes width n
  have hne : LittleEndian.bytes width n ≠ [] := by
    intro hnil
    rw [hnil] at hlength
    exact hwidth.ne hlength
  have hbytes := (reads_readBytes hne).map LittleEndian.toNat
  rwa [hlength, LittleEndian.toNat_bytes] at hbytes

theorem reads_readOpcode (op : Opcode) : Reads readOpcode [op.byte] op := by
  intro c h
  have hbyte : c.home.code[c.position]? = some op.byte := by
    obtain ⟨rest, hrest⟩ := h
    rw [← Array.getElem?_toList, ← List.head?_drop, ← hrest]
    rfl
  simp only [readOpcode, hbyte, Opcode.ofByte?_byte]
  rfl

/-! ### Texts -/

theorem zero_not_mem_utf8EncodeChar {c : Char} (h : c ≠ '\x00') : 0 ∉ String.utf8EncodeChar c := by
  intro hmem
  have hc : c.val.toNat ≠ 0 := by
    intro hzero
    exact h (Char.ext (UInt32.toNat_inj.1 hzero))
  unfold String.utf8EncodeChar at hmem
  simp only at hmem
  split_ifs at hmem <;>
    simp only [List.mem_cons, List.not_mem_nil, or_false, ← UInt8.toNat_inj, UInt8.toNat_ofNat', UInt8.toNat_zero]
      at hmem <;> omega

theorem toUTF8_eq (s : String) : s.toUTF8.data.toList = s.toList.flatMap String.utf8EncodeChar := by
  conv_lhs => rw [← String.ofList_toList (s := s)]
  rw [String.toUTF8_eq_toByteArray, String.toByteArray_ofList]
  simp [List.utf8Encode]

theorem zero_not_mem_toUTF8 {s : String} (h : '\x00' ∉ s.toList) : 0 ∉ s.toUTF8.data.toList := by
  rw [toUTF8_eq, List.mem_flatMap]
  rintro ⟨c, hc, hzero⟩
  refine zero_not_mem_utf8EncodeChar ?_ hzero
  rintro rfl
  exact h hc

theorem fromUTF8?_toUTF8 (s : String) : String.fromUTF8? s.toUTF8 = some s := by
  exact dif_pos s.isValidUTF8

theorem getElem_of_drop {code : Array UInt8} {start : Nat} {b : UInt8} {rest : List UInt8}
    (h : code.toList.drop start = b :: rest) :
    ∃ hlt : start < code.size, code[start] = b ∧ code.toList.drop (start + 1) = rest := by
  have hlt : start < code.toList.length := by
    have hlength := congrArg List.length h
    rw [List.length_drop, List.length_cons] at hlength
    omega
  rw [List.drop_eq_getElem_cons hlt] at h
  obtain ⟨hb, hrest⟩ := List.cons.inj h
  exact ⟨hlt, hb, hrest⟩

theorem zeroAt?_eq {code : Array UInt8} {start : Nat} {bs rest : List UInt8} (hbs : 0 ∉ bs)
    (h : code.toList.drop start = bs ++ 0 :: rest) : zeroAt? code start = some (start + bs.length) := by
  induction bs generalizing start with
  | nil =>
    obtain ⟨hlt, hzero, -⟩ := getElem_of_drop h
    rw [zeroAt?, dif_pos hlt, if_pos hzero]
    rfl
  | cons b bs ih =>
    obtain ⟨hlt, hb, hrest⟩ := getElem_of_drop h
    rw [List.mem_cons, not_or] at hbs
    rw [zeroAt?, dif_pos hlt, hb, if_neg (Ne.symm hbs.1), ih hbs.2 hrest, List.length_cons, Nat.add_assoc,
      Nat.add_comm 1]

theorem reads_readText {s : String} (h : '\x00' ∉ s.toList) :
    Reads readText (s.toUTF8.data.toList ++ [0]) s := by
  intro c hsees
  have hextract := hsees.left.extract
  obtain ⟨rest, hrest⟩ := hsees
  rw [List.append_assoc] at hrest
  have hdata : (⟨c.home.code.extract c.position (c.position + s.toUTF8.data.toList.length)⟩ : ByteArray) =
      s.toUTF8 := by
    rw [ByteArray.ext_iff, ← Array.toList_inj]
    exact hextract
  simp only [readText, zeroAt?_eq (zero_not_mem_toUTF8 h) hrest.symm, hdata, fromUTF8?_toUTF8, List.length_append]
  rfl

/-! ### Operands and instructions -/

theorem reads_number {width n : Nat} {g : Nat → α} {a : α} (hwidth : 0 < width) (hn : n < 1 <<< (8 * width))
    (hg : g n = a) : Reads (readNat width >>= fun n => pure (g n)) (LittleEndian.bytes width n) a := by
  have hread := (reads_readNat hwidth n).map g
  rwa [Nat.mod_eq_of_lt hn, hg] at hread

theorem reads_readU8 (n : UInt8) : Reads readU8 [n] n := by
  have hread : Reads readU8 (LittleEndian.bytes 1 n.toNat) n :=
    reads_number (by decide) n.toNat_lt UInt8.ofNat_toNat
  have hbytes : LittleEndian.bytes 1 n.toNat = [n] := by simp [LittleEndian.bytes]
  rwa [hbytes] at hread

theorem reads_readI8 (n : Int8) : Reads readI8 [n.toUInt8] n := by
  have hread : Reads readI8 (LittleEndian.bytes 1 n.toUInt8.toNat) n :=
    reads_number (by decide) n.toUInt8.toNat_lt (congrArg Int8.ofUInt8 UInt8.ofNat_toNat)
  have hbytes : LittleEndian.bytes 1 n.toUInt8.toNat = [n.toUInt8] := by simp [LittleEndian.bytes]
  rwa [hbytes] at hread

theorem reads_readU32 (n : UInt32) : Reads readU32 (LittleEndian.bytes 4 n.toNat) n :=
  reads_number (by decide) n.toNat_lt UInt32.ofNat_toNat

theorem reads_readI32 (n : Int32) : Reads readI32 (LittleEndian.bytes 4 n.toUInt32.toNat) n :=
  reads_number (by decide) n.toUInt32.toNat_lt (congrArg Int32.ofUInt32 UInt32.ofNat_toNat)

theorem reads_readU64 (n : UInt64) : Reads readU64 (LittleEndian.bytes 8 n.toNat) n :=
  reads_number (by decide) n.toNat_lt UInt64.ofNat_toNat

theorem reads_readReal (x : Binary64) : Reads readReal (LittleEndian.bytes 8 x.bits.toNat) x :=
  reads_number (by decide) x.bits.toNat_lt (congrArg Binary64.mk UInt64.ofNat_toNat)

theorem reads_readOperand (k : OperandKind) (v : k.Carrier) (h : Assembler.hasZero ⟨k, v⟩ = false) :
    Reads (readOperand k) (k.encode v) v := by
  cases k with
  | u8 => exact reads_readU8 v
  | i8 => exact reads_readI8 v
  | u32 | f32 | native | callee => exact reads_readU32 v
  | i32 | address => exact reads_readI32 v
  | u64 => exact reads_readU64 v
  | f64 => exact reads_readReal v
  | text => exact reads_readText (by simpa [Assembler.hasZero] using h)

theorem reads_readOperands {ks : List OperandKind} (vs : Operands ks)
    (h : vs.toList.any Assembler.hasZero = false) : Reads (readOperands ks) vs.encode vs := by
  induction ks with
  | nil => exact reads_pure ()
  | cons k ks ih =>
    obtain ⟨v, rest⟩ := vs
    rw [Operands.toList, List.any_cons, Bool.or_eq_false_iff] at h
    exact (reads_readOperand k v h.1).bind ((ih rest h.2).map (Prod.mk v))

theorem reads_readInstruction {i : Instruction} (h : i.operands.toList.any Assembler.hasZero = false) :
    Reads readInstruction i.encode i :=
  (reads_readOpcode i.op).bind ((reads_readOperands i.operands h).map (Instruction.mk i.op))

end Cursor

/-! ### Sections -/

/-- Whether an instruction is read back as what it was. -/
def Instruction.isReadable (i : Instruction) : Bool := !i.operands.toList.any Assembler.hasZero

theorem Instruction.reads_encode {i : Instruction} (h : i.isReadable = true) :
    Cursor.Reads Cursor.readInstruction i.encode i :=
  Cursor.reads_readInstruction (by simpa [isReadable] using h)

structure Section.MadeOf (s : Section) (is : List Instruction) : Prop where
  code : s.code.toList = is.flatMap Instruction.encode
  readable : ∀ i ∈ is, i.isReadable = true

/-- The addresses at which instructions in a row begin. -/
def locate (start : Nat) : List Instruction → List Located
  | [] => []
  | i :: is => ⟨start, i⟩ :: locate (start + i.encode.length) is

namespace Cursor

/-- Stands between instructions of its section. -/
structure Between (c : Cursor) (done rest : List Instruction) : Prop where
  home : c.home.MadeOf (done ++ rest)
  position : c.position = (done.flatMap Instruction.encode).length

variable {c : Cursor} {done rest : List Instruction} {i : Instruction}

theorem Between.drop (h : c.Between done rest) :
    c.home.code.toList.drop c.position = rest.flatMap Instruction.encode := by
  rw [h.home.code, h.position, List.flatMap_append, List.drop_left]

theorem Between.size_eq (h : c.Between done rest) :
    c.home.size = c.position + (rest.flatMap Instruction.encode).length := by
  rw [h.position, ← List.length_append, ← List.flatMap_append, ← h.home.code]
  rfl

theorem Between.readInstruction (h : c.Between done (i :: rest)) :
    Cursor.readInstruction c = .ok i { c with position := c.position + i.encode.length } ∧
      Between { c with position := c.position + i.encode.length } (done ++ [i]) rest := by
  have hreadable := h.home.readable i (List.mem_append_right _ List.mem_cons_self)
  refine ⟨Instruction.reads_encode hreadable c ?_, ?_, ?_⟩
  · rw [Sees, h.drop, List.flatMap_cons]
    exact List.prefix_append _ _
  · rw [List.append_assoc]
    exact h.home
  · rw [List.flatMap_append, List.length_append, ← h.position]
    simp

theorem Between.readInstruction_end (h : c.Between done []) :
    Cursor.readInstruction c = .error (.unexpectedEnd c.position) c := by
  have hend : c.home.code[c.position]? = none := by
    rw [Array.getElem?_eq_none_iff]
    exact h.size_eq.le
  simp only [Cursor.readInstruction, bind, EStateM.bind, readOpcode, hend]

theorem Between.readAll (h : c.Between done rest) : c.readAll = .ok (locate c.position rest) := by
  induction rest generalizing c done with
  | nil =>
    rw [Cursor.readAll, if_pos]
    · rfl
    · rw [atEnd, decide_eq_true_eq]
      exact h.size_eq.le
  | cons i rest ih =>
    obtain ⟨hread, hnext⟩ := h.readInstruction
    have hencode : 0 < i.encode.length := Nat.succ_pos _
    rw [Cursor.readAll, if_neg]
    · split
      · rename_i hfail
        cases hfail.symm.trans hread
      · rename_i hok
        cases hok.symm.trans hread
        rw [ih hnext]
        rfl
    · rw [atEnd, decide_eq_true_eq, h.size_eq, List.flatMap_cons, List.length_append]
      omega

end Cursor

theorem Section.MadeOf.instructions {s : Section} {is : List Instruction} (h : s.MadeOf is) :
    s.instructions = .ok (locate 0 is) := by
  have hstart : Cursor.Between { home := s } [] is := ⟨h, rfl⟩
  exact hstart.readAll

end ScriptVm
