import ScriptVm.Proofs.Reading

/-! The grammar of code. What a reader makes of the bytes ahead is worth exactly these bytes: encoded
again, it gives them back. With the other direction, that every encoding is read, this says which
sections can be listed and that a listing tells the code. -/

namespace ScriptVm

theorem LittleEndian.bytes_toNat (bs : List UInt8) : bytes bs.length (toNat bs) = bs := by
  induction bs with
  | nil => rfl
  | cons b bs ih =>
    have hb := b.toNat_lt
    have hlow : (b.toNat + 256 * toNat bs) % 256 = b.toNat := by omega
    have hhigh : (b.toNat + 256 * toNat bs) / 256 = toNat bs := by omega
    rw [List.length_cons, toNat, bytes, hlow, hhigh, ih, UInt8.ofNat_toNat]

theorem LittleEndian.toNat_lt (bs : List UInt8) : toNat bs < 256 ^ bs.length := by
  induction bs with
  | nil => exact Nat.one_pos
  | cons b bs ih =>
    have hb := b.toNat_lt
    rw [toNat, List.length_cons, Nat.pow_succ']
    omega

theorem Opcode.byte_numbered : ∀ i : Fin numbered.size, numbered[i].byte = UInt8.ofNat i := by decide

theorem Opcode.byte_of_ofByte? {b : UInt8} {op : Opcode} (h : ofByte? b = some op) : op.byte = b := by
  obtain ⟨hlt, rfl⟩ := Array.getElem?_eq_some_iff.1 h
  exact (byte_numbered ⟨b.toNat, hlt⟩).trans UInt8.ofNat_toNat

namespace Cursor
variable {α β : Type} {c c' c'' : Cursor} {bs cs : List UInt8}

/-- Has gone on from the one place to the other over these bytes. -/
structure Passed (c c' : Cursor) (bytes : List UInt8) : Prop where
  sees : c.Sees bytes
  moved : c' = { c with position := c.position + bytes.length }

theorem Passed.refl (c : Cursor) : c.Passed c [] := ⟨List.nil_prefix, rfl⟩

theorem Passed.trans (h : c.Passed c' bs) (h' : c'.Passed c'' cs) : c.Passed c'' (bs ++ cs) := by
  obtain ⟨⟨rest, hrest⟩, rfl⟩ := h
  obtain ⟨⟨rest', hrest'⟩, rfl⟩ := h'
  refine ⟨⟨rest', ?_⟩, ?_⟩
  · rw [List.append_assoc, hrest', ← List.drop_drop, ← hrest, List.drop_left]
  · rw [List.length_append, Nat.add_assoc]

theorem Passed.drop (h : c.Passed c' bs) :
    c.home.code.toList.drop c.position = bs ++ c'.home.code.toList.drop c'.position := by
  obtain ⟨⟨rest, hrest⟩, rfl⟩ := h
  rw [← List.drop_drop, ← hrest, List.drop_left]

theorem bind_eq_ok {x : Scan α} {f : α → Scan β} {b : β} (h : (x >>= f) c = .ok b c') :
    ∃ a d, x c = .ok a d ∧ f a d = .ok b c' := by
  simp only [bind, EStateM.bind] at h
  split at h
  · rename_i a d hx
    exact ⟨a, d, hx, h⟩
  · cases h

theorem passed_readBytes {count : Nat} (h : readBytes count c = .ok bs c') :
    bs.length = count ∧ c.Passed c' bs := by
  simp only [readBytes] at h
  split_ifs at h with hfits
  obtain ⟨rfl, rfl⟩ := EStateM.Result.ok.inj h
  have hextract : (c.home.code.extract c.position (c.position + count)).toList =
      (c.home.code.toList.drop c.position).take count := by
    rw [Array.toList_extract, List.extract_eq_take_drop, Nat.add_sub_cancel_left]
  have hlength : (c.home.code.extract c.position (c.position + count)).toList.length = count := by
    rw [Array.length_toList, Array.size_extract]
    unfold Section.size at hfits
    omega
  refine ⟨hlength, ?_, ?_⟩
  · rw [hextract]
    exact List.take_prefix ..
  · rw [hlength]

theorem passed_readNat {width n : Nat} (h : readNat width c = .ok n c') :
    n < 256 ^ width ∧ c.Passed c' (LittleEndian.bytes width n) := by
  obtain ⟨bs, d, hbytes, hpure⟩ := bind_eq_ok h
  obtain ⟨rfl, hpassed⟩ := passed_readBytes hbytes
  cases hpure
  exact ⟨LittleEndian.toNat_lt bs, by rwa [LittleEndian.bytes_toNat]⟩

/-- A number kept in another form, from which it is known again. -/
theorem passed_number {width : Nat} {g : Nat → α} (number : α → Nat) {a : α}
    (hg : ∀ n < 256 ^ width, number (g n) = n) (h : (readNat width >>= fun n => pure (g n)) c = .ok a c') :
    c.Passed c' (LittleEndian.bytes width (number a)) := by
  obtain ⟨n, d, hread, hpure⟩ := bind_eq_ok h
  obtain ⟨hn, hpassed⟩ := passed_readNat hread
  cases hpure
  rwa [hg n hn]

theorem passed_readOpcode {op : Opcode} (h : readOpcode c = .ok op c') : c.Passed c' [op.byte] := by
  simp only [readOpcode] at h
  split at h
  · cases h
  · rename_i byte hbyte
    split at h
    · rename_i op' hop
      obtain ⟨rfl, rfl⟩ := EStateM.Result.ok.inj h
      obtain ⟨hlt, rfl⟩ := Array.getElem?_eq_some_iff.1 hbyte
      have hlt' : c.position < c.home.code.toList.length := hlt
      refine ⟨⟨c.home.code.toList.drop (c.position + 1), ?_⟩, rfl⟩
      rw [Opcode.byte_of_ofByte? hop, List.drop_eq_getElem_cons hlt']
      rfl
    · cases h

/-! ### Texts -/

theorem drop_of_zeroAt? {code : Array UInt8} {start stop : Nat} (h : zeroAt? code start = some stop) :
    ∃ bs rest, code.toList.drop start = bs ++ 0 :: rest ∧ 0 ∉ bs ∧ stop = start + bs.length := by
  induction start using zeroAt?.induct code with
  | case1 i hi hzero =>
    rw [zeroAt?, dif_pos hi, if_pos hzero] at h
    refine ⟨[], code.toList.drop (i + 1), ?_, List.not_mem_nil, (Option.some.inj h).symm⟩
    rw [List.drop_eq_getElem_cons (by simpa using hi), Array.getElem_toList, hzero]
    rfl
  | case2 i hi hzero ih =>
    rw [zeroAt?, dif_pos hi, if_neg hzero] at h
    obtain ⟨bs, rest, hdrop, hbs, hstop⟩ := ih h
    refine ⟨code[i] :: bs, rest, ?_, ?_, ?_⟩
    · rw [List.drop_eq_getElem_cons (by simpa using hi), Array.getElem_toList, hdrop]
      rfl
    · rw [List.mem_cons, not_or]
      exact ⟨Ne.symm hzero, hbs⟩
    · rw [List.length_cons]
      omega
  | case3 i hi =>
    rw [zeroAt?, dif_neg hi] at h
    cases h

theorem toUTF8_of_fromUTF8? {data : ByteArray} {s : String} (h : String.fromUTF8? data = some s) : s.toUTF8 = data := by
  unfold String.fromUTF8? at h
  split at h
  · exact congrArg String.toUTF8 (Option.some.inj h).symm
  · cases h

theorem not_mem_of_toUTF8 {s : String} (h : 0 ∉ s.toUTF8.data.toList) : '\x00' ∉ s.toList := by
  intro hmem
  rw [toUTF8_eq, List.mem_flatMap] at h
  exact h ⟨_, hmem, by decide⟩

theorem passed_readText {s : String} (h : readText c = .ok s c') :
    '\x00' ∉ s.toList ∧ c.Passed c' (s.toUTF8.data.toList ++ [0]) := by
  simp only [readText] at h
  split at h
  · cases h
  · rename_i stop hstop
    split at h
    · rename_i s' htext
      obtain ⟨rfl, rfl⟩ := EStateM.Result.ok.inj h
      obtain ⟨bs, rest, hdrop, hbs, rfl⟩ := drop_of_zeroAt? hstop
      have hextract : (c.home.code.extract c.position (c.position + bs.length)).toList = bs := by
        rw [Array.toList_extract, List.extract_eq_take_drop, hdrop, Nat.add_sub_cancel_left, List.take_left]
      have hdata : s'.toUTF8.data.toList = bs := by
        rw [toUTF8_of_fromUTF8? htext]
        exact hextract
      refine ⟨not_mem_of_toUTF8 (hdata ▸ hbs), ⟨rest, ?_⟩, ?_⟩
      · rw [hdata, hdrop, List.append_assoc]
        rfl
      · rw [hdata, List.length_append]
        rfl
    · cases h

/-! ### Operands and instructions -/

theorem passed_readOperand {k : OperandKind} {v : k.Carrier} (h : readOperand k c = .ok v c') :
    Assembler.hasZero ⟨k, v⟩ = false ∧ c.Passed c' (k.encode v) := by
  cases k with
  | u8 =>
    have hbyte : OperandKind.encode .u8 v = LittleEndian.bytes 1 v.toNat := by
      simp [OperandKind.encode, LittleEndian.bytes]
    exact ⟨rfl, hbyte ▸ passed_number UInt8.toNat (fun n hn => UInt8.toNat_ofNat_of_lt hn) h⟩
  | i8 =>
    have hbyte : OperandKind.encode .i8 v = LittleEndian.bytes 1 v.toUInt8.toNat := by
      simp [OperandKind.encode, LittleEndian.bytes]
    exact ⟨rfl, hbyte ▸ passed_number (fun n : Int8 => n.toUInt8.toNat) (fun n hn => UInt8.toNat_ofNat_of_lt hn) h⟩
  | u32 | f32 | native | callee =>
    exact ⟨rfl, passed_number UInt32.toNat (fun n hn => UInt32.toNat_ofNat_of_lt hn) h⟩
  | i32 | address =>
    exact ⟨rfl, passed_number (fun n : Int32 => n.toUInt32.toNat) (fun n hn => UInt32.toNat_ofNat_of_lt hn) h⟩
  | u64 => exact ⟨rfl, passed_number UInt64.toNat (fun n hn => UInt64.toNat_ofNat_of_lt hn) h⟩
  | f64 => exact ⟨rfl, passed_number (fun x : Binary64 => x.bits.toNat) (fun n hn => UInt64.toNat_ofNat_of_lt hn) h⟩
  | text =>
    obtain ⟨hzero, hpassed⟩ := passed_readText h
    exact ⟨by simpa [Assembler.hasZero] using hzero, hpassed⟩

theorem passed_readOperands {ks : List OperandKind} {vs : Operands ks} (h : readOperands ks c = .ok vs c') :
    vs.toList.any Assembler.hasZero = false ∧ c.Passed c' vs.encode := by
  induction ks generalizing c c' with
  | nil =>
    cases h
    exact ⟨rfl, .refl c⟩
  | cons k ks ih =>
    obtain ⟨v, d, hfirst, hrest⟩ := bind_eq_ok h
    obtain ⟨vs, d', hothers, hpure⟩ := bind_eq_ok hrest
    cases hpure
    obtain ⟨hzero, hpassed⟩ := passed_readOperand hfirst
    obtain ⟨hzeros, hpassed'⟩ := ih hothers
    refine ⟨?_, hpassed.trans hpassed'⟩
    rw [Operands.toList, List.any_cons, hzero, hzeros]
    rfl

theorem passed_readInstruction {i : Instruction} (h : readInstruction c = .ok i c') :
    i.isReadable = true ∧ c.Passed c' i.encode := by
  obtain ⟨op, d, hop, hrest⟩ := bind_eq_ok h
  obtain ⟨vs, d', hvs, hpure⟩ := bind_eq_ok hrest
  cases hpure
  obtain ⟨hzero, hpassed⟩ := passed_readOperands hvs
  refine ⟨?_, (passed_readOpcode hop).trans hpassed⟩
  rw [Instruction.isReadable, hzero]
  rfl

/-- Reading up to the end ends there, or passes one instruction and goes on. -/
theorem readAll_cases {is : List Located} (h : c.readAll = .ok is) :
    (c.home.size ≤ c.position ∧ is = []) ∨
      ∃ i next rest, readInstruction c = .ok i next ∧ next.readAll = .ok rest ∧ is = ⟨c.position, i⟩ :: rest := by
  rw [readAll] at h
  split_ifs at h with hend
  · exact .inl ⟨of_decide_eq_true hend, (Except.ok.inj h).symm⟩
  · split at h
    · cases h
    · rename_i i next hread
      cases hrest : next.readAll with
      | error e => simp only [hrest] at h; cases h
      | ok rest =>
        simp only [hrest] at h
        exact .inr ⟨i, next, rest, hread, hrest, (Except.ok.inj h).symm⟩

theorem located_of_readAll {is : List Located} (h : c.readAll = .ok is) :
    is = locate c.position (is.map Located.instruction) ∧
      c.home.code.toList.drop c.position = is.flatMap (·.instruction.encode) ∧
      ∀ i ∈ is, i.instruction.isReadable = true := by
  induction is generalizing c with
  | nil =>
    obtain ⟨hend, -⟩ | ⟨i, next, rest, -, -, hnil⟩ := readAll_cases h
    · exact ⟨rfl, List.drop_eq_nil_of_le hend, by simp⟩
    · cases hnil
  | cons l is ih =>
    obtain ⟨-, hcons⟩ | ⟨i, next, rest, hread, hrest, hcons⟩ := readAll_cases h
    · cases hcons
    · obtain ⟨rfl, rfl⟩ := List.cons.inj hcons
      obtain ⟨hreadable, hpassed⟩ := passed_readInstruction hread
      obtain ⟨hlocate, hcode, hall⟩ := ih hrest
      have hposition : next.position = c.position + i.encode.length := congrArg position hpassed.moved
      refine ⟨?_, ?_, ?_⟩
      · rw [List.map_cons, locate, ← hposition, ← hlocate]
      · rw [hpassed.drop, hcode, List.flatMap_cons]
      · exact List.forall_mem_cons.2 ⟨hreadable, hall⟩

end Cursor

/-! ### Listings -/

/-- The code of the section is the encodings of the listed instructions in a row. Each stands at the
total length of the ones before it, and no text in them has a zero character. -/
structure Section.Spelled (s : Section) (is : List Located) : Prop where
  code : s.code.toList = is.flatMap (·.instruction.encode)
  readable : ∀ i ∈ is, i.instruction.isReadable = true
  address : ∀ done i rest, is = done ++ i :: rest → i.address = (done.flatMap (·.instruction.encode)).length

theorem address_of_locate {start : Nat} {is : List Instruction} {done rest : List Located} {i : Located}
    (h : locate start is = done ++ i :: rest) :
    i.address = start + (done.flatMap (·.instruction.encode)).length := by
  induction done generalizing start is with
  | nil =>
    cases is with
    | nil => cases h
    | cons j is =>
      obtain ⟨rfl, -⟩ := List.cons.inj h
      rfl
  | cons d done ih =>
    cases is with
    | nil => cases h
    | cons j is =>
      obtain ⟨rfl, htail⟩ := List.cons.inj h
      rw [ih htail, List.flatMap_cons, List.length_append, Nat.add_assoc]

theorem locate_of_address {start : Nat} {is : List Located}
    (h : ∀ done i rest, is = done ++ i :: rest →
      i.address = start + (done.flatMap (·.instruction.encode)).length) :
    is = locate start (is.map Located.instruction) := by
  induction is generalizing start with
  | nil => rfl
  | cons l is ih =>
    have hfirst : l.address = start := h [] l is rfl
    have hrest : is = locate (start + l.instruction.encode.length) (is.map Located.instruction) := by
      refine ih fun done i rest hsplit => ?_
      have haddress := h (l :: done) i rest (congrArg (l :: ·) hsplit)
      rwa [List.flatMap_cons, List.length_append, ← Nat.add_assoc] at haddress
    rw [List.map_cons, locate, ← hrest, ← hfirst]

/-- A section is listed exactly as the instructions that it spells, and no other section's code is
listed the same. -/
theorem Section.instructions_eq_ok_iff (s : Section) (is : List Located) :
    (s.instructions = .ok is ↔ s.Spelled is) ∧
      ∀ t : Section, s.instructions = .ok is → t.instructions = .ok is → s.code = t.code := by
  have hspelled : ∀ {s : Section}, s.instructions = .ok is → s.Spelled is := by
    intro s h
    obtain ⟨hlocate, hcode, hreadable⟩ := Cursor.located_of_readAll h
    refine ⟨hcode, hreadable, fun done i rest hsplit => ?_⟩
    rw [hsplit] at hlocate
    rw [address_of_locate hlocate.symm, Nat.zero_add]
  refine ⟨⟨hspelled, fun h => ?_⟩, fun t hs ht => ?_⟩
  · have hmade : s.MadeOf (is.map Located.instruction) := by
      refine ⟨?_, List.forall_mem_map.2 h.readable⟩
      rw [h.code, List.flatMap_map]
    rw [hmade.instructions, ← locate_of_address]
    intro done i rest hsplit
    rw [h.address done i rest hsplit, Nat.zero_add]
  · rw [← Array.toList_inj, (hspelled hs).code, (hspelled ht).code]

def greeting : Section := { code := #[Opcode.ldiString.byte, 104, 105, 0, Opcode.eof.byte] }

theorem instructions_eq_ok_iff_greeting :
    greeting.instructions = .ok [⟨0, ⟨.ldiString, ("hi", ())⟩⟩, ⟨4, ⟨.eof, ()⟩⟩] ∧
      greeting.Spelled [⟨0, ⟨.ldiString, ("hi", ())⟩⟩, ⟨4, ⟨.eof, ()⟩⟩] := by
  have hmade : greeting.MadeOf [⟨.ldiString, ("hi", ())⟩, ⟨.eof, ()⟩] := by
    refine ⟨by cbv, ?_⟩
    simp [Instruction.isReadable, Operands.toList, Assembler.hasZero]
  have h : greeting.instructions = .ok [⟨0, ⟨.ldiString, ("hi", ())⟩⟩, ⟨4, ⟨.eof, ()⟩⟩] := hmade.instructions
  exact ⟨h, (Section.instructions_eq_ok_iff greeting _).1.1 h⟩

end ScriptVm
