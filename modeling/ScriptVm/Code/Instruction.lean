import ScriptVm.Code.Cursor

/-! Whole instructions. Writing and reading both follow the opcode's layout, operand by operand. -/

namespace ScriptVm

@[reducible] def Operands : List OperandKind → Type
  | [] => Unit
  | k :: ks => k.Carrier × Operands ks

structure Operand where
  kind : OperandKind
  value : kind.Carrier

def Operands.toList : {ks : List OperandKind} → Operands ks → List Operand
  | [], () => []
  | k :: _, (v, rest) => ⟨k, v⟩ :: Operands.toList rest

/-- The bytes of one operand: numbers little end first, a text followed by a zero byte. -/
def OperandKind.encode : (k : OperandKind) → k.Carrier → List UInt8
  | .u8, n => [n]
  | .i8, n => [n.toUInt8]
  | .u32, n => LittleEndian.bytes 4 n.toNat
  | .i32, n => LittleEndian.bytes 4 n.toUInt32.toNat
  | .u64, n => LittleEndian.bytes 8 n.toNat
  | .f32, w => LittleEndian.bytes 4 w.toNat
  | .f64, x => LittleEndian.bytes 8 x.bits.toNat
  | .text, s => s.toUTF8.data.toList ++ [0]
  | .address, n => LittleEndian.bytes 4 n.toUInt32.toNat
  | .native, n => LittleEndian.bytes 4 n.toNat
  | .callee, n => LittleEndian.bytes 4 n.toNat

def Operands.encode : {ks : List OperandKind} → Operands ks → List UInt8
  | [], () => []
  | k :: _, (v, rest) => k.encode v ++ Operands.encode rest

structure Instruction where
  op : Opcode
  operands : Operands op.layout

def Instruction.encode (i : Instruction) : List UInt8 := i.op.byte :: i.operands.encode

/-- The address that an instruction may go on at. -/
def Instruction.target? : Instruction → Option Int32
  | ⟨.jmp, (target, ())⟩ | ⟨.bcond, (target, ())⟩ => some target
  | _ => none

structure Located where
  address : Nat
  instruction : Instruction

namespace Cursor

def readOperands : (ks : List OperandKind) → Scan (Operands ks)
  | [] => return ()
  | k :: ks => return (← readOperand k, ← readOperands ks)

def readInstruction : Scan Instruction := do
  let op ← readOpcode
  return ⟨op, ← readOperands op.layout⟩

/-- Reads on to a place in the same section that is not before the present one. -/
def Advances (c c' : Cursor) : Prop := c'.home = c.home ∧ c.position ≤ c'.position

theorem Advances.trans {a b c : Cursor} (hab : Advances a b) (hbc : Advances b c) : Advances a c :=
  ⟨hbc.1.trans hab.1, Nat.le_trans hab.2 hbc.2⟩

theorem advances_of_bind {α β : Type} {x : Scan α} {f : α → Scan β} {c c' : Cursor} {b : β}
    (hx : ∀ {a d}, x c = .ok a d → Advances c d) (hf : ∀ {a d}, f a d = .ok b c' → Advances d c')
    (h : (x >>= f) c = .ok b c') : Advances c c' := by
  simp only [bind, EStateM.bind] at h
  split at h
  next a d ha => exact (hx ha).trans (hf h)
  next => cases h

theorem advances_of_readNat {count n : Nat} {c c' : Cursor} (h : readNat count c = .ok n c') :
    Advances c c' := by
  refine advances_of_bind ?_ ?_ h
  · intro a d ha
    simp only [readBytes] at ha
    split at ha <;> cases ha
    exact ⟨rfl, Nat.le_add_right ..⟩
  · intro a d ha
    cases ha
    exact ⟨rfl, Nat.le_refl _⟩

theorem le_of_zeroAt? {code : Array UInt8} {i stop : Nat} (h : zeroAt? code i = some stop) :
    i ≤ stop := by
  induction i using zeroAt?.induct code with
  | case1 i hi hz => rw [zeroAt?, dif_pos hi, if_pos hz] at h; cases h; exact Nat.le_refl _
  | case2 i hi hz ih =>
    rw [zeroAt?, dif_pos hi, if_neg hz] at h
    exact Nat.le_of_succ_le (ih h)
  | case3 i hi => rw [zeroAt?, dif_neg hi] at h; cases h

theorem advances_of_readText {s : String} {c c' : Cursor} (h : readText c = .ok s c') :
    Advances c c' := by
  simp only [readText] at h
  split at h
  · cases h
  · rename_i stop hs
    split at h <;> cases h
    exact ⟨rfl, Nat.le_succ_of_le (le_of_zeroAt? hs)⟩

theorem advances_of_map {α β : Type} {x : Scan α} {f : α → β} {c c' : Cursor} {b : β}
    (hx : ∀ {a d}, x c = .ok a d → Advances c d) (h : (x >>= fun a => pure (f a)) c = .ok b c') :
    Advances c c' :=
  advances_of_bind hx (fun h => by cases h; exact ⟨rfl, Nat.le_refl _⟩) h

theorem advances_of_readOperand {k : OperandKind} {v : k.Carrier} {c c' : Cursor}
    (h : readOperand k c = .ok v c') : Advances c c' := by
  cases k <;> first
    | exact advances_of_readText h
    | exact advances_of_map (fun h => advances_of_readNat h) h

theorem advances_of_readOperands {ks : List OperandKind} {vs : Operands ks} {c c' : Cursor}
    (h : readOperands ks c = .ok vs c') : Advances c c' := by
  induction ks generalizing c c' with
  | nil => cases h; exact ⟨rfl, Nat.le_refl _⟩
  | cons k ks ih =>
    exact advances_of_bind (fun h => advances_of_readOperand h)
      (fun h => advances_of_map (fun h => ih h) h) h

/-- An instruction that was read lies before the cursor, which stays in its section. -/
theorem lt_of_readInstruction {i : Instruction} {c c' : Cursor} (h : readInstruction c = .ok i c') :
    c'.home = c.home ∧ c.position < c'.position ∧ c.position < c.home.size := by
  simp only [readInstruction, bind, EStateM.bind] at h
  split at h
  · rename_i op d hop
    have hd : d.home = c.home ∧ d.position = c.position + 1 ∧ c.position < c.home.size := by
      simp only [readOpcode] at hop
      split at hop
      · cases hop
      · rename_i byte hb
        split at hop <;> cases hop
        exact ⟨rfl, rfl, (Array.getElem?_eq_some_iff.1 hb).1⟩
    have hrest : Advances d c' := by
      split at h
      · rename_i vs e hvs
        cases h
        exact advances_of_readOperands hvs
      · cases h
    exact ⟨hrest.1.trans hd.1, by have := hrest.2; omega, hd.2.2⟩
  · cases h

def readAll (c : Cursor) : Except CodeError (List Located) :=
  if c.atEnd then .ok []
  else
    match _read : readInstruction c with
    | .error e _ => .error e
    | .ok i next =>
      match readAll next with
      | .ok rest => .ok (⟨c.position, i⟩ :: rest)
      | .error e => .error e
termination_by c.home.size - c.position
decreasing_by
  have := lt_of_readInstruction _read
  rw [this.1]
  omega

end Cursor

def Section.instructions (s : Section) : Except CodeError (List Located) :=
  Cursor.readAll { home := s }

end ScriptVm
