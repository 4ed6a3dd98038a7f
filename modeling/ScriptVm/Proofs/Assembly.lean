import ScriptVm.Proofs.Reading

/-! What an assembler has written. Its code is at all times the encoding of the instructions emitted so
far, where a branch to a label that is not bound yet stands with address zero; the gaps are the
operands of just these branches, and labels are bound between instructions. So a finished section is
made of instructions, and each branch in it leads to the beginning of one or to the end. -/

namespace ScriptVm

theorem LittleEndian.bytes_mod (width n : Nat) : bytes width (n % 256 ^ width) = bytes width n := by
  induction width generalizing n with
  | zero => rfl
  | succ width ih =>
    have hlow : n % 256 ^ (width + 1) % 256 = n % 256 :=
      Nat.mod_mod_of_dvd n (Dvd.intro_left _ (Nat.pow_succ ..).symm)
    have hhigh : n % 256 ^ (width + 1) / 256 = n / 256 % 256 ^ width := by
      rw [Nat.pow_succ']
      exact Nat.mod_mul_right_div_self ..
    rw [bytes, bytes, hlow, hhigh, ih]

def Instruction.branchTo (conditional : Bool) (address : Nat) : Instruction :=
  if conditional then ⟨.bcond, (.ofNat address, ())⟩ else ⟨.jmp, (.ofNat address, ())⟩

namespace Assembler

theorem encode_branchTo (conditional : Bool) (address : Nat) :
    (Instruction.branchTo conditional address).encode =
      (if conditional then Opcode.bcond else Opcode.jmp).byte :: addressBytes address := by
  have hbytes : LittleEndian.bytes 4 (address % 4294967296) = addressBytes address :=
    LittleEndian.bytes_mod 4 address
  cases conditional <;> simp [Instruction.branchTo, Instruction.encode, Operands.encode, OperandKind.encode, hbytes]

/-- What was emitted: an instruction, or a branch to a label with the address that is known for it. -/
inductive Item where
  | plain (i : Instruction)
  | branch (conditional : Bool) (l : Label) (address? : Option Nat)

namespace Item

def instruction : Item → Instruction
  | plain i => i
  | branch conditional _ address? => .branchTo conditional (address?.getD 0)

def bytes (item : Item) : List UInt8 := item.instruction.encode

def pending? : Item → Option Label
  | branch _ l none => some l
  | _ => none

def resolve (labels : Array (Option Nat)) : Item → Item
  | branch conditional l none => branch conditional l labels[l]?.join
  | item => item

theorem bytes_branch (conditional : Bool) (l : Label) (address? : Option Nat) :
    (branch conditional l address?).bytes =
      (if conditional then Opcode.bcond else Opcode.jmp).byte :: addressBytes (address?.getD 0) :=
  encode_branchTo conditional _

theorem length_bytes_resolve (labels : Array (Option Nat)) (item : Item) :
    (item.resolve labels).bytes.length = item.bytes.length := by
  rcases item with i | ⟨conditional, l, _ | address⟩
  · rfl
  · simp [resolve, bytes_branch, addressBytes]
  · rfl

end Item

def gapsFrom (start : Nat) : List Item → List (Nat × Label)
  | [] => []
  | item :: rest => (item.pending?.map (start + 1, ·)).toList ++ gapsFrom (start + item.bytes.length) rest

theorem gapsFrom_append (start : Nat) (items more : List Item) :
    gapsFrom start (items ++ more) =
      gapsFrom start items ++ gapsFrom (start + (items.flatMap Item.bytes).length) more := by
  induction items generalizing start with
  | nil => rfl
  | cons item items ih =>
    rw [List.cons_append, gapsFrom, gapsFrom, ih, List.append_assoc, List.flatMap_cons, List.length_append,
      Nat.add_assoc]

/-! ### Filling the gaps -/

theorem toList_patch {code : Array UInt8} {front old back : List UInt8} (new : List UInt8)
    (hcode : code.toList = front ++ old ++ back) (hlength : new.length = old.length) :
    (patch code front.length new).toList = front ++ new ++ back := by
  induction new generalizing code front old with
  | nil =>
    rw [List.eq_nil_of_length_eq_zero hlength.symm] at hcode
    exact hcode
  | cons b new ih =>
    cases old with
    | nil => cases hlength
    | cons o old =>
      rw [patch]
      have hset : (code.setIfInBounds front.length b).toList = (front ++ [b]) ++ old ++ back := by
        rw [Array.toList_setIfInBounds, hcode]
        simp
      have hrest := ih hset (Nat.succ.inj hlength)
      rw [List.length_append, List.length_singleton] at hrest
      rw [hrest]
      simp

theorem toList_fill {labels : Array (Option Nat)} {items : List Item} (front : List UInt8)
    {code code' : Array UInt8} (hcode : code.toList = front ++ items.flatMap Item.bytes)
    (h : fill labels code (gapsFrom front.length items) = .ok code') :
    code'.toList = front ++ (items.map (Item.resolve labels)).flatMap Item.bytes ∧
      ∀ item ∈ items, (item.resolve labels).pending? = none := by
  induction items generalizing front code with
  | nil =>
    cases h
    exact ⟨hcode, nofun⟩
  | cons item items ih =>
    -- with the item in place, the rest is filled behind it
    have hrest : ∀ {code : Array UInt8}, code.toList = front ++ (item.resolve labels).bytes ++ items.flatMap Item.bytes →
        fill labels code (gapsFrom (front.length + item.bytes.length) items) = .ok code' →
        (item.resolve labels).pending? = none →
        code'.toList = front ++ ((item :: items).map (Item.resolve labels)).flatMap Item.bytes ∧
          ∀ other ∈ item :: items, (other.resolve labels).pending? = none := by
      intro code hcode h hitem
      rw [← Item.length_bytes_resolve labels, ← List.length_append] at h
      obtain ⟨hfilled, hitems⟩ := ih _ hcode h
      refine ⟨?_, ?_⟩
      · rw [hfilled, List.map_cons, List.flatMap_cons, List.append_assoc]
      · simpa using ⟨hitem, hitems⟩
    rw [List.flatMap_cons, ← List.append_assoc] at hcode
    rw [gapsFrom] at h
    rcases item with i | ⟨conditional, l, _ | address⟩
    · exact hrest hcode h rfl
    · simp only [Item.pending?, Option.map_some, Option.toList_some, List.singleton_append, fill] at h
      cases hl : labels[l]?.join with
      | none =>
        rw [hl] at h
        cases h
      | some address =>
        rw [hl] at h
        refine hrest ?_ h ?_
        · rw [Item.bytes_branch, List.append_cons] at hcode
          have hpatched := toList_patch (addressBytes address) hcode (by simp [addressBytes])
          rw [List.length_append, List.length_singleton] at hpatched
          rw [hpatched, Item.resolve, hl, Item.bytes_branch, Option.getD_some]
          simp
        · simp [Item.resolve, hl, Item.pending?]
    · exact hrest hcode h rfl

/-! ### Writing -/

def Boundary (items : List Item) (address : Nat) : Prop :=
  ∃ done rest, items = done ++ rest ∧ address = (done.flatMap Item.bytes).length

theorem boundary_end (items : List Item) : Boundary items (items.flatMap Item.bytes).length :=
  ⟨items, [], (List.append_nil _).symm, rfl⟩

theorem Boundary.append {items : List Item} {address : Nat} (h : Boundary items address) (more : List Item) :
    Boundary (items ++ more) address := by
  obtain ⟨done, rest, rfl, haddress⟩ := h
  exact ⟨done, rest ++ more, List.append_assoc .., haddress⟩

/-- The state of an assembler that has emitted these items. -/
structure Written (a : Assembler) (items : List Item) : Prop where
  code : a.code.toList = items.flatMap Item.bytes
  gaps : a.gaps = gapsFrom 0 items
  labels : ∀ (l : Label) (address : Nat), a.labels[l]?.join = some address → Boundary items address
  branches : ∀ conditional l address, .branch conditional l (some address) ∈ items → Boundary items address
  plain : ∀ i, .plain i ∈ items → i.op.isBranch = false
  readable : a.error? = none → ∀ i, .plain i ∈ items → i.isReadable = true

namespace Written
variable {a : Assembler} {items : List Item}

theorem position (h : a.Written items) : a.position = (items.flatMap Item.bytes).length := by
  rw [← h.code]
  rfl

theorem label (h : a.Written items) : a.label.2.Written items := by
  refine { h with labels := fun l address hl => ?_ }
  have hpush : (a.labels.push none)[l]?.join = some address := hl
  rw [Array.getElem?_push] at hpush
  split_ifs at hpush
  · cases hpush
  · exact h.labels l address hpush

theorem bind (h : a.Written items) (l : Label) : (a.bind l).Written items := by
  refine { h with labels := fun m address hm => ?_ }
  have hset : (a.labels.setIfInBounds l (some a.position))[m]?.join = some address := hm
  rw [Array.getElem?_setIfInBounds] at hset
  split_ifs at hset
  · cases hset
    rw [h.position]
    exact boundary_end items
  · cases hset
  · exact h.labels m address hset

theorem fail (h : a.Written items) (e : CodeError) : (a.fail e).Written items :=
  { h with readable := nofun }

theorem append {a' : Assembler} (h : a.Written items) (item : Item)
    (hcode : a'.code.toList = a.code.toList ++ item.bytes)
    (hgaps : a'.gaps = a.gaps ++ (item.pending?.map (a.position + 1, ·)).toList) (hlabels : a'.labels = a.labels)
    (hbranch : ∀ conditional l address, item = .branch conditional l (some address) → Boundary items address)
    (hplain : ∀ i, item = .plain i → i.op.isBranch = false)
    (hreadable : a'.error? = none → a.error? = none ∧ ∀ i, item = .plain i → i.isReadable = true) :
    a'.Written (items ++ [item]) := by
  refine ⟨?_, ?_, ?_, ?_, ?_, ?_⟩
  · rw [hcode, h.code, List.flatMap_append, List.flatMap_singleton]
  · rw [hgaps, h.gaps, h.position, gapsFrom_append, Nat.zero_add, gapsFrom, gapsFrom, List.append_nil]
  · intro l address hl
    rw [hlabels] at hl
    exact (h.labels l address hl).append _
  · intro conditional l address hmem
    rcases List.mem_append.1 hmem with hmem | hmem
    · exact (h.branches conditional l address hmem).append _
    · exact (hbranch conditional l address (List.mem_singleton.1 hmem).symm).append _
  · intro i hmem
    rcases List.mem_append.1 hmem with hmem | hmem
    · exact h.plain i hmem
    · exact hplain i (List.mem_singleton.1 hmem).symm
  · intro herror i hmem
    obtain ⟨hbefore, hitem⟩ := hreadable herror
    rcases List.mem_append.1 hmem with hmem | hmem
    · exact h.readable hbefore i hmem
    · exact hitem i (List.mem_singleton.1 hmem).symm

theorem emit (h : a.Written items) {i : Instruction} (hi : i.op.isBranch = false) :
    (a.emit i).Written (items ++ [.plain i]) := by
  have hkept : ∀ a' : Assembler, a'.code = a.code → (a'.append i.encode).code.toList = a.code.toList ++ i.encode := by
    intro a' ha'
    simp [Assembler.append, ha']
  unfold Assembler.emit
  split_ifs with hzero
  · refine h.append _ (hkept _ rfl) (List.append_nil _).symm rfl nofun ?_ nofun
    rintro _ ⟨⟩
    exact hi
  · refine h.append _ (hkept _ rfl) (List.append_nil _).symm rfl nofun ?_ fun herror => ⟨herror, ?_⟩
    · rintro _ ⟨⟩
      exact hi
    · rintro _ ⟨⟩
      simpa [Instruction.isReadable] using hzero

theorem branch (h : a.Written items) (conditional : Bool) (l : Label) :
    (a.branch conditional l).Written (items ++ [.branch conditional l a.labels[l]?.join]) := by
  unfold Assembler.branch
  cases hl : a.labels[l]?.join with
  | some address =>
    have hlabel : (a.append [(if conditional then Opcode.bcond else Opcode.jmp).byte]).labels[l]?.join =
        some address := hl
    dsimp only
    rw [hlabel]
    refine h.append _ ?_ (List.append_nil _).symm rfl ?_ nofun fun herror => ⟨herror, nofun⟩
    · simp [Assembler.append, Item.bytes_branch]
    · rintro _ _ _ ⟨⟩
      exact h.labels l address hl
  | none =>
    have hlabel : (a.append [(if conditional then Opcode.bcond else Opcode.jmp).byte]).labels[l]?.join = none := hl
    dsimp only
    rw [hlabel]
    refine h.append _ ?_ ?_ rfl nofun nofun fun herror => ⟨herror, nofun⟩
    · simp [Assembler.append, Item.bytes_branch]
    · simp [Assembler.append, Item.pending?, Assembler.position]

end Written

/-- The assemblers that come of emitting, labels and statements in any order. -/
inductive Built : Assembler → Prop where
  | start (name? : Option String) : Built { name? }
  | label {a : Assembler} : Built a → Built a.label.2
  | bind {a : Assembler} (l : Label) : Built a → Built (a.bind l)
  | here {a : Assembler} : Built a → Built a.here.2
  | statement {a : Assembler} (line : UInt32) : Built a → Built (a.statement line)
  /-- A branch is emitted by its label only. -/
  | emit {a : Assembler} (i : Instruction) : Built a → i.op.isBranch = false → Built (a.emit i)
  | load {a : Assembler} (v : Value) : Built a → Built (a.load v)
  | branch {a : Assembler} (conditional : Bool) (l : Label) : Built a → Built (a.branch conditional l)

theorem isBranch_constant {v : Value} {i : Instruction} (h : constant? v = some i) : i.op.isBranch = false := by
  cases v with
  | bool b => cases b <;> cases h <;> rfl
  | array _ | pointer _ => cases h
  | _ =>
    cases h
    rfl

theorem Built.written {a : Assembler} (h : Built a) : ∃ items, a.Written items := by
  induction h with
  | start name? => exact ⟨[], rfl, rfl, by simp, nofun, nofun, nofun⟩
  | label _ ih =>
    obtain ⟨items, h⟩ := ih
    exact ⟨items, h.label⟩
  | bind l _ ih =>
    obtain ⟨items, h⟩ := ih
    exact ⟨items, h.bind l⟩
  | here _ ih =>
    obtain ⟨items, h⟩ := ih
    exact ⟨items, h.label.bind _⟩
  | statement line _ ih =>
    obtain ⟨items, h⟩ := ih
    exact ⟨items, { h with }⟩
  | emit i _ hi ih =>
    obtain ⟨items, h⟩ := ih
    exact ⟨_, h.emit hi⟩
  | load v _ ih =>
    obtain ⟨items, h⟩ := ih
    unfold Assembler.load
    split
    · rename_i i hi
      exact ⟨_, h.emit (isBranch_constant hi)⟩
    · exact ⟨_, h.fail _⟩
  | branch conditional l _ ih =>
    obtain ⟨items, h⟩ := ih
    exact ⟨_, h.branch conditional l⟩

theorem Boundary.resolve {items : List Item} {address : Nat} (h : Boundary items address)
    (labels : Array (Option Nat)) : Boundary (items.map (Item.resolve labels)) address := by
  obtain ⟨done, rest, rfl, rfl⟩ := h
  refine ⟨done.map (Item.resolve labels), rest.map (Item.resolve labels), List.map_append, ?_⟩
  induction done with
  | nil => rfl
  | cons item done ih =>
    rw [List.map_cons, List.flatMap_cons, List.flatMap_cons, List.length_append, List.length_append, ih,
      Item.length_bytes_resolve]

theorem Written.finish {a : Assembler} {items : List Item} {results : UInt8} {parameters : Option UInt8} {s : Section}
    (h : a.Written items) (hs : a.finish results parameters = .ok s) :
    s.code.toList = (items.map (Item.resolve a.labels)).flatMap Item.bytes ∧ a.error? = none ∧
      ∀ item ∈ items, (item.resolve a.labels).pending? = none := by
  unfold Assembler.finish at hs
  split at hs
  · cases hs
  · rename_i herror
    cases hcode : fill a.labels a.code a.gaps with
    | error e =>
      rw [hcode] at hs
      cases hs
    | ok code =>
      rw [hcode] at hs
      cases hs
      rw [h.gaps] at hcode
      obtain ⟨hfilled, hresolved⟩ := toList_fill [] h.code hcode
      exact ⟨hfilled, herror, hresolved⟩

end Assembler

/-- A section made of instructions whose branches all lead to one of them or to the end. -/
structure Section.Linked (s : Section) (is : List Instruction) : Prop extends s.MadeOf is where
  targets : ∀ i ∈ is, ∀ target, i.target? = some target →
    ∃ done rest, is = done ++ rest ∧ target.toInt = (done.flatMap Instruction.encode).length

def Section.Assembled (s : Section) : Prop :=
  ∃ a results parameters t, Assembler.Built a ∧ a.finish results parameters = .ok t ∧ t.size < 2 ^ 31 ∧
    s = { t with id := s.id }

namespace Assembler

theorem Boundary.le {items : List Item} {address : Nat} (h : Boundary items address) :
    address ≤ (items.flatMap Item.bytes).length := by
  obtain ⟨done, rest, rfl, rfl⟩ := h
  rw [List.flatMap_append, List.length_append]
  exact Nat.le_add_right ..

theorem flatMap_encode (items : List Item) :
    (items.map Item.instruction).flatMap Instruction.encode = items.flatMap Item.bytes :=
  List.flatMap_map ..

theorem Item.isReadable_branch (conditional : Bool) (l : Label) (address? : Option Nat) :
    (Item.branch conditional l address?).instruction.isReadable = true := by
  cases conditional <;> rfl

theorem Item.target_branch (conditional : Bool) (l : Label) (address : Nat) :
    (Item.branch conditional l (some address)).instruction.target? = some (.ofNat address) := by
  cases conditional <;> rfl

theorem target_of_plain {i : Instruction} (h : i.op.isBranch = false) : i.target? = none := by
  obtain ⟨op, operands⟩ := i
  cases op with
  | jmp | bcond => cases h
  | _ => rfl

/-- A finished item is an instruction that can be read back, or a branch to a boundary. -/
theorem Written.resolved {a : Assembler} {items : List Item} {results : UInt8} {parameters : Option UInt8} {s : Section}
    (h : a.Written items) (hs : a.finish results parameters = .ok s) {item : Item}
    (hitem : item ∈ items.map (Item.resolve a.labels)) :
    (∃ i, item = .plain i ∧ i.isReadable = true ∧ i.op.isBranch = false) ∨
      ∃ conditional l address, item = .branch conditional l (some address) ∧
        Boundary (items.map (Item.resolve a.labels)) address := by
  obtain ⟨-, herror, hresolved⟩ := h.finish hs
  obtain ⟨written, hwritten, rfl⟩ := List.mem_map.1 hitem
  rcases written with i | ⟨conditional, l, _ | address⟩
  · exact Or.inl ⟨i, rfl, h.readable herror i hwritten, h.plain i hwritten⟩
  · have hknown := hresolved _ hwritten
    rw [Item.resolve] at hknown ⊢
    cases hl : a.labels[l]?.join with
    | none =>
      rw [hl] at hknown
      cases hknown
    | some address => exact Or.inr ⟨conditional, l, address, rfl, (h.labels l address hl).resolve _⟩
  · exact Or.inr ⟨conditional, l, address, rfl, (h.branches conditional l address hwritten).resolve _⟩

theorem Written.madeOf {a : Assembler} {items : List Item} {results : UInt8} {parameters : Option UInt8} {s : Section}
    (h : a.Written items) (hs : a.finish results parameters = .ok s) :
    s.MadeOf ((items.map (Item.resolve a.labels)).map Item.instruction) := by
  refine ⟨?_, ?_⟩
  · rw [(h.finish hs).1, flatMap_encode]
  · intro i hi
    obtain ⟨item, hitem, rfl⟩ := List.mem_map.1 hi
    rcases h.resolved hs hitem with ⟨i, rfl, hreadable, -⟩ | ⟨conditional, l, address, rfl, -⟩
    · exact hreadable
    · exact Item.isReadable_branch _ _ _

end Assembler

open Assembler in
theorem Section.Assembled.linked {s : Section} (h : s.Assembled) : ∃ is, s.Linked is := by
  obtain ⟨a, results, parameters, t, hbuilt, ht, hsize, hs⟩ := h
  obtain ⟨items, hw⟩ := hbuilt.written
  obtain ⟨hcode, -, -⟩ := hw.finish ht
  have hmade := hw.madeOf ht
  have hst : s.code = t.code := by rw [hs]
  refine ⟨(items.map (Item.resolve a.labels)).map Item.instruction, ⟨?_, hmade.readable⟩, ?_⟩
  · rw [hst, hmade.code]
  · intro i hi target htarget
    obtain ⟨item, hitem, rfl⟩ := List.mem_map.1 hi
    rcases hw.resolved ht hitem with ⟨i, rfl, -, hplain⟩ | ⟨conditional, l, address, rfl, hboundary⟩
    · cases (target_of_plain hplain).symm.trans htarget
    · rw [Item.target_branch] at htarget
      cases htarget
      have hle := hboundary.le
      obtain ⟨done, rest, hsplit, rfl⟩ := hboundary
      refine ⟨done.map Item.instruction, rest.map Item.instruction, ?_, ?_⟩
      · rw [hsplit, List.map_append]
      · rw [flatMap_encode]
        have hword : (done.flatMap Item.bytes).length < 2 ^ 31 := by
          rw [← hcode] at hle
          exact lt_of_le_of_lt hle hsize
        exact Int32.toInt_ofNat_of_lt hword

end ScriptVm
