import ScriptVm.Code.Error
import ScriptVm.Text.Quoted

/-! Sections of code and the table that a running program finds them in. Debug symbols tell which
source line the code at an address belongs to: that of the last statement that has begun there. -/

namespace ScriptVm

/-- Where the statements of a section begin, by address. -/
structure Symbols where
  statements : Array (Nat × UInt32) := #[]
deriving DecidableEq, Repr

namespace Symbols

/-- Notes that a statement begins; at one address the last note counts. -/
def add (s : Symbols) (address : Nat) (line : UInt32) : Symbols :=
  match s.statements.back? with
  | some (last, _) =>
    if last = address then ⟨s.statements.pop.push (address, line)⟩
    else ⟨s.statements.push (address, line)⟩
  | none => ⟨#[(address, line)]⟩

/-- Halves the `size` places from `base` on until one is left, and keeps the upper half if `p` holds
at its first place. -/
def halve (p : Nat → Bool) (base size : Nat) : Nat :=
  if size ≤ 1 then base
  else halve p (if p (base + size / 2) then base + size / 2 else base) (size - size / 2)
termination_by size

def begun (s : Symbols) (address i : Nat) : Bool := s.statements[i]?.any (·.1 ≤ address)

/-- The statement that halving finds for an address, unless that one begins behind it. -/
def find? (s : Symbols) (address : Nat) : Option (Nat × UInt32) :=
  s.statements[halve (s.begun address) 0 s.statements.size]?.filter (·.1 ≤ address)

def lineAt? (s : Symbols) (address : Nat) : Option UInt32 := (s.find? address).map (·.2)

def startsAt (s : Symbols) (address : Nat) : Bool := (s.find? address).any (·.1 == address)

theorem halve_mem (p : Nat → Bool) (base size : Nat) (h : 0 < size) :
    base ≤ halve p base size ∧ halve p base size < base + size ∧
      (halve p base size = base ∨ p (halve p base size)) := by
  fun_induction halve p base size with
  | case1 => omega
  | case2 base size hs ih =>
    have := ih (by omega)
    split at this <;> grind

/-- If `p` holds up to some place and no further, halving finds the place. -/
theorem not_of_halve_lt (p : Nat → Bool) (base size : Nat)
    (hp : ∀ i j, i ≤ j → p j → p i) {i : Nat} (hi : halve p base size < i) (hs : i < base + size) :
    p i = false := by
  fun_induction halve p base size with
  | case1 => omega
  | case2 base size h ih =>
    by_cases hm : p (base + size / 2)
    · grind
    · by_cases hlt : i < base + (size - size / 2)
      · grind
      · have := hp (base + size / 2) i (by omega)
        grind

theorem begun_iff {s : Symbols} {address i : Nat} :
    s.begun address i ↔ ∃ h : i < s.statements.size, s.statements[i].1 ≤ address := by
  by_cases h : i < s.statements.size <;> simp [begun, h]

/-- Where addresses increase, a statement is found exactly if it is the last that has begun. -/
theorem find?_eq_some_iff {s : Symbols} (hs : s.statements.toList.Pairwise (·.1 < ·.1))
    {address : Nat} {t : Nat × UInt32} :
    s.find? address = some t ↔
      t ∈ s.statements ∧ t.1 ≤ address ∧ ∀ u ∈ s.statements, u.1 ≤ address → u.1 ≤ t.1 := by
  have sorted : ∀ i j (hi : i < s.statements.size) (hj : j < s.statements.size), i < j →
      s.statements[i].1 < s.statements[j].1 := by
    simpa [List.pairwise_iff_getElem] using hs
  have closed : ∀ i j, i ≤ j → s.begun address j → s.begun address i := by
    intro i j hij hj
    obtain ⟨hj, hja⟩ := begun_iff.1 hj
    obtain rfl | hlt := Nat.eq_or_lt_of_le hij
    · exact begun_iff.2 ⟨hj, hja⟩
    · exact begun_iff.2 ⟨by omega, by have := sorted i j (by omega) hj hlt; omega⟩
  have behind := @not_of_halve_lt (s.begun address) 0 s.statements.size closed
  have inside := halve_mem (s.begun address) 0 s.statements.size
  simp only [find?, Option.filter_eq_some_iff, Array.getElem?_eq_some_iff, decide_eq_true_eq]
  generalize halve (s.begun address) 0 s.statements.size = k at behind inside
  have upTo : ∀ i, s.begun address i → i ≤ k := by
    intro i hi
    obtain ⟨hs, -⟩ := begun_iff.1 hi
    refine Nat.le_of_not_lt fun hlt => ?_
    simp [behind hlt (by omega)] at hi
  constructor
  · rintro ⟨⟨hk, rfl⟩, ht⟩
    refine ⟨Array.getElem_mem hk, ht, fun u hu hle => ?_⟩
    obtain ⟨i, hi, rfl⟩ := Array.getElem_of_mem hu
    obtain rfl | hlt := Nat.eq_or_lt_of_le (upTo i (begun_iff.2 ⟨hi, hle⟩))
    · omega
    · have := sorted i k hi hk hlt
      omega
  · rintro ⟨hm, hle, hlast⟩
    obtain ⟨i, hi, rfl⟩ := Array.getElem_of_mem hm
    have hb := begun_iff.2 ⟨hi, hle⟩
    obtain ⟨-, -, hbase⟩ := inside (by omega)
    obtain rfl | hlt := Nat.eq_or_lt_of_le (upTo i hb)
    · exact ⟨⟨hi, rfl⟩, hle⟩
    · obtain ⟨hk, hka⟩ := begun_iff.1 (hbase.resolve_left (by omega))
      have := hlast _ (Array.getElem_mem hk) hka
      have := sorted i k hi hk hlt
      omega

end Symbols

/-- Which section one is. Two sections may hold the same code and still not be the same one. -/
inductive SectionId where
  /-- The section that was loaded as number `n`, or none that was loaded if `n` is zero. -/
  | loaded (n : Nat)
  /-- The section where a program counter rests that was sent there `n` times before. -/
  | rest (n : Nat)
deriving DecidableEq, Repr

structure Section where
  code : Array UInt8 := #[]
  results : UInt8 := 0
  /-- How many arguments a call must have; any number if absent. -/
  parameters : Option UInt8 := some 0
  name? : Option String := none
  symbols? : Option Symbols := none
  id : SectionId := .loaded 0
deriving DecidableEq, Repr

namespace Section

def name (s : Section) : String := s.name?.getD "<anonymous>"

def size (s : Section) : Nat := s.code.size

def sameAs (s t : Section) : Bool := s.id == t.id

def lineAt? (s : Section) (address : Nat) : Option UInt32 := s.symbols?.bind (·.lineAt? address)

def summary (s : Section) : String :=
  let parameters := match s.parameters with
    | some n => s!"Some({n.toNat})"
    | none => "None"
  s!"Bytecode \x7b name: {Quoted.ofString s.name}, len: {s.size}, retc: {s.results.toNat}, " ++
    s!"argc: {parameters} \x7d"

end Section

/-- Sections by index. Some indices may be empty. -/
structure SectionTable where
  entries : Array (Option Section) := #[]
  loaded : Nat := 0

namespace SectionTable

def size (t : SectionTable) : Nat := t.entries.size

def get? (t : SectionTable) (index : UInt32) : Option Section := t.entries[index.toNat]?.join

def get (t : SectionTable) (index : UInt32) : Except CodeError Section :=
  match t.get? index with
  | some s => .ok s
  | none => .error (.noSuchSection index)

/-- Loads a section behind the others and gives its index. -/
def add (t : SectionTable) (s : Section) : UInt32 × SectionTable :=
  (t.size.toUInt32,
    { entries := t.entries.push (some { s with id := .loaded (t.loaded + 1) }), loaded := t.loaded + 1 })

def insert (t : SectionTable) (index : UInt32) (s : Section) : SectionTable :=
  let i := index.toNat
  let entries := t.entries ++ Array.replicate (i + 1 - t.size) none
  { entries := entries.setIfInBounds i (some { s with id := .loaded (t.loaded + 1) })
    loaded := t.loaded + 1 }

end SectionTable
end ScriptVm
