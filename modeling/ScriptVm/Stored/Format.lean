import ScriptVm.Heap.Tree
import ScriptVm.Number.LittleEndian

/-! The stored form of values: a tag byte and then an eight-byte slot, the bytes of a string behind
their number, or an array as a height and rows of cells between two canaries. `encode` writes a tree
and `parse` reads one back; `Memory.load` reads straight into memory. -/

namespace ScriptVm.Stored

def openCanary : UInt64 := 0xDEADBEEFAE1D5A5A
def closeCanary : UInt64 := 0xF4DBEED13A1DEAD7

/-- How deep arrays may nest in what is read. -/
def maxNesting : Nat := 256

def slot (n : UInt64) : List UInt8 := LittleEndian.bytes 8 n.toNat

def size (n : Nat) : List UInt8 := slot n.toUInt64

/-- The stored form of a value that is no array. -/
def encodeScalar : Value → List UInt8
  | .undefined => 0 :: slot 0
  | .bool b => 1 :: slot (if b then 1 else 0)
  | .int i => 2 :: slot (.ofInt i.toInt)
  | .uint n => 3 :: slot n
  | .real x => 4 :: slot x.bits
  | .string s => 5 :: size s.utf8ByteSize ++ s.toUTF8.data.toList
  | .pointer p => 7 :: slot p
  | .array _ => []

variable {α : Type}

mutual

/-- The stored form of a tree. An array that contains itself has none. -/
def encode : Tree α → Option (List UInt8)
  | .scalar v => some (encodeScalar v)
  | .null _ => some (6 :: slot openCanary ++ size 0 ++ slot closeCanary)
  | .back _ => none
  | .array _ rows => do
    let body ← encodeRows rows
    return 6 :: slot openCanary ++ size rows.length ++ body ++ slot closeCanary

def encodeRows : List (List (Tree α)) → Option (List UInt8)
  | [] => some []
  | row :: rows => do
    let cells ← encodeCells row
    return size row.length ++ cells ++ (← encodeRows rows)

def encodeCells : List (Tree α) → Option (List UInt8)
  | [] => some []
  | cell :: cells => do
    let bytes ← encode cell
    return bytes ++ (← encodeCells cells)

end

/-- Why reading failed, and the trees that were complete by then, in the order they were read. -/
structure Failure where
  error : StreamError
  completed : List (Tree Unit) := []

abbrev Read := StateT (List UInt8) (Except Failure)

def fail {β : Type} (error : StreamError) : Read β := fun _ => .error { error := error }

/-- Reads on after some trees are complete. -/
def after {β : Type} (done : List (Tree Unit)) (read : Read β) : Read β := fun input =>
  match read input with
  | .ok result => .ok result
  | .error failure => .error { failure with completed := done ++ failure.completed }

/-- Takes exactly `count` bytes, or none if there are fewer. -/
def takeBytes? (count : Nat) (input : List UInt8) : Option (List UInt8 × List UInt8) :=
  let taken := input.take count
  if taken.length = count then some (taken, input.drop count) else none

def readSlot : Read UInt64 := fun input =>
  match takeBytes? 8 input with
  | some (taken, rest) => .ok ((LittleEndian.toNat taken).toUInt64, rest)
  | none => .error { error := .shortRead }

def readCanary (expected : UInt64) : Read Unit := do
  let found ← readSlot
  if found = expected then pure () else fail (.canaryMismatch expected found)

def readText (size : Nat) : Read String := fun input =>
  match takeBytes? size input with
  | none => .error { error := .truncatedString }
  | some (taken, rest) =>
    match String.fromUTF8? ⟨taken.toArray⟩ with
    | some s => .ok (s, rest)
    | none => .error { error := .invalidText }

def readCells (cell : Read (Tree Unit)) : Nat → Read (List (Tree Unit))
  | 0 => pure []
  | count + 1 => do
    let first ← cell
    let others ← after [first] (readCells cell count)
    return first :: others

/-- Reads `count` rows, each a number of cells and the cells. -/
def readRows (cell : Read (Tree Unit)) : Nat → Read (List (List (Tree Unit)))
  | 0 => pure []
  | count + 1 => do
    let size ← readSlot
    let first ← readCells cell size.toNat
    let others ← after first (readRows cell count)
    return first :: others

def readArray (cell : Read (Tree Unit)) : Read (Tree Unit) := do
  readCanary openCanary
  let height ← readSlot
  let rows ← readRows cell height.toNat
  after rows.flatten (readCanary closeCanary)
  return .array () rows

def readTag : Read UInt8 := fun
  | [] => .error { error := .shortRead }
  | tag :: rest => .ok (tag, rest)

/-- Reads one value whose arrays nest at most `nesting` deep. -/
def readWithin (nesting : Nat) : Read (Tree Unit) := do
  match ← readTag with
  | 0 =>
    let _ ← readSlot
    return .scalar .undefined
  | 1 => return .scalar (.bool ((← readSlot) != 0))
  | 2 => return .scalar (.int (.ofInt (← readSlot).toNat))
  | 3 => return .scalar (.uint (← readSlot))
  | 4 => return .scalar (.real ⟨← readSlot⟩)
  | 5 => return .scalar (.string (← readText (← readSlot).toNat))
  | 6 =>
    match nesting with
    | 0 => fail .tooDeep
    | nesting + 1 => readArray (readWithin nesting)
  | 7 => return .scalar (.pointer (← readSlot))
  | tag => fail (.unknownTag tag)

def parse (input : List UInt8) : Except Failure (Tree Unit × List UInt8) := readWithin maxNesting input

end ScriptVm.Stored

namespace ScriptVm.Memory

/-- The stored form of a value; an array that contains itself has none. -/
def stored? (m : Memory) (v : Value) : Option (List UInt8) :=
  Stored.encode (m.heap.unfold (fun _ => ()) v)

/-- Reads one value from the front of the input. Arrays are registered as they become complete, also
those that a later error drops again. -/
def load (m : Memory) (input : List UInt8) : Except Fault (Value × List UInt8) × Memory :=
  match Stored.parse input with
  | .ok (t, rest) =>
    let (v, m) := t.build (fun _ => true) m
    (.ok (v, rest), m)
  | .error failure =>
    let (done, m) := Tree.buildCells (fun _ => true) failure.completed m
    (.error (.stream failure.error), m.release done)

/-- Reads up to `count` values, until the input is empty or an error stops it. -/
def loadUpTo (m : Memory) : Nat → List UInt8 → List Value × Option Fault × Memory
  | 0, _ | _, [] => ([], none, m)
  | count + 1, input =>
    match m.load input with
    | (.ok (v, rest), m) =>
      let (vs, failed, m) := m.loadUpTo count rest
      (v :: vs, failed, m)
    | (.error f, m) => ([], some f, m)

/-- Reads values to the end of the input; each takes at least a byte. -/
def loadAll (m : Memory) (input : List UInt8) : List Value × Option Fault × Memory :=
  m.loadUpTo input.length input

end ScriptVm.Memory
