import ScriptVm.Code.Instruction
import ScriptVm.Value.Basic

/-! Building sections. A branch names a label; a label that is bound later leaves a gap which `finish`
fills. The first error is kept and reported by `finish`. -/

namespace ScriptVm

/-- Labels are numbered in the order in which they are made. -/
abbrev Label := Nat

structure Assembler where
  code : Array UInt8 := #[]
  /-- Where each label is bound. -/
  labels : Array (Option Nat) := #[]
  /-- Addresses of branch operands to fill in, with their labels. -/
  gaps : List (Nat × Label) := []
  symbols : Symbols := {}
  name? : Option String := none
  error? : Option CodeError := none

namespace Assembler

def position (a : Assembler) : Nat := a.code.size

/-- Keeps the error, unless there was one before. -/
def fail (a : Assembler) (e : CodeError) : Assembler := { a with error? := some (a.error?.getD e) }

def append (a : Assembler) (bytes : List UInt8) : Assembler := { a with code := a.code ++ bytes }

def label (a : Assembler) : Label × Assembler :=
  (a.labels.size, { a with labels := a.labels.push none })

def bind (a : Assembler) (l : Label) : Assembler :=
  { a with labels := a.labels.setIfInBounds l (some a.position) }

/-- A new label, bound here. -/
def here (a : Assembler) : Label × Assembler :=
  let (l, a) := a.label
  (l, a.bind l)

/-- Notes that a statement of the source begins here. -/
def statement (a : Assembler) (line : UInt32) : Assembler :=
  { a with symbols := a.symbols.add a.position line }

/-- Whether an operand is a text that could not be read back. -/
def hasZero (o : Operand) : Bool :=
  match o with
  | ⟨.text, s⟩ => s.toList.contains '\x00'
  | _ => false

def emit (a : Assembler) (i : Instruction) : Assembler :=
  let a :=
    if i.operands.toList.any hasZero then a.fail (.invalidString (a.position + 1)) else a
  a.append i.encode

/-- The instruction that pushes a value; arrays and pointers have none. -/
def constant? : Value → Option Instruction
  | .undefined => some ⟨.ldiUndef, ()⟩
  | .bool true => some ⟨.ldiTrue, ()⟩
  | .bool false => some ⟨.ldiFalse, ()⟩
  | .int i => some ⟨.ldiS32, (i, ())⟩
  | .uint n => some ⟨.ldiU64, (n, ())⟩
  | .real x => some ⟨.ldiF64, (x, ())⟩
  | .string s => some ⟨.ldiString, (s, ())⟩
  | .array _ | .pointer _ => none

def load (a : Assembler) (v : Value) : Assembler :=
  match constant? v with
  | some i => a.emit i
  | none => a.fail (.noImmediate v.kind.name)

def addressBytes (address : Nat) : List UInt8 := LittleEndian.bytes 4 address

/-- A branch, which goes on at the label if the condition flag is set or, if unconditional, always. -/
def branch (a : Assembler) (conditional : Bool) (l : Label) : Assembler :=
  let a := a.append [(if conditional then Opcode.bcond else Opcode.jmp).byte]
  match a.labels[l]?.join with
  | some address => a.append (addressBytes address)
  | none => { a.append (addressBytes 0) with gaps := a.gaps ++ [(a.position, l)] }

def patch (code : Array UInt8) (offset : Nat) : List UInt8 → Array UInt8
  | [] => code
  | b :: rest => patch (code.setIfInBounds offset b) (offset + 1) rest

/-- Fills the gaps in order; a label that was never bound is an error. -/
def fill (labels : Array (Option Nat)) (code : Array UInt8) :
    List (Nat × Label) → Except CodeError (Array UInt8)
  | [] => .ok code
  | (offset, l) :: rest =>
    match labels[l]?.join with
    | some address => fill labels (patch code offset (addressBytes address)) rest
    | none => .error (.unboundLabel l)

/-- The finished section. It has symbols if there was any statement. -/
def finish (a : Assembler) (results : UInt8) (parameters : Option UInt8) : Except CodeError Section :=
  match a.error? with
  | some e => .error e
  | none => do
    let code ← fill a.labels a.code a.gaps
    return {
      code, results, parameters, name? := a.name?
      symbols? := if a.symbols.statements.isEmpty then none else some a.symbols }

end Assembler

/-- A line of a program whose labels have names. -/
inductive Line where
  | bind (label : String)
  | here (label : String)
  | statement (line : UInt32)
  | load (v : Value)
  | branch (conditional : Bool) (label : String)
  | emit (i : Instruction)

structure Draft where
  assembler : Assembler := {}
  names : List (String × Label) := []

namespace Draft

/-- The label of a name, made when the name is first met. -/
def resolve (d : Draft) (name : String) : Label × Draft :=
  match d.names.lookup name with
  | some l => (l, d)
  | none =>
    let (l, a) := d.assembler.label
    (l, { assembler := a, names := (name, l) :: d.names })

def write (d : Draft) : Line → Draft
  | .bind name =>
    let (l, d) := d.resolve name
    { d with assembler := d.assembler.bind l }
  | .here name =>
    let (l, a) := d.assembler.here
    { assembler := a, names := (name, l) :: d.names }
  | .statement line => { d with assembler := d.assembler.statement line }
  | .load v => { d with assembler := d.assembler.load v }
  | .branch conditional name =>
    let (l, d) := d.resolve name
    { d with assembler := d.assembler.branch conditional l }
  | .emit i => { d with assembler := d.assembler.emit i }

/-- Writes all lines and notes the position before each. -/
def writeAll (d : Draft) : List Line → Draft × List Nat
  | [] => (d, [])
  | line :: rest =>
    let position := d.assembler.position
    let (d, positions) := (d.write line).writeAll rest
    (d, position :: positions)

end Draft
end ScriptVm
