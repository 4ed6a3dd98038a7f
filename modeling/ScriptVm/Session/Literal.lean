import ScriptVm.Heap.Tree

/-! Values as they are written down before they live in memory. -/

namespace ScriptVm

inductive Literal where
  | scalar (v : Value)
  | null
  /-- An array, which the collector hears of if it is tracked. -/
  | array (tracked : Bool) (rows : List (List Literal))
  /-- A second holder of what a register has. -/
  | register (name : String)

namespace Literal

instance : Inhabited Literal := ⟨.null⟩

mutual

/-- The tree to build, with the registers looked up. -/
def resolve (registers : String → Value) : Literal → Tree Bool
  | .scalar v => .scalar v
  | .null => .null false
  | .array tracked rows => .array tracked (resolveRows registers rows)
  | .register name => .scalar (registers name)

def resolveRows (registers : String → Value) : List (List Literal) → List (List (Tree Bool))
  | [] => []
  | row :: rows => resolveCells registers row :: resolveRows registers rows

def resolveCells (registers : String → Value) : List Literal → List (Tree Bool)
  | [] => []
  | cell :: cells => cell.resolve registers :: resolveCells registers cells

end

/-- Builds the value, inner arrays first. -/
def build (l : Literal) (m : Memory) (registers : String → Value := fun _ => .undefined) :
    Value × Memory :=
  (l.resolve registers).build id m

def buildAll (m : Memory) : List Literal → List Value × Memory
  | [] => ([], m)
  | l :: rest =>
    let (v, m) := l.build m
    let (vs, m) := buildAll m rest
    (v :: vs, m)

/-- The value by itself; an array comes out without data. -/
def scalar? : Literal → Value
  | .scalar v => v
  | .null | .array .. => .array {}
  | .register _ => .undefined

end Literal
end ScriptVm
