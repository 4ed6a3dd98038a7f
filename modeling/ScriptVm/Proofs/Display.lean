import ScriptVm.Proofs.Occurrences
import ScriptVm.Proofs.Persistence

/-! Writing values out. The writer keeps the arrays that are being written in its state; it writes a back
reference for an array that is among them, and nothing else depends on them. So it comes to an end on every heap,
with the text of the tree that the value unfolds into, and leaves its state as it found it. -/

namespace ScriptVm

namespace Tree
variable {α : Type}

end Tree

namespace Heap

/-- Writes a value, at most `nesting` arrays inside one another. The state holds the arrays that are being written,
the innermost first. -/
def write (h : Heap) (nesting : Nat) : Value → StateT (List Address) Option String
  | .array k =>
    match k.target with
    | none => return "[]"
    | some a => do
      if a ∈ (← get) then return "[...]"
      match h.block? a, nesting with
      | none, _ => return "[]"
      | some _, 0 => failure
      | some b, nesting + 1 =>
        modifyThe (List Address) (a :: ·)
        let rows ← b.rows.toList.mapM fun row => return Tree.bracket (← row.toList.mapM (h.write nesting))
        modifyThe (List Address) List.tail
        return Tree.bracket rows
  | v => return v.scalarText

end Heap

namespace Memory

/-- An array in its own only cell. -/
example : knot.2.text knot.1 = "[[[...]]]" := by cbv

end Memory
end ScriptVm
