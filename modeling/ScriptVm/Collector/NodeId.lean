/-! Names of collector nodes. A slot of the arena is used again after its node was reclaimed; the
generation tells the later node from the earlier one. -/

namespace ScriptVm

structure NodeId where
  index : Nat
  generation : UInt32
deriving DecidableEq, Inhabited, Repr

namespace NodeId

/-- Slot and generation, as in `#3v1`. -/
def text (id : NodeId) : String := s!"#{id.index}v{id.generation.toNat}"

/-- By slot, then by generation. -/
def before (a b : NodeId) : Bool :=
  a.index < b.index || (a.index == b.index && a.generation < b.generation)

end NodeId

/-- A recorded edge whose multiplicity differs from what the payload holds. -/
structure EdgeMismatch where
  node : NodeId
  target : NodeId
  recorded : Nat
  observed : Nat
deriving DecidableEq, Repr

def EdgeMismatch.message (e : EdgeMismatch) : String :=
  s!"Integrity check failed on node {e.node.text}: records {e.recorded} reference(s) to " ++
    s!"{e.target.text}, payload holds {e.observed}"

end ScriptVm
