import ScriptVm.Heap.Arrays

/-! Slots: the variables of the host. An array in a slot is anchored, by an edge from the node that
owns the slot or, if no node does, as a root. -/

namespace ScriptVm.Memory

/-- Moves the anchor of a slot from its content to a value that will replace it. -/
def reanchor (m : Memory) (slot : Value) (owner : Option NodeId) (v : Value) : Value × Memory :=
  match owner with
  | some _ =>
    let old := m.node? slot
    let new := m.node? v
    (v, m.modifyCollector fun c => (c.removeReference owner old).addReference owner new)
  | none => (m.releaseRoot slot).2.makeRoot v

/-- Replaces the content of a slot; gives the value as it stands in the slot. -/
def replaceSlot (m : Memory) (slot : Value) (owner : Option NodeId) (v : Value) : Value × Memory :=
  let (v, m) := m.reanchor slot owner v
  (v, m.release [slot])

/-- Stores into a cell of the array in a slot, which becomes an array if it is none. -/
def storeInSlot (m : Memory) (slot : Value) (owner : Option NodeId) (path : List Cell) (v : Value)
    (copy : Bool) : Value × Memory :=
  let slot := Value.array (handleOf slot)
  let (slot, m) := if owner.isNone then m.makeRoot slot else (slot, m)
  m.storeNested slot path v copy owner

end ScriptVm.Memory
