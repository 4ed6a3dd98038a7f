import ScriptVm.World.Basic

/-! Iteration over instances. The set is fixed at the start: instances that are created or destroyed
on the way do not change which ones are visited. -/

namespace ScriptVm

structure Iteration where
  instances : Array InstanceId := #[]
  visited : Nat := 0
deriving DecidableEq, Repr

namespace Iteration

def ofOwner : Owner → Iteration
  | .single id => { instances := #[id] }
  | .multi ids => { instances := ids.toArray }
  | .noone | .global => {}

def size (i : Iteration) : Nat := i.instances.size

def current? (i : Iteration) : Option InstanceId := i.instances[i.visited]?

def isComplete (i : Iteration) : Bool := i.size ≤ i.visited

def advance (i : Iteration) : Iteration := { i with visited := i.visited + 1 }

end Iteration
end ScriptVm
