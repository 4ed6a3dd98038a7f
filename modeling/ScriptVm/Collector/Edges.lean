import ScriptVm.Collector.NodeId

/-! Weighted edges of one node, in the order of their targets, each with its multiplicity. -/

namespace ScriptVm

abbrev Edges := List (NodeId × Nat)

namespace Edges

/-- How often the target is recorded. -/
def weight : Edges → NodeId → Nat
  | [], _ => 0
  | (id, n) :: rest, target => if id = target then n else weight rest target

def add : Edges → NodeId → Edges
  | [], target => [(target, 1)]
  | (id, n) :: rest, target =>
    if id = target then (id, n + 1) :: rest
    else if target.before id then (target, 1) :: (id, n) :: rest
    else (id, n) :: add rest target

/-- One edge less to the target; the last one takes the entry away. -/
def remove : Edges → NodeId → Edges
  | [], _ => []
  | (id, n) :: rest, target =>
    if id = target then
      if n ≤ 1 then rest else (id, n - 1) :: rest
    else (id, n) :: remove rest target

def targets (edges : Edges) : List NodeId := edges.map (·.1)

end Edges
end ScriptVm
