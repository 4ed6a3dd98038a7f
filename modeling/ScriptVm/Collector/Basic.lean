import ScriptVm.Collector.Edges

/-! A stop-the-world mark-and-sweep collector over an explicit graph. It never looks into a payload:
owners report their edges, and a pass keeps what the recorded edges reach from the roots. -/

namespace ScriptVm

structure Node (π : Type) where
  roots : Nat := 0
  marked : Bool := false
  edges : Edges := []
  payload : π

inductive Slot (π : Type) where
  | occupied (generation : UInt32) (node : Node π)
  /-- The generation its next node will have. -/
  | vacant (next : UInt32)

structure CollectorStats where
  constructed : Nat := 0
  passes : Nat := 0
  reclaimed : Nat := 0
deriving DecidableEq, Repr

structure Collector (π : Type) where
  slots : Array (Slot π) := #[]
  /-- Vacant slots, the one freed last in front. -/
  free : List Nat := []
  live : Nat := 0
  stats : CollectorStats := {}

namespace Slot
variable {π : Type}

def isUnmarked : Slot π → Bool
  | .occupied _ node => !node.marked
  | .vacant _ => false

/-- The payload of a node that a sweep takes: neither marked nor a root. -/
def condemned? : Slot π → Option π
  | .occupied _ node => if node.marked || 0 < node.roots then none else some node.payload
  | .vacant _ => none

/-- The slot after a sweep: a survivor loses its mark, a condemned node leaves a vacancy. -/
def swept : Slot π → Slot π
  | .occupied generation node =>
    if node.marked || 0 < node.roots then .occupied generation { node with marked := false }
    else .vacant (generation + 1)
  | .vacant next => .vacant next

end Slot

namespace Collector
variable {π : Type}

def node? (c : Collector π) (id : NodeId) : Option (Node π) :=
  match c.slots[id.index]? with
  | some (.occupied generation node) => if generation = id.generation then some node else none
  | _ => none

/-- Changes a live node; an id that is no longer live changes nothing. -/
def modifyNode (c : Collector π) (id : NodeId) (f : Node π → Node π) : Collector π :=
  { c with
    slots := c.slots.modify id.index fun
      | .occupied generation node =>
        if generation = id.generation then .occupied generation (f node) else .occupied generation node
      | slot => slot }

/-- A new node without edges: in the slot freed last, else in a new one. -/
def construct (c : Collector π) (payload : π) : NodeId × Collector π :=
  let stats := { c.stats with constructed := c.stats.constructed + 1 }
  match c.free with
  | index :: free =>
    let generation :=
      match c.slots[index]? with
      | some (.vacant next) => next
      | some (.occupied generation _) => generation + 1
      | none => 0
    (⟨index, generation⟩,
      { c with
        slots := c.slots.setIfInBounds index (.occupied generation { payload := payload })
        free, live := c.live + 1, stats })
  | [] =>
    (⟨c.slots.size, 0⟩,
      { c with slots := c.slots.push (.occupied 0 { payload := payload }), live := c.live + 1, stats })

def contains (c : Collector π) (id : NodeId) : Bool := (c.node? id).isSome

def makeRoot (c : Collector π) (id : NodeId) : Collector π :=
  c.modifyNode id fun node => { node with roots := node.roots + 1 }

def removeRoot (c : Collector π) (id : NodeId) : Collector π :=
  c.modifyNode id fun node => { node with roots := node.roots - 1 }

def isRoot (c : Collector π) (id : NodeId) : Bool := (c.node? id).any (0 < ·.roots)

/-- Records an edge. A missing end or a target that is no longer live makes it void. -/
def addReference (c : Collector π) (source target : Option NodeId) : Collector π :=
  match source, target with
  | some source, some target =>
    if c.contains target then
      c.modifyNode source fun node => { node with edges := node.edges.add target }
    else c
  | _, _ => c

def removeReference (c : Collector π) (source target : Option NodeId) : Collector π :=
  match source, target with
  | some source, some target =>
    c.modifyNode source fun node => { node with edges := node.edges.remove target }
  | _, _ => c

def referenceCount (c : Collector π) (source target : NodeId) : Nat :=
  ((c.node? source).map (·.edges.weight target)).getD 0

def references (c : Collector π) (id : NodeId) : Edges := ((c.node? id).map (·.edges)).getD []

def rootAt? (c : Collector π) (index : Nat) : Option NodeId :=
  match c.slots[index]? with
  | some (.occupied generation node) => if 0 < node.roots then some ⟨index, generation⟩ else none
  | _ => none

def rootIds (c : Collector π) : List NodeId := (List.range c.slots.size).filterMap c.rootAt?

def unmarked (c : Collector π) : Nat := c.slots.countP Slot.isUnmarked

/-- Marks all that the work list reaches. Each step either shortens the list or marks a node. -/
def mark (c : Collector π) (work : List NodeId) : Collector π :=
  match work with
  | [] => c
  | id :: rest =>
    if inside : id.index < c.slots.size then
      match found : c.slots[id.index] with
      | .occupied generation node =>
        if fresh : generation = id.generation ∧ node.marked = false then
          mark
            { c with slots := c.slots.set id.index (.occupied generation { node with marked := true }) }
            (node.edges.targets ++ rest)
        else mark c rest
      | .vacant _ => mark c rest
    else mark c rest
termination_by (c.unmarked, work.length)
decreasing_by
  · apply Prod.Lex.left
    have here : Slot.isUnmarked c.slots[id.index] = true := by simp [found, Slot.isUnmarked, fresh.2]
    have some : 0 < c.slots.countP Slot.isUnmarked :=
      Array.countP_pos_iff.2 ⟨_, Array.getElem_mem inside, here⟩
    have gone : Slot.isUnmarked (.occupied generation { node with marked := true }) = false := rfl
    simp only [unmarked, Array.countP_set, here, gone, if_true]
    simp only [Bool.false_eq_true, if_false]
    omega
  all_goals exact Prod.Lex.right _ (by simp)

/-- Takes every node that is neither marked nor a root, in slot order, and clears the marks. -/
def sweep (c : Collector π) : Collector π × List π :=
  let condemned := c.slots.toList.filterMap Slot.condemned?
  let vacated := (List.range c.slots.size).filter fun index =>
    (c.slots[index]?.bind Slot.condemned?).isSome
  ({ c with
      slots := c.slots.map Slot.swept
      free := vacated.reverse ++ c.free
      live := c.live - condemned.length },
    condemned)

/-- A full pass with further roots: what it takes, in slot order, and the collector afterwards. -/
def collect (c : Collector π) (extra : List NodeId) : Collector π × List π :=
  let (c, condemned) := (c.mark (c.rootIds ++ extra)).sweep
  ({ c with
      stats := { c.stats with
        passes := c.stats.passes + 1
        reclaimed := c.stats.reclaimed + condemned.length } },
    condemned)

end Collector

/-- What a payload is told when its node is taken. -/
inductive Hook (π : Type) where
  | cleanup (payload : π)
  | delete (payload : π)

/-- The hooks of a pass: all the cleanups, then all the deletions. -/
def Hook.sequence {π : Type} (condemned : List π) : List (Hook π) :=
  condemned.map .cleanup ++ condemned.map .delete

/-- The first edge of a node that disagrees with what its payload holds. -/
def Node.mismatch? {π : Type} (node : Node π) (id : NodeId) (held : List NodeId) :
    Option EdgeMismatch :=
  match node.edges.find? (fun (target, n) => held.count target != n) with
  | some (target, n) => some ⟨id, target, n, held.count target⟩
  | none =>
    match held.find? (fun target => node.edges.weight target == 0) with
    | some target => some ⟨id, target, 0, held.count target⟩
    | none => none

namespace Collector
variable {π : Type}

/-- The disagreement in one slot. A payload whose data is gone holds `none` and is passed over. -/
def mismatchAt? (c : Collector π) (held : π → Option (List NodeId)) (index : Nat) :
    Option EdgeMismatch :=
  match c.slots[index]? with
  | some (.occupied generation node) =>
    (held node.payload).bind (node.mismatch? ⟨index, generation⟩)
  | _ => none

/-- Compares the recorded edges with what the payloads hold and reports the first disagreement in
slot order. -/
def integrityCheck (c : Collector π) (held : π → Option (List NodeId)) : Except EdgeMismatch Unit :=
  match (List.range c.slots.size).findSome? (c.mismatchAt? held) with
  | some mismatch => .error mismatch
  | none => .ok ()

def summary (c : Collector π) : String :=
  s!"Collector \x7b live: {c.live}, slots: {c.slots.size}, stats: CollectorStats \x7b " ++
    s!"constructed: {c.stats.constructed}, passes: {c.stats.passes}, " ++
    s!"reclaimed: {c.stats.reclaimed} \x7d \x7d"

end Collector
end ScriptVm
