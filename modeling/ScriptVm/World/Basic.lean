import ScriptVm.Heap.Slot
import ScriptVm.World.Variables

/-! The host's world: its instances, in the order of their creation, and its globals. A destroyed
instance takes no part in sets of instances but can be addressed until the next cleanup. -/

namespace ScriptVm

abbrev InstanceId := UInt32

inductive Owner where
  /-- Nothing: stores are discarded and loads fail. -/
  | noone
  | single (id : InstanceId)
  | multi (ids : List InstanceId)
  | global
deriving DecidableEq, Repr

namespace OwnerId

/-- The id that means the current instance, whichever that is. -/
def self : Int64 := -1

/-- The instance that was current before. -/
def other : Int64 := -2

def all : Int64 := -3

def noone : Int64 := -4

def global : Int64 := -5

end OwnerId

structure Instance where
  id : InstanceId
  /-- The object it is an instance of. -/
  object : Int64
  /-- The variables that programs set, as opposed to the built-in ones. -/
  fields : Variables := {}
  builtins : Variables := {}
  active : Bool := true
  /-- The collector node that owns its arrays. -/
  node : Option NodeId := none
deriving DecidableEq, Repr

/-- How instances keep the arrays in their variables alive. -/
inductive Anchoring where
  /-- Arrays are roots themselves. Built-in variables must be declared and hold no arrays' cells. -/
  | roots
  /-- Each instance has a node, a root, with edges to its arrays. Any built-in variable can be set. -/
  | nodes
deriving DecidableEq, Repr

/-- The first id of an instance; smaller numbers are objects. -/
def Anchoring.firstId : Anchoring → Nat
  | .roots => 100000
  | .nodes => 1000

structure World where
  anchoring : Anchoring := .roots
  instances : List Instance := []
  globals : Variables := {}
  nextId : UInt32 := anchoring.firstId.toUInt32

namespace World

def instance? (w : World) (id : InstanceId) : Option Instance := w.instances.find? (·.id == id)

def modifyInstance (w : World) (id : InstanceId) (f : Instance → Instance) : World :=
  { w with instances := w.instances.map fun i => if i.id = id then f i else i }

def active (w : World) : List Instance := w.instances.filter (·.active)

/-- The active instances, in the order of their creation. -/
def all (w : World) : List InstanceId := w.active.map (·.id)

def ofObject (w : World) (object : Int64) : List InstanceId :=
  (w.active.filter (·.object == object)).map (·.id)

/-- What a number that is no sentinel denotes: an instance, or the instances of an object. -/
def resolve (w : World) (id : Int64) : Owner :=
  let n := id.toInt
  match w.anchoring with
  | .roots =>
    if w.anchoring.firstId ≤ n ∧ n < UInt32.size then
      let id := n.toNat.toUInt32
      if (w.instance? id).isSome then .single id else .noone
    else .multi (w.ofObject id)
  | .nodes =>
    if w.anchoring.firstId ≤ n then .single n.toNat.toUInt32 else .multi (w.ofObject id)

/-- A node of its own for a new instance, which is a root. -/
def newNode (m : Memory) : Option NodeId × Memory :=
  match m.collector with
  | none => (none, m)
  | some c =>
    let (id, c) := c.construct .owner
    (some id, { m with collector := some (c.makeRoot id) })

def create (w : World) (m : Memory) (object : Int64) : InstanceId × World × Memory :=
  let (node, m) := match w.anchoring with
    | .roots => (none, m)
    | .nodes => newNode m
  let id := w.nextId
  (id, { w with instances := w.instances ++ [{ id := id, object, node }], nextId := id + 1 }, m)

def destroy (w : World) (id : InstanceId) : World :=
  w.modifyInstance id fun i => { i with active := false }

def unanchor (anchoring : Anchoring) (m : Memory) (i : Instance) : Memory :=
  match anchoring with
  | .roots => i.fields.values.foldl (fun m v => (m.releaseRoot v).2) m
  | .nodes =>
    match i.node with
    | some id => m.modifyCollector (·.removeRoot id)
    | none => m

/-- Removes the destroyed instances and drops what they held. -/
def cleanup (w : World) (m : Memory) : World × Memory :=
  let gone := w.instances.filter (!·.active)
  let m := gone.foldl (unanchor w.anchoring) m
  ({ w with instances := w.active },
    m.release (gone.flatMap fun i => i.fields.values ++ i.builtins.values))

def builtin (w : World) (i : Instance) (id : VariableId) : Except Fault Value :=
  match i.builtins.get? id, w.anchoring with
  | some v, _ => .ok v
  | none, .roots => .error (.unknownBuiltin id)
  | none, .nodes => .error (.raised .misc s!"no builtin {id.toNat}")

def builtinCell (w : World) (m : Memory) (i : Instance) (id : VariableId) (cell : Cell) :
    Except Fault Value :=
  match w.anchoring with
  | .roots => .error (.builtinNotArray id)
  | .nodes => do m.peek (← w.builtin i id) cell

/-- Whether a built-in variable of the instance can be set. -/
def admitsBuiltin (w : World) (i : Instance) (id : VariableId) : Bool :=
  w.anchoring == .nodes || (i.builtins.get? id).isSome

/-- Sets a built-in variable; the value moves in, or is dropped. -/
def setBuiltin (w : World) (m : Memory) (i : Instance) (id : VariableId) (v : Value) :
    Except Fault Unit × World × Memory :=
  if w.admitsBuiltin i id then
    (.ok (), w.modifyInstance i.id fun i => { i with builtins := i.builtins.set id v },
      m.release [i.builtins.get id])
  else (.error (.unknownBuiltin id), w, m.release [v])

/-- Stores into a cell of a built-in variable. The collector hears nothing of it. -/
def storeBuiltinCell (w : World) (m : Memory) (i : Instance) (id : VariableId) (cell : Cell)
    (v : Value) : Except Fault Unit × World × Memory :=
  match w.anchoring with
  | .roots => (.error (.builtinNotArray id), w, m.release [v])
  | .nodes =>
    let (slot, m) := m.untracked (·.store (i.builtins.get id) cell v true none)
    (.ok (), w.modifyInstance i.id fun i => { i with builtins := i.builtins.set id slot }, m)

def defineBuiltin (w : World) (m : Memory) (instanceId : InstanceId) (id : VariableId) (v : Value) :
    World × Memory :=
  match w.instance? instanceId with
  | some i =>
    (w.modifyInstance instanceId fun i => { i with builtins := i.builtins.set id v },
      m.release [i.builtins.get id])
  | none => (w, m.release [v])

end World
end ScriptVm
