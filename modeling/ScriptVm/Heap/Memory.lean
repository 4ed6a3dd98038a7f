import ScriptVm.Collector.Basic
import ScriptVm.Heap.Basic

/-! Heap and collector together. Tracked array data has a node, and each array in one of its cells is
recorded as an edge between the two nodes. Counting holders alone cannot free arrays that contain each
other; a collector pass empties the rows of data no root reaches. -/

namespace ScriptVm

/-- What a collector node stands for. -/
inductive Tracked where
  | array (a : Address)
  /-- An object of the host that owns arrays through its variables. -/
  | owner
deriving DecidableEq, Repr

structure Memory where
  heap : Heap := {}
  collector : Option (Collector Tracked) := none

namespace Memory

def retain (m : Memory) (v : Value) : Memory := { m with heap := m.heap.retain v }

def release (m : Memory) (vs : List Value) : Memory := { m with heap := m.heap.release vs }

def share (m : Memory) (v : Value) : Value × Memory := (v.share, m.retain v)

def node? (m : Memory) (v : Value) : Option NodeId := m.heap.node? v

def modifyCollector (m : Memory) (f : Collector Tracked → Collector Tracked) : Memory :=
  { m with collector := m.collector.map f }

def untracked {α : Type} (m : Memory) (f : Memory → α × Memory) : α × Memory :=
  let (a, changed) := f { m with collector := none }
  (a, { changed with collector := m.collector })

def trackedIf {α : Type} (m : Memory) (tracked : Bool) (f : Memory → α × Memory) : α × Memory :=
  if tracked then f m else m.untracked f

/-- A new node for the data at an address, with an edge for each array in its cells. -/
def register (m : Memory) (a : Address) : Memory :=
  match m.collector with
  | none => m
  | some c =>
    let (id, c) := c.construct (.array a)
    let heap := m.heap.modify a fun b => { b with node := some id }
    let held := ((heap.block? a).map heap.heldNodes).getD []
    { heap, collector := some (held.foldl (fun c target => c.addReference (some id) (some target)) c) }

/-- A new array, which takes the cells over. -/
def newArray (m : Memory) (rows : Rows) : Value × Memory :=
  let (a, heap) := m.heap.alloc rows
  (.array { target := some a }, { m with heap }.register a)

/-- The new node of an allocation takes its place beside the owner and as a root. -/
def anchor (m : Memory) (h : Handle) (owner : Option NodeId) (a : Address) : Memory :=
  let id := (m.heap.block? a).bind (·.node)
  let m := m.modifyCollector (·.addReference owner id)
  match h.rooted, id with
  | true, some id => m.modifyCollector (·.makeRoot id)
  | _, _ => m

/-- The data of a handle for writing through all that share it; a handle without data gets some. -/
def openShared (m : Memory) (h : Handle) (owner : Option NodeId) : Address × Handle × Memory :=
  match h.target with
  | some a => (a, h, m)
  | none =>
    let (a, heap) := m.heap.alloc #[]
    let m := { m with heap }.register a
    (a, { h with target := some a }, m.anchor h owner a)

/-- A private copy of the data behind a handle. A copy of tracked data is tracked, and what pointed
at the old node for this handle's sake, its owner's edge and its root, moves to the new one. -/
def split (m : Memory) (h : Handle) (owner : Option NodeId) (old : Address) (b : Block) :
    Address × Handle × Memory :=
  let heap := b.cells.foldl Heap.retain m.heap
  let (a, heap) := heap.alloc (b.rows.map (·.map Value.share))
  let m := { m with heap }
  let m :=
    match b.node with
    | none => m
    | some id =>
      let m := (m.register a).modifyCollector (·.removeReference owner (some id))
      let m := if h.rooted then m.modifyCollector (·.removeRoot id) else m
      m.anchor h owner a
  (a, { h with target := some a }, m.release [.array { target := some old }])

/-- The data of a handle for writing through this handle alone: shared data is split first. -/
def openPrivate (m : Memory) (h : Handle) (owner : Option NodeId) : Address × Handle × Memory :=
  match h.target with
  | none => m.openShared h owner
  | some a =>
    match m.heap.block? a with
    | some b => if 1 < b.holders then m.split h owner a b else (a, h, m)
    | none => (a, h, m)

def rootHandle (m : Memory) (h : Handle) : Handle × Memory :=
  if h.rooted then (h, m)
  else
    match m.node? (.array h) with
    | some id => ({ h with rooted := true }, m.modifyCollector (·.makeRoot id))
    | none => ({ h with rooted := true }, m)

def unrootHandle (m : Memory) (h : Handle) : Handle × Memory :=
  if h.rooted then
    match m.node? (.array h) with
    | some id => ({ h with rooted := false }, m.modifyCollector (·.removeRoot id))
    | none => ({ h with rooted := false }, m)
  else (h, m)

/-- Makes an array value a root; does nothing for other values or without a collector. -/
def makeRoot (m : Memory) (v : Value) : Value × Memory :=
  match m.collector, v with
  | some _, .array h => let (h, m) := m.rootHandle h; (.array h, m)
  | _, v => (v, m)

def releaseRoot (m : Memory) (v : Value) : Value × Memory :=
  match m.collector, v with
  | some _, .array h => let (h, m) := m.unrootHandle h; (.array h, m)
  | _, v => (v, m)

/-- What a hook of the collector does to the heap: cleanup unties the data from its node, deletion
empties its rows. Data that is gone has nothing to do. -/
def runHook (heap : Heap) : Hook Tracked → Heap
  | .cleanup (.array a) => heap.modify a fun b => { b with node := none }
  | .delete (.array a) =>
    match heap.block? a with
    | some b => (heap.modify a fun b => { b with rows := #[] }).release b.cells
    | none => heap
  | _ => heap

/-- A collector pass with further roots, and the number of nodes it took. -/
def collect (m : Memory) (extra : List NodeId) : Option Nat × Memory :=
  match m.collector with
  | none => (none, m)
  | some c =>
    let (c, condemned) := c.collect extra
    (some condemned.length,
      { heap := (Hook.sequence condemned).foldl runHook m.heap, collector := some c })

/-- The nodes that a tracked thing holds; none for data that is gone and for the host's objects. -/
def heldBy (heap : Heap) : Tracked → Option (List NodeId)
  | .array a => (heap.block? a).map heap.heldNodes
  | .owner => none

def integrityCheck (m : Memory) : Except EdgeMismatch Unit :=
  match m.collector with
  | some c => c.integrityCheck (heldBy m.heap)
  | none => .ok ()

def nodeCount? (m : Memory) : Option Nat := m.collector.map (·.live)

end Memory
end ScriptVm
