import ScriptVm.Heap.Memory
import ScriptVm.Value.Arithmetic

/-! Reading and writing array values. A write through a value that is no array makes it one. `copy`
says whether shared data is split before it is written; `owner` is the node of what contains the value
that is written through. -/

namespace ScriptVm

/-- A place in an array: row, then column. -/
abbrev Cell := Nat × Nat

namespace Memory

/-- The handle of an array value; any other value gives way to a handle without data. -/
def handleOf : Value → Handle
  | .array h => h
  | _ => {}

/-- Opens the data behind a value for writing: where it lies, the value afterwards, the memory. -/
def openForWrite (m : Memory) (v : Value) (copy : Bool) (owner : Option NodeId) :
    Address × Value × Memory :=
  let h := handleOf v
  let (a, h, m) := if copy then m.openPrivate h owner else m.openShared h owner
  (a, .array h, m)

def ensureArray (m : Memory) (v : Value) (owner : Option NodeId) : Value × Memory :=
  let (_, v, m) := m.openForWrite v false owner
  (v, m)

def growAt (m : Memory) (a : Address) (cell : Cell) : Memory :=
  { m with heap := m.heap.modify a fun b => { b with rows := b.rows.grow cell.1 cell.2 } }

def cellAt (m : Memory) (a : Address) (cell : Cell) : Value :=
  ((m.heap.block? a).bind (·.cell? cell.1 cell.2)).getD .undefined

/-- Puts a value into an existing cell, without a word to the collector or to holders. -/
def putCell (m : Memory) (a : Address) (cell : Cell) (v : Value) : Memory :=
  { m with heap := m.heap.modify a fun b => { b with rows := Rows.set b.rows cell.1 cell.2 v } }

/-- Opens the data for writing and makes sure that the cell exists. -/
def reachCell (m : Memory) (v : Value) (cell : Cell) (copy : Bool) (owner : Option NodeId) :
    Address × Value × Memory :=
  let (a, v, m) := m.openForWrite v copy owner
  (a, v, m.growAt a cell)

/-- Overwrites a cell that `reachCell` opened; what was there is dropped. -/
def overwrite (m : Memory) (a : Address) (cell : Cell) (v : Value) : Memory :=
  let old := m.cellAt a cell
  (m.putCell a cell v).release [old]

/-- Stores a value in a cell and moves the container's edge from the old content to the new. -/
def store (m : Memory) (v : Value) (cell : Cell) (new : Value) (copy : Bool) (owner : Option NodeId) :
    Value × Memory :=
  let (a, v, m) := m.reachCell v cell copy owner
  let container := (m.heap.block? a).bind (·.node)
  let old := m.node? (m.cellAt a cell)
  let fresh := m.node? new
  let m := m.modifyCollector fun c =>
    (c.removeReference container old).addReference container fresh
  (v, m.overwrite a cell new)

/-- Stores a value at the end of a path of cells, the outermost array first. On the way a cell is
moved out, written through, and put back. -/
def storeNested (m : Memory) (v : Value) (path : List Cell) (new : Value) (copy : Bool)
    (owner : Option NodeId) : Value × Memory :=
  match path with
  | [] => (new, m.release [v])
  | [cell] => m.store v cell new copy owner
  | cell :: rest =>
    let (a, v, m) := m.reachCell v cell copy owner
    let inner := m.cellAt a cell
    let m := m.putCell a cell .undefined
    let (inner, m) := m.storeNested inner rest new copy (m.node? v)
    let m := m.growAt a cell
    (v, m.overwrite a cell inner)

/-- The content of a cell. The caller becomes a holder of it with `share`. -/
def peek (m : Memory) (v : Value) (cell : Cell) : Except Fault Value :=
  match v with
  | .array h =>
    match h.target.bind m.heap.block? with
    | none => .error (.outOfBounds cell.1 cell.2 0 0)
    | some b =>
      match b.cell? cell.1 cell.2 with
      | some content => .ok content
      | none =>
        .error (.outOfBounds cell.1 cell.2 b.rows.size ((b.rows[cell.1]?.map Array.size).getD 0))
  | _ => .error .notAnArray

def peekNested (m : Memory) (v : Value) : List Cell → Except Fault Value
  | [] => .ok v
  | cell :: rest =>
    match m.peek v cell with
    | .ok inner => m.peekNested inner rest
    | .error e => .error e

def height (m : Memory) (v : Value) : Except Fault Nat :=
  match v with
  | .array h => .ok (((h.target.bind m.heap.block?).map (·.rows.size)).getD 0)
  | _ => .error .notAnArray

def rowLength (m : Memory) (v : Value) (row : Nat) : Except Fault Nat :=
  match v with
  | .array h =>
    match (h.target.bind m.heap.block?).bind (·.rows[row]?) with
    | some cells => .ok cells.size
    | none => .error (.undecided s!"length of nonexistent row {row}")
  | _ => .error .notAnArray

/-- Replaces the left operand by the operator's result; on an error it stays. The right operand is
only looked at. -/
def operate (m : Memory) (op : Operator) (v right : Value) : Except Fault Unit × Value × Memory :=
  match op.apply v right with
  | .ok result => (.ok (), result, (m.retain result).release [v])
  | .error e => (.error e, v, m)

end Memory
end ScriptVm
