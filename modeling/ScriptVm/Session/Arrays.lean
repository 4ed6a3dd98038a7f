import ScriptVm.Heap.Arrays
import ScriptVm.Session.Literal
import ScriptVm.Stored.Format
import ScriptVm.Value.Order

/-! Scripts over named registers that hold values: the array operations, and the collector beside
them. -/

namespace ScriptVm.ArraySession

structure State where
  memory : Memory := {}
  registers : List (String × Value) := []

namespace State

def get (s : State) (r : String) : Value := (s.registers.lookup r).getD .undefined

/-- Puts a value in a register's place; a new register comes last. -/
def setIn : List (String × Value) → String → Value → List (String × Value)
  | [], r, v => [(r, v)]
  | (name, old) :: rest, r, v => if name = r then (r, v) :: rest else (name, old) :: setIn rest r v

/-- Moves a value into a register; what was there must have moved out. -/
def put (s : State) (r : String) (v : Value) : State := { s with registers := setIn s.registers r v }

def assign (s : State) (r : String) (v : Value) : State :=
  let old := s.get r
  let s := s.put r v
  { s with memory := s.memory.release [old] }

def node? (s : State) (r : String) : Option NodeId := s.memory.node? (s.get r)

end State

/-- An operation on the value of one register. -/
inductive Operation where
  | store (cell : Cell) (value : Literal)
  /-- Looks at a cell as a place to write and, if a value is given, overwrites it there. -/
  | reach (cell : Cell) (value : Option Literal)
  | peek (cell : Cell)
  | storeNested (path : List Cell) (value : Literal)
  | peekNested (path : List Cell)
  | ensure
  | height
  | rowLength (row : Nat)
  | row (row : Nat)
  | root
  | unroot
  | display
  | summary
  | isRoot
  | references
  | selfEqual
  | compare (value : Literal)
  | operate (op : Operator) (value : Literal)
  | condition
  | stored

structure Options where
  copy : Bool := true
  owner : Option String := none
  tracked : Bool := true

inductive Step where
  | set (r : String) (value : Literal)
  | move (r source : String)
  | drop (r : String)
  | collect (roots : List String)
  | integrity
  | dump
  | load (r : String) (bytes : List UInt8)
  | apply (r : String) (options : Options) (operation : Operation)

/-- What the collector knows of a register's node. -/
structure NodeState where
  live : Bool
  root : Bool
  edges : Edges

inductive Reply where
  | nothing
  | count (n : Nat)
  | flag (b : Bool)
  | sound
  | mismatch (e : EdgeMismatch)
  | fault (f : Fault)
  | value (v : Snapshot)
  | cells (vs : List Snapshot)
  | shown (v : Snapshot) (text : String) (summary : Option String)
  | text (s : String)
  | edges (es : Edges)
  | identity (self clone : Bool)
  | comparison (c : Comparison)
  | bytes (bs : Option (List UInt8))
  | dump (registers : List (String × Snapshot × Option NodeState))

namespace State

def nodeState? (s : State) (v : Value) : Option NodeState := do
  let c ← s.memory.collector
  let id ← s.memory.node? v
  return { live := c.contains id, root := c.isRoot id, edges := c.references id }

def dump (s : State) : Reply :=
  .dump (s.registers.map fun (name, v) => (name, s.memory.snapshot v, s.nodeState? v))

def nodeSummary : Option NodeId → String
  | some id => s!"Some(NodeId \x7b index: {id.index}, generation: {id.generation.toNat} \x7d)"
  | none => "None"

def blockSummary (b : Block) : String :=
  s!"ArrayData \x7b height: {b.rows.size}, node: {nodeSummary b.node} \x7d"

def found (m : Memory) : Except Fault Value → Reply
  | .ok v => .value (m.snapshot v)
  | .error f => .fault f

/-- Writes a cell of `v` through `reachCell`: the cell before, then the new value in it. -/
def reach (m : Memory) (v : Value) (cell : Cell) (options : Options) (owner : Option NodeId)
    (new : Option Value) : Value × Memory × Reply :=
  let ((a, v), m) := m.trackedIf options.tracked fun m =>
    let (a, v, m) := m.reachCell v cell options.copy owner
    ((a, v), m)
  let reply := .value (m.snapshot (m.cellAt a cell))
  match new with
  | some new => (v, m.overwrite a cell new, reply)
  | none => (v, m, reply)

/-- Builds the value an operation is given, before the register is touched. -/
def argument (s : State) : Operation → Option Value × Memory
  | .store _ l | .storeNested _ l | .compare l | .operate _ l | .reach _ (some l) =>
    let (v, m) := l.build s.memory s.get
    (some v, m)
  | _ => (none, s.memory)

/-- One operation on a value that has been taken out of its register: the value to put back, the
memory and the reply. -/
def perform (m : Memory) (v : Value) (options : Options) (owner : Option NodeId) (given : Option Value) :
    Operation → Value × Memory × Reply
  | .store cell _ =>
    let (v, m) := m.trackedIf options.tracked
      (·.store v cell (given.getD .undefined) options.copy owner)
    (v, m, .nothing)
  | .reach cell _ => reach m v cell options owner given
  | .peek cell => (v, m, found m (m.peek v cell))
  | .storeNested path _ =>
    let (v, m) := m.trackedIf options.tracked
      (·.storeNested v path (given.getD .undefined) options.copy owner)
    (v, m, .nothing)
  | .peekNested path => (v, m, found m (m.peekNested v path))
  | .ensure =>
    let (v, m) := m.trackedIf options.tracked (·.ensureArray v owner)
    (v, m, .nothing)
  | .height => (v, m, match m.height v with | .ok n => .count n | .error f => .fault f)
  | .rowLength row => (v, m, match m.rowLength v row with | .ok n => .count n | .error f => .fault f)
  | .row row =>
    let cells := ((v.target?.bind m.heap.block?).bind (·.rows[row]?)).map (·.toList.map m.snapshot)
    (v, m, match cells with | some cells => .cells cells | none => .nothing)
  | .root =>
    let (v, m) := m.trackedIf options.tracked (·.makeRoot v)
    (v, m, .flag (Memory.handleOf v).rooted)
  | .unroot =>
    let (v, m) := m.trackedIf options.tracked (·.releaseRoot v)
    (v, m, .flag (Memory.handleOf v).rooted)
  | .display =>
    let summary := match v with
      | .array ⟨none, _⟩ => some "ArrayHandle(null)"
      | _ => none
    (v, m, .shown (m.snapshot v) (m.text v) summary)
  | .summary =>
    (v, m, match v.target?.bind m.heap.block? with | some b => .text (blockSummary b) | none => .nothing)
  | .isRoot =>
    (v, m, match m.collector, m.node? v with | some c, some id => .flag (c.isRoot id) | _, _ => .nothing)
  | .references =>
    (v, m, match m.collector, m.node? v with
      | some c, some id => .edges (c.references id)
      | _, _ => .nothing)
  | .selfEqual => (v, m, .identity v.equalsSelf (v.equals v.share))
  | .compare _ =>
    let other := given.getD .undefined
    (v, m.release [other], .comparison (v.comparison other))
  | .operate op _ =>
    let other := given.getD .undefined
    let (outcome, v, m) := m.operate op v other
    let m := m.release [other]
    (v, m, match outcome with | .ok () => .value (m.snapshot v) | .error f => .fault f)
  | .condition => (v, m, match v.condition with | .ok b => .flag b | .error f => .fault f)
  | .stored => (v, m, .bytes (m.stored? v))

def step (s : State) : Step → State × Reply
  | .set r l =>
    let (v, memory) := l.build s.memory s.get
    ({ s with memory }.assign r v, .nothing)
  | .move r source =>
    let v := s.get source
    let s := if (s.registers.lookup source).isSome then s.put source .undefined else s
    (s.assign r v, .nothing)
  | .drop r =>
    ({ memory := s.memory.release [s.get r]
       registers := s.registers.filter fun (name, _) => name != r }, .nothing)
  | .collect roots =>
    let (taken, memory) := s.memory.collect (roots.filterMap s.node?)
    ({ s with memory }, match taken with | some n => .count n | none => .nothing)
  | .integrity =>
    (s, match s.memory.collector, s.memory.integrityCheck with
      | none, _ => .nothing
      | some _, .ok () => .sound
      | some _, .error e => .mismatch e)
  | .dump => (s, s.dump)
  | .load r bytes =>
    match s.memory.load bytes with
    | (.ok (v, _), memory) => ({ s with memory }.assign r v, .nothing)
    | (.error f, memory) => ({ s with memory }, .fault f)
  | .apply r options operation =>
    let owner := options.owner.bind s.node?
    let (given, memory) := s.argument operation
    let (v, memory, reply) := perform memory (s.get r) options owner given operation
    ({ s with memory }.put r v, reply)

/-- Runs the steps and gives for each the reply and the number of nodes; a dump comes last. -/
def run (s : State) : List Step → List (Reply × Option Nat)
  | [] => [(s.dump, s.memory.nodeCount?)]
  | step :: steps =>
    let (s, reply) := s.step step
    (reply, s.memory.nodeCount?) :: s.run steps

end State

def start (collected : Bool) : State :=
  { memory := { collector := if collected then some {} else none } }

end ScriptVm.ArraySession
