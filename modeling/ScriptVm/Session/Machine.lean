import ScriptVm.Machine.Summary
import ScriptVm.Session.Executor
import ScriptVm.Session.Natives

/-! Scripts over a whole machine. -/

namespace ScriptVm.MachineSession

inductive Step where
  | create (object : Int64)
  | destroy (id : InstanceId)
  | cleanup (tracked : Bool)
  | builtin (id : InstanceId) (slot : VariableId) (value : Literal)
  | setSelf (id : Option InstanceId)
  | setOther (id : Option InstanceId)
  /-- Writes a global without a word to the collector. -/
  | setGlobal (slot : VariableId) (value : Literal)
  | push (value : Literal)
  /-- Empties the operand stack. -/
  | clear
  | reset
  /-- Loads a section behind the others, or at an index. -/
  | load (home : Except CodeError Section) (index : Option UInt32)
  | call (index : UInt32) (arguments : List Literal)
  | execute (index : UInt32) (ready : Bool)
  | resume
  | collect
  | integrity
  | stats
  | state
  | trace
  | suspended
  | attach (script : Option Script)
  | detach
  | globals (ids : List VariableId)
  | fields (id : InstanceId) (ids : List VariableId)
  | resolve (ids : List Int64)
  | all
  | invoke (index : UInt32) (arguments : List Literal)
  | find (name : String)
  | executorSummary
  | machineSummary
  | listing (index : UInt32)
  | config

structure InstanceView where
  id : InstanceId
  object : Int64
  active : Bool
  /-- Those that are unset have no value. -/
  fields : List (Option Snapshot)
  builtins : List (Except Fault Snapshot)
  node : Option (NodeId × Edges)

inductive Reply where
  | nothing
  | id (id : InstanceId)
  | ids (ids : List InstanceId)
  | count (n : Nat)
  | flag (b : Bool)
  | text (s : String)
  | sound
  | fault (f : Fault)
  | codeError (e : CodeError)
  | call (outcome : Except Failure CallReply)
  | executed (outcome : Except Failure CallReply)
  | stats (s : Option CollectorStats)
  | state (v : ExecutorView)
  | globals (vs : List (Snapshot × String))
  | instanceView (v : Option InstanceView)
  | owners (os : List Owner)
  | invoked (signature : Signature) (result : Except Fault (Option Snapshot))
  | found (index : Option Nat) (size : Nat)

/-- Runs a piece of execution that cannot fail. -/
def update {α : Type} (f : Core → α × Core) : Host α :=
  Program.state fun m =>
    let (a, core) := f m.core
    (a, { m with core })

def modifyCore (f : Core → Core) : Host Unit := Program.modify (·.modifyCore f)

def modifyExecutor (f : Executor → Executor) : Host Unit :=
  modifyCore fun c => { c with executor := f c.executor }

def buildAll (ls : List Literal) : Host (List Value) := update fun c =>
  let (vs, memory) := Literal.buildAll c.memory ls
  (vs, { c with memory })

def build (l : Literal) : Host Value := update fun c =>
  let (v, memory) := l.build c.memory
  (v, { c with memory })

/-- Reads globals, which creates the missing ones. -/
def readGlobals (c : Core) (ids : List VariableId) : List (Snapshot × String) × Core :=
  let globals := ids.foldl Variables.touch c.world.globals
  let shown := ids.map fun id =>
    (c.memory.snapshot (globals.get id), c.memory.text (globals.get id))
  (shown, { c with world := { c.world with globals } })

def viewInstance (c : Core) (id : InstanceId) (ids : List VariableId) : Option InstanceView :=
  (c.world.instance? id).map fun i =>
    { id := i.id
      object := i.object
      active := i.active
      fields := ids.map fun id => (i.fields.get? id).map c.memory.snapshot
      builtins := ids.map fun id => (c.world.builtin i id).map c.memory.snapshot
      node := i.node.map fun node => (node, (c.memory.collector.map (·.references node)).getD []) }

def loadSection (c : Core) (home : Except CodeError Section) (index : Option UInt32) :
    Reply × Core :=
  match home, index with
  | .error e, _ => (.codeError e, c)
  | .ok s, none =>
    let (index, sections) := c.sections.add s
    (.count index.toNat, { c with sections })
  | .ok s, some index =>
    let sections := c.sections.insert index s
    (.count sections.size, { c with sections })

/-- Calls a native by hand. The arguments are there first, also for a native that is not. -/
def invoke (env : Environment Debugger Note) (index : UInt32) (arguments : List Literal) :
    Host Reply := do
  let vs ← buildAll arguments
  match env.native? index with
  | none =>
    drop vs
    return .fault (.noNative index)
  | some native =>
    let result ← native.invoke vs
    let reply ← match result with
      | .error f => pure (.error f)
      | .ok none => pure (.ok none)
      | .ok (some v) =>
        let shown ← Program.read fun m => m.core.memory.snapshot v
        drop [v]
        pure (.ok (some shown))
    drop vs
    return .invoked native.signature reply

def Step.perform (env : Environment Debugger Note) : Step → Host Reply
  | .create object => update fun c =>
    let (id, world, memory) := c.world.create c.memory object
    (.id id, { c with world, memory })
  | .destroy id => do
    modifyCore fun c => { c with world := c.world.destroy id }
    return .nothing
  | .cleanup tracked => do
    match ← exec (MachineSession.cleanup tracked) with
    | .ok n => return .count n
    | .error f => return .fault f
  | .builtin id slot l => do
    let v ← build l
    modifyCore fun c =>
      let (world, memory) := c.world.defineBuiltin c.memory id slot v
      { c with world, memory }
    return .nothing
  | .setSelf id => do
    modifyExecutor fun e => { e with self := id }
    return .nothing
  | .setOther id => do
    modifyExecutor fun e => { e with other := id }
    return .nothing
  | .setGlobal slot l => do
    let v ← build l
    modifyCore fun c => { c with
      memory := c.memory.release [c.world.globals.get slot]
      world := { c.world with globals := c.world.globals.set slot v } }
    return .nothing
  | .push l => do
    let v ← build l
    modifyExecutor (·.push v)
    return .nothing
  | .clear => do
    modifyCore fun c => { c with
      memory := c.memory.release c.executor.stack.toList
      executor := { c.executor with stack := #[] } }
    return .nothing
  | .reset => do
    modifyCore Core.reset
    return .nothing
  | .load home index => update fun c => loadSection c home index
  | .call index arguments => do
    let vs ← buildAll arguments
    let outcome ← callAndShow (.call index vs)
    drop vs
    return .call outcome
  | .execute index ready => return .executed (← callAndShow (.execute index ready))
  | .resume => return .call (← callAndShow .resume)
  | .collect => update fun c =>
    let (n, c) := c.collect
    (.count n, c)
  | .integrity => Program.read fun m =>
    match m.core.memory.integrityCheck with
    | .ok () => .sound
    | .error e => .fault (.edges e)
  | .stats => Program.read fun m => .stats (m.core.memory.collector.map (·.stats))
  | .state => Program.read fun m => .state m.core.view
  | .trace => Program.read fun m => .text m.core.trace.text
  | .suspended => Program.read fun m => .flag m.suspended.isSome
  | .attach script => do
    Program.modify (·.attach { script := script })
    Program.read fun m => .flag m.hasDebugger
  | .detach => do
    Program.modify (·.detach)
    Program.read fun m => .flag m.hasDebugger
  | .globals ids => update fun c =>
    let (shown, c) := readGlobals c ids
    (.globals shown, c)
  | .fields id ids => Program.read fun m => .instanceView (viewInstance m.core id ids)
  | .resolve ids => Program.read fun m => .owners (ids.map m.core.world.resolve)
  | .all => Program.read fun m => .ids m.core.world.all
  | .invoke index arguments => MachineSession.invoke env index arguments
  | .find name => return .found (env.natives.findIdx? (·.name == name)) env.natives.size
  | .executorSummary => Program.read fun m => .text m.core.executor.summary
  | .machineSummary => Program.read fun m => .text (m.summary env.natives.size)
  | .listing index => Program.read fun m =>
    match m.core.sections.get index with
    | .error e => .codeError e
    | .ok s =>
      match s.listing env.names with
      | .ok text => .text text
      | .error e => .codeError e
  | .config => Program.read fun m => .text m.core.config.text

structure Record where
  reply : Reply
  journal : List (Event Debugger Note)
  nodes : Option Nat
  stack : Nat

def environment (withNatives : Bool) : Environment Debugger Note :=
  { natives := if withNatives then natives else #[], debugging }

def start (config : Config) (anchoring : Anchoring) (homes : List Section) : Machine Debugger Note :=
  homes.foldl (fun m s => m.modifyCore fun c => { c with sections := (c.sections.add s).2 })
    (Machine.new config { anchoring := anchoring })

/-- Runs the steps, each with the same fuel; stops at a step that does not come to its end. -/
def run (env : Environment Debugger Note) (fuel : Nat) (m : Machine Debugger Note) :
    List Step → List Record
  | [] => []
  | step :: steps =>
    match m.perform env fuel (step.perform env) with
    | none => []
    | some (reply, m) =>
      { reply
        journal := m.journal.toList
        nodes := m.core.memory.nodeCount?
        stack := m.core.executor.stack.size } :: run env fuel { m with journal := #[] } steps

end ScriptVm.MachineSession
