import ScriptVm.Collector.Basic

/-! Scripts over a collector alone. Nodes are named by numbers in the order of their making, and the
hooks that are called are written to a log. -/

namespace ScriptVm

/-- Two hooks that run at most once each. -/
structure PendingHooks where
  cleanup : Bool := true
  delete : Bool := true
deriving DecidableEq

namespace PendingHooks

def clean (p : PendingHooks) : PendingHooks := { p with cleanup := false }

def summary (p : PendingHooks) : String :=
  s!"CallbackPayload \x7b cleanup_pending: {p.cleanup}, delete_pending: {p.delete} \x7d"

end PendingHooks

namespace CollectorSession

inductive SubjectKind where
  /-- Two logging hooks and nothing held. -/
  | callback
  /-- Holds a list of nodes and logs its hooks. -/
  | holder
  /-- Holds nothing and logs nothing. -/
  | plain
deriving DecidableEq

structure Subject where
  kind : SubjectKind
  id : NodeId
  held : List NodeId := []
  detached : Bool := false

structure State where
  collector : Collector Nat := {}
  subjects : Array Subject := #[]

inductive Step where
  | node (kind : SubjectKind)
  | root (n : Nat)
  | unroot (n : Nat)
  | addReference (a b : Option Nat)
  | removeReference (a b : Option Nat)
  | hold (a b : Nat)
  | detach (a : Nat)
  | collect (extra : List Nat)
  | count (a b : Nat)
  | references (a : Nat)
  | alive
  | roots
  | integrity
  | stats
  | summary
  | payload

inductive Reply where
  | nothing
  | node (id : NodeId)
  | flag (b : Bool)
  | flags (bs : List Bool)
  | count (n : Nat)
  | edges (es : Edges)
  | sound
  | mismatch (e : EdgeMismatch)
  | stats (s : CollectorStats)
  | text (s : String)
  | texts (ss : List String)

namespace State

def id? (s : State) (n : Nat) : Option NodeId := s.subjects[n]?.map (·.id)

/-- What a node's payload holds, unless it is detached. Only holders hold anything. -/
def heldBy (s : State) (n : Nat) : Option (List NodeId) :=
  match s.subjects[n]? with
  | some ⟨.holder, _, held, detached⟩ => if detached then none else some held
  | _ => some []

/-- The log line of a hook; plain payloads have none. -/
def logged? (s : State) : Hook Nat → Option String
  | .cleanup n => if (s.subjects[n]?.map (·.kind)) == some .plain then none else some s!"cleanup {n}"
  | .delete n => if (s.subjects[n]?.map (·.kind)) == some .plain then none else some s!"delete {n}"

def modifySubject (s : State) (n : Nat) (f : Subject → Subject) : State :=
  { s with subjects := s.subjects.modify n f }

def onNode (s : State) (n : Nat) (f : Collector Nat → NodeId → Collector Nat) : State :=
  match s.id? n with
  | some id => { s with collector := f s.collector id }
  | none => s

def isRoot (s : State) (n : Nat) : Bool := (s.id? n).any s.collector.isRoot

/-- One step: the state afterwards, the reply, and the log of hooks. -/
def step (s : State) : Step → State × Reply × List String
  | .node kind =>
    let (id, collector) := s.collector.construct s.subjects.size
    ({ collector, subjects := s.subjects.push { kind := kind, id := id } }, .node id, [])
  | .root n =>
    let s := s.onNode n Collector.makeRoot
    (s, .flag (s.isRoot n), [])
  | .unroot n =>
    let s := s.onNode n Collector.removeRoot
    (s, .flag (s.isRoot n), [])
  | .addReference a b =>
    ({ s with collector := s.collector.addReference (a.bind s.id?) (b.bind s.id?) }, .nothing, [])
  | .removeReference a b =>
    ({ s with collector := s.collector.removeReference (a.bind s.id?) (b.bind s.id?) }, .nothing, [])
  | .hold a b =>
    match s.id? b with
    | some id => (s.modifySubject a fun h => { h with held := h.held ++ [id] }, .nothing, [])
    | none => (s, .nothing, [])
  | .detach a => (s.modifySubject a fun h => { h with detached := true }, .nothing, [])
  | .collect extra =>
    let (collector, condemned) := s.collector.collect (extra.filterMap s.id?)
    ({ s with collector }, .count condemned.length, (Hook.sequence condemned).filterMap s.logged?)
  | .count a b =>
    let n := match s.id? a, s.id? b with
      | some a, some b => s.collector.referenceCount a b
      | _, _ => 0
    (s, .count n, [])
  | .references a => (s, .edges (((s.id? a).map s.collector.references).getD []), [])
  | .alive => (s, .flags (s.subjects.toList.map fun h => s.collector.contains h.id), [])
  | .roots => (s, .flags (s.subjects.toList.map fun h => s.collector.isRoot h.id), [])
  | .integrity =>
    (s, match s.collector.integrityCheck s.heldBy with | .ok () => .sound | .error e => .mismatch e, [])
  | .stats => (s, .stats s.collector.stats, [])
  | .summary => (s, .text s.collector.summary, [])
  | .payload =>
    let fresh : PendingHooks := {}
    (s, .texts [fresh.summary, fresh.clean.clean.summary], [])

/-- Runs the steps and gives for each the reply, the log and the number of nodes. -/
def run (s : State) : List Step → List (Reply × List String × Nat)
  | [] => []
  | step :: steps =>
    let (s, reply, log) := s.step step
    (reply, log, s.collector.live) :: s.run steps

end State
end CollectorSession
end ScriptVm
