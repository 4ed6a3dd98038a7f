import ScriptVm.Machine.Core

/-! Variables of instances and globals as instructions reach them. A store to nobody is lost; a store
to several instances gives each a second holder of the value. A load from several instances reads the
first of them. -/

namespace ScriptVm.Exec

def storeTarget (id : InstanceId) : Exec Instance := do
  match (← get).world.instance? id with
  | some i => return i
  | none => throw (.missingInstance id)

def loadTarget (id : InstanceId) : Exec Instance := do
  match (← get).world.instance? id with
  | some i => return i
  | none => throw .noInstance

/-- The one instance a load from several reads. -/
def firstTarget : List InstanceId → Exec Instance
  | [] => throw .noInstances
  | id :: _ => loadTarget id

/-- Replaces the content of a global by what an operation on memory makes of it. -/
def updateGlobal (id : VariableId) (f : Memory → Value → Value × Memory) : Exec Unit :=
  modify fun c =>
    let (v, memory) := f c.memory (c.world.globals.get id)
    { c with memory, world := { c.world with globals := c.world.globals.set id v } }

def updateVariable (i : Instance) (id : VariableId) (f : Memory → Value → Value × Memory) :
    Exec Unit :=
  modify fun c =>
    let (v, memory) := f c.memory (i.fields.get id)
    { c with
      memory
      world := c.world.modifyInstance i.id fun i => { i with fields := i.fields.set id v } }

/-- Does the same with each instance. The value is shared out and dropped in the end. -/
def storeEach (ids : List InstanceId) (v : Value) (f : Instance → Value → Exec Unit) : Exec Unit :=
  thenDrop [v] <| ids.forM fun id => do
    let i ← storeTarget id
    f i (← share v)

def storeVariable (owner : Owner) (id : VariableId) (v : Value) : Exec Unit :=
  let store (i : Instance) (v : Value) : Exec Unit :=
    updateVariable i id fun m old => m.replaceSlot old i.node v
  match owner with
  | .noone => drop [v]
  | .global => updateGlobal id fun m old => m.replaceSlot old none v
  | .single i => storeEach [i] v store
  | .multi is => storeEach is v store

def storeVariableCell (owner : Owner) (id : VariableId) (path : List Cell) (v : Value) :
    Exec Unit := do
  let copy := (← get).executor.copying
  let store (i : Instance) (v : Value) : Exec Unit :=
    updateVariable i id fun m old => m.storeInSlot old i.node path v copy
  match owner with
  | .noone => drop [v]
  | .global => updateGlobal id fun m old => m.storeInSlot old none path v copy
  | .single i => storeEach [i] v store
  | .multi is => storeEach is v store

def readVariable (i : Instance) (id : VariableId) : Exec Value :=
  match i.fields.get? id with
  | some v => return v
  | none => throw (.unsetVariable id)

/-- The content of a variable, without becoming a holder of it. Reading a global creates it. -/
def loadVariable (owner : Owner) (id : VariableId) : Exec Value := do
  match owner with
  | .noone => throw .noInstance
  | .global =>
    updateGlobal id fun m v => (v, m)
    return (← get).world.globals.get id
  | .single i => readVariable (← loadTarget i) id
  | .multi is => readVariable (← firstTarget is) id

def onWorld (f : World → Memory → Except Fault Unit × World × Memory) : Exec Unit := do
  ofExcept (← modifyGet fun c =>
    let (r, world, memory) := f c.world c.memory
    (r, { c with world, memory }))

def storeBuiltin (owner : Owner) (id : VariableId) (cell? : Option Cell) (v : Value) : Exec Unit :=
  let store (i : Instance) (v : Value) : Exec Unit :=
    onWorld fun w m =>
      match cell? with
      | some cell => w.storeBuiltinCell m i id cell v
      | none => w.setBuiltin m i id v
  match owner with
  | .noone => drop [v]
  | .global => orDrop [v] (throw (.globalBuiltin id))
  | .single i => storeEach [i] v store
  | .multi is => storeEach is v store

/-- The content of a built-in variable, or of a cell of it, without becoming a holder of it. -/
def loadBuiltin (owner : Owner) (id : VariableId) (cell? : Option Cell) : Exec Value := do
  let i ← match owner with
    | .noone => throw .noInstance
    | .global => throw (.globalBuiltin id)
    | .single i => loadTarget i
    | .multi is => firstTarget is
  let c ← get
  match cell? with
  | some cell => ofExcept (c.world.builtinCell c.memory i id cell)
  | none => ofExcept (c.world.builtin i id)

end ScriptVm.Exec
