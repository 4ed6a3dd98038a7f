import ScriptVm.Code.Listing
import ScriptVm.Machine.Instruction
import ScriptVm.Machine.Program

/-! The machine: the state that instructions work on, the call that is suspended, and the debugger.
`δ` is the type of a debugger's own state and `ν` that of the host's notes. While a debugger has
control it is detached from the machine, which remembers that by `ticking`. -/

namespace ScriptVm

/-- A debugger and its number in the order of attachment. -/
structure Attached (δ : Type) where
  serial : Nat
  state : δ

inductive Event (δ ν : Type) where
  | attached (d : Attached δ)
  | detached (d : Attached δ)
  /-- The debugger was shown the instruction that is about to run. -/
  | traced (d : Attached δ) (line : String)
  /-- The debugger was told to pause because of a fault. -/
  | broke (d : Attached δ)
  | note (n : ν)

structure Machine (δ ν : Type) where
  core : Core := {}
  /-- How many results the suspended call will have. -/
  suspended : Option UInt8 := none
  debugger : Option (Attached δ) := none
  attachments : Nat := 0
  ticking : Bool := false
  /-- The debugger that has control is to be detached when it gives control back. -/
  detachPending : Bool := false
  journal : Array (Event δ ν) := #[]

namespace Machine
variable {δ ν α : Type}

def new (config : Config) (world : World) : Machine δ ν :=
  { core :=
      { config
        world
        executor := { copying := config.copyOnWrite }
        memory := { collector := if config.collecting then some {} else none } } }

def tell (m : Machine δ ν) (e : Event δ ν) : Machine δ ν := { m with journal := m.journal.push e }

def tellDetached (m : Machine δ ν) : Option (Attached δ) → Machine δ ν
  | some d => m.tell (.detached d)
  | none => m

/-- Attaches a debugger in place of the present one. -/
def attach (m : Machine δ ν) (state : δ) : Machine δ ν :=
  let d : Attached δ := ⟨m.attachments, state⟩
  let previous := m.debugger
  ({ m with debugger := some d, attachments := m.attachments + 1 }.tell (.attached d)).tellDetached
    previous

/-- Detaches the debugger, or marks the one in control for it. -/
def detach (m : Machine δ ν) : Machine δ ν :=
  match m.debugger with
  | some d => { m with debugger := none }.tell (.detached d)
  | none => if m.ticking then { m with detachPending := true } else m

def hasDebugger (m : Machine δ ν) : Bool := m.debugger.isSome || (m.ticking && !m.detachPending)

def handOver (m : Machine δ ν) : Machine δ ν := { m with debugger := none, ticking := true }

/-- A debugger gives control back. It stays attached unless it was to be detached or another one has
taken its place. -/
def takeBack (m : Machine δ ν) (d : Attached δ) : Machine δ ν :=
  let leaves := m.detachPending || m.debugger.isSome
  let m := { m with ticking := false, detachPending := false }
  if leaves then m.tell (.detached d) else { m with debugger := some d }

/-- A failure with the calls that are active now. -/
def traced (m : Machine δ ν) (f : Fault) : Failure := { fault := f, trace := m.core.trace }

def exec (m : Machine δ ν) (x : Exec α) : Except Fault α × Machine δ ν :=
  match x m.core with
  | .ok a core => (.ok a, { m with core })
  | .error f core => (.error f, { m with core })

def modifyCore (m : Machine δ ν) (f : Core → Core) : Machine δ ν :=
  (m.exec (modify f)).2

end Machine

abbrev HostCode (δ ν α : Type) := Program (Machine δ ν) α

/-- What a native takes. -/
inductive Arity where
  | fixed (count : Nat)
  | variadic
  /-- One argument, and no result is pushed. -/
  | silent
deriving DecidableEq, Repr

namespace Arity

/-- The arity as calls state it. -/
def code : Arity → Int8
  | .fixed count => .ofInt count
  | .variadic => Signature.variadic
  | .silent => Signature.silent

def accepts : Arity → Nat → Bool
  | .fixed count, given => given == count
  | .variadic, _ => true
  | .silent, given => given == 1

end Arity

structure Native (δ ν : Type) where
  name : String
  arity : Arity
  body : List Value → HostCode δ ν (Except Fault (Option Value))

namespace Native
variable {δ ν : Type}

def signature (n : Native δ ν) : Signature := { name := n.name, arity := n.arity.code }

/-- Calls the native, unless the number of arguments is wrong. -/
def invoke (n : Native δ ν) (arguments : List Value) : HostCode δ ν (Except Fault (Option Value)) :=
  if n.arity.accepts arguments.length then n.body arguments
  else .finish (.error (.nativeArguments n.arity.code arguments.length))

end Native

structure Debugging (δ ν : Type) where
  /-- Runs before each instruction, and once more after a fault. -/
  tick : δ → HostCode δ ν (Except Fault Unit × δ)
  traces : δ → Bool
  /-- Whether the debugger itself runs code, so that faults pass straight through. -/
  inline : δ → Bool

/-- What stays the same while the machine runs. -/
structure Environment (δ ν : Type) where
  natives : Array (Native δ ν) := #[]
  debugging : Debugging δ ν

namespace Environment
variable {δ ν : Type}

def native? (env : Environment δ ν) (index : UInt32) : Option (Native δ ν) :=
  env.natives[index.toNat]?

def signature? (env : Environment δ ν) (index : UInt32) : Option Signature :=
  (env.native? index).map (·.signature)

def names (env : Environment δ ν) : NativeNames := fun index => (env.native? index).map (·.name)

/-- No natives, and a debugger that does nothing. -/
def bare : Environment Unit Unit :=
  { debugging := { tick := fun d => .finish (.ok (), d), traces := fun _ => false, inline := fun _ => false } }

end Environment
end ScriptVm
