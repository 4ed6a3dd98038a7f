import ScriptVm.Machine.Instruction

/-! What the effects of instructions are made of. Many instructions do the same thing with other operands: a form is
what they have in common. What is shown of each form holds of every instruction that stays in its section. -/

namespace ScriptVm

/-- A local of the running call, or a variable of an owner. -/
inductive Target where
  | slot (index : UInt32)
  | owned (owner : Owner) (id : VariableId)
deriving DecidableEq

/-- How an instruction addresses a variable. -/
inductive Mode where
  | slot (index : UInt32)
  | self (id : VariableId)
  /-- A variable of an owner, whose id is an operand. -/
  | owner (id : VariableId)
  | global (id : VariableId)
deriving DecidableEq

open Exec

namespace Target

def store (path : List Cell) (v : Value) : Target → Exec Unit
  | .slot index => storeLocalCell index path v
  | .owned owner id => if path = [] then storeVariable owner id v else storeVariableCell owner id path v

/-- What is there, without becoming a holder of it. -/
def load : Target → Exec Value
  | .slot index => localValue index
  | .owned owner id => loadVariable owner id

end Target

namespace Mode

def operands (cells : Nat) : Mode → Exec (Target × List Cell)
  | .slot index => return (.slot index, ← popPath cells)
  | .self id => do
    let path ← popPath cells
    return (.owned ((← get).owner OwnerId.self) id, path)
  | .owner id => do
    let owner ← popOwner
    return (.owned owner id, ← popPath cells)
  | .global id => return (.owned .global id, ← popPath cells)

/-- How many values the operands are, a row and a column for each cell. -/
def arity (cells : Nat) : Mode → Nat
  | .owner _ => 2 * cells + 1
  | _ => 2 * cells

def storing (cells : Nat) (mode : Mode) : Exec Unit := do
  let v ← pop
  let (target, path) ← orDrop [v] (mode.operands cells)
  target.store path v

def loading (cells : Nat) (mode : Mode) : Exec Unit := do
  let (target, path) ← mode.operands cells
  loadCell (← target.load) path

end Mode

namespace Exec
variable {α β : Type}

theorem orDrop_pure (vs : List Value) (a : α) : orDrop vs (pure a) = pure a := rfl

theorem orDrop_get (vs : List Value) : orDrop vs (get : Exec Core) = get := rfl

theorem orDrop_bind (vs : List Value) (x : Exec α) (f : α → Exec β) :
    orDrop vs (x >>= f) = orDrop vs x >>= fun a => orDrop vs (f a) := by
  funext c
  simp only [orDrop, bind, EStateM.bind]
  cases x c <;> rfl

/-- The owner of a built-in variable: the current instance, unless its id is an operand. -/
def builtinOwner (owned : Bool) : Exec Owner :=
  match owned with
  | true => popOwner
  | false => return (← get).owner OwnerId.self

/-- The cell of a built-in variable, if one is an operand. -/
def builtinCell? (celled : Bool) : Exec (Option Cell) :=
  match celled with
  | true => return some (← popCell)
  | false => return none

/-- How many values an owner and a cell are. -/
def builtinArity (owned celled : Bool) : Nat := 2 * celled.toNat + owned.toNat

end Exec

inductive Form where
  | constant (v : Value) (plain : v.isArray = false)
  | self
  | other
  | newArray
  | adjustTop (op : Operator)
  | adjustLocal (op : Operator) (index : UInt32)
  | binary (op : Operator)
  | relate (r : Relation)
  | equal
  | unequal
  | logical (connective : Bool → Bool → Bool)
  | invert
  | test (f : Bool → Bool)
  | condition
  | copying (b : Bool)
  | openLocals (count : UInt32)
  | store (mode : Mode) (cells : Nat)
  | load (mode : Mode) (cells : Nat)
  | storeBuiltin (owned celled : Bool) (id : VariableId)
  | loadBuiltin (owned celled : Bool) (id : VariableId)
  | discard
  | duplicate (count : Nat)
  | duplicateAt (depth : UInt8)
  | deleteAt (depth : UInt8)
  | swap
  | openIteration
  | advanceIteration
  | closeIteration
  | branch (target : Int32)
  | branchIf (target : Int32)
  | endOfUnit
  | nothing

namespace Form

def effect : Form → Exec Unit
  | constant v _ => push v
  | self => do pushInstance (← get).executor.self
  | other => do pushInstance (← get).executor.other
  | newArray => do
    let v ← modifyGet fun c =>
      let (v, memory) := c.memory.ensureArray .undefined none
      (v, { c with memory })
    push v
  | adjustTop op => do operateSlot op (← topSlot) (.int 1)
  | adjustLocal op index => do operateSlot op (← localSlot index) (.int 1)
  | binary op => Exec.binary op
  | relate r => compare (Value.related r)
  | equal => compare fun a b => .ok (a.equals b)
  | unequal => compare fun a b => .ok (!a.equals b)
  | logical connective => Exec.logical connective
  | invert => invertTop
  | test f => do setCondition (f (← popCoerced .bool))
  | condition => do push (.bool (← get).executor.condition)
  | copying b => modify fun c => { c with executor := { c.executor with copying := b } }
  | openLocals count => Exec.openLocals count
  | store mode cells => mode.storing cells
  | load mode cells => mode.loading cells
  | storeBuiltin owned celled id => do
    let v ← pop
    let owner ← orDrop [v] (builtinOwner owned)
    Exec.storeBuiltin owner id (← orDrop [v] (builtinCell? celled)) v
  | loadBuiltin owned celled id => do
    let owner ← builtinOwner owned
    pushShared (← Exec.loadBuiltin owner id (← builtinCell? celled))
  | discard => do drop [← pop]
  | duplicate count => Exec.duplicate count
  | duplicateAt depth => Exec.duplicateAt depth.toNat
  | deleteAt depth => Exec.deleteAt depth.toNat
  | swap => Exec.swap
  | openIteration => do Exec.openIteration (← popOwner)
  | advanceIteration => Exec.advanceIteration
  | closeIteration => Exec.closeIteration
  | branch target => Exec.branch target
  | branchIf target => do if (← get).executor.condition then Exec.branch target
  | endOfUnit => throw .endOfUnit
  | nothing => return ()

end Form

namespace Instruction

/-- The form of an instruction. Those that leave their section or call a native have no effect of this kind. -/
def form : Instruction → Form
  | ⟨.ldiFalse, _⟩ => .constant (.bool false) rfl
  | ⟨.ldiTrue, _⟩ => .constant (.bool true) rfl
  | ⟨.ldiUndef, _⟩ => .constant .undefined rfl
  | ⟨.ldiF32, (w, ())⟩ => .constant (.real (.ofBinary32 w)) rfl
  | ⟨.ldiF64, (x, ())⟩ => .constant (.real x) rfl
  | ⟨.ldiS32, (n, ())⟩ => .constant (.int n) rfl
  | ⟨.ldiU64, (n, ())⟩ => .constant (.uint n) rfl
  | ⟨.ldiString, (s, ())⟩ => .constant (.string s) rfl
  | ⟨.ldiZero, _⟩ => .constant (.real .zero) rfl
  | ⟨.ldiSelf, _⟩ => .self
  | ⟨.ldiOther, _⟩ => .other
  | ⟨.ldiArr, _⟩ => .newArray
  | ⟨.inc, _⟩ => .adjustTop .add
  | ⟨.dec, _⟩ => .adjustTop .sub
  | ⟨.incl, (i, ())⟩ => .adjustLocal .add i
  | ⟨.decl, (i, ())⟩ => .adjustLocal .sub i
  | ⟨.add2, _⟩ => .binary .add
  | ⟨.sub2, _⟩ => .binary .sub
  | ⟨.mult2, _⟩ => .binary .mul
  | ⟨.fdiv2, _⟩ => .binary .div
  | ⟨.idiv2, _⟩ => .binary .idiv
  | ⟨.mod2, _⟩ => .binary .rem
  | ⟨.lsh2, _⟩ => .binary .shl
  | ⟨.rsh2, _⟩ => .binary .shr
  | ⟨.gt, _⟩ => .relate .gt
  | ⟨.lt, _⟩ => .relate .lt
  | ⟨.gte, _⟩ => .relate .ge
  | ⟨.lte, _⟩ => .relate .le
  | ⟨.eq, _⟩ => .equal
  | ⟨.neq, _⟩ => .unequal
  | ⟨.bland, _⟩ => .logical (· && ·)
  | ⟨.blor, _⟩ => .logical (· || ·)
  | ⟨.blxor, _⟩ => .logical (· != ·)
  | ⟨.band, _⟩ => .binary .and
  | ⟨.bor, _⟩ => .binary .or
  | ⟨.bxor, _⟩ => .binary .xor
  | ⟨.bnot, _⟩ => .invert
  | ⟨.cond, _⟩ => .test id
  | ⟨.ncond, _⟩ => .test not
  | ⟨.pcond, _⟩ => .condition
  | ⟨.sfx, _⟩ => .copying false
  | ⟨.ufx, _⟩ => .copying true
  | ⟨.all, (count, ())⟩ => .openLocals count
  | ⟨.stl, (i, ())⟩ => .store (.slot i) 0
  | ⟨.ldl, (i, ())⟩ => .load (.slot i) 0
  | ⟨.sts, (id, ())⟩ => .store (.self id) 0
  | ⟨.lds, (id, ())⟩ => .load (.self id) 0
  | ⟨.sto, (id, ())⟩ => .store (.owner id) 0
  | ⟨.ldo, (id, ())⟩ => .load (.owner id) 0
  | ⟨.stg, (id, ())⟩ => .store (.global id) 0
  | ⟨.ldg, (id, ())⟩ => .load (.global id) 0
  | ⟨.stt, (id, ())⟩ => .storeBuiltin false false id
  | ⟨.ldt, (id, ())⟩ => .loadBuiltin false false id
  | ⟨.stp, (id, ())⟩ => .storeBuiltin true false id
  | ⟨.ldp, (id, ())⟩ => .loadBuiltin true false id
  | ⟨.stla, (i, ())⟩ => .store (.slot i) 1
  | ⟨.ldla, (i, ())⟩ => .load (.slot i) 1
  | ⟨.stsa, (id, ())⟩ => .store (.self id) 1
  | ⟨.ldsa, (id, ())⟩ => .load (.self id) 1
  | ⟨.stoa, (id, ())⟩ => .store (.owner id) 1
  | ⟨.ldoa, (id, ())⟩ => .load (.owner id) 1
  | ⟨.stga, (id, ())⟩ => .store (.global id) 1
  | ⟨.ldga, (id, ())⟩ => .load (.global id) 1
  | ⟨.stpa, (id, ())⟩ => .storeBuiltin true true id
  | ⟨.ldpa, (id, ())⟩ => .loadBuiltin true true id
  | ⟨.stlax, (i, depth, ())⟩ => .store (.slot i) (depth.toNat + 1)
  | ⟨.ldlax, (i, depth, ())⟩ => .load (.slot i) (depth.toNat + 1)
  | ⟨.stoax, (id, depth, ())⟩ => .store (.owner id) (depth.toNat + 1)
  | ⟨.ldoax, (id, depth, ())⟩ => .load (.owner id) (depth.toNat + 1)
  | ⟨.pop, _⟩ => .discard
  | ⟨.dup, _⟩ => .duplicate 1
  | ⟨.dup2, _⟩ => .duplicate 2
  | ⟨.dup3, _⟩ => .duplicate 3
  | ⟨.dupn, (count, ())⟩ => .duplicate count.toNat
  | ⟨.dupi, (depth, ())⟩ => .duplicateAt depth
  | ⟨.deli, (depth, ())⟩ => .deleteAt depth
  | ⟨.swap, _⟩ => .swap
  | ⟨.wti, _⟩ => .openIteration
  | ⟨.wty, _⟩ => .advanceIteration
  | ⟨.wtd, _⟩ => .closeIteration
  | ⟨.jmp, (target, ())⟩ => .branch target
  | ⟨.bcond, (target, ())⟩ => .branchIf target
  | ⟨.eof, _⟩ => .endOfUnit
  | ⟨.nat, _⟩ | ⟨.call, _⟩ | ⟨.ret, _⟩ | ⟨.sus, _⟩ | ⟨.nop, _⟩ => .nothing

/-- An instruction does what its form says. -/
theorem effect_form (i : Instruction) : i.effect = i.form.effect := by
  obtain ⟨op, operands⟩ := i
  cases op with
  | stl | sts | sto | stg | stla | stsa | stoa | stga =>
    simp only [form, Form.effect, Mode.storing, Mode.operands, popPath, orDrop_bind, orDrop_pure, bind_assoc, pure_bind]
    rfl
  | stlax =>
    simp only [form, Form.effect, Mode.storing, Mode.operands, orDrop_bind, orDrop_pure, bind_assoc, pure_bind]
    rfl
  | stoax =>
    -- the path is not empty, so it is a cell that is stored into
    obtain ⟨id, depth, ⟨⟩⟩ := operands
    have heffect : effect ⟨.stoax, (id, depth, ())⟩ = (do
      let v ← pop
      let owner ← orDrop [v] popOwner
      storeVariableCell owner id (← orDrop [v] (popPath (depth.toNat + 1))) v) := rfl
    rw [heffect]
    simp only [form, Form.effect, Mode.storing, Mode.operands, popPath, orDrop_bind, orDrop_pure, bind_assoc, pure_bind]
    rfl
  | ldl | lds | ldo | ldg | ldla | ldsa | ldoa | ldga =>
    simp only [form, Form.effect, Mode.loading, Mode.operands, popPath, bind_assoc, pure_bind]
    rfl
  | ldlax | ldoax =>
    simp only [form, Form.effect, Mode.loading, Mode.operands, bind_assoc, pure_bind]
    rfl
  | stt | stp | stpa | ldt | ldp | ldpa =>
    simp only [form, Form.effect, builtinOwner, builtinCell?, orDrop_bind, orDrop_pure, bind_assoc, pure_bind]
    rfl
  | _ => rfl

end Instruction
end ScriptVm
