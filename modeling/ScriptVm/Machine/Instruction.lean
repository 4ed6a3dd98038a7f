import ScriptVm.Code.Instruction
import ScriptVm.Machine.Variables
import ScriptVm.Value.Order

/-! What each instruction does. `Instruction.effect` covers the instructions after which the next one
in the code, or the target of a branch, follows; `Instruction.execute` adds those that enter or leave
a section, suspend, or call a native. -/

namespace ScriptVm

/-- How a native is called: its name and the arity that a call has to state. -/
structure Signature where
  name : String
  arity : Int8
deriving DecidableEq, Repr

/-- The arity of a native that takes any number of arguments, which lies on top of them. -/
def Signature.variadic : Int8 := -1

/-- The arity of a native with one argument and no result. -/
def Signature.silent : Int8 := -2

def Signature.summary (s : Signature) : String := s!"NativeFn(arity {s.arity.toInt})"

inductive Flow where
  | next
  | returned
  | suspended
  /-- A section has been entered and is to run inside this instruction. -/
  | entered
  /-- A native is to be called with these arguments, which have left the stack. -/
  | native (index : UInt32) (arguments : List Value)

namespace Exec

/-- An operator on the two top values; the result takes the place of the left one. -/
def binary (op : Operator) : Exec Unit := do
  let right ← pop
  thenDrop [right] do operateSlot op (← topSlot) right

/-- A comparison of the two top values, which go, into the condition flag. -/
def compare (test : Value → Value → Except Fault Bool) : Exec Unit := do
  let right ← pop
  let left ← orDrop [right] pop
  drop [left, right]
  setCondition (← ofExcept (test left right))

/-- A connective of the two top values as conditions. The left one stays if the right one is none. -/
def logical (connective : Bool → Bool → Bool) : Exec Unit := do
  let right ← popCoerced .bool
  let left ← popCoerced .bool
  push (.bool (connective left right))

def invertTop : Exec Unit := do
  let slot ← topSlot
  ofExcept (← updateSlot slot fun m v =>
    match v.invert with
    | .ok inverted => (.ok (), inverted, m)
    | .error f => (.error f, v, m))

/-- Saves the base of the locals on the stack and makes room for new ones. -/
def openLocals (count : UInt32) : Exec Unit :=
  modify fun c =>
    let e := c.executor.push (.uint c.executor.base.toUInt64)
    { c with executor := { e with
        base := e.stack.size
        stack := e.stack ++ Array.replicate count.toNat Value.undefined } }

def storeLocal (index : UInt32) (v : Value) : Exec Unit := do
  let slot ← orDrop [v] (localSlot index)
  updateSlot slot fun m old => ((), v, m.release [old])

/-- Stores a value at the end of a path of cells of the array in a local. -/
def storeLocalCell (index : UInt32) (path : List Cell) (v : Value) : Exec Unit := do
  let slot ← orDrop [v] (localSlot index)
  let copy := (← get).executor.copying
  updateSlot slot fun m old => ((), m.storeNested old path v copy none)

/-- The content at the end of a path of cells of the array in a local. -/
def loadCell (v : Value) (path : List Cell) : Exec Unit := do
  pushShared (← ofExcept ((← get).memory.peekNested v path))

def duplicate (count : Nat) : Exec Unit := do
  let e := (← get).executor
  if e.stack.size < count then throw .underflow
  let start ← ofExcept (Word.sub e.stack.size count)
  (← ofExcept (e.valuesFrom start)).forM pushShared

theorem duplicate_eq (count : Nat) (c : Core) :
    duplicate count c =
      if c.executor.stack.size < count then .error .underflow c
      else (c.executor.stack.toList.drop (c.executor.stack.size - count)).forM pushShared c := by
  unfold duplicate
  change (if _ then _ else _ : Exec Unit) c = _
  split
  · rfl
  · rw [Word.sub_of_le (by omega)]
    change (ofExcept (c.executor.valuesFrom _) >>= _ : Exec Unit) c = _
    rw [Executor.valuesFrom, if_pos (by omega)]
    rfl

def duplicateAt (depth : Nat) : Exec Unit := do
  pushShared (← ofExcept ((← get).executor.peek depth))

def deleteAt (depth : Nat) : Exec Unit := do
  let e := (← get).executor
  let _ ← ofExcept (e.peek depth)
  let last ← ofExcept (Word.sub e.stack.size 1)
  let slot ← ofExcept (Word.sub last depth)
  let (v, executor) ← ofExcept (e.removeSlot slot)
  modify fun c => { c with executor }
  drop [v]

theorem deleteAt_eq (depth : Nat) (c : Core) :
    deleteAt depth c =
      match c.executor.peek depth with
      | .ok v => .ok () { c with
          executor := { c.executor with
            stack := c.executor.stack.eraseIdxIfInBounds (c.executor.stack.size - 1 - depth) }
          memory := c.memory.release [v] }
      | .error f => .error f c := by
  unfold deleteAt
  change (ofExcept (c.executor.peek depth) >>= _ : Exec Unit) c = _
  cases hpeek : c.executor.peek depth with
  | error f => rfl
  | ok v =>
    obtain ⟨hdepth, rfl⟩ := Executor.peek_eq_ok hpeek
    have hslot : c.executor.stack.size - 1 - depth < c.executor.stack.size := by omega
    rw [Word.sub_of_le (by omega)]
    change (ofExcept (Word.sub (c.executor.stack.size - 1) depth) >>= _ : Exec Unit) c = _
    rw [Word.sub_of_le (by omega)]
    change (ofExcept (c.executor.removeSlot _) >>= _ : Exec Unit) c = _
    rw [Executor.removeSlot, dif_pos hslot, Array.eraseIdxIfInBounds_eq, dif_pos hslot]
    rfl

def swap : Exec Unit := do
  let e := (← get).executor
  let _ ← ofExcept (e.peek 1)
  let last ← ofExcept (Word.sub e.stack.size 1)
  let second ← ofExcept (Word.sub e.stack.size 2)
  let executor ← ofExcept (e.swapSlots last second)
  modify fun c => { c with executor }

theorem swap_eq (c : Core) :
    swap c =
      if c.executor.stack.size < 2 then .error .underflow c
      else .ok () { c with executor := { c.executor with
        stack := c.executor.stack.swapIfInBounds (c.executor.stack.size - 1) (c.executor.stack.size - 2) } } := by
  unfold swap
  change (ofExcept (c.executor.peek 1) >>= _ : Exec Unit) c = _
  split
  · rw [Executor.peek_of_le (by decide) (by omega)]
    rfl
  · have hlast : c.executor.stack.size - 1 < c.executor.stack.size := by omega
    have hsecond : c.executor.stack.size - 2 < c.executor.stack.size := by omega
    rw [Executor.peek_of_lt (by decide) (by omega), Word.sub_of_le (by omega), Word.sub_of_le (by omega)]
    change (ofExcept (c.executor.swapSlots _ _) >>= _ : Exec Unit) c = _
    rw [Executor.swapSlots, dif_pos ⟨hlast, hsecond⟩, Array.swapIfInBounds_def, dif_pos hlast,
      dif_pos hsecond]
    rfl

def pushInstance (id : Option InstanceId) : Exec Unit :=
  push (.real (.ofInt ((id.map fun id => (id.toNat : Int)).getD OwnerId.noone.toInt)))

/-- Opens an iteration over what an owner denotes: a scope of its own and its number on the stack. -/
def openIteration (owner : Owner) : Exec Unit :=
  modify fun c =>
    let index := c.executor.iterations.size
    let e := (c.executor.enterScope c.executor.self).push (.uint index.toUInt64)
    { c with executor := { e with iterations := e.iterations.push (.ofOwner owner) } }

def closeIteration : Exec Unit := do
  drop [← pop]
  leaveScope
  modify fun c => { c with executor := { c.executor with iterations := c.executor.iterations.pop } }

/-- Makes the next instance of the iteration on top `self`, or closes it. The condition flag tells
whether it was closed. -/
def advanceIteration : Exec Unit := do
  let top ← ofExcept ((← get).executor.peek 0)
  let index ← ofExcept (top.exact .size)
  match (← get).executor.iterations[index.toNat]? with
  | none => throw (.noIterator index.toNat)
  | some iteration =>
    match iteration.current? with
    | some id =>
      modify fun c => { c with executor := { c.executor with
        iterations := c.executor.iterations.setIfInBounds index.toNat iteration.advance
        self := some id
        condition := false } }
    | none =>
      closeIteration
      setCondition true

def branch (target : Int32) : Exec Unit := fun c =>
  match Cursor.seek target c.executor.pc with
  | .ok () pc => .ok () { c with executor := { c.executor with pc } }
  | .error e _ => .error (.code e) c

end Exec

open Exec in
/-- The effect of an instruction that stays in its section; the others have none of this kind. -/
def Instruction.effect : Instruction → Exec Unit
  -- constants
  | ⟨.ldiFalse, _⟩ => push (.bool false)
  | ⟨.ldiTrue, _⟩ => push (.bool true)
  | ⟨.ldiUndef, _⟩ => push .undefined
  | ⟨.ldiF32, (w, ())⟩ => push (.real (.ofBinary32 w))
  | ⟨.ldiF64, (x, ())⟩ => push (.real x)
  | ⟨.ldiS32, (n, ())⟩ => push (.int n)
  | ⟨.ldiU64, (n, ())⟩ => push (.uint n)
  | ⟨.ldiString, (s, ())⟩ => push (.string s)
  | ⟨.ldiZero, _⟩ => push (.real .zero)
  | ⟨.ldiSelf, _⟩ => do pushInstance (← get).executor.self
  | ⟨.ldiOther, _⟩ => do pushInstance (← get).executor.other
  | ⟨.ldiArr, _⟩ => do
    let v ← modifyGet fun c =>
      let (v, memory) := c.memory.ensureArray .undefined none
      (v, { c with memory })
    push v
  -- arithmetic
  | ⟨.inc, _⟩ => do operateSlot .add (← topSlot) (.int 1)
  | ⟨.dec, _⟩ => do operateSlot .sub (← topSlot) (.int 1)
  | ⟨.incl, (i, ())⟩ => do operateSlot .add (← localSlot i) (.int 1)
  | ⟨.decl, (i, ())⟩ => do operateSlot .sub (← localSlot i) (.int 1)
  | ⟨.add2, _⟩ => binary .add
  | ⟨.sub2, _⟩ => binary .sub
  | ⟨.mult2, _⟩ => binary .mul
  | ⟨.fdiv2, _⟩ => binary .div
  | ⟨.idiv2, _⟩ => binary .idiv
  | ⟨.mod2, _⟩ => binary .rem
  | ⟨.lsh2, _⟩ => binary .shl
  | ⟨.rsh2, _⟩ => binary .shr
  -- comparison
  | ⟨.gt, _⟩ => compare (Value.related .gt)
  | ⟨.lt, _⟩ => compare (Value.related .lt)
  | ⟨.gte, _⟩ => compare (Value.related .ge)
  | ⟨.lte, _⟩ => compare (Value.related .le)
  | ⟨.eq, _⟩ => compare fun a b => .ok (a.equals b)
  | ⟨.neq, _⟩ => compare fun a b => .ok (!a.equals b)
  -- logic and bits
  | ⟨.bland, _⟩ => logical (· && ·)
  | ⟨.blor, _⟩ => logical (· || ·)
  | ⟨.blxor, _⟩ => logical (· != ·)
  | ⟨.band, _⟩ => binary .and
  | ⟨.bor, _⟩ => binary .or
  | ⟨.bxor, _⟩ => binary .xor
  | ⟨.bnot, _⟩ => invertTop
  -- flags
  | ⟨.cond, _⟩ => do setCondition (← popCoerced .bool)
  | ⟨.ncond, _⟩ => do setCondition (!(← popCoerced .bool))
  | ⟨.pcond, _⟩ => do push (.bool (← get).executor.condition)
  | ⟨.sfx, _⟩ => modify fun c => { c with executor := { c.executor with copying := false } }
  | ⟨.ufx, _⟩ => modify fun c => { c with executor := { c.executor with copying := true } }
  -- locals
  | ⟨.all, (count, ())⟩ => openLocals count
  | ⟨.stl, (i, ())⟩ => do storeLocal i (← pop)
  | ⟨.ldl, (i, ())⟩ => do pushShared (← localValue i)
  -- variables
  | ⟨.sts, (id, ())⟩ => do
    let v ← pop
    storeVariable ((← get).owner OwnerId.self) id v
  | ⟨.lds, (id, ())⟩ => do pushShared (← loadVariable ((← get).owner OwnerId.self) id)
  | ⟨.sto, (id, ())⟩ => do
    let v ← pop
    storeVariable (← orDrop [v] popOwner) id v
  | ⟨.ldo, (id, ())⟩ => do pushShared (← loadVariable (← popOwner) id)
  | ⟨.stg, (id, ())⟩ => do storeVariable .global id (← pop)
  | ⟨.ldg, (id, ())⟩ => do pushShared (← loadVariable .global id)
  -- built-in variables
  | ⟨.stt, (id, ())⟩ => do
    let v ← pop
    storeBuiltin ((← get).owner OwnerId.self) id none v
  | ⟨.ldt, (id, ())⟩ => do pushShared (← loadBuiltin ((← get).owner OwnerId.self) id none)
  | ⟨.stp, (id, ())⟩ => do
    let v ← pop
    storeBuiltin (← orDrop [v] popOwner) id none v
  | ⟨.ldp, (id, ())⟩ => do pushShared (← loadBuiltin (← popOwner) id none)
  -- array cells
  | ⟨.stla, (i, ())⟩ => do
    let v ← pop
    storeLocalCell i [← orDrop [v] popCell] v
  | ⟨.ldla, (i, ())⟩ => do
    let cell ← popCell
    loadCell (← localValue i) [cell]
  | ⟨.stsa, (id, ())⟩ => do
    let v ← pop
    let cell ← orDrop [v] popCell
    storeVariableCell ((← get).owner OwnerId.self) id [cell] v
  | ⟨.ldsa, (id, ())⟩ => do
    let cell ← popCell
    loadCell (← loadVariable ((← get).owner OwnerId.self) id) [cell]
  | ⟨.stoa, (id, ())⟩ => do
    let v ← pop
    let owner ← orDrop [v] popOwner
    storeVariableCell owner id [← orDrop [v] popCell] v
  | ⟨.ldoa, (id, ())⟩ => do
    let owner ← popOwner
    let cell ← popCell
    loadCell (← loadVariable owner id) [cell]
  | ⟨.stga, (id, ())⟩ => do
    let v ← pop
    storeVariableCell .global id [← orDrop [v] popCell] v
  | ⟨.ldga, (id, ())⟩ => do
    let cell ← popCell
    loadCell (← loadVariable .global id) [cell]
  | ⟨.stpa, (id, ())⟩ => do
    let v ← pop
    let owner ← orDrop [v] popOwner
    storeBuiltin owner id (some (← orDrop [v] popCell)) v
  | ⟨.ldpa, (id, ())⟩ => do
    let owner ← popOwner
    pushShared (← loadBuiltin owner id (some (← popCell)))
  -- cells of nested arrays
  | ⟨.stlax, (i, depth, ())⟩ => do
    let v ← pop
    storeLocalCell i (← orDrop [v] (popPath (depth.toNat + 1))) v
  | ⟨.ldlax, (i, depth, ())⟩ => do
    let path ← popPath (depth.toNat + 1)
    loadCell (← localValue i) path
  | ⟨.stoax, (id, depth, ())⟩ => do
    let v ← pop
    let owner ← orDrop [v] popOwner
    storeVariableCell owner id (← orDrop [v] (popPath (depth.toNat + 1))) v
  | ⟨.ldoax, (id, depth, ())⟩ => do
    let owner ← popOwner
    let path ← popPath (depth.toNat + 1)
    loadCell (← loadVariable owner id) path
  -- operand stack
  | ⟨.pop, _⟩ => do drop [← pop]
  | ⟨.dup, _⟩ => duplicate 1
  | ⟨.dup2, _⟩ => duplicate 2
  | ⟨.dup3, _⟩ => duplicate 3
  | ⟨.dupn, (count, ())⟩ => duplicate count.toNat
  | ⟨.dupi, (depth, ())⟩ => duplicateAt depth.toNat
  | ⟨.deli, (depth, ())⟩ => deleteAt depth.toNat
  | ⟨.swap, _⟩ => swap
  -- iteration
  | ⟨.wti, _⟩ => do openIteration (← popOwner)
  | ⟨.wty, _⟩ => advanceIteration
  | ⟨.wtd, _⟩ => closeIteration
  -- control
  | ⟨.jmp, (target, ())⟩ => branch target
  | ⟨.bcond, (target, ())⟩ => do if (← get).executor.condition then branch target
  | ⟨.eof, _⟩ => throw .endOfUnit
  | _ => return ()

namespace Exec

/-- Takes the top `count` values off the stack, the deepest first in the list. There must be so
many. -/
def drain (count : Nat) : Exec (List Value) := do
  let e := (← get).executor
  let start ← ofExcept (Word.sub e.stack.size count)
  let vs ← ofExcept (e.valuesFrom start)
  modify fun c => { c with executor := { c.executor with stack := c.executor.stack.take start } }
  return vs

theorem drain_eq {count : Nat} {c : Core} (h : count ≤ c.executor.stack.size) :
    drain count c =
      .ok (c.executor.stack.toList.drop (c.executor.stack.size - count)) { c with
        executor := { c.executor with stack := c.executor.stack.take (c.executor.stack.size - count) } } := by
  unfold drain
  change (ofExcept (Word.sub _ _) >>= _ : Exec (List Value)) c = _
  rw [Word.sub_of_le h]
  change (ofExcept (c.executor.valuesFrom _) >>= _ : Exec (List Value)) c = _
  rw [Executor.valuesFrom, if_pos (Nat.sub_le _ _)]
  rfl

def popMany (count : Nat) : Exec (List Value) := do
  if (← get).executor.stack.size < count then throw .underflow
  drain count

theorem popMany_eq (count : Nat) (c : Core) :
    popMany count c =
      if c.executor.stack.size < count then .error .underflow c
      else .ok (c.executor.stack.toList.drop (c.executor.stack.size - count)) { c with
        executor := { c.executor with stack := c.executor.stack.take (c.executor.stack.size - count) } } := by
  unfold popMany
  change (if _ then _ else _ : Exec (List Value)) c = _
  split
  · rfl
  · exact drain_eq (by omega)

def truncate (size : Nat) : Exec Unit := do
  let above := (← get).executor.stack.toList.drop size
  modify fun c => { c with executor := { c.executor with stack := c.executor.stack.take size } }
  drop above

/-- Removes locals, saved base, argument count and arguments of the running call. -/
def closeCall : Exec Unit := do
  truncate (← get).executor.base
  let base ← popExact .size
  modify fun c => { c with executor := { c.executor with base := base.toNat } }
  let count ← popExact .size
  let size := (← get).executor.stack.size
  if size < count.toNat then throw .underflow
  truncate (size - count.toNat)

/-- Puts the top `count` values, which must be there, in place of the running call. -/
def replaceCall (count : Nat) : Exec Unit := do
  let results ← drain count
  orDrop results closeCall
  results.forM push

theorem replaceCall_eq {count : Nat} {c : Core} (h : count ≤ c.executor.stack.size) :
    replaceCall count c =
      (do
        orDrop (c.executor.stack.toList.drop (c.executor.stack.size - count)) closeCall
        (c.executor.stack.toList.drop (c.executor.stack.size - count)).forM push : Exec Unit) { c with
          executor := { c.executor with
            stack := c.executor.stack.take (c.executor.stack.size - count) } } := by
  simp only [replaceCall, bind, EStateM.bind, drain_eq h]

def backToCaller : Exec Unit := do
  match (← get).executor.callers.back? with
  | none => throw .noCaller
  | some pc => modify fun c => { c with
      executor := { c.executor with pc, callers := c.executor.callers.pop } }

/-- Returns from the running section with the top `count` values in place of its call. -/
def leaveSection (count : Nat) : Exec Unit := do
  let e := (← get).executor
  let needed ← ofExcept (Word.add e.base count)
  if e.stack.size < needed then throw .underflow
  replaceCall count
  backToCaller

theorem leaveSection_eq (count : Nat) (c : Core) :
    leaveSection count c =
      if UInt64.size ≤ c.executor.base + count then .error .crash c
      else if c.executor.stack.size < c.executor.base + count then .error .underflow c
      else (replaceCall count >>= fun _ => backToCaller) c := by
  unfold leaveSection
  change (ofExcept (Word.add c.executor.base count) >>= _ : Exec Unit) c = _
  by_cases hword : c.executor.base + count < UInt64.size
  · rw [Word.add_eq_ok_iff.2 ⟨hword, rfl⟩, if_neg (Nat.not_le_of_lt hword)]
    change (if _ then _ else _ : Exec Unit) c = _
    split <;> rfl
  · rw [Word.add, if_neg hword, if_pos (Nat.le_of_not_lt hword)]
    rfl

/-- The arguments for a native, once the call agrees with its signature. -/
def nativeArguments (signature? : Option Signature) (index : UInt32) (arity : Int8) :
    Exec (List Value) := do
  match signature? with
  | none => throw (.noNative index)
  | some s =>
    if s.arity ≠ arity then throw (.nativeArity s.name s.arity arity)
    let count ←
      if arity = Signature.variadic then do pure (← popExact .size).toNat
      else if arity = Signature.silent then pure 1
      else pure arity.toInt.toNat
    popMany count

end Exec

open Exec in
def Instruction.execute (natives : UInt32 → Option Signature) : Instruction → Exec Flow
  | ⟨.nat, (index, arity, ())⟩ => return .native index (← nativeArguments (natives index) index arity)
  | ⟨.call, (callee, count, ())⟩ => do
    match (← get).sections.get callee with
    | .error e => throw (.code e)
    | .ok home => ofExcept (home.checkArguments count.toNat)
    push (.int (.ofInt count.toNat))
    enterSection callee
    return .entered
  | ⟨.ret, (count, ())⟩ => do
    leaveSection count.toNat
    return .returned
  | ⟨.sus, _⟩ => do
    if 1 < (← get).runs then throw .nestedSuspension
    return .suspended
  | i => do
    i.effect
    return .next

namespace Exec

def scan {α : Type} (x : Scan α) : Exec α := fun c =>
  match x c.executor.pc with
  | .ok a pc => .ok a { c with executor := { c.executor with pc } }
  | .error e pc => .error (.code e) { c with executor := { c.executor with pc } }

open Cursor in
/-- The operands that an instruction reads behind its opcode, before it does anything else. -/
def operands : (op : Opcode) → Exec (Operands op.layout)
  | .ldiF32 => return (← scan readU32, ())
  | .ldiF64 => return (← scan readReal, ())
  | .ldiS32 => return (← scan readI32, ())
  | .ldiU64 => return (← scan readU64, ())
  | .ldiString => return (← scan readText, ())
  -- the number of a local or of a variable
  | .incl | .decl | .all | .stl | .ldl | .sts | .lds | .sto | .ldo | .stg | .ldg | .stt | .ldt
  | .stp | .ldp | .stla | .ldla | .stsa | .ldsa | .stoa | .ldoa | .stga | .ldga | .stpa
  | .ldpa => return (← scan readU32, ())
  -- and how deep arrays are nested in it
  | .stlax | .ldlax | .stoax | .ldoax => return (← scan readU32, ← scan readU32, ())
  -- how many values, or which one
  | .dupn | .dupi | .deli | .ret => return (← scan readU8, ())
  | .nat => return (← scan readU32, ← scan readI8, ())
  | .jmp | .bcond => return (← scan readI32, ())
  | .call => return (← scan readU32, ← scan readU8, ())
  | .ldiFalse | .ldiTrue | .ldiUndef | .ldiZero | .ldiSelf | .ldiOther | .ldiArr | .inc | .dec
  | .add2 | .sub2 | .mult2 | .fdiv2 | .idiv2 | .mod2 | .lsh2 | .rsh2 | .gt | .lt | .gte | .lte | .eq
  | .neq | .bland | .blor | .blxor | .band | .bor | .bxor | .bnot | .cond | .ncond | .pcond | .sfx
  | .ufx | .pop | .dup | .dup2 | .dup3 | .swap | .wti | .wty | .wtd | .sus | .nop | .eof => return ()

def step (natives : UInt32 → Option Signature) : Exec Flow := do
  let op ← scan Cursor.readOpcode
  Instruction.execute natives ⟨op, ← operands op⟩

theorem scan_pure {α : Type} (a : α) : scan (pure a) = pure a := rfl

theorem scan_bind {α β : Type} (x : Scan α) (f : α → Scan β) :
    scan (x >>= f) = scan x >>= fun a => scan (f a) := by
  funext c
  simp only [scan, bind, EStateM.bind]
  cases x c.executor.pc <;> rfl

/-- What an instruction reads is what the layout of its opcode lists. -/
theorem operands_eq (op : Opcode) : operands op = scan (Cursor.readOperands op.layout) := by
  cases op <;> simp only [operands, Cursor.readOperands, Cursor.readOperand, scan_bind, scan_pure,
    bind_assoc, pure_bind]

theorem step_eq (natives : UInt32 → Option Signature) :
    step natives = scan Cursor.readInstruction >>= Instruction.execute natives := by
  simp only [step, operands_eq, Cursor.readInstruction, scan_bind, scan_pure, bind_assoc, pure_bind]

end Exec
end ScriptVm
