import ScriptVm.Proofs.Footprints
import ScriptVm.Proofs.OrdinaryFaults

/-! The pieces that instructions are made of. A piece that takes operands does nothing else to the operand stack; what an
instruction does besides that is one of few things, and nothing of it depends on where in code execution stands. How
the pieces are put together is told here once. What is to be shown of every instruction needs a case for each way to
put them together, and none for each instruction. -/

namespace ScriptVm

/-- Where execution stands and what it comes back to. -/
structure Bearings where
  base : Nat
  pc : Cursor
  callers : Array Cursor
  sections : SectionTable
  config : Config
  runs : Nat

def Core.bearings (c : Core) : Bearings :=
  { base := c.executor.base
    pc := c.executor.pc
    callers := c.executor.callers
    sections := c.sections
    config := c.config
    runs := c.runs }

def Cursor.relocate (R : Section → Section) (pc : Cursor) : Cursor := { pc with home := R pc.home }

def SectionTable.relocate (R : Section → Section) (t : SectionTable) : SectionTable :=
  { t with entries := t.entries.map (Option.map R) }

def Core.relocate (R : Section → Section) (c : Core) : Core :=
  { c with
    executor := { c.executor with
      pc := c.executor.pc.relocate R
      callers := c.executor.callers.map (·.relocate R) }
    sections := c.sections.relocate R }

namespace Exec
variable {α β : Type}

/-- Looks at nothing that is exchanged with the sections. -/
def Blind (f : Core → β) : Prop := ∀ (R : Section → Section) (c : Core), f (c.relocate R) = f c

/-- A change of values, variables and flags, whatever the sections are. -/
structure Aside (g : Core → α × Core) : Prop where
  bearings : ∀ c, (g c).2.bearings = c.bearings
  stack : ∀ c, (g c).2.executor.stack = c.executor.stack
  relocate : ∀ (R : Section → Section) (c : Core), g (c.relocate R) = ((g c).1, (g c).2.relocate R)

def Yields (x : Exec α) (a : α) : Prop := ∃ c c', x c = .ok a c'

/-- Takes so many operands off the stack and touches nothing else of it. It fails only in ordinary ways. -/
inductive Takes : {α : Type} → Nat → Exec α → Prop where
  | pure {α : Type} (a : α) : Takes 0 (pure a)
  | throw {α : Type} {f : Fault} (hf : f.isOrdinary = true) : Takes 0 (throw f : Exec α)
  | inspect {α : Type} {n : Nat} {f : Core → Exec α} (hblind : Blind f) (hf : ∀ c, Takes n (f c)) :
      Takes n (get >>= f)
  | change {α : Type} {g : Core → α × Core} (hg : Aside g) : Takes 0 (modifyGet g)
  | pop : Takes 1 pop
  | bind {α β : Type} {m n : Nat} {x : Exec α} {f : α → Exec β} (hx : Takes m x)
      (hf : ∀ a, Yields x a → Takes n (f a)) : Takes (m + n) (x >>= f)
  | orDrop {α : Type} {n : Nat} {x : Exec α} (hx : Takes n x) (vs : List Value) : Takes n (orDrop vs x)
  | thenDrop {α : Type} {n : Nat} {x : Exec α} (hx : Takes n x) (vs : List Value) : Takes n (thenDrop vs x)

/-- Writes one slot of the stack. -/
inductive Writes (slot : Nat) : {α : Type} → Exec α → Prop where
  | update {α : Type} (g : Memory → Value → α × Value × Memory) : Writes slot (updateSlot slot g)
  | inspect {α : Type} {f : Core → Exec α} (hblind : Blind f) (hf : ∀ c, Writes slot (f c)) : Writes slot (get >>= f)
  | bind {α β : Type} {x : Exec α} {f : α → Exec β} (hx : Writes slot x) (hf : ∀ a, Yields x a → Takes 0 (f a)) :
      Writes slot (x >>= f)

/-- Looks for a local, while some values may be in hand. -/
inductive Locates (index : UInt32) : Exec Nat → Prop where
  | bare : Locates index (localSlot index)
  | held (vs : List Value) : Locates index (orDrop vs (localSlot index))

/-- Does to the stack what the footprint says. No local is looked for but the one that is named. -/
inductive Treads (named : Option UInt32) : {α : Type} → Footprint → Exec α → Prop where
  | takes {α : Type} {n : Nat} {x : Exec α} (hx : Takes n x) : Treads named { pops := n } x
  | after {α β : Type} {n : Nat} {p : Footprint} {x : Exec α} {f : α → Exec β} (hx : Takes n x)
      (hf : ∀ a, Treads named p (f a)) : Treads named (p.under n) (x >>= f)
  | inspect {α : Type} {p : Footprint} {f : Core → Exec α} (hblind : Blind f) (hf : ∀ c, Treads named p (f c)) :
      Treads named p (get >>= f)
  | thenDrop {α : Type} {p : Footprint} {x : Exec α} (hx : Treads named p x) (vs : List Value) :
      Treads named p (thenDrop vs x)
  | push (v : Value) : Treads named { pushes := 1 } (push v)
  | top {α : Type} {f : Nat → Exec α} (hf : ∀ slot, Writes slot (f slot)) :
      Treads named { pops := 1, pushes := 1 } (topSlot >>= f)
  | store {α : Type} {index : UInt32} {x : Exec Nat} {f : Nat → Exec α} (hnamed : named = some index)
      (hx : Locates index x) (hf : ∀ slot, Writes slot (f slot)) : Treads named { touch := .slot index } (x >>= f)
  | load {α : Type} {index : UInt32} {p : Footprint} {f : Value → Exec α} (hnamed : named = some index)
      (hneeds : p.needs = 0) (hf : ∀ v, Treads named p (f v)) : Treads named p (localValue index >>= f)
  | duplicate (count : Nat) : Treads named { pushes := count, needs := count } (duplicate count)
  | duplicateAt (depth : UInt8) :
      Treads named { pushes := 1, needs := depth.toNat + 1 } (duplicateAt depth.toNat)
  | deleteAt (depth : UInt8) :
      Treads named { needs := depth.toNat + 1, touch := .removed depth.toNat } (deleteAt depth.toNat)
  | swap : Treads named { needs := 2, touch := .exchanged } swap
  | openIteration (owner : Owner) : Treads named { pushes := 2 } (openIteration owner)

/-! ### Taking operands -/

theorem Takes.off {n : Nat} {x : Exec α} {f : α → Exec β} (hx : Takes n x) (hf : ∀ a, Takes 0 (f a)) :
    Takes n (x >>= f) := hx.bind fun a _ => hf a

theorem takes_ofExcept {r : Except Fault α} (hr : Ordinary r) : Takes 0 (ofExcept r : Exec α) := by
  cases r with
  | ok a => exact .pure a
  | error f => exact .throw (hr f rfl)

theorem takes_forM {l : List α} {g : α → Exec PUnit} (hg : ∀ a, Takes 0 (g a)) : Takes 0 (l.forM g) := by
  induction l with
  | nil => exact .pure _
  | cons a l ih => exact (hg a).off fun _ => ih

theorem takes_drop (vs : List Value) : Takes 0 (drop vs) :=
  .change ⟨fun _ => rfl, fun _ => rfl, fun _ _ => rfl⟩

theorem takes_share (v : Value) : Takes 0 (share v) :=
  .change ⟨fun _ => rfl, fun _ => rfl, fun _ _ => rfl⟩

theorem takes_setCondition (b : Bool) : Takes 0 (setCondition b) :=
  .change ⟨fun _ => rfl, fun _ => rfl, fun _ _ => rfl⟩

theorem takes_popCoerced {t : CastTarget} (ht : ∀ v : Value, Ordinary (v.coerce t)) : Takes 1 (popCoerced t) :=
  Takes.pop.off fun v => (takes_drop [v]).off fun _ => takes_ofExcept (ht v)

theorem takes_popSize : Takes 1 (popExact .size) :=
  Takes.pop.off fun v => (takes_drop [v]).off fun _ => takes_ofExcept v.ordinary_exact_size

theorem takes_popCell : Takes 2 popCell := by
  refine (takes_popCoerced Value.ordinary_coerce_int).bind fun col _ =>
    (takes_popCoerced Value.ordinary_coerce_int).off fun row => ?_
  split_ifs
  · exact .pure _
  · exact .throw rfl

theorem takes_popPath (n : Nat) : Takes (2 * n) (popPath n) := by
  induction n with
  | zero => exact .pure _
  | succ n ih =>
    rw [Nat.mul_succ, Nat.add_comm]
    exact takes_popCell.bind fun cell _ => ih.off fun rest => .pure _

theorem takes_popOwner : Takes 1 popOwner :=
  (takes_popCoerced Value.ordinary_coerce_int64).off fun _ => .inspect (fun _ _ => rfl) fun _ => .pure _

theorem takes_leaveScope : Takes 1 leaveScope := by
  have hback : ∀ saved, onExecutor (Executor.leaveScope saved) = (do
      modify fun c : Core => { c with executor := { c.executor with self := c.executor.other } }
      let other ← ofExcept (Executor.restore saved)
      modify fun c : Core => { c with executor := { c.executor with other } }) := by
    intro saved
    funext c
    unfold onExecutor Executor.leaveScope
    cases Executor.restore saved <;> rfl
  have hrestore : ∀ saved, Ordinary (Executor.restore saved) := by
    intro saved
    cases saved with
    | undefined => exact ordinary_ok _
    | pointer n =>
      unfold Executor.restore
      dsimp only
      split_ifs
      · exact ordinary_ok _
      · exact ordinary_error rfl
    | _ => exact ordinary_error rfl
  refine Takes.pop.off fun saved => (takes_drop [saved]).off fun _ => ?_
  rw [hback]
  refine Takes.off (.change ⟨fun _ => rfl, fun _ => rfl, fun _ _ => rfl⟩) fun _ => ?_
  exact (takes_ofExcept (hrestore saved)).off fun _ => .change ⟨fun _ => rfl, fun _ => rfl, fun _ _ => rfl⟩

theorem takes_compare {test : Value → Value → Except Fault Bool} (htest : ∀ a b, Ordinary (test a b)) :
    Takes 2 (compare test) :=
  Takes.pop.bind fun right _ => (Takes.pop.orDrop [right]).off fun left => (takes_drop _).off fun _ =>
    (takes_ofExcept (htest left right)).off fun b => takes_setCondition b

theorem takes_closeIteration : Takes 2 closeIteration :=
  Takes.pop.bind fun v _ => (takes_drop [v]).bind fun _ _ => takes_leaveScope.off fun _ =>
    .change ⟨fun _ => rfl, fun _ => rfl, fun _ _ => rfl⟩

/-! ### Variables -/

theorem takes_storeTarget (id : InstanceId) : Takes 0 (storeTarget id) := by
  refine .inspect (fun _ _ => rfl) fun c => ?_
  split
  · exact .pure _
  · exact .throw rfl

theorem takes_loadTarget (id : InstanceId) : Takes 0 (loadTarget id) := by
  refine .inspect (fun _ _ => rfl) fun c => ?_
  split
  · exact .pure _
  · exact .throw rfl

theorem takes_firstTarget (ids : List InstanceId) : Takes 0 (firstTarget ids) := by
  cases ids with
  | nil => exact .throw rfl
  | cons id _ => exact takes_loadTarget id

theorem takes_updateGlobal (id : VariableId) (g : Memory → Value → Value × Memory) : Takes 0 (updateGlobal id g) :=
  .change ⟨fun _ => rfl, fun _ => rfl, fun _ _ => rfl⟩

theorem takes_updateVariable (i : Instance) (id : VariableId) (g : Memory → Value → Value × Memory) :
    Takes 0 (updateVariable i id g) :=
  .change ⟨fun _ => rfl, fun _ => rfl, fun _ _ => rfl⟩

theorem takes_storeEach {g : Instance → Value → Exec Unit} (hg : ∀ i v, Takes 0 (g i v)) (ids : List InstanceId)
    (v : Value) : Takes 0 (storeEach ids v g) :=
  (takes_forM fun id => (takes_storeTarget id).off fun i => (takes_share v).off fun w => hg i w).thenDrop _

theorem takes_storeVariable (owner : Owner) (id : VariableId) (v : Value) : Takes 0 (storeVariable owner id v) := by
  unfold storeVariable
  cases owner with
  | noone => exact takes_drop _
  | global => exact takes_updateGlobal _ _
  | single i => exact takes_storeEach (fun _ _ => takes_updateVariable _ _ _) _ _
  | multi is => exact takes_storeEach (fun _ _ => takes_updateVariable _ _ _) _ _

theorem takes_storeVariableCell (owner : Owner) (id : VariableId) (path : List Cell) (v : Value) :
    Takes 0 (storeVariableCell owner id path v) := by
  refine .inspect (fun _ _ => rfl) fun c => ?_
  cases owner with
  | noone => exact takes_drop _
  | global => exact takes_updateGlobal _ _
  | single i => exact takes_storeEach (fun _ _ => takes_updateVariable _ _ _) _ _
  | multi is => exact takes_storeEach (fun _ _ => takes_updateVariable _ _ _) _ _

theorem takes_readVariable (i : Instance) (id : VariableId) : Takes 0 (readVariable i id) := by
  unfold readVariable
  split
  · exact .pure _
  · exact .throw rfl

theorem takes_loadVariable (owner : Owner) (id : VariableId) : Takes 0 (loadVariable owner id) := by
  cases owner with
  | noone => exact .throw rfl
  | global =>
    exact (takes_updateGlobal id fun m v => (v, m)).off fun _ => .inspect (fun _ _ => rfl) fun _ => .pure _
  | single i => exact (takes_loadTarget i).off fun i => takes_readVariable i id
  | multi is => exact (takes_firstTarget is).off fun i => takes_readVariable i id

theorem takes_onWorld {g : World → Memory → Except Fault Unit × World × Memory}
    (hg : ∀ w m, Ordinary (g w m).1) : Takes 0 (onWorld g) := by
  refine Takes.bind (.change ⟨fun _ => rfl, fun _ => rfl, fun _ _ => rfl⟩) fun r hr => takes_ofExcept ?_
  obtain ⟨c, c', hrun⟩ := hr
  cases hrun
  exact hg c.world c.memory

theorem takes_storeBuiltin (owner : Owner) (id : VariableId) (cell? : Option Cell) (v : Value) :
    Takes 0 (storeBuiltin owner id cell? v) := by
  cases owner with
  | noone => exact takes_drop _
  | global => exact (Takes.throw rfl).orDrop _
  | single | multi =>
    refine takes_storeEach (fun i v => takes_onWorld fun w m => ?_) _ _
    cases cell? with
    | some cell => exact w.ordinary_storeBuiltinCell m i id cell v
    | none => exact w.ordinary_setBuiltin m i id v

theorem takes_readBuiltin (i : Instance) (id : VariableId) (cell? : Option Cell) :
    Takes 0 (do
      let c ← get
      match cell? with
      | some cell => ofExcept (c.world.builtinCell c.memory i id cell)
      | none => ofExcept (c.world.builtin i id)) := by
  refine .inspect (fun _ _ => rfl) fun c => ?_
  cases cell? with
  | some cell => exact takes_ofExcept (c.world.ordinary_builtinCell c.memory i id cell)
  | none => exact takes_ofExcept (c.world.ordinary_builtin i id)

theorem takes_loadBuiltin (owner : Owner) (id : VariableId) (cell? : Option Cell) :
    Takes 0 (loadBuiltin owner id cell?) := by
  have hread := fun i => takes_readBuiltin i id cell?
  cases owner with
  | noone => exact (Takes.throw rfl).off hread
  | global => exact (Takes.throw rfl).off hread
  | single i => exact (takes_loadTarget i).off hread
  | multi is => exact (takes_firstTarget is).off hread

theorem takes_builtinOwner (owned : Bool) : Takes owned.toNat (builtinOwner owned) := by
  cases owned with
  | true => exact takes_popOwner
  | false => exact .inspect (fun _ _ => rfl) fun _ => .pure _

theorem takes_builtinCell? (celled : Bool) : Takes (2 * celled.toNat) (builtinCell? celled) := by
  cases celled with
  | true => exact takes_popCell.off fun _ => .pure _
  | false => exact .pure _

/-! ### Slots -/

theorem writes_operateSlot (op : Operator) (slot : Nat) (right : Value) : Writes slot (operateSlot op slot right) := by
  refine (Writes.update _).bind fun r hr => takes_ofExcept ?_
  obtain ⟨c, c', hrun⟩ := hr
  cases hrun
  exact c.memory.ordinary_operate op _ right

theorem writes_invertSlot (slot : Nat) : Writes slot (do
    ofExcept (← updateSlot slot fun m v =>
      match v.invert with
      | .ok inverted => (.ok (), inverted, m)
      | .error f => (.error f, v, m)) : Exec Unit) := by
  refine (Writes.update _).bind fun r hr => takes_ofExcept ?_
  obtain ⟨c, c', hrun⟩ := hr
  cases hrun
  have hinvert := ((c.executor.stack[slot]?).getD .undefined).ordinary_invert
  split
  · exact ordinary_ok ()
  · rename_i f hf
    exact ordinary_error (hinvert f hf)

variable {named : Option UInt32} {index : UInt32}

theorem treads_storeLocal (hnamed : named = some index) (v : Value) :
    Treads named { touch := .slot index } (storeLocal index v) :=
  .store hnamed (.held [v]) fun _ => .update _

theorem treads_storeLocalCell (hnamed : named = some index) (path : List Cell) (v : Value) :
    Treads named { touch := .slot index } (storeLocalCell index path v) :=
  .store hnamed (.held [v]) fun _ => .inspect (fun _ _ => rfl) fun _ => .update _

/-! ### Results -/

theorem Treads.of_eq {p q : Footprint} {x : Exec α} (hx : Treads named p x) (h : p = q) : Treads named q x := h ▸ hx

theorem Treads.past {p : Footprint} {x : Exec α} {f : α → Exec β} (hx : Takes 0 x) (hf : ∀ a, Treads named p (f a)) :
    Treads named p (x >>= f) := .after hx hf

theorem treads_pushShared (v : Value) : Treads named { pushes := 1 } (pushShared v) := .past (takes_share v) .push

theorem treads_loadCell (v : Value) (path : List Cell) : Treads named { pushes := 1 } (loadCell v path) :=
  .inspect (fun _ _ => rfl) fun c => .past (takes_ofExcept (c.memory.ordinary_peekNested v path)) treads_pushShared

theorem treads_binary (op : Operator) : Treads named { pops := 2, pushes := 1 } (binary op) :=
  .after .pop fun right => .thenDrop (.top fun slot => writes_operateSlot op slot right) _

theorem treads_logical (connective : Bool → Bool → Bool) :
    Treads named { pops := 2, pushes := 1 } (logical connective) :=
  .after (takes_popCoerced Value.ordinary_coerce_bool) fun _ =>
    .after (takes_popCoerced Value.ordinary_coerce_bool) fun _ => .push _

end Exec

/-! ### Instructions -/

open Exec

namespace Mode

theorem treads_storing (mode : Mode) (cells : Nat) :
    Treads mode.local? { pops := mode.arity cells + 1, touch := mode.touch } (mode.storing cells) := by
  have hpath := fun v => (takes_popPath cells).orDrop [v]
  have howned : ∀ (owner : Owner) (id : VariableId) (path : List Cell) (v : Value),
      Takes 0 (Target.store path v (.owned owner id)) := by
    intro owner id path v
    unfold Target.store
    split_ifs
    · exact takes_storeVariable owner id v
    · exact takes_storeVariableCell owner id path v
  -- what is stored into is known once the operands are
  cases mode with
  | slot index =>
    simp only [storing, operands, orDrop_bind, orDrop_pure, bind_assoc, pure_bind]
    refine (Treads.after .pop fun v => .after (hpath v) fun path => treads_storeLocalCell rfl path v).of_eq ?_
    simp [Footprint.under, arity, touch]
  | self id =>
    simp only [storing, operands, orDrop_bind, orDrop_pure, orDrop_get, bind_assoc, pure_bind]
    refine (Treads.after .pop fun v => .after (hpath v) fun path =>
      .inspect (fun _ _ => rfl) fun c => .takes (howned _ id path v)).of_eq ?_
    simp [Footprint.under, arity, touch]
  | owner id =>
    simp only [storing, operands, orDrop_bind, orDrop_pure, bind_assoc, pure_bind]
    refine (Treads.after .pop fun v => .after (takes_popOwner.orDrop [v]) fun owner => .after (hpath v) fun path =>
      .takes (howned owner id path v)).of_eq ?_
    simp [Footprint.under, arity, touch]
  | global id =>
    simp only [storing, operands, orDrop_bind, orDrop_pure, bind_assoc, pure_bind]
    refine (Treads.after .pop fun v => .after (hpath v) fun path => .takes (howned _ id path v)).of_eq ?_
    simp [Footprint.under, arity, touch]

theorem treads_loading (mode : Mode) (cells : Nat) :
    Treads mode.local? { pops := mode.arity cells, pushes := 1 } (mode.loading cells) := by
  have hpath := takes_popPath cells
  cases mode with
  | slot index =>
    simp only [loading, operands, bind_assoc, pure_bind]
    refine (Treads.after hpath fun path => .load rfl rfl fun v => treads_loadCell v path).of_eq ?_
    simp [Footprint.under, arity]
  | self id =>
    simp only [loading, operands, bind_assoc, pure_bind]
    refine (Treads.after hpath fun path => .inspect (fun _ _ => rfl) fun c =>
      .past (takes_loadVariable _ id) fun v => treads_loadCell v path).of_eq ?_
    simp [Footprint.under, arity]
  | owner id =>
    simp only [loading, operands, bind_assoc, pure_bind]
    refine (Treads.after takes_popOwner fun owner => .after hpath fun path =>
      .past (takes_loadVariable owner id) fun v => treads_loadCell v path).of_eq ?_
    simp [Footprint.under, arity]
  | global id =>
    simp only [loading, operands, bind_assoc, pure_bind]
    refine (Treads.after hpath fun path => .past (takes_loadVariable .global id) fun v => treads_loadCell v path).of_eq ?_
    simp [Footprint.under, arity]

end Mode

namespace Form

/-- Keeps its base and does not branch, and its footprint is fixed. -/
def isPlain : Form → Bool
  | openLocals _ | advanceIteration | branch _ | branchIf _ => false
  | _ => true

theorem treads_effect {f : Form} (hplain : f.isPlain = true) (iterated : Bool) :
    Treads f.local? (f.footprint iterated) f.effect := by
  cases f with
  | constant v hv => exact .push v
  | self | other | condition => exact .inspect (fun _ _ => rfl) fun _ => .push _
  | newArray => exact .past (.change ⟨fun _ => rfl, fun _ => rfl, fun _ _ => rfl⟩) fun v => .push v
  | adjustTop op => exact .top fun slot => writes_operateSlot op slot _
  | adjustLocal op index => exact .store rfl .bare fun slot => writes_operateSlot op slot _
  | binary op => exact treads_binary op
  | relate r => exact .takes (takes_compare (Value.ordinary_related r))
  | equal | unequal => exact .takes (takes_compare fun _ _ => ordinary_ok _)
  | logical connective => exact treads_logical connective
  | invert => exact .top writes_invertSlot
  | test g => exact .takes ((takes_popCoerced Value.ordinary_coerce_bool).off fun _ => takes_setCondition _)
  | copying b => exact .takes (.change ⟨fun _ => rfl, fun _ => rfl, fun _ _ => rfl⟩)
  | store mode cells => exact mode.treads_storing cells
  | load mode cells => exact mode.treads_loading cells
  | storeBuiltin owned celled id =>
    refine (Treads.after .pop fun v => .after ((takes_builtinOwner owned).orDrop [v]) fun owner =>
      .after ((takes_builtinCell? celled).orDrop [v]) fun cell? =>
        .takes (takes_storeBuiltin owner id cell? v)).of_eq ?_
    simp [Footprint.under, footprint, builtinArity]
  | loadBuiltin owned celled id =>
    refine (Treads.after (takes_builtinOwner owned) fun owner => .after (takes_builtinCell? celled) fun cell? =>
      .past (takes_loadBuiltin owner id cell?) treads_pushShared).of_eq ?_
    simp [Footprint.under, footprint, builtinArity]
  | discard => exact .takes (Takes.pop.off fun v => takes_drop [v])
  | duplicate count => exact .duplicate count
  | duplicateAt depth => exact .duplicateAt depth
  | deleteAt depth => exact .deleteAt depth
  | swap => exact .swap
  | openIteration => exact .after takes_popOwner .openIteration
  | closeIteration => exact .takes takes_closeIteration
  | endOfUnit => exact .takes (.throw rfl)
  | nothing => exact .takes (.pure ())
  | openLocals | advanceIteration | branch | branchIf => cases hplain

end Form
end ScriptVm
