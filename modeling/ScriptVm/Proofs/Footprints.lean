import ScriptVm.Proofs.Forms

/-! What an instruction does to the operand stack, read off the instruction alone: how many operands it takes off, how
many results it puts there, how deep it looks, and which one cell below it touches. -/

namespace ScriptVm

/-- What happens below the operands. -/
inductive Touch where
  | nothing
  | slot (index : UInt32)
  /-- The cell so far below the top is removed. -/
  | removed (depth : Nat)
  | exchanged
deriving DecidableEq, Repr

/-- From one list of values to another, given where the locals begin. -/
def Touch.Leads (base : Nat) : Touch → List Value → List Value → Prop
  | .nothing, below, below' => below' = below
  | .slot index, below, below' =>
    base + index.toNat < below.length ∧ ∃ v, below' = below.set (base + index.toNat) v
  | .removed depth, below, below' =>
    ∃ deeper v above, below = deeper ++ v :: above ∧ above.length = depth ∧ below' = deeper ++ above
  | .exchanged, below, below' => ∃ deeper u v, below = deeper ++ [u, v] ∧ below' = deeper ++ [v, u]

structure Footprint where
  pops : Nat := 0
  pushes : Nat := 0
  /-- How many values have to be there. -/
  needs : Nat := pops
  touch : Touch := .nothing
deriving DecidableEq, Repr

namespace Footprint

/-- The operands are gone, what lay below is there but for the cell that is touched, and the results are
on top. -/
def Fits (p : Footprint) (base : Nat) (stack stack' : List Value) : Prop :=
  p.needs ≤ stack.length ∧ ∃ below operands below' results,
    stack = below ++ operands ∧ operands.length = p.pops ∧ p.touch.Leads base below below' ∧
      stack' = below' ++ results ∧ results.length = p.pushes

/-- With so many more operands on top of the others. -/
def under (p : Footprint) (n : Nat) : Footprint := { p with pops := p.pops + n, needs := p.needs + n }

theorem Fits.under {p : Footprint} {base : Nat} {stack stack' ops : List Value} (h : p.Fits base stack stack') :
    (p.under ops.length).Fits base (stack ++ ops) stack' := by
  obtain ⟨hneeds, below, operands, below', results, rfl, hpops, htouch, hstack', hpushes⟩ := h
  refine ⟨?_, below, operands ++ ops, below', results, List.append_assoc _ _ _, ?_, htouch, hstack', hpushes⟩
  · rw [List.length_append]
    exact Nat.add_le_add_right hneeds _
  · rw [List.length_append, hpops]
    rfl

theorem fits_same (base : Nat) (stack : List Value) : ({} : Footprint).Fits base stack stack :=
  ⟨Nat.zero_le _, stack, [], stack, [], by simp, rfl, rfl, by simp, rfl⟩

theorem fits_touch {base needs : Nat} {touch : Touch} {stack stack' : List Value} (hneeds : needs ≤ stack.length)
    (htouch : touch.Leads base stack stack') : ({ needs, touch } : Footprint).Fits base stack stack' :=
  ⟨hneeds, stack, [], stack', [], by simp, rfl, htouch, by simp, rfl⟩

theorem fits_append {base needs : Nat} {stack : List Value} (hneeds : needs ≤ stack.length) (results : List Value) :
    ({ pushes := results.length, needs } : Footprint).Fits base stack (stack ++ results) :=
  ⟨hneeds, stack, [], stack, results, by simp, rfl, rfl, rfl, rfl⟩

end Footprint

namespace Mode

def local? : Mode → Option UInt32
  | .slot index => some index
  | _ => none

def touch : Mode → Touch
  | .slot index => .slot index
  | _ => .nothing

end Mode

namespace Form

def local? : Form → Option UInt32
  | adjustLocal _ index => some index
  | store mode _ | load mode _ => mode.local?
  | _ => none

def footprint (iterated : Bool) : Form → Footprint
  | constant _ _ | self | other | newArray | condition => { pushes := 1 }
  | adjustTop _ | invert => { pops := 1, pushes := 1 }
  | adjustLocal _ index => { touch := .slot index }
  | binary _ | logical _ => { pops := 2, pushes := 1 }
  | relate _ | equal | unequal | closeIteration => { pops := 2 }
  | test _ | discard => { pops := 1 }
  | openLocals count => { pushes := 1 + count.toNat }
  | store mode cells => { pops := mode.arity cells + 1, touch := mode.touch }
  | load mode cells => { pops := mode.arity cells, pushes := 1 }
  | storeBuiltin owned celled _ => { pops := Exec.builtinArity owned celled + 1 }
  | loadBuiltin owned celled _ => { pops := Exec.builtinArity owned celled, pushes := 1 }
  | duplicate count => { pushes := count, needs := count }
  | duplicateAt depth => { pushes := 1, needs := depth.toNat + 1 }
  | deleteAt depth => { needs := depth.toNat + 1, touch := .removed depth.toNat }
  | swap => { needs := 2, touch := .exchanged }
  | openIteration => { pops := 1, pushes := 2 }
  | advanceIteration => if iterated then { pops := 2 } else { needs := 1 }
  | copying _ | branch _ | branchIf _ | endOfUnit | nothing => {}

end Form

/-- The local that an instruction names. -/
def Instruction.local? : Instruction → Option UInt32
  | ⟨.incl, (index, ())⟩ | ⟨.decl, (index, ())⟩ | ⟨.stl, (index, ())⟩ | ⟨.ldl, (index, ())⟩
  | ⟨.stla, (index, ())⟩ | ⟨.ldla, (index, ())⟩ | ⟨.stlax, (index, _, ())⟩
  | ⟨.ldlax, (index, _, ())⟩ => some index
  | _ => none

namespace Instruction

/-- What an instruction does to the stack. An iteration is advanced, or closed if it has come to its end. -/
def footprint (iterated : Bool) : Instruction → Footprint
  | ⟨.ldiFalse, _⟩ | ⟨.ldiTrue, _⟩ | ⟨.ldiUndef, _⟩ | ⟨.ldiF32, _⟩ | ⟨.ldiF64, _⟩ | ⟨.ldiS32, _⟩ | ⟨.ldiU64, _⟩
  | ⟨.ldiString, _⟩ | ⟨.ldiZero, _⟩ | ⟨.ldiSelf, _⟩ | ⟨.ldiOther, _⟩ | ⟨.ldiArr, _⟩ | ⟨.pcond, _⟩ | ⟨.ldl, _⟩
  | ⟨.lds, _⟩ | ⟨.ldg, _⟩ | ⟨.ldt, _⟩ => { pushes := 1 }
  | ⟨.inc, _⟩ | ⟨.dec, _⟩ | ⟨.bnot, _⟩ | ⟨.ldo, _⟩ | ⟨.ldp, _⟩ => { pops := 1, pushes := 1 }
  | ⟨.add2, _⟩ | ⟨.sub2, _⟩ | ⟨.mult2, _⟩ | ⟨.fdiv2, _⟩ | ⟨.idiv2, _⟩ | ⟨.mod2, _⟩ | ⟨.lsh2, _⟩ | ⟨.rsh2, _⟩
  | ⟨.band, _⟩ | ⟨.bor, _⟩ | ⟨.bxor, _⟩ | ⟨.bland, _⟩ | ⟨.blor, _⟩ | ⟨.blxor, _⟩ | ⟨.ldla, _⟩ | ⟨.ldsa, _⟩
  | ⟨.ldga, _⟩ => { pops := 2, pushes := 1 }
  | ⟨.ldoa, _⟩ | ⟨.ldpa, _⟩ => { pops := 3, pushes := 1 }
  | ⟨.cond, _⟩ | ⟨.ncond, _⟩ | ⟨.sts, _⟩ | ⟨.stg, _⟩ | ⟨.stt, _⟩ | ⟨.pop, _⟩ => { pops := 1 }
  | ⟨.gt, _⟩ | ⟨.lt, _⟩ | ⟨.gte, _⟩ | ⟨.lte, _⟩ | ⟨.eq, _⟩ | ⟨.neq, _⟩ | ⟨.sto, _⟩ | ⟨.stp, _⟩
  | ⟨.wtd, _⟩ => { pops := 2 }
  | ⟨.stsa, _⟩ | ⟨.stga, _⟩ => { pops := 3 }
  | ⟨.stoa, _⟩ | ⟨.stpa, _⟩ => { pops := 4 }
  | ⟨.incl, (index, ())⟩ | ⟨.decl, (index, ())⟩ => { touch := .slot index }
  | ⟨.stl, (index, ())⟩ => { pops := 1, touch := .slot index }
  | ⟨.stla, (index, ())⟩ => { pops := 3, touch := .slot index }
  -- two numbers for each of the nested arrays
  | ⟨.stlax, (index, depth, ())⟩ => { pops := 2 * (depth.toNat + 1) + 1, touch := .slot index }
  | ⟨.ldlax, (_, depth, ())⟩ => { pops := 2 * (depth.toNat + 1), pushes := 1 }
  | ⟨.stoax, (_, depth, ())⟩ => { pops := 2 * (depth.toNat + 1) + 2 }
  | ⟨.ldoax, (_, depth, ())⟩ => { pops := 2 * (depth.toNat + 1) + 1, pushes := 1 }
  | ⟨.all, (count, ())⟩ => { pushes := 1 + count.toNat }
  -- those that only look at operands, or move them
  | ⟨.dup, _⟩ => { pushes := 1, needs := 1 }
  | ⟨.dup2, _⟩ => { pushes := 2, needs := 2 }
  | ⟨.dup3, _⟩ => { pushes := 3, needs := 3 }
  | ⟨.dupn, (count, ())⟩ => { pushes := count.toNat, needs := count.toNat }
  | ⟨.dupi, (depth, ())⟩ => { pushes := 1, needs := depth.toNat + 1 }
  | ⟨.deli, (depth, ())⟩ => { needs := depth.toNat + 1, touch := .removed depth.toNat }
  | ⟨.swap, _⟩ => { needs := 2, touch := .exchanged }
  | ⟨.wti, _⟩ => { pops := 1, pushes := 2 }
  | ⟨.wty, _⟩ => if iterated then { pops := 2 } else { needs := 1 }
  | ⟨.sfx, _⟩ | ⟨.ufx, _⟩ | ⟨.nat, _⟩ | ⟨.jmp, _⟩ | ⟨.bcond, _⟩ | ⟨.call, _⟩ | ⟨.ret, _⟩ | ⟨.sus, _⟩ | ⟨.nop, _⟩
  | ⟨.eof, _⟩ => {}

theorem footprint_form (i : Instruction) (iterated : Bool) : i.footprint iterated = i.form.footprint iterated := by
  obtain ⟨op, operands⟩ := i
  cases op <;> rfl

theorem local?_form (i : Instruction) : i.local? = i.form.local? := by
  obtain ⟨op, operands⟩ := i
  cases op <;> rfl

end Instruction
end ScriptVm
