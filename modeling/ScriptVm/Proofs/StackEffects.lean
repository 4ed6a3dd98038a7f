import ScriptVm.Proofs.Dispatch
import ScriptVm.Proofs.Operands

/-! What instructions do to the operand stack, those included whose footprint depends on what lies there. What lies
deeper than the operands that an instruction takes, modifies or removes stays as it is, and so does everything below
the base as long as these operands lie above it; locals are there by themselves. This holds whether the instruction
succeeds or not. A step that succeeds leaves the stack that its footprint says; where the stack has fewer values than
it looks at, the step fails, and in a way that a program can deal with. -/

namespace ScriptVm

def Executor.topNumber (e : Executor) : Option Nat :=
  e.stack.back?.bind fun v => (v.exact .size).toOption.map (·.toNat)

/-- Whether the iteration on top has come to its end. -/
def Executor.iterated (e : Executor) : Bool :=
  (e.topNumber.bind (e.iterations[·]?)).any (·.current?.isNone)

namespace Instruction
open Exec

/-- How many of the top operands an instruction takes, modifies or removes. Those that only copy operands
take none. -/
def reach (natives : UInt32 → Option Signature) (c : Core) : Instruction → Nat
  | ⟨.inc, _⟩ | ⟨.dec, _⟩ | ⟨.bnot, _⟩ | ⟨.cond, _⟩ | ⟨.ncond, _⟩ | ⟨.stl, _⟩ | ⟨.sts, _⟩ | ⟨.ldo, _⟩
  | ⟨.stg, _⟩ | ⟨.stt, _⟩ | ⟨.ldp, _⟩ | ⟨.pop, _⟩ | ⟨.wti, _⟩ => 1
  | ⟨.add2, _⟩ | ⟨.sub2, _⟩ | ⟨.mult2, _⟩ | ⟨.fdiv2, _⟩ | ⟨.idiv2, _⟩ | ⟨.mod2, _⟩ | ⟨.lsh2, _⟩ | ⟨.rsh2, _⟩
  | ⟨.gt, _⟩ | ⟨.lt, _⟩ | ⟨.gte, _⟩ | ⟨.lte, _⟩ | ⟨.eq, _⟩ | ⟨.neq, _⟩ | ⟨.bland, _⟩ | ⟨.blor, _⟩
  | ⟨.blxor, _⟩ | ⟨.band, _⟩ | ⟨.bor, _⟩ | ⟨.bxor, _⟩ | ⟨.sto, _⟩ | ⟨.stp, _⟩ | ⟨.ldla, _⟩ | ⟨.ldsa, _⟩
  | ⟨.ldga, _⟩ | ⟨.swap, _⟩ | ⟨.wtd, _⟩ => 2
  | ⟨.stla, _⟩ | ⟨.stsa, _⟩ | ⟨.stga, _⟩ | ⟨.ldoa, _⟩ | ⟨.ldpa, _⟩ => 3
  | ⟨.stoa, _⟩ | ⟨.stpa, _⟩ => 4
  -- two numbers for each of the nested arrays
  | ⟨.stlax, (_, depth, ())⟩ => 1 + 2 * (depth.toNat + 1)
  | ⟨.ldlax, (_, depth, ())⟩ => 2 * (depth.toNat + 1)
  | ⟨.stoax, (_, depth, ())⟩ => 2 + 2 * (depth.toNat + 1)
  | ⟨.ldoax, (_, depth, ())⟩ => 1 + 2 * (depth.toNat + 1)
  | ⟨.deli, (depth, ())⟩ => depth.toNat + 1
  | ⟨.wty, _⟩ => if c.executor.iterated then 2 else 0
  | ⟨.nat, (index, arity, ())⟩ =>
    if (natives index).any (·.arity = arity) then
      if arity = Signature.variadic then 1 + c.executor.topNumber.getD 0
      else if arity = Signature.silent then 1
      else arity.toInt.toNat
    else 0
  | ⟨.call, (_, count, ())⟩ => count.toNat
  | ⟨.ret, (count, ())⟩ => count.toNat
  | _ => 0

theorem reach_footprint_le {i : Instruction} (hwty : i.op ≠ .wty) (natives : UInt32 → Option Signature) (c : Core) :
    (i.footprint false).reach ≤ i.reach natives c := by
  obtain ⟨op, operands⟩ := i
  cases op with
  | wty => exact absurd rfl hwty
  | nat | call | ret => exact Nat.zero_le _
  | stlax | ldoax =>
    change 2 * (operands.2.1.toNat + 1) + 1 ≤ 1 + 2 * (operands.2.1.toNat + 1)
    exact (Nat.add_comm _ _).le
  | stoax =>
    change 2 * (operands.2.1.toNat + 1) + 2 ≤ 2 + 2 * (operands.2.1.toNat + 1)
    exact (Nat.add_comm _ _).le
  | deli => exact (Nat.zero_add _).le
  | _ => exact le_rfl

end Instruction

namespace Exec
variable {α : Type} {below : List Value} {c : Core}

theorem run_ofExcept_ok {β : Type} (a : α) (f : α → Exec β) (c : Core) : (ofExcept (.ok a) >>= f) c = f a c := rfl

theorem popExact_of_back {v : Value} (hv : c.executor.stack.back? = some v) (t : CastTarget) :
    popExact t c =
      let popped : Core := { c with
        executor := { c.executor with stack := c.executor.stack.pop }
        memory := c.memory.release [v] }
      match v.exact t with
      | .ok n => .ok n popped
      | .error f => .error f popped := by
  unfold popExact pop onExecutor Executor.pop
  simp only [bind, EStateM.bind, hv]
  dsimp only [drop, modify]
  cases v.exact t <;> rfl

theorem topNumber_of_exact {v : Value} {n : UInt64} (hv : c.executor.stack.back? = some v)
    (hn : v.exact .size = .ok n) : c.executor.topNumber = some n.toNat := by
  simp [Executor.topNumber, hv, hn, Except.toOption]

theorem popExact_size_cases (c : Core) :
    (∃ n v, popExact .size c = .ok n { c with
        executor := { c.executor with stack := c.executor.stack.pop }
        memory := c.memory.release [v] } ∧
      c.executor.topNumber = some n.toNat ∧ c.executor.stack.toList = c.executor.stack.pop.toList ++ [v]) ∨
    (c.executor.topNumber = none ∧ ∃ f c', popExact .size c = .error f c') := by
  cases hv : c.executor.stack.back? with
  | none =>
    refine Or.inr ⟨by rw [Executor.topNumber, hv, Option.bind_none], .underflow, c, ?_⟩
    unfold popExact pop onExecutor Executor.pop
    simp only [bind, EStateM.bind, hv]
  | some v =>
    rw [popExact_of_back hv]
    cases hn : v.exact .size with
    | error f =>
      refine Or.inr ⟨?_, f, _, rfl⟩
      rw [Executor.topNumber, hv, Option.bind_some, hn]
      rfl
    | ok n => exact Or.inl ⟨n, v, rfl, topNumber_of_exact hv hn, toList_eq_pop hv⟩

theorem advanceIteration_cases (c : Core) :
    (∃ f, advanceIteration c = .error f c) ∨
    (c.executor.iterated = false ∧ 0 < c.executor.stack.size ∧ ∃ c', c.Popped 0 c' ∧ advanceIteration c = .ok () c') ∨
    (c.executor.iterated = true ∧ advanceIteration c = (closeIteration >>= fun _ => setCondition true) c) := by
  unfold advanceIteration
  rw [run_get]
  cases hpeek : c.executor.peek 0 with
  | error f => exact Or.inl ⟨f, rfl⟩
  | ok v =>
    obtain ⟨hsize, hv⟩ := Executor.peek_eq_ok hpeek
    have hback : c.executor.stack.back? = some v := by
      rw [Array.back?_eq_getElem?, Array.getElem?_eq_getElem (by omega)]
      exact congrArg some hv
    rw [run_ofExcept_ok]
    cases hexact : v.exact .size with
    | error f => exact Or.inl ⟨f, rfl⟩
    | ok n =>
      rw [run_ofExcept_ok, run_get, Executor.iterated, topNumber_of_exact hback hexact, Option.bind_some]
      cases c.executor.iterations[n.toNat]? with
      | none => exact Or.inl ⟨_, rfl⟩
      | some iteration =>
        rw [Option.any_some]
        dsimp only
        cases iteration.current? with
        | some id =>
          refine Or.inr (Or.inl ⟨rfl, hsize, { c with executor := { c.executor with
            iterations := c.executor.iterations.setIfInBounds n.toNat iteration.advance
            self := some id
            condition := false } }, Core.popped_zero rfl rfl, rfl⟩)
        | none => exact Or.inr (Or.inr ⟨rfl, rfl⟩)

theorem above_advanceIteration (hc : c.Above below (if c.executor.iterated then 2 else 0)) :
    Ends (·.Above below 0) (fun _ => (·.Above below 0)) (advanceIteration c) := by
  have hkept : c.Above below 0 := hc.mono (Nat.zero_le _)
  rcases advanceIteration_cases c with ⟨f, hfailed⟩ | ⟨-, -, c', hsame, hnext⟩ | ⟨hended, hclosed⟩
  · rw [hfailed]
    exact hkept
  · rw [hnext]
    exact hsame.above hkept
  · rw [hclosed]
    rw [hended] at hc
    exact (takes_closeIteration.off fun _ => takes_setCondition true).above hc

theorem above_popMany {count : Nat} (hc : c.Above below count) :
    Ends (·.Above below 0) (fun _ => (·.Above below 0)) (popMany count c) := by
  rw [popMany_eq]
  split_ifs with hcount
  · exact hc.mono (Nat.zero_le _)
  · have hpopped : c.Popped count { c with executor := { c.executor with
        stack := c.executor.stack.take (c.executor.stack.size - count) } } := by
      refine ⟨rfl, c.executor.stack.toList.drop (c.executor.stack.size - count), ?_, ?_⟩
      · change _ = (c.executor.stack.take _).toList ++ _
        rw [Array.take_eq_extract, Array.toList_extract, List.extract_eq_take_drop, List.drop_zero, Nat.sub_zero,
          List.take_append_drop]
      · rw [List.length_drop, Array.length_toList]
        omega
    exact hpopped.above hc

theorem above_nativeArguments {signature? : Option Signature} {index : UInt32} {arity : Int8}
    (hc : c.Above below (if signature?.any (·.arity = arity) then
      if arity = Signature.variadic then 1 + c.executor.topNumber.getD 0
      else if arity = Signature.silent then 1
      else arity.toInt.toNat
    else 0)) :
    Ends (·.Above below 0) (fun _ => (·.Above below 0)) (nativeArguments signature? index arity c) := by
  unfold nativeArguments
  cases signature? with
  | none => exact hc
  | some s =>
    by_cases hs : s.arity = arity
    · subst hs
      simp only [Option.any_some, decide_true, ↓reduceIte, ne_eq, not_true_eq_false] at hc ⊢
      split_ifs at hc ⊢
      · -- how many there are is known only once the number is off the stack
        have hpop := takes_popSize.above hc
        simp only [bind, EStateM.bind]
        rcases popExact_size_cases c with ⟨n, v, hn, htop, -⟩ | ⟨-, f, c', hfailed⟩
        · rw [hn, htop] at hpop
          simp only [hn]
          exact above_popMany hpop
        · rw [hfailed] at hpop
          simp only [hfailed]
          exact hpop
      · exact above_popMany hc
      · exact above_popMany hc
    · have hkept : c.Above below 0 := hc.mono (Nat.zero_le _)
      dsimp only
      rw [if_pos hs]
      exact hkept

end Exec

/-- What is below the base stays as it is if the operands that the instruction reaches lie above. -/
theorem Instruction.above_execute {i : Instruction} (hall : i.op ≠ .all) (hcall : i.op ≠ .call) (hret : i.op ≠ .ret)
    {natives : UInt32 → Option Signature} {below : List Value} {c : Core} (hc : c.Above below (i.reach natives c)) :
    Exec.Ends (·.Above below 0) (fun _ => (·.Above below 0)) (i.execute natives c) := by
  have hkept : c.Above below 0 := hc.mono (Nat.zero_le _)
  by_cases hwty : i.op = .wty
  · obtain ⟨op, operands⟩ := i
    cases hwty
    exact (Exec.above_advanceIteration hc).give _
  · have heffect := (leaves_effect hall hwty false).above (hc.mono (reach_footprint_le hwty natives c))
    obtain ⟨op, operands⟩ := i
    cases op with
    | all => exact absurd rfl hall
    | call => exact absurd rfl hcall
    | ret => exact absurd rfl hret
    | wty => exact absurd rfl hwty
    | nat => exact (Exec.above_nativeArguments hc).map _
    | sus =>
      change Exec.Ends _ _ ((if 1 < c.runs then _ else _ : Exec Flow) c)
      split_ifs
      · exact hkept
      · exact hkept
    | _ => exact heffect.give _

theorem Exec.fits_openLocals (count : UInt32) (c : Core) :
    Ends (fun c' => ({ pushes := 1 + count.toNat } : Footprint).Fits c.executor.base c.executor.stack.toList
      c'.executor.stack.toList) (fun _ _ => False) (openLocals count c) := by
  have hlocals : (.uint c.executor.base.toUInt64 :: List.replicate count.toNat Value.undefined).length =
      1 + count.toNat := by
    rw [List.length_cons, List.length_replicate, Nat.add_comm]
  change Footprint.Fits _ _ _ (c.executor.stack.push _ ++ Array.replicate _ _).toList
  rw [← hlocals, Array.toList_append, Array.toList_push, Array.toList_replicate, List.append_assoc]
  exact Footprint.fits_append (Nat.zero_le _) _

namespace Instruction
open Exec

theorem ends_execute {i : Instruction} (hnat : i.op ≠ .nat) (hcall : i.op ≠ .call) (hret : i.op ≠ .ret)
    (natives : UInt32 → Option Signature) (c : Core) : Ends
      (fun c' => (i.footprint c.executor.iterated).Fits c.executor.base c.executor.stack.toList
        c'.executor.stack.toList)
      (fun f _ => c.executor.stack.size < (i.footprint c.executor.iterated).needs → f ≠ .crash)
      (i.execute natives c) := by
  by_cases hwty : i.op = .wty
  · obtain ⟨op, operands⟩ := i
    cases hwty
    refine Ends.give (x := advanceIteration) ?_ Flow.next
    change Ends (fun c' => (if c.executor.iterated then { pops := 2 } else { needs := 1 } : Footprint).Fits _ _ _) _ _
    rcases advanceIteration_cases c with ⟨f, hfailed⟩ | ⟨hgoing, hsize, c', hsame, hnext⟩ | ⟨hended, hclosed⟩
    · have hsteady := steady_advanceIteration c
      rw [hfailed] at hsteady ⊢
      rintro - rfl
      cases hsteady.2
    · rw [hnext, hgoing]
      change Footprint.Fits _ _ _ c'.executor.stack.toList
      rw [hsame.stack_eq]
      exact Footprint.fits_touch hsize rfl
    · rw [hclosed, hended]
      exact (leaves_takes (takes_closeIteration.off fun _ => takes_setCondition true) c).mono (fun _ h => h.2)
        fun _ _ h => h.1
  · by_cases hall : i.op = .all
    · obtain ⟨op, operands⟩ := i
      cases hall
      exact ((fits_openLocals operands.1 c).mono (fun _ h => h) fun _ _ h => h.elim).give _
    have heffect := (leaves_effect hall hwty c.executor.iterated c).mono (fun _ h => h.2) fun _ _ h => h.1
    obtain ⟨op, operands⟩ := i
    cases op with
    | nat => exact absurd rfl hnat
    | call => exact absurd rfl hcall
    | ret => exact absurd rfl hret
    | wty => exact absurd rfl hwty
    | all => exact absurd rfl hall
    | sus =>
      change Ends _ _ ((if 1 < c.runs then _ else _ : Exec Flow) c)
      split_ifs
      · exact fun hfew => absurd hfew (Nat.not_lt_zero _)
      · exact Footprint.fits_same _ _
    | _ => exact heffect.give _

end Instruction
end ScriptVm
