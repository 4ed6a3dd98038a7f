import ScriptVm.Proofs.Pieces

/-! Execution in other sections. Nothing but calls, returns and branches looks at where in code execution stands, who
called, or which sections there are; and these only pass places on. So what is executed does the same when each
section is exchanged for another one that is called alike, and then stands in the other section. -/

namespace ScriptVm

/-- Sections that are called and named alike. -/
structure Section.Matches (s s' : Section) : Prop where
  results : s'.results = s.results
  parameters : s'.parameters = s.parameters
  name? : s'.name? = s.name?
  symbols? : s'.symbols? = s.symbols?

theorem Section.Matches.checkArguments {s s' : Section} (h : s.Matches s') (count : Nat) :
    s'.checkArguments count = s.checkArguments count := by
  simp only [Section.checkArguments, Section.name, h.parameters, h.name?]

variable {R : Section → Section}

theorem SectionTable.get_relocate (R : Section → Section) (t : SectionTable) (index : UInt32) :
    (t.relocate R).get index = (t.get index).map R := by
  have hget : (t.relocate R).get? index = (t.get? index).map R := by
    simp only [get?, relocate, Array.getElem?_map]
    cases t.entries[index.toNat]? with
    | none => rfl
    | some entry => cases entry <;> rfl
  unfold get
  rw [hget]
  cases t.get? index <;> rfl

theorem Core.trace_relocate (hR : ∀ s : Section, s.Matches (R s)) (c : Core) : (c.relocate R).trace = c.trace := by
  have hentry : ∀ pc : Cursor, (pc.relocate R).traceEntry = pc.traceEntry := by
    intro pc
    have hmatches := hR pc.home
    simp only [Cursor.traceEntry, Cursor.relocate, Section.name, Section.lineAt?, hmatches.name?, hmatches.symbols?]
  have hempty : (c.executor.callers.map (·.relocate R)).isEmpty = c.executor.callers.isEmpty := by simp [Array.isEmpty]
  unfold trace
  simp only [relocate, Array.toList_map, hempty, List.map_append, List.map_cons, List.map_nil, hentry,
    ← List.map_drop, List.map_map, Function.comp_def]

namespace Exec
variable {α β : Type}

def relocate (R : Section → Section) : EStateM.Result Fault Core α → EStateM.Result Fault Core α
  | .ok a c => .ok a (c.relocate R)
  | .error f c => .error f (c.relocate R)

/-- Does the same in other sections. -/
def Placeless (R : Section → Section) (x : Exec α) : Prop := ∀ c : Core, x (c.relocate R) = relocate R (x c)

/-! ### Sequences -/

theorem Placeless.bind_of {x : Exec α} {f : α → Exec β} (hx : Placeless R x)
    (hf : ∀ a, Yields x a → Placeless R (f a)) : Placeless R (x >>= f) := by
  intro c
  simp only [Bind.bind, EStateM.bind, hx c]
  cases hrun : x c with
  | ok a d => exact hf a ⟨c, d, hrun⟩ d
  | error fault d => rfl

theorem Placeless.bind {x : Exec α} {f : α → Exec β} (hx : Placeless R x) (hf : ∀ a, Placeless R (f a)) :
    Placeless R (x >>= f) := hx.bind_of fun a _ => hf a

theorem placeless_pure (a : α) : Placeless R (pure a) := fun _ => rfl

theorem placeless_throw (f : Fault) : Placeless R (throw f : Exec α) := fun _ => rfl

theorem placeless_ofExcept (r : Except Fault α) : Placeless R (ofExcept r) := by
  cases r with
  | ok a => exact placeless_pure a
  | error f => exact placeless_throw f

theorem placeless_modify {f : Core → Core} (h : ∀ c, f (c.relocate R) = (f c).relocate R) :
    Placeless R (modify f : Exec Unit) := by
  intro c
  change EStateM.Result.ok () (f (c.relocate R)) = EStateM.Result.ok () ((f c).relocate R)
  rw [h]

theorem placeless_modifyGet {f : Core → α × Core} (h : ∀ c, f (c.relocate R) = ((f c).1, (f c).2.relocate R)) :
    Placeless R (modifyGet f : Exec α) := by
  intro c
  change EStateM.Result.ok (f (c.relocate R)).1 (f (c.relocate R)).2 =
    EStateM.Result.ok (f c).1 ((f c).2.relocate R)
  rw [h]

theorem Placeless.ite {x y : Exec α} {p : Prop} [Decidable p] (hx : Placeless R x) (hy : Placeless R y) :
    Placeless R (if p then x else y) := by
  split_ifs
  · exact hx
  · exact hy

theorem Placeless.guarded {x : Exec α} {p : Prop} [Decidable p] (hx : Placeless R x) (f : Fault) :
    Placeless R (if p then (throw f : Exec Unit) >>= fun _ => x else x) :=
  Placeless.ite ((placeless_throw f).bind fun _ => hx) hx

/-- A piece that reads the state first, but nothing of it that is exchanged. -/
theorem Placeless.inspect {f : Core → Exec α} (hf : ∀ c, Placeless R (f c)) (hsame : ∀ c : Core, f (c.relocate R) = f c) :
    Placeless R (get >>= f) := by
  intro c
  change f (c.relocate R) (c.relocate R) = relocate R (f c c)
  rw [hsame]
  exact hf c c

theorem Placeless.orDrop {x : Exec α} (hx : Placeless R x) (vs : List Value) : Placeless R (orDrop vs x) := by
  intro c
  unfold Exec.orDrop
  rw [hx c]
  cases x c <;> rfl

theorem Placeless.thenDrop {x : Exec α} (hx : Placeless R x) (vs : List Value) : Placeless R (thenDrop vs x) := by
  intro c
  unfold Exec.thenDrop
  rw [hx c]
  cases x c <;> rfl

theorem Placeless.forM {f : β → Exec Unit} (h : ∀ b, Placeless R (f b)) (bs : List β) : Placeless R (bs.forM f) := by
  induction bs with
  | nil => exact placeless_pure ()
  | cons b bs ih => exact (h b).bind fun _ => ih

/-! ### Values on the stack -/

theorem placeless_push (v : Value) : Placeless R (push v) := placeless_modify fun _ => rfl

theorem placeless_pop : Placeless R pop := by
  intro c
  have hstack : (c.relocate R).executor.stack = c.executor.stack := rfl
  unfold pop onExecutor Executor.pop
  simp only [hstack]
  cases c.executor.stack.back? <;> rfl

theorem placeless_drop (vs : List Value) : Placeless R (drop vs) := placeless_modify fun _ => rfl

theorem placeless_share (v : Value) : Placeless R (share v) := placeless_modifyGet fun _ => rfl

theorem placeless_pushShared (v : Value) : Placeless R (pushShared v) := (placeless_share v).bind placeless_push

/-! ### Pieces of instructions -/

theorem placeless_localSlot (index : UInt32) : Placeless R (localSlot index) :=
  Placeless.inspect (fun _ => placeless_ofExcept _) fun _ => rfl

theorem placeless_localValue (index : UInt32) : Placeless R (localValue index) :=
  Placeless.inspect (fun _ => placeless_ofExcept _) fun _ => rfl

theorem placeless_topSlot : Placeless R topSlot :=
  Placeless.inspect (fun _ => (placeless_pure _).guarded _) fun _ => rfl

theorem placeless_duplicate (count : Nat) : Placeless R (duplicate count) :=
  Placeless.inspect (fun _ => Placeless.guarded ((placeless_ofExcept _).bind fun _ => (placeless_ofExcept _).bind fun vs =>
    Placeless.forM placeless_pushShared vs) _) fun _ => rfl

theorem placeless_duplicateAt (depth : Nat) : Placeless R (duplicateAt depth) :=
  Placeless.inspect (fun _ => (placeless_ofExcept _).bind fun v => placeless_pushShared v) fun _ => rfl

theorem placeless_deleteAt (depth : Nat) : Placeless R (deleteAt depth) := by
  intro c
  rw [deleteAt_eq, deleteAt_eq]
  have hpeek : (c.relocate R).executor.peek depth = c.executor.peek depth := rfl
  rw [hpeek]
  cases c.executor.peek depth <;> rfl

theorem placeless_swap : Placeless R swap := by
  intro c
  rw [swap_eq, swap_eq]
  change (if c.executor.stack.size < 2 then _ else _) = _
  split_ifs <;> rfl

theorem Takes.placeless {n : Nat} {x : Exec α} (hx : Takes n x) : Placeless R x := by
  induction hx with
  | pure a => exact placeless_pure a
  | throw _ => exact placeless_throw _
  | inspect hblind _ ih => exact Placeless.inspect ih (hblind R)
  | change hg => exact placeless_modifyGet (hg.relocate R)
  | pop => exact placeless_pop
  | bind _ _ ihx ihf => exact ihx.bind_of ihf
  | orDrop _ vs ih => exact ih.orDrop vs
  | thenDrop _ vs ih => exact ih.thenDrop vs

theorem Writes.placeless {slot : Nat} {x : Exec α} (hx : Writes slot x) : Placeless R x := by
  induction hx with
  | update g => exact fun _ => rfl
  | inspect hblind _ ih => exact Placeless.inspect ih (hblind R)
  | bind _ hf ih => exact ih.bind_of fun a ha => (hf a ha).placeless

theorem Locates.placeless {index : UInt32} {x : Exec Nat} (hx : Locates index x) : Placeless R x := by
  cases hx with
  | bare => exact placeless_localSlot index
  | held vs => exact (placeless_localSlot index).orDrop vs

theorem Treads.placeless {named : Option UInt32} {p : Footprint} {x : Exec α} (hx : Treads named p x) :
    Placeless R x := by
  induction hx with
  | takes hx => exact hx.placeless
  | after hx _ ih => exact hx.placeless.bind ih
  | inspect hblind _ ih => exact Placeless.inspect ih (hblind R)
  | thenDrop _ vs ih => exact ih.thenDrop vs
  | push v => exact placeless_push v
  | top hf => exact placeless_topSlot.bind fun slot => (hf slot).placeless
  | store _ hx hf => exact hx.placeless.bind fun slot => (hf slot).placeless
  | load _ _ _ ih => exact (placeless_localValue _).bind ih
  | duplicate count => exact placeless_duplicate count
  | duplicateAt depth => exact placeless_duplicateAt depth.toNat
  | deleteAt depth => exact placeless_deleteAt depth.toNat
  | swap => exact placeless_swap
  | openIteration owner => exact fun _ => rfl

theorem placeless_advanceIteration : Placeless R advanceIteration := by
  refine Placeless.inspect (fun _ => (placeless_ofExcept _).bind fun top => (placeless_ofExcept _).bind fun index => ?_)
    fun _ => rfl
  refine Placeless.inspect (fun c => ?_) fun _ => rfl
  cases c.executor.iterations[index.toNat]? with
  | none => exact placeless_throw _
  | some iteration =>
    dsimp only
    cases iteration.current? with
    | some id => exact placeless_modify fun _ => rfl
    | none => exact takes_closeIteration.placeless.bind fun _ => (takes_setCondition true).placeless

/-- An instruction that is no branch and stays in its section. -/
theorem placeless_effect {i : Instruction} (hbranch : i.op.isBranch = false) : Placeless R i.effect := by
  rw [i.effect_form]
  cases hplain : i.form.isPlain with
  | true => exact (Form.treads_effect hplain false).placeless
  | false =>
    obtain ⟨op, operands⟩ := i
    cases op with
    | all => exact placeless_modify fun _ => rfl
    | wty => exact placeless_advanceIteration
    | jmp | bcond => cases hbranch
    | _ => cases hplain

/-! ### Calls, returns and branches -/

theorem placeless_popMany (count : Nat) : Placeless R (popMany count) := by
  intro c
  rw [popMany_eq, popMany_eq]
  change (if c.executor.stack.size < count then _ else _) = _
  split_ifs <;> rfl

theorem placeless_drain (count : Nat) : Placeless R (drain count) := by
  refine Placeless.inspect (fun _ => (placeless_ofExcept _).bind fun _ => (placeless_ofExcept _).bind fun vs => ?_)
    fun _ => rfl
  refine (placeless_modify fun _ => ?_).bind fun _ => placeless_pure vs
  rfl

theorem placeless_truncate (size : Nat) : Placeless R (truncate size) := by
  refine Placeless.inspect (fun _ => ?_) fun _ => rfl
  refine (placeless_modify fun _ => ?_).bind fun _ => placeless_drop _
  rfl

theorem placeless_closeCall : Placeless R closeCall := by
  have hrest : Placeless R (do
      let count ← popExact .size
      let size := (← get).executor.stack.size
      if size < count.toNat then throw .underflow
      truncate (size - count.toNat)) :=
    takes_popSize.placeless.bind fun _ => Placeless.inspect (fun _ => (placeless_truncate _).guarded _) fun _ => rfl
  refine Placeless.inspect (fun _ => (placeless_truncate _).bind fun _ => takes_popSize.placeless.bind fun _ => ?_)
    fun _ => rfl
  refine (placeless_modify fun _ => ?_).bind fun _ => hrest
  rfl

theorem placeless_replaceCall (count : Nat) : Placeless R (replaceCall count) :=
  (placeless_drain count).bind fun results => (placeless_closeCall.orDrop results).bind fun _ =>
    Placeless.forM placeless_push results

theorem placeless_backToCaller : Placeless R backToCaller := by
  intro c
  have hback : (c.relocate R).executor.callers.back? = c.executor.callers.back?.map (·.relocate R) := Array.back?_map
  have hpop : (c.relocate R).executor.callers.pop = c.executor.callers.pop.map (·.relocate R) := Array.map_pop.symm
  unfold backToCaller
  simp only [bind, EStateM.bind, get, getThe, MonadStateOf.get, EStateM.get, hback]
  cases c.executor.callers.back? with
  | none => rfl
  | some pc =>
    change EStateM.Result.ok () { c.relocate R with executor := { (c.relocate R).executor with
      pc := pc.relocate R, callers := (c.relocate R).executor.callers.pop } } = _
    rw [hpop]
    rfl

theorem placeless_leaveSection (count : Nat) : Placeless R (leaveSection count) := by
  intro c
  have hreturn : Placeless R (do replaceCall count; backToCaller) :=
    (placeless_replaceCall count).bind fun _ => placeless_backToCaller
  rw [leaveSection_eq, leaveSection_eq]
  change (if UInt64.size ≤ c.executor.base + count then _ else
    if c.executor.stack.size < c.executor.base + count then _ else _) = _
  split_ifs
  · rfl
  · rfl
  · exact hreturn c

theorem placeless_enterSection (index : UInt32) : Placeless R (enterSection index) := by
  intro c
  have hdepth : (c.relocate R).executor.depth = c.executor.depth := Array.size_map
  have hget : (c.relocate R).sections.get index = (c.sections.get index).map R := c.sections.get_relocate R index
  have hpush : (c.relocate R).executor.callers.push (c.relocate R).executor.pc =
      (c.executor.callers.push c.executor.pc).map (·.relocate R) := Array.map_push.symm
  unfold enterSection
  simp only [bind, EStateM.bind, get, getThe, MonadStateOf.get, EStateM.get, hdepth, hget]
  change (if c.config.maxCallDepth ≤ c.executor.depth then _ else _ : Exec Unit) (c.relocate R) = _
  split_ifs
  · rfl
  · cases c.sections.get index with
    | error e => rfl
    | ok home =>
      change EStateM.Result.ok () { c.relocate R with executor := { (c.relocate R).executor with
        callers := (c.relocate R).executor.callers.push (c.relocate R).executor.pc, pc := { home := R home } } } = _
      rw [hpush]
      rfl

theorem placeless_nativeArguments (signature? : Option Signature) (index : UInt32) (arity : Int8) :
    Placeless R (nativeArguments signature? index arity) := by
  unfold nativeArguments
  cases signature? with
  | none => exact placeless_throw _
  | some s =>
    refine Placeless.guarded ?_ _
    refine Placeless.ite ?_ (Placeless.ite ?_ ?_)
    · exact takes_popSize.placeless.bind fun n => (placeless_pure n.toNat).bind placeless_popMany
    · exact (placeless_pure 1).bind placeless_popMany
    · exact (placeless_pure _).bind placeless_popMany

/-- A branch needs the other section to be as long. -/
theorem branch_relocate {c : Core} (hsize : (R c.executor.pc.home).size = c.executor.pc.home.size) (target : Int32) :
    branch target (c.relocate R) = relocate R (branch target c) := by
  have hseek : Cursor.seek target (c.relocate R).executor.pc =
      if 0 ≤ target.toInt ∧ target.toInt ≤ c.executor.pc.home.size then
        .ok () { c.executor.pc.relocate R with position := target.toInt.toNat }
      else .error (.invalidAddress target.toInt c.executor.pc.home.size) (c.executor.pc.relocate R) := by
    rw [← hsize]
    rfl
  unfold branch
  rw [hseek]
  unfold Cursor.seek
  split_ifs <;> rfl

end Exec

open Exec in
theorem Instruction.execute_relocate (hR : ∀ s : Section, s.Matches (R s)) (natives : UInt32 → Option Signature)
    (i : Instruction) {c : Core} (hsize : (R c.executor.pc.home).size = c.executor.pc.home.size) :
    i.execute natives (c.relocate R) = relocate R (i.execute natives c) := by
  have hbranch : ∀ target, (branch target >>= fun _ => pure Flow.next : Exec Flow) (c.relocate R) =
      relocate R ((branch target >>= fun _ => pure Flow.next : Exec Flow) c) := by
    intro target
    simp only [bind, EStateM.bind, branch_relocate hsize]
    cases branch target c <;> rfl
  cases hplain : i.op.isBranch with
  | false =>
    have heffect : Placeless R i.effect := placeless_effect hplain
    obtain ⟨op, operands⟩ := i
    cases op with
    | jmp | bcond => cases hplain
    | nat => exact ((placeless_nativeArguments _ _ _).bind fun vs => placeless_pure _) c
    | ret => exact ((placeless_leaveSection _).bind fun _ => placeless_pure _) c
    | sus =>
      have hsus : Placeless R (execute natives ⟨.sus, operands⟩) :=
        Placeless.inspect (fun _ => (placeless_pure _).guarded _) fun _ => rfl
      exact hsus c
    | call =>
      obtain ⟨callee, count, ⟨⟩⟩ := operands
      have hget : (c.relocate R).sections.get callee = (c.sections.get callee).map R := c.sections.get_relocate R callee
      have hcall : Placeless R (do push (.int (.ofInt count.toNat)); enterSection callee; return Flow.entered) :=
        (placeless_push _).bind fun _ => (placeless_enterSection callee).bind fun _ => placeless_pure _
      simp only [execute, bind, EStateM.bind, get, getThe, MonadStateOf.get, EStateM.get, hget]
      cases c.sections.get callee with
      | error e => rfl
      | ok home =>
        refine Eq.trans ?_ (((placeless_ofExcept (home.checkArguments count.toNat)).bind fun _ => hcall) c)
        simp only [Except.map, (hR home).checkArguments]
        rfl
    | _ => exact (heffect.bind fun _ => placeless_pure _) c
  | true =>
    obtain ⟨op, operands⟩ := i
    cases op with
    | jmp => exact hbranch _
    | bcond =>
      have hrun : ∀ d : Core, execute natives ⟨.bcond, operands⟩ d =
          ((if d.executor.condition then branch operands.1 else pure ()) >>= fun _ => pure Flow.next : Exec Flow) d :=
        fun _ => rfl
      have hcondition : (c.relocate R).executor.condition = c.executor.condition := rfl
      rw [hrun, hrun, hcondition]
      split_ifs
      · exact hbranch _
      · rfl
    | _ => cases hplain

end ScriptVm
