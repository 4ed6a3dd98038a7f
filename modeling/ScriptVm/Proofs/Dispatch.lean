import ScriptVm.Proofs.Bearings

/-! What executing one instruction can do to the bearings, and what it can fail with. Everything about
where a program counter can get to is derived from this. Reading comes first: an instruction moves on
from where its reading ended. -/

namespace ScriptVm

/-- The number that an instruction adds to the base: that of a local, or of the results. -/
def Instruction.offset? : Instruction → Option Nat
  | ⟨.ret, (count, ())⟩ => some count.toNat
  | i => i.local?.map (·.toNat)

/-- How executing an instruction can change the bearings. -/
inductive Shift (i : Instruction) (b : Bearings) : Bearings → Prop where
  | stay : Shift i b b
  /-- Locals are opened, or a return has failed on its way. -/
  | rebase (base : Nat) : i.op = .all ∨ i.op = .ret → Shift i b { b with base }
  | jump {target : Int32} {pc : Cursor} : i.target? = some target → Cursor.seek target b.pc = .ok () pc →
      Shift i b { b with pc }
  | enter {callee : UInt32} {home : Section} : i.op = .call → b.sections.get callee = .ok home →
      Shift i b { b with callers := b.callers.push b.pc, pc := { home } }
  | leave (base : Nat) {pc : Cursor} : i.op = .ret → b.callers.back? = some pc →
      Shift i b { b with base, pc, callers := b.callers.pop }

/-- Only branches, calls and returns move the program counter. -/
theorem Shift.pc_eq {i : Instruction} {b b' : Bearings} (h : Shift i b b') (htarget : i.target? = none)
    (hcall : i.op ≠ .call) (hret : i.op ≠ .ret) : b'.pc = b.pc := by
  cases h with
  | stay => rfl
  | rebase base _ => rfl
  | jump h _ => cases htarget.symm.trans h
  | enter h _ => exact absurd h hcall
  | leave base h _ => exact absurd h hret

/-- Only opening locals, calls and returns move the base or the callers. -/
theorem Shift.keeps {i : Instruction} {b b' : Bearings} (h : Shift i b b') (hall : i.op ≠ .all) (hcall : i.op ≠ .call)
    (hret : i.op ≠ .ret) : b'.base = b.base ∧ b'.callers = b.callers ∧ b'.runs = b.runs := by
  cases h with
  | stay => exact ⟨rfl, rfl, rfl⟩
  | rebase base h => exact absurd h (not_or.2 ⟨hall, hret⟩)
  | jump _ _ => exact ⟨rfl, rfl, rfl⟩
  | enter h _ => exact absurd h hcall
  | leave base h _ => exact absurd h hret

/-- What executing an instruction can fail with. -/
inductive Blame (i : Instruction) (b : Bearings) : Fault → Prop where
  | ordinary {f : Fault} : f.isOrdinary = true → Blame i b f
  | beyond {n : Nat} : i.offset? = some n → UInt64.size ≤ b.base + n → Blame i b .crash
  | target {target : Int32} {e : CodeError} : i.target? = some target →
      Cursor.seek target b.pc = .error e b.pc → Blame i b (.code e)
  | callee {callee : UInt32} : i.op = .call → b.sections.get callee = .error (.noSuchSection callee) →
      Blame i b (.code (.noSuchSection callee))

theorem SectionTable.eq_of_get_error {t : SectionTable} {index : UInt32} {e : CodeError}
    (h : t.get index = .error e) : e = .noSuchSection index := by
  unfold get at h
  split at h <;> cases h
  rfl

theorem Section.ordinary_checkArguments (s : Section) (given : Nat) : Ordinary (s.checkArguments given) := by
  unfold checkArguments
  split
  · split_ifs
    · exact ordinary_ok _
    · exact ordinary_error rfl
  · exact ordinary_ok _

namespace Exec
variable {α β : Type}

/-! ### Returning -/

def Rebasing (x : Exec α) : Prop :=
  ∀ c, Ends (fun c' => ∃ base, c'.bearings = { c.bearings with base })
    (fun f c' => (∃ base, c'.bearings = { c.bearings with base }) ∧ f.isOrdinary = true) (x c)

theorem Steady.rebasing {x : Exec α} (hx : Steady ordinarily x) : Rebasing x :=
  fun c => (hx c).mono (fun _ h => ⟨c.executor.base, h⟩) fun _ _ h => ⟨⟨c.executor.base, h.1⟩, h.2⟩

theorem Rebasing.bind {x : Exec α} {f : α → Exec β} (hx : Rebasing x) (hf : ∀ a, Rebasing (f a)) :
    Rebasing (x >>= f) := by
  refine fun c => (hx c).bind fun a c₁ ⟨base, hbase⟩ => ?_
  refine (hf a c₁).mono (fun c₂ ⟨base', hbase'⟩ => ⟨base', ?_⟩) fun _ c₂ ⟨⟨base', hbase'⟩, he⟩ => ⟨⟨base', ?_⟩, he⟩
  · rw [hbase', hbase]
  · rw [hbase', hbase]

theorem Rebasing.orDrop {x : Exec α} (hx : Rebasing x) (vs : List Value) : Rebasing (orDrop vs x) :=
  fun c => (hx c).orDrop fun _ _ h => h

theorem steady_truncate (size : Nat) : Steady ordinarily (truncate size) := fun _ => rfl

theorem rebasing_closeCall : Rebasing closeCall := by
  refine steady_get.rebasing.bind fun c => (steady_truncate _).rebasing.bind fun _ =>
    takes_popSize.steady.rebasing.bind fun base => ?_
  have hmodify : Rebasing (modify fun c =>
      { c with executor := { c.executor with base := base.toNat } } : Exec Unit) :=
    fun _ => ⟨base.toNat, rfl⟩
  refine hmodify.bind fun _ => takes_popSize.steady.rebasing.bind fun count => steady_get.rebasing.bind fun c => ?_
  dsimp only
  split_ifs
  · exact (steady_throw rfl).rebasing.bind fun _ => (steady_truncate _).rebasing
  · exact (steady_truncate _).rebasing

theorem bearings_replaceCall {count : Nat} {c : Core} (h : count ≤ c.executor.stack.size) :
    Ends (fun c' => ∃ base, c'.bearings = { c.bearings with base })
      (fun f c' => (∃ base, c'.bearings = { c.bearings with base }) ∧ f.isOrdinary = true)
      (replaceCall count c) := by
  have hrest : ∀ results : List Value, Rebasing (do orDrop results closeCall; results.forM push) :=
    fun results => (rebasing_closeCall.orDrop _).bind fun _ => (Steady.forM steady_push).rebasing
  rw [replaceCall_eq h]
  exact hrest _ _

theorem bearings_backToCaller (c : Core) :
    Ends (fun c' => ∃ pc, c.executor.callers.back? = some pc ∧
        c'.bearings = { c.bearings with pc, callers := c.executor.callers.pop })
      (fun f c' => c'.bearings = c.bearings ∧ f.isOrdinary = true) (backToCaller c) := by
  unfold backToCaller
  simp only [bind, EStateM.bind, get, getThe, MonadStateOf.get, EStateM.get]
  cases c.executor.callers.back? with
  | none => exact ⟨rfl, rfl⟩
  | some pc => exact ⟨pc, rfl, rfl⟩

/-- A return that succeeds goes on at the last caller. One that fails brings the machine down only if
the end of the results is no word. -/
theorem bearings_leaveSection (count : Nat) (c : Core) :
    Ends (fun c' => ∃ base pc, c.executor.callers.back? = some pc ∧
        c'.bearings = { c.bearings with base, pc, callers := c.executor.callers.pop })
      (fun f c' => (∃ base, c'.bearings = { c.bearings with base }) ∧
        (f.isOrdinary = true ∨ f = .crash ∧ UInt64.size ≤ c.executor.base + count))
      (leaveSection count c) := by
  rw [leaveSection_eq]
  split_ifs with hword hroom
  · exact ⟨⟨_, rfl⟩, Or.inr ⟨rfl, hword⟩⟩
  · exact ⟨⟨_, rfl⟩, Or.inl rfl⟩
  have hcount : count ≤ c.executor.stack.size := by omega
  have hreplace := bearings_replaceCall hcount
  simp only [bind, EStateM.bind]
  cases hc : replaceCall count c with
  | error f c₁ =>
    rw [hc] at hreplace
    exact ⟨hreplace.1, Or.inl hreplace.2⟩
  | ok u c₁ =>
    rw [hc] at hreplace
    obtain ⟨base, hbase⟩ := hreplace
    have hcallers : c₁.executor.callers = c.executor.callers := congrArg Bearings.callers hbase
    have hback := bearings_backToCaller c₁
    dsimp only
    cases hc₁ : backToCaller c₁ with
    | error f c₂ =>
      rw [hc₁] at hback
      exact ⟨⟨base, hback.1.trans hbase⟩, Or.inl hback.2⟩
    | ok u c₂ =>
      rw [hc₁] at hback
      obtain ⟨pc, hpc, hbearings⟩ := hback
      rw [hcallers] at hpc hbearings
      exact ⟨base, pc, hpc, by rw [hbearings, hbase]⟩

/-! ### Calling and branching -/

theorem bearings_enterSection (callee : UInt32) (c : Core) :
    Ends (fun c' => ∃ home, c.sections.get callee = .ok home ∧ c'.bearings =
        { c.bearings with callers := c.executor.callers.push c.executor.pc, pc := { home } })
      (fun f c' => c'.bearings = c.bearings ∧
        (f.isOrdinary = true ∨ ∃ e, c.sections.get callee = .error e ∧ f = .code e))
      (enterSection callee c) := by
  unfold enterSection
  simp only [bind, EStateM.bind, get, getThe, MonadStateOf.get, EStateM.get]
  split_ifs
  · exact ⟨rfl, Or.inl rfl⟩
  · cases c.sections.get callee with
    | error e => exact ⟨rfl, Or.inr ⟨e, rfl, rfl⟩⟩
    | ok home => exact ⟨home, rfl, rfl⟩

theorem bearings_branch (target : Int32) (c : Core) :
    Ends (fun c' => ∃ pc, Cursor.seek target c.executor.pc = .ok () pc ∧ c'.bearings = { c.bearings with pc })
      (fun f c' => c'.bearings = c.bearings ∧
        ∃ e, Cursor.seek target c.executor.pc = .error e c.executor.pc ∧ f = .code e)
      (branch target c) := by
  unfold branch Cursor.seek
  split_ifs
  · exact ⟨_, rfl, rfl⟩
  · exact ⟨rfl, _, rfl, rfl⟩

end Exec

/-! ### Executing -/

namespace Instruction
open Exec

/-- Whether an instruction moves the base, the program counter or the callers. -/
def steers (i : Instruction) : Bool :=
  i.op == .all || i.op == .jmp || i.op == .bcond || i.op == .call || i.op == .ret

theorem offset?_of_local {i : Instruction} {index : UInt32} (h : i.local? = some index) :
    i.offset? = some index.toNat := by
  obtain ⟨op, operands⟩ := i
  cases op with
  | incl | decl | stl | ldl | stla | ldla | stlax | ldlax =>
    cases h
    rfl
  | _ => cases h

theorem steady_effect_of_plain {i : Instruction} (h : i.steers = false) : Steady (Blame i) i.effect := by
  have hall : i.op ≠ .all := by
    intro hop
    simp [steers, hop] at h
  have hbranch : i.op.isBranch = false := by
    simp only [steers, Bool.or_eq_false_iff] at h
    simp [Opcode.isBranch, h]
  refine (steady_effect hall hbranch).mono fun b f hf => ?_
  rcases hf with hordinary | ⟨rfl, index, hlocal, hover⟩
  · exact .ordinary hordinary
  · exact .beyond (offset?_of_local hlocal) hover

theorem steady_execute {i : Instruction} (h : i.steers = false) (natives : UInt32 → Option Signature) :
    Steady (Blame i) (i.execute natives) := by
  have heffect := steady_effect_of_plain h
  obtain ⟨op, operands⟩ := i
  cases op with
  | all | jmp | bcond | call | ret => cases h
  | nat =>
    exact ((steady_nativeArguments _ _ _).mono fun _ _ => .ordinary).bind fun _ => steady_pure _
  | sus =>
    refine Steady.mono (steady_get.bind fun c => ?_) fun _ _ => .ordinary
    dsimp only
    split_ifs
    · exact (steady_throw rfl).bind fun _ => steady_pure _
    · exact steady_pure _
  | _ => exact heffect.bind fun _ => steady_pure _

theorem shift_branch {i : Instruction} {target : Int32} (h : i.target? = some target) (c : Core) :
    Ends (fun c' => Shift i c.bearings c'.bearings)
      (fun f c' => Shift i c.bearings c'.bearings ∧ Blame i c.bearings f) (branch target c) := by
  refine (bearings_branch target c).mono ?_ ?_
  · rintro c' ⟨pc, hpc, hc'⟩
    rw [hc']
    exact .jump h hpc
  · rintro f c' ⟨hc', e, he, rfl⟩
    rw [hc']
    exact ⟨.stay, .target h he⟩

theorem shift_call (callee : UInt32) (count : UInt8) (natives : UInt32 → Option Signature) (c : Core) :
    Ends (fun c' => Shift ⟨.call, (callee, count, ())⟩ c.bearings c'.bearings)
      (fun f c' => Shift ⟨.call, (callee, count, ())⟩ c.bearings c'.bearings ∧
        Blame ⟨.call, (callee, count, ())⟩ c.bearings f)
      (execute natives ⟨.call, (callee, count, ())⟩ c) := by
  cases hhome : c.sections.get callee with
  | error e =>
    obtain rfl := SectionTable.eq_of_get_error hhome
    simp only [execute, bind, EStateM.bind, get, getThe, MonadStateOf.get, EStateM.get, hhome]
    exact ⟨.stay, .callee rfl hhome⟩
  | ok home =>
    simp only [execute, bind, EStateM.bind, get, getThe, MonadStateOf.get, EStateM.get, hhome]
    have hcheck := home.ordinary_checkArguments count.toNat
    cases hcount : home.checkArguments count.toNat with
    | error f => exact ⟨.stay, .ordinary (hcheck f hcount)⟩
    | ok u =>
      refine Ends.give (x := do push (.int (.ofInt count.toNat)); enterSection callee) ?_ Flow.entered
      refine (bearings_enterSection callee _).mono ?_ ?_
      · rintro c' ⟨home, hget, hc'⟩
        rw [hc']
        exact .enter rfl hget
      · rintro f c' ⟨hc', hf⟩
        rw [hc']
        refine ⟨.stay, ?_⟩
        rcases hf with hordinary | ⟨e, he, rfl⟩
        · exact .ordinary hordinary
        · cases hhome.symm.trans he

theorem shift_execute (natives : UInt32 → Option Signature) (i : Instruction) (c : Core) :
    Ends (fun c' => Shift i c.bearings c'.bearings)
      (fun f c' => Shift i c.bearings c'.bearings ∧ Blame i c.bearings f) (i.execute natives c) := by
  cases hsteers : i.steers with
  | false =>
    refine (steady_execute hsteers natives c).mono ?_ ?_
    · rintro c' hc'
      rw [hc']
      exact .stay
    · rintro f c' ⟨hc', hf⟩
      rw [hc']
      exact ⟨.stay, hf⟩
  | true =>
    obtain ⟨op, operands⟩ := i
    cases op with
    | all => exact .rebase _ (Or.inl rfl)
    | jmp => exact (shift_branch rfl c).give _
    | bcond =>
      obtain ⟨target, -⟩ := operands
      refine Ends.give (x := do if (← get).executor.condition then branch target) ?_ Flow.next
      change Ends _ _ ((if c.executor.condition then branch target else pure ()) c)
      split_ifs
      · exact shift_branch rfl c
      · exact .stay
    | call => exact shift_call _ _ natives c
    | ret =>
      refine Ends.give ((bearings_leaveSection _ c).mono ?_ ?_) Flow.returned
      · rintro c' ⟨base, pc, hpc, hc'⟩
        rw [hc']
        exact .leave base rfl hpc
      · rintro f c' ⟨⟨base, hc'⟩, hf⟩
        rw [hc']
        refine ⟨.rebase base (Or.inr rfl), ?_⟩
        rcases hf with hordinary | ⟨rfl, hover⟩
        · exact .ordinary hordinary
        · exact .beyond rfl hover
    | _ => cases hsteers

theorem op_of_target {i : Instruction} {target : Int32} (h : i.target? = some target) :
    i.op = .jmp ∨ i.op = .bcond := by
  obtain ⟨op, operands⟩ := i
  cases op with
  | jmp => exact Or.inl rfl
  | bcond => exact Or.inr rfl
  | _ => cases h

theorem flow_of_ret {natives : UInt32 → Option Signature} {i : Instruction} {c c' : Core} {flow : Flow}
    (hop : i.op = .ret) (h : i.execute natives c = .ok flow c') : flow = .returned := by
  obtain ⟨op, operands⟩ := i
  cases hop
  simp only [execute, bind, EStateM.bind] at h
  split at h <;> cases h
  rfl

/-- A conditional branch without its condition does nothing. -/
theorem execute_of_unmet {natives : UInt32 → Option Signature} {i : Instruction} {c : Core} (hop : i.op = .bcond)
    (hcondition : c.executor.condition = false) : i.execute natives c = .ok .next c := by
  obtain ⟨op, operands⟩ := i
  cases hop
  have heffect : effect ⟨.bcond, operands⟩ c = .ok () c := by
    change (if c.executor.condition then branch operands.1 else pure ()) c = _
    rw [hcondition]
    rfl
  change (effect ⟨.bcond, operands⟩ >>= fun _ => pure Flow.next : Exec Flow) c = _
  simp only [bind, EStateM.bind, heffect]
  rfl

end Instruction

/-! ### Reading and executing -/

def Core.withPc (c : Core) (pc : Cursor) : Core := { c with executor := { c.executor with pc } }

namespace Exec
variable {natives : UInt32 → Option Signature} {c : Core}

theorem step_of_read {i : Instruction} {next : Cursor} (h : Cursor.readInstruction c.executor.pc = .ok i next) :
    step natives c = i.execute natives (c.withPc next) := by
  rw [step_eq]
  simp only [bind, EStateM.bind, scan, h]
  rfl

theorem step_of_unread {e : CodeError} {pc : Cursor} (h : Cursor.readInstruction c.executor.pc = .error e pc) :
    step natives c = .error (.code e) (c.withPc pc) := by
  rw [step_eq]
  simp only [bind, EStateM.bind, scan, h]
  rfl

/-- Executing and reading agree on where an instruction ends. What cannot be read cannot be executed, for
the same reason, and nothing but the program counter moves. After an instruction that is no jump and
runs no other code, the program counter stands where reading ends. -/
theorem step_ends_where_reading_ends (natives : UInt32 → Option Signature) (c : Core) :
    (∀ e pc, Cursor.readInstruction c.executor.pc = .error e pc →
      ∃ f, step natives c = .error f { c with executor := { c.executor with pc } } ∧
        f.kind = .misc ∧ f.message = e.message) ∧
    (∀ i next c', Cursor.readInstruction c.executor.pc = .ok i next → step natives c = .ok .next c' →
      i.op ≠ .jmp → i.op ≠ .call → i.op ≠ .nat → (i.op = .bcond → c.executor.condition = false) →
      c'.executor.pc = next ∧ c'.executor.pc.home = c.executor.pc.home) := by
  refine ⟨fun e pc h => ⟨.code e, step_of_unread h, rfl, rfl⟩, ?_⟩
  intro i next c' hread hstep hjmp hcall _ hbcond
  suffices hpc : c'.executor.pc = next from ⟨hpc, hpc ▸ (Cursor.lt_of_readInstruction hread).1⟩
  rw [step_of_read hread] at hstep
  by_cases hop : i.op = .bcond
  · have hskip : i.execute natives (c.withPc next) = .ok .next (c.withPc next) :=
      Instruction.execute_of_unmet hop (hbcond hop)
    cases hskip.symm.trans hstep
    rfl
  · have hshift := Instruction.shift_execute natives i (c.withPc next)
    rw [hstep] at hshift
    refine Shift.pc_eq hshift ?_ hcall fun hret => ?_
    · rw [Option.eq_none_iff_forall_ne_some]
      intro target htarget
      exact (Instruction.op_of_target htarget).elim hjmp hop
    · cases Instruction.flow_of_ret hret hstep

def cutShort : Section := { code := #[Opcode.incl.byte, 0, 0] }

def seven : Section := { code := #[Opcode.ldiS32.byte, 7, 0, 0, 0, Opcode.dup.byte] }

theorem step_ends_where_reading_ends_seven :
    (∃ f, step (fun _ => none) { executor := { pc := { home := cutShort } } } =
        .error f { executor := { pc := { home := cutShort, position := 1 } } } ∧
      f.kind = .misc ∧ f.message = (CodeError.unexpectedEnd 1).message) ∧
    ∃ c', step (fun _ => none) { executor := { pc := { home := seven } } } = .ok .next c' ∧
      c'.executor.pc = { home := seven, position := 5 } := by
  have hcut := (step_ends_where_reading_ends (fun _ => none) { executor := { pc := { home := cutShort } } }).1
  have hseven := (step_ends_where_reading_ends (fun _ => none) { executor := { pc := { home := seven } } }).2
    ⟨.ldiS32, (7, ())⟩ { home := seven, position := 5 }
    { executor := { pc := { home := seven, position := 5 }, stack := #[.int 7] } } rfl rfl
  exact ⟨hcut _ _ rfl, _, rfl, (hseven nofun nofun nofun nofun).1⟩

end Exec
end ScriptVm
