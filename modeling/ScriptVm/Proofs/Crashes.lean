import ScriptVm.Proofs.AssembledRuns
import ScriptVm.Proofs.Opening

/-! What brings the machine down. Reading never leaves a section, writes into arrays find their cells, and
every access to the stack is checked, with one exception: a return takes the base of its caller from the
stack as it finds it there, and the next instruction that adds the number of a local, or of results, to
such a base may get a sum that is no word. -/

namespace ScriptVm
variable {δ ν ρ α β : Type}

/-! ### Reading stays inside -/

namespace Cursor

def Inside (c : Cursor) : Prop := c.position ≤ c.home.size

def reached : EStateM.Result CodeError Cursor α → Cursor
  | .ok _ c | .error _ c => c

def Stays (x : Scan α) : Prop := ∀ c : Cursor, c.Inside → (reached (x c)).Inside

theorem Stays.bind {x : Scan α} {f : α → Scan β} (hx : Stays x) (hf : ∀ a, Stays (f a)) : Stays (x >>= f) := by
  intro c hc
  have hfirst := hx c hc
  simp only [Bind.bind, EStateM.bind]
  cases hxc : x c with
  | ok a c' =>
    rw [hxc] at hfirst
    exact hf a c' hfirst
  | error e c' =>
    rw [hxc] at hfirst
    exact hfirst

theorem stays_pure (a : α) : Stays (pure a) := fun _ hc => hc

theorem stays_readNat (count : Nat) : Stays (readNat count) := by
  have hbytes : Stays (readBytes count) := by
    intro c hc
    simp only [readBytes]
    split_ifs with hstop
    · exact hstop
    · exact hc
  exact hbytes.bind fun _ => stays_pure _

theorem zeroAt?_lt {code : Array UInt8} {i stop : Nat} (h : zeroAt? code i = some stop) : stop < code.size := by
  induction i using zeroAt?.induct code with
  | case1 i hi hz =>
    rw [zeroAt?, dif_pos hi, if_pos hz] at h
    cases h
    exact hi
  | case2 i hi hz ih =>
    rw [zeroAt?, dif_pos hi, if_neg hz] at h
    exact ih h
  | case3 i hi =>
    rw [zeroAt?, dif_neg hi] at h
    cases h

theorem stays_readText : Stays readText := by
  intro c hc
  unfold readText
  cases hstop : zeroAt? c.home.code c.position with
  | none => exact hc
  | some stop =>
    dsimp only
    cases String.fromUTF8? ⟨c.home.code.extract c.position stop⟩ with
    | some s => exact zeroAt?_lt hstop
    | none => exact hc

theorem stays_readOpcode : Stays readOpcode := by
  intro c hc
  unfold readOpcode
  cases hbyte : c.home.code[c.position]? with
  | none => exact hc
  | some byte =>
    have hlt : c.position < c.home.size := (Array.getElem?_eq_some_iff.1 hbyte).1
    dsimp only
    cases Opcode.ofByte? byte <;> exact hlt

theorem stays_readOperand (k : OperandKind) : Stays (readOperand k) := by
  cases k with
  | text => exact stays_readText
  | _ => exact (stays_readNat _).bind fun _ => stays_pure _

theorem stays_readOperands (ks : List OperandKind) : Stays (readOperands ks) := by
  induction ks with
  | nil => exact stays_pure ()
  | cons k ks ih => exact (stays_readOperand k).bind fun _ => ih.bind fun _ => stays_pure _

theorem stays_readInstruction : Stays readInstruction :=
  stays_readOpcode.bind fun op => (stays_readOperands op.layout).bind fun _ => stays_pure _

theorem enclosed_inside : Enclosed Inside where
  read {pc next i} h hread := by
    have hstays := stays_readInstruction pc h
    rw [hread] at hstays
    exact hstays
  unread {pc pc' e} h hread := by
    have hstays := stays_readInstruction pc h
    rw [hread] at hstays
    exact hstays
  seek {pc next pc' i target} _ _ _ hseek := by
    unfold Cursor.seek at hseek
    split_ifs at hseek with htarget
    cases hseek
    exact Int.toNat_le.2 htarget.2
  rest n := Nat.le_refl 0

end Cursor

/-! ### Sums that are no words -/

namespace Exec

/-- Brings the machine down where `n` above the base is no word. -/
def Overruns (n : Nat) (x : Exec α) : Prop :=
  ∀ c : Core, UInt64.size ≤ c.executor.base + n → ∃ c', x c = .error .crash c'

theorem Overruns.bind {n : Nat} {x : Exec α} (hx : Overruns n x) (f : α → Exec β) : Overruns n (x >>= f) := by
  intro c hover
  obtain ⟨c', hc'⟩ := hx c hover
  exact ⟨c', by simp only [Bind.bind, EStateM.bind, hc']⟩

theorem Overruns.orDrop {n : Nat} {x : Exec α} (hx : Overruns n x) (vs : List Value) : Overruns n (orDrop vs x) := by
  intro c hover
  obtain ⟨c', hc'⟩ := hx c hover
  refine ⟨{ c' with memory := c'.memory.release vs }, ?_⟩
  simp only [Exec.orDrop, hc']

theorem overruns_localSlot (index : UInt32) : Overruns index.toNat (localSlot index) := by
  intro c hover
  have hslot : c.executor.localSlot index = .error .crash := by
    unfold Executor.localSlot Word.add
    rw [if_neg (Nat.not_lt.2 hover)]
    rfl
  exact ⟨c, by simp only [localSlot, bind, EStateM.bind, get, getThe, MonadStateOf.get, EStateM.get, hslot]; rfl⟩

theorem overruns_localValue (index : UInt32) : Overruns index.toNat (localValue index) := by
  intro c hover
  have hslot : c.executor.localValue index = .error .crash := by
    unfold Executor.localValue Executor.localSlot Word.add
    rw [if_neg (Nat.not_lt.2 hover)]
    rfl
  exact ⟨c, by simp only [localValue, bind, EStateM.bind, get, getThe, MonadStateOf.get, EStateM.get, hslot]; rfl⟩

theorem overruns_leaveSection (count : Nat) : Overruns count (leaveSection count) := by
  intro c hover
  exact ⟨c, by rw [leaveSection_eq, if_pos hover]⟩

/-- Brings the machine down exactly if `x` comes to its end and `n` above the base is no word. -/
def CrashesAfter (n : Nat) (x : Exec Unit) (y : Exec α) : Prop :=
  ∀ c : Core, (∃ c', y c = .error .crash c') ↔ UInt64.size ≤ c.executor.base + n ∧ ∃ c', x c = .ok () c'

theorem crashesAfter_pure {n : Nat} {y : Exec α}
    (hcrash : ∀ c c', y c = .error .crash c' → UInt64.size ≤ c.executor.base + n) (hover : Overruns n y) :
    CrashesAfter n (pure ()) y := by
  refine fun c => ⟨?_, fun h => hover c h.1⟩
  rintro ⟨c', hc'⟩
  exact ⟨hcrash c c' hc', c, rfl⟩

theorem Steady.crashes {index : UInt32} {y : Exec α} (hy : Steady (unlessOver (some index)) y) {c c' : Core}
    (h : y c = .error .crash c') : UInt64.size ≤ c.executor.base + index.toNat := by
  have hrun := hy c
  rw [h] at hrun
  obtain ⟨-, hordinary | ⟨-, index', hindex, hword⟩⟩ := hrun
  · cases hordinary
  · cases hindex
    exact hword

theorem CrashesAfter.bind {n : Nat} {z : Exec β} {x : β → Exec Unit} {y : β → Exec α} (hz : Steady ordinarily z)
    (h : ∀ b, CrashesAfter n (x b) (y b)) : CrashesAfter n (z >>= x) (z >>= y) := by
  intro c
  have hrun := hz c
  simp only [Bind.bind, EStateM.bind]
  cases hzc : z c with
  | error e c₁ =>
    rw [hzc] at hrun
    constructor
    · rintro ⟨c', hc'⟩
      cases hc'
      cases hrun.2
    · rintro ⟨-, c', hc'⟩
      cases hc'
  | ok b c₁ =>
    rw [hzc] at hrun
    have hbase : c₁.executor.base = c.executor.base := congrArg Bearings.base hrun
    rw [← hbase]
    exact h b c₁

theorem CrashesAfter.give {n : Nat} {x : Exec Unit} {y : Exec α} (h : CrashesAfter n x y) (b : β) :
    CrashesAfter n x (y >>= fun _ => pure b) := by
  intro c
  rw [← h c]
  simp only [Bind.bind, EStateM.bind]
  cases hyc : y c with
  | ok a c' => simp [pure, EStateM.pure]
  | error f c' => simp

end Exec

namespace Instruction
open Exec

/-- What an instruction takes off the stack before it adds to the base. -/
def takes : Instruction → Exec Unit
  | ⟨.stl, _⟩ => do
    let _ ← pop
    return ()
  | ⟨.stla, _⟩ => do
    let v ← pop
    let _ ← orDrop [v] popCell
    return ()
  | ⟨.ldla, _⟩ => do
    let _ ← popCell
    return ()
  | ⟨.stlax, (_, depth, ())⟩ => do
    let v ← pop
    let _ ← orDrop [v] (popPath (depth.toNat + 1))
    return ()
  | ⟨.ldlax, (_, depth, ())⟩ => do
    let _ ← popPath (depth.toNat + 1)
    return ()
  | _ => return ()

theorem crashesAfter_takes {i : Instruction} {n : Nat} (h : i.offset? = some n) (natives : UInt32 → Option Signature) :
    CrashesAfter n i.takes (i.execute natives) := by
  have hload : ∀ {index : UInt32} (path : List Cell), Treads (some index) { pushes := 1 } (do
      loadCell (← localValue index) path) :=
    fun path => .load rfl rfl fun v => treads_loadCell v path
  obtain ⟨op, operands⟩ := i
  cases op with
  | ret =>
    cases h
    refine (crashesAfter_pure (fun c c' hc' => ?_) (overruns_leaveSection _)).give _
    have hrun := bearings_leaveSection operands.1.toNat c
    rw [hc'] at hrun
    obtain ⟨-, hordinary | ⟨-, hword⟩⟩ := hrun
    · cases hordinary
    · exact hword
  | incl | decl =>
    cases h
    refine CrashesAfter.give (crashesAfter_pure (fun _ _ => Steady.crashes ?_) ((overruns_localSlot _).bind _)) _
    exact (Treads.store rfl .bare fun slot => writes_operateSlot _ slot _).steady
  | ldl =>
    cases h
    refine CrashesAfter.give (crashesAfter_pure (fun _ _ => Steady.crashes ?_) ((overruns_localValue _).bind _)) _
    exact (Treads.load rfl rfl treads_pushShared).steady
  | stl =>
    cases h
    refine CrashesAfter.give (CrashesAfter.bind steady_pop fun v => ?_) _
    exact crashesAfter_pure (fun _ _ => (treads_storeLocal rfl v).steady.crashes)
      (((overruns_localSlot _).orDrop _).bind _)
  | stla =>
    cases h
    refine CrashesAfter.give (CrashesAfter.bind steady_pop fun v => ?_) _
    refine CrashesAfter.bind (takes_popCell.orDrop _).steady fun cell => ?_
    exact crashesAfter_pure (fun _ _ => (treads_storeLocalCell rfl _ v).steady.crashes)
      (((overruns_localSlot _).orDrop _).bind _)
  | stlax =>
    cases h
    refine CrashesAfter.give (CrashesAfter.bind steady_pop fun v => ?_) _
    refine CrashesAfter.bind ((takes_popPath _).orDrop _).steady fun path => ?_
    exact crashesAfter_pure (fun _ _ => (treads_storeLocalCell rfl _ v).steady.crashes)
      (((overruns_localSlot _).orDrop _).bind _)
  | ldla =>
    cases h
    refine CrashesAfter.give (CrashesAfter.bind takes_popCell.steady fun cell => ?_) _
    exact crashesAfter_pure (fun _ _ => (hload [cell]).steady.crashes) ((overruns_localValue _).bind _)
  | ldlax =>
    cases h
    refine CrashesAfter.give (CrashesAfter.bind (takes_popPath _).steady fun path => ?_) _
    exact crashesAfter_pure (fun _ _ => (hload path).steady.crashes) ((overruns_localValue _).bind _)
  | _ => cases h

/-- An instruction brings the machine down exactly if it gets to adding to the base, and the sum is no
word. -/
theorem execute_crashes_iff (natives : UInt32 → Option Signature) (i : Instruction) (c : Core) :
    (∃ c', i.execute natives c = .error .crash c') ↔
      ∃ n, i.offset? = some n ∧ UInt64.size ≤ c.executor.base + n ∧ ∃ c', i.takes c = .ok () c' := by
  cases hoffset : i.offset? with
  | none =>
    constructor
    · rintro ⟨c', hc'⟩
      have hshift := shift_execute natives i c
      rw [hc'] at hshift
      cases hshift.2 with
      | ordinary hordinary => cases hordinary
      | beyond hn _ => cases hoffset.symm.trans hn
    · rintro ⟨n, hn, -⟩
      cases hn
  | some n =>
    rw [crashesAfter_takes hoffset natives c]
    simp

end Instruction

/-- In a run of any sections the program counter, the callers and every place where an operand is read lie
in their sections, and a cell is there when it is written. What brings the machine down is a number of a
local or of results that, added to the base, gives no word, and nothing else. -/
theorem Course.crashes_iff {kind : Section → Prop} {env : Environment δ ν} {s : State δ ν ρ} (h : Course kind env s) :
    (∀ pc, pc = s.machine.core.executor.pc ∨ pc ∈ s.machine.core.executor.callers → pc.position ≤ pc.home.size) ∧
    (∀ op behind ks operands pc, Cursor.readOpcode s.machine.core.executor.pc = .ok op behind →
      Cursor.readOperands ks behind = .ok operands pc → pc.position ≤ pc.home.size) ∧
    (∀ (m : Memory) a b (cell : Cell), m.heap.block? a = some b → ∃ b' v,
      (m.growAt a cell).heap.block? a = some b' ∧ b'.cell? cell.1 cell.2 = some v) ∧
    ((∃ c', Exec.step env.signature? s.machine.core = .error .crash c') ↔
      ∃ i next n, Cursor.readInstruction s.machine.core.executor.pc = .ok i next ∧ i.offset? = some n ∧
        UInt64.size ≤ s.machine.core.executor.base + n ∧ ∃ c', i.takes (s.machine.core.withPc next) = .ok () c') := by
  have hwithin := h.within Cursor.enclosed_inside fun _ _ => Nat.zero_le _
  have hpc : s.machine.core.executor.pc.Inside := hwithin.pc
  refine ⟨?_, ?_, ?_, ?_⟩
  · rintro pc (rfl | hcaller)
    · exact hpc
    · exact hwithin.callers pc hcaller
  · intro op behind ks operands pc hop hoperands
    have hbehind := Cursor.stays_readOpcode _ hpc
    rw [hop] at hbehind
    have hstays := Cursor.stays_readOperands ks behind hbehind
    rw [hoperands] at hstays
    exact hstays
  · intro m a b cell hb
    obtain ⟨b', hb', -, hcell⟩ := Memory.cell?_growAt hb cell
    exact ⟨b', _, hb', hcell⟩
  · cases hread : Cursor.readInstruction s.machine.core.executor.pc with
    | error e pc =>
      rw [Exec.step_of_unread hread]
      simp
    | ok i next =>
      rw [Exec.step_of_read hread, Instruction.execute_crashes_iff]
      constructor
      · rintro ⟨n, hn⟩
        exact ⟨i, next, n, rfl, hn⟩
      · rintro ⟨_, _, n, ⟨⟩, hn⟩
        exact ⟨n, hn⟩

/-! ### A run that comes down -/

/-- Puts a number in the place where its base is saved, and calls. -/
def careless : Section :=
  { code := (List.flatMap Instruction.encode [⟨.all, (0, ())⟩, ⟨.pop, ()⟩, ⟨.ldiU64, (0xFFFFFFFFFFFFFFFF, ())⟩,
      ⟨.call, (1, 0, ())⟩, ⟨.ldl, (1, ())⟩, ⟨.ret, (0, ())⟩]).toArray }

def returning : Section := { code := (Instruction.encode ⟨.ret, (0, ())⟩).toArray }

def loadCareless (m : Machine Unit Unit) : Machine Unit Unit :=
  { m with core := { m.core with sections := ((m.core.sections.add careless).2.add returning).2 } }

def callCareless : Task Unit Unit Unit := .enter (.call 0 []) fun _ => .finish (.host ())

def carelessAt (executor : Executor) (runs : Nat) (focus : Focus Unit Unit Unit) (inner : List (Waiting Unit Unit Unit)) :
    State Unit Unit Unit :=
  ⟨{ loadCareless (.new {} {}) with core := { (loadCareless (.new {} {})).core with executor, runs } }, focus,
    inner ++ [.caller 0 fun _ => .finish (.host ())]⟩

def carelessInside : State Unit Unit Unit :=
  carelessAt
    { stack := #[.int 0, .uint 0xFFFFFFFFFFFFFFFF, .int 0]
      base := 2
      callers := #[{ home := .host 0 }, { home := { careless with id := .loaded 1 }, position := 21 }]
      pc := { home := { returning with id := .loaded 2 } } }
    2 .dispatch [.instruction]

/-- What the inner section leaves: a base that no stack has. -/
def carelessLeft : Executor :=
  { base := 0xFFFFFFFFFFFFFFFF
    callers := #[{ home := .host 0 }]
    pc := { home := { careless with id := .loaded 1 }, position := 21 } }

theorem course_carelessInside : Course (fun _ => True) .bare carelessInside := by
  have hstart : Course (ρ := Unit) (fun _ => True) .bare
      ⟨.new {} {}, .host (.act fun m => (callCareless, loadCareless m)), []⟩ := .start {} {} _
  have hloaded := hstart.act ⟨Or.inl ⟨rfl, rfl⟩, fun _ _ _ => trivial⟩
  exact hloaded.stretch (n := 10) (by cbv)

theorem course_carelessLeft : Course (fun _ => True) .bare (carelessAt carelessLeft 1 .dispatch []) := by
  have hleave : Course (fun _ => True) .bare (carelessAt carelessLeft 2 (.leave (.ok false)) [.instruction]) :=
    course_carelessInside.step rfl (by cbv)
  have htick : Course (fun _ => True) .bare (carelessAt carelessLeft 1 .tick []) := hleave.step rfl rfl
  exact htick.step rfl rfl

theorem crashes_iff_careless :
    Course (fun _ => True) .bare (carelessAt carelessLeft 1 .dispatch []) ∧
      ∃ c', Exec.step Environment.bare.signature? (carelessAt carelessLeft 1 .dispatch []).machine.core =
        .error .crash c' := by
  have hread : Cursor.readInstruction carelessLeft.pc = .ok ⟨.ldl, (1, ())⟩ { carelessLeft.pc with position := 26 } := by
    cbv
  refine ⟨course_carelessLeft, course_carelessLeft.crashes_iff.2.2.2.2 ?_⟩
  exact ⟨_, _, 1, hread, rfl, by decide, _, rfl⟩

/-- A program that does nothing but call brings the machine down. -/
theorem careless_comes_down :
    ∃ s : State Unit Unit Unit, Course (fun _ => True) .bare s ∧ s.isDown = true := by
  refine ⟨carelessAt { carelessLeft with pc := { carelessLeft.pc with position := 26 } } 1 (.fail .crash) [], ?_, rfl⟩
  exact course_carelessLeft.step rfl (by cbv)

end ScriptVm
