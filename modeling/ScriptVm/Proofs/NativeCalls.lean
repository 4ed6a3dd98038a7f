import ScriptVm.Proofs.Passages
import ScriptVm.Proofs.Calls

/-! What a call of a native does to the operand stack. It takes the arguments off, and for a variadic native also
their number, which lies on top of them. The native is given them in the order in which they were pushed. What its code
does is up to the host; once it has come to its end, the result is pushed. So a native that leaves the stack alone, or
leaves it as it found it after sections that it had run, puts its result in the place of its arguments. -/

namespace ScriptVm
variable {δ ν ρ α : Type}

/-- How many arguments a call takes, and how many operands on top tell their number. -/
def Executor.nativeOperands (e : Executor) (arity : Int8) : Option (Nat × Nat) :=
  if arity = Signature.variadic then e.topNumber.map fun count => (count, 1)
  else if arity = Signature.silent then some (1, 0)
  else some (arity.toInt.toNat, 0)

/-- A native can be called: its arity is as stated, and so many arguments are there, below so many operands that tell
their number. -/
structure Environment.Answers (env : Environment δ ν) (e : Executor) (index : UInt32) (arity : Int8) (n : Native δ ν)
    (count extra : Nat) : Prop where
  native : env.native? index = some n
  code : n.arity.code = arity
  operands : e.nativeOperands arity = some (count, extra)
  enough : count + extra ≤ e.stack.size

/-! ### Arguments -/

namespace Exec

theorem popMany_cases (count : Nat) (c : Core) :
    (∃ rest vs, c.executor.stack.toList = rest ++ vs ∧ vs.length = count ∧
      popMany count c = .ok vs { c with executor := { c.executor with stack := rest.toArray } }) ∨
    (c.executor.stack.size < count ∧ popMany count c = .error .underflow c) := by
  by_cases hcount : c.executor.stack.size < count
  · exact Or.inr ⟨hcount, by rw [popMany_eq, if_pos hcount]⟩
  · obtain ⟨rest, vs, hstack, -, hlength⟩ := exists_top (Nat.le_of_not_lt hcount)
    exact Or.inl ⟨rest, vs, hstack, hlength, popMany_of_append hstack hlength⟩

theorem nativeArguments_cases (s : Signature) (index : UInt32) (c : Core) :
    (∃ args ops c', c.executor.stack.toList = c'.executor.stack.toList ++ args ++ ops ∧
      c.executor.nativeOperands s.arity = some (args.length, ops.length) ∧
      nativeArguments (some s) index s.arity c = .ok args c') ∨
    ((∀ count extra, c.executor.nativeOperands s.arity = some (count, extra) →
      c.executor.stack.size < count + extra) ∧ ∃ f c', nativeArguments (some s) index s.arity c = .error f c') := by
  have hfixed : ∀ count, (∃ args ops c', c.executor.stack.toList = c'.executor.stack.toList ++ args ++ ops ∧
        some (count, 0) = some (args.length, ops.length) ∧ popMany count c = .ok args c') ∨
      ((∀ count' extra, some (count, 0) = some (count', extra) → c.executor.stack.size < count' + extra) ∧
        ∃ f c', popMany count c = .error f c') := by
    intro count
    rcases popMany_cases count c with ⟨rest, vs, hstack, hlength, hrun⟩ | ⟨hfew, hrun⟩
    · exact Or.inl ⟨vs, [], _, by simpa using hstack, by rw [hlength]; rfl, hrun⟩
    · refine Or.inr ⟨fun count' extra hcount => ?_, _, _, hrun⟩
      cases hcount
      exact hfew
  unfold Executor.nativeOperands nativeArguments
  simp only [ne_eq, not_true_eq_false, if_false]
  split_ifs
  · simp only [bind, EStateM.bind]
    rcases popExact_size_cases c with ⟨n, v, hn, htop, hstack⟩ | ⟨htop, f, c', hfailed⟩
    · have hsize := congrArg List.length hstack
      rw [List.length_append, Array.length_toList, Array.length_toList] at hsize
      simp only [hn, htop]
      rcases popMany_cases n.toNat { c with
          executor := { c.executor with stack := c.executor.stack.pop }
          memory := c.memory.release [v] } with ⟨rest, vs, hbelow, hlength, hrun⟩ | ⟨hfew, hrun⟩
      · refine Or.inl ⟨vs, [v], _, ?_, by rw [hlength]; rfl, hrun⟩
        rw [hstack, hbelow]
      · refine Or.inr ⟨fun count extra hcount => ?_, _, _, hrun⟩
        cases hcount
        rw [hsize]
        exact Nat.add_lt_add_right hfew 1
    · simp only [hfailed, htop]
      exact Or.inr ⟨nofun, f, c', rfl⟩
  · exact hfixed 1
  · exact hfixed _

end Exec

namespace Environment.Answers
variable {env : Environment δ ν} {index : UInt32} {arity : Int8} {n : Native δ ν} {count extra : Nat}

theorem unique {e : Executor} {n' : Native δ ν} {count' extra' : Nat} (h : env.Answers e index arity n count extra)
    (h' : env.Answers e index arity n' count' extra') : n = n' ∧ count = count' ∧ extra = extra' := by
  obtain ⟨rfl, rfl⟩ := Prod.mk.inj (Option.some.inj (h.operands.symm.trans h'.operands))
  exact ⟨Option.some.inj (h.native.symm.trans h'.native), rfl, rfl⟩

theorem withPc_iff {c : Core} {pc : Cursor} :
    env.Answers (c.withPc pc).executor index arity n count extra ↔ env.Answers c.executor index arity n count extra :=
  ⟨fun ⟨h₁, h₂, h₃, h₄⟩ => ⟨h₁, h₂, h₃, h₄⟩, fun ⟨h₁, h₂, h₃, h₄⟩ => ⟨h₁, h₂, h₃, h₄⟩⟩

theorem invoke_eq_body {e : Executor} (h : env.Answers e index arity n count extra)
    (hstated : ∀ k, n.arity = .fixed k → k < 128) {args : List Value} (hlength : args.length = count) :
    n.invoke args = n.body args := by
  have hoperands := h.operands
  rw [← h.code] at hoperands
  have haccepts : n.arity.accepts args.length = true := by
    unfold Executor.nativeOperands at hoperands
    cases harity : n.arity with
    | fixed k =>
      have hk := hstated k harity
      have htoInt : (Arity.fixed k).code.toInt = k := Int8.toInt_ofInt_of_le (by omega) (by omega)
      have hcodes : Signature.variadic.toInt = -1 ∧ Signature.silent.toInt = -2 := by decide
      have hvariadic : (Arity.fixed k).code ≠ Signature.variadic := fun h => by
        rw [h] at htoInt
        omega
      have hsilent : (Arity.fixed k).code ≠ Signature.silent := fun h => by
        rw [h] at htoInt
        omega
      rw [harity, if_neg hvariadic, if_neg hsilent, htoInt] at hoperands
      obtain ⟨hk, -⟩ := Prod.mk.inj (Option.some.inj hoperands)
      rw [hlength, ← hk]
      exact beq_self_eq_true k
    | variadic => rfl
    | silent =>
      rw [harity] at hoperands
      obtain ⟨rfl, -⟩ := Prod.mk.inj (Option.some.inj hoperands)
      rw [hlength]
      rfl
  rw [Native.invoke, if_pos haccepts]

end Environment.Answers

theorem Exec.answered_or_fails (env : Environment δ ν) (index : UInt32) (arity : Int8) (c : Core) :
    (∃ n args ops c', env.Answers c.executor index arity n args.length ops.length ∧
      c.executor.stack.toList = c'.executor.stack.toList ++ args ++ ops ∧
      nativeArguments (env.signature? index) index arity c = .ok args c') ∨
    ((∀ n count extra, ¬ env.Answers c.executor index arity n count extra) ∧
      ∃ f c', nativeArguments (env.signature? index) index arity c = .error f c') := by
  unfold Environment.signature?
  cases hnative : env.native? index with
  | none =>
    refine Or.inr ⟨fun n count extra h => ?_, _, _, rfl⟩
    cases hnative.symm.trans h.native
  | some n =>
    rw [Option.map_some]
    by_cases hcode : n.arity.code = arity
    · subst hcode
      rcases nativeArguments_cases n.signature index c with
        ⟨args, ops, c', hstack, hoperands, hrun⟩ | ⟨hfew, f, c', hrun⟩
      · refine Or.inl ⟨n, args, ops, c', ⟨hnative, rfl, hoperands, ?_⟩, hstack, hrun⟩
        rw [← Array.length_toList, hstack, List.append_assoc, List.length_append, List.length_append]
        exact Nat.le_add_left _ _
      · refine Or.inr ⟨fun n' count extra h => ?_, f, c', hrun⟩
        exact absurd h.enough (Nat.not_le_of_lt (hfew count extra h.operands))
    · refine Or.inr ⟨fun n' count extra h => ?_, .nativeArity n.name n.arity.code arity, c, ?_⟩
      · cases hnative.symm.trans h.native
        exact hcode h.code
      · unfold nativeArguments
        dsimp only
        rw [if_pos (show n.signature.arity ≠ arity from hcode)]
        rfl

namespace State
variable {env : Environment δ ν} {m : Machine δ ν} {index : UInt32} {arity : Int8} {next : Cursor}

theorem dispatch_answered (hread : Cursor.readInstruction m.core.executor.pc = .ok ⟨.nat, (index, arity, ())⟩ next)
    {n : Native δ ν} {count extra : Nat} (h : env.Answers m.core.executor index arity n count extra)
    (waiting : List (Waiting δ ν ρ)) : ∃ m' args ops,
      m.core.executor.stack.toList = m'.core.executor.stack.toList ++ args ++ ops ∧ args.length = count ∧
      ops.length = extra ∧
      dispatch env m waiting = ⟨m', .host ((n.invoke args).bind fun r => .finish (.native args r)), waiting⟩ := by
  rcases Exec.answered_or_fails env index arity (m.core.withPc next) with
    ⟨n', args, ops, c', h', hstack, hrun⟩ | ⟨hunanswered, -⟩
  · obtain ⟨rfl, hcount, hextra⟩ := h.unique (Environment.Answers.withPc_iff.1 h')
    have hstep : m.exec (Exec.step env.signature?) = (.ok (.native index args), { m with core := c' }) := by
      refine Machine.exec_of_ok ((Exec.step_of_read hread).trans ?_)
      simp only [Instruction.execute, bind, EStateM.bind, hrun]
      rfl
    refine ⟨{ m with core := c' }, args, ops, hstack, hcount.symm, hextra.symm, ?_⟩
    simp only [dispatch, hstep, h.native]
  · exact absurd (Environment.Answers.withPc_iff.2 h) (hunanswered n count extra)

theorem dispatch_unanswered (hread : Cursor.readInstruction m.core.executor.pc = .ok ⟨.nat, (index, arity, ())⟩ next)
    (h : ∀ n count extra, ¬ env.Answers m.core.executor index arity n count extra) (waiting : List (Waiting δ ν ρ)) :
    ∃ f m', f ≠ .crash ∧ dispatch env m waiting = ⟨m', .fail f, waiting⟩ := by
  rcases Exec.answered_or_fails env index arity (m.core.withPc next) with
    ⟨n', args, ops, c', h', hstack, hrun⟩ | ⟨-, f, c', hrun⟩
  · exact absurd (Environment.Answers.withPc_iff.1 h') (h n' _ _)
  · have hsteady := Exec.steady_nativeArguments (env.signature? index) index arity (m.core.withPc next)
    have hstep : m.exec (Exec.step env.signature?) = (.error f, { m with core := c' }) := by
      refine Machine.exec_of_error ((Exec.step_of_read hread).trans ?_)
      simp only [Instruction.execute, bind, EStateM.bind, hrun]
    rw [hrun] at hsteady
    refine ⟨f, { m with core := c' }, ?_, by simp only [dispatch, hstep]⟩
    rintro rfl
    cases hsteady.2

end State

/-! ### Code of natives -/

/-- Host code that does not touch the operand stack. -/
inductive HostCode.OffStack : HostCode δ ν α → Prop where
  | finish (a : α) : OffStack (.finish a)
  | act {f : Machine δ ν → HostCode δ ν α × Machine δ ν} :
      (∀ m, (f m).2.core.executor.stack = m.core.executor.stack) → (∀ m, OffStack (f m).1) → OffStack (.act f)

/-- Started on the one machine, host code comes to its end on the other, with this result. That is on the way there
whatever is to follow. -/
def HostCode.Finishes (env : Environment δ ν) (waiting : List (Waiting δ ν ρ)) (code : HostCode δ ν α) (m : Machine δ ν)
    (a : α) (m' : Machine δ ν) : Prop :=
  ∀ k : α → Task δ ν ρ, ∃ places, Passes env places ⟨m, .host (code.bind k), waiting⟩ ⟨m', .host (k a), waiting⟩

theorem HostCode.OffStack.finishes {code : HostCode δ ν α} (h : code.OffStack) (env : Environment δ ν)
    (waiting : List (Waiting δ ν ρ)) (m : Machine δ ν) :
    ∃ a m', code.Finishes env waiting m a m' ∧ m'.core.executor.stack = m.core.executor.stack := by
  induction h generalizing m with
  | finish a => exact ⟨a, m, fun k => ⟨[], .refl _⟩, rfl⟩
  | @act f hstack _ ih =>
    obtain ⟨a, m', hfinishes, hsame⟩ := ih m (f m).2
    refine ⟨a, m', fun k => ?_, hsame.trans (hstack m)⟩
    obtain ⟨places, hpasses⟩ := hfinishes k
    exact ⟨places, .quiet rfl (State.step_act env m f k waiting) hpasses⟩

theorem passes_settle (env : Environment δ ν) (m : Machine δ ν) (args : List Value) (v? : Option Value)
    (waiting : List (Waiting δ ν ρ)) :
    ∃ m', Passes env [] ⟨m, .host (.finish (.native args (.ok v?))), waiting⟩ ⟨m', .tick, waiting⟩ ∧
      m'.core.executor.stack.toList = m.core.executor.stack.toList ++ v?.toList := by
  cases v? with
  | none => exact ⟨_, .quiet rfl rfl (.refl _), (List.append_nil _).symm⟩
  | some v => exact ⟨_, .quiet rfl rfl (.refl _), Array.toList_push⟩

/-- Every instruction but a call or a return takes so many operands off the stack and puts so many results there as is
known from it alone, whereby `wty` either advances an iteration or closes it. Nothing deeper changes but the one local,
the removed cell or the exchanged cells that it names. With too few operands it fails. A native is given its arguments
in the order in which they were pushed, and as long as it leaves the stack alone, or as it found it, its result takes
their place. -/
theorem Machine.stack_effect (env : Environment δ ν) {m : Machine δ ν} {i : Instruction} {next : Cursor}
    (hread : Cursor.readInstruction m.core.executor.pc = .ok i next) (hcall : i.op ≠ .call) (hret : i.op ≠ .ret)
    (waiting : List (Waiting δ ν ρ)) :
    (i.op ≠ .nat →
      (∀ flow c, Exec.step env.signature? m.core = .ok flow c → (i.footprint m.core.executor.iterated).Fits
        m.core.executor.base m.core.executor.stack.toList c.executor.stack.toList) ∧
      (m.core.executor.stack.size < (i.footprint m.core.executor.iterated).needs →
        ∃ f c, f ≠ .crash ∧ Exec.step env.signature? m.core = .error f c)) ∧
    ∀ index arity, i = ⟨.nat, (index, arity, ())⟩ →
      (∀ n count extra, env.Answers m.core.executor index arity n count extra → ∃ m₁ args ops,
        m.core.executor.stack.toList = m₁.core.executor.stack.toList ++ args ++ ops ∧
        args.length = count ∧ ops.length = extra ∧
        State.dispatch env m waiting = ⟨m₁, .host ((n.invoke args).bind fun r => .finish (.native args r)), waiting⟩ ∧
        ((∀ k, n.arity = .fixed k → k < 128) → n.invoke args = n.body args) ∧
        (HostCode.OffStack (n.invoke args) → ∃ r m₂, (n.invoke args).Finishes env waiting m₁ r m₂ ∧
          m₂.core.executor.stack = m₁.core.executor.stack) ∧
        ∀ v? m₂, (n.invoke args).Finishes env waiting m₁ (.ok v?) m₂ →
          m₂.core.executor.stack = m₁.core.executor.stack → ∃ places m₃,
            Passes env places ⟨m, .dispatch, waiting⟩ ⟨m₃, .tick, waiting⟩ ∧
            m₃.core.executor.stack.toList = m₁.core.executor.stack.toList ++ v?.toList) ∧
      ((∀ n count extra, ¬ env.Answers m.core.executor index arity n count extra) →
        ∃ f m', f ≠ .crash ∧ State.dispatch env m waiting = ⟨m', .fail f, waiting⟩) := by
  have hstep : Exec.step env.signature? m.core = i.execute env.signature? (m.core.withPc next) :=
    Exec.step_of_read hread
  refine ⟨fun hnat => ?_, ?_⟩
  · have hends := Instruction.ends_execute hnat hcall hret env.signature? (m.core.withPc next)
    rw [← hstep] at hends
    constructor
    · intro flow c hok
      rw [hok] at hends
      exact hends
    · intro hfew
      cases hrun : Exec.step env.signature? m.core with
      | ok flow c =>
        rw [hrun] at hends
        have hneeds := hends.1
        rw [Array.length_toList] at hneeds
        exact absurd hfew (Nat.not_lt_of_le hneeds)
      | error f c =>
        rw [hrun] at hends
        exact ⟨f, c, hends hfew, rfl⟩
  · rintro index arity rfl
    refine ⟨fun n count extra h => ?_, fun h => State.dispatch_unanswered hread h waiting⟩
    obtain ⟨m₁, args, ops, hstack, hcount, hextra, hdispatch⟩ := State.dispatch_answered hread h waiting
    refine ⟨m₁, args, ops, hstack, hcount, hextra, hdispatch, fun hstated => h.invoke_eq_body hstated hcount,
      fun hoff => hoff.finishes env waiting m₁, fun v? m₂ hfinishes hsame => ?_⟩
    obtain ⟨places, hpasses⟩ := hfinishes fun r => .finish (.native args r)
    obtain ⟨m₃, hsettled, hpushed⟩ := passes_settle env m₂ args v? waiting
    refine ⟨_, m₃, .instruction rfl (congrArg Sum.inl hdispatch) (hpasses.trans hsettled), ?_⟩
    rw [hpushed, hsame]

def Native.first : Native Unit Unit where
  name := "first"
  arity := .fixed 2
  body := fun args => .finish (.ok args.head?)

def Environment.withFirst : Environment Unit Unit := { Environment.bare with natives := #[Native.first] }

/-- Three values on the stack, and the instruction of these bytes. -/
def Machine.atThree (code : Array UInt8) : Machine Unit Unit :=
  { core := { executor := { stack := #[.int 1, .int 2, .int 3], pc := { home := { code } } } } }

def callsFirst : State Unit Unit Unit := ⟨.atThree #[Opcode.nat.byte, 0, 0, 0, 0, 2], .dispatch, []⟩

theorem Machine.stack_effect_three :
    (∃ c, Exec.step Environment.withFirst.signature? (atThree #[Opcode.stl.byte, 0, 0, 0, 0]).core = .ok .next c ∧
      ({ pops := 1, touch := .slot 0 } : Footprint).Fits 0 [.int 1, .int 2, .int 3] c.executor.stack.toList) ∧
    ∃ places m, Passes .withFirst places callsFirst ⟨m, .tick, []⟩ ∧
      m.core.executor.stack.toList = [.int 1, .int 2] := by
  constructor
  · have heffect := Machine.stack_effect (ρ := Unit) .withFirst (m := atThree #[Opcode.stl.byte, 0, 0, 0, 0])
      (i := ⟨.stl, (0, ())⟩) rfl nofun nofun []
    exact ⟨_, rfl, (heffect.1 nofun).1 _ _ rfl⟩
  · have heffect := Machine.stack_effect (ρ := Unit) .withFirst (m := callsFirst.machine)
      (i := ⟨.nat, (0, 2, ())⟩) rfl nofun nofun []
    obtain ⟨m₁, args, ops, hstack, hcount, hextra, -, -, -, hpushed⟩ :=
      (heffect.2 0 2 rfl).1 Native.first 2 0 ⟨rfl, rfl, rfl, by decide⟩
    obtain rfl := List.length_eq_zero_iff.1 hextra
    have hcells : [.int 1] ++ [.int 2, .int 3] = m₁.core.executor.stack.toList ++ args := by
      rwa [List.append_nil] at hstack
    obtain ⟨hrest, rfl⟩ := List.append_inj' hcells hcount.symm
    obtain ⟨places, m₃, hpasses, hresult⟩ := hpushed (some (.int 2)) m₁ (fun k => ⟨[], .refl _⟩) rfl
    exact ⟨places, m₃, hpasses, by rw [hresult, ← hrest]; rfl⟩

end ScriptVm
