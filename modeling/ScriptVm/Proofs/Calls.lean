import ScriptVm.Proofs.Placement
import ScriptVm.Proofs.StackEffects

/-! What calls and returns do to the one stack. A caller leaves the arguments and their number on it,
`all` puts the saved base on top and begins the locals there, and a return takes all of this away again
and puts the results in its place. -/

namespace ScriptVm
variable {δ ν ρ : Type}

theorem Value.exact_uint_size (n : UInt64) : (Value.uint n).exact .size = .ok n := by
  have hn := n.toNat_lt
  have hwithin : (0 : Int) ≤ n.toNat ∧ (n.toNat : Int) ≤ UInt64.size - 1 := by
    simp only [UInt64.size]
    omega
  simp only [exact, whole, within, if_pos hwithin, Except.map]
  have hback : UInt64.ofInt (n.toNat : Int) = n := by
    apply UInt64.toNat_inj.1
    simp only [UInt64.ofInt, UInt64.toNat_ofNat']
    omega
  rw [hback]

def Core.entering (c : Core) (home : Section) : Core :=
  { c with executor := { c.executor with callers := c.executor.callers.push c.executor.pc, pc := { home } } }

/-! ### Looking at a call -/

namespace Executor
variable {e : Executor} {below arguments : List Value} {count saved : Value} {n : UInt64}

theorem belowBase_of_getElem {index : Nat} {v : Value} (hword : index + 1 < UInt64.size) (hle : index + 1 ≤ e.base)
    (hv : e.stack[e.base - (index + 1)]? = some v) : e.belowBase index = .ok v := by
  unfold belowBase
  rw [Word.add_eq_ok_iff.2 ⟨hword, rfl⟩]
  change (if index + 1 ≤ e.base then _ else _) = _
  rw [if_pos hle, hv]

theorem getElem?_of_isPrefix {cells : List Value} (h : cells <+: e.stack.toList) {i : Nat} (hi : i < cells.length) :
    e.stack[i]? = some cells[i] := by
  obtain ⟨above, habove⟩ := h
  rw [← Array.getElem?_toList, ← habove, List.getElem?_append_left hi, List.getElem?_eq_getElem hi]

theorem argumentCount_of_call (hbase : e.base = below.length + arguments.length + 2)
    (hcells : below ++ arguments ++ [count, saved] <+: e.stack.toList)
    (hn : count.exact .size = .ok n) : e.argumentCount = .ok n.toNat := by
  have hcount : e.belowBase 1 = .ok count := by
    refine belowBase_of_getElem (by decide) (by omega) ?_
    have hlength : (below ++ arguments).length = below.length + arguments.length := List.length_append
    rw [getElem?_of_isPrefix hcells (by simp; omega), Option.some_inj, List.getElem_append_right (by omega)]
    simp [hbase]
  unfold argumentCount
  rw [hcount]
  simp only [bind, Except.bind, hn]
  rfl

theorem argument_of_call (hbase : e.base = below.length + arguments.length + 2)
    (hcells : below ++ arguments ++ [count, saved] <+: e.stack.toList) (hn : count.exact .size = .ok n)
    (hlength : n.toNat = arguments.length) (hfits : below.length + arguments.length + 2 < UInt64.size) {i : Nat}
    (hi : i < arguments.length) : e.argument i = .ok arguments[i] := by
  have hplace : e.belowBase (arguments.length - i + 1) = .ok arguments[i] := by
    refine belowBase_of_getElem (by omega) (by omega) ?_
    have hslot : e.base - (arguments.length - i + 1 + 1) = below.length + i := by omega
    rw [hslot, getElem?_of_isPrefix hcells (by simp; omega), Option.some_inj, List.getElem_append_left (by simp; omega),
      List.getElem_append_right (by omega)]
    simp
  unfold argument
  rw [argumentCount_of_call hbase hcells hn, hlength]
  have hword : Word.add (arguments.length - i) 1 = .ok (arguments.length - i + 1) :=
    Word.add_eq_ok_iff.2 ⟨by omega, rfl⟩
  simp only [bind, Except.bind, if_neg (Nat.not_le_of_lt hi), hword]
  exact hplace

end Executor

/-! ### Returning -/

namespace Exec

theorem popExact_of_push {c : Core} {stack : Array Value} {v : Value} {t : CastTarget} {n : t.Carrier}
    (hstack : c.executor.stack = stack.push v) (hn : v.exact t = .ok n) :
    popExact t c = .ok n { c with executor := { c.executor with stack }, memory := c.memory.release [v] } := by
  have hback : c.executor.stack.back? = some v := by rw [hstack, Array.back?_push]
  rw [popExact_of_back hback, hn]
  simp only [hstack, Array.pop_push]

theorem closeCall_eq {c : Core} {cells above : Array Value} {count : Value} {saved n : UInt64}
    (hbase : c.executor.base = cells.size + 2)
    (hstack : c.executor.stack = (cells.push count).push (.uint saved) ++ above) (hn : count.exact .size = .ok n)
    (hle : n.toNat ≤ cells.size) :
    ∃ memory, closeCall c = .ok () { c with
      memory
      executor := { c.executor with stack := cells.take (cells.size - n.toNat), base := saved.toNat } } := by
  have htake : c.executor.stack.take c.executor.base = (cells.push count).push (.uint saved) := by
    rw [hstack, hbase]
    exact Array.ext' (by simp)
  unfold closeCall
  rw [run_get]
  have htruncate : truncate c.executor.base c = .ok () { c with
      executor := { c.executor with stack := (cells.push count).push (.uint saved) }
      memory := c.memory.release (c.executor.stack.toList.drop c.executor.base) } := by
    rw [← htake]
    rfl
  simp only [bind, EStateM.bind, htruncate]
  rw [popExact_of_push rfl (Value.exact_uint_size saved)]
  dsimp only [modify, modifyGet, MonadStateOf.modifyGet, EStateM.modifyGet]
  rw [popExact_of_push rfl hn]
  dsimp only [get, getThe, MonadStateOf.get, EStateM.get]
  rw [if_neg (by omega)]
  exact ⟨_, rfl⟩

theorem forM_push (vs : List Value) (c : Core) : vs.forM push c = .ok () (c.laden vs c.memory) := by
  induction vs generalizing c with
  | nil => simp [Core.laden, List.forM, pure, EStateM.pure]
  | cons v vs ih =>
    change vs.forM push { c with executor := c.executor.push v } = _
    rw [ih]
    simp [Core.laden, Executor.push]

theorem backToCaller_of_push {c : Core} {callers : Array Cursor} {back : Cursor}
    (h : c.executor.callers = callers.push back) :
    backToCaller c = .ok () { c with executor := { c.executor with pc := back, callers } } := by
  unfold backToCaller
  rw [run_get, h, Array.back?_push]
  change EStateM.Result.ok () { c with executor := { c.executor with
    pc := back
    callers := c.executor.callers.pop } } = _
  rw [h, Array.pop_push]

/-- A return from a call that was opened leaves the stack as it was before the arguments, and the results
on top of it. -/
theorem leaveSection_of_call {c : Core} {below arguments above : List Value} {count : Value} {saved n : UInt64}
    {results : Nat} {callers : Array Cursor} {back : Cursor}
    (hbase : c.executor.base = below.length + arguments.length + 2)
    (hstack : c.executor.stack.toList = below ++ arguments ++ [count, .uint saved] ++ above)
    (hn : count.exact .size = .ok n) (hlength : n.toNat = arguments.length)
    (hcallers : c.executor.callers = callers.push back) (hroom : results ≤ above.length)
    (hword : c.executor.base + results < UInt64.size) :
    ∃ memory, leaveSection results c = .ok () { c with
      memory
      executor := { c.executor with
        stack := (below ++ above.drop (above.length - results)).toArray
        base := saved.toNat
        callers
        pc := back } } := by
  have hframe : (below ++ arguments ++ [count, Value.uint saved]).length = below.length + arguments.length + 2 := by
    simp
    omega
  have hsize : c.executor.stack.size = below.length + arguments.length + 2 + above.length := by
    rw [← Array.length_toList, hstack, List.length_append, hframe]
  have hcut : below.length + arguments.length + 2 + above.length - results =
      (below ++ arguments ++ [count, Value.uint saved]).length + (above.length - results) := by omega
  have hdrop : c.executor.stack.toList.drop (c.executor.stack.size - results) = above.drop (above.length - results) := by
    rw [hsize, hcut, hstack, List.drop_length_add_append]
  have htake : c.executor.stack.take (c.executor.stack.size - results) =
      ((below ++ arguments).toArray.push count).push (.uint saved) ++ (above.take (above.length - results)).toArray := by
    apply Array.ext'
    rw [Array.take_eq_extract, Array.toList_extract, List.extract_eq_take_drop, List.drop_zero, Nat.sub_zero, hsize,
      hcut, hstack, List.take_length_add_append]
    simp
  have hbelow : (below ++ arguments).toArray.take ((below ++ arguments).toArray.size - n.toNat) = below.toArray := by
    simp [hlength]
  rw [leaveSection_eq, if_neg (by omega), if_neg (by omega)]
  simp only [bind, EStateM.bind]
  rw [replaceCall_eq (by omega), hdrop, htake]
  obtain ⟨memory, hclose⟩ := closeCall_eq (c := { c with executor := { c.executor with
    stack := ((below ++ arguments).toArray.push count).push (.uint saved) ++
      (above.take (above.length - results)).toArray } }) (by simpa using hbase) rfl hn (by simp [hlength])
  simp only [bind, EStateM.bind, orDrop, hclose, hbelow]
  rw [forM_push]
  refine ⟨memory, ?_⟩
  dsimp only
  refine (@backToCaller_of_push _ callers back ?_).trans ?_
  · exact hcallers
  · simp [Core.laden]

theorem execute_ret {natives : UInt32 → Option Signature} {count : UInt8} {c c' : Core}
    (h : leaveSection count.toNat c = .ok () c') :
    Instruction.execute natives ⟨.ret, (count, ())⟩ c = .ok .returned c' := by
  simp only [Instruction.execute, bind, EStateM.bind, h]
  rfl

theorem popMany_of_append {c : Core} {below vs : List Value} {count : Nat}
    (hstack : c.executor.stack.toList = below ++ vs) (hcount : vs.length = count) :
    popMany count c = .ok vs { c with executor := { c.executor with stack := below.toArray } } := by
  have hsize : c.executor.stack.size = below.length + count := by
    rw [← Array.length_toList, hstack, List.length_append, hcount]
  have htake : c.executor.stack.take below.length = below.toArray := by
    apply Array.ext'
    rw [Array.take_eq_extract, Array.toList_extract, List.extract_eq_take_drop, hstack]
    simp
  rw [popMany_eq, if_neg (by omega), hsize, Nat.add_sub_cancel, htake, hstack, List.drop_left]

/-! ### Entering -/

theorem enterSection_cases (index : UInt32) (c : Core) :
    (∃ home, c.sections.get index = .ok home ∧ enterSection index c = .ok () (c.entering home)) ∨
    ∃ f, enterSection index c = .error f c := by
  unfold enterSection
  rw [run_get]
  dsimp only
  split_ifs
  · exact Or.inr ⟨_, rfl⟩
  · cases c.sections.get index with
    | error e => exact Or.inr ⟨_, rfl⟩
    | ok home => exact Or.inl ⟨home, rfl, rfl⟩

/-- A call pushes the number of arguments and goes to the start of its section, or fails with no more
than the number pushed. -/
theorem execute_call_cases (natives : UInt32 → Option Signature) (callee : UInt32) (count : UInt8) (c : Core) :
    (∃ home, c.sections.get callee = .ok home ∧ Instruction.execute natives ⟨.call, (callee, count, ())⟩ c =
      .ok .entered ((c.laden [.int (.ofInt count.toNat)] c.memory).entering home)) ∨
    ∃ f vs, Instruction.execute natives ⟨.call, (callee, count, ())⟩ c = .error f (c.laden vs c.memory) := by
  have hsame : c.laden [] c.memory = c := by simp [Core.laden]
  cases hhome : c.sections.get callee with
  | error e =>
    refine Or.inr ⟨.code e, [], ?_⟩
    simp only [Instruction.execute, bind, EStateM.bind, get, getThe, MonadStateOf.get, EStateM.get, hhome, hsame]
    rfl
  | ok home =>
    have hchecked : Instruction.execute natives ⟨.call, (callee, count, ())⟩ c =
        (ofExcept (home.checkArguments count.toNat) >>= fun _ => push (.int (.ofInt count.toNat)) >>= fun _ =>
          enterSection callee >>= fun _ => pure Flow.entered : Exec Flow) c := by
      simp only [Instruction.execute, bind, EStateM.bind, get, getThe, MonadStateOf.get, EStateM.get, hhome]
    rw [hchecked]
    cases home.checkArguments count.toNat with
    | error f =>
      refine Or.inr ⟨f, [], ?_⟩
      rw [hsame]
      rfl
    | ok u =>
      rw [run_ofExcept_ok]
      change (∃ _, _ ∧ (enterSection callee >>= _ : Exec Flow) (c.laden [_] c.memory) = _) ∨
        ∃ _ _, (enterSection callee >>= _ : Exec Flow) (c.laden [_] c.memory) = _
      rcases enterSection_cases callee (c.laden [.int (.ofInt count.toNat)] c.memory) with
        ⟨home', hhome', hentered⟩ | ⟨f, hfailed⟩
      · cases hhome.symm.trans hhome'
        refine Or.inl ⟨home, rfl, ?_⟩
        simp only [bind, EStateM.bind, hentered]
        rfl
      · refine Or.inr ⟨f, [.int (.ofInt count.toNat)], ?_⟩
        simp only [bind, EStateM.bind, hfailed]

end Exec

namespace Machine
variable {α : Type} {m : Machine δ ν} {x : Exec α} {c : Core}

theorem exec_of_ok {a : α} (h : x m.core = .ok a c) : m.exec x = (.ok a, { m with core := c }) := by
  simp only [exec, h]

theorem exec_of_error {f : Fault} (h : x m.core = .error f c) : m.exec x = (.error f, { m with core := c }) := by
  simp only [exec, h]

theorem exec_enterSection_cases (m : Machine δ ν) (index : UInt32) :
    (∃ home, m.core.sections.get index = .ok home ∧
      m.exec (Exec.enterSection index) = (.ok (), { m with core := m.core.entering home })) ∨
    ∃ f, m.exec (Exec.enterSection index) = (.error f, m) := by
  rcases Exec.enterSection_cases index m.core with ⟨home, hhome, hentered⟩ | ⟨f, hfailed⟩
  · exact Or.inl ⟨home, hhome, exec_of_ok hentered⟩
  · exact Or.inr ⟨f, exec_of_error hfailed⟩

theorem prepareCall_cases (m : Machine δ ν) (index : UInt32) (arguments : List Value) :
    (∃ home memory, m.core.sections.get index = .ok home ∧ m.prepareCall index arguments =
      (.ok home.results, { m with
        core := m.core.laden (arguments.map Value.share ++ [.int (.ofInt arguments.length)]) memory })) ∨
    ∃ failure, m.prepareCall index arguments = (.error failure, m) := by
  unfold prepareCall
  split_ifs
  · exact Or.inr ⟨_, rfl⟩
  · cases m.core.sections.get index with
    | error e => exact Or.inr ⟨_, rfl⟩
    | ok home =>
      dsimp only
      cases home.checkArguments arguments.length with
      | error f => exact Or.inr ⟨_, rfl⟩
      | ok u =>
        obtain ⟨memory, hpushed⟩ := Exec.forM_pushShared arguments m.core
        refine Or.inl ⟨home, memory, rfl, ?_⟩
        simp only [exec, bind, EStateM.bind, hpushed]
        simp [Core.laden, Exec.push, Executor.push, modify, modifyGet, MonadStateOf.modifyGet, EStateM.modifyGet]

theorem exec_ready (m : Machine δ ν) (ready : Bool) :
    m.exec (if ready then pure () else Exec.push (.int 0)) = (.ok (), { m with
      core := m.core.laden (if ready then [] else [.int 0]) m.core.memory }) := by
  cases ready with
  | true => exact exec_of_ok (by simp [Core.laden, pure, EStateM.pure])
  | false => exact exec_of_ok rfl

end Machine

namespace State
variable (m : Machine δ ν) (waiting : List (Waiting δ ν ρ)) (next : Except Failure Execution → Task δ ν ρ)

/-- A section that the host executes is entered, or is refused on top of what was pushed for it. -/
theorem enter_execute_cases (index : UInt32) (ready : Bool) :
    (∃ home, m.core.sections.get index = .ok home ∧ enter m waiting next (.execute index ready) =
      ⟨{ m with core := (m.core.laden (if ready then [] else [Value.int 0]) m.core.memory).entering home }.openRun, .tick,
        .executor next :: waiting⟩) ∨
    ∃ failure, enter m waiting next (.execute index ready) =
      ⟨{ m with core := m.core.laden (if ready then [] else [Value.int 0]) m.core.memory },
        .host (next (.error failure)), waiting⟩ := by
  unfold enter
  simp only [m.exec_ready]
  rcases Machine.exec_enterSection_cases { m with
      core := m.core.laden (if ready then [] else [.int 0]) m.core.memory } index with
    ⟨home, hhome, hentered⟩ | ⟨f, hfailed⟩
  · simp only [hentered]
    exact Or.inl ⟨home, hhome, rfl⟩
  · simp only [hfailed]
    exact Or.inr ⟨_, rfl⟩

theorem waiting_leave (result : Except Failure Bool) (w : Waiting δ ν ρ) (ws : List (Waiting δ ν ρ)) :
    (leave m result (w :: ws)).waiting = ws := by
  cases w with
  | instruction => rcases result with failure | _ | _ <;> rfl
  | caller results next => rfl
  | executor next => rfl

end State
end ScriptVm
