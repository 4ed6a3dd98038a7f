import Mathlib
import ScriptVm.Machine.Instruction
import ScriptVm.Proofs.OperatorFaults

/-! Faults that a program can be blamed for. What is done with values fails in no other way: that the code is wrong or
that the machine breaks down has other causes. -/

namespace ScriptVm

/-- A fault that a program can be blamed for: neither its code nor the machine is broken. -/
def Fault.isOrdinary : Fault → Bool
  | .code _ | .crash => false
  | _ => true

def Ordinary {α : Type} (r : Except Fault α) : Prop := ∀ f, r = .error f → f.isOrdinary = true

section
variable {α β : Type} {r : Except Fault α}

theorem ordinary_ok (a : α) : Ordinary (.ok a : Except Fault α) := nofun

theorem ordinary_error {f : Fault} (hf : f.isOrdinary = true) : Ordinary (.error f : Except Fault α) := by
  rintro g ⟨⟩
  exact hf

theorem Ordinary.map (hr : Ordinary r) (g : α → β) : Ordinary (r.map g) := by
  cases r with
  | ok a => exact ordinary_ok _
  | error f => exact ordinary_error (hr f rfl)

theorem Ordinary.bind {g : α → Except Fault β} (hr : Ordinary r) (hg : ∀ a, Ordinary (g a)) :
    Ordinary (r >>= g) := by
  cases r with
  | ok a => exact hg a
  | error f => exact ordinary_error (hr f rfl)

end

theorem Value.ordinary_whole (v : Value) (t : CastTarget) (lo hi : Int) : Ordinary (v.whole t lo hi) := by
  have hwithin : ∀ n, Ordinary (v.within t lo hi n) := by
    intro n
    unfold within
    split_ifs
    · exact ordinary_ok _
    · exact ordinary_error rfl
  unfold whole
  split
  · exact ordinary_ok _
  · exact hwithin _
  · exact hwithin _
  · split_ifs
    · exact hwithin _
    · exact ordinary_error rfl
  · exact ordinary_error rfl

theorem Value.ordinary_exact_size (v : Value) : Ordinary (v.exact .size) :=
  (v.ordinary_whole _ _ _).map _

theorem Value.ordinary_coerce_bool (v : Value) : Ordinary (v.coerce .bool) := by
  cases v <;> first | exact ordinary_ok _ | exact ordinary_error rfl

theorem Value.ordinary_coerce_int (v : Value) : Ordinary (v.coerce .int) := by
  cases v <;> first | exact ordinary_ok _ | exact ordinary_error rfl

theorem Value.ordinary_coerce_int64 (v : Value) : Ordinary (v.coerce .int64) := by
  cases v <;> first | exact ordinary_ok _ | exact ordinary_error rfl

theorem Value.ordinary_related (r : Relation) (a b : Value) : Ordinary (a.related r b) := by
  refine Ordinary.map ?_ _
  unfold Value.order
  split
  · exact ordinary_ok _
  · exact ordinary_error rfl

theorem Value.ordinary_invert (v : Value) : Ordinary v.invert := by
  cases v <;> first | exact ordinary_ok _ | exact ordinary_error rfl

namespace Num

theorem ordinary_apply {d : Division} {a b : Num} (hd : d.Lessens) (hb : ¬(!b.isIntegral) = true)
    (h0 : ¬b.isZero = true) : Ordinary (d.apply a b) := by
  obtain ⟨z, hz⟩ := Division.apply_succeeds hd (by simpa using hb) (by simpa using h0)
  exact hz ▸ ordinary_ok z

theorem ordinary_rem (a b : Num) : Ordinary (a.rem b) := by
  unfold rem
  split_ifs with ha hb h0
  · exact ordinary_error rfl
  · exact ordinary_error rfl
  · exact ordinary_error rfl
  · exact ordinary_apply lessens_remainder hb h0

theorem ordinary_idiv (a b : Num) : Ordinary (a.idiv b) := by
  unfold idiv
  split_ifs with hb h0
  · exact ordinary_error rfl
  · exact ordinary_error rfl
  · exact ordinary_apply lessens_quotient hb h0

theorem ordinary_shiftBase (what : String) (a : Num) : Ordinary (a.shiftBase what) := by
  unfold shiftBase
  split
  · exact ordinary_ok _
  · exact ordinary_ok _
  · split_ifs
    · exact ordinary_ok _
    · exact ordinary_error rfl

theorem ordinary_shiftAmount (what : String) (a : Num) : Ordinary (a.shiftAmount what) := by
  unfold shiftAmount
  split
  · split_ifs
    · exact ordinary_error rfl
    · exact ordinary_ok _
  · exact ordinary_ok _
  · split_ifs <;> first | exact ordinary_ok _ | exact ordinary_error rfl

theorem ordinary_shl (a b : Num) : Ordinary (a.shl b) :=
  (a.ordinary_shiftBase _).bind fun _ => (b.ordinary_shiftAmount _).bind fun _ => ordinary_ok _

theorem ordinary_shr (a b : Num) : Ordinary (a.shr b) :=
  (a.ordinary_shiftBase _).bind fun _ => (b.ordinary_shiftAmount _).bind fun _ => ordinary_ok _

theorem ordinary_bitwise (symbol : String) (narrowOp : Int32 → Int32 → Int32)
    (wideOp : UInt64 → UInt64 → UInt64) (a b : Num) : Ordinary (bitwise symbol narrowOp wideOp a b) := by
  unfold bitwise
  split_ifs
  · exact ordinary_error rfl
  · exact ordinary_error rfl
  · exact ordinary_ok _

end Num

theorem Operator.ordinary_apply (op : Operator) (a b : Value) : Ordinary (op.apply a b) := by
  have hnumbers : ∀ x y, Ordinary (op.onNumbers x y) := by
    intro x y
    cases op with
    | sub =>
      obtain ⟨z, hz⟩ := x.sub_succeeds y
      rw [Operator.onNumbers, hz]
      exact ordinary_ok z
    | rem => exact x.ordinary_rem y
    | idiv => exact x.ordinary_idiv y
    | shl => exact x.ordinary_shl y
    | shr => exact x.ordinary_shr y
    | and | or | xor => exact Num.ordinary_bitwise _ _ _ x y
    | _ => exact ordinary_ok _
  unfold apply
  split
  · exact ordinary_ok _
  · exact ordinary_ok _
  · split
    · exact (hnumbers _ _).map _
    · exact ordinary_error rfl

namespace Memory

theorem ordinary_peek (m : Memory) (v : Value) (cell : Cell) : Ordinary (m.peek v cell) := by
  unfold peek
  split
  · split
    · exact ordinary_error rfl
    · split
      · exact ordinary_ok _
      · exact ordinary_error rfl
  · exact ordinary_error rfl

theorem ordinary_peekNested (m : Memory) (v : Value) (path : List Cell) : Ordinary (m.peekNested v path) := by
  induction path generalizing v with
  | nil => exact ordinary_ok v
  | cons cell rest ih =>
    rw [peekNested]
    have hpeek := m.ordinary_peek v cell
    split
    · exact ih _
    · rename_i f hf
      exact ordinary_error (hpeek f hf)

theorem ordinary_operate (m : Memory) (op : Operator) (v right : Value) :
    Ordinary (m.operate op v right).1 := by
  have happly := op.ordinary_apply v right
  unfold operate
  split
  · exact ordinary_ok ()
  · rename_i f hf
    exact ordinary_error (happly f hf)

end Memory

namespace World

theorem ordinary_builtin (w : World) (i : Instance) (id : VariableId) : Ordinary (w.builtin i id) := by
  unfold builtin
  split
  · exact ordinary_ok _
  · exact ordinary_error rfl
  · exact ordinary_error rfl

theorem ordinary_builtinCell (w : World) (m : Memory) (i : Instance) (id : VariableId) (cell : Cell) :
    Ordinary (w.builtinCell m i id cell) := by
  unfold builtinCell
  split
  · exact ordinary_error rfl
  · exact (w.ordinary_builtin i id).bind fun v => m.ordinary_peek v cell

theorem ordinary_setBuiltin (w : World) (m : Memory) (i : Instance) (id : VariableId) (v : Value) :
    Ordinary (w.setBuiltin m i id v).1 := by
  unfold setBuiltin
  split_ifs
  · exact ordinary_ok ()
  · exact ordinary_error rfl

theorem ordinary_storeBuiltinCell (w : World) (m : Memory) (i : Instance) (id : VariableId) (cell : Cell)
    (v : Value) : Ordinary (w.storeBuiltinCell m i id cell v).1 := by
  unfold storeBuiltinCell
  split
  · exact ordinary_error rfl
  · exact ordinary_ok ()

end World

theorem Executor.ordinary_peek (e : Executor) {depth : Nat} (hword : depth + 1 < UInt64.size) :
    Ordinary (e.peek depth) := by
  by_cases hdepth : depth < e.stack.size
  · rw [peek_of_lt hword hdepth]
    exact ordinary_ok _
  · rw [peek_of_le hword (Nat.le_of_not_lt hdepth)]
    exact ordinary_error rfl

/-- The number of places down to a depth that one byte names is a word. -/
theorem Word.succ_byte_lt (depth : UInt8) : depth.toNat + 1 < UInt64.size :=
  lt_of_le_of_lt depth.toNat_lt (by decide)

end ScriptVm
