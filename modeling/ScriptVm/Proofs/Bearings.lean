import ScriptVm.Proofs.Pieces

/-! What an instruction leaves alone. Most of them work on operands, variables and flags only: where
execution stands, and where it goes on after the running call, stays as it is, also when they fail.
Nor do they fail in a way that says something is wrong with the code or with the machine. The
exceptions are few and have theorems of their own: `all` moves the base, branches move the program
counter, and an instruction that names a local has to add its number to the base. -/

namespace ScriptVm

namespace Exec
variable {α β : Type}

/-- The state at the end satisfies `q`, or `e` if there is a fault. -/
def Ends (q : Core → Prop) (e : Fault → Core → Prop) : EStateM.Result Fault Core α → Prop
  | .ok _ c => q c
  | .error f c => e f c

theorem Ends.mono {q q' : Core → Prop} {e e' : Fault → Core → Prop} {r : EStateM.Result Fault Core α}
    (h : Ends q e r) (hq : ∀ c, q c → q' c) (he : ∀ f c, e f c → e' f c) : Ends q' e' r := by
  cases r with
  | ok a c => exact hq c h
  | error f c => exact he f c h

theorem Ends.map {q : Core → Prop} {e : Fault → Core → Prop} {x : Exec α} {c : Core} (h : Ends q e (x c))
    (g : α → β) : Ends q e ((x >>= fun a => pure (g a) : Exec β) c) := by
  simp only [Bind.bind, EStateM.bind]
  cases hxc : x c with
  | ok a c' =>
    rw [hxc] at h
    exact h
  | error f c' =>
    rw [hxc] at h
    exact h

theorem Ends.give {q : Core → Prop} {e : Fault → Core → Prop} {x : Exec α} {c : Core} (h : Ends q e (x c))
    (b : β) : Ends q e ((x >>= fun _ => pure b : Exec β) c) := h.map fun _ => b

/-- One part after the other, which may rely on what the first one can give. -/
theorem Ends.bind_of {q r : Core → Prop} {e : Fault → Core → Prop} {x : Exec α} {f : α → Exec β} {c : Core}
    (hx : Ends r e (x c)) (hf : ∀ a c', Yields x a → r c' → Ends q e (f a c')) : Ends q e ((x >>= f) c) := by
  simp only [Bind.bind, EStateM.bind]
  cases hxc : x c with
  | ok a c' =>
    rw [hxc] at hx
    exact hf a c' ⟨c, c', hxc⟩ hx
  | error g c' =>
    rw [hxc] at hx
    exact hx

theorem Ends.bind {q r : Core → Prop} {e : Fault → Core → Prop} {x : Exec α} {f : α → Exec β} {c : Core}
    (hx : Ends r e (x c)) (hf : ∀ a c', r c' → Ends q e (f a c')) : Ends q e ((x >>= f) c) :=
  hx.bind_of fun a c' _ => hf a c'

theorem Ends.orDrop {q : Core → Prop} {e : Fault → Core → Prop} {x : Exec α} {c : Core} (h : Ends q e (x c))
    {vs : List Value} (he : ∀ f c', e f c' → e f { c' with memory := c'.memory.release vs }) :
    Ends q e (orDrop vs x c) := by
  unfold Exec.orDrop
  cases hxc : x c with
  | ok a c' =>
    rw [hxc] at h
    exact h
  | error f c' =>
    rw [hxc] at h
    exact he f c' h

theorem Ends.thenDrop {q : Core → Prop} {e : Fault → Core → Prop} {x : Exec α} {c : Core} (h : Ends q e (x c))
    {vs : List Value} (hq : ∀ c', q c' → q { c' with memory := c'.memory.release vs })
    (he : ∀ f c', e f c' → e f { c' with memory := c'.memory.release vs }) : Ends q e (thenDrop vs x c) := by
  unfold Exec.thenDrop
  cases hxc : x c with
  | ok a c' =>
    rw [hxc] at h
    exact hq c' h
  | error f c' =>
    rw [hxc] at h
    exact he f c' h

/-- Keeps the bearings, and fails only with faults that may occur at them. -/
def Steady (p : Bearings → Fault → Prop) (x : Exec α) : Prop :=
  ∀ c, Ends (fun c' => c'.bearings = c.bearings) (fun f c' => c'.bearings = c.bearings ∧ p c.bearings f) (x c)

def ordinarily : Bearings → Fault → Prop := fun _ f => f.isOrdinary = true

/-- A crash may occur as well, if a local is named and the sum of its number and the base is no word. -/
def unlessOver (named : Option UInt32) : Bearings → Fault → Prop := fun b f =>
  f.isOrdinary = true ∨ f = .crash ∧ ∃ index, named = some index ∧ UInt64.size ≤ b.base + index.toNat

theorem unlessOver_of_localSlot {c : Core} {index : UInt32} {f : Fault}
    (h : c.executor.localSlot index = .error f) : unlessOver (some index) c.bearings f := by
  unfold Executor.localSlot at h
  by_cases hword : c.executor.base + index.toNat < UInt64.size
  · rw [Word.add_eq_ok_iff.2 ⟨hword, rfl⟩] at h
    change (if c.executor.base + index.toNat < c.executor.stack.size then _ else _) = _ at h
    split_ifs at h
    cases h
    exact Or.inl rfl
  · rw [Word.add, if_neg hword] at h
    cases h
    exact Or.inr ⟨rfl, index, rfl, Nat.le_of_not_lt hword⟩

section
variable {p q : Bearings → Fault → Prop} {x : Exec α} {f : α → Exec β}

theorem Steady.mono (hx : Steady p x) (hpq : ∀ b f, p b f → q b f) : Steady q x :=
  fun c => (hx c).mono (fun _ h => h) fun _ _ h => ⟨h.1, hpq _ _ h.2⟩

theorem Steady.over (hx : Steady ordinarily x) (named : Option UInt32) : Steady (unlessOver named) x :=
  hx.mono fun _ _ => Or.inl

theorem Steady.bind_of (hx : Steady p x) (hf : ∀ a, Yields x a → Steady p (f a)) : Steady p (x >>= f) := by
  refine fun c => (hx c).bind_of fun a c₁ ha hkept => ?_
  have hsecond := hf a ha c₁
  rwa [hkept] at hsecond

theorem Steady.bind (hx : Steady p x) (hf : ∀ a, Steady p (f a)) : Steady p (x >>= f) :=
  hx.bind_of fun a _ => hf a

theorem steady_pure (a : α) : Steady p (pure a : Exec α) := fun _ => rfl

theorem steady_get : Steady p (get : Exec Core) := fun _ => rfl

theorem steady_modify {g : Core → Core} (hg : ∀ c, (g c).bearings = c.bearings) :
    Steady p (modify g : Exec Unit) := hg

theorem steady_modifyGet {g : Core → α × Core} (hg : ∀ c, (g c).2.bearings = c.bearings) :
    Steady p (modifyGet g : Exec α) := hg

theorem Steady.orDrop (hx : Steady p x) (vs : List Value) : Steady p (orDrop vs x) :=
  fun c => (hx c).orDrop fun _ _ h => h

theorem Steady.thenDrop (hx : Steady p x) (vs : List Value) : Steady p (thenDrop vs x) :=
  fun c => (hx c).thenDrop (fun _ h => h) fun _ _ h => h

theorem Steady.forM {l : List α} {g : α → Exec PUnit} (hg : ∀ a, Steady p (g a)) : Steady p (l.forM g) := by
  induction l with
  | nil => exact steady_pure _
  | cons a l ih => exact (hg a).bind fun _ => ih

end

theorem steady_throw {f : Fault} (hf : f.isOrdinary = true) : Steady ordinarily (throw f : Exec α) :=
  fun _ => ⟨rfl, hf⟩

theorem steady_ofExcept {r : Except Fault α} (hr : Ordinary r) : Steady ordinarily (ofExcept r : Exec α) := by
  cases r with
  | ok a => exact steady_pure a
  | error f => exact steady_throw (hr f rfl)

theorem steady_inspect {p : Bearings → Fault → Prop} {r : Core → Except Fault α}
    (hr : ∀ c f, r c = .error f → p c.bearings f) : Steady p (do ofExcept (r (← get))) := by
  intro c
  have hrun : (do ofExcept (r (← get)) : Exec α) c = (ofExcept (r c) : Exec α) c := rfl
  rw [hrun]
  cases hresult : r c with
  | ok a => exact rfl
  | error f => exact ⟨rfl, hr c f hresult⟩

theorem steady_push {p : Bearings → Fault → Prop} (v : Value) : Steady p (push v) := fun _ => rfl

theorem steady_pushShared {p : Bearings → Fault → Prop} (v : Value) : Steady p (pushShared v) := fun _ => rfl

theorem steady_pop : Steady ordinarily pop := by
  intro c
  unfold pop onExecutor Executor.pop
  cases c.executor.stack.back? with
  | some v => exact rfl
  | none => exact ⟨rfl, rfl⟩

theorem steady_topSlot : Steady ordinarily topSlot := by
  refine steady_get.bind fun c => ?_
  dsimp only
  split_ifs
  · exact (steady_throw rfl).bind fun _ => steady_pure _
  · exact steady_pure _

/-- The place of a local is the one thing that can bring the machine down. -/
theorem steady_localSlot (index : UInt32) : Steady (unlessOver (some index)) (localSlot index) :=
  steady_inspect fun _ _ => unlessOver_of_localSlot

theorem steady_localValue (index : UInt32) : Steady (unlessOver (some index)) (localValue index) := by
  refine steady_inspect fun c f h => ?_
  cases hslot : c.executor.localSlot index with
  | ok slot =>
    rw [Executor.localValue, hslot] at h
    cases h
  | error g =>
    rw [Executor.localValue, hslot] at h
    cases h
    exact unlessOver_of_localSlot hslot

theorem steady_duplicate (count : Nat) : Steady ordinarily (duplicate count) := by
  intro c
  rw [duplicate_eq]
  split_ifs
  · exact ⟨rfl, rfl⟩
  · exact Steady.forM (fun v => steady_pushShared v) c

theorem steady_duplicateAt (depth : UInt8) : Steady ordinarily (duplicateAt depth.toNat) :=
  steady_get.bind fun c => (steady_ofExcept (c.executor.ordinary_peek (Word.succ_byte_lt depth))).bind fun v =>
    steady_pushShared v

theorem steady_deleteAt (depth : UInt8) : Steady ordinarily (deleteAt depth.toNat) := by
  intro c
  rw [deleteAt_eq]
  have hpeek := c.executor.ordinary_peek (Word.succ_byte_lt depth)
  cases hresult : c.executor.peek depth.toNat with
  | ok v => exact rfl
  | error f => exact ⟨rfl, hpeek f hresult⟩

theorem steady_swap : Steady ordinarily swap := by
  intro c
  rw [swap_eq]
  split_ifs
  · exact ⟨rfl, rfl⟩
  · exact rfl

/-! ### Pieces of instructions -/

theorem Takes.steady {n : Nat} {x : Exec α} (hx : Takes n x) : Steady ordinarily x := by
  induction hx with
  | pure a => exact steady_pure a
  | throw hf => exact steady_throw hf
  | inspect _ _ ih => exact steady_get.bind ih
  | change hg => exact steady_modifyGet hg.bearings
  | pop => exact steady_pop
  | bind _ _ ihx ihf => exact ihx.bind_of ihf
  | orDrop _ vs ih => exact ih.orDrop vs
  | thenDrop _ vs ih => exact ih.thenDrop vs

theorem Writes.steady {slot : Nat} {x : Exec α} (hx : Writes slot x) : Steady ordinarily x := by
  induction hx with
  | update g => exact fun _ => rfl
  | inspect _ _ ih => exact steady_get.bind ih
  | bind _ hf ih => exact ih.bind_of fun a ha => (hf a ha).steady

theorem Locates.steady {index : UInt32} {x : Exec Nat} (hx : Locates index x) :
    Steady (unlessOver (some index)) x := by
  cases hx with
  | bare => exact steady_localSlot index
  | held vs => exact (steady_localSlot index).orDrop vs

theorem Treads.steady {named : Option UInt32} {p : Footprint} {x : Exec α} (hx : Treads named p x) :
    Steady (unlessOver named) x := by
  induction hx with
  | takes hx => exact hx.steady.over named
  | after hx _ ih => exact (hx.steady.over named).bind ih
  | inspect _ _ ih => exact steady_get.bind ih
  | thenDrop _ vs ih => exact ih.thenDrop vs
  | push v => exact steady_push v
  | top hf => exact (steady_topSlot.bind fun slot => (hf slot).steady).over named
  | store hnamed hx hf =>
    subst hnamed
    exact hx.steady.bind fun slot => (hf slot).steady.over _
  | load hnamed _ _ ih =>
    subst hnamed
    exact (steady_localValue _).bind ih
  | duplicate count => exact (steady_duplicate count).over named
  | duplicateAt depth => exact (steady_duplicateAt depth).over named
  | deleteAt depth => exact (steady_deleteAt depth).over named
  | swap => exact steady_swap.over named
  | openIteration owner => exact fun _ => rfl

theorem steady_advanceIteration : Steady ordinarily advanceIteration := by
  refine steady_get.bind fun c => ?_
  refine (steady_ofExcept (c.executor.ordinary_peek (by decide))).bind fun top =>
    (steady_ofExcept top.ordinary_exact_size).bind fun index => steady_get.bind fun c => ?_
  split
  · exact steady_throw rfl
  · split
    · exact steady_modify fun _ => rfl
    · exact takes_closeIteration.steady.bind fun _ => (takes_setCondition true).steady

theorem steady_popMany (count : Nat) : Steady ordinarily (popMany count) := by
  intro c
  rw [popMany_eq]
  split_ifs
  · exact ⟨rfl, rfl⟩
  · exact rfl

theorem steady_nativeArguments (signature? : Option Signature) (index : UInt32) (arity : Int8) :
    Steady ordinarily (nativeArguments signature? index arity) := by
  unfold nativeArguments
  cases signature? with
  | none => exact steady_throw rfl
  | some s =>
    have hcount : ∀ n : Nat, Steady ordinarily (pure n >>= popMany) :=
      fun n => (steady_pure n).bind steady_popMany
    dsimp only
    split_ifs
    · exact (steady_throw rfl).bind fun _ => takes_popSize.steady.bind fun n => hcount _
    · exact (steady_throw rfl).bind fun _ => hcount _
    · exact (steady_throw rfl).bind fun _ => hcount _
    · exact takes_popSize.steady.bind fun n => hcount _
    · exact hcount _
    · exact hcount _

end Exec

open Exec

theorem Form.steady_effect {f : Form} (hplain : f.isPlain = true ∨ f = .advanceIteration) :
    Steady (unlessOver f.local?) f.effect := by
  rcases hplain with hplain | rfl
  · exact (treads_effect hplain false).steady
  · exact steady_advanceIteration.over none

/-- An instruction that neither opens locals nor branches keeps its bearings. It brings the machine down only if it
names a local whose place is no word. -/
theorem Instruction.steady_effect {i : Instruction} (hall : i.op ≠ .all) (hbranch : i.op.isBranch = false) :
    Steady (unlessOver i.local?) i.effect := by
  rw [i.effect_form, i.local?_form]
  refine Form.steady_effect ?_
  obtain ⟨op, operands⟩ := i
  cases op with
  | all => exact absurd rfl hall
  | jmp | bcond => cases hbranch
  | wty => exact Or.inr rfl
  | _ => exact Or.inl rfl

end ScriptVm
