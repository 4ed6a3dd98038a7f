import ScriptVm.Proofs.Slots
import ScriptVm.Machine.Instruction

/-! Pieces of execution and what they do with values. A piece takes some values in hand over and gives
others; if it fails, the values that it took are gone. Whatever else is in hand stays there: the rule
for sequences needs no more. -/

namespace ScriptVm

/-- The operand stack and some values in hand are free, the variables are slots. -/
structure Core.Sound (strict : Prop) (c : Core) (hand kept : List Value) : Prop where
  custody : c.memory.Custody strict (c.executor.stack.toList ++ hand) c.world.slots kept
  world : c.world.Plain

/-- The value may be given a further holder: its data is there, and all that it reaches is tracked. -/
def Core.Offers (c : Core) (v : Value) : Prop := c.memory.heap.Holds [v] ∧ c.memory.heap.Managed [v]

/-- The value is offered, as far as the custody asks for that. -/
def Core.OffersIf (strict : Prop) (c : Core) (v : Value) : Prop :=
  c.memory.heap.Holds [v] ∧ (strict → c.memory.heap.Managed [v])

theorem Core.Offers.offersIf {strict : Prop} {c : Core} {v : Value} (h : c.Offers v) : c.OffersIf strict v :=
  ⟨h.1, fun _ => h.2⟩

namespace Core.Sound
variable {strict : Prop} {c c' : Core} {hand kept : List Value}

theorem same (hc : c.Sound strict hand kept)
    (hmemory : c'.memory = c.memory) (hstack : c'.executor.stack = c.executor.stack)
    (hworld : c'.world = c.world) : c'.Sound strict hand kept := by
  obtain ⟨hcustody, hplain⟩ := hc
  refine ⟨?_, by rwa [hworld]⟩
  rwa [hmemory, hstack, hworld]

theorem release (vs : List Value) (hc : c.Sound strict (vs ++ hand) kept) :
    ({ c with memory := c.memory.release vs } : Core).Sound strict hand kept := by
  refine ⟨Memory.Custody.release vs (hc.custody.perm_free ?_), hc.world⟩
  exact List.perm_append_comm_assoc _ _ _

theorem offers (hc : c.Sound strict hand kept)
    {v : Value} (hv : v ∈ c.executor.stack.toList ++ hand ∨ v ∈ c.world.slots) : c.OffersIf strict v := by
  have hmem : v ∈ c.executor.stack.toList ++ hand ++ c.world.slots := List.mem_append.2 hv
  have hs : c.memory.heap.Supports (c.executor.stack.toList ++ hand ++ c.world.slots) :=
    hc.custody.supports.of_le (by simp)
  refine ⟨hs.holds.one hmem, fun hstrict => (hc.custody.managed hstrict).mono fun w hw => ?_⟩
  rw [List.mem_singleton.1 hw]
  exact hmem

end Core.Sound

namespace Exec
variable {strict : Prop} {α β : Type}

def Triple (P : Core → Prop) (x : Exec α) (Q : α → Core → Prop) (E : Core → Prop) : Prop :=
  ∀ c, P c → match x c with
    | .ok a c' => Q a c'
    | .error _ c' => E c'

/-- Takes values in hand over and gives others. -/
def Moves (ins : List Value) (x : Exec α) (outs : α → List Value) : Prop :=
  ∀ strict hand kept, Triple (·.Sound strict (ins ++ hand) kept) x (fun a c => c.Sound strict (outs a ++ hand) kept)
    (·.Sound strict hand kept)

/-- Does nothing with values in hand. -/
def Safe (x : Exec α) : Prop := Moves [] x fun _ => []

/-- Needs a value that is offered. -/
def Uses (v : Value) (x : Exec α) (outs : α → List Value) : Prop :=
  ∀ strict hand kept, Triple (fun c => c.Sound strict hand kept ∧ c.OffersIf strict v) x
    (fun a c => c.Sound strict (outs a ++ hand) kept) (·.Sound strict hand kept)

/-- Finds a value that is offered. -/
def Lends (x : Exec Value) : Prop :=
  ∀ strict hand kept, Triple (·.Sound strict hand kept) x
    (fun v c => c.Sound strict hand kept ∧ c.OffersIf strict v) (·.Sound strict hand kept)

section
variable {P : Core → Prop} {E : Core → Prop} {x : Exec α} {f : α → Exec β}

theorem Triple.mono {P' E' : Core → Prop} {Q Q' : α → Core → Prop} (hx : Triple P x Q E)
    (hp : ∀ c, P' c → P c) (hq : ∀ a c, Q a c → Q' a c) (he : ∀ c, E c → E' c) : Triple P' x Q' E' := by
  intro c hc
  have hrun := hx c (hp c hc)
  cases hxc : x c with
  | ok a c' =>
    rw [hxc] at hrun
    exact hq a c' hrun
  | error f c' =>
    rw [hxc] at hrun
    exact he c' hrun

theorem Triple.bind {R : α → Core → Prop} {Q : β → Core → Prop} (hx : Triple P x R E)
    (hf : ∀ a, Triple (R a) (f a) Q E) : Triple P (x >>= f) Q E := by
  intro c hc
  have hfirst := hx c hc
  change match EStateM.bind x f c with
    | .ok b c' => Q b c'
    | .error _ c' => E c'
  unfold EStateM.bind
  cases hrun : x c with
  | ok a c' =>
    rw [hrun] at hfirst
    exact hf a c' hfirst
  | error e c' =>
    rw [hrun] at hfirst
    exact hfirst

theorem Moves.bind {ins : List Value} {mid : α → List Value} {outs : β → List Value} (hx : Moves ins x mid)
    (hf : ∀ a, Moves (mid a) (f a) outs) : Moves ins (x >>= f) outs :=
  fun strict hand kept => (hx strict hand kept).bind fun a => hf a strict hand kept

theorem Lends.bind {x : Exec Value} {f : Value → Exec β} {outs : β → List Value} (hx : Lends x)
    (hf : ∀ v, Uses v (f v) outs) : Moves [] (x >>= f) outs :=
  fun strict hand kept => (hx strict hand kept).bind fun v => hf v strict hand kept

theorem Uses.bind {v : Value} {mid : α → List Value} {outs : β → List Value} (hx : Uses v x mid)
    (hf : ∀ a, Moves (mid a) (f a) outs) : Uses v (x >>= f) outs :=
  fun strict hand kept => (hx strict hand kept).bind fun a => hf a strict hand kept

end

theorem run_get (f : Core → Exec α) (c : Core) : (get >>= f) c = f c c := rfl

/-! ### Steps that leave values alone -/

theorem safe_pure (a : α) : Safe (pure a : Exec α) := fun _ _ _ _ hc => hc

theorem safe_throw (f : Fault) : Safe (throw f : Exec α) := fun _ _ _ _ hc => hc

theorem moves_throw (f : Fault) (outs : α → List Value) : Moves [] (throw f : Exec α) outs :=
  fun _ _ _ _ hc => hc

theorem moves_get (ins : List Value) : Moves ins (get : Exec Core) fun _ => ins := fun _ _ _ _ hc => hc

theorem safe_get : Safe (get : Exec Core) := moves_get []

theorem safe_ofExcept (e : Except Fault α) : Safe (ofExcept e : Exec α) := by
  cases e with
  | ok a => exact safe_pure a
  | error f => exact safe_throw f

theorem safe_modify {f : Core → Core} (hf : ∀ c, (f c).memory = c.memory ∧
    (f c).executor.stack = c.executor.stack ∧ (f c).world = c.world) : Safe (modify f : Exec Unit) :=
  fun _ _ _ c hc => hc.same (hf c).1 (hf c).2.1 (hf c).2.2

theorem safe_onExecutor {x : EStateM Fault Executor α}
    (hx : ∀ e, match x e with
      | .ok _ e' => e'.stack = e.stack
      | .error _ e' => e'.stack = e.stack) : Safe (onExecutor x) := by
  intro strict hand kept c hc
  have hstack := hx c.executor
  unfold onExecutor
  cases hrun : x c.executor with
  | ok a e =>
    rw [hrun] at hstack
    exact hc.same rfl hstack rfl
  | error f e =>
    rw [hrun] at hstack
    exact hc.same rfl hstack rfl

/-! ### Stack and hand -/

theorem moves_push (v : Value) : Moves [v] (push v) fun _ => [] := by
  intro strict hand kept c hc
  refine ⟨hc.custody.perm_free ?_, hc.world⟩
  simp [Executor.push]

theorem toList_eq_pop {stack : Array Value} {v : Value} (hv : stack.back? = some v) :
    stack.toList = stack.pop.toList ++ [v] := by
  rw [← Array.getLast?_toList] at hv
  rw [Array.toList_pop, List.dropLast_append_getLast? v hv]

theorem moves_pop : Moves [] pop fun v => [v] := by
  intro strict hand kept c hc
  unfold pop onExecutor Executor.pop
  cases hv : c.executor.stack.back? with
  | none => exact hc
  | some v =>
    refine ⟨?_, hc.world⟩
    have hcustody := hc.custody
    rw [toList_eq_pop hv] at hcustody
    simpa using hcustody

theorem moves_drop (vs : List Value) : Moves vs (drop vs) fun _ => [] := by
  intro strict hand kept c hc
  exact hc.release vs

theorem Triple.orDrop {P E E' : Core → Prop} {Q : α → Core → Prop} {vs : List Value} {x : Exec α}
    (hx : Triple P x Q E) (hdrop : ∀ c, E c → E' { c with memory := c.memory.release vs }) :
    Triple P (orDrop vs x) Q E' := by
  intro c hc
  have hrun := hx c hc
  unfold Exec.orDrop
  cases hxc : x c with
  | ok a c' =>
    rw [hxc] at hrun
    exact hrun
  | error f c' =>
    rw [hxc] at hrun
    exact hdrop c' hrun

theorem Moves.orDrop {ins vs : List Value} {x : Exec α} {outs : α → List Value} (hx : Moves ins x outs) :
    Moves (ins ++ vs) (orDrop vs x) fun a => outs a ++ vs := by
  intro strict hand kept
  simp only [List.append_assoc]
  exact (hx strict (vs ++ hand) kept).orDrop fun c hc => hc.release vs

theorem Triple.thenDrop {P R R' : Core → Prop} {vs : List Value} {x : Exec α} (hx : Triple P x (fun _ => R) R)
    (hdrop : ∀ c, R c → R' { c with memory := c.memory.release vs }) :
    Triple P (thenDrop vs x) (fun _ => R') R' := by
  intro c hc
  have hrun := hx c hc
  unfold Exec.thenDrop
  cases hxc : x c with
  | ok a c' =>
    rw [hxc] at hrun
    exact hdrop c' hrun
  | error f c' =>
    rw [hxc] at hrun
    exact hdrop c' hrun

/-! ### Values that are offered -/

theorem uses_share (v : Value) : Uses v (share v) fun v' => [v'] := by
  rintro strict hand kept c ⟨hc, hheld, hmanaged⟩
  refine ⟨(hc.custody.share hheld hmanaged).perm_free ?_, hc.world⟩
  exact List.perm_middle.symm

theorem uses_pushShared (v : Value) : Uses v (pushShared v) fun _ => [] :=
  (uses_share v).bind fun v' => moves_push v'

/-! ### Taking numbers off the stack -/

theorem safe_popCoerced (t : CastTarget) : Safe (popCoerced t) :=
  moves_pop.bind fun v => (moves_drop [v]).bind fun _ => safe_ofExcept _

theorem safe_popExact (t : CastTarget) : Safe (popExact t) :=
  moves_pop.bind fun v => (moves_drop [v]).bind fun _ => safe_ofExcept _

theorem safe_popCell : Safe popCell := by
  refine (safe_popCoerced .int).bind fun col => (safe_popCoerced .int).bind fun row => ?_
  split_ifs
  · exact safe_pure _
  · exact safe_throw _

theorem safe_popPath (n : Nat) : Safe (popPath n) := by
  induction n with
  | zero => exact safe_pure _
  | succ n ih => exact safe_popCell.bind fun cell => Moves.bind ih fun rest => safe_pure _

theorem safe_popOwner : Safe popOwner :=
  (safe_popCoerced .int64).bind fun _ => safe_get.bind fun _ => safe_pure _

theorem safe_leaveScope : Safe leaveScope := by
  refine moves_pop.bind fun saved => (moves_drop [saved]).bind fun _ => safe_onExecutor fun e => ?_
  unfold Executor.leaveScope
  dsimp only
  cases Executor.restore saved <;> rfl

theorem safe_setCondition (b : Bool) : Safe (setCondition b) := safe_modify fun _ => ⟨rfl, rfl, rfl⟩

/-! ### Slots of the stack -/

def Finds (x : Exec Nat) : Prop :=
  ∀ strict hand kept, Triple (·.Sound strict hand kept) x
    (fun slot c => c.Sound strict hand kept ∧ slot < c.executor.stack.size) (·.Sound strict hand kept)

theorem finds_localSlot (index : UInt32) : Finds (localSlot index) := by
  intro strict hand kept c hc
  unfold localSlot
  rw [run_get]
  cases hslot : c.executor.localSlot index with
  | ok slot => exact ⟨hc, (Executor.localSlot_eq_ok hslot).2⟩
  | error f => exact hc

theorem finds_topSlot : Finds topSlot := by
  intro strict hand kept c hc
  unfold topSlot
  rw [run_get]
  dsimp only
  split_ifs with hsize
  · exact hc
  · exact ⟨hc, Nat.sub_lt (Nat.pos_of_ne_zero hsize) Nat.one_pos⟩

theorem lends_localValue (index : UInt32) : Lends (localValue index) := by
  intro strict hand kept c hc
  unfold localValue Executor.localValue
  rw [run_get]
  cases hrun : c.executor.localSlot index with
  | ok slot =>
    have hslot := (Executor.localSlot_eq_ok hrun).2
    refine ⟨hc, hc.offers (Or.inl (List.mem_append_left _ ?_))⟩
    rw [Array.getElem?_eq_getElem hslot]
    exact Array.mem_toList_iff.2 (Array.getElem_mem hslot)
  | error f => exact hc

theorem perm_setSlot (stack : Array Value) {slot : Nat} (hslot : slot < stack.size) :
    ∃ rest, stack.toList.Perm ((stack[slot]?).getD .undefined :: rest) ∧
      ∀ v, (stack.setIfInBounds slot v).toList.Perm (v :: rest) := by
  have hlen : slot < stack.toList.length := by simpa using hslot
  refine ⟨stack.toList.eraseIdx slot, ?_, fun v => ?_⟩
  · rw [Array.getElem?_eq_getElem hslot, Option.getD_some]
    exact (List.getElem_cons_eraseIdx_perm hlen).symm
  · rw [Array.toList_setIfInBounds]
    exact List.set_perm_cons_eraseIdx hlen v

/-- An operation on memory that takes a value of the stack over, and further ones, and gives another
in its place. -/
theorem moves_updateSlot (ins : List Value) {hand kept : List Value} {slot : Nat}
    {f : Memory → Value → α × Value × Memory} {P : Core → Prop}
    (hf : ∀ c old free, P c → c.memory.Custody strict (old :: (ins ++ free)) c.world.slots kept →
      (f c.memory old).2.2.Custody strict ((f c.memory old).2.1 :: free) c.world.slots kept) (E : Core → Prop) :
    Triple (fun c => P c ∧ c.Sound strict (ins ++ hand) kept ∧ slot < c.executor.stack.size) (updateSlot slot f)
      (fun _ c => c.Sound strict hand kept) E := by
  rintro c ⟨hP, hc, hslot⟩
  obtain ⟨rest, hold, hnew⟩ := perm_setSlot c.executor.stack hslot
  have hcustody : c.memory.Custody strict ((c.executor.stack[slot]?).getD .undefined :: (ins ++ (rest ++ hand)))
      c.world.slots kept := by
    refine hc.custody.perm_free ((hold.append_right _).trans ?_)
    rw [List.cons_append]
    exact List.Perm.cons _ (List.perm_append_comm_assoc _ _ _)
  refine ⟨(hf c _ _ hP hcustody).perm_free ?_, hc.world⟩
  exact ((hnew _).symm.append_right hand)

theorem offers_null (c : Core) {v : Value} (hv : v.target? = none) : c.OffersIf strict v := by
  refine ⟨fun w hw a ha => ?_, fun _ => c.memory.heap.managed_null hv⟩
  rw [List.mem_singleton.1 hw, hv] at ha
  cases ha

theorem triple_operateSlot (op : Operator) (slot : Nat) (right : Value) (hand kept : List Value) :
    Triple (fun c => c.OffersIf strict right ∧ c.Sound strict hand kept ∧ slot < c.executor.stack.size)
      (operateSlot op slot right) (fun _ c => c.Sound strict hand kept) (·.Sound strict hand kept) := by
  have hupdate : Triple (fun c => c.OffersIf strict right ∧ c.Sound strict hand kept ∧ slot < c.executor.stack.size)
      (updateSlot slot fun m v => m.operate op v right) (fun _ c => c.Sound strict hand kept)
      (·.Sound strict hand kept) := by
    refine moves_updateSlot [] (fun c old free hoffers hcustody => ?_) _
    exact hcustody.operate hoffers.1 hoffers.2 op
  exact hupdate.bind fun result => safe_ofExcept result strict hand kept

theorem Finds.operate {x : Exec Nat} (hx : Finds x) (op : Operator) {right : Value}
    (hright : right.target? = none) : Safe (x >>= fun slot => operateSlot op slot right) := by
  intro strict hand kept
  refine Triple.bind (hx strict hand kept) fun slot c hc => ?_
  exact triple_operateSlot op slot right hand kept c ⟨offers_null c hright, hc.1, hc.2⟩

theorem safe_enterHome (c : Core) (index : UInt32) : Safe (match c.sections.get index with
    | .error e => throw (.code e)
    | .ok home => modify fun c => { c with
        executor := { c.executor with callers := c.executor.callers.push c.executor.pc, pc := { home := home } } } :
      Exec Unit) := by
  cases c.sections.get index with
  | error e => exact safe_throw _
  | ok home => exact safe_modify fun _ => ⟨rfl, rfl, rfl⟩

theorem safe_enterSection (index : UInt32) : Safe (enterSection index) := by
  refine safe_get.bind fun c => ?_
  dsimp only
  split_ifs
  · exact (moves_throw _ _).bind fun _ => safe_enterHome c index
  · exact safe_enterHome c index

theorem Triple.forM {I E : Core → Prop} {l : List α} {f : α → Exec PUnit}
    (hf : ∀ a ∈ l, Triple I (f a) (fun _ => I) E) : Triple I (l.forM f) (fun _ => I) E := by
  induction l with
  | nil => exact fun _ hc => hc
  | cons a l ih =>
    refine Triple.bind (hf a List.mem_cons_self) fun _ => ?_
    exact ih fun b hb => hf b (List.mem_cons_of_mem _ hb)

end Exec
end ScriptVm
