import ScriptVm.Proofs.EdgeIntegrity
import ScriptVm.Proofs.Managed
import ScriptVm.Heap.Slot

/-! Who holds the arrays outside the heap: free values, as on an operand stack; slots, whose arrays are
roots; and values that a host keeps to itself. Nothing but slots makes roots. Strict custody asks besides
that edges cover the cells, and that free values and slots lead to tracked data only. -/

namespace ScriptVm

theorem Value.share_of_plain {v : Value} (hv : v.isRooted = false) : v.share = v := by
  cases v with
  | array h =>
    obtain ⟨target, rooted⟩ := h
    obtain rfl : rooted = false := hv
    rfl
  | _ => rfl

theorem Value.isRooted_of_not_array {v : Value} (hv : v.isArray = false) : v.isRooted = false := by
  cases v <;> first | rfl | cases hv

theorem Operator.apply_ok {op : Operator} {a b result : Value} (h : op.apply a b = .ok result) :
    result.target? = none ∧ result.isRooted = false ∨ result = b.share := by
  unfold Operator.apply at h
  split at h
  · obtain rfl := Except.ok.inj h
    exact Or.inl ⟨rfl, rfl⟩
  · exact Or.inr (Except.ok.inj h).symm
  · split at h
    · left
      cases hnum : op.onNumbers _ _ with
      | error e =>
        rw [hnum] at h
        cases h
      | ok n =>
        rw [hnum] at h
        obtain rfl := Except.ok.inj h
        cases n <;> exact ⟨rfl, rfl⟩
    · cases h

namespace Memory

/-! ### Roots and the heap -/

theorem makeRoot_eq {m : Memory} (hc : m.collector.isSome = true) (v : Value) :
    (m.makeRoot v).2.heap = m.heap ∧ (m.makeRoot v).1.target? = v.target? ∧
      (v.target? ≠ none → (m.makeRoot v).1.isRooted = true) := by
  obtain ⟨c, hc⟩ := Option.isSome_iff_exists.1 hc
  unfold makeRoot
  rw [hc]
  cases v with
  | array h =>
    simp only [rootHandle]
    split_ifs with hroot
    · exact ⟨rfl, rfl, fun _ => hroot⟩
    · split <;> exact ⟨rfl, rfl, fun _ => rfl⟩
  | _ => exact ⟨rfl, rfl, fun hnone => absurd rfl hnone⟩

theorem releaseRoot_eq {m : Memory} (hc : m.collector.isSome = true) (v : Value) :
    (m.releaseRoot v).2.heap = m.heap ∧ (m.releaseRoot v).1.target? = v.target? ∧
      (m.releaseRoot v).1.isRooted = false := by
  obtain ⟨c, hc⟩ := Option.isSome_iff_exists.1 hc
  unfold releaseRoot
  rw [hc]
  cases v with
  | array h =>
    simp only [unrootHandle]
    split_ifs with hroot
    · split <;> exact ⟨rfl, rfl, rfl⟩
    · exact ⟨rfl, rfl, by simpa [Value.isRooted] using hroot⟩
  | _ => exact ⟨rfl, rfl, rfl⟩

theorem releaseRoot_value {m : Memory} (hc : m.collector.isSome = true) (v : Value) :
    (m.releaseRoot v).1 = v.share := by
  obtain ⟨c, hc⟩ := Option.isSome_iff_exists.1 hc
  unfold releaseRoot
  rw [hc]
  cases v with
  | array h =>
    simp only [unrootHandle]
    split_ifs with hroot
    · split <;> rfl
    · exact (Value.share_of_plain (v := .array h) (by simpa [Value.isRooted] using hroot)).symm
  | _ => rfl

structure Custody (strict : Prop) (m : Memory) (free slots kept : List Value) : Prop where
  mirrors : ∃ c, Mirrors strict False True m c ((free ++ slots ++ kept).map (Prod.mk none))
  managed : strict → m.heap.Managed (free ++ slots)
  plain : ∀ v ∈ free ++ kept, v.isRooted = false
  rooted : ∀ v ∈ slots, v.target? ≠ none → v.isRooted = true

namespace Custody
variable {strict : Prop} {m : Memory} {free free' slots slots' kept kept' : List Value} {v : Value}

theorem supports (h : Custody strict m free slots kept) : m.heap.Supports (free ++ slots ++ kept) := by
  obtain ⟨c, hm⟩ := h.mirrors
  simpa [Function.comp_def] using hm.supports

theorem collector (h : Custody strict m free slots kept) : m.collector.isSome = true := by
  obtain ⟨c, hm⟩ := h.mirrors
  rw [hm.collector]
  rfl

theorem hands (h : Custody strict m free slots kept) (vs : List Value) (hp : (free ++ slots ++ kept).Perm vs) :
    ∃ c, Mirrors strict False True m c (vs.map (Prod.mk none)) := by
  obtain ⟨c, hm⟩ := h.mirrors
  exact ⟨c, hm.perm (hp.map _)⟩

theorem of_hands {c : Collector Tracked} (vs : List Value)
    (hm : Mirrors strict False True m c (vs.map (Prod.mk none))) (hp : vs.Perm (free ++ slots ++ kept))
    (hmanaged : strict → m.heap.Managed (free ++ slots)) (hplain : ∀ v ∈ free ++ kept, v.isRooted = false)
    (hrooted : ∀ v ∈ slots, v.target? ≠ none → v.isRooted = true) : Custody strict m free slots kept :=
  ⟨⟨c, hm.perm (hp.map _)⟩, hmanaged, hplain, hrooted⟩

theorem perm (h : Custody strict m free slots kept) (hfree : free.Perm free') (hslots : slots.Perm slots')
    (hkept : kept.Perm kept') : Custody strict m free' slots' kept' := by
  obtain ⟨c, hm⟩ := h.mirrors
  refine of_hands _ hm ((hfree.append hslots).append hkept) ?_ ?_ ?_
  · exact fun hstrict => (h.managed hstrict).mono fun v hv => (hfree.append hslots).symm.subset hv
  · exact fun v hv => h.plain v ((hfree.append hkept).symm.subset hv)
  · exact fun v hv => h.rooted v (hslots.symm.subset hv)

theorem perm_free (h : Custody strict m free slots kept) (hfree : free.Perm free') :
    Custody strict m free' slots kept :=
  h.perm hfree (List.Perm.refl _) (List.Perm.refl _)

/-! ### Changing hands -/

theorem perm_kept (free slots kept : List Value) (v : Value) :
    (free ++ slots ++ v :: kept).Perm (v :: (free ++ slots ++ kept)) := List.perm_middle

theorem perm_slots (free slots kept : List Value) (v : Value) :
    (free ++ v :: slots ++ kept).Perm (v :: (free ++ slots ++ kept)) :=
  List.perm_middle.append_right kept

/-- Values change hands between a host and the others; what the others get has to be managed, if custody
is strict. -/
theorem exchange (h : Custody strict m free slots kept) (hp : (free ++ kept).Perm (free' ++ kept'))
    (hmanaged : strict → ∀ v ∈ free', v ∈ free ∨ m.heap.Managed [v]) : Custody strict m free' slots kept' := by
  have hslots : ∀ free kept : List Value, (free ++ slots ++ kept).Perm (slots ++ (free ++ kept)) := by
    intro free kept
    rw [← List.append_assoc]
    exact List.perm_append_comm.append_right kept
  obtain ⟨c, hm⟩ := h.mirrors
  refine of_hands _ hm ((hslots free kept).trans ((hp.append_left slots).trans (hslots free' kept').symm))
    (fun hstrict => ?_) (fun w hw => h.plain w (hp.symm.subset hw)) h.rooted
  refine Heap.managed_append.2 ⟨Heap.managed_iff.2 fun v hv => ?_, (h.managed hstrict).mono fun w hw =>
    List.mem_append_right _ hw⟩
  rcases hmanaged hstrict v hv with hold | hnew
  · refine (h.managed hstrict).mono fun w hw => ?_
    rw [List.mem_singleton.1 hw]
    exact List.mem_append_left _ hold
  · exact hnew

theorem takeAll {ws : List Value} (h : Custody strict m (ws ++ free) slots kept) :
    Custody strict m free slots (ws ++ kept) := by
  refine h.exchange ?_ fun _ v hv => Or.inl (List.mem_append_right _ hv)
  rw [← List.append_assoc]
  exact List.perm_append_comm.append_right kept

theorem take (h : Custody strict m (v :: free) slots kept) : Custody strict m free slots (v :: kept) := by
  have hone : Custody strict m ([v] ++ free) slots kept := h
  exact hone.takeAll

/-- A host gives a value away, which has to be managed. -/
theorem give (h : Custody strict m free slots (v :: kept)) (hv : strict → m.heap.Managed [v]) :
    Custody strict m (v :: free) slots kept := by
  refine h.exchange List.perm_middle fun hstrict w hw => ?_
  rcases List.mem_cons.1 hw with rfl | hw
  · exact Or.inr (hv hstrict)
  · exact Or.inl hw

theorem keep_null (h : Custody strict m free slots kept) (hv : v.target? = none) (hplain : v.isRooted = false) :
    Custody strict m free slots (v :: kept) := by
  obtain ⟨c, hm⟩ := h.mirrors
  refine of_hands (v :: (free ++ slots ++ kept)) (hm.add_null (none, v) hv (by simp))
    (perm_kept free slots kept v).symm h.managed ?_ h.rooted
  intro w hw
  rcases List.mem_cons.1 (List.perm_middle.subset hw) with rfl | hw
  · exact hplain
  · exact h.plain w hw

theorem add_null (h : Custody strict m free slots kept) (hv : v.target? = none) (hplain : v.isRooted = false) :
    Custody strict m (v :: free) slots kept := (h.keep_null hv hplain).give fun _ => Heap.managed_null _ hv

theorem forget (h : Custody strict m (v :: free) slots kept) (hv : v.target? = none) :
    Custody strict m free slots kept := by
  obtain ⟨c, hm⟩ := h.mirrors
  refine of_hands (free ++ slots ++ kept) (hm.drop_null hv) (List.Perm.refl _) ?_ ?_ h.rooted
  · exact fun hstrict => (h.managed hstrict).mono fun w hw => List.mem_cons_of_mem _ hw
  · exact fun w hw => h.plain w (List.mem_cons_of_mem _ hw)

theorem slot_null (hv : v.target? = none) :
    Custody strict m free (v :: slots) kept ↔ Custody strict m free slots kept := by
  constructor
  · intro h
    obtain ⟨c, hm⟩ := h.hands _ (perm_slots free slots kept v)
    refine of_hands (free ++ slots ++ kept) (hm.drop_null hv) (List.Perm.refl _) ?_ h.plain ?_
    · exact fun hstrict =>
        (h.managed hstrict).mono fun w hw => List.perm_middle.symm.subset (List.mem_cons_of_mem _ hw)
    · exact fun w hw => h.rooted w (List.mem_cons_of_mem _ hw)
  · intro h
    obtain ⟨c, hm⟩ := h.mirrors
    refine of_hands (v :: (free ++ slots ++ kept)) (hm.add_null (none, v) hv (by simp))
      (perm_slots free slots kept v).symm ?_ h.plain ?_
    · intro hstrict
      have hboth : m.heap.Managed ([v] ++ (free ++ slots)) :=
        Heap.managed_append.2 ⟨Heap.managed_null _ hv, h.managed hstrict⟩
      have hp : (free ++ v :: slots).Perm (v :: (free ++ slots)) := List.perm_middle
      exact hboth.mono fun w hw => hp.subset hw
    · intro w hw htarget
      rcases List.mem_cons.1 hw with rfl | hw
      · exact absurd hv htarget
      · exact h.rooted w hw htarget

/-! ### Holders -/

theorem managed_retain {vs : List Value} (hm : m.heap.Managed vs) (w : Value) :
    (m.heap.retain w).Managed vs := by
  obtain ⟨S, hr, hvs⟩ := hm.region
  exact (hr.retain w).managed hvs

theorem share_kept (h : Custody strict m free slots kept) (hv : m.heap.Holds [v]) :
    Custody strict (m.retain v) free slots (v.share :: kept) := by
  obtain ⟨c, hm⟩ := h.mirrors
  have hshare : v.share.isRooted = false := by cases v <;> rfl
  refine of_hands (v.share :: (free ++ slots ++ kept)) (hm.retain (hv v (List.mem_singleton_self v)))
    (perm_kept free slots kept v.share).symm (fun hstrict => managed_retain (h.managed hstrict) v) ?_ h.rooted
  intro w hw
  rcases List.mem_cons.1 (List.perm_middle.subset hw) with rfl | hw
  · exact hshare
  · exact h.plain w hw

theorem share (h : Custody strict m free slots kept) (hv : m.heap.Holds [v])
    (hmanaged : strict → m.heap.Managed [v]) :
    Custody strict (m.retain v) (v.share :: free) slots kept := by
  refine (h.share_kept hv).give fun hstrict => ?_
  obtain ⟨S, hr, hvs⟩ := (hmanaged hstrict).region
  refine (hr.retain v).managed fun w hw => ?_
  rw [List.mem_singleton.1 hw]
  exact (hvs v (List.mem_singleton_self v)).share

theorem release_kept {ws : List Value} (h : Custody strict m free slots (ws ++ kept)) :
    Custody strict (m.release ws) free slots kept := by
  have hp : (free ++ slots ++ (ws ++ kept)).Perm (ws ++ (free ++ slots ++ kept)) :=
    List.perm_append_comm_assoc _ _ _
  obtain ⟨c, hm⟩ := h.hands _ hp
  rw [List.map_append] at hm
  have hplain : ∀ w ∈ ws, w.isRooted = false := fun w hw =>
    h.plain w (List.mem_append_right _ (List.mem_append_left _ hw))
  refine of_hands (free ++ slots ++ kept) (hm.release fun _ => hplain) (List.Perm.refl _) ?_ ?_ h.rooted
  · intro hstrict
    obtain ⟨S, hr, hvs⟩ := (h.managed hstrict).region
    exact (hr.release ws).managed hvs
  · intro w hw
    refine h.plain w ?_
    rcases List.mem_append.1 hw with hw | hw
    · exact List.mem_append_left _ hw
    · exact List.mem_append_right _ (List.mem_append_right _ hw)

theorem release (ws : List Value) (h : Custody strict m (ws ++ free) slots kept) :
    Custody strict (m.release ws) free slots kept := h.takeAll.release_kept

theorem kept_nulls {vs : List Value} (hvs : ∀ v ∈ vs, v.target? = none ∧ v.isRooted = false) :
    Custody strict m free slots (vs ++ kept) ↔ Custody strict m free slots kept := by
  constructor
  · intro h
    have hreleased := h.release_kept
    have hnone : vs.filterMap Value.target? = [] := List.filterMap_eq_nil_iff.2 fun v hv => (hvs v hv).1
    rwa [Memory.release, Heap.release_nulls hnone] at hreleased
  · intro h
    induction vs with
    | nil => exact h
    | cons v vs ih =>
      obtain ⟨hnull, hplain⟩ := hvs v List.mem_cons_self
      exact (ih fun w hw => hvs w (List.mem_cons_of_mem _ hw)).keep_null hnull hplain

/-! ### Writing -/

theorem within_free (h : Custody strict m (v :: free) slots kept) (hstrict : strict) :
    ∃ S, m.heap.Region S ∧ v.Within S ∧ ∀ w ∈ free ++ slots, w.Within S := by
  obtain ⟨S, hr, hvs⟩ := (h.managed hstrict).region
  exact ⟨S, hr, hvs v List.mem_cons_self, fun w hw => hvs w (List.mem_cons_of_mem _ hw)⟩

theorem managed_cons {S : Address → Prop} {vs : List Value} {h : Heap} (hr : h.Region S) (hv : v.Within S)
    (hvs : ∀ w ∈ vs, w.Within S) : h.Managed (v :: vs) := by
  refine hr.managed fun w hw => ?_
  rcases List.mem_cons.1 hw with rfl | hw
  · exact hv
  · exact hvs w hw

theorem openForWrite (h : Custody strict m (v :: free) slots kept) {copy : Bool} {a : Address} {v' : Value}
    {m' : Memory} (hopen : m.openForWrite v copy none = (a, v', m')) :
    Custody strict m' (v' :: free) slots kept := by
  obtain ⟨c, hm⟩ := h.mirrors
  obtain ⟨c', hm'⟩ := Mirrors.openForWrite hm copy
  have ho := opened_openForWrite h.supports copy none
  have hflag := isRooted_openForWrite m v copy none
  rw [hopen] at hm' ho hflag
  dsimp only at hm' ho hflag
  refine of_hands (v' :: (free ++ slots ++ kept)) hm' (List.Perm.refl _) ?_ ?_ h.rooted
  · intro hstrict
    obtain ⟨S, hr, hv, hvs⟩ := h.within_free hstrict
    obtain ⟨hr', ha, -⟩ := Region.openForWrite hr h.collector h.supports hv hopen
    refine managed_cons hr' (fun x hx => ?_) hvs
    rw [Option.some.inj (hx.symm.trans ho.target)]
    exact ha
  · intro w hw
    rcases List.mem_cons.1 hw with rfl | hw
    · rw [hflag]
      exact h.plain v List.mem_cons_self
    · exact h.plain w (List.mem_cons_of_mem _ hw)

theorem storeNested {new : Value} (h : Custody strict m (v :: new :: free) slots kept) {path : List Cell}
    (hpath : path ≠ []) (copy : Bool) :
    Custody strict (m.storeNested v path new copy none).2 ((m.storeNested v path new copy none).1 :: free) slots
      kept := by
  obtain ⟨c, hm⟩ := h.mirrors
  have hnew : new.isRooted = false := h.plain new (by simp)
  have hlax : False → copy = true := False.elim
  obtain ⟨c', hm'⟩ := Mirrors.storeNested hm hpath hlax fun _ => hnew
  refine of_hands (_ :: (free ++ slots ++ kept)) hm' (List.Perm.refl _) ?_ ?_ h.rooted
  · intro hstrict
    obtain ⟨S, hr, hv, hvs⟩ := h.within_free hstrict
    obtain ⟨hr', hv', -⟩ := Region.storeNested hr h.collector h.supports hv (hvs new (by simp)) path copy none
    exact managed_cons hr' hv' fun w hw => hvs w (List.mem_cons_of_mem _ hw)
  · intro w hw
    rcases List.mem_cons.1 hw with rfl | hw
    · rw [isRooted_storeNested m v hpath]
      exact h.plain v List.mem_cons_self
    · exact h.plain w (List.mem_cons_of_mem _ (List.mem_cons_of_mem _ hw))

/-- An operator makes a number or a text of a free value, or a further holder of the other one. -/
theorem operate (h : Custody strict m (v :: free) slots kept) {right : Value} (hright : m.heap.Holds [right])
    (hmanaged : strict → m.heap.Managed [right]) (op : Operator) :
    Custody strict (m.operate op v right).2.2 ((m.operate op v right).2.1 :: free) slots kept := by
  unfold Memory.operate
  cases hresult : op.apply v right with
  | error e => exact h
  | ok result =>
    dsimp only
    have hadded : Custody strict (m.retain result) (v :: result :: free) slots kept := by
      rcases Operator.apply_ok hresult with ⟨hnone, hplain⟩ | rfl
      · have hsame : m.retain result = m := by simp [Memory.retain, Heap.retain, hnone]
        rw [hsame]
        exact (h.add_null hnone hplain).perm_free (List.Perm.swap _ _ _)
      · have hsame : m.retain right.share = m.retain right := by
          simp [Memory.retain, Heap.retain]
        rw [hsame]
        exact (h.share hright hmanaged).perm_free (List.Perm.swap _ _ _)
    exact hadded.release [v]

/-! ### Slots -/

theorem replaceSlot {old : Value} (h : Custody strict m (v :: free) (old :: slots) kept) :
    Custody strict (m.replaceSlot old none v).2 free ((m.replaceSlot old none v).1 :: slots) kept := by
  obtain ⟨hheap₁, htarget₁, hflag₁⟩ := releaseRoot_eq h.collector old
  obtain ⟨c, hm⟩ := h.hands (old :: v :: (free ++ slots ++ kept)) (perm_slots (v :: free) slots kept old)
  obtain ⟨c₁, hm₁⟩ := Mirrors.releaseRoot hm
  rcases hrelease : m.releaseRoot old with ⟨old', m₁⟩
  rw [hrelease] at hheap₁ htarget₁ hflag₁ hm₁
  dsimp only at hheap₁ htarget₁ hflag₁ hm₁
  obtain ⟨hheap₂, htarget₂, hflag₂⟩ := makeRoot_eq (m := m₁) (by rw [hm₁.collector]; rfl) v
  obtain ⟨c₂, hm₂⟩ := Mirrors.makeRoot (hm₁.perm (List.Perm.swap _ _ _))
  rcases hroot : m₁.makeRoot v with ⟨v', m₂⟩
  rw [hroot] at hheap₂ htarget₂ hflag₂ hm₂
  dsimp only at hheap₂ htarget₂ hflag₂ hm₂
  have hm₃ := Mirrors.release_one (hm₂.perm (List.Perm.swap _ _ _)) fun _ => hflag₁
  have hsame : m₂.release [old'] = m₂.release [old] := by
    have hheap : m₂.heap.release [old'] = m₂.heap.release [old] := by
      apply Heap.release_congr
      simp only [List.filterMap_cons, htarget₁]
    rw [Memory.release, Memory.release, hheap]
  have hreplace : m.replaceSlot old none v = (v', m₂.release [old]) := by
    unfold Memory.replaceSlot reanchor
    simp only [hrelease, hroot]
  rw [hsame] at hm₃
  rw [hreplace]
  refine of_hands (v' :: (free ++ slots ++ kept)) hm₃ (perm_slots free slots kept v').symm ?_ ?_ ?_
  · intro hstrict
    obtain ⟨S, hr, hv, hvs⟩ := h.within_free hstrict
    have hp : (free ++ v' :: slots).Perm (v' :: (free ++ slots)) := List.perm_middle
    refine Heap.Managed.mono (managed_cons (S := S) (v := v') ?_ (fun x hx => ?_) fun w hw => ?_)
      fun w hw => hp.subset hw
    · dsimp only [Memory.release]
      rw [hheap₂, hheap₁]
      exact hr.release _
    · exact hv x (htarget₂ ▸ hx)
    · refine hvs w ?_
      rcases List.mem_append.1 hw with hw | hw
      · exact List.mem_append_left _ hw
      · exact List.mem_append_right _ (List.mem_cons_of_mem _ hw)
  · exact fun w hw => h.plain w (List.mem_cons_of_mem _ hw)
  · intro w hw htarget
    rcases List.mem_cons.1 hw with rfl | hw
    · exact hflag₂ (htarget₂ ▸ htarget)
    · exact h.rooted w (List.mem_cons_of_mem _ hw) htarget

theorem slot_handle {old : Value} (h : Custody strict m free (old :: slots) kept) :
    Custody strict m free (.array (handleOf old) :: slots) kept := by
  cases old with
  | array k => exact h
  | _ => exact (slot_null rfl).2 ((slot_null rfl).1 h)

theorem storeInSlot {old new : Value} (h : Custody strict m (new :: free) (old :: slots) kept) {path : List Cell}
    (hpath : path ≠ []) (copy : Bool) :
    Custody strict (m.storeInSlot old none path new copy).2 free
      ((m.storeInSlot old none path new copy).1 :: slots) kept := by
  have hslot := h.slot_handle
  set slot : Value := .array (handleOf old) with hslot_eq
  obtain ⟨hheap, htarget, -⟩ := makeRoot_eq h.collector slot
  have hflag : (m.makeRoot slot).1.isRooted = true := by
    obtain ⟨c, hc⟩ := Option.isSome_iff_exists.1 h.collector
    unfold makeRoot
    rw [hc]
    simp only [hslot_eq, rootHandle]
    split_ifs with hroot
    · exact hroot
    · split <;> rfl
  obtain ⟨c, hm⟩ := hslot.hands (slot :: new :: (free ++ slots ++ kept))
    (perm_slots (new :: free) slots kept slot)
  obtain ⟨c₁, hm₁⟩ := Mirrors.makeRoot hm
  have hstore : m.storeInSlot old none path new copy =
      (m.makeRoot slot).2.storeNested (m.makeRoot slot).1 path new copy none := rfl
  rcases hroot : m.makeRoot slot with ⟨slot', m₁⟩
  rw [hroot] at hheap htarget hflag hm₁ hstore
  dsimp only at hheap htarget hflag hm₁ hstore
  have hnew : new.isRooted = false := h.plain new (by simp)
  have hlax : False → copy = true := False.elim
  obtain ⟨c₂, hm₂⟩ := Mirrors.storeNested hm₁ hpath hlax fun _ => hnew
  have hsupports : m₁.heap.Supports (slot' :: new :: (free ++ slots ++ kept)) := by
    simpa [Function.comp_def] using hm₁.supports
  rw [hstore]
  refine of_hands (_ :: (free ++ slots ++ kept)) hm₂ (perm_slots free slots kept _).symm ?_ ?_ ?_
  · intro hstrict
    obtain ⟨S, hr, hin, hvs⟩ := hslot.within_free hstrict
    have hwithin : slot'.Within S := fun x hx => hvs slot (by simp) x (htarget ▸ hx)
    obtain ⟨hr', hv', -⟩ := Region.storeNested (by rwa [hheap]) (by rw [hm₁.collector]; rfl) hsupports hwithin
      hin path copy none
    have hp : (free ++ (m₁.storeNested slot' path new copy none).1 :: slots).Perm
        ((m₁.storeNested slot' path new copy none).1 :: (free ++ slots)) := List.perm_middle
    refine Heap.Managed.mono (managed_cons hr' hv' fun w hw => ?_) fun w hw => hp.subset hw
    refine hvs w ?_
    rcases List.mem_append.1 hw with hw | hw
    · exact List.mem_append_left _ hw
    · exact List.mem_append_right _ (List.mem_cons_of_mem _ hw)
  · exact fun w hw => h.plain w (List.mem_cons_of_mem _ hw)
  · intro w hw htarget'
    rcases List.mem_cons.1 hw with rfl | hw
    · rw [isRooted_storeNested m₁ slot' hpath]
      exact hflag
    · exact h.rooted w (List.mem_cons_of_mem _ hw) htarget'

/-- A slot goes: its array is no root any more and is left to the host. -/
theorem retire {old : Value} (h : Custody strict m free (old :: slots) kept) :
    Custody strict (m.releaseRoot old).2 free slots ((m.releaseRoot old).1 :: kept) := by
  obtain ⟨hheap, htarget, hflag⟩ := releaseRoot_eq h.collector old
  obtain ⟨c, hm⟩ := h.hands _ (perm_slots free slots kept old)
  obtain ⟨c', hm'⟩ := Mirrors.releaseRoot hm
  refine of_hands (_ :: (free ++ slots ++ kept)) hm' (perm_kept free slots kept _).symm ?_ ?_ ?_
  · rw [hheap]
    exact fun hstrict =>
      (h.managed hstrict).mono fun w hw => List.perm_middle.symm.subset (List.mem_cons_of_mem _ hw)
  · intro w hw
    rcases List.mem_cons.1 (List.perm_middle.subset hw) with rfl | hw
    · exact hflag
    · exact h.plain w hw
  · exact fun w hw => h.rooted w (List.mem_cons_of_mem _ hw)

theorem retireAll {dead : List Value} (h : Custody strict m free (dead ++ slots) kept) :
    Custody strict (dead.foldl (fun m v => (m.releaseRoot v).2) m) free slots (dead.map Value.share ++ kept) := by
  induction dead generalizing m kept with
  | nil => exact h
  | cons old dead ih =>
    have hretired := h.retire
    rw [releaseRoot_value h.collector] at hretired
    exact (ih hretired).perm (List.Perm.refl _) (List.Perm.refl _) List.perm_middle

/-! ### Arrays of the host -/

theorem newArray {rows : Rows} (h : Custody strict m free slots (Rows.cells rows ++ kept)) (tracked : Bool) :
    Custody strict (m.trackedIf tracked (·.newArray rows)).2 free slots
      ((m.trackedIf tracked (·.newArray rows)).1 :: kept) := by
  have hp : (free ++ slots ++ (Rows.cells rows ++ kept)).Perm (Rows.cells rows ++ (free ++ slots ++ kept)) :=
    List.perm_append_comm_assoc _ _ _
  obtain ⟨c, hm⟩ := h.hands _ hp
  rw [List.map_append] at hm
  have hplain : ∀ w ∈ Rows.cells rows, w.isRooted = false := fun w hw =>
    h.plain w (List.mem_append_right _ (List.mem_append_left _ hw))
  obtain ⟨c', hm'⟩ := Tree.mirrors_trackedIf hm (fun _ => hplain) tracked
  obtain ⟨hvalue, hplaced⟩ := placed_trackedIf m tracked rows
  have hs : m.heap.Supports (free ++ slots) := h.supports.of_le (by simp)
  refine of_hands (_ :: (free ++ slots ++ kept)) hm' (perm_kept free slots kept _).symm ?_ ?_ h.rooted
  · have hagrees : Heap.Agrees (free ++ slots) m.heap (m.trackedIf tracked (·.newArray rows)).2.heap :=
      hplaced.keeps.agrees _
    intro hstrict a b' hr hb'
    have hr₀ := (hagrees.reaches_iff hs).1 hr
    obtain ⟨b, hb⟩ := hr₀.alive hs
    rw [hplaced.other a (Heap.lt_of_block? hb).ne, hb] at hb'
    exact h.managed hstrict a b' hr₀ (hb.trans hb')
  · intro w hw
    rcases List.mem_cons.1 (List.perm_middle.subset hw) with rfl | hw
    · rw [hvalue]
      rfl
    · refine h.plain w ?_
      rcases List.mem_append.1 hw with hw | hw
      · exact List.mem_append_left _ hw
      · exact List.mem_append_right _ (List.mem_append_right _ hw)

/-! ### A pass in which free values count as roots -/

theorem contains_live {c : Collector Tracked} {hands : List Hand} (hm : Mirrors strict False True m c hands)
    {a : Address} {b : Block} {id : NodeId} (hb : m.heap.block? a = some b) (hid : b.node = some id) :
    c.contains id = true := by
  obtain ⟨n, hn, -⟩ := hm.linked a b id hb hid
  exact Collector.contains_of_node? hn

theorem isRoot_slot (h : Custody strict m free slots kept) {c : Collector Tracked}
    (hm : Mirrors strict False True m c ((free ++ slots ++ kept).map (Prod.mk none))) (hv : v ∈ slots) {id : NodeId}
    (hid : m.heap.node? v = some id) : c.isRoot id = true := by
  obtain ⟨a, b, ha, hb, hnode⟩ := Heap.node?_eq_some hid
  obtain ⟨n, hn, -⟩ := hm.linked a b id hb hnode
  have hflag : v.isRooted = true := h.rooted v hv (by simp [ha])
  rw [Collector.isRoot_iff]
  refine ⟨n, hn, ?_⟩
  rw [hm.rooted trivial id n hn]
  exact List.countP_pos_iff.2 ⟨(none, v), by simp [hv], by simp [hflag, hid]⟩

/-- Whatever free values and slots reach has a node that the pass reaches. -/
theorem reach_of_reaches (h : Custody True m free slots kept) {c : Collector Tracked}
    (hm : Mirrors True False True m c ((free ++ slots ++ kept).map (Prod.mk none))) {a : Address}
    (hr : m.heap.Reaches (free ++ slots) a) :
    ∃ b id, m.heap.block? a = some b ∧ b.node = some id ∧
      c.Reach (c.Anchored (free.filterMap m.node?)) id := by
  have hnode : ∀ {a}, m.heap.Reaches (free ++ slots) a → ∃ b id, m.heap.block? a = some b ∧ b.node = some id := by
    intro a hr
    have hs : m.heap.Supports (free ++ slots) := h.supports.of_le (by simp)
    obtain ⟨b, hb⟩ := hr.alive hs
    obtain ⟨id, hid⟩ := Option.isSome_iff_exists.1 (h.managed trivial a b hr hb)
    exact ⟨b, id, hb, hid⟩
  induction hr with
  | value hv ha =>
    obtain ⟨b, id, hb, hid⟩ := hnode (.value hv ha)
    have hvid : m.heap.node? _ = some id := (Heap.node?_eq ha hb).trans hid
    refine ⟨b, id, hb, hid, .start ?_ (contains_live hm hb hid)⟩
    rcases List.mem_append.1 hv with hv | hv
    · exact Or.inr (List.mem_filterMap.2 ⟨_, hv, hvid⟩)
    · exact Or.inl (h.isRoot_slot hm hv hvid)
  | cell hr hb hv hx ih =>
    obtain ⟨b₀, id₀, hb₀, hid₀, hreach⟩ := ih
    obtain rfl := Option.some.inj (hb.symm.trans hb₀)
    obtain ⟨b, id, hb', hid⟩ := hnode (.cell hr hb hv hx)
    exact ⟨b, id, hb', hid, hm.reach_cell trivial hb hid₀ hv ((Heap.node?_eq hx hb').trans hid) hreach⟩

/-- The pass leaves all that free values and slots reach as it is and tracked. -/
theorem survives (h : Custody True m free slots kept) {a : Address} (hr : m.heap.Reaches (free ++ slots) a) :
    ∃ b b' id, m.heap.block? a = some b ∧
      (m.collect (free.filterMap m.node?)).2.heap.block? a = some b' ∧ b'.rows = b.rows ∧
      b'.node = some id ∧ (m.collect (free.filterMap m.node?)).2.collector.any (·.contains id) = true := by
  obtain ⟨c, hm⟩ := h.mirrors
  rw [collect_eq hm.collector]
  obtain ⟨hsupports, hpurged⟩ := purged_hooks (c.collect (free.filterMap m.node?)).2 h.supports
  set h' := (Hook.sequence (c.collect (free.filterMap m.node?)).2).foldl runHook m.heap with hh'
  have hsame : ∀ {a b'}, m.heap.Reaches (free ++ slots) a → h'.block? a = some b' →
      ∃ b id, m.heap.block? a = some b ∧ b'.rows = b.rows ∧ b'.node = some id ∧
        c.Reach (c.Anchored (free.filterMap m.node?)) id := by
    intro a b' hr hb'
    obtain ⟨b, id, hb, hid, hreach⟩ := h.reach_of_reaches hm hr
    obtain ⟨b₀, hb₀, hkept⟩ := hpurged.block a b' hb'
    obtain rfl := Option.some.inj (hb.symm.trans hb₀)
    rw [if_neg fun hcond => (hm.condemned_iff _ hb hid).1 hcond hreach] at hkept
    exact ⟨b, id, hb, hkept.2, hkept.1.trans hid, hreach⟩
  have halive : ∃ b', h'.block? a = some b' := by
    induction hr with
    | value hv ha => exact hsupports.alive (List.mem_append_left _ hv) ha
    | cell hr hb hv hx ih =>
      obtain ⟨b', hb'⟩ := ih
      obtain ⟨b, id, hb₀, hrows, -⟩ := hsame hr hb'
      obtain rfl := Option.some.inj (hb.symm.trans hb₀)
      refine hsupports.cell_alive hb' ?_ hx
      rwa [Block.cells_eq, hrows]
  obtain ⟨b', hb'⟩ := halive
  obtain ⟨b, id, hb, hrows, hid, hreach⟩ := hsame hr hb'
  exact ⟨b, b', id, hb, hb', hrows, hid, (hm.tidy.contains_collect _ id).2 hreach⟩

theorem collect (h : Custody strict m free slots kept) :
    Custody strict (m.collect (free.filterMap m.node?)).2 free slots kept := by
  obtain ⟨c, hm⟩ := h.mirrors
  have hfree : ∀ hand ∈ (free ++ slots ++ kept).map (Prod.mk (none : Option NodeId)), hand.1 = none := by
    intro hand hhand
    obtain ⟨v, -, rfl⟩ := List.mem_map.1 hhand
    rfl
  refine ⟨⟨_, hm.collect hfree _⟩, fun hstrict => ?_, h.plain, h.rooted⟩
  obtain rfl : strict = True := eq_true hstrict
  have hagrees : Heap.Agrees (free ++ slots) m.heap (m.collect (free.filterMap m.node?)).2.heap := by
    intro a b hr hb
    obtain ⟨b₀, b', id, hb₀, hb', hrows, -⟩ := h.survives hr
    obtain rfl := Option.some.inj (hb.symm.trans hb₀)
    exact ⟨b', hb', hrows⟩
  intro a b' hr hb'
  have hs : m.heap.Supports (free ++ slots) := h.supports.of_le (by simp)
  obtain ⟨-, b₁, id, -, hb₁, -, hid, -⟩ := h.survives ((hagrees.reaches_iff hs).1 hr)
  obtain rfl := Option.some.inj (hb'.symm.trans hb₁)
  rw [hid]
  rfl

/-- If the edges are exact, what the pass reaches is what free values and slots reach. -/
theorem reaches_of_reach (h : Custody strict m free slots kept) (hok : m.integrityCheck = .ok ())
    {c : Collector Tracked} (hm : Mirrors strict False True m c ((free ++ slots ++ kept).map (Prod.mk none)))
    {id : NodeId} (hr : c.Reach (c.Anchored (free.filterMap m.node?)) id) :
    ∃ a b, m.heap.block? a = some b ∧ b.node = some id ∧ m.heap.Reaches (free ++ slots) a := by
  have hvalue : ∀ {v id}, v ∈ free ++ slots → m.heap.node? v = some id →
      ∃ a b, m.heap.block? a = some b ∧ b.node = some id ∧ m.heap.Reaches (free ++ slots) a := by
    intro v id hv hid
    obtain ⟨a, b, ha, hb, hnode⟩ := Heap.node?_eq_some hid
    exact ⟨a, b, hb, hnode, .value hv ha⟩
  induction hr with
  | start hanchored _ =>
    rcases hanchored with hroot | hextra
    · obtain ⟨n, hn, hpos⟩ := (c.isRoot_iff _).1 hroot
      rw [hm.rooted trivial _ n hn] at hpos
      obtain ⟨hand, hhand, hflag⟩ := List.countP_pos_iff.1 hpos
      obtain ⟨v, hv, rfl⟩ := List.mem_map.1 hhand
      simp only [decide_eq_true_eq] at hflag
      have hslot : v ∈ slots := by
        by_contra hout
        have hplain : v.isRooted = false := h.plain v (by simpa [hout] using hv)
        rw [hplain] at hflag
        cases hflag.1
      exact hvalue (List.mem_append_right _ hslot) hflag.2
    · obtain ⟨v, hv, hid⟩ := List.mem_filterMap.1 hextra
      exact hvalue (List.mem_append_left _ hv) hid
  | edge _ htarget _ ih =>
    obtain ⟨a, b, hb, hid, hr⟩ := ih
    obtain ⟨n, hn, hpay⟩ := hm.linked a b _ hb hid
    rw [Collector.references_eq hn, Edges.mem_targets_iff (hm.tidy.ordered _ n hn)] at htarget
    rw [← (integrityCheck_iff hm.collector hm.tidy).1 hok _ n a b hn hpay hb] at htarget
    obtain ⟨v, hv, hvid⟩ := List.mem_filterMap.1 (List.count_pos_iff.1 htarget)
    obtain ⟨x, bx, hx, hbx, hnode⟩ := Heap.node?_eq_some hvid
    exact ⟨x, bx, hbx, hnode, .cell hr hb hv hx⟩

/-- What the pass makes of an array that anyone holds. Free values and slots keep the rows of what they
reach, and data without a node keeps its own; if the edges are exact, all else is emptied. -/
theorem collect_held (h : Custody True m free slots kept) (hv : v ∈ free ++ slots ++ kept) {a : Address}
    (ha : v.target? = some a) :
    ∃ b b', m.heap.block? a = some b ∧ (m.collect (free.filterMap m.node?)).2.heap.block? a = some b' ∧
      (m.heap.Reaches (free ++ slots) a ∨ b.node = none → b'.rows = b.rows) ∧
      (m.integrityCheck = .ok () → ¬ m.heap.Reaches (free ++ slots) a → b.node ≠ none → b'.rows = #[]) := by
  obtain ⟨c, hm⟩ := h.mirrors
  rw [collect_eq hm.collector]
  obtain ⟨hsupports, hpurged⟩ := purged_hooks (c.collect (free.filterMap m.node?)).2 h.supports
  obtain ⟨b', hb'⟩ := hsupports.alive hv ha
  obtain ⟨b, hb, hkept⟩ := hpurged.block a b' hb'
  -- the pass condemns tracked data only, and none that free values or slots reach
  have hspared : m.heap.Reaches (free ++ slots) a ∨ b.node = none →
      .array a ∉ (c.collect (free.filterMap m.node?)).2 := by
    rintro (hr | hnone) hcond
    · obtain ⟨b₀, id, hb₀, hid, hreach⟩ := h.reach_of_reaches hm hr
      exact (hm.condemned_iff _ hb₀ hid).1 hcond hreach
    · obtain ⟨id, n, hn, -, hpay⟩ := (hm.tidy.mem_collect_iff _ _).1 hcond
      rw [hm.tied id n a b hn hpay hb] at hnone
      cases hnone
  refine ⟨b, b', hb, hb', fun hspare => ?_, fun hok hr hnode => ?_⟩
  · rw [if_neg (hspared hspare)] at hkept
    exact hkept.2
  · obtain ⟨id, hid⟩ := Option.ne_none_iff_exists'.1 hnode
    refine rows_hooks h.supports ((hm.condemned_iff _ hb hid).2 fun hreach => hr ?_) hb'
    obtain ⟨a₀, b₀, hb₀, hid₀, hr₀⟩ := h.reaches_of_reach hok hm hreach
    obtain rfl := hm.same_address hb hid hb₀ hid₀
    exact hr₀

end Custody
end Memory
end ScriptVm
