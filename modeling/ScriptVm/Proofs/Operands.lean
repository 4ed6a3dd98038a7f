import ScriptVm.Proofs.Bearings
import ScriptVm.Proofs.Execution

/-! What pieces of execution do to the operand stack. Each leaves the stack that its footprint says. If it fails, then
everything below what it takes, removes or moves is still there; and where the stack has fewer values than it looks at,
it fails in a way that a program can deal with, for operands are taken off before anything else is done. -/

namespace ScriptVm

/-- The base is right above the values `below`, and at least `k` more lie on top of them. -/
structure Core.Above (below : List Value) (k : Nat) (c : Core) : Prop where
  base : c.executor.base = below.length
  stack : ∃ above, c.executor.stack.toList = below ++ above ∧ k ≤ above.length

namespace Core.Above
variable {below : List Value} {k l : Nat} {c c' : Core}

theorem mono (h : c.Above below k) (hl : l ≤ k) : c.Above below l := by
  obtain ⟨hbase, above, hstack, hk⟩ := h
  exact ⟨hbase, above, hstack, hl.trans hk⟩

theorem same (h : c.Above below k) (hbase : c'.executor.base = c.executor.base)
    (hstack : c'.executor.stack = c.executor.stack) : c'.Above below k :=
  ⟨hbase.trans h.base, by rw [hstack]; exact h.stack⟩

theorem size (h : c.Above below k) : below.length + k ≤ c.executor.stack.size := by
  obtain ⟨-, above, hstack, hk⟩ := h
  rw [← Array.length_toList, hstack, List.length_append]
  omega

theorem of_take (h : c.Above below l) (hbase : c'.executor.base = c.executor.base)
    (htake : below <+: c'.executor.stack.toList) (hsize : below.length + k ≤ c'.executor.stack.size) :
    c'.Above below k := by
  obtain ⟨above, hstack⟩ := htake
  refine ⟨hbase.trans h.base, above, hstack.symm, ?_⟩
  rw [← Array.length_toList, ← hstack, List.length_append] at hsize
  omega

theorem isPrefix (h : c.Above below k) : below <+: c.executor.stack.toList := by
  obtain ⟨-, above, hstack, -⟩ := h
  exact ⟨above, hstack.symm⟩

end Core.Above

/-- The same with values on top of the stack, which may have gained holders. -/
def Core.laden (c : Core) (vs : List Value) (memory : Memory) : Core :=
  { c with memory, executor := { c.executor with stack := c.executor.stack ++ vs.toArray } }

theorem Core.toList_laden (c : Core) (vs : List Value) (memory : Memory) :
    (c.laden vs memory).executor.stack.toList = c.executor.stack.toList ++ vs := by
  simp [laden]

/-- So many values are off the stack. -/
structure Core.Popped (n : Nat) (c c' : Core) : Prop where
  base : c'.executor.base = c.executor.base
  stack : ∃ ops, c.executor.stack.toList = c'.executor.stack.toList ++ ops ∧ ops.length = n

/-- One slot of the stack has another content. -/
structure Core.Rewritten (slot : Nat) (c c' : Core) : Prop where
  base : c'.executor.base = c.executor.base
  stack : ∃ v, c'.executor.stack = c.executor.stack.setIfInBounds slot v

namespace Core
variable {c c' c'' : Core} {m n k slot : Nat} {below : List Value}

theorem popped_refl (c : Core) : Popped 0 c c := ⟨rfl, [], (List.append_nil _).symm, rfl⟩

theorem popped_zero (hbase : c'.executor.base = c.executor.base) (hstack : c'.executor.stack = c.executor.stack) :
    Popped 0 c c' := ⟨hbase, [], by rw [hstack, List.append_nil], rfl⟩

theorem Popped.stack_eq (h : Popped 0 c c') : c'.executor.stack = c.executor.stack := by
  obtain ⟨-, ops, hstack, hlength⟩ := h
  rw [List.length_eq_zero_iff.1 hlength, List.append_nil] at hstack
  exact Array.ext' hstack.symm

theorem Popped.trans (h : Popped m c c') (h' : Popped n c' c'') : Popped (m + n) c c'' := by
  obtain ⟨hbase, ops, hstack, hlength⟩ := h
  obtain ⟨hbase', ops', hstack', hlength'⟩ := h'
  refine ⟨hbase'.trans hbase, ops' ++ ops, ?_, ?_⟩
  · rw [hstack, hstack', List.append_assoc]
  · rw [List.length_append, hlength, hlength', Nat.add_comm]

theorem Popped.size (h : Popped n c c') : c.executor.stack.size = c'.executor.stack.size + n := by
  obtain ⟨-, ops, hstack, hlength⟩ := h
  rw [← Array.length_toList, hstack, List.length_append, hlength, Array.length_toList]

theorem Popped.above (h : Popped n c c') (hc : c.Above below (n + k)) : c'.Above below k := by
  have hsize := h.size
  have hroom := hc.size
  obtain ⟨hbase, ops, hstack, hlength⟩ := h
  refine hc.of_take hbase ?_ (by omega)
  have hbelow := hc.isPrefix
  rw [hstack] at hbelow
  refine List.prefix_of_prefix_length_le hbelow (List.prefix_append _ _) ?_
  change below.length ≤ c'.executor.stack.size
  omega

theorem Rewritten.above (h : Rewritten slot c c') (hslot : below.length ≤ slot) (hc : c.Above below k) :
    c'.Above below k := by
  obtain ⟨hbase, v, hwritten⟩ := h
  refine hc.of_take hbase ?_ ?_
  · obtain ⟨-, above, hstack, -⟩ := hc
    rw [hwritten, Array.toList_setIfInBounds, hstack, List.set_append_right _ _ hslot]
    exact List.prefix_append _ _
  · rw [hwritten, Array.size_setIfInBounds]
    exact hc.size

end Core

/-- How many of the cells right below the operands are gone or moved. -/
def Touch.reach : Touch → Nat
  | .nothing | .slot _ => 0
  | .removed depth => depth + 1
  | .exchanged => 2

/-- How many cells on top are taken, removed or moved. -/
def Footprint.reach (p : Footprint) : Nat := p.pops + p.touch.reach

theorem Touch.Leads.isPrefix {touch : Touch} {bottom below below' : List Value}
    (h : touch.Leads bottom.length below below') (hbottom : bottom <+: below)
    (hreach : bottom.length + touch.reach ≤ below.length) : bottom <+: below' := by
  cases touch with
  | nothing => exact h ▸ hbottom
  | slot index =>
    obtain ⟨-, v, rfl⟩ := h
    obtain ⟨above, rfl⟩ := hbottom
    rw [List.set_append_right _ _ (Nat.le_add_right _ _)]
    exact List.prefix_append _ _
  | removed depth =>
    obtain ⟨deeper, v, above, rfl, rfl, rfl⟩ := h
    refine (List.prefix_of_prefix_length_le hbottom (List.prefix_append _ _) ?_).trans (List.prefix_append _ _)
    simp only [List.length_append, List.length_cons, reach] at hreach
    omega
  | exchanged =>
    obtain ⟨deeper, u, v, rfl, rfl⟩ := h
    refine (List.prefix_of_prefix_length_le hbottom (List.prefix_append _ _) ?_).trans (List.prefix_append _ _)
    simp only [List.length_append, List.length_cons, List.length_nil, reach] at hreach
    omega

theorem Footprint.Fits.isPrefix {p : Footprint} {bottom stack stack' : List Value}
    (h : p.Fits bottom.length stack stack') (hbottom : bottom <+: stack)
    (hreach : bottom.length + p.reach ≤ stack.length) : bottom <+: stack' := by
  obtain ⟨-, below, operands, below', results, rfl, hpops, htouch, rfl, -⟩ := h
  rw [List.length_append, hpops, reach] at hreach
  have hbelow : bottom <+: below := List.prefix_of_prefix_length_le hbottom (List.prefix_append _ _) (by omega)
  exact (htouch.isPrefix hbelow (by omega)).trans (List.prefix_append _ _)

namespace Exec
variable {α β : Type}

theorem forM_pushShared (vs : List Value) (c : Core) :
    ∃ memory, vs.forM pushShared c = .ok () (c.laden (vs.map Value.share) memory) := by
  induction vs generalizing c with
  | nil => exact ⟨c.memory, by simp [Core.laden, List.forM, pure, EStateM.pure]⟩
  | cons v vs ih =>
    obtain ⟨memory, hrest⟩ := ih { c with
      memory := (c.memory.share v).2
      executor := c.executor.push v.share }
    refine ⟨memory, ?_⟩
    change vs.forM pushShared { c with
      memory := (c.memory.share v).2
      executor := c.executor.push v.share } = _
    rw [hrest]
    simp [Core.laden, Executor.push]

/-! ### Pieces of instructions -/

theorem Takes.pops {n : Nat} {x : Exec α} (hx : Takes n x) (c : Core) :
    Ends (c.Popped n) (fun f c' => f ≠ .crash ∧ ∃ m ≤ n, c.Popped m c') (x c) := by
  induction hx generalizing c with
  | pure a => exact c.popped_refl
  | @throw α f hf =>
    refine ⟨?_, 0, le_rfl, c.popped_refl⟩
    rintro rfl
    cases hf
  | inspect _ _ ih => exact ih c c
  | change hg => exact Core.popped_zero (congrArg Bearings.base (hg.bearings c)) (hg.stack c)
  | pop =>
    unfold Exec.pop onExecutor Executor.pop
    cases hv : c.executor.stack.back? with
    | none => exact ⟨nofun, 0, Nat.zero_le _, c.popped_refl⟩
    | some v => exact ⟨rfl, [v], toList_eq_pop hv, rfl⟩
  | @bind α β m n x f _ _ ihx ihf =>
    have hfirst : Ends (c.Popped m) (fun f c' => f ≠ .crash ∧ ∃ k ≤ m + n, c.Popped k c') (x c) :=
      (ihx c).mono (fun _ h => h) fun _ _ ⟨hf, k, hk, h⟩ => ⟨hf, k, hk.trans (Nat.le_add_right _ _), h⟩
    refine hfirst.bind_of fun a c₁ ha h => ?_
    exact (ihf a ha c₁).mono (fun _ => h.trans) fun _ _ ⟨hf, k, hk, h'⟩ =>
      ⟨hf, m + k, Nat.add_le_add_left hk m, h.trans h'⟩
  | orDrop _ vs ih => exact (ih c).orDrop fun _ _ ⟨hf, k, hk, h⟩ => ⟨hf, k, hk, h.base, h.stack⟩
  | thenDrop _ vs ih =>
    exact (ih c).thenDrop (fun _ h => ⟨h.base, h.stack⟩) fun _ _ ⟨hf, k, hk, h⟩ => ⟨hf, k, hk, h.base, h.stack⟩

theorem Writes.rewrites {slot : Nat} {x : Exec α} (hx : Writes slot x) (c : Core) :
    Ends (c.Rewritten slot) (fun _ => c.Rewritten slot) (x c) := by
  induction hx generalizing c with
  | update g => exact ⟨rfl, _, rfl⟩
  | inspect _ _ ih => exact ih c c
  | bind _ hf ih =>
    refine (ih c).bind_of fun a c₁ ha ⟨hbase, v, hstack⟩ => ?_
    refine ((hf a ha).pops c₁).mono (fun c₂ h => ?_) fun _ c₂ ⟨_, m, hm, h⟩ => ?_
    · exact ⟨h.base.trans hbase, v, h.stack_eq.trans hstack⟩
    · obtain rfl := Nat.le_zero.1 hm
      exact ⟨h.base.trans hbase, v, h.stack_eq.trans hstack⟩

theorem topSlot_eq (c : Core) :
    topSlot c =
      if c.executor.stack.size = 0 then .error .underflow c else .ok (c.executor.stack.size - 1) c := by
  unfold topSlot
  rw [run_get]
  dsimp only
  split_ifs <;> rfl

theorem Locates.cases {index : UInt32} {x : Exec Nat} (hx : Locates index x) (c : Core) :
    (c.executor.base + index.toNat < c.executor.stack.size ∧ x c = .ok (c.executor.base + index.toNat) c) ∨
    ∃ f memory, x c = .error f { c with memory } := by
  have hslot : localSlot index c = (ofExcept (c.executor.localSlot index) : Exec Nat) c := rfl
  cases hresult : c.executor.localSlot index with
  | ok slot =>
    obtain ⟨rfl, hsize⟩ := Executor.localSlot_eq_ok hresult
    rw [hresult] at hslot
    refine Or.inl ⟨hsize, ?_⟩
    cases hx with
    | bare => exact hslot
    | held vs =>
      unfold Exec.orDrop
      rw [hslot]
      rfl
  | error f =>
    rw [hresult] at hslot
    refine Or.inr ⟨f, ?_⟩
    cases hx with
    | bare => exact ⟨_, hslot⟩
    | held vs =>
      unfold Exec.orDrop
      rw [hslot]
      exact ⟨_, rfl⟩

/-- Does to the stack what the footprint says, or fails and leaves what is deeper. If it fails for want of values, then
in a way that a program can deal with. -/
def Leaves (p : Footprint) (x : Exec α) : Prop := ∀ c, Ends
  (fun c' => c'.executor.base = c.executor.base ∧
    p.Fits c.executor.base c.executor.stack.toList c'.executor.stack.toList)
  (fun f c' => (c.executor.stack.size < p.needs → f ≠ .crash) ∧ ∀ below, c.Above below p.reach → c'.Above below 0)
  (x c)

/-- Puts so many results on top. It fails only where there are too few values, and then in a way that a program can
deal with. -/
theorem leaves_of_grow {x : Exec α} {pushes needs : Nat} (hx : ∀ c, Ends
    (fun c' => c'.executor.base = c.executor.base ∧ needs ≤ c.executor.stack.size ∧ ∃ results,
      results.length = pushes ∧ c'.executor.stack.toList = c.executor.stack.toList ++ results)
    (fun f c' => f ≠ .crash ∧ c' = c) (x c)) : Leaves { pushes, needs } x := by
  refine fun c => (hx c).mono (fun c' ⟨hbase, hneeds, results, hlength, hstack⟩ => ⟨hbase, ?_⟩) fun f c' ⟨hf, hc'⟩ => ?_
  · subst hlength
    rw [hstack]
    exact Footprint.fits_append hneeds results
  · exact ⟨fun _ => hf, fun below hc => hc' ▸ hc.mono (Nat.zero_le _)⟩

theorem exists_top {stack : Array Value} {n : Nat} (h : n ≤ stack.size) :
    ∃ deeper above : List Value, stack.toList = deeper ++ above ∧ deeper.length + n = stack.size ∧
      above.length = n := by
  refine ⟨_, _, (List.take_append_drop (stack.size - n) stack.toList).symm, ?_, ?_⟩
  · rw [List.length_take, Array.length_toList]
    omega
  · rw [List.length_drop, Array.length_toList]
    omega

theorem leaves_duplicate (count : Nat) : Leaves { pushes := count, needs := count } (duplicate count) := by
  refine leaves_of_grow fun c => ?_
  rw [duplicate_eq]
  split_ifs with hfew
  · exact ⟨nofun, rfl⟩
  · obtain ⟨memory, hpushed⟩ := forM_pushShared (c.executor.stack.toList.drop (c.executor.stack.size - count)) c
    rw [hpushed]
    refine ⟨rfl, Nat.le_of_not_lt hfew, _, ?_, c.toList_laden _ _⟩
    rw [List.length_map, List.length_drop, Array.length_toList]
    omega

theorem leaves_duplicateAt (depth : UInt8) :
    Leaves { pushes := 1, needs := depth.toNat + 1 } (duplicateAt depth.toNat) := by
  refine leaves_of_grow fun c => ?_
  unfold duplicateAt
  rw [run_get]
  by_cases hdepth : depth.toNat < c.executor.stack.size
  · rw [Executor.peek_of_lt (Word.succ_byte_lt depth) hdepth]
    exact ⟨rfl, hdepth, [_], rfl, Array.toList_push⟩
  · rw [Executor.peek_of_le (Word.succ_byte_lt depth) (Nat.le_of_not_lt hdepth)]
    exact ⟨nofun, rfl⟩

theorem leaves_deleteAt (depth : UInt8) :
    Leaves { needs := depth.toNat + 1, touch := .removed depth.toNat } (deleteAt depth.toNat) := by
  intro c
  rw [deleteAt_eq]
  by_cases hdepth : depth.toNat < c.executor.stack.size
  · rw [Executor.peek_of_lt (Word.succ_byte_lt depth) hdepth]
    refine ⟨rfl, Footprint.fits_touch hdepth ?_⟩
    obtain ⟨deeper, top, hstack, hdeeper, htop⟩ := exists_top hdepth
    obtain ⟨v, above, rfl⟩ := List.exists_cons_of_length_eq_add_one htop
    refine ⟨deeper, v, above, hstack, Nat.succ.inj htop, ?_⟩
    have hslot : c.executor.stack.size - 1 - depth.toNat = deeper.length := by omega
    dsimp only
    rw [Array.toList_eraseIdxIfInBounds, hslot, hstack, List.eraseIdx_append_of_length_le le_rfl, Nat.sub_self]
    rfl
  · rw [Executor.peek_of_le (Word.succ_byte_lt depth) (Nat.le_of_not_lt hdepth)]
    exact ⟨fun _ => nofun, fun below hc => hc.mono (Nat.zero_le _)⟩

theorem leaves_swap : Leaves { needs := 2, touch := .exchanged } swap := by
  intro c
  rw [swap_eq]
  split_ifs with hfew
  · exact ⟨fun _ => nofun, fun below hc => hc.mono (Nat.zero_le _)⟩
  · refine ⟨rfl, Footprint.fits_touch (Nat.le_of_not_lt hfew) ?_⟩
    obtain ⟨deeper, top, hstack, hdeeper, htop⟩ := exists_top (Nat.le_of_not_lt hfew)
    obtain ⟨u, v, rfl⟩ := List.length_eq_two.1 htop
    refine ⟨deeper, u, v, hstack, ?_⟩
    have hcells : c.executor.stack = (deeper ++ [u, v]).toArray := Array.ext' hstack
    dsimp only
    rw [hcells, List.size_toArray, List.length_append]
    simp [Array.swapIfInBounds_def]

theorem leaves_openIteration (owner : Owner) : Leaves { pushes := 2 } (openIteration owner) := by
  refine leaves_of_grow fun c => ⟨rfl, Nat.zero_le _, [Executor.saved c.executor.other,
    .uint c.executor.iterations.size.toUInt64], rfl, ?_⟩
  change ((c.executor.stack.push _).push _).toList = _
  rw [Array.toList_push, Array.toList_push, List.append_assoc]
  rfl

theorem leaves_top {f : Nat → Exec α} (hf : ∀ slot, Writes slot (f slot)) :
    Leaves { pops := 1, pushes := 1 } (topSlot >>= f) := by
  intro c
  simp only [bind, EStateM.bind, topSlot_eq]
  by_cases hsize : c.executor.stack.size = 0
  · simp only [if_pos hsize]
    exact ⟨fun _ => nofun, fun below hc => hc.mono (Nat.zero_le _)⟩
  · simp only [if_neg hsize]
    refine ((hf _).rewrites c).mono (fun c' ⟨hbase, v, hstack⟩ => ⟨hbase, ?_⟩) fun _ _ h =>
      ⟨fun hfew => absurd hfew (by omega), fun below hc => ?_⟩
    · have hback : c.executor.stack.back? = some c.executor.stack[c.executor.stack.size - 1] := by
        rw [Array.back?_eq_getElem?, Array.getElem?_eq_getElem]
      have hold := toList_eq_pop hback
      have hnew : c'.executor.stack.toList = c.executor.stack.pop.toList ++ [v] := by
        have hlast : c.executor.stack.size - 1 = c.executor.stack.pop.toList.length := by simp
        rw [hstack, Array.toList_setIfInBounds, hlast, hold, List.set_append_right _ _ le_rfl, Nat.sub_self]
        rfl
      refine ⟨?_, _, _, _, [v], hold, rfl, rfl, hnew, rfl⟩
      rw [Array.length_toList]
      exact Nat.pos_of_ne_zero hsize
    · have hroom : below.length + 1 ≤ c.executor.stack.size := hc.size
      exact h.above (by omega) (hc.mono (Nat.zero_le _))

theorem leaves_store {index : UInt32} {x : Exec Nat} {f : Nat → Exec α} (hx : Locates index x)
    (hf : ∀ slot, Writes slot (f slot)) : Leaves { touch := .slot index } (x >>= f) := by
  intro c
  simp only [bind, EStateM.bind]
  rcases hx.cases c with ⟨hsize, hfound⟩ | ⟨g, memory, hfailed⟩
  · rw [hfound]
    refine ((hf _).rewrites c).mono (fun c' ⟨hbase, v, hstack⟩ => ⟨hbase, Footprint.fits_touch (Nat.zero_le _) ⟨?_, v, ?_⟩⟩)
      fun _ _ h => ⟨fun hfew => absurd hfew (Nat.not_lt_zero _), fun below hc => ?_⟩
    · rwa [Array.length_toList]
    · rw [hstack, Array.toList_setIfInBounds]
    · refine h.above ?_ hc
      rw [hc.base]
      exact Nat.le_add_right _ _
  · rw [hfailed]
    exact ⟨fun hfew => absurd hfew (Nat.not_lt_zero _), fun below hc => hc.same rfl rfl⟩

theorem leaves_takes {n : Nat} {x : Exec α} (hx : Takes n x) : Leaves { pops := n } x := by
  intro c
  refine (hx.pops c).mono (fun c' h => ⟨h.base, ?_⟩) fun _ _ ⟨hf, m, hm, h⟩ =>
    ⟨fun _ => hf, fun below hc => h.above (hc.mono hm)⟩
  obtain ⟨ops, hstack, hlength⟩ := h.stack
  refine ⟨?_, _, ops, _, [], hstack, hlength, rfl, (List.append_nil _).symm, rfl⟩
  rw [hstack, List.length_append, hlength]
  exact Nat.le_add_left _ _

theorem leaves_after {n : Nat} {p : Footprint} {x : Exec α} {f : α → Exec β} (hx : Takes n x)
    (hf : ∀ a, Leaves p (f a)) : Leaves (p.under n) (x >>= f) := by
  intro c
  have hfirst : Ends (c.Popped n) (fun f c' => (c.executor.stack.size < (p.under n).needs → f ≠ .crash) ∧
      ∀ below, c.Above below (p.under n).reach → c'.Above below 0) (x c) := by
    refine (hx.pops c).mono (fun _ h => h) fun _ _ ⟨hf, m, hm, h⟩ => ⟨fun _ => hf, fun below hc => ?_⟩
    refine h.above (hc.mono ?_)
    change m ≤ p.pops + n + _
    omega
  refine hfirst.bind fun a c₁ h => (hf a c₁).mono (fun c₂ ⟨hbase, hfits⟩ => ⟨hbase.trans h.base, ?_⟩)
    fun g c₂ ⟨hfew, hdeep⟩ => ⟨fun hsize => hfew ?_, fun below hc => hdeep below (h.above ?_)⟩
  · obtain ⟨ops, hstack, hlength⟩ := h.stack
    rw [hstack, ← hlength, ← h.base]
    exact hfits.under
  · have hpopped := h.size
    change _ < p.needs + n at hsize
    omega
  · refine hc.mono ?_
    change n + (p.pops + _) ≤ p.pops + n + _
    simp only [Footprint.under]
    omega

/-- A part that looks at no operands may come after a local is looked up. -/
theorem leaves_load {index : UInt32} {p : Footprint} {f : Value → Exec α} (hneeds : p.needs = 0)
    (hf : ∀ v, Leaves p (f v)) : Leaves p (localValue index >>= f) := by
  intro c
  have hvalue : ∀ g : Value → Exec α, (localValue index >>= g) c =
      (ofExcept (c.executor.localValue index) >>= g : Exec α) c := fun _ => rfl
  rw [hvalue]
  cases c.executor.localValue index with
  | ok v => exact hf v c
  | error g => exact ⟨fun hfew => absurd hfew (by omega), fun below hc => hc.mono (Nat.zero_le _)⟩

theorem Treads.leaves {named : Option UInt32} {p : Footprint} {x : Exec α} (hx : Treads named p x) : Leaves p x := by
  induction hx with
  | takes hx => exact leaves_takes hx
  | after hx _ ih => exact leaves_after hx ih
  | inspect _ _ ih => exact fun c => ih c c
  | thenDrop _ vs ih =>
    exact fun c => (ih c).thenDrop (fun _ h => h) fun _ _ ⟨hfew, hdeep⟩ =>
      ⟨hfew, fun below hc => (hdeep below hc).same rfl rfl⟩
  | push v => exact leaves_of_grow fun _ => ⟨rfl, Nat.zero_le _, [v], rfl, Array.toList_push⟩
  | top hf => exact leaves_top hf
  | store _ hx hf => exact leaves_store hx hf
  | load _ hneeds _ ih => exact leaves_load hneeds ih
  | duplicate count => exact leaves_duplicate count
  | duplicateAt depth => exact leaves_duplicateAt depth
  | deleteAt depth => exact leaves_deleteAt depth
  | swap => exact leaves_swap
  | openIteration owner => exact leaves_openIteration owner

/-- What lies below the operands that are reached is kept. -/
theorem Leaves.above {p : Footprint} {x : Exec α} {c : Core} {below : List Value} (hx : Leaves p x)
    (hc : c.Above below p.reach) : Ends (·.Above below 0) (fun _ => (·.Above below 0)) (x c) := by
  refine (hx c).mono (fun c' ⟨hbase, hfits⟩ => ?_) fun _ _ h => h.2 below hc
  rw [hc.base] at hfits
  have hkept := hfits.isPrefix hc.isPrefix hc.size
  exact hc.of_take hbase hkept hkept.length_le

theorem Takes.above {n k : Nat} {x : Exec α} {c : Core} {below : List Value} (hx : Takes n x)
    (hc : c.Above below (n + k)) : Ends (·.Above below k) (fun _ => (·.Above below 0)) (x c) := by
  refine (hx.pops c).mono (fun _ h => h.above hc) fun _ _ ⟨_, m, hm, h⟩ => h.above (hc.mono ?_)
  omega

/-! ### Instructions -/

theorem leaves_branch (target : Int32) : Leaves {} (branch target) := by
  intro c
  unfold branch
  cases Cursor.seek target c.executor.pc with
  | ok u pc => exact ⟨rfl, Footprint.fits_same _ _⟩
  | error e pc => exact ⟨fun hfew => absurd hfew (Nat.not_lt_zero _), fun below hc => hc⟩

end Exec

open Exec

/-- An instruction that neither opens locals nor advances an iteration. -/
theorem Instruction.leaves_effect {i : Instruction} (hall : i.op ≠ .all) (hwty : i.op ≠ .wty) (iterated : Bool) :
    Leaves (i.footprint iterated) i.effect := by
  rw [i.effect_form, i.footprint_form]
  cases hplain : i.form.isPlain with
  | true => exact (Form.treads_effect hplain iterated).leaves
  | false =>
    obtain ⟨op, operands⟩ := i
    cases op with
    | all => exact absurd rfl hall
    | wty => exact absurd rfl hwty
    | jmp => exact leaves_branch _
    | bcond =>
      intro c
      change Ends _ _ ((if c.executor.condition then branch operands.1 else pure ()) c)
      split_ifs
      · exact leaves_branch _ c
      · exact leaves_takes (.pure ()) c
    | _ => cases hplain

end ScriptVm
