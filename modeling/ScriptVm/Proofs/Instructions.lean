import ScriptVm.Proofs.Forms
import ScriptVm.Proofs.VariableAccess

/-! Instructions and what they do with values: none is lost, none is made out of nothing, and arrays
keep to where the collector finds them. -/

namespace ScriptVm

theorem Memory.Custody.add_nulls {strict : Prop} {m : Memory} {free slots kept vs : List Value}
    (h : m.Custody strict free slots kept) (hvs : ∀ v ∈ vs, v.target? = none ∧ v.isRooted = false) :
    m.Custody strict (vs ++ free) slots kept := by
  induction vs with
  | nil => exact h
  | cons v vs ih =>
    obtain ⟨hnull, hplain⟩ := hvs v List.mem_cons_self
    exact (ih fun w hw => hvs w (List.mem_cons_of_mem _ hw)).add_null hnull hplain

theorem Memory.managed_peekNested {m : Memory} {v w : Value} (hv : m.heap.Managed [v]) {path : List Cell}
    (hpeek : m.peekNested v path = .ok w) : m.heap.Managed [w] := by
  induction path generalizing v with
  | nil =>
    rw [peekNested] at hpeek
    rwa [← Except.ok.inj hpeek]
  | cons cell rest ih =>
    rw [peekNested] at hpeek
    split at hpeek
    · rename_i inner hinner
      refine ih ?_ hpeek
      unfold peek at hinner
      split at hinner
      · split at hinner
        · cases hinner
        · rename_i k b hb
          obtain ⟨a, ha, hb⟩ := Option.bind_eq_some_iff.1 hb
          split at hinner
          · rename_i content hcell
            obtain rfl := Except.ok.inj hinner
            obtain ⟨S, hr, hvs⟩ := hv.region
            refine hr.managed fun u hu => ?_
            rw [List.mem_singleton.1 hu]
            exact hr.cells a b _ (hvs _ (List.mem_singleton_self _) a ha) hb (Rows.mem_cells_of_cell? hcell)
          · cases hinner
      · cases hinner
    · cases hpeek

namespace Exec
variable {strict : Prop}

theorem safe_push {v : Value} (hnull : v.target? = none) (hplain : v.isRooted = false) : Safe (push v) := by
  intro strict hand kept c hc
  refine moves_push v strict hand kept c ⟨?_, hc.world⟩
  exact (hc.custody.add_null hnull hplain).perm_free List.perm_middle.symm

/-! ### Arithmetic and comparison -/

theorem safe_binary (op : Operator) : Safe (binary op) := by
  refine moves_pop.bind fun right strict hand kept => ?_
  refine Triple.thenDrop (R := fun c => c.Sound strict ([right] ++ hand) kept) ?_ fun c hc => hc.release [right]
  refine (finds_topSlot strict ([right] ++ hand) kept).bind fun slot c hc => ?_
  exact triple_operateSlot op slot right _ kept c ⟨hc.1.offers (Or.inl (by simp)), hc⟩

theorem safe_compare (test : Value → Value → Except Fault Bool) : Safe (compare test) := by
  refine moves_pop.bind fun right => Moves.bind (Moves.orDrop moves_pop) fun left => ?_
  exact (moves_drop [left, right]).bind fun _ => (safe_ofExcept _).bind fun b => safe_setCondition b

theorem safe_logical (connective : Bool → Bool → Bool) : Safe (logical connective) :=
  (safe_popCoerced .bool).bind fun _ => (safe_popCoerced .bool).bind fun _ => safe_push rfl rfl

theorem invert_ok {v inverted : Value} (h : v.invert = .ok inverted) :
    v.target? = none ∧ inverted.target? = none ∧ inverted.isRooted = false := by
  cases v <;> first | (obtain rfl := Except.ok.inj h; exact ⟨rfl, rfl, rfl⟩) | cases h

theorem safe_invertTop : Safe invertTop := by
  intro strict hand kept
  refine (finds_topSlot strict hand kept).bind fun slot c hc => ?_
  refine Triple.bind (moves_updateSlot [] (P := fun _ => True) (fun c old free _ hcustody => ?_) _)
    (fun r => safe_ofExcept r strict hand kept) c ⟨trivial, hc⟩
  cases hinvert : old.invert with
  | error f => exact hcustody
  | ok inverted =>
    obtain ⟨hold, hnull, hplain⟩ := invert_ok hinvert
    exact (hcustody.forget hold).add_null hnull hplain

/-! ### Locals -/

theorem safe_openLocals (count : UInt32) : Safe (openLocals count) := by
  intro strict hand kept c hc
  refine ⟨?_, hc.world⟩
  have hnulls : ∀ v ∈ Value.uint c.executor.base.toUInt64 :: List.replicate count.toNat .undefined,
      v.target? = none ∧ v.isRooted = false := by
    intro v hv
    rcases List.mem_cons.1 hv with rfl | hv
    · exact ⟨rfl, rfl⟩
    · rw [List.eq_of_mem_replicate hv]
      exact ⟨rfl, rfl⟩
  refine (hc.custody.add_nulls hnulls).perm_free ?_
  rw [← List.append_assoc]
  refine (List.perm_append_comm.append_right hand).trans (List.Perm.of_eq ?_)
  simp [Executor.push]

theorem Finds.orDrop {x : Exec Nat} (hx : Finds x) (v : Value) (hand kept : List Value) :
    Triple (·.Sound strict (v :: hand) kept) (orDrop [v] x)
      (fun slot c => c.Sound strict (v :: hand) kept ∧ slot < c.executor.stack.size) (·.Sound strict hand kept) :=
  (hx strict (v :: hand) kept).orDrop fun _ hc => Core.Sound.release [v] hc

theorem moves_storeLocal (index : UInt32) (v : Value) : Moves [v] (storeLocal index v) fun _ => [] := by
  intro strict hand kept
  refine ((finds_localSlot index).orDrop v hand kept).bind fun slot c hc => ?_
  have hupdate : Triple (fun c => True ∧ c.Sound strict ([v] ++ hand) kept ∧ slot < c.executor.stack.size)
      (updateSlot slot fun m old => ((), v, m.release [old])) (fun _ c => c.Sound strict hand kept)
      (·.Sound strict hand kept) :=
    moves_updateSlot [v] (fun c old free _ hcustody => hcustody.release [old]) _
  exact hupdate c ⟨trivial, hc⟩

theorem moves_storeLocalCell (index : UInt32) {path : List Cell} (hpath : path ≠ []) (v : Value) :
    Moves [v] (storeLocalCell index path v) fun _ => [] := by
  intro strict hand kept
  refine ((finds_localSlot index).orDrop v hand kept).bind fun slot c hc => ?_
  rw [run_get]
  have hupdate : ∀ copy, Triple (fun c => True ∧ c.Sound strict ([v] ++ hand) kept ∧ slot < c.executor.stack.size)
      (updateSlot slot fun m old => ((), m.storeNested old path v copy none)) (fun _ c => c.Sound strict hand kept)
      (·.Sound strict hand kept) := fun copy =>
    moves_updateSlot [v] (fun c old free _ hcustody => hcustody.storeNested hpath copy) _
  exact hupdate _ c ⟨trivial, hc⟩

theorem uses_loadCell (v : Value) (path : List Cell) : Uses v (loadCell v path) fun _ => [] := by
  rintro strict hand kept c ⟨hc, hheld, hmanaged⟩
  unfold loadCell
  rw [run_get]
  cases hpeek : c.memory.peekNested v path with
  | error f => exact hc
  | ok w =>
    have hoffers : c.OffersIf strict w :=
      ⟨Memory.holds_peekNested hc.custody.supports hheld hpeek,
        fun hstrict => Memory.managed_peekNested (hmanaged hstrict) hpeek⟩
    exact uses_pushShared w strict hand kept c ⟨hc, hoffers⟩

/-! ### The operand stack -/

theorem offers_retain {c : Core} {w : Value} (hw : c.OffersIf strict w) (v : Value) :
    ({ c with memory := c.memory.retain v } : Core).OffersIf strict w :=
  ⟨hw.1.mono (Heap.sameRows_retain c.memory.heap v).keeps,
    fun hstrict => Memory.Custody.managed_retain (hw.2 hstrict) v⟩

theorem triple_pushShared (vs : List Value) (hand kept : List Value) :
    Triple (fun c => c.Sound strict hand kept ∧ ∀ v ∈ vs, c.OffersIf strict v) (vs.forM pushShared)
      (fun _ c => c.Sound strict hand kept) (·.Sound strict hand kept) := by
  have hall : Triple (fun c => c.Sound strict hand kept ∧ ∀ v ∈ vs, c.OffersIf strict v) (vs.forM pushShared)
      (fun _ c => c.Sound strict hand kept ∧ ∀ v ∈ vs, c.OffersIf strict v) (·.Sound strict hand kept) := by
    refine Triple.forM fun v hv c hc => ?_
    refine ⟨uses_pushShared v strict hand kept c ⟨hc.1, hc.2 v hv⟩, fun w hw => ?_⟩
    exact offers_retain (hc.2 w hw) v
  exact hall.mono (fun _ hc => hc) (fun _ _ hc => hc.1) fun _ hc => hc

theorem safe_duplicate (count : Nat) : Safe (duplicate count) := by
  intro strict hand kept c hc
  rw [duplicate_eq]
  split_ifs
  · exact hc
  · refine triple_pushShared _ hand kept c ⟨hc, fun v hv => ?_⟩
    exact hc.offers (Or.inl (List.mem_append_left _ (List.mem_of_mem_drop hv)))

theorem safe_duplicateAt (depth : Nat) : Safe (duplicateAt depth) := by
  intro strict hand kept c hc
  unfold duplicateAt
  rw [run_get]
  cases hv : c.executor.peek depth with
  | error f => exact hc
  | ok v =>
    obtain ⟨hdepth, rfl⟩ := Executor.peek_eq_ok hv
    refine uses_pushShared _ strict hand kept c ⟨hc, hc.offers (Or.inl (List.mem_append_left _ ?_))⟩
    exact Array.getElem_mem_toList (by omega)

theorem safe_deleteAt (depth : Nat) : Safe (deleteAt depth) := by
  intro strict hand kept c hc
  rw [deleteAt_eq]
  cases hv : c.executor.peek depth with
  | error f => exact hc
  | ok v =>
    obtain ⟨hdepth, hget⟩ := Executor.peek_eq_ok hv
    have hslot : c.executor.stack.size - 1 - depth < c.executor.stack.size := by omega
    refine Core.Sound.release (c := { c with executor := { c.executor with
      stack := c.executor.stack.eraseIdxIfInBounds (c.executor.stack.size - 1 - depth) } }) [v] ⟨?_, hc.world⟩
    refine hc.custody.perm_free ?_
    have hp := (List.getElem_cons_eraseIdx_perm (l := c.executor.stack.toList) hslot).symm
    rw [Array.getElem_toList, hget] at hp
    refine (hp.append_right hand).trans ?_
    rw [← Array.toList_eraseIdxIfInBounds]
    exact List.perm_middle.symm

theorem safe_swap : Safe swap := by
  intro strict hand kept c hc
  rw [swap_eq]
  split_ifs with hsize
  · exact hc
  · refine ⟨hc.custody.perm_free (List.Perm.append_right hand ?_), hc.world⟩
    have hlast : c.executor.stack.size - 1 < c.executor.stack.size := by omega
    have hsecond : c.executor.stack.size - 2 < c.executor.stack.size := by omega
    dsimp only
    rw [Array.swapIfInBounds_def, dif_pos hlast, dif_pos hsecond]
    exact (Array.perm_iff_toList_perm.1 (Array.swap_perm hlast hsecond)).symm

theorem safe_pushInstance (id : Option InstanceId) : Safe (pushInstance id) := safe_push rfl rfl

theorem gives_newArray : Moves [] (modifyGet fun c =>
    let (v, memory) := c.memory.ensureArray .undefined none
    (v, { c with memory }) : Exec Value) fun v => [v] := by
  intro strict hand kept c hc
  rcases hopen : c.memory.openForWrite .undefined false none with ⟨a, v, m⟩
  have hnull : c.memory.Custody strict (.undefined :: (c.executor.stack.toList ++ hand)) c.world.slots kept :=
    hc.custody.add_null rfl rfl
  have hensure : c.memory.ensureArray .undefined none = (v, m) := by
    rw [Memory.ensureArray, hopen]
  change Core.Sound strict { c with memory := (c.memory.ensureArray .undefined none).2 }
    ([(c.memory.ensureArray .undefined none).1] ++ hand) kept
  rw [hensure]
  exact ⟨(hnull.openForWrite hopen).perm_free List.perm_middle.symm, hc.world⟩

/-! ### Iteration and branches -/

theorem saved_plain (id : Option InstanceId) :
    (Executor.saved id).target? = none ∧ (Executor.saved id).isRooted = false := by
  cases id <;> exact ⟨rfl, rfl⟩

theorem safe_openIteration (owner : Owner) : Safe (openIteration owner) := by
  intro strict hand kept c hc
  refine ⟨?_, hc.world⟩
  have hnulls : ∀ v ∈ [Executor.saved c.executor.other, .uint c.executor.iterations.size.toUInt64],
      v.target? = none ∧ v.isRooted = false := by
    intro v hv
    rcases List.mem_cons.1 hv with rfl | hv
    · exact saved_plain _
    · rw [List.mem_singleton.1 hv]
      exact ⟨rfl, rfl⟩
  refine (hc.custody.add_nulls hnulls).perm_free ?_
  rw [← List.append_assoc]
  refine (List.perm_append_comm.append_right hand).trans (List.Perm.of_eq ?_)
  simp [Executor.push, Executor.enterScope]

theorem safe_closeIteration : Safe closeIteration := by
  refine moves_pop.bind fun v => (moves_drop [v]).bind fun _ => safe_leaveScope.bind fun _ => ?_
  exact safe_modify fun _ => ⟨rfl, rfl, rfl⟩

theorem safe_advanceIteration : Safe advanceIteration := by
  refine safe_get.bind fun c => (safe_ofExcept _).bind fun top => (safe_ofExcept _).bind fun index => ?_
  refine safe_get.bind fun c => ?_
  split
  · exact safe_throw _
  · split
    · exact safe_modify fun _ => ⟨rfl, rfl, rfl⟩
    · exact safe_closeIteration.bind fun _ => safe_setCondition true

theorem safe_branch (target : Int32) : Safe (branch target) := by
  intro strict hand kept c hc
  unfold branch
  cases Cursor.seek target c.executor.pc with
  | ok u pc => exact hc.same rfl rfl rfl
  | error e pc => exact hc

/-! ### Stores and loads -/

theorem safe_operands (mode : Mode) (cells : Nat) : Safe (mode.operands cells) := by
  have hpath := safe_popPath cells
  cases mode with
  | slot index => exact hpath.bind fun path => safe_pure _
  | self id => exact hpath.bind fun path => safe_get.bind fun c => safe_pure _
  | owner id => exact safe_popOwner.bind fun owner => hpath.bind fun path => safe_pure _
  | global id => exact hpath.bind fun path => safe_pure _

theorem moves_store (target : Target) (path : List Cell) (v : Value) : Moves [v] (target.store path v) fun _ => [] := by
  cases target with
  | slot index =>
    by_cases hpath : path = []
    · subst hpath
      exact moves_storeLocal index v
    · exact moves_storeLocalCell index hpath v
  | owned owner id =>
    unfold Target.store
    dsimp only
    split_ifs with hpath
    · exact moves_storeVariable owner id v
    · exact moves_storeVariableCell owner id hpath v

theorem lends_load (target : Target) : Lends target.load := by
  cases target with
  | slot index => exact lends_localValue index
  | owned owner id => exact lends_loadVariable owner id

theorem safe_builtinOwner (owned : Bool) : Safe (builtinOwner owned) := by
  cases owned with
  | true => exact safe_popOwner
  | false => exact safe_get.bind fun _ => safe_pure _

theorem safe_builtinCell? (celled : Bool) : Safe (builtinCell? celled) := by
  cases celled with
  | true => exact safe_popCell.bind fun _ => safe_pure _
  | false => exact safe_pure _

/-! ### Instructions that stay in their section -/

/-- Only a store into a built-in variable puts an array where the collector cannot find it. -/
theorem safe_form {f : Form} (h : ∀ owned celled id, f ≠ .storeBuiltin owned celled id) : Safe f.effect := by
  cases f with
  | constant v hv => exact safe_push (Value.target?_of_not_array hv) (Value.isRooted_of_not_array hv)
  | self | other => exact safe_get.bind fun _ => safe_pushInstance _
  | newArray => exact gives_newArray.bind fun v => moves_push v
  | adjustTop op => exact finds_topSlot.operate op rfl
  | adjustLocal op index => exact (finds_localSlot index).operate op rfl
  | binary op => exact safe_binary op
  | relate _ | equal | unequal => exact safe_compare _
  | logical connective => exact safe_logical connective
  | invert => exact safe_invertTop
  | test g => exact (safe_popCoerced .bool).bind fun b => safe_setCondition _
  | condition => exact safe_get.bind fun _ => safe_push rfl rfl
  | copying b => exact safe_modify fun _ => ⟨rfl, rfl, rfl⟩
  | openLocals count => exact safe_openLocals count
  | store mode cells =>
    exact moves_pop.bind fun v => Moves.bind (Moves.orDrop (safe_operands mode cells)) fun operands =>
      moves_store operands.1 operands.2 v
  | load mode cells =>
    exact (safe_operands mode cells).bind fun operands => (lends_load operands.1).bind fun v =>
      uses_loadCell v operands.2
  | storeBuiltin owned celled id => exact absurd rfl (h owned celled id)
  | loadBuiltin owned celled id =>
    exact (safe_builtinOwner owned).bind fun owner => (safe_builtinCell? celled).bind fun cell? =>
      (lends_loadBuiltin owner id cell?).bind uses_pushShared
  | discard => exact moves_pop.bind fun v => moves_drop [v]
  | duplicate count => exact safe_duplicate count
  | duplicateAt depth => exact safe_duplicateAt depth.toNat
  | deleteAt depth => exact safe_deleteAt depth.toNat
  | swap => exact safe_swap
  | openIteration => exact safe_popOwner.bind fun _ => safe_openIteration _
  | advanceIteration => exact safe_advanceIteration
  | closeIteration => exact safe_closeIteration
  | branch target => exact safe_branch target
  | branchIf target =>
    refine safe_get.bind fun c => ?_
    split_ifs
    · exact safe_branch target
    · exact safe_pure ()
  | endOfUnit => exact safe_throw _
  | nothing => exact safe_pure ()

theorem Safe.checked {α : Type} {x : Exec α} (hx : Safe x) (hand kept : List Value) :
    Triple (·.Sound strict hand kept) x (fun _ => Checked strict hand kept) (Checked strict hand kept) :=
  (hx strict hand kept).mono (fun _ hc => hc) (fun _ _ => Or.inl) fun _ => Or.inl

theorem Moves.checked_bind {α : Type} {ins : List Value} {x : Exec α} {mid : α → List Value} {f : α → Exec Unit}
    {hand kept : List Value} (hx : Moves ins x mid)
    (hf : ∀ a, Triple (·.Sound strict (mid a ++ hand) kept) (f a) (fun _ => Checked strict hand kept)
      (Checked strict hand kept)) :
    Triple (·.Sound strict (ins ++ hand) kept) (x >>= f) (fun _ => Checked strict hand kept)
      (Checked strict hand kept) :=
  Triple.bind ((hx strict hand kept).mono (fun _ hc => hc) (fun _ _ hc => hc) fun _ => Or.inl) hf

theorem checked_effect (i : Instruction) (hand kept : List Value) :
    Triple (·.Sound strict hand kept) i.effect (fun _ => Checked strict hand kept) (Checked strict hand kept) := by
  rw [i.effect_form]
  by_cases hstore : ∃ owned celled id, i.form = .storeBuiltin owned celled id
  · obtain ⟨owned, celled, id, hform⟩ := hstore
    rw [hform]
    refine moves_pop.checked_bind fun v => (Moves.orDrop (safe_builtinOwner owned)).checked_bind fun owner => ?_
    refine (Moves.orDrop (safe_builtinCell? celled)).checked_bind fun cell? => ?_
    exact triple_storeBuiltin owner id cell? v hand kept
  · exact (safe_form fun owned celled id hform => hstore ⟨owned, celled, id, hform⟩).checked hand kept

end Exec
end ScriptVm
