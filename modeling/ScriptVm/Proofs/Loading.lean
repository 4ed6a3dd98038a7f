import ScriptVm.Proofs.Building
import ScriptVm.Stored.Format

/-! Loading keeps the collector's account, also when it fails: the trees that reading gives, and those
that it had completed before an error, have no handle at a leaf. -/

namespace ScriptVm

/-- No leaf leads to data. -/
def Tree.Flat {α : Type} (t : Tree α) : Prop := ∀ v ∈ t.leaves, v.target? = none

namespace Stored
variable {β γ : Type}

/-- A reader whose results are good and whose failures leave flat trees. -/
def Yields (good : β → Prop) (read : Read β) : Prop :=
  ∀ input, match read input with
    | .ok (x, _) => good x
    | .error failure => ∀ t ∈ failure.completed, t.Flat

theorem Yields.pure {good : β → Prop} {x : β} (hx : good x) : Yields good (Pure.pure x) :=
  fun _ => hx

theorem Yields.bind {good : β → Prop} {fine : γ → Prop} {read : Read β} {next : β → Read γ}
    (hread : Yields good read) (hnext : ∀ x, good x → Yields fine (next x)) :
    Yields fine (read >>= next) := by
  intro input
  have hfirst := hread input
  change match (read input).bind fun p => next p.1 p.2 with
    | .ok (x, _) => fine x
    | .error failure => ∀ t ∈ failure.completed, t.Flat
  cases hr : read input with
  | error failure =>
    rw [hr] at hfirst
    exact hfirst
  | ok p =>
    rw [hr] at hfirst
    exact hnext p.1 hfirst p.2

theorem yields_fail {good : β → Prop} (e : StreamError) : Yields good (fail e : Read β) := by
  intro input
  simp [fail]

theorem Yields.after {good : β → Prop} {read : Read β} {done : List (Tree Unit)} (hread : Yields good read)
    (hdone : ∀ t ∈ done, t.Flat) : Yields good (after done read) := by
  intro input
  have h := hread input
  unfold Stored.after
  cases hr : read input with
  | ok p =>
    rw [hr] at h
    exact h
  | error failure =>
    rw [hr] at h
    intro t ht
    rcases List.mem_append.1 ht with ht | ht
    · exact hdone t ht
    · exact h t ht

theorem yields_readSlot : Yields (fun _ => True) readSlot := by
  intro input
  unfold readSlot
  cases takeBytes? 8 input <;> simp

theorem yields_readText (size : Nat) : Yields (fun _ => True) (readText size) := by
  intro input
  unfold readText
  cases takeBytes? size input with
  | none => simp
  | some p =>
    dsimp only
    cases String.fromUTF8? ⟨p.1.toArray⟩ <;> simp

theorem yields_readTag : Yields (fun _ => True) readTag := by
  intro input
  cases input <;> simp [readTag]

theorem yields_readCanary (expected : UInt64) : Yields (fun _ => True) (readCanary expected) := by
  refine yields_readSlot.bind fun found _ => ?_
  split_ifs
  · exact Yields.pure trivial
  · exact yields_fail _

theorem yields_readCells {cell : Read (Tree Unit)} (hcell : Yields Tree.Flat cell) (count : Nat) :
    Yields (fun ts => ∀ t ∈ ts, t.Flat) (readCells cell count) := by
  induction count with
  | zero => exact Yields.pure (by simp)
  | succ count ih =>
    refine hcell.bind fun first hfirst => ?_
    refine (ih.after (by simpa using hfirst)).bind fun others hothers => ?_
    exact Yields.pure (by simpa using ⟨hfirst, hothers⟩)

theorem yields_readRows {cell : Read (Tree Unit)} (hcell : Yields Tree.Flat cell) (count : Nat) :
    Yields (fun rows => ∀ t ∈ rows.flatten, t.Flat) (readRows cell count) := by
  induction count with
  | zero => exact Yields.pure (by simp)
  | succ count ih =>
    refine yields_readSlot.bind fun size _ => ?_
    refine (yields_readCells hcell size.toNat).bind fun first hfirst => ?_
    refine (ih.after hfirst).bind fun others hothers => ?_
    refine Yields.pure fun t ht => ?_
    rw [List.flatten_cons] at ht
    exact (List.mem_append.1 ht).elim (hfirst t) (hothers t)

end Stored

namespace Tree
variable {α : Type}

theorem mem_cellLeaves {cells : List (Tree α)} {v : Value} (hv : v ∈ cellLeaves cells) :
    ∃ t ∈ cells, v ∈ t.leaves := by
  induction cells with
  | nil => simp [cellLeaves] at hv
  | cons cell cells ih =>
    rw [cellLeaves] at hv
    rcases List.mem_append.1 hv with hv | hv
    · exact ⟨cell, List.mem_cons_self, hv⟩
    · obtain ⟨t, ht, hv⟩ := ih hv
      exact ⟨t, List.mem_cons_of_mem _ ht, hv⟩

theorem mem_rowLeaves {rows : List (List (Tree α))} {v : Value} (hv : v ∈ rowLeaves rows) :
    ∃ t ∈ rows.flatten, v ∈ t.leaves := by
  induction rows with
  | nil => simp [rowLeaves] at hv
  | cons row rows ih =>
    rw [rowLeaves] at hv
    rw [List.flatten_cons]
    rcases List.mem_append.1 hv with hv | hv
    · obtain ⟨t, ht, hv⟩ := mem_cellLeaves hv
      exact ⟨t, List.mem_append_left _ ht, hv⟩
    · obtain ⟨t, ht, hv⟩ := ih hv
      exact ⟨t, List.mem_append_right _ ht, hv⟩

theorem flat_array {note : α} {rows : List (List (Tree α))} (hrows : ∀ t ∈ rows.flatten, t.Flat) :
    (Tree.array note rows).Flat := by
  intro v hv
  rw [leaves] at hv
  obtain ⟨t, ht, hv⟩ := mem_rowLeaves hv
  exact hrows t ht v hv

theorem flat_scalar {v : Value} (hv : v.target? = none) : (Tree.scalar v : Tree α).Flat := by
  intro w hw
  rw [leaves, List.mem_singleton] at hw
  rw [hw, hv]

end Tree

namespace Stored

theorem yields_readArray {cell : Read (Tree Unit)} (hcell : Yields Tree.Flat cell) :
    Yields Tree.Flat (readArray cell) := by
  refine (yields_readCanary openCanary).bind fun _ _ => ?_
  refine yields_readSlot.bind fun height _ => ?_
  refine (yields_readRows hcell height.toNat).bind fun rows hrows => ?_
  refine ((yields_readCanary closeCanary).after hrows).bind fun _ _ => ?_
  exact Yields.pure (Tree.flat_array hrows)

theorem yields_scalar {f : UInt64 → Value} (hf : ∀ n, (f n).target? = none) :
    Yields Tree.Flat (do return (Tree.scalar (f (← readSlot)) : Tree Unit)) :=
  yields_readSlot.bind fun n _ => Yields.pure (Tree.flat_scalar (hf n))

/-- A value is a scalar behind its tag, or an array whose cells nest one level less. -/
theorem yields_tagged {nesting : Nat}
    (hinner : ∀ n, nesting = n + 1 → Yields Tree.Flat (readWithin n)) :
    Yields Tree.Flat (readWithin nesting) := by
  unfold readWithin
  refine yields_readTag.bind fun tag _ => ?_
  split
  · exact yields_scalar (f := fun _ => .undefined) fun _ => rfl
  · exact yields_scalar fun _ => rfl
  · exact yields_scalar fun _ => rfl
  · exact yields_scalar fun _ => rfl
  · exact yields_scalar fun _ => rfl
  · refine yields_readSlot.bind fun n _ => (yields_readText n.toNat).bind fun text _ => ?_
    exact Yields.pure (Tree.flat_scalar rfl)
  · cases nesting with
    | zero => exact yields_fail _
    | succ n => exact yields_readArray (hinner n rfl)
  · exact yields_scalar fun _ => rfl
  · exact yields_fail _

theorem yields_readWithin (nesting : Nat) : Yields Tree.Flat (readWithin nesting) := by
  induction nesting with
  | zero => exact yields_tagged fun n hn => absurd hn (Nat.succ_ne_zero n).symm
  | succ nesting ih =>
    apply yields_tagged
    intro n hn
    obtain rfl := Nat.succ.inj hn
    exact ih

end Stored

namespace Memory
variable {covering exact counted : Prop} {m : Memory} {c : Collector Tracked} {hands : List Hand}

theorem holds_of_flat {α : Type} {t : Tree α} (ht : t.Flat) (h : Heap) : h.Holds t.leaves := by
  intro v hv a ha
  rw [ht v hv] at ha
  cases ha

theorem load_ok_eq {input rest : List UInt8} {v : Value} (hload : (m.load input).1 = .ok (v, rest)) :
    ∃ t : Tree Unit, t.Flat ∧ t.build (fun _ => true) m = (v, (m.load input).2) := by
  have hparse := Stored.yields_readWithin Stored.maxNesting input
  unfold load Stored.parse at hload ⊢
  cases hr : Stored.readWithin Stored.maxNesting input with
  | error failure =>
    rw [hr] at hload
    cases hload
  | ok p =>
    rw [hr] at hload hparse
    obtain ⟨rfl, -⟩ := Prod.mk.inj (Except.ok.inj hload)
    exact ⟨p.1, hparse, rfl⟩

/-- A load that fails builds the flat trees that were complete, and drops them. -/
theorem load_error_eq {input : List UInt8} {f : Fault} (hload : (m.load input).1 = .error f) :
    ∃ done : List (Tree Unit), (∀ t ∈ done, t.Flat) ∧ (m.load input).2 =
      (Tree.buildCells (fun _ => true) done m).2.release (Tree.buildCells (fun _ => true) done m).1 := by
  have hparse := Stored.yields_readWithin Stored.maxNesting input
  unfold load Stored.parse at hload ⊢
  cases hr : Stored.readWithin Stored.maxNesting input with
  | ok p =>
    rw [hr] at hload
    cases hload
  | error failure =>
    rw [hr] at hparse
    exact ⟨failure.completed, hparse, rfl⟩

theorem Mirrors.load_ok (hm : Mirrors covering exact counted m c hands) {input rest : List UInt8} {v : Value}
    (hload : (m.load input).1 = .ok (v, rest)) :
    ∃ c', Mirrors covering exact counted (m.load input).2 c' ((none, v) :: hands) := by
  obtain ⟨t, hflat, hbuild⟩ := load_ok_eq hload
  have hbuilt := Tree.mirrors_build (fun _ => true) t hm (holds_of_flat hflat m.heap)
  rwa [hbuild] at hbuilt

theorem Mirrors.load_error (hm : Mirrors covering exact counted m c hands) {input : List UInt8} {f : Fault}
    (hload : (m.load input).1 = .error f) :
    ∃ c', Mirrors covering exact counted (m.load input).2 c' hands := by
  obtain ⟨done, hflat, hdropped⟩ := load_error_eq hload
  have hleaves : m.heap.Holds (Tree.cellLeaves done) := by
    intro v hv a ha
    obtain ⟨t, ht, hv⟩ := Tree.mem_cellLeaves hv
    exact holds_of_flat (hflat t ht) m.heap v hv a ha
  obtain ⟨c', hbuilt⟩ := Tree.mirrors_buildCells (fun _ => true) done hm hleaves
  rw [hdropped]
  exact ⟨c', hbuilt.release fun _ => Tree.isRooted_buildCells _ done m⟩

end Memory
end ScriptVm
