import ScriptVm.Proofs.Writing
import ScriptVm.Proofs.Building

/-! What values stand for in a heap without cycles: trees. No array of such a heap contains itself, so
unfolding meets no back reference and does not depend on the path; and a tree changes only if data
that its value reaches does. -/

namespace ScriptVm

namespace Tree

mutual

def mapNotes {α β : Type} (f : α → β) : Tree α → Tree β
  | .scalar v => .scalar v
  | .null note => .null (f note)
  | .back note => .back (f note)
  | .array note rows => .array (f note) (mapRows f rows)

def mapRows {α β : Type} (f : α → β) : List (List (Tree α)) → List (List (Tree β))
  | [] => []
  | row :: rows => mapCells f row :: mapRows f rows

def mapCells {α β : Type} (f : α → β) : List (Tree α) → List (Tree β)
  | [] => []
  | cell :: cells => cell.mapNotes f :: mapCells f cells

end

theorem mapCells_eq {α β : Type} (f : α → β) (cells : List (Tree α)) :
    mapCells f cells = cells.map (mapNotes f) := by
  induction cells with
  | nil => rfl
  | cons cell cells ih => rw [mapCells, ih, List.map_cons]

theorem mapRows_eq {α β : Type} (f : α → β) (rows : List (List (Tree α))) :
    mapRows f rows = rows.map fun row => row.map (mapNotes f) := by
  induction rows with
  | nil => rfl
  | cons row rows ih => rw [mapRows, mapCells_eq, ih, List.map_cons]

end Tree

namespace Heap
variable {h h' : Heap}

def tree (h : Heap) (v : Value) : Tree Unit := h.unfold (fun _ => ()) v

def PointsTo (h : Heap) (a x : Address) : Prop :=
  ∃ b, h.block? a = some b ∧ ∃ v ∈ b.cells, v.target? = some x

/-- A rank that falls from every array to those in its cells. -/
def Ranked (h : Heap) (rank : Address → Nat) : Prop := ∀ a x, h.PointsTo a x → rank x < rank a

def Acyclic (h : Heap) : Prop := ∃ rank, h.Ranked rank

theorem Acyclic.not_self (ha : h.Acyclic) (a : Address) : ¬ Relation.TransGen h.PointsTo a a := by
  obtain ⟨rank, hrank⟩ := ha
  have hfalls : ∀ {a x}, Relation.TransGen h.PointsTo a x → rank x < rank a := by
    intro a x hpath
    induction hpath with
    | single hstep => exact hrank _ _ hstep
    | tail _ hstep ih => exact (hrank _ _ hstep).trans ih
  intro hloop
  exact lt_irrefl _ (hfalls hloop)

theorem Acyclic.of_rows (ha : h.Acyclic)
    (hrows : ∀ x b', h'.block? x = some b' → ∃ b, h.block? x = some b ∧ b'.rows = b.rows) : h'.Acyclic := by
  obtain ⟨rank, hrank⟩ := ha
  refine ⟨rank, fun a x hstep => ?_⟩
  obtain ⟨b', hb', v, hv, hx⟩ := hstep
  obtain ⟨b, hb, heq⟩ := hrows a b' hb'
  refine hrank a x ⟨b, hb, v, ?_, hx⟩
  rwa [Block.cells_eq, ← heq]

theorem Acyclic.of_isolated (ha : h.Acyclic) {vs : List Value} (hs : h'.Supports vs) {a : Address}
    (hinner : h'.innerHandles a = 0)
    (hrows : ∀ x b', x ≠ a → h'.block? x = some b' → ∃ b, h.block? x = some b ∧ b'.rows = b.rows) :
    h'.Acyclic := by
  obtain ⟨rank, hrank⟩ := ha
  set top := ((List.range h'.blocks.size).map rank).sum with htop
  have hbound : ∀ x < h'.blocks.size, rank x ≤ top := by
    intro x hx
    exact List.single_le_sum (by simp) _ (List.mem_map_of_mem (List.mem_range.2 hx))
  refine ⟨fun x => if x = a then top + 1 else rank x, fun y x hstep => ?_⟩
  obtain ⟨b', hb', v, hv, hx⟩ := hstep
  have hne : x ≠ a := by
    rintro rfl
    have hpos := innerHandles_pos hb' hv hx
    omega
  simp only [hne, if_false]
  split_ifs with hy
  · obtain ⟨bx, hbx⟩ := hs.cell_alive hb' hv hx
    have hle := hbound x (lt_of_block? hbx)
    omega
  · obtain ⟨b, hb, heq⟩ := hrows y b' hy hb'
    refine hrank y x ⟨b, hb, v, ?_, hx⟩
    rwa [Block.cells_eq, ← heq]

/-! ### Unfolding -/

theorem unfoldFrom_scalar {α : Type} (note : Handle → α) (path : List Address) {v : Value}
    (hv : v.isArray = false) : h.unfoldFrom note path v = .scalar v := by
  cases v with
  | array handle => cases hv
  | _ => rw [unfoldFrom]; simp

theorem unfoldFrom_null {α : Type} (note : Handle → α) (path : List Address) {handle : Handle}
    (ht : handle.target = none) : h.unfoldFrom note path (.array handle) = .null (note handle) := by
  rw [unfoldFrom]
  split
  · rfl
  · rename_i a ha
    rw [ht] at ha
    cases ha

theorem unfoldFrom_array {α : Type} (note : Handle → α) {path : List Address} {handle : Handle}
    {a : Address} {b : Block} (ht : handle.target = some a) (hpath : a ∉ path)
    (hb : h.block? a = some b) :
    h.unfoldFrom note path (.array handle) = .array (note handle) (b.rows.toList.map fun row =>
      row.toList.map fun cell => h.unfoldFrom note (a :: path) cell) := by
  obtain ⟨hin, hget⟩ := Array.getElem?_eq_some_iff.1 (block?_eq_some_iff.1 hb)
  rw [unfoldFrom]
  split
  · rename_i hnone
    rw [ht] at hnone
    cases hnone
  · rename_i a' ha'
    obtain rfl := Option.some.inj (ht.symm.trans ha')
    rw [dif_pos hpath, dif_pos hin]
    split
    · rename_i hnone
      rw [hget] at hnone
      cases hnone
    · rename_i b' hb'
      obtain rfl := Option.some.inj (hget.symm.trans hb')
      rfl

theorem unfoldFrom_gone {α : Type} (note : Handle → α) {path : List Address} {k : Handle}
    {a : Address} (ht : k.target = some a) (hpath : a ∉ path) (hb : h.block? a = none) :
    h.unfoldFrom note path (.array k) = .null (note k) := by
  rw [unfoldFrom]
  split
  · rfl
  · rename_i a' ha'
    obtain rfl := Option.some.inj (ht.symm.trans ha')
    rw [dif_pos hpath]
    split_ifs with hin
    · split
      · rfl
      · rename_i b hb'
        rw [block?_eq_some_iff.2 (Array.getElem?_eq_some_iff.2 ⟨hin, hb'⟩)] at hb
        cases hb
    · rfl

theorem unfoldFrom_back {α : Type} (note : Handle → α) {path : List Address} {k : Handle} {a : Address}
    (ht : k.target = some a) (hpath : a ∈ path) :
    h.unfoldFrom note path (.array k) = .back (note k) := by
  rw [unfoldFrom]
  split
  · rename_i hnone
    rw [ht] at hnone
    cases hnone
  · rename_i a' ha'
    obtain rfl := Option.some.inj (ht.symm.trans ha')
    rw [dif_neg (not_not_intro hpath)]

theorem mapNotes_unfoldFrom {α β : Type} (h : Heap) (f : α → β) (note : Handle → α)
    (path : List Address) (v : Value) :
    (h.unfoldFrom note path v).mapNotes f = h.unfoldFrom (fun k => f (note k)) path v := by
  cases v with
  | array k =>
    cases ht : k.target with
    | none => rw [unfoldFrom_null note path ht, unfoldFrom_null _ path ht, Tree.mapNotes]
    | some a =>
      by_cases hpath : a ∈ path
      · rw [unfoldFrom_back note ht hpath, unfoldFrom_back _ ht hpath, Tree.mapNotes]
      · cases hb : h.block? a with
        | none =>
          rw [unfoldFrom_gone note ht hpath hb, unfoldFrom_gone _ ht hpath hb, Tree.mapNotes]
        | some b =>
          rw [unfoldFrom_array note ht hpath hb, unfoldFrom_array _ ht hpath hb, Tree.mapNotes,
            Tree.mapRows_eq]
          simp only [List.map_map, Function.comp_def, mapNotes_unfoldFrom h f note (a :: path)]
  | _ => rw [unfoldFrom_scalar note path rfl, unfoldFrom_scalar _ path rfl, Tree.mapNotes]
termination_by h.unvisited path
decreasing_by exact unvisited_cons_lt (lt_of_block? hb) hpath

/-- Under a rank the open arrays above make no difference. -/
theorem Ranked.unfoldFrom_eq {α : Type} {rank : Address → Nat} (hrank : h.Ranked rank)
    (note : Handle → α) (n : Nat) :
    ∀ (v : Value) (path path' : List Address), (∀ x, v.target? = some x → rank x < n) →
      (∀ x, v.target? = some x → ∀ a ∈ path, rank x < rank a) →
      (∀ x, v.target? = some x → ∀ a ∈ path', rank x < rank a) →
      h.unfoldFrom note path v = h.unfoldFrom note path' v := by
  induction n with
  | zero =>
    intro v path path' hn _ _
    cases v with
    | array handle =>
      cases ht : handle.target with
      | none => rw [unfoldFrom_null note path ht, unfoldFrom_null note path' ht]
      | some a => exact absurd (hn a ht) (Nat.not_lt_zero _)
    | _ => rw [unfoldFrom_scalar note path rfl, unfoldFrom_scalar note path' rfl]
  | succ n ih =>
    intro v path path' hn hpath hpath'
    cases v with
    | array handle =>
      cases ht : handle.target with
      | none => rw [unfoldFrom_null note path ht, unfoldFrom_null note path' ht]
      | some a =>
        have hout : a ∉ path := fun hin => lt_irrefl _ (hpath a ht a hin)
        have hout' : a ∉ path' := fun hin => lt_irrefl _ (hpath' a ht a hin)
        cases hb : h.block? a with
        | none => rw [unfoldFrom_gone note ht hout hb, unfoldFrom_gone note ht hout' hb]
        | some b =>
          rw [unfoldFrom_array note ht hout hb, unfoldFrom_array note ht hout' hb]
          congr 1
          apply List.map_congr_left
          intro row hrow
          apply List.map_congr_left
          intro cell hcell
          have hfalls : ∀ x, cell.target? = some x → rank x < rank a := fun x hx =>
            hrank a x ⟨b, hb, cell, List.mem_flatMap.2 ⟨row, hrow, hcell⟩, hx⟩
          have hrank_a := hn a ht
          refine ih cell _ _ (fun x hx => ?_) (fun x hx y hy => ?_) (fun x hx y hy => ?_)
          · exact Nat.lt_of_lt_of_le (hfalls x hx) (Nat.lt_succ_iff.1 hrank_a)
          · rcases List.mem_cons.1 hy with rfl | hy
            · exact hfalls x hx
            · exact (hfalls x hx).trans (hpath a ht y hy)
          · rcases List.mem_cons.1 hy with rfl | hy
            · exact hfalls x hx
            · exact (hfalls x hx).trans (hpath' a ht y hy)
    | _ => rw [unfoldFrom_scalar note path rfl, unfoldFrom_scalar note path' rfl]

theorem tree_scalar {v : Value} (hv : v.isArray = false) : h.tree v = .scalar v :=
  unfoldFrom_scalar _ [] hv

theorem tree_null {k : Handle} (ht : k.target = none) : h.tree (.array k) = .null () :=
  unfoldFrom_null _ [] ht

theorem tree_array (ha : h.Acyclic) {v : Value} {a : Address} {b : Block} (ht : v.target? = some a)
    (hb : h.block? a = some b) :
    h.tree v = .array () (b.rows.toList.map fun row => row.toList.map h.tree) := by
  obtain ⟨rank, hrank⟩ := ha
  cases v with
  | array handle =>
    rw [tree, unfold, unfoldFrom_array _ ht (List.not_mem_nil) hb]
    congr 1
    apply List.map_congr_left
    intro row hrow
    apply List.map_congr_left
    intro cell hcell
    have hfalls : ∀ x, cell.target? = some x → rank x < rank a := fun x hx =>
      hrank a x ⟨b, hb, cell, List.mem_flatMap.2 ⟨row, hrow, hcell⟩, hx⟩
    refine hrank.unfoldFrom_eq _ (rank a) cell [a] [] hfalls (fun x hx y hy => ?_) (by simp)
    rw [List.mem_singleton.1 hy]
    exact hfalls x hx
  | _ => cases ht

theorem tree_share (ha : h.Acyclic) (v : Value) : h.tree v.share = h.tree v := by
  cases v with
  | array handle =>
    have hshare : (Value.array handle).share = .array handle.share := rfl
    rw [hshare]
    cases ht : handle.target with
    | none => rw [tree_null (k := handle.share) ht, tree_null ht]
    | some a =>
      cases hb : h.block? a with
      | none =>
        rw [tree, unfold, unfoldFrom_gone _ (k := handle.share) ht (List.not_mem_nil) hb, tree, unfold,
          unfoldFrom_gone _ ht (List.not_mem_nil) hb]
      | some b =>
        rw [tree_array (v := .array handle.share) ha ht hb, tree_array (v := .array handle) ha ht hb]
  | _ => rfl

/-- A value whose reach keeps its rows stands for the same tree. -/
theorem tree_agrees {vs us : List Value} (ha : h.Acyclic) (ha' : h'.Acyclic) (hs : h.Supports us)
    (hv : h.Holds vs) (hagrees : Agrees vs h h') {v : Value} (hmem : v ∈ vs) : h'.tree v = h.tree v := by
  obtain ⟨rank, hrank⟩ := id ha
  have halive : ∀ {a}, h.Reaches vs a → ∃ b, h.block? a = some b := by
    intro a hr
    cases hr with
    | value hw ht => exact hv _ hw _ ht
    | cell _ hb hw hx => exact hs.cell_alive hb hw hx
  have hall : ∀ n (w : Value), (∀ x, w.target? = some x → rank x < n ∧ h.Reaches vs x) →
      h'.tree w = h.tree w := by
    intro n
    induction n with
    | zero =>
      intro w hw
      cases w with
      | array handle =>
        cases ht : handle.target with
        | none => rw [tree_null ht, tree_null ht]
        | some a => exact absurd (hw a ht).1 (Nat.not_lt_zero _)
      | _ => rw [tree_scalar rfl, tree_scalar rfl]
    | succ n ih =>
      intro w hw
      cases ht : w.target? with
      | none =>
        cases w with
        | array handle => rw [tree_null ht, tree_null ht]
        | _ => rw [tree_scalar rfl, tree_scalar rfl]
      | some a =>
        obtain ⟨hlt, hr⟩ := hw a ht
        obtain ⟨b, hb⟩ := halive hr
        obtain ⟨b', hb', hrows⟩ := hagrees a b hr hb
        rw [tree_array ha' ht hb', tree_array ha ht hb, hrows]
        congr 1
        apply List.map_congr_left
        intro row hrow
        apply List.map_congr_left
        intro cell hcell
        have hin : cell ∈ b.cells := List.mem_flatMap.2 ⟨row, hrow, hcell⟩
        refine ih cell fun x hx => ⟨?_, .cell hr hb hin hx⟩
        exact Nat.lt_of_lt_of_le (hrank a x ⟨b, hb, cell, hin, hx⟩) (Nat.lt_succ_iff.1 hlt)
  cases ht : v.target? with
  | none => exact hall 0 v fun x hx => by rw [ht] at hx; cases hx
  | some a =>
    refine hall (rank a + 1) v fun x hx => ?_
    obtain rfl := Option.some.inj (ht.symm.trans hx)
    exact ⟨Nat.lt_succ_self _, .value hmem ht⟩

end Heap

def Tree.rows : Tree Unit → List (List (Tree Unit))
  | .array _ rows => rows
  | _ => []

namespace Heap
variable {h h' : Heap}

def treeRows (h : Heap) (rows : Rows) : List (List (Tree Unit)) :=
  rows.toList.map fun row => row.toList.map h.tree

theorem treeRows_congr {rows : Rows} (heq : ∀ w ∈ Rows.cells rows, h'.tree w = h.tree w) :
    h'.treeRows rows = h.treeRows rows := by
  apply List.map_congr_left
  intro row hrow
  apply List.map_congr_left
  intro cell hcell
  exact heq cell (List.mem_flatMap.2 ⟨row, hrow, hcell⟩)

theorem treeRows_share (ha : h.Acyclic) (rows : Rows) : h.treeRows rows.share = h.treeRows rows := by
  simp only [treeRows, Rows.share, Array.toList_map, List.map_map, Function.comp_def, tree_share ha]

theorem rows_tree (ha : h.Acyclic) {v : Value} (hv : h.Holds [v]) :
    (h.tree v).rows = h.treeRows (h.rowsOf v) := by
  cases ht : v.target? with
  | none =>
    have hnone : h.rowsOf v = #[] := by simp [rowsOf, ht]
    rw [hnone]
    cases v with
    | array handle => rw [tree_null ht]; rfl
    | _ => rw [tree_scalar rfl]; rfl
  | some a =>
    obtain ⟨b, hb⟩ := hv v (List.mem_singleton_self v) a ht
    rw [tree_array ha ht hb]
    simp [Tree.rows, treeRows, rowsOf, ht, hb]

theorem Extends.tree (he : h.Extends h') (ha : h.Acyclic) (ha' : h'.Acyclic) {us : List Value}
    (hs : h.Supports us) {w : Value} (hw : h.Holds [w]) : h'.tree w = h.tree w :=
  tree_agrees ha ha' hs hw (he.agrees [w]) (List.mem_singleton_self w)

end Heap

namespace Memory
variable {m : Memory} {vs : List Value}

theorem Opened.acyclic {copy : Bool} {h h' : Heap} {v v' : Value} {a : Address}
    (ho : Opened copy h v vs a v' h') (ha : h.Acyclic) : h'.Acyclic := by
  by_cases heq : h' = h
  · rwa [heq]
  · obtain ⟨b, hb, -, hone⟩ := ho.block
    exact ha.of_isolated ho.supports (ho.supports.sole ho.target hb (hone (Or.inr heq))).1 ho.others

theorem Opened.treeRows {copy : Bool} {h h' : Heap} {v v' : Value} {a : Address}
    (ho : Opened copy h v vs a v' h') (ha : h.Acyclic) (hs : h.Supports (v :: vs)) :
    ∃ b, h'.block? a = some b ∧ h'.treeRows b.rows = (h.tree v).rows := by
  obtain ⟨b, hb, hrows, -⟩ := ho.block
  have ha' := ho.acyclic ha
  have hv : h.Holds [v] := hs.holds.one List.mem_cons_self
  refine ⟨b, hb, ?_⟩
  have hcells : h'.treeRows (h.rowsOf v) = h.treeRows (h.rowsOf v) := by
    apply Heap.treeRows_congr
    intro w hw
    refine ho.keeps.tree ha ha' hs ?_
    cases hx : v.target?.bind h.block? with
    | none => simp [Heap.rowsOf, hx] at hw
    | some b₀ =>
      obtain ⟨x, -, hb₀⟩ := Option.bind_eq_some_iff.1 hx
      simp only [Heap.rowsOf, hx, Option.map_some, Option.getD_some] at hw
      exact (hs.holds_cells hb₀).one hw
  rw [Heap.rows_tree ha hv, ← hcells]
  rcases hrows with hrows | hrows
  · rw [hrows]
  · rw [hrows, Heap.treeRows_share ha']

end Memory
end ScriptVm
