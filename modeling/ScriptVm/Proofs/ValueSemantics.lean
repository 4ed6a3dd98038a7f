import ScriptVm.Proofs.Denotation
import ScriptVm.Session.Arrays

/-! Copy-on-write arrays behave like plain values: on the trees that values stand for, a private write
is a store in an immutable tree, and a write at the end of a path the stores along it. -/

namespace ScriptVm

namespace Tree

def zero : Tree Unit := .scalar (.real .zero)

def cell? (rows : List (List (Tree Unit))) (cell : Cell) : Option (Tree Unit) :=
  rows[cell.1]?.bind (·[cell.2]?)

/-- A copy of the rows with one cell replaced. The copy is high and its row long enough for the cell,
what it has beyond the old rows is zero, and all else is unchanged. -/
def storeRows (rows : List (List (Tree Unit))) (cell : Cell) (new : Tree Unit) :
    List (List (Tree Unit)) :=
  (List.range (max rows.length (cell.1 + 1))).map fun i =>
    let row := rows.getD i []
    (List.range (if i = cell.1 then max row.length (cell.2 + 1) else row.length)).map fun j =>
      if i = cell.1 ∧ j = cell.2 then new else row.getD j zero

def store (t : Tree Unit) (cell : Cell) (new : Tree Unit) : Tree Unit :=
  .array () (storeRows t.rows cell new)

/-- The content of a cell; one that does not exist yet counts as zero. -/
def content (t : Tree Unit) (cell : Cell) : Tree Unit := (cell? t.rows cell).getD zero

def storeNested (t : Tree Unit) : List Cell → Tree Unit → Tree Unit
  | [], new => new
  | cell :: rest, new => t.store cell ((t.content cell).storeNested rest new)

def peek (t : Tree Unit) (cell : Cell) : Except Fault (Tree Unit) :=
  match t with
  | .scalar _ | .back _ => .error .notAnArray
  | .null _ => .error (.outOfBounds cell.1 cell.2 0 0)
  | .array _ rows =>
    match cell? rows cell with
    | some content => .ok content
    | none =>
      .error (.outOfBounds cell.1 cell.2 rows.length ((rows[cell.1]?.map List.length).getD 0))

def peekNested (t : Tree Unit) : List Cell → Except Fault (Tree Unit)
  | [] => .ok t
  | cell :: rest =>
    match t.peek cell with
    | .ok inner => inner.peekNested rest
    | .error e => .error e

/-- The tree with data: what is no array with data gives way to an empty one. -/
def ensure (t : Tree Unit) : Tree Unit := .array () t.rows

end Tree

namespace Rows

theorem getElem?_set_grow (rows : Rows) (cell : Cell) (v : Value) (i : Nat) :
    (set (rows.grow cell.1 cell.2) cell.1 cell.2 v)[i]? =
      if i = cell.1 then some ((growRow (rows[i]?.getD #[]) (cell.2 + 1)).setIfInBounds cell.2 v)
      else if i < max rows.size (cell.1 + 1) then some (rows[i]?.getD #[]) else none := by
  rw [set, grow, Array.getElem?_modify, Array.getElem?_modify]
  by_cases hi : cell.1 = i
  · subst hi
    rw [if_pos rfl, if_pos rfl, if_pos rfl, getElem?_extend]
    rfl
  · rw [if_neg hi, if_neg hi, if_neg (Ne.symm hi)]
    by_cases hin : i < rows.size
    · rw [Array.getElem?_append_left hin, Array.getElem?_eq_getElem hin, if_pos (by omega)]
      rfl
    · rw [Array.getElem?_append_right (by omega), Array.getElem?_replicate,
        Array.getElem?_eq_none (Nat.le_of_not_lt hin)]
      split_ifs <;> first | rfl | omega

end Rows

namespace Heap
variable {h : Heap}

theorem tree_zero (h : Heap) : h.tree (.real .zero) = Tree.zero := tree_scalar rfl

theorem treeRow_set (h : Heap) (row : Array Value) (col : Nat) (v : Value) :
    ((growRow row (col + 1)).setIfInBounds col v).toList.map h.tree =
      (List.range (max row.size (col + 1))).map fun j =>
        if j = col then h.tree v else (row.toList.map h.tree).getD j Tree.zero := by
  apply List.ext_getElem?
  intro j
  have hsize : (growRow row (col + 1)).size = max row.size (col + 1) := by
    simp only [growRow, Array.size_append, Array.size_replicate]
    omega
  by_cases hj : j < max row.size (col + 1)
  · simp only [List.getElem?_map, Array.getElem?_toList, Array.getElem?_setIfInBounds, hsize,
      List.getElem?_range hj, Option.map_some]
    by_cases hcol : col = j
    · simp [hcol]
    · simp only [hcol, Ne.symm hcol, if_false, growRow]
      by_cases hin : j < row.size
      · simp [Array.getElem?_append_left, hin]
      · rw [Array.getElem?_append_right (by omega), Array.getElem?_replicate, if_pos (by omega)]
        simp [hin, tree_zero]
  · rw [List.getElem?_eq_none, List.getElem?_eq_none]
    · simpa using hj
    · simpa [hsize] using hj

/-- A write in memory is a store in the tree. -/
theorem treeRows_set (h : Heap) (rows : Rows) (cell : Cell) (v : Value) :
    h.treeRows (Rows.set (rows.grow cell.1 cell.2) cell.1 cell.2 v) =
      Tree.storeRows (h.treeRows rows) cell (h.tree v) := by
  have hlength : (h.treeRows rows).length = rows.size := by simp [treeRows]
  have hrow : ∀ i, (h.treeRows rows).getD i [] = (rows[i]?.getD #[]).toList.map h.tree := by
    intro i
    rw [List.getD_eq_getElem?_getD, treeRows, List.getElem?_map, Array.getElem?_toList]
    cases rows[i]? <;> rfl
  apply List.ext_getElem?
  intro i
  rw [treeRows, List.getElem?_map, Array.getElem?_toList, Rows.getElem?_set_grow, Tree.storeRows,
    List.getElem?_map, hlength]
  by_cases hi : i < max rows.size (cell.1 + 1)
  · rw [List.getElem?_range hi, Option.map_some]
    simp only [hrow]
    split_ifs with hcell
    · subst hcell
      simp only [Option.map_some, treeRow_set, true_and, List.length_map, Array.length_toList]
    · rw [Option.map_some]
      congr 1
      apply List.ext_getElem?
      intro j
      by_cases hj : j < (rows[i]?.getD #[]).size
      · simp [hj, hcell]
      · rw [List.getElem?_eq_none (by simpa using hj), List.getElem?_eq_none (by simpa using hj)]
  · have hne : i ≠ cell.1 := by
      rintro rfl
      omega
    rw [if_neg hne, if_neg hi, List.getElem?_eq_none (by simpa using hi)]
    rfl

theorem cell?_treeRows (h : Heap) (rows : Rows) (cell : Cell) :
    Tree.cell? (h.treeRows rows) cell = (Rows.cell? rows cell.1 cell.2).map h.tree := by
  rw [Tree.cell?, treeRows, List.getElem?_map, Array.getElem?_toList, Rows.cell?]
  cases rows[cell.1]? with
  | none => rfl
  | some row => simp

end Heap

theorem Tree.storeRows_storeRows (rows : List (List (Tree Unit))) (cell : Cell) (first second : Tree Unit) :
    storeRows (storeRows rows cell first) cell second = storeRows rows cell second := by
  have hlength : (storeRows rows cell first).length = max rows.length (cell.1 + 1) := by simp [storeRows]
  rw [storeRows, hlength, max_eq_left (le_max_right _ _)]
  conv_rhs => rw [storeRows]
  apply List.map_congr_left
  intro i hi
  have hrow : (storeRows rows cell first).getD i [] =
      (List.range (if i = cell.1 then max (rows.getD i []).length (cell.2 + 1)
        else (rows.getD i []).length)).map fun j =>
          if i = cell.1 ∧ j = cell.2 then first else (rows.getD i []).getD j zero := by
    rw [List.getD_eq_getElem?_getD, storeRows, List.getElem?_map,
      List.getElem?_range (List.mem_range.1 hi)]
    rfl
  have hwidth : (if i = cell.1 then max ((storeRows rows cell first).getD i []).length (cell.2 + 1)
      else ((storeRows rows cell first).getD i []).length) =
      if i = cell.1 then max (rows.getD i []).length (cell.2 + 1) else (rows.getD i []).length := by
    rw [hrow, List.length_map, List.length_range]
    split_ifs <;> omega
  dsimp only
  rw [hwidth]
  apply List.map_congr_left
  intro j hj
  split_ifs with hij
  · rfl
  · rw [hrow, List.getD_eq_getElem?_getD, List.getElem?_map, List.getElem?_range (List.mem_range.1 hj)]
    simp [hij]

namespace Memory
variable {m : Memory} {vs : List Value}

section
variable {a : Address} {b : Block} {v x : Value}

theorem acyclic_putCell (hs : m.heap.Supports (x :: v :: vs)) (ha : m.heap.Acyclic)
    (hb : m.heap.block? a = some b) (hinner : m.heap.innerHandles a = 0) (hx : handlesOn a [x] = 0)
    (cell : Cell) : ((m.growAt a cell).putCell a cell x).heap.Acyclic ∧
      ((m.growAt a cell).putCell a cell x).heap.innerHandles a = 0 := by
  obtain ⟨b₁, hb₁, -, hcell⟩ := cell?_growAt hb cell
  have hput := evolves_putCell hb₁ hcell x
  have hinner₁ := ((evolves_growAt m a cell []).unforged a (Heap.lt_of_block? hb) hinner rfl).1
  have hinner₂ := (hput.unforged a (Heap.lt_of_block? hb₁) hinner₁ hx).1
  refine ⟨ha.of_isolated (supports_putCell (supports_growAt hs a cell) hb₁ hcell) hinner₂ ?_, hinner₂⟩
  intro y b' hy hb'
  refine ⟨b', ?_, rfl⟩
  simpa [putCell, growAt, hy] using hb'

/-- The others do not see the write. -/
theorem tree_putCell {w : Value} (hs : m.heap.Supports (x :: v :: vs)) (ha : m.heap.Acyclic)
    (hb : m.heap.block? a = some b) (hinner : m.heap.innerHandles a = 0) (hx : handlesOn a [x] = 0)
    (hw : m.heap.Holds [w]) (hfar : handlesOn a [w] = 0) (cell : Cell) :
    ((m.growAt a cell).putCell a cell x).heap.tree w = m.heap.tree w := by
  have hinner₁ := ((evolves_growAt m a cell []).unforged a (Heap.lt_of_block? hb) hinner rfl).1
  have hgrown : Heap.Agrees [w] m.heap (m.growAt a cell).heap :=
    Heap.agrees_modify (Heap.not_reaches_of_isolated hinner hfar) _
  have hwritten : Heap.Agrees [w] (m.growAt a cell).heap ((m.growAt a cell).putCell a cell x).heap :=
    Heap.agrees_modify (Heap.not_reaches_of_isolated hinner₁ hfar) _
  exact Heap.tree_agrees ha (acyclic_putCell hs ha hb hinner hx cell).1 hs hw (hgrown.trans hwritten)
    (List.mem_singleton_self w)

theorem handlesOn_cell (hb : m.heap.block? a = some b) (hinner : m.heap.innerHandles a = 0) {w : Value}
    (hw : w ∈ b.cells) : handlesOn a [w] = 0 := by
  rw [handlesOn_eq_zero_iff]
  intro u hu hua
  obtain rfl := List.mem_singleton.1 hu
  have hpos := Heap.innerHandles_pos hb hw hua
  omega

theorem treeRows_putCell (hs : m.heap.Supports (x :: v :: vs)) (ha : m.heap.Acyclic)
    (hb : m.heap.block? a = some b) (hinner : m.heap.innerHandles a = 0) (hx : handlesOn a [x] = 0)
    (cell : Cell) : ((m.growAt a cell).putCell a cell x).heap.treeRows
        (Rows.set (b.rows.grow cell.1 cell.2) cell.1 cell.2 x) =
      Tree.storeRows (m.heap.treeRows b.rows) cell (m.heap.tree x) := by
  rw [Heap.treeRows_set, tree_putCell hs ha hb hinner hx (hs.holds.one List.mem_cons_self) hx cell]
  congr 1
  apply Heap.treeRows_congr
  intro w hw
  exact tree_putCell hs ha hb hinner hx ((hs.holds_cells hb).one hw) (handlesOn_cell hb hinner hw) cell

theorem tree_overwrite (hs : m.heap.Supports (x :: v :: vs)) (ha : m.heap.Acyclic)
    (ht : v.target? = some a) (hb : m.heap.block? a = some b) (hinner : m.heap.innerHandles a = 0)
    (hx : handlesOn a [x] = 0) (cell : Cell) :
    ((m.growAt a cell).overwrite a cell x).heap.Acyclic ∧
      ((m.growAt a cell).overwrite a cell x).heap.tree v =
        .array () (Tree.storeRows (m.heap.treeRows b.rows) cell (m.heap.tree x)) := by
  obtain ⟨b₁, hb₁, hrows₁, hcell⟩ := cell?_growAt hb cell
  have hs₁ := supports_putCell (supports_growAt hs a cell) hb₁ hcell
  obtain ⟨ha₁, -⟩ := acyclic_putCell hs ha hb hinner hx cell
  have hb₂ := block?_putCell hb₁ cell x
  rw [heap_overwrite hb₁ hcell]
  have hsh := Heap.shrinks_release ((m.growAt a cell).putCell a cell x).heap
    [(m.growAt a cell).cellAt a cell]
  have ha₂ : (((m.growAt a cell).putCell a cell x).heap.release
      [(m.growAt a cell).cellAt a cell]).Acyclic := by
    refine ha₁.of_rows fun y b' hb' => ?_
    obtain ⟨b₀, hb₀, hrows, -⟩ := hsh.block y b' hb'
    exact ⟨b₀, hb₀, hrows⟩
  refine ⟨ha₂, ?_⟩
  have hkept := Heap.tree_agrees ha₁ ha₂ hs₁ hs₁.tail.holds (Heap.agrees_release _ hs₁) (v := v)
    List.mem_cons_self
  rw [hkept, Heap.tree_array ha₁ ht hb₂, ← treeRows_putCell hs ha hb hinner hx cell, hrows₁]
  rfl

end

theorem opened_private {v new : Value} (hs : m.heap.Supports (v :: new :: vs)) (ha : m.heap.Acyclic)
    {owner : Option NodeId} {a : Address} {v' : Value} {m₁ : Memory}
    (hopen : m.openForWrite v true owner = (a, v', m₁)) :
    ∃ b, v'.target? = some a ∧ m₁.heap.block? a = some b ∧ m₁.heap.Supports (new :: v' :: vs) ∧
      m₁.heap.Acyclic ∧ m₁.heap.innerHandles a = 0 ∧ handlesOn a [new] = 0 ∧
      m₁.heap.treeRows b.rows = (m.heap.tree v).rows ∧ m₁.heap.tree new = m.heap.tree new := by
  have ho := opened_openForWrite hs true owner
  rw [hopen] at ho
  dsimp only at ho
  have ha₁ := ho.acyclic ha
  obtain ⟨b, hb, -, hone⟩ := ho.block
  obtain ⟨b', hb', hrows⟩ := ho.treeRows ha hs
  obtain rfl := Option.some.inj (hb.symm.trans hb')
  obtain ⟨hinner, hfar⟩ := ho.supports.sole ho.target hb (hone (Or.inl rfl))
  rw [handlesOn_cons] at hfar
  refine ⟨b, ho.target, hb, ho.supports.perm (List.Perm.swap _ _ _), ha₁, hinner, ?_, hrows, ?_⟩
  · simp only [handlesOn_cons, handlesOn_nil]
    omega
  · exact ho.keeps.tree ha ha₁ hs (hs.holds.one (by simp))

theorem tree_store {v new : Value} (hs : m.heap.Supports (v :: new :: vs)) (ha : m.heap.Acyclic)
    (cell : Cell) (owner : Option NodeId) :
    (m.store v cell new true owner).2.heap.Acyclic ∧
      (m.store v cell new true owner).2.heap.tree (m.store v cell new true owner).1 =
        (m.heap.tree v).store cell (m.heap.tree new) := by
  rcases hopen : m.openForWrite v true owner with ⟨a, v', m₁⟩
  obtain ⟨b, ht, hb, hs₁, ha₁, hinner, hnew, hrows, hsame⟩ := opened_private hs ha hopen
  have hstore : (m.store v cell new true owner).1 = v' ∧
      (m.store v cell new true owner).2.heap = ((m₁.growAt a cell).overwrite a cell new).heap := by
    unfold store reachCell
    rw [hopen]
    exact ⟨rfl, rfl⟩
  rw [hstore.1, hstore.2, Tree.store, ← hrows, ← hsame]
  exact tree_overwrite hs₁ ha₁ ht hb hinner hnew cell

/-- A cell has been moved out of data that only `v` leads to. -/
structure MovedOut (m : Memory) (a : Address) (b : Block) (cell : Cell) (v new : Value) (vs : List Value)
    (inner : Value) (m' : Memory) : Prop where
  supports : m'.heap.Supports (inner :: new :: v :: vs)
  acyclic : m'.heap.Acyclic
  isolated : m'.heap.innerHandles a = 0 ∧ handlesOn a [inner, new] = 0
  hole : ∃ b', m'.heap.block? a = some b' ∧
    m'.heap.treeRows b'.rows = Tree.storeRows (m.heap.treeRows b.rows) cell (m.heap.tree .undefined)
  content : m'.heap.tree inner = (Tree.cell? (m.heap.treeRows b.rows) cell).getD Tree.zero
  same : m'.heap.tree new = m.heap.tree new

theorem movedOut {a : Address} {b : Block} {v new : Value} (hs : m.heap.Supports (new :: v :: vs))
    (ha : m.heap.Acyclic) (hb : m.heap.block? a = some b) (hinner : m.heap.innerHandles a = 0)
    (hnew : handlesOn a [new] = 0) (cell : Cell) :
    MovedOut m a b cell v new vs ((m.growAt a cell).cellAt a cell)
      ((m.growAt a cell).putCell a cell .undefined) := by
  have hs_hole : m.heap.Supports (.undefined :: v :: new :: vs) := by
    refine hs.of_le fun x => ?_
    simp only [handlesOn_cons, Value.target?, reduceCtorEq, if_false]
    omega
  obtain ⟨b₁, hb₁, hrows₁, hcell₁⟩ := cell?_growAt hb cell
  obtain ⟨ha', hinner'⟩ := acyclic_putCell hs_hole ha hb hinner rfl cell
  have hcontent : (m.growAt a cell).cellAt a cell = (Rows.cell? b.rows cell.1 cell.2).getD (.real .zero) := by
    rw [hrows₁, Rows.cell?_grow] at hcell₁
    exact (Option.some.inj hcell₁).symm
  -- the cell leads neither back to the data nor to what is gone
  have hfar : handlesOn a [(m.growAt a cell).cellAt a cell] = 0 ∧
      m.heap.Holds [(m.growAt a cell).cellAt a cell] := by
    rw [hcontent]
    cases hc : Rows.cell? b.rows cell.1 cell.2 with
    | none => exact ⟨rfl, fun w hw x hx => by rw [List.mem_singleton.1 hw] at hx; cases hx⟩
    | some w =>
      have hw := Rows.mem_cells_of_cell? hc
      exact ⟨handlesOn_cell hb hinner hw, (hs.holds_cells hb).one hw⟩
  refine ⟨supports_moved (hs.perm (List.Perm.swap _ _ _)) hb₁ hcell₁, ha', ⟨hinner', ?_⟩,
    ⟨_, block?_putCell hb₁ cell .undefined, ?_⟩, ?_, ?_⟩
  · have hfar₁ := hfar.1
    simp only [handlesOn_cons, handlesOn_nil] at hfar₁ hnew ⊢
    omega
  · rw [← treeRows_putCell hs_hole ha hb hinner rfl cell, ← hrows₁]
  · rw [tree_putCell hs_hole ha hb hinner rfl hfar.2 hfar.1 cell, hcontent, Heap.cell?_treeRows]
    cases Rows.cell? b.rows cell.1 cell.2 with
    | none => exact Heap.tree_zero m.heap
    | some w => rfl
  · exact tree_putCell hs_hole ha hb hinner rfl (hs.holds.one List.mem_cons_self) hnew cell

/-- A store at the end of a path is the store along the path of trees. -/
theorem tree_storeNested {v new : Value} (hs : m.heap.Supports (v :: new :: vs)) (ha : m.heap.Acyclic)
    (path : List Cell) (owner : Option NodeId) :
    (m.storeNested v path new true owner).2.heap.Acyclic ∧
      (m.storeNested v path new true owner).2.heap.tree (m.storeNested v path new true owner).1 =
        (m.heap.tree v).storeNested path (m.heap.tree new) := by
  induction path generalizing m v vs owner with
  | nil =>
    rw [storeNested, Tree.storeNested]
    have hsh := Heap.shrinks_release m.heap [v]
    have ha' : (m.heap.release [v]).Acyclic := by
      refine ha.of_rows fun y b' hb' => ?_
      obtain ⟨b, hb, hrows, -⟩ := hsh.block y b' hb'
      exact ⟨b, hb, hrows⟩
    exact ⟨ha', Heap.tree_agrees ha ha' hs hs.tail.holds (Heap.agrees_release [v] hs) List.mem_cons_self⟩
  | cons cell rest ih =>
    by_cases hrest : rest = []
    · subst hrest
      rw [storeNested, Tree.storeNested, Tree.storeNested]
      exact tree_store hs ha cell owner
    rcases hopen : m.openForWrite v true owner with ⟨a, v', m₁⟩
    obtain ⟨b, ht, hb, hs₁, ha₁, hinner, hnew, hrows, hsame⟩ := opened_private hs ha hopen
    -- the cell is moved out
    have hout := movedOut hs₁ ha₁ hb hinner hnew cell
    obtain ⟨inner, hinner_eq⟩ : ∃ inner, (m₁.growAt a cell).cellAt a cell = inner := ⟨_, rfl⟩
    obtain ⟨m₂, hm₂⟩ : ∃ m₂, (m₁.growAt a cell).putCell a cell .undefined = m₂ := ⟨_, rfl⟩
    rw [hinner_eq, hm₂] at hout
    obtain ⟨b₂, hb₂, hrows₂⟩ := hout.hole
    -- it is written through
    obtain ⟨ha₃, htree₃⟩ := ih hout.supports hout.acyclic (m₂.node? v')
    have hw := written_storeNested hout.supports rest true (m₂.node? v')
    rcases hnested : m₂.storeNested inner rest new true (m₂.node? v') with ⟨inner', m₃⟩
    rw [hnested] at ha₃ htree₃ hw
    dsimp only at ha₃ htree₃ hw
    rw [hout.content, hout.same, hrows, hsame] at htree₃
    obtain ⟨hinner₃, hfar₃⟩ :=
      hw.evolves.unforged a (Heap.lt_of_block? hb₂) hout.isolated.1 hout.isolated.2
    -- and put back into the hole, which is as it was left
    obtain ⟨b₃, hb₃, -⟩ := hw.agrees rfl a _ (.value List.mem_cons_self ht) hb₂
    have hhole : m₃.heap.treeRows b₃.rows =
        Tree.storeRows (m.heap.tree v).rows cell (m₁.heap.tree .undefined) := by
      have hkept := Heap.tree_agrees hout.acyclic ha₃ hout.supports hout.supports.tail.tail.holds
        (hw.agrees rfl) (v := v') List.mem_cons_self
      rw [Heap.tree_array ha₃ ht hb₃, Heap.tree_array hout.acyclic ht hb₂] at hkept
      rw [← hrows, ← hrows₂]
      exact (Tree.array.inj hkept).2
    rw [storeNested_cons m v cell hrest new true owner hopen hm₂ (by rw [hinner_eq, hnested])]
    obtain ⟨ha₄, htree₄⟩ := tree_overwrite hw.supports ha₃ ht hb₃ hinner₃ hfar₃ cell
    refine ⟨ha₄, ?_⟩
    rw [htree₄, hhole, Tree.storeRows_storeRows, htree₃, Tree.storeNested, Tree.store, Tree.content]

/-! ### Other operations -/

theorem tree_ensureArray {v : Value} (hs : m.heap.Supports (v :: vs)) (ha : m.heap.Acyclic)
    (owner : Option NodeId) :
    (m.ensureArray v owner).2.heap.Acyclic ∧
      (m.ensureArray v owner).2.heap.tree (m.ensureArray v owner).1 = (m.heap.tree v).ensure := by
  have ho := opened_openForWrite hs false owner
  have ha' := ho.acyclic ha
  obtain ⟨b, hb, hrows⟩ := ho.treeRows ha hs
  refine ⟨ha', ?_⟩
  rw [Tree.ensure, ← hrows]
  exact Heap.tree_array ha' ho.target hb

theorem tree_reachCell {v new : Value} (hs : m.heap.Supports (v :: new :: vs)) (ha : m.heap.Acyclic)
    {cell : Cell} {owner : Option NodeId} {a : Address} {v' : Value} {m' : Memory}
    (hreach : m.reachCell v cell true owner = (a, v', m')) :
    m'.heap.tree (m'.cellAt a cell) = (m.heap.tree v).content cell := by
  rcases hopen : m.openForWrite v true owner with ⟨a₁, v₁, m₁⟩
  obtain ⟨b, ht, hb, hs₁, ha₁, hinner, -, hrows, -⟩ := opened_private hs ha hopen
  obtain ⟨rfl, rfl, rfl⟩ : a₁ = a ∧ v₁ = v' ∧ m₁.growAt a₁ cell = m' := by
    unfold reachCell at hreach
    rw [hopen] at hreach
    simpa using hreach
  obtain ⟨b₁, hb₁, hrows₁, hcell₁⟩ := cell?_growAt hb cell
  have hinner₁ := ((evolves_growAt m₁ a₁ cell []).unforged a₁ (Heap.lt_of_block? hb) hinner rfl).1
  have hgrown : (m₁.growAt a₁ cell).heap.Acyclic := by
    refine ha₁.of_isolated (supports_growAt hs₁ a₁ cell) hinner₁ fun x b' hx hb' => ⟨b', ?_, rfl⟩
    simpa [growAt, hx] using hb'
  rw [hrows₁, Rows.cell?_grow] at hcell₁
  rw [← Option.some.inj hcell₁, Tree.content, ← hrows, Heap.cell?_treeRows]
  cases hc : Rows.cell? b.rows cell.1 cell.2 with
  | none => exact Heap.tree_zero _
  | some w =>
    have hw := Rows.mem_cells_of_cell? hc
    refine Heap.tree_agrees ha₁ hgrown hs₁ ((hs₁.holds_cells hb).one hw) ?_ (List.mem_singleton_self w)
    exact Heap.agrees_modify (Heap.not_reaches_of_isolated hinner (handlesOn_cell hb hinner hw)) _

theorem overwrite_reachCell {v : Value} (new : Value) {cell : Cell} {owner : Option NodeId} {a : Address} {v' : Value}
    {m' : Memory} (hreach : m.reachCell v cell true owner = (a, v', m')) :
    (m.store v cell new true owner).1 = v' ∧
      (m.store v cell new true owner).2.heap = (m'.overwrite a cell new).heap := by
  unfold store
  rw [hreach]
  exact ⟨rfl, rfl⟩

theorem peek_tree {v : Value} (ha : m.heap.Acyclic) (hv : m.heap.Holds [v]) (cell : Cell) :
    (m.peek v cell).map m.heap.tree = (m.heap.tree v).peek cell := by
  cases v with
  | array k =>
    cases ht : k.target with
    | none =>
      rw [Heap.tree_null ht]
      simp [peek, ht, Tree.peek, Except.map]
    | some a =>
      obtain ⟨b, hb⟩ := hv _ (List.mem_singleton_self _) a ht
      rw [Heap.tree_array ha (v := .array k) ht hb]
      have hcell := Heap.cell?_treeRows m.heap b.rows cell
      simp only [peek, ht, Option.bind_some, hb, Tree.peek, Block.cell?_eq]
      rw [Heap.treeRows] at hcell
      rw [hcell]
      cases Rows.cell? b.rows cell.1 cell.2 with
      | some w => rfl
      | none =>
        simp only [Option.map_none, Except.map, List.length_map, List.getElem?_map,
          Array.length_toList, Array.getElem?_toList]
        cases b.rows[cell.1]? <;> simp
  | _ =>
    rw [Heap.tree_scalar rfl]
    rfl

theorem peekNested_tree {v : Value} {us : List Value} (hs : m.heap.Supports us) (ha : m.heap.Acyclic)
    (hv : m.heap.Holds [v]) (path : List Cell) :
    (m.peekNested v path).map m.heap.tree = (m.heap.tree v).peekNested path := by
  induction path generalizing v with
  | nil => rfl
  | cons cell rest ih =>
    have hpeek := peek_tree ha hv cell
    rw [peekNested, Tree.peekNested, ← hpeek]
    cases hinner : m.peek v cell with
    | error e => rfl
    | ok inner =>
      refine ih ?_
      have hpath : m.peekNested v [cell] = .ok inner := by rw [peekNested, hinner]; rfl
      exact holds_peekNested hs hv hpath

end Memory
end ScriptVm
