import ScriptVm.Proofs.Mirror

/-! Writes that do not meet. Changing a block that outlives a release commutes with the release, so a store
into one cell commutes with putting something into another, be it a cell of the same array. -/

namespace ScriptVm

namespace Rows

theorem cell?_set_ne {cell other : Cell} (hne : cell ≠ other) (rows : Rows) (v : Value) :
    cell? (rows.set other.1 other.2 v) cell.1 cell.2 = cell? rows cell.1 cell.2 := by
  rw [cell?, set, Array.getElem?_modify, cell?]
  split_ifs with hrow
  · have hcol : other.2 ≠ cell.2 := fun hcol => hne (Prod.ext hrow.symm hcol.symm)
    cases rows[cell.1]? with
    | none => rfl
    | some r => simp [Array.getElem?_setIfInBounds_ne hcol]
  · rfl

theorem cell?_grow_of_some {rows : Rows} {cell : Cell} {v : Value} (h : cell? rows cell.1 cell.2 = some v)
    (row col : Nat) : cell? (rows.grow row col) cell.1 cell.2 = some v := by
  obtain ⟨r, hr, hv⟩ := Option.bind_eq_some_iff.1 h
  have hrow : cell.1 < rows.size := (Array.getElem?_eq_some_iff.1 hr).1
  have hcol : cell.2 < r.size := (Array.getElem?_eq_some_iff.1 hv).1
  rw [cell?, grow, Array.getElem?_modify, Array.getElem?_append_left hrow, hr]
  split_ifs
  · rw [Option.map_some, Option.bind_some, growRow, Array.getElem?_append_left hcol, hv]
  · exact hv

theorem growRow_setIfInBounds {r : Array Value} {col : Nat} (hcol : col < r.size) (v : Value) (size : Nat) :
    growRow (r.setIfInBounds col v) size = (growRow r size).setIfInBounds col v := by
  rw [growRow, growRow, Array.size_setIfInBounds, Array.setIfInBounds_append_left hcol]

theorem grow_set {rows : Rows} {cell : Cell} {old : Value} (h : cell? rows cell.1 cell.2 = some old) (v : Value)
    (row col : Nat) : (rows.set cell.1 cell.2 v).grow row col = (rows.grow row col).set cell.1 cell.2 v := by
  obtain ⟨r, hr, hold⟩ := Option.bind_eq_some_iff.1 h
  have hrow : cell.1 < rows.size := (Array.getElem?_eq_some_iff.1 hr).1
  have hcol : cell.2 < r.size := (Array.getElem?_eq_some_iff.1 hold).1
  apply Array.ext_getElem?
  intro i
  simp only [grow, set, Array.getElem?_modify, Array.size_modify]
  by_cases hi : i < rows.size
  · rw [Array.getElem?_append_left (by simpa using hi), Array.getElem?_append_left hi, Array.getElem?_modify]
    by_cases hcell : cell.1 = i
    · subst hcell
      rw [hr]
      split_ifs <;> simp [growRow_setIfInBounds hcol]
    · simp only [hcell, if_false]
  · rw [Array.getElem?_append_right (by simpa using hi), Array.getElem?_append_right (by omega), Array.size_modify,
      if_neg (show cell.1 ≠ i by omega)]

theorem set_comm {cell other : Cell} (hne : cell ≠ other) (rows : Rows) (v w : Value) :
    (rows.set cell.1 cell.2 v).set other.1 other.2 w = (rows.set other.1 other.2 w).set cell.1 cell.2 v := by
  apply Array.ext_getElem?
  intro i
  simp only [set, Array.getElem?_modify]
  split_ifs with hother hcell
  · have hcol : cell.2 ≠ other.2 := fun hcol => hne (Prod.ext (hcell.trans hother.symm) hcol)
    cases rows[i]? with
    | none => rfl
    | some r => simp [Array.setIfInBounds_comm _ _ hcol]
  all_goals rfl

theorem set_set (rows : Rows) (row col : Nat) (v w : Value) : (rows.set row col v).set row col w = rows.set row col w := by
  apply Array.ext_getElem?
  intro i
  simp only [set, Array.getElem?_modify]
  split_ifs
  · cases rows[i]? <;> simp [Array.setIfInBounds_setIfInBounds]
  · rfl

theorem set_eq_self {rows : Rows} {row col : Nat} {v : Value} (h : cell? rows row col = some v) :
    rows.set row col v = rows := by
  obtain ⟨r, hr, hv⟩ := Option.bind_eq_some_iff.1 h
  apply Array.ext_getElem?
  intro i
  rw [set, Array.getElem?_modify]
  split_ifs with hi
  · subst hi
    rw [hr, Option.map_some, Option.some.injEq]
    apply Array.ext_getElem?
    intro j
    rw [Array.getElem?_setIfInBounds]
    split_ifs with hj hin
    · exact hj ▸ hv.symm
    · exact absurd (hj ▸ (Array.getElem?_eq_some_iff.1 hv).1) hin
    · rfl
  · rfl

end Rows

namespace Heap
variable {h : Heap} {a x : Address} {f g : Block → Block}

theorem put_put (h : Heap) (a : Address) (o o' : Option Block) : (h.put a o).put a o' = h.put a o' := by
  rw [put, put, put, Array.setIfInBounds_setIfInBounds]

theorem modify_put (hne : x ≠ a) (o : Option Block) : (h.modify a f).put x o = (h.put x o).modify a f := by
  rw [modify, put, put, modify]
  congr 1
  apply Array.ext_getElem?
  intro i
  simp only [Array.getElem?_setIfInBounds, Array.getElem?_modify, Array.size_modify]
  by_cases hx : x = i
  · subst hx
    simp [hne.symm]
  · simp [hx]

theorem modify_modify (h : Heap) (a : Address) (f g : Block → Block) :
    (h.modify a f).modify a g = h.modify a (g ∘ f) := by
  cases hb : h.block? a with
  | none => rw [modify_eq_self hb, modify_eq_self hb, modify_eq_self hb]
  | some b =>
    have hb' : (h.modify a f).block? a = some (f b) := by simp [hb]
    rw [modify_eq_put hb', modify_eq_put hb, put_put, modify_eq_put hb, Function.comp_apply]

theorem modify_comm (hne : x ≠ a) (f g : Block → Block) : (h.modify a f).modify x g = (h.modify x g).modify a f := by
  cases hb : h.block? x with
  | none =>
    have hb' : (h.modify a f).block? x = none := by rw [block?_modify, if_neg hne, hb]
    rw [modify_eq_self hb', modify_eq_self hb]
  | some b =>
    have hb' : (h.modify a f).block? x = some b := by rw [block?_modify, if_neg hne, hb]
    rw [modify_eq_put hb', modify_eq_put hb, modify_put hne]

theorem modify_congr {b : Block} (hb : h.block? a = some b) (hfg : f b = g b) : h.modify a f = h.modify a g := by
  rw [modify_eq_put hb, modify_eq_put hb, hfg]

/-- Two blocks whose holders go one by one side by side. -/
def Lasting (f : Block → Block) : Prop :=
  ∀ b, 1 < b.holders →
    1 < (f b).holders ∧ f { b with holders := b.holders - 1 } = { f b with holders := (f b).holders - 1 }

/-- A block that outlives a release can be changed before it or after. -/
theorem release_modify (hf : Lasting f) (work : List Value) {b : Block} (hb : (h.release work).block? a = some b) :
    (h.modify a f).release work = (h.release work).modify a f := by
  refine release_rec (P := fun h work r => r = h.release work → r.block? a = some b →
    (h.modify a f).release work = r.modify a f) ?_ ?_ ?_ ?_ h work rfl hb
  · intro h _ _
    exact release_nil _
  · intro h v rest r hv ih hr hb
    rw [release_skip hv] at hr
    rw [release_skip, ih hr hb]
    cases hx : v.target? with
    | none => rfl
    | some x =>
      rw [hx, Option.bind_some] at hv
      rw [Option.bind_some, block?_modify]
      split_ifs with hxa
      · rw [← hxa, hv, Option.map_none]
      · exact hv
  · intro h v x c rest r hx hc hone ih hr hb
    rw [release_held hx hc, if_pos hone] at hr
    have hne : x ≠ a := by
      -- a block that went does not come back
      rintro rfl
      obtain ⟨b', hb', -⟩ := (shrinks_release (h.put x none) (c.cells ++ rest)).block x b (hr ▸ hb)
      rw [block?_put hc, if_pos rfl] at hb'
      cases hb'
    have hc' : (h.modify a f).block? x = some c := by rw [block?_modify, if_neg hne, hc]
    rw [release_held hx hc', if_pos hone, modify_put hne, ih hr hb]
  · intro h v x c rest r hx hc hmany ih hr hb
    rw [release_held hx hc, if_neg (by omega)] at hr
    by_cases hne : x = a
    · subst hne
      obtain ⟨hmany', hless⟩ := hf c hmany
      have hc' : (h.modify x f).block? x = some (f c) := by rw [block?_modify, if_pos rfl, hc, Option.map_some]
      have hput : (h.put x (some { c with holders := c.holders - 1 })).block? x =
          some { c with holders := c.holders - 1 } := by rw [block?_put hc, if_pos rfl]
      rw [release_held hx hc', if_neg (by omega), modify_eq_put hc, put_put, ← hless, ← ih hr hb,
        modify_eq_put hput, put_put]
    · have hc' : (h.modify a f).block? x = some c := by rw [block?_modify, if_neg hne, hc]
      rw [release_held hx hc', if_neg (by omega), modify_put hne, ih hr hb]

end Heap

namespace Block

/-- A block once a cell has been written, after growing as far as that takes. -/
def write (cell : Cell) (new : Value) (b : Block) : Block :=
  { b with rows := (b.rows.grow cell.1 cell.2).set cell.1 cell.2 new }

/-- What a write to the cell drops. -/
def replaced (cell : Cell) (b : Block) : Value := (Rows.cell? b.rows cell.1 cell.2).getD (.real .zero)

end Block

namespace Memory
variable {m : Memory} {a x : Address} {b : Block} {cell : Cell} {new v : Value}

def storeAt (m : Memory) (a : Address) (cell : Cell) (new : Value) : Memory :=
  let m := m.growAt a cell
  let container := (m.heap.block? a).bind (·.node)
  let old := m.node? (m.cellAt a cell)
  let fresh := m.node? new
  (m.modifyCollector fun c => (c.removeReference container old).addReference container fresh).overwrite a cell new

theorem openForWrite_in_place (ha : v.target? = some a) (owner : Option NodeId) :
    m.openForWrite v false owner = (a, v, m) := by
  cases v with
  | array h =>
    have ht : h.target = some a := ha
    simp [openForWrite, handleOf, openShared, ht]
  | _ => cases ha

theorem store_eq_storeAt (ha : v.target? = some a) (owner : Option NodeId) :
    m.store v cell new false owner = (v, m.storeAt a cell new) := by
  unfold store reachCell
  rw [openForWrite_in_place ha]
  rfl

theorem storeAt_eq (hb : m.heap.block? a = some b) (cell : Cell) (new : Value) :
    m.storeAt a cell new =
      { heap := (m.heap.modify a (Block.write cell new)).release [b.replaced cell]
        collector := m.collector.map fun c =>
          (c.removeReference b.node (m.node? (b.replaced cell))).addReference b.node (m.node? new) } := by
  have hgrown := block?_growAt hb cell
  have hcell : (m.growAt a cell).cellAt a cell = b.replaced cell :=
    cellAt_eq hgrown (Rows.cell?_grow b.rows cell.1 cell.2)
  have hnode : ∀ w : Value, (m.growAt a cell).node? w = m.node? w := Heap.node?_modify fun _ => rfl
  have hdropped : ∀ f, ((m.growAt a cell).modifyCollector f).cellAt a cell = b.replaced cell := fun _ => hcell
  unfold storeAt overwrite
  dsimp only
  rw [hdropped, hcell, hnode, hnode, hgrown, Option.bind_some]
  refine congrArg₂ Memory.mk (congrArg (Heap.release · _) ?_) rfl
  exact Heap.modify_modify m.heap a _ _

/-- A store and a change of a block that outlives it, in either order. -/
theorem storeAt_modify {f : Block → Block} (hx : ∃ b, m.heap.block? x = some b) (hf : Heap.Lasting f)
    (hnode : ∀ b, (f b).node = b.node)
    (hwrite : ∀ b, x = a → m.heap.block? a = some b →
      (f b).replaced cell = b.replaced cell ∧ (f b).write cell new = f (b.write cell new))
    (hb : (m.storeAt x cell new).heap.block? a = some b) :
    ({ m with heap := m.heap.modify a f } : Memory).storeAt x cell new =
      { m.storeAt x cell new with heap := (m.storeAt x cell new).heap.modify a f } := by
  obtain ⟨bx, hbx⟩ := hx
  have hnodes : ∀ w : Value, ({ m with heap := m.heap.modify a f } : Memory).node? w = m.node? w :=
    Heap.node?_modify hnode
  rw [storeAt_eq hbx] at hb ⊢
  dsimp only at hb ⊢
  by_cases hxa : x = a
  · subst hxa
    have hbx' : (m.heap.modify x f).block? x = some (f bx) := by rw [Heap.block?_modify, if_pos rfl, hbx, Option.map_some]
    obtain ⟨hreplaced, hwritten⟩ := hwrite bx rfl hbx
    rw [storeAt_eq (m := { m with heap := m.heap.modify x f }) hbx', hreplaced, hnode, hnodes, hnodes,
      ← Heap.release_modify hf _ hb, Heap.modify_modify, Heap.modify_modify]
    exact congrArg₂ Memory.mk (congrArg (Heap.release · _) (Heap.modify_congr hbx hwritten)) rfl
  · have hbx' : (m.heap.modify a f).block? x = some bx := by rw [Heap.block?_modify, if_neg hxa, hbx]
    rw [storeAt_eq (m := { m with heap := m.heap.modify a f }) hbx', hnodes, hnodes, ← Heap.release_modify hf _ hb,
      Heap.modify_comm hxa]

/-- A store takes the new content in and keeps all that other values hold. -/
theorem supports_storeAt {vs : List Value} (hs : m.heap.Supports (new :: vs)) (hb : m.heap.block? a = some b)
    (cell : Cell) : (m.storeAt a cell new).heap.Supports vs := by
  obtain ⟨b', hb', -, hcell⟩ := cell?_growAt hb cell
  exact supports_overwrite (supports_growAt hs a cell) hb' hcell

def at? (m : Memory) (p : Address × Cell) : Option Value :=
  (m.heap.block? p.1).bind fun b => Rows.cell? b.rows p.2.1 p.2.2

theorem at?_storeAt {p : Address × Cell} (hv : m.at? p = some v) (hne : p ≠ (a, cell))
    (ha : ∃ b, m.heap.block? a = some b) (hthere : ∃ b, (m.storeAt a cell new).heap.block? p.1 = some b) :
    (m.storeAt a cell new).at? p = some v := by
  obtain ⟨b, hb, hcell⟩ := Option.bind_eq_some_iff.1 hv
  obtain ⟨ba, hba⟩ := ha
  obtain ⟨b', hb'⟩ := hthere
  rw [at?, hb', Option.bind_some]
  rw [storeAt_eq hba] at hb'
  obtain ⟨b₁, hb₁, hrows, -⟩ := (Heap.shrinks_release _ _).block p.1 b' hb'
  rw [Heap.block?_modify] at hb₁
  rw [hrows]
  split_ifs at hb₁ with hpa
  · rw [← hpa, hb, Option.map_some, Option.some.injEq] at hb₁
    have hother : p.2 ≠ cell := fun heq => hne (Prod.ext hpa heq)
    rw [← hb₁, Block.write, Rows.cell?_set_ne hother]
    exact Rows.cell?_grow_of_some hcell _ _
  · rw [Option.some.inj (hb₁.symm.trans hb), hcell]

theorem at?_putCell_ne {p : Address × Cell} (hne : p ≠ (a, cell)) (v : Value) : (m.putCell a cell v).at? p = m.at? p := by
  rw [at?, putCell, at?]
  dsimp only
  rw [Heap.block?_modify]
  split_ifs with hpa
  · have hother : p.2 ≠ cell := fun heq => hne (Prod.ext hpa heq)
    rw [← hpa]
    cases m.heap.block? p.1 with
    | none => rfl
    | some b => exact Rows.cell?_set_ne hother b.rows v
  · rfl

theorem growAt_eq_self (hv : m.at? (a, cell) = some v) : m.growAt a cell = m := by
  obtain ⟨b, hb, hcell⟩ := Option.bind_eq_some_iff.1 hv
  have hsame : m.heap.modify a (fun b => { b with rows := b.rows.grow cell.1 cell.2 }) = m.heap := by
    rw [Heap.modify_congr (g := id) hb (by rw [Rows.grow_eq_self hcell, id_eq]), Heap.modify_id]
  rw [growAt, hsame]

/-- Stores into one place and puts a value into another, in either order. -/
theorem storeAt_putCell {other : Cell} {old : Value} (hx : ∃ b, m.heap.block? x = some b)
    (hold : m.at? (a, other) = some old) (hne : (a, other) ≠ (x, cell))
    (hb : (m.storeAt x cell new).heap.block? a = some b) (u : Value) :
    (m.putCell a other u).storeAt x cell new = (m.storeAt x cell new).putCell a other u := by
  refine storeAt_modify hx (fun b hb => ⟨hb, rfl⟩) (fun _ => rfl) (fun b₀ hxa hb₀ => ?_) hb
  subst hxa
  have hcells : cell ≠ other := fun heq => hne (by rw [heq])
  rw [at?, hb₀, Option.bind_some] at hold
  refine ⟨?_, ?_⟩
  · rw [Block.replaced, Rows.cell?_set_ne hcells, Block.replaced]
  · rw [Block.write, Rows.grow_set hold, Rows.set_comm hcells.symm, Block.write]

theorem put_back (hv : m.at? (a, cell) = some v) :
    ((m.putCell a cell .undefined).growAt a cell).overwrite a cell v = m := by
  obtain ⟨b, hb, hcell⟩ := Option.bind_eq_some_iff.1 hv
  have hout := block?_putCell hb cell .undefined
  have hgap : Rows.cell? (b.rows.set cell.1 cell.2 .undefined) cell.1 cell.2 = some .undefined := Rows.cell?_set hcell _
  have hback : (m.heap.modify a (fun b => { b with rows := b.rows.set cell.1 cell.2 .undefined })).modify a
      (fun b => { b with rows := b.rows.set cell.1 cell.2 v }) = m.heap := by
    rw [Heap.modify_modify, Heap.modify_congr (g := id) hb, Heap.modify_id]
    rw [Function.comp_apply, Rows.set_set, Rows.set_eq_self hcell, id_eq]
  have hgrown : (m.putCell a cell .undefined).growAt a cell = m.putCell a cell .undefined :=
    growAt_eq_self (v := .undefined) (by rw [at?, hout, Option.bind_some, hgap])
  rw [hgrown, overwrite, cellAt_eq hout hgap, release, Heap.release_skip rfl, Heap.release_nil, putCell, putCell]
  dsimp only
  rw [hback]

end Memory
end ScriptVm
