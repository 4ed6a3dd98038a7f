import Mathlib.Tactic
import ScriptVm.Heap.Basic

/-! Counting cells. Growing rows adds cells that count for nothing, and writing a cell exchanges one
value for another. -/

namespace ScriptVm

theorem sum_map_modify {α : Type} (g : α → Nat) (f : α → α) {l : List α} {i : Nat} {x : α}
    (h : l[i]? = some x) : ((l.modify i f).map g).sum + g x = (l.map g).sum + g (f x) := by
  induction l generalizing i with
  | nil => simp at h
  | cons y l ih =>
    cases i with
    | zero =>
      obtain rfl : y = x := by simpa using h
      simp
      omega
    | succ i =>
      have hrest := ih (i := i) (by simpa using h)
      simp only [List.modify_succ_cons, List.map_cons, List.sum_cons]
      omega

namespace Rows

def cells (rows : Rows) : List Value := rows.toList.flatMap Array.toList

def cell? (rows : Rows) (row col : Nat) : Option Value := rows[row]?.bind fun cells => cells[col]?

@[simp] theorem cells_empty : cells #[] = [] := rfl

theorem countP_cells (p : Value → Bool) (rows : Rows) :
    (cells rows).countP p = (rows.toList.map fun r => r.toList.countP p).sum := by
  rw [cells, List.countP_flatMap]
  rfl

theorem countP_cells_modify (p : Value → Bool) (f : Array Value → Array Value) {rows : Rows} {i : Nat}
    {r : Array Value} (h : rows[i]? = some r) :
    (cells (rows.modify i f)).countP p + r.toList.countP p =
      (cells rows).countP p + (f r).toList.countP p := by
  rw [countP_cells, countP_cells, Array.toList_modify]
  exact sum_map_modify (fun r : Array Value => r.toList.countP p) f
    (by rw [Array.getElem?_toList]; exact h)

theorem countP_growRow {p : Value → Bool} (hp : p (.real .zero) = false) (r : Array Value) (n : Nat) :
    (growRow r n).toList.countP p = r.toList.countP p := by
  simp [growRow, List.countP_replicate, hp]

theorem getElem?_extend (rows : Rows) (row : Nat) :
    (rows ++ Array.replicate (row + 1 - rows.size) (#[] : Array Value))[row]? =
      some (rows[row]?.getD #[]) := by
  by_cases h : row < rows.size
  · rw [Array.getElem?_append_left h, Array.getElem?_eq_getElem h]
    rfl
  · rw [Array.getElem?_append_right (by omega), Array.getElem?_replicate, if_pos (by omega),
      Array.getElem?_eq_none (by omega)]
    rfl

theorem countP_cells_grow {p : Value → Bool} (hp : p (.real .zero) = false) (rows : Rows)
    (row col : Nat) : (cells (rows.grow row col)).countP p = (cells rows).countP p := by
  have hm := countP_cells_modify p (fun r => growRow r (col + 1)) (getElem?_extend rows row)
  have hext : (cells (rows ++ Array.replicate (row + 1 - rows.size) #[])).countP p =
      (cells rows).countP p := by
    rw [countP_cells, countP_cells]
    simp [List.map_replicate]
  rw [countP_growRow hp, hext] at hm
  simpa [grow] using hm

theorem countP_cells_set (p : Value → Bool) {rows : Rows} {row col : Nat} {old : Value}
    (h : cell? rows row col = some old) (v : Value) :
    (cells (rows.set row col v)).countP p + [old].countP p = (cells rows).countP p + [v].countP p := by
  obtain ⟨r, hr, hold⟩ := Option.bind_eq_some_iff.1 h
  have hm := countP_cells_modify p (fun cells => cells.setIfInBounds col v) hr
  have hcol : col < r.size := (Array.getElem?_eq_some_iff.1 hold).1
  obtain rfl : r[col] = old := (Array.getElem?_eq_some_iff.1 hold).2
  have hpos : [r[col]].countP p ≤ r.toList.countP p := by
    apply List.Sublist.countP_le
    rw [List.singleton_sublist]
    exact Array.getElem_mem_toList hcol
  have hset : (r.setIfInBounds col v).toList.countP p + [r[col]].countP p =
      r.toList.countP p + [v].countP p := by
    rw [Array.toList_setIfInBounds, List.countP_set (by simpa using hcol), Array.getElem_toList]
    simp only [List.countP_singleton] at hpos ⊢
    omega
  rw [set]
  omega

theorem mem_cells_iff {rows : Rows} {v : Value} :
    v ∈ cells rows ↔ 0 < (cells rows).countP (· == v) := by
  rw [List.countP_pos_iff]
  simp

theorem mem_cells_grow {rows : Rows} {row col : Nat} {v : Value}
    (h : v ∈ cells (rows.grow row col)) : v = .real .zero ∨ v ∈ cells rows := by
  by_cases hv : v = .real .zero
  · exact Or.inl hv
  · right
    rw [mem_cells_iff] at h ⊢
    rwa [countP_cells_grow (by simpa using Ne.symm hv)] at h

theorem mem_cells_set {rows : Rows} {row col : Nat} {old v w : Value}
    (h : cell? rows row col = some old) (hw : w ∈ cells (rows.set row col v)) :
    w = v ∨ w ∈ cells rows := by
  have hcount := countP_cells_set (· == w) h v
  rw [mem_cells_iff] at hw
  by_cases hwv : w = v
  · exact Or.inl hwv
  · right
    have hzero : [v].countP (· == w) = 0 := by simp [Ne.symm hwv]
    rw [mem_cells_iff]
    omega

theorem mem_cells_of_cell? {rows : Rows} {row col : Nat} {v : Value}
    (h : cell? rows row col = some v) : v ∈ cells rows := by
  obtain ⟨r, hr, hv⟩ := Option.bind_eq_some_iff.1 h
  rw [cells, List.mem_flatMap]
  exact ⟨r, Array.mem_toList_iff.2 (Array.mem_of_getElem? hr),
    Array.mem_toList_iff.2 (Array.mem_of_getElem? hv)⟩

theorem cell?_grow (rows : Rows) (row col : Nat) :
    cell? (rows.grow row col) row col = some ((cell? rows row col).getD (.real .zero)) := by
  rw [cell?, grow, Array.getElem?_modify, if_pos rfl, getElem?_extend, Option.map_some,
    Option.bind_some, growRow, cell?]
  cases hr : rows[row]? with
  | none => simp
  | some r =>
    rw [Option.getD_some, Option.bind_some]
    by_cases hcol : col < r.size
    · rw [Array.getElem?_append_left hcol, Array.getElem?_eq_getElem hcol]
      rfl
    · rw [Array.getElem?_append_right (by omega), Array.getElem?_replicate, if_pos (by omega),
        Array.getElem?_eq_none (by omega)]
      rfl

theorem cell?_set {rows : Rows} {row col : Nat} {old : Value} (h : cell? rows row col = some old)
    (v : Value) : cell? (rows.set row col v) row col = some v := by
  obtain ⟨r, hr, hold⟩ := Option.bind_eq_some_iff.1 h
  have hcol : col < r.size := (Array.getElem?_eq_some_iff.1 hold).1
  simp [cell?, set, Array.getElem?_modify, hr, hcol]

theorem grow_eq_self {rows : Rows} {row col : Nat} {v : Value} (h : cell? rows row col = some v) :
    rows.grow row col = rows := by
  obtain ⟨r, hr, hv⟩ := Option.bind_eq_some_iff.1 h
  have hrow : row < rows.size := (Array.getElem?_eq_some_iff.1 hr).1
  have hcol : col < r.size := (Array.getElem?_eq_some_iff.1 hv).1
  apply Array.ext_getElem?
  intro i
  rw [grow, show row + 1 - rows.size = 0 by omega, Array.replicate_zero, Array.append_empty,
    Array.getElem?_modify]
  split_ifs with hi
  · subst hi
    rw [hr, Option.map_some, growRow, show col + 1 - r.size = 0 by omega, Array.replicate_zero,
      Array.append_empty]
  · rfl

end Rows

namespace Block

theorem cells_eq (b : Block) : b.cells = Rows.cells b.rows := rfl

theorem cell?_eq (b : Block) (row col : Nat) : b.cell? row col = Rows.cell? b.rows row col := rfl

end Block
end ScriptVm
