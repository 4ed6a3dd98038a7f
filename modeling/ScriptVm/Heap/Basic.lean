import ScriptVm.Value.Basic

/-! The heap of array data. A block holds ragged rows of cells and counts its holders: the handles
that point at it, wherever they are. `retain` and `release` keep the count; the block goes when the
last holder does, and its cells are released with it. -/

namespace ScriptVm

abbrev Rows := Array (Array Value)

structure Block where
  rows : Rows := #[]
  node : Option NodeId := none
  holders : Nat := 1
deriving DecidableEq, Repr

namespace Block

def cells (b : Block) : List Value := b.rows.toList.flatMap Array.toList

def cell? (b : Block) (row col : Nat) : Option Value := do (← b.rows[row]?)[col]?

end Block

/-- A row of at least `size` cells; new cells are the real zero. -/
def growRow (cells : Array Value) (size : Nat) : Array Value :=
  cells ++ Array.replicate (size - cells.size) (Value.real .zero)

namespace Rows

/-- Rows in which the cell exists: new rows are empty, new cells are the real zero. -/
def grow (rows : Rows) (row col : Nat) : Rows :=
  (rows ++ Array.replicate (row + 1 - rows.size) #[]).modify row fun cells => growRow cells (col + 1)

def set (rows : Rows) (row col : Nat) (v : Value) : Rows :=
  rows.modify row fun cells => cells.setIfInBounds col v

end Rows

/-- Blocks by address; an address is never used twice. -/
structure Heap where
  blocks : Array (Option Block) := #[]
deriving DecidableEq

namespace Heap

def block? (h : Heap) (a : Address) : Option Block := h.blocks[a]?.join

def alloc (h : Heap) (rows : Rows) : Address × Heap :=
  (h.blocks.size, ⟨h.blocks.push (some { rows := rows })⟩)

def modify (h : Heap) (a : Address) (f : Block → Block) : Heap :=
  ⟨h.blocks.modify a (Option.map f)⟩

def retain (h : Heap) (v : Value) : Heap :=
  match v.target? with
  | some a => h.modify a fun b => { b with holders := b.holders + 1 }
  | none => h

def population (h : Heap) : Nat := h.blocks.countP Option.isSome

/-- Drops the values. A block that loses its last holder goes, and its cells are dropped next. -/
def release (h : Heap) (work : List Value) : Heap :=
  match work with
  | [] => h
  | v :: rest =>
    match v.target? with
    | none => release h rest
    | some a =>
      if inside : a < h.blocks.size then
        match found : h.blocks[a] with
        | none => release h rest
        | some b =>
          if b.holders ≤ 1 then release ⟨h.blocks.set a none⟩ (b.cells ++ rest)
          else release ⟨h.blocks.set a (some { b with holders := b.holders - 1 })⟩ rest
      else release h rest
termination_by (h.population, work.length)
decreasing_by
  · exact Prod.Lex.right _ (by simp)
  · exact Prod.Lex.right _ (by simp)
  · apply Prod.Lex.left
    have here : Option.isSome h.blocks[a] = true := by simp [found]
    have some : 0 < h.blocks.countP Option.isSome :=
      Array.countP_pos_iff.2 ⟨_, Array.getElem_mem inside, here⟩
    simp only [population, Array.countP_set, here, if_true, Option.isSome_none,
      Bool.false_eq_true, if_false]
    omega
  · have same : population ⟨h.blocks.set a (some { b with holders := b.holders - 1 })⟩ =
        h.population := by
      have here : Option.isSome h.blocks[a] = true := by simp [found]
      have some : 0 < h.blocks.countP Option.isSome :=
        Array.countP_pos_iff.2 ⟨_, Array.getElem_mem inside, here⟩
      simp only [population, Array.countP_set, here, if_true, Option.isSome_some]
      omega
    rw [same]
    exact Prod.Lex.right _ (by simp)
  · exact Prod.Lex.right _ (by simp)

/-- How many handles share the data; none where there is no data. -/
def holders (h : Heap) (v : Value) : Nat := ((v.target?.bind h.block?).map (·.holders)).getD 0

def node? (h : Heap) (v : Value) : Option NodeId := (v.target?.bind h.block?).bind (·.node)

/-- The nodes the cells of a block refer to, with repetition. -/
def heldNodes (h : Heap) (b : Block) : List NodeId := b.cells.filterMap h.node?

end Heap
end ScriptVm
