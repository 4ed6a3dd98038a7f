import ScriptVm.Heap.Memory
import ScriptVm.Value.Text

/-! Values unfolded into trees. Unfolding follows handles into the heap; an array that is met again on
the path from the top becomes a back reference, so the tree is finite whatever the heap looks like,
and it holds a back reference just when an array contains itself. -/

namespace ScriptVm

/-- A value with its arrays spelled out. Each array carries a note. -/
inductive Tree (α : Type) where
  | scalar (v : Value)
  /-- An array without data. -/
  | null (note : α)
  /-- An array that is already open on the path to here. -/
  | back (note : α)
  | array (note : α) (rows : List (List (Tree α)))

namespace Heap

def unvisited (h : Heap) (path : List Address) : Nat :=
  (List.range h.blocks.size).countP fun a => decide (a ∉ path)

theorem countP_mono_of_mem {α : Type} {p q : α → Bool} {l : List α} {x : α} (hx : x ∈ l)
    (imp : ∀ a, p a = true → q a = true) (hp : p x = false) (hq : q x = true) :
    l.countP p < l.countP q := by
  induction l with
  | nil => cases hx
  | cons y l ih =>
    have le : l.countP p ≤ l.countP q := List.countP_mono_left fun a _ => imp a
    rcases List.mem_cons.1 hx with rfl | hx
    · simp only [List.countP_cons, hp, hq]
      simp
      omega
    · have rest := ih hx
      have here := imp y
      simp only [List.countP_cons]
      split <;> split
      · omega
      · simp_all
      · omega
      · omega

theorem unvisited_cons_lt {h : Heap} {a : Address} {path : List Address} (inside : a < h.blocks.size)
    (fresh : a ∉ path) : h.unvisited (a :: path) < h.unvisited path := by
  apply countP_mono_of_mem (List.mem_range.2 inside)
  · intro b hb
    simp only [List.mem_cons, not_or, decide_eq_true_eq] at hb ⊢
    exact hb.2
  · simp
  · simpa using fresh

/-- The tree of a value, the arrays on `path` being open. -/
def unfoldFrom {α : Type} (h : Heap) (note : Handle → α) (path : List Address) (v : Value) : Tree α :=
  match v with
  | .array handle =>
    match handle.target with
    | none => .null (note handle)
    | some a =>
      if fresh : a ∉ path then
        if inside : a < h.blocks.size then
          match h.blocks[a] with
          | none => .null (note handle)
          | some b =>
            .array (note handle) (b.rows.toList.map fun row =>
              row.toList.map fun cell => unfoldFrom h note (a :: path) cell)
        else .null (note handle)
      else .back (note handle)
  | v => .scalar v
termination_by h.unvisited path
decreasing_by exact unvisited_cons_lt inside fresh

def unfold {α : Type} (h : Heap) (note : Handle → α) (v : Value) : Tree α := h.unfoldFrom note [] v

end Heap

namespace Tree
variable {α : Type}

def bracket (items : List String) : String := "[" ++ String.intercalate ", " items ++ "]"

mutual

/-- The text of a tree: rows in brackets, cells in brackets, and `[...]` for a back reference. -/
def text : Tree α → String
  | .scalar v => v.scalarText
  | .null _ => "[]"
  | .back _ => "[...]"
  | .array _ rows => bracket (rowTexts rows)

def rowTexts : List (List (Tree α)) → List String
  | [] => []
  | row :: rows => bracket (cellTexts row) :: rowTexts rows

def cellTexts : List (Tree α) → List String
  | [] => []
  | cell :: cells => cell.text :: cellTexts cells

end

mutual

/-- Builds the tree in memory, inner arrays before outer ones; `tracked` says which of them the
collector hears of. A leaf that is itself an array gets a further holder. A back reference stands for
no array of its own and comes out without data. -/
def build (tracked : α → Bool) : Tree α → Memory → Value × Memory
  | .scalar v, m => m.share v
  | .null _, m => (.array {}, m)
  | .back _, m => (.array {}, m)
  | .array note rows, m =>
    let (rows, m) := buildRows tracked rows m
    m.trackedIf (tracked note) (·.newArray (rows.map List.toArray).toArray)

def buildRows (tracked : α → Bool) : List (List (Tree α)) → Memory → List (List Value) × Memory
  | [], m => ([], m)
  | row :: rows, m =>
    let (cells, m) := buildCells tracked row m
    let (rest, m) := buildRows tracked rows m
    (cells :: rest, m)

def buildCells (tracked : α → Bool) : List (Tree α) → Memory → List Value × Memory
  | [], m => ([], m)
  | cell :: cells, m =>
    let (v, m) := cell.build tracked m
    let (rest, m) := buildCells tracked cells m
    (v :: rest, m)

end

end Tree

def Memory.text (m : Memory) (v : Value) : String := (m.heap.unfold (fun _ => ()) v).text

/-- What an array's handle shows of its sharing. -/
structure Sharing where
  node : Option NodeId
  holders : Nat
  rooted : Bool
deriving DecidableEq, Repr

abbrev Snapshot := Tree Sharing

def Memory.snapshot (m : Memory) (v : Value) : Snapshot :=
  m.heap.unfold (fun h => ⟨m.node? (.array h), m.heap.holders (.array h), h.rooted⟩) v

end ScriptVm
