import ScriptVm.Proofs.Denotation
import ScriptVm.Proofs.PathStores

/-! The places of a value: paths of cells, and what stands at the end of them. A tree is told by what it shows at
its places. The tree that a value unfolds into has a place for each path that opens no array twice, and shows a
back reference there exactly if the path has come through the array that it leads to. -/

namespace ScriptVm

namespace Tree
variable {α : Type}

inductive Face where
  | scalar (v : Value)
  | null
  | back
  /-- An array that is spelled out, by the lengths of its rows. -/
  | array (widths : List Nat)
deriving DecidableEq, Repr

def face : Tree α → Face
  | .scalar v => .scalar v
  | .null _ => .null
  | .back _ => .back
  | .array _ rows => .array (rows.map List.length)

def at? (t : Tree α) (path : List Cell) : Option (Tree α) :=
  match path, t with
  | [], t => some t
  | cell :: rest, .array _ rows => (rows[cell.1]?.bind (·[cell.2]?)).bind (·.at? rest)
  | _ :: _, _ => none

def shown? (t : Tree α) (path : List Cell) : Option Face := (t.at? path).map face

/-- Nothing in the tree is met again below itself. -/
def Whole (t : Tree α) : Prop := ∀ path, t.shown? path ≠ some .back

theorem shown?_array (note : α) (rows : List (List (Tree α))) (cell : Cell) (rest : List Cell) :
    (array note rows).shown? (cell :: rest) = (rows[cell.1]?.bind (·[cell.2]?)).bind (·.shown? rest) := by
  rw [shown?, at?, Option.map_bind]
  rfl

theorem Whole.cell {note : α} {rows : List (List (Tree α))} (h : (array note rows).Whole) {row : List (Tree α)}
    (hrow : row ∈ rows) {t : Tree α} (ht : t ∈ row) : t.Whole := by
  intro path hback
  obtain ⟨i, hi⟩ := List.getElem?_of_mem hrow
  obtain ⟨j, hj⟩ := List.getElem?_of_mem ht
  refine h ((i, j) :: path) ?_
  rw [shown?_array, hi, Option.bind_some, hj, Option.bind_some, hback]

end Tree

/-- No array that the value leads to contains itself. -/
def Heap.Grounded (h : Heap) (v : Value) : Prop := ∀ a, h.Reaches [v] a → ¬ Relation.TransGen h.PointsTo a a

theorem Heap.Grounded.cell {h : Heap} {v w : Value} {a : Address} {b : Block} (hv : h.Grounded v)
    (ha : v.target? = some a) (hb : h.block? a = some b) (hw : w ∈ b.cells) : h.Grounded w := fun x hx =>
  hv x (hx.of_cell (.value (List.mem_singleton_self v) ha) hb hw)

namespace Memory
variable {α : Type} {m : Memory} {v w : Value} {a x : Address} {cell : Cell} {path : List Cell}

/-- The arrays that a path of cells comes through, as far as it leads. -/
def opened (m : Memory) (v : Value) (path : List Cell) : List Address := (m.crossed v path).map Prod.fst

/-- What a value looks like below some arrays. -/
def faceBelow (m : Memory) (above : List Address) : Value → Tree.Face
  | .array k =>
    match k.target with
    | none => .null
    | some a => if a ∈ above then .back else
      match m.heap.block? a with
      | none => .null
      | some b => .array (b.rows.toList.map Array.size)
  | v => .scalar v

/-- What a value shows at the end of a path of cells: nothing, if the path opens an array twice. -/
def shown? (m : Memory) (v : Value) (path : List Cell) : Option Tree.Face :=
  if (m.opened v path).Nodup then (m.peekNested v path).toOption.map (m.faceBelow (m.opened v path)) else none

/-- What stands at the end of a path of cells, whatever stands above it. -/
def outline? (m : Memory) (v : Value) (path : List Cell) : Option Tree.Face :=
  (m.peekNested v path).toOption.map (m.faceBelow [])

theorem faceBelow_congr {above above' : List Address} (h : ∀ a, a ∈ above ↔ a ∈ above') (v : Value) :
    m.faceBelow above v = m.faceBelow above' v := by
  cases v with
  | array k => simp only [faceBelow, h]
  | _ => rfl

theorem faceBelow_eq_back_iff {above : List Address} :
    m.faceBelow above v = .back ↔ ∃ a ∈ above, v.target? = some a := by
  cases v with
  | array k =>
    change _ ↔ ∃ a ∈ above, k.target = some a
    cases ht : k.target with
    | none => simp [faceBelow, ht]
    | some a =>
      by_cases habove : a ∈ above
      · simp [faceBelow, ht, habove]
      · cases hb : m.heap.block? a <;> simp [faceBelow, ht, habove, hb]
  | _ => simp [faceBelow, Value.target?]

theorem opened_cons (ha : v.target? = some a) (hw : m.at? (a, cell) = some w) (rest : List Cell) :
    m.opened v (cell :: rest) = a :: m.opened w rest := by
  rw [opened, crossed_cons ha hw, List.map_cons]
  rfl

theorem toOption_peekNested_cons (rest : List Cell) : (m.peekNested v (cell :: rest)).toOption =
    v.target?.bind fun a => (m.at? (a, cell)).bind fun w => (m.peekNested w rest).toOption := by
  have hok : ∀ {e : Except Fault Value} {w : Value}, e.toOption = some w ↔ e = .ok w := by
    intro e w
    cases e <;> simp [Except.toOption]
  ext w
  simp only [hok, peekNested_cons, Option.bind_eq_some_iff]
  constructor
  · rintro ⟨a, inner, ha, hinner, hrest⟩
    exact ⟨a, ha, inner, hinner, hrest⟩
  · rintro ⟨a, ha, inner, hinner, hrest⟩
    exact ⟨a, inner, ha, hinner, hrest⟩

/-! ### What unfolding shows -/

theorem face_unfoldFrom (note : Handle → α) (above : List Address) (v : Value) :
    (m.heap.unfoldFrom note above v).face = m.faceBelow above v := by
  cases v with
  | array k =>
    cases ht : k.target with
    | none => rw [Heap.unfoldFrom_null note above ht, faceBelow, ht, Tree.face]
    | some a =>
      by_cases habove : a ∈ above
      · rw [Heap.unfoldFrom_back note ht habove, faceBelow, ht]
        simp [habove, Tree.face]
      · cases hb : m.heap.block? a with
        | none =>
          rw [Heap.unfoldFrom_gone note ht habove hb, faceBelow, ht]
          simp [habove, hb, Tree.face]
        | some b =>
          rw [Heap.unfoldFrom_array note ht habove hb, faceBelow, ht]
          simp [habove, hb, Tree.face]
  | _ =>
    rw [Heap.unfoldFrom_scalar note above rfl]
    rfl

theorem shown?_unfoldFrom_cons (note : Handle → α) (above : List Address) (v : Value) (cell : Cell) (rest : List Cell) :
    (m.heap.unfoldFrom note above v).shown? (cell :: rest) = v.target?.bind fun a =>
      if a ∈ above then none else (m.at? (a, cell)).bind fun w =>
        (m.heap.unfoldFrom note (a :: above) w).shown? rest := by
  cases v with
  | array k =>
    change _ = k.target.bind _
    cases ht : k.target with
    | none =>
      rw [Heap.unfoldFrom_null note above ht]
      rfl
    | some a =>
      rw [Option.bind_some]
      split_ifs with habove
      · rw [Heap.unfoldFrom_back note ht habove]
        rfl
      · cases hb : m.heap.block? a with
        | none =>
          rw [Heap.unfoldFrom_gone note ht habove hb, at?, hb]
          rfl
        | some b =>
          rw [Heap.unfoldFrom_array note ht habove hb, Tree.shown?_array, at?, hb]
          cases hrow : b.rows[cell.1]? <;> simp [Rows.cell?, hrow, Option.bind_map]
  | _ =>
    rw [Heap.unfoldFrom_scalar note above rfl]
    rfl

/-- Unfolding shows what stands at the places that open no array twice and none of those above. -/
theorem shown?_unfoldFrom (note : Handle → α) {above : List Address} (habove : above.Nodup) (v : Value)
    (path : List Cell) : (m.heap.unfoldFrom note above v).shown? path =
      if (m.opened v path ++ above).Nodup then
        (m.peekNested v path).toOption.map (m.faceBelow (m.opened v path ++ above)) else none := by
  induction path generalizing v above with
  | nil =>
    have hopened : m.opened v [] = [] := rfl
    rw [hopened, List.nil_append, if_pos habove, Tree.shown?, Tree.at?, Option.map_some, face_unfoldFrom]
    rfl
  | cons cell rest ih =>
    rw [shown?_unfoldFrom_cons, toOption_peekNested_cons]
    cases ht : v.target? with
    | none => simp
    | some a =>
      cases hw : m.at? (a, cell) with
      | none => simp [hw]
      | some w =>
        rw [opened_cons ht hw, List.cons_append]
        have hmiddle : (a :: (m.opened w rest ++ above)).Nodup ↔ (m.opened w rest ++ a :: above).Nodup :=
          List.nodup_middle.symm
        simp only [Option.bind_some, hw]
        split_ifs with hin hnodup hnodup
        · exact absurd (List.mem_append_right _ hin) (List.nodup_cons.1 hnodup).1
        · rfl
        · rw [ih (List.nodup_cons.2 ⟨hin, habove⟩), if_pos (hmiddle.1 hnodup)]
          congr 1
          funext u
          exact faceBelow_congr (fun x => List.perm_middle.mem_iff) u
        · rw [ih (List.nodup_cons.2 ⟨hin, habove⟩), if_neg (mt hmiddle.2 hnodup)]

theorem shown?_tree (m : Memory) (v : Value) (path : List Cell) : (m.heap.tree v).shown? path = m.shown? v path := by
  have hshown := shown?_unfoldFrom (m := m) (fun _ => ()) List.nodup_nil v path
  rwa [List.append_nil] at hshown

/-! ### Values without cycles -/

theorem leads_of_opened (hx : x ∈ m.opened v path) :
    ∃ a, v.target? = some a ∧ Relation.ReflTransGen m.heap.PointsTo a x := by
  induction path generalizing v with
  | nil => cases hx
  | cons cell rest ih =>
    cases ht : v.target? with
    | none => simp [opened, crossed, ht] at hx
    | some a =>
      refine ⟨a, rfl, ?_⟩
      cases hw : m.at? (a, cell) with
      | none =>
        obtain rfl : x = a := by simpa [opened, crossed, ht, hw] using hx
        exact .refl
      | some w =>
        rw [opened_cons ht hw, List.mem_cons] at hx
        rcases hx with rfl | hx
        · exact .refl
        · obtain ⟨b, hb, hcell⟩ := Option.bind_eq_some_iff.1 hw
          obtain ⟨y, hy, hpath⟩ := ih hx
          exact .head ⟨b, hb, w, Rows.mem_cells_of_cell? hcell, hy⟩ hpath

theorem nodup_opened (hv : m.heap.Grounded v) (path : List Cell) : (m.opened v path).Nodup := by
  induction path generalizing v with
  | nil => exact List.nodup_nil
  | cons cell rest ih =>
    cases ht : v.target? with
    | none => simp [opened, crossed, ht]
    | some a =>
      cases hw : m.at? (a, cell) with
      | none => simp [opened, crossed, ht, hw]
      | some w =>
        obtain ⟨b, hb, hcell⟩ := Option.bind_eq_some_iff.1 hw
        have hmem : w ∈ b.cells := Rows.mem_cells_of_cell? hcell
        rw [opened_cons ht hw, List.nodup_cons]
        refine ⟨fun hin => ?_, ih (hv.cell ht hb hmem)⟩
        obtain ⟨y, hy, hpath⟩ := leads_of_opened hin
        exact hv a (.value (List.mem_singleton_self v) ht) (.head' ⟨b, hb, w, hmem, hy⟩ hpath)

theorem shown?_of_grounded (hv : m.heap.Grounded v) (path : List Cell) : m.shown? v path = m.outline? v path := by
  rw [shown?, if_pos (nodup_opened hv path), outline?]
  cases hpeek : m.peekNested v path with
  | error f => rfl
  | ok w =>
    refine congrArg some ?_
    cases w with
    | array k =>
      cases ht : k.target with
      | none => simp only [faceBelow, ht]
      | some a =>
        -- one more step of the path opens the array at its end
        have hmore := nodup_opened hv (path ++ [(0, 0)])
        rw [opened, crossed_append_singleton hpeek (w := .array k) ht, List.map_append, List.nodup_append] at hmore
        have hout : a ∉ m.opened v path := fun hin => hmore.2.2 a hin a (List.mem_singleton_self a) rfl
        simp [faceBelow, ht, hout]
    | _ => rfl

theorem outline?_ne_back (m : Memory) (v : Value) (path : List Cell) : m.outline? v path ≠ some .back := by
  rw [outline?]
  cases m.peekNested v path with
  | error f => nofun
  | ok w =>
    intro hback
    obtain ⟨a, ha, -⟩ := faceBelow_eq_back_iff.1 (Option.some.inj hback)
    exact List.not_mem_nil ha

theorem whole_tree (hv : m.heap.Grounded v) : (m.heap.tree v).Whole := fun path => by
  rw [shown?_tree, shown?_of_grounded hv]
  exact outline?_ne_back m v path

end Memory

end ScriptVm
