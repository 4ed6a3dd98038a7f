import ScriptVm.Proofs.Denotation
import ScriptVm.Proofs.StoredForm

/-! Values come back from their stored form. A value none of whose arrays contains itself unfolds into a
tree that can be stored; what is read back is built above all data there was, inner arrays below
outer ones, so that it unfolds into the tree that was read, in whatever memory it is built. -/

namespace ScriptVm

/-- Heights and widths are machine words, and so are the lengths of strings. -/
def Block.Fits (b : Block) : Prop :=
  b.rows.size < 2 ^ 64 ∧ ∀ row ∈ b.rows.toList, row.size < 2 ^ 64 ∧ ∀ cell ∈ row.toList, cell.Fits

namespace Heap
variable {h h' : Heap}

/-- No array that the value reaches contains itself, and all its lengths are machine words. -/
structure Savable (h : Heap) (v : Value) : Prop where
  acyclic : ∀ a, h.Reaches [v] a → ¬ Relation.TransGen h.PointsTo a a
  fits : v.Fits
  blocks : ∀ a b, h.Reaches [v] a → h.block? a = some b → b.Fits

theorem Savable.cell {v cell : Value} {a : Address} {b : Block} {row : Array Value} (hv : h.Savable v)
    (ha : v.target? = some a) (hb : h.block? a = some b) (hrow : row ∈ b.rows.toList) (hcell : cell ∈ row.toList) :
    h.Savable cell := by
  have hin : cell ∈ b.cells := List.mem_flatMap.2 ⟨row, hrow, hcell⟩
  have hfits := hv.blocks a b (.value (List.mem_singleton_self v) ha) hb
  have hbelow : ∀ x, h.Reaches [cell] x → h.Reaches [v] x := fun x hx =>
    hx.of_cell (.value (List.mem_singleton_self v) ha) hb hin
  exact ⟨fun x hx => hv.acyclic x (hbelow x hx), (hfits.2 row hrow).2 cell hcell,
    fun x c hx hc => hv.blocks x c (hbelow x hx) hc⟩

/-- A value below arrays that all lead to it is on none of them, so its tree can be stored. -/
theorem Savable.storable_unfoldFrom {α : Type} (note : Handle → α) {path : List Address} {v : Value} (hv : h.Savable v)
    (hpath : ∀ x ∈ path, ∀ a, v.target? = some a → Relation.TransGen h.PointsTo x a) :
    (h.unfoldFrom note path v).Storable := by
  cases v with
  | array k =>
    cases ht : k.target with
    | none =>
      rw [unfoldFrom_null note path ht]
      trivial
    | some a =>
      have hout : a ∉ path := by
        intro hin
        exact hv.acyclic a (.value (List.mem_singleton_self _) ht) (hpath a hin a ht)
      cases hb : h.block? a with
      | none =>
        rw [unfoldFrom_gone note ht hout hb]
        trivial
      | some b =>
        have hfits := hv.blocks a b (.value (List.mem_singleton_self _) ht) hb
        rw [unfoldFrom_array note ht hout hb, Tree.Storable, Tree.storableRows_iff, List.length_map]
        refine ⟨hfits.1, fun row' hrow' => ?_⟩
        obtain ⟨row, hrow, rfl⟩ := List.mem_map.1 hrow'
        rw [List.length_map]
        refine ⟨(hfits.2 row hrow).1, fun t ht' => ?_⟩
        obtain ⟨cell, hcell, rfl⟩ := List.mem_map.1 ht'
        refine (hv.cell ht hb hrow hcell).storable_unfoldFrom note fun x hx y hy => ?_
        have hstep : h.PointsTo a y := ⟨b, hb, cell, List.mem_flatMap.2 ⟨row, hrow, hcell⟩, hy⟩
        rcases List.mem_cons.1 hx with rfl | hx
        · exact .single hstep
        · exact (hpath x hx a ht).tail hstep
  | _ =>
    rw [unfoldFrom_scalar note path rfl]
    exact ⟨rfl, hv.fits⟩
termination_by h.unvisited path
decreasing_by exact unvisited_cons_lt (lt_of_block? hb) hout

theorem Savable.storable {v : Value} (hv : h.Savable v) : (h.tree v).Storable :=
  hv.storable_unfoldFrom _ nofun

/-- The heap has grown so that unfolding has a property, whatever is added later and whatever arrays are
open that were not there. -/
structure Grown (h h' : Heap) (P : (Value → Tree Unit) → Prop) : Prop where
  keeps : h.Extends h'
  size : h.blocks.size ≤ h'.blocks.size
  shows : ∀ later path, h'.Extends later → (∀ x ∈ path, h'.blocks.size ≤ x) →
    P (later.unfoldFrom (fun _ => ()) path)

theorem grown_refl {P : (Value → Tree Unit) → Prop} (hP : ∀ (later : Heap) path, P (later.unfoldFrom (fun _ => ()) path)) :
    h.Grown h P :=
  ⟨Extends.refl h, le_rfl, fun later path _ _ => hP later path⟩

theorem Grown.trans {h'' : Heap} {P Q R : (Value → Tree Unit) → Prop} (hP : h.Grown h' P) (hQ : h'.Grown h'' Q)
    (hR : ∀ tree, P tree → Q tree → R tree) : h.Grown h'' R := by
  refine ⟨hP.keeps.trans hQ.keeps, hP.size.trans hQ.size, fun later path hlater hpath => ?_⟩
  have hearlier : ∀ x ∈ path, h'.blocks.size ≤ x := fun x hx => hQ.size.trans (hpath x hx)
  exact hR _ (hP.shows later path (hQ.keeps.trans hlater) hearlier) (hQ.shows later path hlater hpath)

theorem Grown.place {h'' : Heap} {rows : List (List Value)} {ts : List (List (Tree Unit))}
    (hrows : h.Grown h' fun tree => rows.map (List.map tree) = ts)
    (hplaced : h'.Placed (rows.map List.toArray).toArray h'') :
    h.Grown h'' fun tree => tree (.array { target := some h'.blocks.size }) = .array () ts := by
  refine ⟨hrows.keeps.trans hplaced.keeps, ?_, fun later path hlater hpath => ?_⟩
  · rw [hplaced.size]
    exact Nat.le_succ_of_le hrows.size
  · rw [hplaced.size] at hpath
    obtain ⟨b, hb, hcells, -⟩ := hplaced.block
    obtain ⟨b', hb', hcells'⟩ := hlater _ b hb
    have hout : h'.blocks.size ∉ path := fun hin => Nat.not_succ_le_self _ (hpath _ hin)
    have hinner : ∀ x ∈ h'.blocks.size :: path, h'.blocks.size ≤ x := by
      intro x hx
      rcases List.mem_cons.1 hx with rfl | hx
      · exact le_rfl
      · exact Nat.le_of_succ_le (hpath x hx)
    rw [unfoldFrom_array _ rfl hout hb', hcells', hcells, ← hrows.shows later _ (hplaced.keeps.trans hlater) hinner]
    simp

end Heap

namespace Tree

mutual

theorem grown_build (tracked : Unit → Bool) {t : Tree Unit} (ht : t.Storable) (m : Memory) :
    m.heap.Grown (t.build tracked m).2.heap fun tree => tree (t.build tracked m).1 = t := by
  cases t with
  | scalar v =>
    have hshare : v.share = v := by
      cases v with
      | array k => cases ht.1
      | _ => rfl
    have hsame := Heap.sameRows_retain m.heap v
    rw [build]
    refine ⟨hsame.keeps, hsame.size.ge, fun later path _ _ => ?_⟩
    simp only [Memory.share, hshare]
    exact Heap.unfoldFrom_scalar _ path ht.1
  | null note =>
    rw [build]
    exact Heap.grown_refl fun later path => Heap.unfoldFrom_null _ path rfl
  | back note => exact ht.elim
  | array note rows =>
    have hrows := grown_buildRows tracked ht.2 m
    rw [build]
    rcases hbuilt : buildRows tracked rows m with ⟨cells, m₁⟩
    rw [hbuilt] at hrows
    obtain ⟨hvalue, hplaced⟩ := Memory.placed_trackedIf m₁ (tracked note) (cells.map List.toArray).toArray
    simp only [hvalue]
    exact hrows.place hplaced

theorem grown_buildRows (tracked : Unit → Bool) {rows : List (List (Tree Unit))} (hrows : StorableRows rows)
    (m : Memory) :
    m.heap.Grown (buildRows tracked rows m).2.heap fun tree =>
      (buildRows tracked rows m).1.map (List.map tree) = rows := by
  cases rows with
  | nil =>
    rw [buildRows]
    exact Heap.grown_refl fun _ _ => rfl
  | cons row rows =>
    rw [buildRows]
    refine (grown_buildCells tracked hrows.2.1 m).trans (grown_buildRows tracked hrows.2.2 _) ?_
    intro tree hrow hrest
    rw [List.map_cons, hrow, hrest]

theorem grown_buildCells (tracked : Unit → Bool) {cells : List (Tree Unit)} (hcells : StorableCells cells)
    (m : Memory) :
    m.heap.Grown (buildCells tracked cells m).2.heap fun tree => (buildCells tracked cells m).1.map tree = cells := by
  cases cells with
  | nil =>
    rw [buildCells]
    exact Heap.grown_refl fun _ _ => rfl
  | cons cell cells =>
    rw [buildCells]
    refine (grown_build tracked hcells.1 m).trans (grown_buildCells tracked hcells.2 _) ?_
    intro tree hcell hrest
    rw [List.map_cons, hcell, hrest]

end

theorem tree_build (tracked : Unit → Bool) {t : Tree Unit} (ht : t.Storable) (m : Memory) :
    (t.build tracked m).2.heap.tree (t.build tracked m).1 = t :=
  (grown_build tracked ht m).shows _ [] (Heap.Extends.refl _) nofun

end Tree

namespace Memory

/-- A value whose arrays do not contain themselves has a stored form. From its bytes, with whatever
behind them, any memory loads just these and gives a value with the same tree, up to arrays without
data, and the same stored form; or it fails, if arrays nest deeper than is read. -/
theorem load_stored {m : Memory} {v : Value} (hv : m.heap.Savable v) :
    ∃ bytes, m.stored? v = some bytes ∧ ∀ (n : Memory) (rest : List UInt8),
      ((m.heap.tree v).depth ≤ 256 → ∃ v' n', n.load (bytes ++ rest) = (.ok (v', rest), n') ∧
        n'.heap.tree v' = (m.heap.tree v).settled ∧ n'.stored? v' = some bytes) ∧
      (256 < (m.heap.tree v).depth → ∃ f n', n.load (bytes ++ rest) = (.error f, n') ∧ f.kind = .misc) := by
  have ht := hv.storable
  obtain ⟨bytes, hbytes⟩ := Stored.exists_encode ht
  refine ⟨bytes, hbytes, fun n rest => ⟨fun hdepth => ?_, fun hdepth => ?_⟩⟩
  · have hparse : Stored.parse (bytes ++ rest) = .ok ((m.heap.tree v).settled, rest) :=
      Stored.takes_encode ht hdepth hbytes rest
    have htree := Tree.tree_build (fun _ => true) ht.settled n
    refine ⟨_, _, by rw [load, hparse], htree, ?_⟩
    have hstored := congrArg Stored.encode htree
    rw [Stored.encode_settled, hbytes] at hstored
    exact hstored
  · obtain ⟨completed, hparse⟩ := Stored.refuses_encode ht hdepth hbytes rest
    have hparse : Stored.parse (bytes ++ rest) = .error ⟨.tooDeep, completed⟩ := hparse
    exact ⟨_, _, by rw [load, hparse], rfl⟩

end Memory

def Heap.twins : Heap :=
  ⟨#[some { rows := #[#[.string "é", .real ⟨0x7FF4000000000001⟩]], holders := 2 },
    some { rows := #[#[.array { target := some 0 }, .array { target := some 0 }], #[], #[.array {}]] }]⟩

theorem Heap.block?_twins {a : Address} {b : Block} (hb : twins.block? a = some b) :
    a = 0 ∧ b = { rows := #[#[.string "é", .real ⟨0x7FF4000000000001⟩]], holders := 2 } ∨
      a = 1 ∧ b = { rows := #[#[.array { target := some 0 }, .array { target := some 0 }], #[], #[.array {}]] } := by
  match a, hb with
  | 0, hb => exact Or.inl ⟨rfl, (Option.some.inj hb).symm⟩
  | 1, hb => exact Or.inr ⟨rfl, (Option.some.inj hb).symm⟩

theorem Heap.savable_twins : twins.Savable (.array { target := some 1 }) := by
  refine ⟨fun a _ => Acyclic.not_self ⟨id, fun a x hstep => ?_⟩ a, trivial, fun a b _ hb => ?_⟩
  · obtain ⟨b, hb, v, hv, hx⟩ := hstep
    rcases block?_twins hb with ⟨rfl, rfl⟩ | ⟨rfl, rfl⟩ <;> simp only [Block.cells] at hv <;> simp at hv
    · rcases hv with rfl | rfl <;> cases hx
    · rcases hv with rfl | rfl <;> cases hx
      decide
  · rcases block?_twins hb with ⟨rfl, rfl⟩ | ⟨rfl, rfl⟩ <;> simp [Block.Fits, Value.Fits]
    decide

namespace Memory

theorem load_stored_twins : ∃ bytes, stored? ⟨.twins, none⟩ (.array { target := some 1 }) = some bytes ∧
    ∃ v' n', ({ collector := some {} } : Memory).load (bytes ++ [7]) = (.ok (v', [7]), n') ∧
      n'.heap.tree v' = (Heap.twins.tree (.array { target := some 1 })).settled ∧ n'.stored? v' = some bytes := by
  obtain ⟨bytes, hstored, hload⟩ := load_stored (m := ⟨.twins, none⟩) Heap.savable_twins
  exact ⟨bytes, hstored, (hload _ [7]).1 (by cbv)⟩

end Memory
end ScriptVm
