import ScriptVm.Proofs.Passes
import ScriptVm.Heap.Tree

/-! Building trees in memory. Building keeps every block and gives one new hand; the values at the
leaves have to lead to data that is there. -/

namespace ScriptVm

namespace Tree
variable {α : Type}

mutual

def leaves : Tree α → List Value
  | .scalar v => [v]
  | .null _ => []
  | .back _ => []
  | .array _ rows => rowLeaves rows

def rowLeaves : List (List (Tree α)) → List Value
  | [] => []
  | row :: rows => cellLeaves row ++ rowLeaves rows

def cellLeaves : List (Tree α) → List Value
  | [] => []
  | cell :: cells => cell.leaves ++ cellLeaves cells

end

end Tree

namespace Rows

theorem cells_ofLists (rows : List (List Value)) :
    cells (rows.map List.toArray).toArray = rows.flatten := by
  simp [cells, List.flatMap_map, List.flatMap_id']

end Rows

namespace Heap

def Holds (h : Heap) (vs : List Value) : Prop :=
  ∀ v ∈ vs, ∀ a, v.target? = some a → ∃ b, h.block? a = some b

theorem Holds.mono {h h' : Heap} {vs : List Value} (hv : h.Holds vs) (he : h.Extends h') : h'.Holds vs := by
  intro v hmem a ha
  obtain ⟨b, hb⟩ := hv v hmem a ha
  obtain ⟨b', hb', -⟩ := he a b hb
  exact ⟨b', hb'⟩

theorem holds_append {h : Heap} {vs ws : List Value} :
    h.Holds (vs ++ ws) ↔ h.Holds vs ∧ h.Holds ws := by
  simp only [Holds, List.mem_append, or_imp, forall_and]

theorem Supports.holds {h : Heap} {vs : List Value} (hs : h.Supports vs) : h.Holds vs :=
  fun _ hv _ ha => hs.alive hv ha

theorem Supports.holds_cells {h : Heap} {us : List Value} (hs : h.Supports us) {a : Address} {b : Block}
    (hb : h.block? a = some b) : h.Holds b.cells :=
  fun _ hv _ ha => hs.cell_alive hb hv ha

theorem Holds.one {h : Heap} {vs : List Value} (hv : h.Holds vs) {w : Value} (hw : w ∈ vs) : h.Holds [w] := by
  intro u hu
  obtain rfl := List.mem_singleton.1 hu
  exact hv u hw

end Heap

namespace Memory
variable {α : Type} {m : Memory} {vs : List Value}

theorem holds_peekNested {m : Memory} {vs : List Value} (hs : m.heap.Supports vs) {v w : Value}
    (hv : m.heap.Holds [v]) {path : List Cell} (hpeek : m.peekNested v path = .ok w) :
    m.heap.Holds [w] := by
  induction path generalizing v with
  | nil =>
    rw [peekNested] at hpeek
    rwa [← Except.ok.inj hpeek]
  | cons cell rest ih =>
    rw [peekNested] at hpeek
    split at hpeek
    · rename_i inner hinner
      refine ih ?_ hpeek
      intro u hu a ha
      obtain rfl := List.mem_singleton.1 hu
      unfold peek at hinner
      split at hinner
      · split at hinner
        · cases hinner
        · rename_i h b hb
          obtain ⟨x, -, hb⟩ := Option.bind_eq_some_iff.1 hb
          split at hinner
          · rename_i content hcell
            obtain rfl := Except.ok.inj hinner
            exact hs.cell_alive hb (Rows.mem_cells_of_cell? hcell) ha
          · cases hinner
      · cases hinner
    · cases hpeek

theorem placed_trackedIf (m : Memory) (tracked : Bool) (rows : Rows) :
    (m.trackedIf tracked (·.newArray rows)).1 = .array { target := some m.heap.blocks.size } ∧
      m.heap.Placed rows (m.trackedIf tracked (·.newArray rows)).2.heap := by
  cases tracked with
  | true => exact ⟨rfl, placed_newArray m rows⟩
  | false => exact ⟨rfl, placed_newArray { m with collector := none } rows⟩

end Memory

namespace Tree
variable {α : Type}

mutual

theorem supports_build (tracked : α → Bool) (t : Tree α) {m : Memory} {vs : List Value}
    (hs : m.heap.Supports vs) (hleaves : m.heap.Holds t.leaves) :
    (t.build tracked m).2.heap.Supports ((t.build tracked m).1 :: vs) ∧
      m.heap.Extends (t.build tracked m).2.heap := by
  cases t with
  | scalar v =>
    rw [build]
    refine ⟨(hs.retain (hleaves v (by simp [leaves]))).of_le fun a => ?_, (Heap.sameRows_retain m.heap v).keeps⟩
    simp [Memory.share]
  | null note =>
    rw [build]
    exact ⟨hs.of_le (by simp [Value.target?]), Heap.Extends.refl _⟩
  | back note =>
    rw [build]
    exact ⟨hs.of_le (by simp [Value.target?]), Heap.Extends.refl _⟩
  | array note rows =>
    rw [build]
    obtain ⟨hrows, hkeeps⟩ := supports_buildRows tracked rows hs hleaves
    rcases hbuilt : buildRows tracked rows m with ⟨cells, m₁⟩
    rw [hbuilt] at hrows hkeeps
    obtain ⟨hvalue, hplaced⟩ := Memory.placed_trackedIf m₁ (tracked note) (cells.map List.toArray).toArray
    refine ⟨hplaced.supports ?_ (by rw [hvalue]; rfl), hkeeps.trans hplaced.keeps⟩
    rw [Rows.cells_ofLists]
    exact hrows

theorem supports_buildRows (tracked : α → Bool) (rows : List (List (Tree α))) {m : Memory}
    {vs : List Value} (hs : m.heap.Supports vs) (hleaves : m.heap.Holds (rowLeaves rows)) :
    (buildRows tracked rows m).2.heap.Supports ((buildRows tracked rows m).1.flatten ++ vs) ∧
      m.heap.Extends (buildRows tracked rows m).2.heap := by
  cases rows with
  | nil =>
    rw [buildRows]
    exact ⟨hs, Heap.Extends.refl _⟩
  | cons row rows =>
    rw [rowLeaves, Heap.holds_append] at hleaves
    rw [buildRows]
    obtain ⟨hcells, hkeeps⟩ := supports_buildCells tracked row hs hleaves.1
    rcases hbuilt : buildCells tracked row m with ⟨cells, m₁⟩
    rw [hbuilt] at hcells hkeeps
    obtain ⟨hrest, hkeeps'⟩ := supports_buildRows tracked rows hcells (hleaves.2.mono hkeeps)
    rcases hbuilt' : buildRows tracked rows m₁ with ⟨rest, m₂⟩
    rw [hbuilt'] at hrest hkeeps'
    simp only [hbuilt']
    refine ⟨hrest.perm ?_, hkeeps.trans hkeeps'⟩
    rw [List.flatten_cons, ← List.append_assoc]
    exact List.perm_append_comm.append_right vs

theorem supports_buildCells (tracked : α → Bool) (cells : List (Tree α)) {m : Memory}
    {vs : List Value} (hs : m.heap.Supports vs) (hleaves : m.heap.Holds (cellLeaves cells)) :
    (buildCells tracked cells m).2.heap.Supports ((buildCells tracked cells m).1 ++ vs) ∧
      m.heap.Extends (buildCells tracked cells m).2.heap := by
  cases cells with
  | nil =>
    rw [buildCells]
    exact ⟨hs, Heap.Extends.refl _⟩
  | cons cell cells =>
    rw [cellLeaves, Heap.holds_append] at hleaves
    rw [buildCells]
    obtain ⟨hcell, hkeeps⟩ := supports_build tracked cell hs hleaves.1
    rcases hbuilt : cell.build tracked m with ⟨v, m₁⟩
    rw [hbuilt] at hcell hkeeps
    obtain ⟨hrest, hkeeps'⟩ := supports_buildCells tracked cells hcell (hleaves.2.mono hkeeps)
    rcases hbuilt' : buildCells tracked cells m₁ with ⟨rest, m₂⟩
    rw [hbuilt'] at hrest hkeeps'
    simp only [hbuilt']
    exact ⟨hrest.perm List.perm_middle, hkeeps.trans hkeeps'⟩

end

theorem isRooted_build (tracked : α → Bool) (t : Tree α) (m : Memory) :
    (t.build tracked m).1.isRooted = false := by
  cases t with
  | scalar v =>
    rw [build]
    cases v <;> rfl
  | null note => rw [build]; rfl
  | back note => rw [build]; rfl
  | array note rows =>
    rw [build]
    dsimp only
    rw [(Memory.placed_trackedIf _ _ _).1]
    rfl

theorem isRooted_buildCells (tracked : α → Bool) (cells : List (Tree α)) (m : Memory) :
    ∀ v ∈ (buildCells tracked cells m).1, v.isRooted = false := by
  induction cells generalizing m with
  | nil => simp [buildCells]
  | cons cell cells ih =>
    intro v hv
    rw [buildCells] at hv
    rcases List.mem_cons.1 hv with rfl | hv
    · exact isRooted_build tracked cell m
    · exact ih _ v hv

theorem isRooted_buildRows (tracked : α → Bool) (rows : List (List (Tree α))) (m : Memory) :
    ∀ v ∈ (buildRows tracked rows m).1.flatten, v.isRooted = false := by
  induction rows generalizing m with
  | nil => simp [buildRows]
  | cons row rows ih =>
    intro v hv
    rw [buildRows] at hv
    dsimp only at hv
    rw [List.flatten_cons] at hv
    rcases List.mem_append.1 hv with hv | hv
    · exact isRooted_buildCells tracked row m v hv
    · exact ih _ v hv

section
open Memory
variable {covering exact counted : Prop}

theorem mirrors_trackedIf {m : Memory} {c : Collector Tracked} {hands : List Hand} {rows : Rows}
    (hm : Mirrors covering exact counted m c ((Rows.cells rows).map (Prod.mk none) ++ hands))
    (hplain : counted → ∀ v ∈ Rows.cells rows, v.isRooted = false) (tracked : Bool) :
    ∃ c', Mirrors covering exact counted (m.trackedIf tracked (·.newArray rows)).2 c'
      ((none, (m.trackedIf tracked (·.newArray rows)).1) :: hands) := by
  cases tracked with
  | true => exact Mirrors.newArray rows hm hplain
  | false => exact ⟨c, hm.place hplain⟩

mutual

theorem mirrors_build (tracked : α → Bool) (t : Tree α) {m : Memory} {c : Collector Tracked}
    {hands : List Hand} (hm : Mirrors covering exact counted m c hands) (hleaves : m.heap.Holds t.leaves) :
    ∃ c', Mirrors covering exact counted (t.build tracked m).2 c' ((none, (t.build tracked m).1) :: hands) := by
  cases t with
  | scalar v =>
    rw [build]
    exact ⟨c, hm.retain (hleaves v (by simp [leaves]))⟩
  | null note =>
    rw [build]
    exact ⟨c, hm.add_null _ rfl (by simp)⟩
  | back note =>
    rw [build]
    exact ⟨c, hm.add_null _ rfl (by simp)⟩
  | array note rows =>
    rw [build]
    obtain ⟨c₁, hrows⟩ := mirrors_buildRows tracked rows hm hleaves
    rw [← Rows.cells_ofLists] at hrows
    refine mirrors_trackedIf hrows (fun _ v hv => ?_) (tracked note)
    rw [Rows.cells_ofLists] at hv
    exact isRooted_buildRows tracked rows m v hv

theorem mirrors_buildRows (tracked : α → Bool) (rows : List (List (Tree α))) {m : Memory}
    {c : Collector Tracked} {hands : List Hand} (hm : Mirrors covering exact counted m c hands)
    (hleaves : m.heap.Holds (rowLeaves rows)) :
    ∃ c', Mirrors covering exact counted (buildRows tracked rows m).2 c'
      ((buildRows tracked rows m).1.flatten.map (Prod.mk none) ++ hands) := by
  cases rows with
  | nil =>
    rw [buildRows]
    exact ⟨c, hm⟩
  | cons row rows =>
    rw [rowLeaves, Heap.holds_append] at hleaves
    rw [buildRows]
    obtain ⟨c₁, hcells⟩ := mirrors_buildCells tracked row hm hleaves.1
    obtain ⟨-, hkeeps⟩ := supports_buildCells tracked row hm.supports hleaves.1
    obtain ⟨c₂, hrest⟩ := mirrors_buildRows tracked rows hcells (hleaves.2.mono hkeeps)
    refine ⟨c₂, hrest.perm ?_⟩
    dsimp only
    rw [List.flatten_cons, List.map_append, ← List.append_assoc]
    exact List.perm_append_comm.append_right hands

theorem mirrors_buildCells (tracked : α → Bool) (cells : List (Tree α)) {m : Memory}
    {c : Collector Tracked} {hands : List Hand} (hm : Mirrors covering exact counted m c hands)
    (hleaves : m.heap.Holds (cellLeaves cells)) :
    ∃ c', Mirrors covering exact counted (buildCells tracked cells m).2 c'
      ((buildCells tracked cells m).1.map (Prod.mk none) ++ hands) := by
  cases cells with
  | nil =>
    rw [buildCells]
    exact ⟨c, hm⟩
  | cons cell cells =>
    rw [cellLeaves, Heap.holds_append] at hleaves
    rw [buildCells]
    obtain ⟨c₁, hcell⟩ := mirrors_build tracked cell hm hleaves.1
    obtain ⟨-, hkeeps⟩ := supports_build tracked cell hm.supports hleaves.1
    obtain ⟨c₂, hrest⟩ := mirrors_buildCells tracked cells hcell (hleaves.2.mono hkeeps)
    exact ⟨c₂, hrest.perm List.perm_middle⟩

end

end

end Tree
end ScriptVm
