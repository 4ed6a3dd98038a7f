import ScriptVm.Heap.Slot
import ScriptVm.Proofs.Building

/-! Reading what was stored. A path of cells leads to the same content as long as all that it passes keeps its
rows, and a store at the end of a path, made through data that is held once, is read back along that path. -/

namespace ScriptVm

namespace Memory
variable {m m' : Memory} {us vs : List Value} {v : Value}

theorem peek_of_block {a : Address} {b : Block} (hv : v.target? = some a) (hb : m.heap.block? a = some b)
    (cell : Cell) :
    m.peek v cell =
      match b.cell? cell.1 cell.2 with
      | some content => .ok content
      | none => .error (.outOfBounds cell.1 cell.2 b.rows.size ((b.rows[cell.1]?.map Array.size).getD 0)) := by
  cases v with
  | array h =>
    have ht : h.target = some a := hv
    cases hcell : b.cell? cell.1 cell.2 <;> simp only [peek, ht, Option.bind_some, hb, hcell]
  | _ => cases hv

theorem peek_heap (hheap : m'.heap = m.heap) (cell : Cell) : m'.peek v cell = m.peek v cell := by
  unfold peek
  rw [hheap]

theorem peek_of_null (hv : v.target? = none) (cell : Cell) : ∃ f, ∀ m : Memory, m.peek v cell = .error f := by
  cases v with
  | array h =>
    have ht : h.target = none := hv
    exact ⟨.outOfBounds cell.1 cell.2 0 0, fun m => by simp only [peek, ht, Option.bind_none]⟩
  | _ => exact ⟨.notAnArray, fun _ => rfl⟩

theorem peekNested_congr (hs : m.heap.Supports us) (hv : m.heap.Holds [v]) (ha : Heap.Agrees [v] m.heap m'.heap)
    (path : List Cell) : m'.peekNested v path = m.peekNested v path := by
  induction path generalizing v with
  | nil => rfl
  | cons cell rest ih =>
    cases htarget : v.target? with
    | none =>
      obtain ⟨f, hf⟩ := peek_of_null htarget cell
      simp only [peekNested, hf]
    | some a =>
      obtain ⟨b, hb⟩ := hv v (List.mem_singleton_self v) a htarget
      have hreached : m.heap.Reaches [v] a := .value (List.mem_singleton_self v) htarget
      obtain ⟨b', hb', hrows⟩ := ha a b hreached hb
      simp only [peekNested, peek_of_block htarget hb, peek_of_block htarget hb', Block.cell?_eq, hrows]
      cases hcell : Rows.cell? b.rows cell.1 cell.2 with
      | none => rfl
      | some inner =>
        have hmem : inner ∈ b.cells := Rows.mem_cells_of_cell? hcell
        exact ih ((hs.holds_cells hb).one hmem) (ha.of_cell hreached hb hmem)

section
variable {a : Address} {b : Block} {cell : Cell} {old new : Value}

theorem peek_overwrite (hs : m.heap.Supports (new :: v :: vs)) (hv : v.target? = some a)
    (hb : m.heap.block? a = some b) (hold : Rows.cell? b.rows cell.1 cell.2 = some old) :
    Heap.Agrees (v :: vs) (m.putCell a cell new).heap (m.overwrite a cell new).heap ∧
      (m.overwrite a cell new).peek v cell = .ok new := by
  have hagrees : Heap.Agrees (v :: vs) (m.putCell a cell new).heap (m.overwrite a cell new).heap := by
    rw [heap_overwrite hb hold]
    exact Heap.agrees_release [old] (supports_putCell hs hb hold)
  obtain ⟨b', hb', hrows⟩ := hagrees a _ (.value List.mem_cons_self hv) (block?_putCell hb cell new)
  refine ⟨hagrees, ?_⟩
  rw [peek_of_block hv hb', Block.cell?_eq, hrows, Rows.cell?_set hold new]

end

/-- What is stored at the end of a path, through data that is not shared, is there. -/
theorem peekNested_storeNested {new : Value} (hs : m.heap.Supports (v :: new :: vs)) (path : List Cell)
    (owner : Option NodeId) {r : Value × Memory} (hr : m.storeNested v path new true owner = r) :
    r.2.peekNested r.1 path = .ok new := by
  induction path generalizing m v vs owner r with
  | nil =>
    rw [storeNested] at hr
    subst hr
    rfl
  | cons cell rest ih =>
    have ho := opened_openForWrite hs true owner
    rcases hopen : m.openForWrite v true owner with ⟨a, v', m₁⟩
    rw [hopen] at ho
    dsimp only at ho
    obtain ⟨b, hb, hcell, hfar⟩ := reached ho cell
    obtain ⟨hisolated, hothers⟩ := hfar rfl
    by_cases hrest : rest = []
    · subst hrest
      have hs₂ : (m₁.growAt a cell).heap.Supports (new :: v' :: vs) :=
        (supports_growAt ho.supports a cell).perm (List.Perm.swap _ _ _)
      obtain ⟨-, hread⟩ := peek_overwrite hs₂ ho.target hb hcell
      have hstored : r.1 = v' ∧ r.2.heap = ((m₁.growAt a cell).overwrite a cell new).heap := by
        rw [storeNested, store] at hr
        simp only [reachCell, hopen] at hr
        subst hr
        exact ⟨rfl, rfl⟩
      rw [peekNested, hstored.1, peek_heap hstored.2, hread]
      rfl
    set inner := (m₁.growAt a cell).cellAt a cell with hinner
    obtain ⟨m₂, hm₂⟩ : ∃ m₂, (m₁.growAt a cell).putCell a cell .undefined = m₂ := ⟨_, rfl⟩
    have hs₂ : m₂.heap.Supports (inner :: new :: v' :: vs) := hm₂ ▸ supports_moved ho.supports hb hcell
    have hw := written_storeNested hs₂ rest true (m₂.node? v')
    rcases hnested : m₂.storeNested inner rest new true (m₂.node? v') with ⟨inner', m₃⟩
    rw [storeNested_cons m v cell hrest new true owner hopen hm₂ hnested] at hr
    subst hr
    rw [hnested] at hw
    dsimp only at hw ⊢
    have hread := ih hs₂ (m₂.node? v') hnested
    obtain ⟨b₃, hb₃⟩ := hw.supports.alive (v := v') (by simp) ho.target
    obtain ⟨b₄, hb₄, -, hcell₄⟩ := cell?_growAt hb₃ cell
    have hs₄ := supports_growAt hw.supports a cell
    obtain ⟨hagrees, hpeek⟩ := peek_overwrite hs₄ ho.target hb₄ hcell₄
    -- what lay in the cell does not lead back to the array that it lay in
    have hnew : handlesOn a [new] = 0 := by
      simp only [handlesOn_cons, handlesOn_nil] at hothers ⊢
      omega
    obtain ⟨hisolated₃, hinner'⟩ := isolated_below hb hcell hm₂ hisolated hnew hw.evolves
    obtain ⟨hisolated₄, -⟩ :=
      (evolves_growAt m₃ a cell [inner']).unforged a (Heap.lt_of_block? hb₃) hisolated₃ hinner'
    have hput : Heap.Agrees [inner'] m₃.heap ((m₃.growAt a cell).putCell a cell inner').heap :=
      (Heap.agrees_modify (Heap.not_reaches_of_isolated hisolated₃ hinner') _).trans
        (Heap.agrees_modify (Heap.not_reaches_of_isolated hisolated₄ hinner') _)
    have hcells : inner' ∈ ({ b₄ with rows := Rows.set b₄.rows cell.1 cell.2 inner' } : Block).cells :=
      Rows.mem_cells_of_cell? (Rows.cell?_set hcell₄ inner')
    have hback := hagrees.of_cell (.value List.mem_cons_self ho.target) (block?_putCell hb₄ cell inner') hcells
    rw [peekNested, hpeek]
    dsimp only
    rw [peekNested_congr hw.supports (hw.supports.holds.one List.mem_cons_self) (hput.trans hback), hread]

/-! ### Slots -/

/-- A store through a value that takes `new` in: what is left in place of the value holds it at the end of the path,
and the other values reach what they did. -/
structure Stores (m : Memory) (v new : Value) (path : List Cell) (vs : List Value) (r : Value × Memory) : Prop where
  supports : r.2.heap.Supports (r.1 :: vs)
  agrees : Heap.Agrees vs m.heap r.2.heap
  read : ∃ w, r.2.peekNested r.1 path = .ok w ∧ w.share = new.share

theorem stores_storeNested {new : Value} (hs : m.heap.Supports (v :: new :: vs)) (path : List Cell)
    (owner : Option NodeId) : m.Stores v new path vs (m.storeNested v path new true owner) := by
  have hwritten := written_storeNested hs path true owner
  exact ⟨hwritten.supports, hwritten.agrees rfl, new, peekNested_storeNested hs path owner rfl, rfl⟩

theorem makeRoot_same (m : Memory) (v : Value) : (m.makeRoot v).2.heap = m.heap ∧ (m.makeRoot v).1.share = v.share := by
  unfold makeRoot
  cases m.collector with
  | none => exact ⟨rfl, rfl⟩
  | some c =>
    cases v with
    | array h =>
      dsimp only [rootHandle]
      split_ifs
      · exact ⟨rfl, rfl⟩
      · split <;> exact ⟨rfl, rfl⟩
    | _ => exact ⟨rfl, rfl⟩

theorem heap_releaseRoot (m : Memory) (v : Value) : (m.releaseRoot v).2.heap = m.heap := by
  unfold releaseRoot
  cases m.collector with
  | none => rfl
  | some c =>
    cases v with
    | array h =>
      dsimp only [unrootHandle]
      split_ifs
      · split <;> rfl
      · rfl
    | _ => rfl

theorem reanchor_same (m : Memory) (slot : Value) (owner : Option NodeId) (v : Value) :
    (m.reanchor slot owner v).2.heap = m.heap ∧ (m.reanchor slot owner v).1.share = v.share := by
  cases owner with
  | some id => exact ⟨rfl, rfl⟩
  | none =>
    obtain ⟨hheap, hshare⟩ := (m.releaseRoot slot).2.makeRoot_same v
    exact ⟨hheap.trans (m.heap_releaseRoot slot), hshare⟩

theorem stores_replaceSlot {new : Value} (hs : m.heap.Supports (v :: new :: vs)) (owner : Option NodeId) :
    m.Stores v new [] vs (m.replaceSlot v owner new) := by
  obtain ⟨hheap, hshare⟩ := m.reanchor_same v owner new
  have hreleased : (m.replaceSlot v owner new).2.heap = m.heap.release [v] := congrArg (·.release [v]) hheap
  have htarget : (m.replaceSlot v owner new).1.target? = new.target? := by
    rw [← Value.target?_share, ← Value.target?_share new, ← hshare]
    rfl
  have hkept : m.heap.Supports ([v] ++ ((m.replaceSlot v owner new).1 :: vs)) := hs.of_le fun a => by simp [htarget]
  refine ⟨hreleased ▸ Heap.Supports.release [v] hkept, ?_, _, rfl, hshare⟩
  rw [hreleased]
  exact (Heap.agrees_release [v] hkept).mono fun w hw => List.mem_cons_of_mem _ hw

theorem stores_storeInSlot {new : Value} (hs : m.heap.Supports (v :: new :: vs)) (owner : Option NodeId)
    (path : List Cell) : m.Stores v new path vs (m.storeInSlot v owner path new true) := by
  -- the value that is written through is an array by now and may have become a root
  obtain ⟨slot, m', hstore, hheap, htarget⟩ : ∃ (slot : Value) (m' : Memory),
      m.storeInSlot v owner path new true = m'.storeNested slot path new true owner ∧ m'.heap = m.heap ∧
        slot.target? = v.target? := by
    cases owner with
    | some id => exact ⟨_, m, rfl, rfl, target?_handleOf v⟩
    | none =>
      obtain ⟨hheap, hshare⟩ := m.makeRoot_same (.array (handleOf v))
      refine ⟨(m.makeRoot (.array (handleOf v))).1, (m.makeRoot (.array (handleOf v))).2, rfl, hheap, ?_⟩
      rw [← Value.target?_share, hshare, Value.target?_share]
      exact target?_handleOf v
  have hslot : m'.heap.Supports (slot :: new :: vs) := by
    rw [hheap]
    exact hs.of_le fun a => by simp [htarget]
  obtain ⟨hsupports, hagrees, hread⟩ := stores_storeNested hslot path owner
  rw [hheap] at hagrees
  rw [hstore]
  exact ⟨hsupports, hagrees, hread⟩

end Memory
end ScriptVm
