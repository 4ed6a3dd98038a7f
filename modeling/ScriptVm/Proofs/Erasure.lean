import ScriptVm.Proofs.Custody

/-! Memory without the collector's bookkeeping: no nodes, no rooted handles, no collector. What is left
are the rows of each block, its handles and its count of holders, at the same addresses. Every operation
does to this what it does to the whole, whichever owner it is told of; so nothing that it reads is
among what is left out. -/

namespace ScriptVm

theorem map_modify {α β : Type} {e : α → β} {f : α → α} {g : β → β} (h : ∀ x, e (f x) = g (e x)) (xs : Array α)
    (i : Nat) : (xs.modify i f).map e = (xs.map e).modify i g := by
  apply Array.ext_getElem?
  intro j
  rw [Array.getElem?_map, Array.getElem?_modify, Array.getElem?_modify, Array.getElem?_map]
  split_ifs
  · cases xs[j]? with
    | none => rfl
    | some x => simp [h]
  · rfl

@[simp] theorem Value.share_share (v : Value) : v.share.share = v.share := by
  cases v <;> rfl

namespace Rows

@[simp] theorem share_share (rows : Rows) : rows.share.share = rows.share := by
  simp [share, Function.comp_def]

theorem share_grow (rows : Rows) (row col : Nat) : (rows.grow row col).share = rows.share.grow row col := by
  have hrow : ∀ cells : Array Value, (growRow cells (col + 1)).map Value.share =
      growRow (cells.map Value.share) (col + 1) := by
    intro cells
    simp [growRow, Value.share]
  have hmodify := map_modify (e := Array.map Value.share) (g := fun cells => growRow cells (col + 1)) hrow
  rw [grow, share, hmodify]
  simp [grow, share]

theorem share_set (rows : Rows) (row col : Nat) (v : Value) :
    (set rows row col v).share = set rows.share row col v.share :=
  map_modify (fun _ => Array.map_setIfInBounds) rows row

end Rows

/-! ### Blocks and the heap -/

def Block.erased (b : Block) : Block := { b with rows := b.rows.share, node := none }

namespace Block

@[simp] theorem cells_erased (b : Block) : b.erased.cells = b.cells.map Value.share := Rows.cells_share b.rows

@[simp] theorem cell?_erased (b : Block) (row col : Nat) : b.erased.cell? row col = (b.cell? row col).map Value.share := by
  simp only [cell?, erased, Rows.share, Array.getElem?_map]
  cases b.rows[row]? <;> simp

end Block

namespace Heap

def erased (h : Heap) : Heap := ⟨h.blocks.map (Option.map Block.erased)⟩

variable {h : Heap} {a : Address}

@[simp] theorem size_erased (h : Heap) : h.erased.blocks.size = h.blocks.size := Array.size_map

@[simp] theorem block?_erased (h : Heap) (a : Address) : h.erased.block? a = (h.block? a).map Block.erased := by
  simp only [block?, erased, Array.getElem?_map]
  cases h.blocks[a]? with
  | none => rfl
  | some o => cases o <;> rfl

theorem erased_modify {f g : Block → Block} (hfg : ∀ b, (f b).erased = g b.erased) (h : Heap) (a : Address) :
    (h.modify a f).erased = h.erased.modify a g := by
  simp only [modify, erased, Heap.mk.injEq]
  refine map_modify (fun o => ?_) h.blocks a
  cases o <;> simp [hfg]

/-- What only the bookkeeping notices changes nothing. -/
theorem erased_modify_self {f : Block → Block} (hf : ∀ b, (f b).erased = b.erased) (h : Heap) (a : Address) :
    (h.modify a f).erased = h.erased := by
  rw [erased_modify (g := id) hf, modify_id]

@[simp] theorem erased_alloc (h : Heap) (rows : Rows) : (h.alloc rows).2.erased = (h.erased.alloc rows.share).2 := by
  simp [alloc, erased, Block.erased]

@[simp] theorem erased_retain (h : Heap) (v : Value) : (h.retain v).erased = h.erased.retain v := by
  unfold retain
  cases v.target? with
  | none => rfl
  | some a => exact erased_modify (g := fun b => { b with holders := b.holders + 1 }) (fun _ => rfl) h a

theorem erased_retainAll (h : Heap) (vs : List Value) :
    (vs.foldl retain h).erased = (vs.map Value.share).foldl retain h.erased := by
  induction vs generalizing h with
  | nil => rfl
  | cons v vs ih =>
    have hshare : h.erased.retain v.share = h.erased.retain v := by simp [retain]
    rw [List.foldl_cons, ih, List.map_cons, List.foldl_cons, hshare, erased_retain]

theorem erased_put (h : Heap) (a : Address) (o : Option Block) :
    (h.put a o).erased = h.erased.put a (o.map Block.erased) := by
  simp [put, erased]

/-- What is dropped and what goes with it does not depend on the bookkeeping. -/
@[simp] theorem erased_release (h : Heap) (work : List Value) : (h.release work).erased = h.erased.release work := by
  refine (release_rec (P := fun h work r => h.erased.release work = r.erased) ?_ ?_ ?_ ?_ h work).symm
  · intro h
    exact release_nil _
  · intro h v rest r hv ih
    rw [release_skip, ih]
    cases ht : v.target? with
    | none => rfl
    | some a =>
      rw [ht] at hv
      simp only [Option.bind_some] at hv ⊢
      rw [block?_erased, hv]
      rfl
  · intro h v a b rest r ha hb hlast ih
    have hb' : h.erased.block? a = some b.erased := by rw [block?_erased, hb, Option.map_some]
    have hlast' : b.erased.holders ≤ 1 := hlast
    rw [release_held ha hb', if_pos hlast']
    rw [erased_put, Option.map_none] at ih
    rw [← ih]
    apply release_congr
    simp [List.filterMap_map]
  · intro h v a b rest r ha hb hshared ih
    have hb' : h.erased.block? a = some b.erased := by rw [block?_erased, hb, Option.map_some]
    have hshared' : ¬ b.erased.holders ≤ 1 := not_le.2 hshared
    rw [release_held ha hb', if_neg hshared']
    rw [erased_put, Option.map_some] at ih
    exact ih

theorem release_share (h : Heap) (vs : List Value) : h.release (vs.map Value.share) = h.release vs := by
  apply release_congr
  simp [List.filterMap_map]

end Heap

/-! ### Memory -/

namespace Memory

def erased (m : Memory) : Memory := { heap := m.heap.erased }

variable {m : Memory}

/-- What comes of opening data, without the bookkeeping. -/
def erasedOpening {α : Type} (e : α → α) : Address × α × Memory → Address × α × Memory
  | (a, x, m) => (a, e x, m.erased)

@[simp] theorem collector_erased (m : Memory) : m.erased.collector = none := rfl

@[simp] theorem heap_erased (m : Memory) : m.erased.heap = m.heap.erased := rfl

@[simp] theorem erased_retain (m : Memory) (v : Value) : (m.retain v).erased = m.erased.retain v := by
  simp [erased, retain]

@[simp] theorem erased_release (m : Memory) (vs : List Value) : (m.release vs).erased = m.erased.release vs := by
  simp [erased, release]

theorem retain_share (m : Memory) (v : Value) : m.retain v.share = m.retain v := by
  simp [retain, Heap.retain]

theorem release_share (m : Memory) (vs : List Value) : m.release (vs.map Value.share) = m.release vs := by
  rw [release, release, Heap.release_share]

@[simp] theorem erased_modifyCollector (m : Memory) (f : Collector Tracked → Collector Tracked) :
    (m.modifyCollector f).erased = m.erased := rfl

@[simp] theorem modifyCollector_erased (m : Memory) (f : Collector Tracked → Collector Tracked) :
    m.erased.modifyCollector f = m.erased := rfl

@[simp] theorem erased_register (m : Memory) (a : Address) : (m.register a).erased = m.erased := by
  unfold register
  cases m.collector with
  | none => rfl
  | some c => simp only [erased, Heap.erased_modify_self (f := fun b => { b with node := some _ }) fun _ => rfl]

theorem register_untracked (hm : m.collector = none) (a : Address) : m.register a = m := by
  rw [register, hm]

theorem newArray_erased (m : Memory) (rows : Rows) :
    m.erased.newArray rows.share = ((m.newArray rows).1.share, (m.newArray rows).2.erased) := by
  simp only [newArray, erased_register]
  rw [register_untracked rfl]
  simp [erased, Heap.alloc, Heap.erased, Block.erased, Value.share, Handle.share]

@[simp] theorem erased_anchor (m : Memory) (h : Handle) (owner : Option NodeId) (a : Address) :
    (m.anchor h owner a).erased = m.erased := by
  unfold anchor
  dsimp only
  split <;> rfl

theorem anchor_untracked (hm : m.collector = none) (h : Handle) (owner : Option NodeId) (a : Address) :
    m.anchor h owner a = m := by
  obtain ⟨heap, collector⟩ := m
  obtain rfl : collector = none := hm
  unfold anchor
  dsimp only
  split <;> rfl

theorem openShared_erased (m : Memory) (h : Handle) (owner owner' : Option NodeId) :
    m.erased.openShared h.share owner' = erasedOpening Handle.share (m.openShared h owner) := by
  unfold openShared
  have htarget : h.share.target = h.target := rfl
  rw [htarget]
  cases h.target with
  | some a => rfl
  | none =>
    dsimp only [erasedOpening]
    rw [erased_anchor, erased_register, register_untracked rfl, anchor_untracked rfl]
    simp [erased, Heap.alloc, Heap.erased, Block.erased, Rows.share, Handle.share]

theorem split_erased (m : Memory) (h : Handle) (owner owner' : Option NodeId) (old : Address) (b : Block) :
    m.erased.split h.share owner' old b.erased = erasedOpening Handle.share (m.split h owner old b) := by
  have hcopied : (b.cells.map Value.share).foldl Heap.retain m.heap.erased = (b.cells.foldl Heap.retain m.heap).erased :=
    (Heap.erased_retainAll m.heap b.cells).symm
  have hrows : b.erased.rows.map (·.map Value.share) = b.rows.share := Rows.share_share b.rows
  have hnode : b.erased.node = none := rfl
  have halloc : ((b.cells.foldl Heap.retain m.heap).alloc (b.rows.map (·.map Value.share))).2.erased =
      ((b.cells.foldl Heap.retain m.heap).erased.alloc b.rows.share).2 := by
    rw [Heap.erased_alloc]
    exact congrArg (fun rows => (Heap.alloc _ rows).2) (Rows.share_share b.rows)
  unfold split erasedOpening
  simp only [Block.cells_erased, heap_erased, hcopied, hrows, hnode, erased_release]
  refine Prod.ext (Heap.size_erased _) (Prod.ext ?_ ?_)
  · simp [Heap.alloc, Handle.share]
  · refine congrArg (Memory.release · _) ?_
    rw [erased, ← halloc]
    cases b.node with
    | none => rfl
    | some id =>
      dsimp only
      rw [erased_anchor]
      split_ifs <;> simp only [erased_modifyCollector, erased_register] <;> rfl

theorem openPrivate_erased (m : Memory) (h : Handle) (owner owner' : Option NodeId) :
    m.erased.openPrivate h.share owner' = erasedOpening Handle.share (m.openPrivate h owner) := by
  unfold openPrivate
  have htarget : h.share.target = h.target := rfl
  rw [htarget]
  cases h.target with
  | none => exact openShared_erased m h owner owner'
  | some a =>
    dsimp only
    rw [heap_erased, Heap.block?_erased]
    cases m.heap.block? a with
    | none => rfl
    | some b =>
      have hholders : b.erased.holders = b.holders := rfl
      dsimp only [Option.map_some]
      rw [hholders]
      split_ifs
      · exact split_erased m h owner owner' a b
      · rfl

theorem handleOf_share (v : Value) : handleOf v.share = (handleOf v).share := by
  cases v <;> rfl

theorem openForWrite_erased (m : Memory) (v : Value) (copy : Bool) (owner owner' : Option NodeId) :
    m.erased.openForWrite v.share copy owner' = erasedOpening Value.share (m.openForWrite v copy owner) := by
  unfold openForWrite
  rw [handleOf_share]
  cases copy with
  | true =>
    simp only [if_true, openPrivate_erased m (handleOf v) owner owner']
    rfl
  | false =>
    simp only [Bool.false_eq_true, if_false, openShared_erased m (handleOf v) owner owner']
    rfl

theorem erased_growAt (m : Memory) (a : Address) (cell : Cell) : (m.growAt a cell).erased = m.erased.growAt a cell := by
  simp only [growAt, erased, Memory.mk.injEq, and_true]
  refine Heap.erased_modify (fun b => ?_) m.heap a
  simp [Block.erased, Rows.share_grow]

theorem cellAt_erased (m : Memory) (a : Address) (cell : Cell) : m.erased.cellAt a cell = (m.cellAt a cell).share := by
  simp only [cellAt, heap_erased, Heap.block?_erased]
  cases m.heap.block? a with
  | none => rfl
  | some b =>
    simp only [Option.map_some, Option.bind_some, Block.cell?_erased]
    cases b.cell? cell.1 cell.2 <;> rfl

theorem erased_putCell (m : Memory) (a : Address) (cell : Cell) (v : Value) :
    (m.putCell a cell v).erased = m.erased.putCell a cell v.share := by
  simp only [putCell, erased, Memory.mk.injEq, and_true]
  refine Heap.erased_modify (fun b => ?_) m.heap a
  simp [Block.erased, Rows.share_set]

theorem reachCell_erased (m : Memory) (v : Value) (cell : Cell) (copy : Bool) (owner owner' : Option NodeId) :
    m.erased.reachCell v.share cell copy owner' = erasedOpening Value.share (m.reachCell v cell copy owner) := by
  unfold reachCell
  rw [openForWrite_erased m v copy owner owner']
  simp only [erasedOpening, erased_growAt]

theorem erased_overwrite (m : Memory) (a : Address) (cell : Cell) (v : Value) :
    (m.overwrite a cell v).erased = m.erased.overwrite a cell v.share := by
  unfold overwrite
  rw [erased_release, erased_putCell, cellAt_erased]
  exact (release_share _ [m.cellAt a cell]).symm

theorem store_erased (m : Memory) (v : Value) (cell : Cell) (new : Value) (copy : Bool) (owner owner' : Option NodeId) :
    m.erased.store v.share cell new.share copy owner' =
      ((m.store v cell new copy owner).1.share, (m.store v cell new copy owner).2.erased) := by
  unfold store
  rw [reachCell_erased m v cell copy owner owner']
  simp only [erasedOpening, erased_overwrite, erased_modifyCollector, modifyCollector_erased]

theorem storeNested_erased (m : Memory) (v : Value) (path : List Cell) (new : Value) (copy : Bool)
    (owner owner' : Option NodeId) :
    m.erased.storeNested v.share path new.share copy owner' =
      ((m.storeNested v path new copy owner).1.share, (m.storeNested v path new copy owner).2.erased) := by
  induction path generalizing m v owner owner' with
  | nil =>
    simp only [storeNested, erased_release]
    rw [← release_share _ [v]]
    rfl
  | cons cell rest ih =>
    cases rest with
    | nil => exact store_erased m v cell new copy owner owner'
    | cons next rest =>
      have hopen := openForWrite_erased m v copy owner owner'
      rcases hopened : m.openForWrite v copy owner with ⟨a, v', m₁⟩
      rw [hopened] at hopen
      have hinner := ih ((m₁.growAt a cell).putCell a cell .undefined) ((m₁.growAt a cell).cellAt a cell)
        (((m₁.growAt a cell).putCell a cell .undefined).node? v')
        (((m₁.growAt a cell).putCell a cell .undefined).erased.node? v'.share)
      rw [erased_putCell, ← cellAt_erased, erased_growAt] at hinner
      rw [storeNested_cons m v cell (List.cons_ne_nil _ _) new copy owner hopened rfl rfl,
        storeNested_cons m.erased v.share cell (List.cons_ne_nil _ _) new.share copy owner' hopen rfl hinner]
      simp only [erased_overwrite, erased_growAt]

theorem ensureArray_erased (m : Memory) (v : Value) (owner owner' : Option NodeId) :
    m.erased.ensureArray v.share owner' = ((m.ensureArray v owner).1.share, (m.ensureArray v owner).2.erased) := by
  unfold ensureArray
  rw [openForWrite_erased m v false owner owner']
  rfl

theorem peek_erased (m : Memory) (v : Value) (cell : Cell) :
    m.erased.peek v.share cell = (m.peek v cell).map Value.share := by
  unfold peek
  cases v with
  | array h =>
    have htarget : h.share.target.bind m.erased.heap.block? = (h.target.bind m.heap.block?).map Block.erased := by
      have hsame : h.share.target = h.target := rfl
      rw [hsame]
      cases h.target with
      | none => rfl
      | some a => exact m.heap.block?_erased a
    simp only [Value.share, htarget]
    cases h.target.bind m.heap.block? with
    | none => rfl
    | some b =>
      simp only [Option.map_some, Block.cell?_erased]
      cases b.cell? cell.1 cell.2 with
      | some content => rfl
      | none =>
        simp only [Block.erased, Rows.share, Array.size_map, Array.getElem?_map, Option.map_map]
        cases b.rows[cell.1]? <;> simp [Except.map]
  | _ => rfl

theorem peekNested_erased (m : Memory) (v : Value) (path : List Cell) :
    m.erased.peekNested v.share path = (m.peekNested v path).map Value.share := by
  induction path generalizing v with
  | nil => rfl
  | cons cell rest ih =>
    rw [peekNested, peekNested, peek_erased]
    cases m.peek v cell with
    | error e => rfl
    | ok inner => exact ih inner

theorem apply_share (op : Operator) (a b : Value) : op.apply a.share b.share = op.apply a b := by
  cases a with
  | array h => cases op <;> cases b <;> rfl
  | _ =>
    cases b with
    | array h => cases op <;> rfl
    | _ => rfl

theorem share_of_apply {op : Operator} {a b result : Value} (h : op.apply a b = .ok result) :
    result.share = result := by
  rcases Operator.apply_ok h with ⟨-, hplain⟩ | rfl
  · cases result with
    | array k =>
      obtain ⟨target, rooted⟩ := k
      obtain rfl : rooted = false := hplain
      rfl
    | _ => rfl
  · exact b.share_share

theorem operate_erased (m : Memory) (op : Operator) (v right : Value) :
    m.erased.operate op v.share right.share =
      ((m.operate op v right).1, (m.operate op v right).2.1.share, (m.operate op v right).2.2.erased) := by
  unfold operate
  rw [apply_share]
  cases hresult : op.apply v right with
  | error e => rfl
  | ok result =>
    simp only [erased_release, erased_retain, share_of_apply hresult]
    rw [← release_share _ [v]]
    rfl

/-! ### Slots -/

theorem erased_makeRoot (m : Memory) (v : Value) :
    (m.makeRoot v).1.share = v.share ∧ (m.makeRoot v).2.erased = m.erased := by
  unfold makeRoot rootHandle
  split
  · dsimp only
    split_ifs
    · exact ⟨rfl, rfl⟩
    · split <;> exact ⟨rfl, rfl⟩
  · exact ⟨rfl, rfl⟩

theorem erased_releaseRoot (m : Memory) (v : Value) : (m.releaseRoot v).2.erased = m.erased := by
  unfold releaseRoot unrootHandle
  split
  · dsimp only
    split_ifs
    · split <;> rfl
    · rfl
  · rfl

theorem makeRoot_untracked (hm : m.collector = none) (v : Value) : m.makeRoot v = (v, m) := by
  unfold makeRoot
  rw [hm]

theorem releaseRoot_untracked (hm : m.collector = none) (v : Value) : m.releaseRoot v = (v, m) := by
  unfold releaseRoot
  rw [hm]

theorem reanchor_erased (m : Memory) (slot v : Value) (owner owner' : Option NodeId) :
    m.erased.reanchor slot.share owner' v.share =
      ((m.reanchor slot owner v).1.share, (m.reanchor slot owner v).2.erased) := by
  have herased : m.erased.reanchor slot.share owner' v.share = (v.share, m.erased) := by
    unfold reanchor
    cases owner' with
    | none =>
      dsimp only
      rw [releaseRoot_untracked rfl, makeRoot_untracked rfl]
    | some id => rfl
  rw [herased]
  unfold reanchor
  cases owner with
  | none =>
    obtain ⟨hvalue, hmemory⟩ := erased_makeRoot (m.releaseRoot slot).2 v
    rw [hvalue, hmemory, erased_releaseRoot]
  | some id => rfl

theorem replaceSlot_erased (m : Memory) (slot v : Value) (owner owner' : Option NodeId) :
    m.erased.replaceSlot slot.share owner' v.share =
      ((m.replaceSlot slot owner v).1.share, (m.replaceSlot slot owner v).2.erased) := by
  unfold replaceSlot
  rw [reanchor_erased m slot v owner owner']
  simp only [erased_release]
  rw [← release_share _ [slot]]
  rfl

theorem storeInSlot_erased (m : Memory) (slot : Value) (path : List Cell) (v : Value) (copy : Bool)
    (owner owner' : Option NodeId) :
    m.erased.storeInSlot slot.share owner' path v.share copy =
      ((m.storeInSlot slot owner path v copy).1.share, (m.storeInSlot slot owner path v copy).2.erased) := by
  have hopened : ∀ (m : Memory) (w : Value),
      (if owner.isNone then m.makeRoot w else (w, m)).1.share = w.share ∧
      (if owner.isNone then m.makeRoot w else (w, m)).2.erased = m.erased := by
    intro m w
    split_ifs
    · exact erased_makeRoot m w
    · exact ⟨rfl, rfl⟩
  unfold storeInSlot
  obtain ⟨hslot, hmemory⟩ := hopened m (.array (handleOf slot))
  have herased : (if owner'.isNone then m.erased.makeRoot (.array (handleOf slot.share)) else
      (.array (handleOf slot.share), m.erased)) = (Value.share (.array (handleOf slot)), m.erased) := by
    rw [handleOf_share, makeRoot_untracked rfl]
    split_ifs <;> rfl
  simp only [herased]
  rw [← hslot, ← hmemory]
  exact storeNested_erased _ _ path v copy owner owner'

theorem untracked_erased {α : Type} {f g : Memory → α × Memory} {e : α → α}
    (hf : ∀ m, g m.erased = (e (f m).1, (f m).2.erased)) (m : Memory) :
    m.erased.untracked g = (e (m.untracked f).1, (m.untracked f).2.erased) := by
  have hrun : g m.erased = (e (f { m with collector := none }).1, (f { m with collector := none }).2.erased) :=
    hf { m with collector := none }
  have herased : m.erased.untracked g = ((g m.erased).1, { (g m.erased).2 with collector := none }) := rfl
  rw [herased, hrun]
  rfl

end Memory
end ScriptVm
