import ScriptVm.Heap.Arrays
import ScriptVm.Proofs.Frame

/-! Opening data for writing. Opening keeps every block: a handle without data gets an empty block,
and a shared block is split into the old one, which the others keep, and a copy that has one holder.
A private write is then invisible to all values but the one it goes through. -/

namespace ScriptVm

/-- The rows behind a value; none where there is no data. -/
def Heap.rowsOf (h : Heap) (v : Value) : Rows := ((v.target?.bind h.block?).map (·.rows)).getD #[]

namespace Rows

def share (rows : Rows) : Rows := rows.map (·.map Value.share)

theorem cells_share (rows : Rows) : cells rows.share = (cells rows).map Value.share := by
  simp only [cells, share, Array.toList_map, List.flatMap_map, List.map_flatMap]

theorem handlesOn_grow (a : Address) (rows : Rows) (row col : Nat) :
    handlesOn a (cells (rows.grow row col)) = handlesOn a (cells rows) :=
  countP_cells_grow (by simp [Value.target?]) rows row col

theorem handlesOn_set (a : Address) {rows : Rows} {row col : Nat} {old : Value}
    (h : cell? rows row col = some old) (v : Value) :
    handlesOn a (cells (rows.set row col v)) + handlesOn a [old] =
      handlesOn a (cells rows) + handlesOn a [v] := countP_cells_set _ h v

end Rows

namespace Heap
variable {h h' : Heap} {vs : List Value}

/-! ### Bookkeeping -/

/-- Holders and nodes may change, rows do not. -/
structure SameRows (h h' : Heap) : Prop where
  size : h'.blocks.size = h.blocks.size
  rows : ∀ a, (h'.block? a).map (·.rows) = (h.block? a).map (·.rows)
  inner : ∀ a, h'.innerHandles a = h.innerHandles a

theorem SameRows.refl (h : Heap) : h.SameRows h := ⟨rfl, fun _ => rfl, fun _ => rfl⟩

theorem SameRows.trans {h'' : Heap} (h₁ : h.SameRows h') (h₂ : h'.SameRows h'') : h.SameRows h'' :=
  ⟨h₂.size.trans h₁.size, fun a => (h₂.rows a).trans (h₁.rows a),
    fun a => (h₂.inner a).trans (h₁.inner a)⟩

theorem SameRows.keeps (hsame : h.SameRows h') : h.Extends h' := by
  intro a b hb
  have hrows := hsame.rows a
  rw [hb, Option.map_some, Option.map_eq_some_iff] at hrows
  exact hrows

theorem sameRows_modify (h : Heap) (a : Address) {f : Block → Block} (hrows : ∀ b, (f b).rows = b.rows) :
    h.SameRows (h.modify a f) := by
  refine ⟨by simp, fun x => ?_, innerHandles_modify_rows hrows⟩
  rw [block?_modify]
  split_ifs with hx
  · subst hx
    cases h.block? x <;> simp [hrows]
  · rfl

theorem sameRows_retain (h : Heap) (v : Value) : h.SameRows (h.retain v) := by
  unfold Heap.retain
  split
  · exact sameRows_modify h _ fun b => rfl
  · exact SameRows.refl h

theorem sameRows_retainAll (h : Heap) (ws : List Value) : h.SameRows (ws.foldl Heap.retain h) := by
  induction ws generalizing h with
  | nil => exact SameRows.refl h
  | cons w ws ih => exact (sameRows_retain h w).trans (ih _)

theorem evolves_retain (h : Heap) (v : Value) (vs : List Value) : h.Evolves vs (h.retain v) vs := by
  refine ⟨(sameRows_retain h v).size.ge, fun a b' _ hb' => ?_, fun a _ hi hv => ⟨?_, hv⟩⟩
  · unfold Heap.retain at hb'
    split at hb'
    · rw [block?_modify] at hb'
      split_ifs at hb' with ha
      · obtain ⟨b, hb, rfl⟩ := Option.map_eq_some_iff.1 hb'
        exact ⟨b, ha ▸ hb, rfl⟩
      · exact ⟨b', hb', rfl⟩
    · exact ⟨b', hb', rfl⟩
  · rw [(sameRows_retain h v).inner, hi]

theorem evolves_retainAll (h : Heap) (ws vs : List Value) :
    h.Evolves vs (ws.foldl Heap.retain h) vs := by
  induction ws generalizing h with
  | nil => exact Evolves.refl h vs
  | cons w ws ih => exact (evolves_retain h w vs).trans (ih _)

theorem holders_le_retainAll (h : Heap) (ws : List Value) (a : Address) :
    h.holdersOf a ≤ (ws.foldl Heap.retain h).holdersOf a := by
  induction ws generalizing h with
  | nil => exact le_rfl
  | cons w ws ih =>
    refine le_trans ?_ (ih _)
    unfold Heap.retain
    split
    · rename_i x _
      rw [holdersOf, holdersOf, block?_modify]
      split_ifs with ha
      · subst ha
        cases h.block? a <;> simp
      · exact le_rfl
    · exact le_rfl

theorem Supports.retainAll {ws : List Value} (hs : h.Supports vs)
    (halive : ∀ w ∈ ws, ∀ a, w.target? = some a → ∃ b, h.block? a = some b) :
    (ws.foldl Heap.retain h).Supports (ws ++ vs) := by
  induction ws generalizing h vs with
  | nil => exact hs
  | cons w ws ih =>
    have hw := hs.retain (halive w List.mem_cons_self)
    refine (ih hw fun u hu a ha => ?_).perm List.perm_middle
    obtain ⟨b, hb⟩ := halive u (List.mem_cons_of_mem _ hu) a ha
    obtain ⟨b', hb', -⟩ := (sameRows_retain h w).keeps a b hb
    exact ⟨b', hb'⟩

/-! ### A new block -/

/-- One block more, with one holder. -/
structure Placed (h : Heap) (rows : Rows) (h' : Heap) : Prop where
  size : h'.blocks.size = h.blocks.size + 1
  block : ∃ b, h'.block? h.blocks.size = some b ∧ b.rows = rows ∧ b.holders = 1
  other : ∀ a, a ≠ h.blocks.size → h'.block? a = h.block? a
  inner : ∀ a, h'.innerHandles a = h.innerHandles a + handlesOn a (Rows.cells rows)

theorem placed_alloc (h : Heap) (rows : Rows) : h.Placed rows (h.alloc rows).2 := by
  refine ⟨by simp [alloc], ⟨{ rows := rows }, by simp [block?_alloc], rfl, rfl⟩, fun a ha => ?_,
    innerHandles_alloc h rows⟩
  rw [block?_alloc, if_neg ha]

theorem Placed.modify {rows : Rows} (hp : h.Placed rows h') {f : Block → Block}
    (hf : ∀ b, (f b).rows = b.rows ∧ (f b).holders = b.holders) :
    h.Placed rows (h'.modify h.blocks.size f) := by
  obtain ⟨b, hb, hrows, hone⟩ := hp.block
  refine ⟨by simp [hp.size], ⟨f b, by simp [hb], (hf b).1.trans hrows, (hf b).2.trans hone⟩,
    fun a ha => ?_, fun a => ?_⟩
  · rw [block?_modify, if_neg ha, hp.other a ha]
  · rw [innerHandles_modify_rows fun b => (hf b).1, hp.inner]

theorem Placed.keeps {rows : Rows} (hp : h.Placed rows h') : h.Extends h' := by
  intro a b hb
  exact ⟨b, by rw [hp.other a (lt_of_block? hb).ne, hb], rfl⟩

theorem Placed.supports {rows : Rows} (hp : h.Placed rows h')
    (hs : h.Supports (Rows.cells rows ++ vs)) {v : Value} (hv : v.target? = some h.blocks.size) :
    h'.Supports (v :: vs) := by
  obtain ⟨b, hb, -, hone⟩ := hp.block
  intro x
  have hle := hs x
  have hfresh := hs.fresh (a := h.blocks.size) le_rfl
  rw [hp.inner, holdersOf]
  simp only [handlesOn_append, handlesOn_cons, hv, Option.some.injEq, holdersOf] at hle hfresh ⊢
  by_cases hx : x = h.blocks.size
  · subst hx
    simp only [if_true, hb, Option.map_some, Option.getD_some, hone]
    omega
  · simp only [Ne.symm hx, if_false, hp.other x hx]
    omega

theorem Placed.evolves {rows : Rows} (hp : h.Placed rows h') {v : Value}
    (hv : v.target? = some h.blocks.size) (vs : List Value) :
    h.Evolves (Rows.cells rows ++ vs) h' (v :: vs) := by
  refine ⟨by simp [hp.size], fun a b' ha hb' => ?_, fun a ha hi hvs => ?_⟩
  · rw [hp.other a ha.ne] at hb'
    exact ⟨b', hb', rfl⟩
  · rw [handlesOn_append] at hvs
    rw [hp.inner, handlesOn_cons, hv, if_neg (by simpa using ha.ne')]
    omega

end Heap

namespace Memory
variable {m : Memory} {vs : List Value}

@[simp] theorem heap_modifyCollector (m : Memory) (f : Collector Tracked → Collector Tracked) :
    (m.modifyCollector f).heap = m.heap := rfl

@[simp] theorem heap_anchor (m : Memory) (h : Handle) (owner : Option NodeId) (a : Address) :
    (m.anchor h owner a).heap = m.heap := by
  unfold anchor
  dsimp only
  split <;> rfl

theorem heap_register (m : Memory) (a : Address) :
    ∃ f : Block → Block, (∀ b, (f b).rows = b.rows ∧ (f b).holders = b.holders) ∧
      (m.register a).heap = m.heap.modify a f := by
  unfold register
  split
  · exact ⟨id, fun b => ⟨rfl, rfl⟩, (Heap.modify_id m.heap a).symm⟩
  · rename_i c _
    exact ⟨fun b => { b with node := some (c.construct (.array a)).1 }, fun b => ⟨rfl, rfl⟩, rfl⟩

theorem placed_register (m : Memory) (rows : Rows) :
    m.heap.Placed rows ({ m with heap := (m.heap.alloc rows).2 }.register m.heap.blocks.size).heap := by
  obtain ⟨f, hf, heq⟩ := heap_register { m with heap := (m.heap.alloc rows).2 } m.heap.blocks.size
  rw [heq]
  exact (Heap.placed_alloc m.heap rows).modify hf

theorem placed_newArray (m : Memory) (rows : Rows) : m.heap.Placed rows (m.newArray rows).2.heap :=
  placed_register m rows

/-! ### Opening -/

/-- What opening a value for writing gives: every block is kept, the value leads to data with the
same cells and, if it is to be private or is new, with no other holder. -/
structure Opened (copy : Bool) (h : Heap) (v : Value) (vs : List Value) (a : Address) (v' : Value)
    (h' : Heap) : Prop where
  target : v'.target? = some a
  supports : h'.Supports (v' :: vs)
  keeps : h.Extends h'
  others : ∀ x b', x ≠ a → h'.block? x = some b' → ∃ b, h.block? x = some b ∧ b'.rows = b.rows
  evolves : h.Evolves [v] h' [v']
  block : ∃ b, h'.block? a = some b ∧ (b.rows = h.rowsOf v ∨ b.rows = (h.rowsOf v).share) ∧
    (copy = true ∨ h' ≠ h → b.holders ≤ 1)

theorem opened_in_place {copy : Bool} {h : Heap} {v : Value} {a : Address} {b : Block}
    (hs : h.Supports (v :: vs)) (ha : v.target? = some a) (hb : h.block? a = some b)
    (hone : copy = true → b.holders ≤ 1) : Opened copy h v vs a v h := by
  refine ⟨ha, hs, Heap.Extends.refl h, fun _ b' _ hb' => ⟨b', hb', rfl⟩, Heap.Evolves.refl h [v], b, hb,
    Or.inl ?_, fun hcause => hone (hcause.resolve_right fun hne => hne rfl)⟩
  simp [Heap.rowsOf, ha, hb]

theorem opened_null {h : Handle} (hs : m.heap.Supports (.array h :: vs)) (ht : h.target = none)
    (copy : Bool) (owner : Option NodeId) :
    Opened copy m.heap (.array h) vs (m.openShared h owner).1 (.array (m.openShared h owner).2.1)
      (m.openShared h owner).2.2.heap := by
  have hp := placed_register m #[]
  have hopen : m.openShared h owner = (m.heap.blocks.size, { h with target := some m.heap.blocks.size },
      ({ m with heap := (m.heap.alloc #[]).2 }.register m.heap.blocks.size).anchor h owner
        m.heap.blocks.size) := by
    unfold openShared
    rw [ht]
    rfl
  obtain ⟨b, hb, hrows, hone⟩ := hp.block
  rw [hopen]
  refine ⟨rfl, ?_, ?_, fun x b' hx hb' => ?_, ?_, b, ?_, Or.inl ?_, fun _ => hone.le⟩
  · rw [heap_anchor]
    exact hp.supports (Heap.Supports.tail hs) rfl
  · rw [heap_anchor]
    exact hp.keeps
  · rw [heap_anchor, hp.other x hx] at hb'
    exact ⟨b', hb', rfl⟩
  · rw [heap_anchor]
    refine (hp.evolves ?_ []).of_le (by simp) (fun _ => le_rfl)
    rfl
  · rw [heap_anchor]
    exact hb
  · simp [hrows, Heap.rowsOf, Value.target?, ht]

theorem opened_openShared {h : Handle} (hs : m.heap.Supports (.array h :: vs))
    (owner : Option NodeId) :
    Opened false m.heap (.array h) vs (m.openShared h owner).1 (.array (m.openShared h owner).2.1)
      (m.openShared h owner).2.2.heap := by
  cases ht : h.target with
  | none => exact opened_null hs ht false owner
  | some a =>
    obtain ⟨b, hb⟩ := hs.alive List.mem_cons_self (a := a) ht
    have hopen : m.openShared h owner = (a, h, m) := by
      unfold openShared
      rw [ht]
    rw [hopen]
    exact opened_in_place hs ht hb (by simp)

theorem placed_split (m : Memory) (h : Handle) (owner : Option NodeId) (old : Address) (b : Block) :
    ∃ h', (b.cells.foldl Heap.retain m.heap).Placed b.rows.share h' ∧
      m.split h owner old b = (m.heap.blocks.size, { h with target := some m.heap.blocks.size },
        { (m.split h owner old b).2.2 with heap := h'.release [.array { target := some old }] }) := by
  set kept := b.cells.foldl Heap.retain m.heap with hkept
  have hsize : kept.blocks.size = m.heap.blocks.size := (Heap.sameRows_retainAll m.heap b.cells).size
  unfold split
  simp only [← hkept]
  rw [← hsize]
  cases hnode : b.node with
  | none => exact ⟨_, Heap.placed_alloc kept b.rows.share, rfl⟩
  | some id =>
    refine ⟨_, placed_register { m with heap := kept } b.rows.share, ?_⟩
    by_cases hroot : h.rooted = true <;>
      simp [hroot, release, Heap.alloc, Rows.share]

/-- The cells of the old block are referred to already, so their copies forge nothing. -/
theorem evolves_split {h : Handle} {old : Address} {b : Block} {h' : Heap} (ht : h.target = some old)
    (hb : m.heap.block? old = some b)
    (hp : (b.cells.foldl Heap.retain m.heap).Placed b.rows.share h') :
    m.heap.Evolves [.array h] (h'.release [.array { target := some old }])
      [.array { h with target := some (b.cells.foldl Heap.retain m.heap).blocks.size }] := by
  set kept := b.cells.foldl Heap.retain m.heap
  set new : Value := .array { h with target := some kept.blocks.size }
  set held : Value := .array { target := some old } with hheld
  have hshared : m.heap.Evolves [.array h] kept (b.cells ++ [.array h]) :=
    (Heap.evolves_cells hb _).trans (Heap.evolves_retainAll m.heap b.cells _)
  have hplaced : kept.Evolves (b.cells ++ [.array h]) h' [new, held] := by
    refine (hp.evolves (v := new) rfl [held]).of_le (fun a => ?_) (fun _ => le_rfl)
    rw [Rows.cells_share, handlesOn_append, handlesOn_append, handlesOn_share]
    simp [Block.cells_eq, hheld, Value.target?, ht]
  have hdropped : h'.Evolves [new, held] (h'.release [held]) [new] :=
    (Heap.evolves_release h' [held] [new]).of_le
      (fun a => (handlesOn_perm (List.Perm.swap _ _ _) a).le) (fun _ => le_rfl)
  exact (hshared.trans hplaced).trans hdropped

theorem opened_split {h : Handle} {old : Address} {b : Block}
    (hs : m.heap.Supports (.array h :: vs)) (ht : h.target = some old)
    (hb : m.heap.block? old = some b) (hmany : 1 < b.holders) (owner : Option NodeId) :
    Opened true m.heap (.array h) vs (m.split h owner old b).1 (.array (m.split h owner old b).2.1)
      (m.split h owner old b).2.2.heap := by
  obtain ⟨h', hp, hsplit⟩ := placed_split m h owner old b
  set kept := b.cells.foldl Heap.retain m.heap with hkept
  have hsame : m.heap.SameRows kept := Heap.sameRows_retainAll m.heap b.cells
  rw [hsplit, ← hsame.size]
  set new : Value := .array { h with target := some kept.blocks.size } with hnew
  set held : Value := .array { target := some old } with hheld
  have hold : old ≠ kept.blocks.size := by
    rw [hsame.size]
    exact (Heap.lt_of_block? hb).ne
  have hcells : kept.Supports (Rows.cells b.rows.share ++ (held :: vs)) := by
    refine (hs.retainAll fun w hw a ha => hs.cell_alive hb hw ha).of_le fun a => ?_
    rw [Rows.cells_share, handlesOn_append, handlesOn_append, handlesOn_share]
    simp [Block.cells_eq, hheld, Value.target?, ht]
  have hboth : h'.Supports (held :: new :: vs) := (hp.supports hcells rfl).perm (List.Perm.swap _ _ _)
  -- the old block has a further holder, so the handle that leaves it does not free it
  obtain ⟨b₁, hb₁, hrows₁⟩ := hsame.keeps old b hb
  have hb' : h'.block? old = some b₁ := by rw [hp.other old hold, hb₁]
  have hmany' : ¬ b₁.holders ≤ 1 := by
    have hle := Heap.holders_le_retainAll m.heap b.cells old
    rw [Heap.holdersOf, Heap.holdersOf, hb, ← hkept, hb₁] at hle
    simp only [Option.map_some, Option.getD_some] at hle
    omega
  have hdrop : h'.release [held] = h'.put old (some { b₁ with holders := b₁.holders - 1 }) := by
    rw [Heap.release_held (v := held) rfl hb', if_neg hmany', Heap.release_nil]
  obtain ⟨c, hc, hrows, hone⟩ := hp.block
  refine ⟨rfl, Heap.Supports.release [held] hboth, ?_, fun x d hx hd => ?_, evolves_split ht hb hp, c, ?_, Or.inr ?_,
    fun _ => hone.le⟩
  · refine (hsame.keeps.trans hp.keeps).trans ?_
    intro x d hd
    dsimp only
    rw [hdrop, Heap.block?_put hb']
    split_ifs with hx
    · subst hx
      obtain rfl := Option.some.inj (hb'.symm.trans hd)
      exact ⟨_, rfl, rfl⟩
    · exact ⟨d, hd, rfl⟩
  · obtain ⟨d', hd', hrows', -⟩ := (Heap.shrinks_release h' [held]).block x d hd
    rw [hp.other x hx] at hd'
    have heq := hsame.rows x
    rw [hd', Option.map_some] at heq
    obtain ⟨d₀, hd₀, hrows₀⟩ := Option.map_eq_some_iff.1 heq.symm
    exact ⟨d₀, hd₀, hrows'.trans hrows₀.symm⟩
  · dsimp only
    rw [hdrop, Heap.block?_put hb', if_neg hold.symm]
    exact hc
  · simp [hrows, Heap.rowsOf, Value.target?, ht, hb]

theorem opened_openPrivate {h : Handle} (hs : m.heap.Supports (.array h :: vs))
    (owner : Option NodeId) :
    Opened true m.heap (.array h) vs (m.openPrivate h owner).1 (.array (m.openPrivate h owner).2.1)
      (m.openPrivate h owner).2.2.heap := by
  cases ht : h.target with
  | none =>
    have hopen : m.openPrivate h owner = m.openShared h owner := by
      unfold openPrivate
      rw [ht]
    rw [hopen]
    exact opened_null hs ht true owner
  | some a =>
    obtain ⟨b, hb⟩ := hs.alive List.mem_cons_self (a := a) ht
    have hopen : m.openPrivate h owner = if 1 < b.holders then m.split h owner a b else (a, h, m) := by
      unfold openPrivate
      rw [ht]
      dsimp only
      rw [hb]
    rw [hopen]
    split_ifs with hmany
    · exact opened_split hs ht hb hmany owner
    · exact opened_in_place hs ht hb fun _ => by omega

@[simp] theorem target?_handleOf (v : Value) : (Value.array (handleOf v)).target? = v.target? := by
  cases v <;> rfl

theorem Opened.of_handleOf {copy : Bool} {h h' : Heap} {v v' : Value} {a : Address}
    (ho : Opened copy h (.array (handleOf v)) vs a v' h') : Opened copy h v vs a v' h' := by
  obtain ⟨htarget, hsupports, hkeeps, hothers, hevolves, hblock⟩ := ho
  refine ⟨htarget, hsupports, hkeeps, hothers, hevolves.of_le (fun x => ?_) (fun _ => le_rfl), ?_⟩
  · simp
  · simpa only [Heap.rowsOf, target?_handleOf] using hblock

theorem opened_openForWrite {v : Value} (hs : m.heap.Supports (v :: vs)) (copy : Bool)
    (owner : Option NodeId) :
    Opened copy m.heap v vs (m.openForWrite v copy owner).1 (m.openForWrite v copy owner).2.1
      (m.openForWrite v copy owner).2.2.heap := by
  have hhandle : m.heap.Supports (.array (handleOf v) :: vs) := by
    refine hs.of_le fun a => ?_
    simp
  apply Opened.of_handleOf
  cases copy with
  | true => exact opened_openPrivate hhandle owner
  | false => exact opened_openShared hhandle owner

/-! ### Cells of opened data -/

theorem supports_growAt {ws : List Value} (hs : m.heap.Supports ws) (a : Address) (cell : Cell) :
    (m.growAt a cell).heap.Supports ws := by
  unfold Memory.growAt
  cases hb : m.heap.block? a with
  | none =>
    dsimp only
    rwa [Heap.modify_eq_self hb]
  | some b =>
    refine Heap.Supports.modify [] [] hs hb rfl fun x => ?_
    simp [Block.cells_eq, Rows.handlesOn_grow]

theorem evolves_growAt (m : Memory) (a : Address) (cell : Cell) (ws : List Value) :
    m.heap.Evolves ws (m.growAt a cell).heap ws := by
  unfold Memory.growAt
  cases hb : m.heap.block? a with
  | none =>
    dsimp only
    rw [Heap.modify_eq_self hb]
    exact Heap.Evolves.refl _ _
  | some b =>
    refine Heap.evolves_modify hb rfl fun x => ?_
    simp [Block.cells_eq, Rows.handlesOn_grow]

theorem block?_growAt {a : Address} {b : Block} (hb : m.heap.block? a = some b) (cell : Cell) :
    (m.growAt a cell).heap.block? a = some { b with rows := b.rows.grow cell.1 cell.2 } := by
  simp [growAt, hb]

theorem cellAt_eq {a : Address} {b : Block} {cell : Cell} {v : Value} (hb : m.heap.block? a = some b)
    (hv : Rows.cell? b.rows cell.1 cell.2 = some v) : m.cellAt a cell = v := by
  simp [cellAt, hb, Block.cell?_eq, hv]

theorem cell?_growAt {a : Address} {b : Block} (hb : m.heap.block? a = some b) (cell : Cell) :
    ∃ b', (m.growAt a cell).heap.block? a = some b' ∧ b'.rows = b.rows.grow cell.1 cell.2 ∧
      Rows.cell? b'.rows cell.1 cell.2 = some ((m.growAt a cell).cellAt a cell) := by
  refine ⟨_, block?_growAt hb cell, rfl, ?_⟩
  rw [cellAt_eq (block?_growAt hb cell) (Rows.cell?_grow b.rows cell.1 cell.2)]
  exact Rows.cell?_grow b.rows cell.1 cell.2

section
variable {a : Address} {b : Block} {cell : Cell} {old : Value}

theorem supports_putCell {v : Value} (hs : m.heap.Supports (v :: vs)) (hb : m.heap.block? a = some b)
    (hold : Rows.cell? b.rows cell.1 cell.2 = some old) :
    (m.putCell a cell v).heap.Supports (old :: vs) := by
  unfold Memory.putCell
  refine Heap.Supports.modify [v] [old] hs hb rfl fun x => ?_
  exact Rows.handlesOn_set x hold v

theorem evolves_putCell (hb : m.heap.block? a = some b)
    (hold : Rows.cell? b.rows cell.1 cell.2 = some old) (v : Value) :
    m.heap.Evolves [v] (m.putCell a cell v).heap [old] := by
  unfold Memory.putCell
  refine Heap.evolves_modify hb rfl fun x => ?_
  exact Rows.handlesOn_set x hold v

theorem block?_putCell (hb : m.heap.block? a = some b) (cell : Cell) (v : Value) :
    (m.putCell a cell v).heap.block? a = some { b with rows := Rows.set b.rows cell.1 cell.2 v } := by
  simp [putCell, hb]

end

end Memory
end ScriptVm
