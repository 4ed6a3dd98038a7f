import ScriptVm.Proofs.Wrought

/-! Stores along a path into shared arrays. On the way down each cell is moved out of its array and on the way
up it is put back; in between the array is written without the cell. Unless the path comes to a cell that it
has moved out, this is the store through the handle that the path leads to. -/

namespace ScriptVm

namespace Memory
variable {m m' : Memory} {v w new : Value} {vs : List Value} {a x : Address} {cell : Cell} {path : List Cell}

/-! ### The places on a path -/

/-- The places that a path of cells crosses, as far as it leads. -/
def crossed (m : Memory) (v : Value) : List Cell → List (Address × Cell)
  | [] => []
  | cell :: rest =>
    match v.target? with
    | none => []
    | some a => (a, cell) :: (m.at? (a, cell)).elim [] fun inner => m.crossed inner rest

theorem crossed_cons (ha : v.target? = some a) (hw : m.at? (a, cell) = some w) (rest : List Cell) :
    m.crossed v (cell :: rest) = (a, cell) :: m.crossed w rest := by
  rw [crossed, ha]
  dsimp only
  rw [hw]
  rfl

theorem crossed_singleton (ha : v.target? = some a) : m.crossed v [cell] = [(a, cell)] := by
  rw [crossed, ha]
  cases hat : m.at? (a, cell) <;> simp [crossed, hat]

theorem peek_eq_ok_iff : m.peek v cell = .ok w ↔ ∃ a, v.target? = some a ∧ m.at? (a, cell) = some w := by
  unfold peek at?
  cases v with
  | array h =>
    cases ht : h.target with
    | none => simp [Value.target?, ht]
    | some a =>
      cases hb : m.heap.block? a with
      | none => simp [Value.target?, ht, hb]
      | some b => cases hcell : Rows.cell? b.rows cell.1 cell.2 <;> simp [Value.target?, ht, hb, Block.cell?_eq, hcell]
  | _ => simp [Value.target?]

theorem peekNested_cons {rest : List Cell} : m.peekNested v (cell :: rest) = .ok w ↔
    ∃ a inner, v.target? = some a ∧ m.at? (a, cell) = some inner ∧ m.peekNested inner rest = .ok w := by
  rw [peekNested]
  constructor
  · intro h
    split at h
    · rename_i inner hinner
      obtain ⟨a, ha, hat⟩ := peek_eq_ok_iff.1 hinner
      exact ⟨a, inner, ha, hat, h⟩
    · cases h
  · rintro ⟨a, inner, ha, hat, h⟩
    rw [peek_eq_ok_iff.2 ⟨a, ha, hat⟩]
    exact h

theorem crossed_append_singleton (hpeek : m.peekNested v path = .ok w) (ha : w.target? = some a) (cell : Cell) :
    m.crossed v (path ++ [cell]) = m.crossed v path ++ [(a, cell)] := by
  induction path generalizing v with
  | nil =>
    obtain rfl := Except.ok.inj hpeek
    exact crossed_singleton ha
  | cons c rest ih =>
    obtain ⟨a₀, inner, ha₀, hinner, hrest⟩ := peekNested_cons.1 hpeek
    rw [List.cons_append, crossed_cons ha₀ hinner, crossed_cons ha₀ hinner, ih hrest, List.cons_append]

/-- What is read along a path depends on the places that it crosses. -/
theorem peekNested_of_crossed (hsame : ∀ p ∈ m.crossed v path, m'.at? p = m.at? p) (hpeek : m.peekNested v path = .ok w) :
    m'.peekNested v path = .ok w ∧ m'.crossed v path = m.crossed v path := by
  induction path generalizing v with
  | nil => exact ⟨hpeek, rfl⟩
  | cons c rest ih =>
    obtain ⟨a₀, inner, ha₀, hinner, hrest⟩ := peekNested_cons.1 hpeek
    rw [crossed_cons ha₀ hinner] at hsame ⊢
    have hinner' : m'.at? (a₀, c) = some inner := (hsame _ List.mem_cons_self).trans hinner
    obtain ⟨hpeek', hcrossed⟩ := ih (fun p hp => hsame p (List.mem_cons_of_mem _ hp)) hrest
    exact ⟨peekNested_cons.2 ⟨a₀, inner, ha₀, hinner', hpeek'⟩, by rw [crossed_cons ha₀ hinner', hcrossed]⟩

/-! ### What a store leaves on the way -/

theorem holders_storeAt (hs : (m.storeAt x cell new).heap.Supports vs) (hx : ∃ b, m.heap.block? x = some b)
    (hv : ∀ a, v.target? = some a → 0 < (m.storeAt x cell new).heap.holdersOf a)
    (hpeek : m.peekNested v path = .ok w) (hfar : (x, cell) ∉ m.crossed v path) (ha : w.target? = some a) :
    0 < (m.storeAt x cell new).heap.holdersOf a := by
  induction path generalizing v with
  | nil =>
    obtain rfl := Except.ok.inj hpeek
    exact hv a ha
  | cons c rest ih =>
    obtain ⟨a₀, inner, ha₀, hinner, hrest⟩ := peekNested_cons.1 hpeek
    rw [crossed_cons ha₀ hinner, List.mem_cons, not_or] at hfar
    have hinner' := at?_storeAt hinner (Ne.symm hfar.1) hx (Heap.block?_of_holders (hv a₀ ha₀))
    obtain ⟨b, hb, hcell⟩ := Option.bind_eq_some_iff.1 hinner'
    refine ih (fun y hy => ?_) hrest hfar.2
    have hinside := Heap.innerHandles_pos hb (Rows.mem_cells_of_cell? hcell) hy
    have hle := hs y
    omega

/-- A store at the end of a path, the arrays on it being written in place, is a store into the data that the
path leads to, if no place is crossed twice. -/
theorem storeNested_eq_storeAt (hs : m.heap.Supports (v :: new :: vs)) (hpeek : m.peekNested v path = .ok w)
    (hx : w.target? = some x) (hdistinct : (m.crossed v (path ++ [cell])).Nodup) (owner : Option NodeId) :
    m.storeNested v (path ++ [cell]) new false owner = (v, m.storeAt x cell new) := by
  induction path generalizing m v vs owner with
  | nil =>
    obtain rfl := Except.ok.inj hpeek
    rw [List.nil_append, storeNested, store_eq_storeAt hx]
  | cons c rest ih =>
    obtain ⟨a, inner, ha, hinner, hrest⟩ := peekNested_cons.1 hpeek
    obtain ⟨b, hb, hcell⟩ := Option.bind_eq_some_iff.1 hinner
    rw [List.cons_append, crossed_cons ha hinner, List.nodup_cons, crossed_append_singleton hrest hx,
      List.mem_append, not_or, List.mem_singleton] at hdistinct
    obtain ⟨⟨hfresh, hlast⟩, hdistinct⟩ := hdistinct
    have hvalues : m.heap.Holds [v] := hs.holds.one List.mem_cons_self
    have hthere : ∃ b, m.heap.block? x = some b := holds_peekNested hs hvalues hpeek w (List.mem_singleton_self w) x hx
    -- below the cell that is moved out everything is as it was
    have hs₂ : (m.putCell a c .undefined).heap.Supports (inner :: new :: v :: vs) := by
      have hgiven : m.heap.Supports (.undefined :: v :: new :: vs) := hs.of_le (by simp [Value.target?])
      exact (supports_putCell hgiven hb hcell).perm (List.Perm.cons _ (List.Perm.swap _ _ _))
    obtain ⟨hrest₂, hcrossed⟩ := peekNested_of_crossed
      (fun p hp => at?_putCell_ne (ne_of_mem_of_not_mem hp hfresh) .undefined) hrest
    have hbelow := ih hs₂ hrest₂ (by rwa [crossed_append_singleton hrest₂ hx, hcrossed])
      ((m.putCell a c .undefined).node? v)
    -- the array above it outlives the store, since the value leads to it
    have hs' : (m.storeAt x cell new).heap.Supports (v :: vs) := by
      obtain ⟨bx, hbx⟩ := hthere
      exact supports_storeAt (hs.perm (List.Perm.swap _ _ _)) hbx cell
    obtain ⟨b', hb'⟩ := hs'.alive List.mem_cons_self ha
    have hinner' := at?_storeAt hinner hlast hthere ⟨b', hb'⟩
    rw [storeAt_putCell hthere hinner hlast hb' .undefined] at hbelow
    have hgrown := growAt_eq_self hinner
    have hmoved : (m.growAt a c).cellAt a c = inner := by rw [hgrown, cellAt_eq hb hcell]
    rw [← hmoved] at hbelow
    rw [List.cons_append, storeNested_cons m v c (by simp) new false owner (openForWrite_in_place ha owner)
      (by rw [hgrown]) hbelow, hmoved, put_back hinner']

/-- Takes a handle on an array, stores through it in place, and lets it go. -/
def storeThrough (m : Memory) (v : Value) (cell : Cell) (new : Value) : Memory :=
  let (v, m) := m.share v
  let (v, m) := m.store v cell new false none
  m.release [v]

theorem storeThrough_eq_storeAt (ha : v.target? = some a) (hx : ∃ b, m.heap.block? a = some b)
    (hpos : 0 < (m.storeAt a cell new).heap.holdersOf a) :
    m.storeThrough v cell new = m.storeAt a cell new := by
  obtain ⟨b, hb⟩ := Heap.block?_of_holders hpos
  have hshare : (Value.share v).target? = some a := by rw [Value.target?_share, ha]
  have hretain : m.retain v = { m with heap := m.heap.modify a fun b => { b with holders := b.holders + 1 } } := by
    rw [retain, Heap.retain, ha]
  unfold storeThrough share
  dsimp only
  have hlasting : Heap.Lasting fun b => { b with holders := b.holders + 1 } := by
    intro b hmany
    refine ⟨Nat.lt_succ_of_lt hmany, congrArg (Block.mk b.rows b.node) ?_⟩
    dsimp only
    omega
  rw [store_eq_storeAt hshare, hretain, storeAt_modify hx hlasting (fun _ => rfl) ?_ hb]
  swap
  · simp only [Block.replaced, Block.write, implies_true, and_self]
  -- the further holder goes again
  have hheld : ((m.storeAt a cell new).heap.modify a fun b => { b with holders := b.holders + 1 }).block? a =
      some { b with holders := b.holders + 1 } := by rw [Heap.block?_modify, if_pos rfl, hb, Option.map_some]
  have hone : 0 < b.holders := by simpa [Heap.holdersOf, hb] using hpos
  have hback : (m.storeAt a cell new).heap.put a (some b) = (m.storeAt a cell new).heap := by
    rw [← Heap.modify_id (m.storeAt a cell new).heap a, Heap.modify_eq_put hb, Heap.put_put]
    rfl
  rw [release, Heap.release_held hshare hheld, if_neg (by dsimp only; omega), Heap.release_nil, Heap.modify_eq_put hb,
    Heap.put_put]
  exact congrArg (Memory.mk · (m.storeAt a cell new).collector) hback

/-- A store along a path that crosses no place twice, the arrays on it being written in place, is a store through
the handle that the path leads to. -/
theorem storeNested_eq_storeThrough (hs : m.heap.Supports (v :: new :: vs)) (hpeek : m.peekNested v path = .ok w)
    (hdata : w.target?.isSome = true) (hdistinct : (m.crossed v (path ++ [cell])).Nodup) :
    m.storeNested v (path ++ [cell]) new false none = (v, m.storeThrough w cell new) := by
  obtain ⟨x, hx⟩ := Option.isSome_iff_exists.1 hdata
  obtain ⟨b, hb⟩ := holds_peekNested hs (hs.holds.one List.mem_cons_self) hpeek w (List.mem_singleton_self w) x hx
  have hs' : (m.storeAt x cell new).heap.Supports (v :: vs) :=
    supports_storeAt (hs.perm (List.Perm.swap _ _ _)) hb cell
  have hpos : 0 < (m.storeAt x cell new).heap.holdersOf x := by
    refine holders_storeAt hs' ⟨b, hb⟩ (fun a ha => ?_) hpeek ?_ hx
    · have hhand : 0 < handlesOn a (v :: vs) := handlesOn_pos_iff.2 ⟨v, List.mem_cons_self, ha⟩
      have hle := hs' a
      omega
    · rw [crossed_append_singleton hpeek hx] at hdistinct
      exact fun hmem => (List.nodup_append.1 hdistinct).2.2 _ hmem _ (List.mem_singleton_self _) rfl
  rw [storeNested_eq_storeAt hs hpeek hx hdistinct, storeThrough_eq_storeAt hx ⟨b, hb⟩ hpos]

theorem Sound.integrityCheck_storeThrough (h : m.Sound (new :: vs)) (hok : m.integrityCheck = .ok ())
    (hw : m.heap.Holds [w]) (cell : Cell) : (m.storeThrough w cell new).integrityCheck = .ok () := by
  obtain ⟨c, hm⟩ := h.mirrors hok
  obtain ⟨c', hstored⟩ := (hm.retain (hw w (List.mem_singleton_self w))).store False.elim cell false
  exact (hstored.release_one False.elim).integrityCheck (by simp)

/-- In every memory that operations on arrays lead to, a store along a path that is not to copy does to memory and
collector what a store through the handle does that the path leads to, and keeps the check passing, as long as the
path comes to no cell that it has moved out. -/
theorem Wrought.storeNested_through_handle (h : Wrought m (v :: new :: vs)) (hpeek : m.peekNested v path = .ok w)
    (hdata : w.target?.isSome = true) (hdistinct : (m.crossed v (path ++ [cell])).Nodup) :
    m.storeNested v (path ++ [cell]) new false none = (v, m.storeThrough w cell new) ∧
      (m.integrityCheck = .ok () → (m.storeNested v (path ++ [cell]) new false none).2.integrityCheck = .ok ()) := by
  have hs := h.sound.supports
  have hstore := storeNested_eq_storeThrough hs hpeek hdata hdistinct
  refine ⟨hstore, fun hok => ?_⟩
  have hsound : m.Sound (new :: v :: vs) := h.sound.of_le fun a => (handlesOn_perm (List.Perm.swap _ _ _) a).ge
  rw [hstore]
  exact hsound.integrityCheck_storeThrough hok (holds_peekNested hs (hs.holds.one List.mem_cons_self) hpeek) cell

theorem Worked.wrought (h : Worked m vs) : Wrought m vs := by
  induction h with
  | start => exact .start
  | move hp _ ih => exact .move hp ih
  | plain v hv _ ih => exact .plain v hv ih
  | construct tracked rows _ ih => exact .construct tracked rows ih
  | clone path hv hpeek _ ih => exact .clone path hv hpeek ih
  | drop _ ih => exact .drop ih
  | ensure _ ih => exact .openForWrite false true none ih
  | store cell copy _ ih => exact .store cell copy true none ih
  | storeNested path _ ih => exact .storeNested path true true none ih
  | makeRoot _ ih => exact .makeRoot ih
  | releaseRoot _ ih => exact .releaseRoot ih
  | load hload _ ih => exact .load hload ih
  | loadFails hload _ ih => exact .loadFails hload ih
  | collect extra _ ih => exact .collect extra ih

def tangle : Memory := (knot.2.newArray #[#[.int 5]]).2

def five : Value := (knot.2.newArray #[#[.int 5]]).1

theorem tangle_wrought : Wrought tangle [knot.1, five] :=
  .move (List.Perm.swap _ _ _) (Worked.construct true #[#[.int 5]]
    (.plain (.int 5) rfl knot_worked)).wrought

/-- The knot is entered through its only cell, and a cell beside that is written. -/
theorem storeNested_through_handle_knot :
    Wrought tangle [knot.1, five] ∧ tangle.peekNested knot.1 [(0, 0)] = .ok knot.1 ∧
      (tangle.crossed knot.1 [(0, 0), (0, 1)]).Nodup ∧
      tangle.storeNested knot.1 [(0, 0), (0, 1)] five false none = (knot.1, tangle.storeThrough knot.1 (0, 1) five) ∧
      (tangle.storeNested knot.1 [(0, 0), (0, 1)] five false none).2.integrityCheck = .ok () := by
  have hpeek : tangle.peekNested knot.1 [(0, 0)] = .ok knot.1 := by cbv
  have hcrossed : tangle.crossed knot.1 ([(0, 0)] ++ [(0, 1)]) = [(0, (0, 0)), (0, (0, 1))] := by cbv
  have hdistinct : (tangle.crossed knot.1 ([(0, 0)] ++ [(0, 1)])).Nodup := by
    rw [hcrossed]
    decide
  obtain ⟨hstore, hcheck⟩ := Wrought.storeNested_through_handle tangle_wrought hpeek (by cbv) hdistinct
  exact ⟨tangle_wrought, hpeek, hdistinct, hstore, hcheck (by cbv)⟩

/-- The path enters the knot through its only cell and then writes that cell. The new array is lost, since the cell
that was moved out is put back over it, and its edge stays behind, beside the edge of the knot to itself. -/
theorem knot_crossed_twice :
    Wrought tangle [knot.1, five] ∧ tangle.peekNested knot.1 [(0, 0)] = .ok knot.1 ∧
      tangle.integrityCheck = .ok () ∧
      (tangle.storeThrough knot.1 (0, 0) five).at? (0, (0, 0)) = some five ∧
      (tangle.storeThrough knot.1 (0, 0) five).integrityCheck = .ok () ∧
      (tangle.storeNested knot.1 [(0, 0), (0, 0)] five false none).2.at? (0, (0, 0)) = some knot.1 ∧
      (tangle.storeNested knot.1 [(0, 0), (0, 0)] five false none).2.integrityCheck =
        .error { node := ⟨0, 0⟩, target := ⟨1, 0⟩, recorded := 1, observed := 0 } :=
  ⟨tangle_wrought, by cbv, by cbv, by cbv, by cbv, by cbv, by cbv⟩

end Memory
end ScriptVm
