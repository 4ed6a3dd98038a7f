import ScriptVm.Proofs.Cells

/-! Counting holders. A heap supports some values if every block counts at least as many holders as
there are handles on it, in cells and among these values. Then no handle dangles, a block with one
holder is reached through that holder alone, and dropping values leaves all that the others reach. -/

namespace ScriptVm

@[simp] theorem Value.target?_share (v : Value) : v.share.target? = v.target? := by
  cases v <;> rfl

theorem Value.target?_of_not_array {v : Value} (hv : v.isArray = false) : v.target? = none := by
  cases v <;> first | rfl | cases hv

/-- How many of the values are handles on the data. -/
def handlesOn (a : Address) (vs : List Value) : Nat := vs.countP fun v => decide (v.target? = some a)

@[simp] theorem handlesOn_nil (a : Address) : handlesOn a [] = 0 := rfl

@[simp] theorem handlesOn_cons (a : Address) (v : Value) (vs : List Value) :
    handlesOn a (v :: vs) = handlesOn a vs + if v.target? = some a then 1 else 0 := by
  simp [handlesOn, List.countP_cons]

@[simp] theorem handlesOn_append (a : Address) (vs ws : List Value) :
    handlesOn a (vs ++ ws) = handlesOn a vs + handlesOn a ws := List.countP_append

theorem handlesOn_perm {vs ws : List Value} (h : vs.Perm ws) (a : Address) :
    handlesOn a vs = handlesOn a ws := h.countP_eq _

theorem handlesOn_pos_iff {a : Address} {vs : List Value} :
    0 < handlesOn a vs ↔ ∃ v ∈ vs, v.target? = some a := by
  simp [handlesOn, List.countP_pos_iff]

theorem handlesOn_eq_zero_iff {a : Address} {vs : List Value} :
    handlesOn a vs = 0 ↔ ∀ v ∈ vs, v.target? ≠ some a := by
  simp [handlesOn, List.countP_eq_zero]

@[simp] theorem handlesOn_share (a : Address) (vs : List Value) :
    handlesOn a (vs.map Value.share) = handlesOn a vs := by
  simp [handlesOn, List.countP_map, Function.comp_def]

namespace Heap

def innerHandles (h : Heap) (a : Address) : Nat :=
  (h.blocks.toList.map fun o => (o.map fun b => handlesOn a b.cells).getD 0).sum

def holdersOf (h : Heap) (a : Address) : Nat := ((h.block? a).map (·.holders)).getD 0

/-- Every block counts its handles, in cells and among the values. -/
def Supports (h : Heap) (vs : List Value) : Prop :=
  ∀ a, h.innerHandles a + handlesOn a vs ≤ h.holdersOf a

/-- Puts a block, or none, in an address's place. -/
def put (h : Heap) (a : Address) (o : Option Block) : Heap := ⟨h.blocks.setIfInBounds a o⟩

theorem block?_eq_some_iff {h : Heap} {a : Address} {b : Block} :
    h.block? a = some b ↔ h.blocks[a]? = some (some b) := by
  simp [block?, Option.join_eq_some_iff]

theorem lt_of_block? {h : Heap} {a : Address} {b : Block} (hb : h.block? a = some b) :
    a < h.blocks.size := (Array.getElem?_eq_some_iff.1 (block?_eq_some_iff.1 hb)).1

theorem block?_put {h : Heap} {a : Address} {b : Block} (hb : h.block? a = some b) (o : Option Block)
    (x : Address) : (h.put a o).block? x = if x = a then o else h.block? x := by
  simp only [put, block?, Array.getElem?_setIfInBounds]
  by_cases hx : a = x
  · subst hx
    simp [lt_of_block? hb]
  · simp [hx, Ne.symm hx]

theorem innerHandles_put {h : Heap} {a : Address} {b : Block} (hb : h.block? a = some b)
    (o : Option Block) (x : Address) :
    (h.put a o).innerHandles x + handlesOn x b.cells =
      h.innerHandles x + (o.map fun b => handlesOn x b.cells).getD 0 := by
  have hget : h.blocks.toList[a]? = some (some b) := by
    rw [Array.getElem?_toList]
    exact block?_eq_some_iff.1 hb
  have hset : (h.put a o).blocks.toList = h.blocks.toList.modify a fun _ => o := by
    rw [put, Array.toList_setIfInBounds, List.modify_eq_set_getElem?, hget]
    rfl
  have hsum := sum_map_modify (fun o : Option Block => (o.map fun b => handlesOn x b.cells).getD 0)
    (fun _ => o) hget
  rw [innerHandles, hset, innerHandles]
  exact hsum

theorem modify_eq_put {h : Heap} {a : Address} {b : Block} (hb : h.block? a = some b)
    (f : Block → Block) : h.modify a f = h.put a (some (f b)) := by
  rw [modify, put]
  congr 1
  apply Array.ext_getElem?
  intro x
  rw [Array.getElem?_modify, Array.getElem?_setIfInBounds]
  split_ifs with hx
  · subst hx
    rw [block?_eq_some_iff.1 hb]
    rfl
  · rename_i hout
    subst hx
    exact absurd (lt_of_block? hb) hout
  · rfl

theorem modify_eq_self {h : Heap} {a : Address} (hb : h.block? a = none) (f : Block → Block) :
    h.modify a f = h := by
  rw [modify]
  congr 1
  apply Array.ext_getElem?
  intro x
  rw [Array.getElem?_modify]
  split_ifs with hx
  · subst hx
    cases hx : h.blocks[a]? with
    | none => rfl
    | some o =>
      cases o with
      | none => rfl
      | some b => simp [block?, hx] at hb
  · rfl

theorem modify_id (h : Heap) (a : Address) : h.modify a id = h := by
  cases hb : h.block? a with
  | none => exact modify_eq_self hb id
  | some b =>
    rw [modify_eq_put hb, put]
    congr 1
    apply Array.ext_getElem?
    intro x
    rw [Array.getElem?_setIfInBounds]
    split_ifs with hx hin
    · exact hx ▸ (block?_eq_some_iff.1 hb).symm
    · exact absurd (lt_of_block? hb) hin
    · rfl

@[simp] theorem block?_modify (h : Heap) (a x : Address) (f : Block → Block) :
    (h.modify a f).block? x = if x = a then (h.block? a).map f else h.block? x := by
  cases hb : h.block? a with
  | none =>
    rw [modify_eq_self hb]
    split_ifs with hx
    · rw [hx, hb]
      rfl
    · rfl
  | some b => rw [modify_eq_put hb, block?_put hb, Option.map_some]

@[simp] theorem size_modify (h : Heap) (a : Address) (f : Block → Block) :
    (h.modify a f).blocks.size = h.blocks.size := by
  simp [modify]

theorem block?_alloc (h : Heap) (rows : Rows) (x : Address) :
    (h.alloc rows).2.block? x = if x = h.blocks.size then some { rows := rows } else h.block? x := by
  simp only [alloc, block?, Array.getElem?_push]
  split_ifs <;> rfl

theorem innerHandles_alloc (h : Heap) (rows : Rows) (x : Address) :
    (h.alloc rows).2.innerHandles x = h.innerHandles x + handlesOn x (Rows.cells rows) := by
  simp [alloc, innerHandles, Block.cells_eq]

theorem block?_of_size_le {h : Heap} {a : Address} (ha : h.blocks.size ≤ a) : h.block? a = none := by
  simp [block?, Array.getElem?_eq_none ha]

/-! ### What supported handles lead to -/

section
variable {h : Heap} {vs ws : List Value}

theorem Supports.perm (hs : h.Supports vs) (hp : vs.Perm ws) : h.Supports ws := by
  intro a
  rw [← handlesOn_perm hp a]
  exact hs a

theorem Supports.of_le (hs : h.Supports vs) (hle : ∀ a, handlesOn a ws ≤ handlesOn a vs) :
    h.Supports ws := fun a => (Nat.add_le_add_left (hle a) _).trans (hs a)

theorem Supports.tail {v : Value} (hs : h.Supports (v :: vs)) : h.Supports vs :=
  hs.of_le fun a => by simp

theorem block?_of_holders {a : Address} (hpos : 0 < h.holdersOf a) : ∃ b, h.block? a = some b := by
  cases hb : h.block? a with
  | none => simp [holdersOf, hb] at hpos
  | some b => exact ⟨b, rfl⟩

theorem Supports.alive (hs : h.Supports vs) {v : Value} (hv : v ∈ vs) {a : Address}
    (ha : v.target? = some a) : ∃ b, h.block? a = some b := by
  have hpos : 0 < handlesOn a vs := handlesOn_pos_iff.2 ⟨v, hv, ha⟩
  exact block?_of_holders (by have := hs a; omega)

theorem innerHandles_pos {x a : Address} {b : Block} {v : Value} (hb : h.block? x = some b)
    (hv : v ∈ b.cells) (ha : v.target? = some a) : 0 < h.innerHandles a := by
  have hpos : 0 < handlesOn a b.cells := handlesOn_pos_iff.2 ⟨v, hv, ha⟩
  have hput := innerHandles_put hb none a
  simp only [Option.map_none, Option.getD_none] at hput
  omega

theorem Supports.cell_alive (hs : h.Supports vs) {x a : Address} {b : Block} {v : Value}
    (hb : h.block? x = some b) (hv : v ∈ b.cells) (ha : v.target? = some a) :
    ∃ b, h.block? a = some b := by
  have hpos := innerHandles_pos hb hv ha
  exact block?_of_holders (by have := hs a; omega)

/-- A block with one holder is reached through that holder alone. -/
theorem Supports.sole {v : Value} (hs : h.Supports (v :: vs)) {a : Address} {b : Block}
    (ha : v.target? = some a) (hb : h.block? a = some b) (hone : b.holders ≤ 1) :
    h.innerHandles a = 0 ∧ handlesOn a vs = 0 := by
  have hle := hs a
  simp only [handlesOn_cons, ha, if_true, holdersOf, hb, Option.map_some, Option.getD_some] at hle
  omega

theorem Supports.fresh (hs : h.Supports vs) {a : Address} (ha : h.blocks.size ≤ a) :
    h.innerHandles a = 0 ∧ handlesOn a vs = 0 := by
  have hle := hs a
  simp only [holdersOf, block?_of_size_le ha, Option.map_none, Option.getD_none] at hle
  omega

/-! ### Changes -/

/-- A change of one block that takes some values in and gives others out. -/
theorem Supports.modify (ins outs : List Value) (hs : h.Supports (ins ++ vs)) {a : Address} {b : Block}
    (hb : h.block? a = some b) {f : Block → Block} (hholders : (f b).holders = b.holders)
    (hcells : ∀ x, handlesOn x (f b).cells + handlesOn x outs = handlesOn x b.cells + handlesOn x ins) :
    (h.modify a f).Supports (outs ++ vs) := by
  intro x
  have hle := hs x
  have hput := innerHandles_put hb (some (f b)) x
  have hcount := hcells x
  have hsame : (h.modify a f).holdersOf x = h.holdersOf x := by
    rw [holdersOf, block?_modify, holdersOf]
    split_ifs with hx
    · rw [hx, hb]
      simp [hholders]
    · rfl
  rw [← modify_eq_put hb] at hput
  simp only [Option.map_some, Option.getD_some, handlesOn_append] at hput hle ⊢
  rw [hsame]
  omega

theorem Supports.modify_same (hs : h.Supports vs) (a : Address) {f : Block → Block}
    (hholders : ∀ b, (f b).holders = b.holders) (hrows : ∀ b, (f b).rows = b.rows) :
    (h.modify a f).Supports vs := by
  cases hb : h.block? a with
  | none => rwa [modify_eq_self hb]
  | some b =>
    refine Supports.modify [] [] hs hb (hholders b) fun x => ?_
    rw [Block.cells_eq, hrows, Block.cells_eq]

theorem innerHandles_modify_rows {a : Address} {f : Block → Block} (hrows : ∀ b, (f b).rows = b.rows)
    (x : Address) : (h.modify a f).innerHandles x = h.innerHandles x := by
  cases hb : h.block? a with
  | none => rw [modify_eq_self hb]
  | some b =>
    have hput := innerHandles_put hb (some (f b)) x
    rw [← modify_eq_put hb] at hput
    simp only [Option.map_some, Option.getD_some, Block.cells_eq, hrows] at hput
    omega

theorem innerHandles_retain (v : Value) (x : Address) :
    (h.retain v).innerHandles x = h.innerHandles x := by
  unfold Heap.retain
  split
  · apply innerHandles_modify_rows
    intro b
    rfl
  · rfl

theorem Supports.retain (hs : h.Supports vs) {v : Value}
    (halive : ∀ a, v.target? = some a → ∃ b, h.block? a = some b) :
    (h.retain v).Supports (v :: vs) := by
  intro x
  have hle := hs x
  rw [innerHandles_retain]
  unfold Heap.retain
  split
  · rename_i a ha
    obtain ⟨b, hb⟩ := halive a ha
    simp only [handlesOn_cons, ha, Option.some.injEq, holdersOf, block?_modify] at hle ⊢
    by_cases hx : x = a
    · subst hx
      simp only [hb, if_true, Option.map_some, Option.getD_some] at hle ⊢
      omega
    · simp only [hx, Ne.symm hx, if_false] at hle ⊢
      omega
  · rename_i ha
    simpa [ha] using hle

/-! ### Dropping values -/

theorem release_nil (h : Heap) : h.release [] = h := by
  rw [release]

theorem release_skip {v : Value} (hv : v.target?.bind h.block? = none) (rest : List Value) :
    h.release (v :: rest) = h.release rest := by
  rw [release]
  split
  · rfl
  · rename_i a ha
    have hb : h.block? a = none := by simpa [ha] using hv
    split_ifs with hin
    · split
      · rfl
      · rename_i b hfound
        rw [block?_eq_some_iff.2 (Array.getElem?_eq_some_iff.2 ⟨hin, hfound⟩)] at hb
        cases hb
    · rfl

theorem release_held {v : Value} {a : Address} {b : Block} (ha : v.target? = some a)
    (hb : h.block? a = some b) (rest : List Value) :
    h.release (v :: rest) =
      if b.holders ≤ 1 then (h.put a none).release (b.cells ++ rest)
      else (h.put a (some { b with holders := b.holders - 1 })).release rest := by
  obtain ⟨hin, hget⟩ := Array.getElem?_eq_some_iff.1 (block?_eq_some_iff.1 hb)
  have hset : ∀ o, (⟨h.blocks.set a o⟩ : Heap) = h.put a o := by
    intro o
    rw [put, Array.setIfInBounds, dif_pos hin]
  rw [release]
  split
  · rename_i hnone
    rw [ha] at hnone
    cases hnone
  · rename_i a' ha'
    obtain rfl := Option.some.inj (ha.symm.trans ha')
    rw [dif_pos hin]
    split
    · rename_i hfound
      rw [hget] at hfound
      cases hfound
    · rename_i b' hfound
      obtain rfl := Option.some.inj (hget.symm.trans hfound)
      rw [hset, hset]

/-- Dropping step by step: a value without data, the last holder of a block, one holder of several. -/
theorem release_rec {P : Heap → List Value → Heap → Prop}
    (nil : ∀ h, P h [] h)
    (skip : ∀ h v rest r, v.target?.bind h.block? = none → P h rest r → P h (v :: rest) r)
    (last : ∀ h v a b rest r, v.target? = some a → h.block? a = some b → b.holders ≤ 1 →
      P (h.put a none) (b.cells ++ rest) r → P h (v :: rest) r)
    (shared : ∀ h v a b rest r, v.target? = some a → h.block? a = some b → 1 < b.holders →
      P (h.put a (some { b with holders := b.holders - 1 })) rest r → P h (v :: rest) r)
    (h : Heap) (work : List Value) : P h work (h.release work) := by
  have hput : ∀ (h : Heap) (a : Address) (o : Option Block) (hin : a < h.blocks.size),
      (⟨h.blocks.set a o⟩ : Heap) = h.put a o := by
    intro h a o hin
    rw [put, Array.setIfInBounds, dif_pos hin]
  induction h, work using release.induct with
  | case1 h =>
    rw [release_nil]
    exact nil h
  | case2 h v rest ha ih =>
    have hv : v.target?.bind h.block? = none := by rw [ha]; rfl
    rw [release_skip hv]
    exact skip h v rest _ hv ih
  | case3 h v rest a ha hin hfound ih =>
    have hv : v.target?.bind h.block? = none := by
      simp [ha, block?, Array.getElem?_eq_getElem hin, hfound]
    rw [release_skip hv]
    exact skip h v rest _ hv ih
  | case4 h v rest a ha hin b hfound hone ih =>
    have hb := block?_eq_some_iff.2 (Array.getElem?_eq_some_iff.2 ⟨hin, hfound⟩)
    rw [hput h a none hin] at ih
    rw [release_held ha hb, if_pos hone]
    exact last h v a b rest _ ha hb hone ih
  | case5 h v rest a ha hin b hfound hmany ih =>
    have hb := block?_eq_some_iff.2 (Array.getElem?_eq_some_iff.2 ⟨hin, hfound⟩)
    rw [hput h a _ hin] at ih
    rw [release_held ha hb, if_neg hmany]
    exact shared h v a b rest _ ha hb (by omega) ih
  | case6 h v rest a ha hout ih =>
    have hv : v.target?.bind h.block? = none := by
      simp [ha, block?_of_size_le (Nat.le_of_not_lt hout)]
    rw [release_skip hv]
    exact skip h v rest _ hv ih

theorem release_first {ws : List Value} {a : Address} {targets : List Address}
    (hws : ws.filterMap Value.target? = a :: targets) :
    ∃ w rest, w.target? = some a ∧ rest.filterMap Value.target? = targets ∧
      ∀ h : Heap, h.release ws = h.release (w :: rest) := by
  induction ws with
  | nil => cases hws
  | cons w ws ih =>
    cases hw : w.target? with
    | none =>
      rw [List.filterMap_cons_none hw] at hws
      obtain ⟨w', rest, hw', hrest, hsame⟩ := ih hws
      exact ⟨w', rest, hw', hrest, fun h => (release_skip (by simp [hw]) ws).trans (hsame h)⟩
    | some x =>
      rw [List.filterMap_cons_some hw] at hws
      obtain ⟨rfl, hrest⟩ := List.cons.inj hws
      exact ⟨w, ws, hw, hrest, fun h => rfl⟩

theorem release_nulls {ws : List Value} (hws : ws.filterMap Value.target? = []) (h : Heap) :
    h.release ws = h := by
  induction ws with
  | nil => exact release_nil h
  | cons w ws ih =>
    cases hw : w.target? with
    | none =>
      rw [List.filterMap_cons_none hw] at hws
      rw [release_skip (by simp [hw]), ih hws]
    | some x =>
      rw [List.filterMap_cons_some hw] at hws
      cases hws

theorem release_congr {vs ws : List Value}
    (hsame : ws.filterMap Value.target? = vs.filterMap Value.target?) : h.release ws = h.release vs := by
  refine release_rec (P := fun h vs r => ∀ ws : List Value,
    ws.filterMap Value.target? = vs.filterMap Value.target? → h.release ws = r) ?_ ?_ ?_ ?_ h vs ws hsame
  · intro h ws hws
    exact release_nulls hws h
  · intro h v rest r hv ih ws hws
    cases ht : v.target? with
    | none =>
      rw [List.filterMap_cons_none ht] at hws
      exact ih ws hws
    | some a =>
      rw [List.filterMap_cons_some ht] at hws
      obtain ⟨w, ws, hw, hws, hfirst⟩ := release_first hws
      rw [hfirst, release_skip (by rw [hw, ← ht, hv])]
      exact ih ws hws
  · intro h v a b rest r ha hb hone ih ws hws
    rw [List.filterMap_cons_some ha] at hws
    obtain ⟨w, ws, hw, hws, hfirst⟩ := release_first hws
    rw [hfirst, release_held hw hb, if_pos hone]
    exact ih _ (by rw [List.filterMap_append, List.filterMap_append, hws])
  · intro h v a b rest r ha hb hmany ih ws hws
    rw [List.filterMap_cons_some ha] at hws
    obtain ⟨w, ws, hw, hws, hfirst⟩ := release_first hws
    rw [hfirst, release_held hw hb, if_neg (by omega)]
    exact ih ws hws

/-- Blocks may go, but those that stay keep rows and node. -/
structure Shrinks (h h' : Heap) : Prop where
  size : h'.blocks.size = h.blocks.size
  block : ∀ a b', h'.block? a = some b' →
    ∃ b, h.block? a = some b ∧ b'.rows = b.rows ∧ b'.node = b.node
  inner : ∀ a, h'.innerHandles a ≤ h.innerHandles a

theorem Shrinks.refl (h : Heap) : h.Shrinks h := ⟨rfl, fun _ b hb => ⟨b, hb, rfl, rfl⟩, fun _ => le_rfl⟩

theorem Shrinks.trans {h₁ h₂ h₃ : Heap} (h₁₂ : h₁.Shrinks h₂) (h₂₃ : h₂.Shrinks h₃) :
    h₁.Shrinks h₃ := by
  refine ⟨h₂₃.size.trans h₁₂.size, fun a b₃ hb₃ => ?_, fun a => (h₂₃.inner a).trans (h₁₂.inner a)⟩
  obtain ⟨b₂, hb₂, hrows₂, hnode₂⟩ := h₂₃.block a b₃ hb₃
  obtain ⟨b₁, hb₁, hrows₁, hnode₁⟩ := h₁₂.block a b₂ hb₂
  exact ⟨b₁, hb₁, hrows₂.trans hrows₁, hnode₂.trans hnode₁⟩

theorem shrinks_put {a : Address} {b : Block} (hb : h.block? a = some b) {o : Option Block}
    (ho : ∀ b', o = some b' → b'.rows = b.rows ∧ b'.node = b.node) : h.Shrinks (h.put a o) := by
  refine ⟨by simp [put], fun x b' hb' => ?_, fun x => ?_⟩
  · rw [block?_put hb] at hb'
    split_ifs at hb' with hx
    · exact ⟨b, hx ▸ hb, ho b' hb'⟩
    · exact ⟨b', hb', rfl, rfl⟩
  · have hput := innerHandles_put hb o x
    have hle : (o.map fun b => handlesOn x b.cells).getD 0 ≤ handlesOn x b.cells := by
      cases o with
      | none => exact Nat.zero_le _
      | some b' => simp [Block.cells_eq, (ho b' rfl).1]
    omega

theorem shrinks_release (h : Heap) (work : List Value) : h.Shrinks (h.release work) := by
  refine release_rec (P := fun h _ r => h.Shrinks r) ?_ ?_ ?_ ?_ h work
  · intro h
    exact Shrinks.refl h
  · intro h v rest r _ ih
    exact ih
  · intro h v a b rest r _ hb _ ih
    exact (shrinks_put hb (by simp)).trans ih
  · intro h v a b rest r _ hb _ ih
    refine (shrinks_put hb ?_).trans ih
    intro b' hb'
    obtain rfl := Option.some.inj hb'
    exact ⟨rfl, rfl⟩

theorem Supports.release (work : List Value) {vs : List Value} (hs : h.Supports (work ++ vs)) :
    (h.release work).Supports vs := by
  refine release_rec (P := fun h work r => h.Supports (work ++ vs) → r.Supports vs) ?_ ?_ ?_ ?_ h work hs
  · intro h hs
    exact hs
  · intro h v rest r _ ih hs
    exact ih hs.tail
  · intro h v a b rest r ha hb hone ih hs
    apply ih
    -- nothing else refers to the block that goes
    have hfirst : h.Supports (v :: (rest ++ vs)) := hs
    have hsole := hfirst.sole ha hb hone
    intro x
    have hle := hs x
    have hput := innerHandles_put hb none x
    simp only [Option.map_none, Option.getD_none, List.cons_append, handlesOn_cons, ha,
      handlesOn_append, holdersOf, block?_put hb] at hput hle hsole ⊢
    by_cases hx : x = a
    · subst hx
      simp only [if_true, Option.map_none, Option.getD_none]
      omega
    · simp only [hx, if_false]
      omega
  · intro h v a b rest r ha hb hmany ih hs
    apply ih
    intro x
    have hle := hs x
    have hput := innerHandles_put hb (some { b with holders := b.holders - 1 }) x
    simp only [Option.map_some, Option.getD_some, List.cons_append, handlesOn_cons, ha, holdersOf,
      Block.cells_eq, Option.some.injEq, block?_put hb] at hput hle ⊢
    by_cases hx : x = a
    · subst hx
      simp only [if_true, Option.map_some, Option.getD_some, hb] at hle ⊢
      omega
    · simp only [hx, Ne.symm hx, if_false] at hle ⊢
      omega

end

end Heap
end ScriptVm
