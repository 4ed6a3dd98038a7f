import ScriptVm.Proofs.Holders

/-! What a change of the heap leaves alone. `Agrees` says that all that some values reach keeps its
rows; `Evolves` that addresses keep their nodes and that no handle is made out of nothing. A write to
data with a single holder is invisible to all other values. -/

namespace ScriptVm.Heap

/-- The data that some values lead to, through any number of cells. -/
inductive Reaches (h : Heap) (vs : List Value) : Address → Prop where
  | value {v : Value} {a : Address} : v ∈ vs → v.target? = some a → Reaches h vs a
  | cell {a x : Address} {b : Block} {v : Value} : Reaches h vs a → h.block? a = some b →
      v ∈ b.cells → v.target? = some x → Reaches h vs x

/-- All that the values reach keeps its rows. -/
def Agrees (vs : List Value) (h h' : Heap) : Prop :=
  ∀ a b, h.Reaches vs a → h.block? a = some b → ∃ b', h'.block? a = some b' ∧ b'.rows = b.rows

def Extends (h h' : Heap) : Prop :=
  ∀ a b, h.block? a = some b → ∃ b', h'.block? a = some b' ∧ b'.rows = b.rows

/-- A change that takes some values in and gives others out. -/
structure Evolves (h : Heap) (ins : List Value) (h' : Heap) (outs : List Value) : Prop where
  size : h.blocks.size ≤ h'.blocks.size
  node : ∀ a b', a < h.blocks.size → h'.block? a = some b' →
    ∃ b, h.block? a = some b ∧ b'.node = b.node
  unforged : ∀ a < h.blocks.size, h.innerHandles a = 0 → handlesOn a ins = 0 →
    h'.innerHandles a = 0 ∧ handlesOn a outs = 0

section
variable {h h' h'' : Heap} {vs ws : List Value}

theorem Reaches.mono (hsub : ∀ v ∈ vs, v ∈ ws) {a : Address} (hr : h.Reaches vs a) :
    h.Reaches ws a := by
  induction hr with
  | value hv ha => exact .value (hsub _ hv) ha
  | cell _ hb hv hx ih => exact .cell ih hb hv hx

theorem Reaches.of_cell {a x : Address} {b : Block} {v : Value} (hr : h.Reaches [v] x) (ha : h.Reaches vs a)
    (hb : h.block? a = some b) (hv : v ∈ b.cells) : h.Reaches vs x := by
  induction hr with
  | value hmem hx =>
    obtain rfl := List.mem_singleton.1 hmem
    exact .cell ha hb hv hx
  | cell _ hy hw hx ih => exact .cell ih hy hw hx

/-- Whatever is reached is referred to by a cell or by one of the values. -/
theorem Reaches.counted {a : Address} (hr : h.Reaches vs a) :
    0 < h.innerHandles a ∨ 0 < handlesOn a vs := by
  cases hr with
  | value hv ha => exact Or.inr (handlesOn_pos_iff.2 ⟨_, hv, ha⟩)
  | cell _ hb hv hx => exact Or.inl (innerHandles_pos hb hv hx)

theorem Reaches.alive (hs : h.Supports vs) {a : Address} (hr : h.Reaches vs a) :
    ∃ b, h.block? a = some b := by
  cases hr with
  | value hv ha => exact hs.alive hv ha
  | cell _ hb hv hx => exact hs.cell_alive hb hv hx

theorem not_reaches_of_isolated {a : Address} (hinner : h.innerHandles a = 0)
    (hvs : handlesOn a vs = 0) : ¬ h.Reaches vs a := by
  intro hr
  rcases hr.counted with hpos | hpos <;> omega

theorem Agrees.mono (ha : Agrees ws h h') (hsub : ∀ v ∈ vs, v ∈ ws) : Agrees vs h h' :=
  fun a b hr hb => ha a b (hr.mono hsub) hb

theorem Agrees.of_cell {a : Address} {b : Block} {v : Value} (hagrees : Agrees vs h h') (ha : h.Reaches vs a)
    (hb : h.block? a = some b) (hv : v ∈ b.cells) : Agrees [v] h h' :=
  fun x b' hr hb' => hagrees x b' (hr.of_cell ha hb hv) hb'

theorem Extends.agrees (he : h.Extends h') (vs : List Value) : Agrees vs h h' :=
  fun a b _ hb => he a b hb

theorem Agrees.reaches (ha : Agrees vs h h') {a : Address} (hr : h.Reaches vs a) :
    h'.Reaches vs a := by
  induction hr with
  | value hv ht => exact .value hv ht
  | cell hr hb hv hx ih =>
    obtain ⟨b', hb', hrows⟩ := ha _ _ hr hb
    refine .cell ih hb' ?_ hx
    rwa [Block.cells_eq, hrows]

theorem Agrees.reaches_iff (hs : h.Supports vs) (ha : Agrees vs h h') {a : Address} :
    h'.Reaches vs a ↔ h.Reaches vs a := by
  refine ⟨fun hr => ?_, ha.reaches⟩
  induction hr with
  | value hv ht => exact .value hv ht
  | cell hr hb hv hx ih =>
    obtain ⟨b, hb₀⟩ := ih.alive hs
    obtain ⟨b', hb', hrows⟩ := ha _ _ ih hb₀
    obtain rfl := Option.some.inj (hb.symm.trans hb')
    refine .cell ih hb₀ ?_ hx
    rwa [Block.cells_eq, ← hrows]

theorem Agrees.trans (h₁ : Agrees vs h h') (h₂ : Agrees vs h' h'') : Agrees vs h h'' := by
  intro a b hr hb
  obtain ⟨b', hb', hrows'⟩ := h₁ a b hr hb
  obtain ⟨b'', hb'', hrows''⟩ := h₂ a b' (h₁.reaches hr) hb'
  exact ⟨b'', hb'', hrows''.trans hrows'⟩

theorem Extends.refl (h : Heap) : h.Extends h := fun _ b hb => ⟨b, hb, rfl⟩

theorem Extends.trans (h₁ : h.Extends h') (h₂ : h'.Extends h'') : h.Extends h'' := by
  intro a b hb
  obtain ⟨b', hb', hrows'⟩ := h₁ a b hb
  obtain ⟨b'', hb'', hrows''⟩ := h₂ a b' hb'
  exact ⟨b'', hb'', hrows''.trans hrows'⟩

theorem Shrinks.agrees (hsh : h.Shrinks h') (hs : h'.Supports vs) : Agrees vs h h' := by
  have hkeep : ∀ a, h.Reaches vs a → ∃ b', h'.block? a = some b' := by
    intro a hr
    induction hr with
    | value hv ht => exact hs.alive hv ht
    | cell _ hb hv hx ih =>
      obtain ⟨b', hb'⟩ := ih
      obtain ⟨b₀, hb₀, hrows, -⟩ := hsh.block _ b' hb'
      obtain rfl := Option.some.inj (hb.symm.trans hb₀)
      refine hs.cell_alive hb' ?_ hx
      rwa [Block.cells_eq, hrows]
  intro a b hr hb
  obtain ⟨b', hb'⟩ := hkeep a hr
  obtain ⟨b₀, hb₀, hrows, -⟩ := hsh.block a b' hb'
  obtain rfl := Option.some.inj (hb.symm.trans hb₀)
  exact ⟨b', hb', hrows⟩

theorem agrees_release (work : List Value) (hs : h.Supports (work ++ vs)) :
    Agrees vs h (h.release work) := (shrinks_release h work).agrees (hs.release work)

theorem agrees_modify {a : Address} (hfar : ¬ h.Reaches vs a) (f : Block → Block) :
    Agrees vs h (h.modify a f) := by
  intro x b hr hb
  have hx : x ≠ a := by
    rintro rfl
    exact hfar hr
  exact ⟨b, by simpa [hx] using hb, rfl⟩

/-! ### What evolves -/

theorem Evolves.refl (h : Heap) (vs : List Value) : h.Evolves vs h vs :=
  ⟨le_rfl, fun _ b' _ hb' => ⟨b', hb', rfl⟩, fun _ _ hi hv => ⟨hi, hv⟩⟩

theorem Evolves.trans {ins mid outs : List Value} (h₁ : h.Evolves ins h' mid)
    (h₂ : h'.Evolves mid h'' outs) : h.Evolves ins h'' outs := by
  refine ⟨h₁.size.trans h₂.size, fun a b'' ha hb'' => ?_, fun a ha hi hv => ?_⟩
  · obtain ⟨b', hb', hnode'⟩ := h₂.node a b'' (ha.trans_le h₁.size) hb''
    obtain ⟨b, hb, hnode⟩ := h₁.node a b' ha hb'
    exact ⟨b, hb, hnode'.trans hnode⟩
  · obtain ⟨hi', hv'⟩ := h₁.unforged a ha hi hv
    exact h₂.unforged a (ha.trans_le h₁.size) hi' hv'

theorem Evolves.frame {ins outs : List Value} (he : h.Evolves ins h' outs) (vs : List Value) :
    h.Evolves (ins ++ vs) h' (outs ++ vs) := by
  refine ⟨he.size, he.node, fun a ha hi hv => ?_⟩
  rw [handlesOn_append] at hv ⊢
  obtain ⟨hi', hv'⟩ := he.unforged a ha hi (by omega)
  exact ⟨hi', by omega⟩

theorem Evolves.of_le {ins ins' outs outs' : List Value} (he : h.Evolves ins h' outs)
    (hins : ∀ a, handlesOn a ins ≤ handlesOn a ins')
    (houts : ∀ a, handlesOn a outs' ≤ handlesOn a outs) : h.Evolves ins' h' outs' := by
  refine ⟨he.size, he.node, fun a ha hi hv => ?_⟩
  have hin := hins a
  have hout := houts a
  obtain ⟨hi', hv'⟩ := he.unforged a ha hi (by omega)
  exact ⟨hi', by omega⟩

theorem Shrinks.evolves (hsh : h.Shrinks h') (vs : List Value) : h.Evolves vs h' vs := by
  refine ⟨hsh.size.ge, fun a b' _ hb' => ?_, fun a _ hi hv => ⟨?_, hv⟩⟩
  · obtain ⟨b, hb, -, hnode⟩ := hsh.block a b' hb'
    exact ⟨b, hb, hnode⟩
  · have hle := hsh.inner a
    omega

theorem evolves_release (h : Heap) (work vs : List Value) :
    h.Evolves (work ++ vs) (h.release work) vs :=
  ((shrinks_release h work).evolves (work ++ vs)).of_le (fun _ => le_rfl) (by simp)

theorem evolves_cells {a : Address} {b : Block} (hb : h.block? a = some b) (vs : List Value) :
    h.Evolves vs h (b.cells ++ vs) := by
  refine ⟨le_rfl, fun _ b' _ hb' => ⟨b', hb', rfl⟩, fun x _ hi hv => ⟨hi, ?_⟩⟩
  have hput := innerHandles_put hb none x
  simp only [Option.map_none, Option.getD_none] at hput
  rw [handlesOn_append]
  omega

theorem evolves_modify {a : Address} {b : Block} (hb : h.block? a = some b) {f : Block → Block}
    (hnode : (f b).node = b.node) {ins outs : List Value}
    (hcells : ∀ x, handlesOn x (f b).cells + handlesOn x outs = handlesOn x b.cells + handlesOn x ins) :
    h.Evolves ins (h.modify a f) outs := by
  refine ⟨by simp, fun x b' _ hb' => ?_, fun x _ hi hv => ?_⟩
  · rw [block?_modify] at hb'
    split_ifs at hb' with hx
    · rw [hb, Option.map_some, Option.some.injEq] at hb'
      exact ⟨b, hx ▸ hb, by rw [← hb', hnode]⟩
    · exact ⟨b', hb', rfl⟩
  · have hput := innerHandles_put hb (some (f b)) x
    have hcount := hcells x
    rw [← modify_eq_put hb] at hput
    simp only [Option.map_some, Option.getD_some] at hput
    omega

end

end ScriptVm.Heap
