import ScriptVm.Proofs.Writing

/-! Tracked data stays among tracked data. A region is a set of addresses whose data has nodes and
whose cells do not lead out of it; addresses not yet in use belong to it. Writes through values of a
region with values of it keep to the region, since what they allocate is tracked. -/

namespace ScriptVm

def Value.Within (S : Address → Prop) (v : Value) : Prop := ∀ a, v.target? = some a → S a

namespace Heap

structure Region (S : Address → Prop) (h : Heap) : Prop where
  tracked : ∀ a b, S a → h.block? a = some b → b.node.isSome = true
  cells : ∀ a b v, S a → h.block? a = some b → v ∈ b.cells → v.Within S
  fresh : ∀ a, h.blocks.size ≤ a → S a

/-- Every array that the values reach is tracked. -/
def Managed (h : Heap) (vs : List Value) : Prop :=
  ∀ a b, h.Reaches vs a → h.block? a = some b → b.node.isSome = true

section
variable {S : Address → Prop} {h h' : Heap} {vs : List Value}

theorem Region.managed (hr : h.Region S) (hvs : ∀ v ∈ vs, v.Within S) : h.Managed vs := by
  have hin : ∀ {a}, h.Reaches vs a → S a := by
    intro a hreach
    induction hreach with
    | value hv ha => exact hvs _ hv _ ha
    | cell _ hb hv hx ih => exact hr.cells _ _ _ ih hb hv _ hx
  exact fun a b hreach hb => hr.tracked a b (hin hreach) hb

/-- What managed values reach is a region, together with the addresses not in use. -/
theorem Managed.region (hm : h.Managed vs) : ∃ S, h.Region S ∧ ∀ v ∈ vs, v.Within S := by
  refine ⟨fun a => h.Reaches vs a ∨ h.blocks.size ≤ a, ⟨?_, ?_, fun _ => Or.inr⟩, ?_⟩
  · rintro a b (hr | hout) hb
    · exact hm a b hr hb
    · exact absurd (lt_of_block? hb) (Nat.not_lt.2 hout)
  · rintro a b v (hr | hout) hb hv x hx
    · exact Or.inl (.cell hr hb hv hx)
    · exact absurd (lt_of_block? hb) (Nat.not_lt.2 hout)
  · intro v hv a ha
    exact Or.inl (.value hv ha)

theorem Managed.mono {ws : List Value} (hm : h.Managed vs) (hsub : ∀ w ∈ ws, w ∈ vs) : h.Managed ws :=
  fun a b hr hb => hm a b (hr.mono hsub) hb

theorem managed_append {ws : List Value} : h.Managed (vs ++ ws) ↔ h.Managed vs ∧ h.Managed ws := by
  constructor
  · intro hm
    exact ⟨hm.mono fun v hv => List.mem_append_left _ hv, hm.mono fun v hv => List.mem_append_right _ hv⟩
  · rintro ⟨hvs, hws⟩ a b hr hb
    have heither : h.Reaches vs a ∨ h.Reaches ws a := by
      clear hb
      induction hr with
      | value hv ha => exact (List.mem_append.1 hv).imp (.value · ha) (.value · ha)
      | cell _ hb hv hx ih => exact ih.imp (.cell · hb hv hx) (.cell · hb hv hx)
    exact heither.elim (hvs a b · hb) (hws a b · hb)

theorem managed_nulls (h : Heap) (hvs : ∀ v ∈ vs, v.target? = none) : h.Managed vs := by
  have hfar : ∀ {a}, ¬ h.Reaches vs a := by
    intro a hr
    induction hr with
    | value hv ha =>
      rw [hvs _ hv] at ha
      cases ha
    | cell _ _ _ _ ih => exact ih
  exact fun a b hr _ => absurd hr hfar

theorem managed_null (h : Heap) {v : Value} (hv : v.target? = none) : h.Managed [v] :=
  h.managed_nulls fun w hw => by rw [List.mem_singleton.1 hw, hv]

theorem managed_iff : h.Managed vs ↔ ∀ v ∈ vs, h.Managed [v] := by
  induction vs with
  | nil => exact ⟨fun _ v hv => (List.not_mem_nil hv).elim, fun _ => h.managed_nulls fun v hv => nomatch hv⟩
  | cons v vs ih =>
    rw [← List.singleton_append, managed_append, ih]
    simp

theorem Region.change (hr : h.Region S) (hsize : h.blocks.size ≤ h'.blocks.size)
    (hblock : ∀ a b', S a → h'.block? a = some b' →
      ∃ b, h.block? a = some b ∧ b'.node = b.node ∧ ∀ v ∈ b'.cells, v ∈ b.cells ∨ v.Within S) :
    h'.Region S := by
  refine ⟨fun a b' ha hb' => ?_, fun a b' v ha hb' hv => ?_, fun a ha => hr.fresh a (hsize.trans ha)⟩
  · obtain ⟨b, hb, hnode, -⟩ := hblock a b' ha hb'
    rw [hnode]
    exact hr.tracked a b ha hb
  · obtain ⟨b, hb, -, hcells⟩ := hblock a b' ha hb'
    exact (hcells v hv).elim (hr.cells a b v ha hb) id

theorem Region.shrink (hr : h.Region S) (hsh : h.Shrinks h') : h'.Region S := by
  refine hr.change hsh.size.ge fun a b' _ hb' => ?_
  obtain ⟨b, hb, hrows, hnode⟩ := hsh.block a b' hb'
  refine ⟨b, hb, hnode, fun v hv => Or.inl ?_⟩
  rwa [Block.cells_eq, ← hrows]

theorem Region.release (hr : h.Region S) (work : List Value) : (h.release work).Region S :=
  hr.shrink (shrinks_release h work)

theorem Region.retain (hr : h.Region S) (w : Value) : (h.retain w).Region S := by
  have hsame := sameRows_retain h w
  refine hr.change hsame.size.ge fun a b' _ hb' => ?_
  obtain ⟨b, hb, hnode⟩ := (evolves_retain h w []).node a b' (hsame.size ▸ lt_of_block? hb') hb'
  have hrows : b'.rows = b.rows := by
    have heq := hsame.rows a
    rw [hb, hb'] at heq
    exact Option.some.inj heq
  refine ⟨b, hb, hnode, fun v hv => Or.inl ?_⟩
  rwa [Block.cells_eq, ← hrows]

end
end Heap

theorem Value.Within.share {S : Address → Prop} {v : Value} (hv : v.Within S) : v.share.Within S := by
  intro a ha
  rw [Value.target?_share] at ha
  exact hv a ha

namespace Memory
variable {S : Address → Prop} {m : Memory} {vs : List Value}

theorem Region.growAt (hr : m.heap.Region S) (a : Address) (cell : Cell) :
    (m.growAt a cell).heap.Region S := by
  refine Heap.Region.change hr (by simp [Memory.growAt]) fun x b' _ hb' => ?_
  simp only [Memory.growAt, Heap.block?_modify] at hb'
  split_ifs at hb' with hx
  · obtain ⟨b, hb, rfl⟩ := Option.map_eq_some_iff.1 hb'
    refine ⟨b, hx ▸ hb, rfl, fun v hv => ?_⟩
    rcases Rows.mem_cells_grow hv with rfl | hv
    · exact Or.inr fun y hy => by cases hy
    · exact Or.inl hv
  · exact ⟨b', hb', rfl, fun v hv => Or.inl hv⟩

theorem Region.putCell (hr : m.heap.Region S) {a : Address} {b : Block} {cell : Cell} {old v : Value}
    (hb : m.heap.block? a = some b) (hold : Rows.cell? b.rows cell.1 cell.2 = some old)
    (hv : v.Within S) : (m.putCell a cell v).heap.Region S := by
  refine Heap.Region.change hr (by simp [Memory.putCell]) fun x b' _ hb' => ?_
  simp only [Memory.putCell, Heap.block?_modify] at hb'
  split_ifs at hb' with hx
  · rw [hb, Option.map_some, Option.some.injEq] at hb'
    subst hb'
    refine ⟨b, hx ▸ hb, rfl, fun w hw => ?_⟩
    rcases Rows.mem_cells_set hold hw with rfl | hw
    · exact Or.inr hv
    · exact Or.inl hw
  · exact ⟨b', hb', rfl, fun w hw => Or.inl hw⟩

theorem Region.overwrite (hr : m.heap.Region S) {a : Address} {b : Block} {cell : Cell} {old v : Value}
    (hb : m.heap.block? a = some b) (hold : Rows.cell? b.rows cell.1 cell.2 = some old)
    (hv : v.Within S) : (m.overwrite a cell v).heap.Region S := by
  rw [heap_overwrite hb hold]
  exact (Region.putCell hr hb hold hv).release _

/-! ### Opening -/

theorem collector_register (m : Memory) (a : Address) :
    (m.register a).collector.isSome = m.collector.isSome := by
  unfold register
  split
  · rfl
  · rename_i c hc
    rw [hc]
    rfl

theorem collector_modifyCollector (m : Memory) (f : Collector Tracked → Collector Tracked) :
    (m.modifyCollector f).collector.isSome = m.collector.isSome := by
  simp [modifyCollector]

theorem collector_anchor (m : Memory) (h : Handle) (owner : Option NodeId) (a : Address) :
    (m.anchor h owner a).collector.isSome = m.collector.isSome := by
  unfold anchor
  dsimp only
  split <;> simp [modifyCollector]

theorem node_register (m : Memory) (a : Address) (hc : m.collector.isSome = true) {b' : Block}
    (hb' : (m.register a).heap.block? a = some b') : b'.node.isSome = true := by
  unfold register at hb'
  split at hb'
  · rename_i hnone
    rw [hnone] at hc
    cases hc
  · simp only [Heap.block?_modify, if_true] at hb'
    obtain ⟨b, -, rfl⟩ := Option.map_eq_some_iff.1 hb'
    rfl

/-- What was opened: the value's own data, or new data that is tracked. -/
structure OpenedHere (m : Memory) (v : Value) (a : Address) (m' : Memory) : Prop where
  collector : m'.collector.isSome = m.collector.isSome
  place : v.target? = some a ∧ m' = m ∨ a = m.heap.blocks.size
  tracked : a = m.heap.blocks.size → m.collector.isSome = true →
    (∀ x b, v.target? = some x → m.heap.block? x = some b → b.node.isSome = true) →
    ∀ b', m'.heap.block? a = some b' → b'.node.isSome = true

theorem openedHere_openShared (m : Memory) (h : Handle) (owner : Option NodeId) :
    OpenedHere m (.array h) (m.openShared h owner).1 (m.openShared h owner).2.2 := by
  unfold openShared
  cases ht : h.target with
  | some a =>
    refine ⟨rfl, Or.inl ⟨ht, rfl⟩, fun ha hc hv b' hb' => ?_⟩
    exact absurd (Heap.lt_of_block? hb') (by simp [← ha])
  | none =>
    refine ⟨?_, Or.inr rfl, fun _ hc _ b' hb' => ?_⟩
    · exact (collector_anchor _ h owner _).trans (collector_register _ _)
    · rw [heap_anchor] at hb'
      exact node_register { m with heap := (m.heap.alloc #[]).2 } m.heap.blocks.size hc hb'

theorem openedHere_split (m : Memory) (h : Handle) (owner : Option NodeId) {old : Address} {b : Block}
    (ht : h.target = some old) (hb : m.heap.block? old = some b) :
    OpenedHere m (.array h) (m.split h owner old b).1 (m.split h owner old b).2.2 := by
  have hsize := (Heap.sameRows_retainAll m.heap b.cells).size
  refine ⟨?_, Or.inr ?_, fun _ hc hv b' hb' => ?_⟩
  · unfold split
    dsimp only
    cases b.node with
    | none => rfl
    | some id =>
      dsimp only [Memory.release]
      rw [collector_anchor]
      split_ifs <;> simp only [collector_modifyCollector, collector_register]
  · obtain ⟨h', -, hsplit⟩ := placed_split m h owner old b
    rw [hsplit]
  · obtain ⟨id, hid⟩ := Option.isSome_iff_exists.1 (hv old b ht hb)
    unfold split at hb'
    rw [hid] at hb'
    dsimp only [Memory.release] at hb'
    obtain ⟨b₀, hb₀, -, hnode⟩ := (Heap.shrinks_release _ _).block _ b' hb'
    rw [hnode]
    rw [heap_anchor] at hb₀
    refine node_register { m with heap := ((b.cells.foldl Heap.retain m.heap).alloc b.rows.share).2 }
      (b.cells.foldl Heap.retain m.heap).blocks.size hc ?_
    split_ifs at hb₀ <;> exact hb₀

theorem openedHere_openForWrite {v : Value} (hs : m.heap.Supports (v :: vs)) (copy : Bool)
    (owner : Option NodeId) :
    OpenedHere m v (m.openForWrite v copy owner).1 (m.openForWrite v copy owner).2.2 := by
  have hhandle : OpenedHere m (.array (handleOf v)) (m.openForWrite v copy owner).1
      (m.openForWrite v copy owner).2.2 := by
    unfold openForWrite
    cases copy with
    | false => exact openedHere_openShared m (handleOf v) owner
    | true =>
      simp only [if_true]
      cases ht : (handleOf v).target with
      | none =>
        have hopen : m.openPrivate (handleOf v) owner = m.openShared (handleOf v) owner := by
          unfold openPrivate
          rw [ht]
        rw [hopen]
        exact openedHere_openShared m (handleOf v) owner
      | some a =>
        have hv : v.target? = some a := by rw [← target?_handleOf]; exact ht
        obtain ⟨b, hb⟩ := hs.alive List.mem_cons_self hv
        have hopen : m.openPrivate (handleOf v) owner =
            if 1 < b.holders then m.split (handleOf v) owner a b else (a, handleOf v, m) := by
          unfold openPrivate
          rw [ht]
          dsimp only
          rw [hb]
        rw [hopen]
        split_ifs
        · exact openedHere_split m (handleOf v) owner ht hb
        · refine ⟨rfl, Or.inl ⟨ht, rfl⟩, fun ha _ _ b' hb' => ?_⟩
          exact absurd (Heap.lt_of_block? hb') (by simp [← ha])
  obtain ⟨hcollector, hplace, htracked⟩ := hhandle
  rw [target?_handleOf] at hplace htracked
  exact ⟨hcollector, hplace, htracked⟩

theorem Region.openForWrite (hr : m.heap.Region S) (hc : m.collector.isSome = true) {v : Value}
    (hs : m.heap.Supports (v :: vs)) (hv : v.Within S) {copy : Bool} {owner : Option NodeId} {a : Address}
    {v' : Value} {m' : Memory} (hopen : m.openForWrite v copy owner = (a, v', m')) :
    m'.heap.Region S ∧ S a ∧ m'.collector.isSome = true := by
  have ho := opened_openForWrite hs copy owner
  have hhere := openedHere_openForWrite hs copy owner
  rw [hopen] at ho hhere
  dsimp only at ho hhere
  have hS : S a := by
    rcases hhere.place with ⟨ha, -⟩ | ha
    · exact hv a ha
    · exact hr.fresh a ha.ge
  refine ⟨?_, hS, by rw [hhere.collector, hc]⟩
  have hold : ∀ x b, v.target? = some x → m.heap.block? x = some b → b.node.isSome = true :=
    fun x b hx hb => hr.tracked x b (hv x hx) hb
  rcases hhere.place with ⟨-, rfl⟩ | hfresh
  · exact hr
  refine ⟨fun x b' hx hb' => ?_, fun x b' w hx hb' hw => ?_, fun x hx => hr.fresh x (ho.evolves.size.trans hx)⟩
  · by_cases hxa : x = a
    · subst hxa
      exact hhere.tracked hfresh hc hold b' hb'
    · obtain ⟨b, hb, -⟩ := ho.others x b' hxa hb'
      obtain ⟨b₀, hb₀, hnode⟩ := ho.evolves.node x b' (Heap.lt_of_block? hb) hb'
      rw [hnode]
      exact hr.tracked x b₀ hx hb₀
  · by_cases hxa : x = a
    · subst hxa
      -- the copy holds what the value's data holds
      have hrows : ∀ u ∈ Rows.cells (m.heap.rowsOf v), u.Within S := by
        intro u hu
        unfold Heap.rowsOf at hu
        cases hb : v.target?.bind m.heap.block? with
        | none =>
          rw [hb] at hu
          cases hu
        | some b =>
          rw [hb] at hu
          obtain ⟨y, hy, hb⟩ := Option.bind_eq_some_iff.1 hb
          exact hr.cells y b u (hv y hy) hb hu
      obtain ⟨b, hb, hcopy, -⟩ := ho.block
      obtain rfl := Option.some.inj (hb.symm.trans hb')
      rw [Block.cells_eq] at hw
      rcases hcopy with heq | heq
      · rw [heq] at hw
        exact hrows w hw
      · rw [heq, Rows.cells_share] at hw
        obtain ⟨u, hu, rfl⟩ := List.mem_map.1 hw
        exact (hrows u hu).share
    · obtain ⟨b, hb, hrows⟩ := ho.others x b' hxa hb'
      rw [Block.cells_eq, hrows] at hw
      exact hr.cells x b w hx hb hw

/-! ### Writing -/

theorem Region.store (hr : m.heap.Region S) (hc : m.collector.isSome = true) {v new : Value}
    (hs : m.heap.Supports (v :: new :: vs)) (hv : v.Within S) (hnew : new.Within S) (cell : Cell) (copy : Bool)
    (owner : Option NodeId) :
    (m.store v cell new copy owner).2.heap.Region S ∧ (m.store v cell new copy owner).1.Within S ∧
      (m.store v cell new copy owner).2.collector.isSome = true := by
  have ho := opened_openForWrite hs copy owner
  rcases hopen : m.openForWrite v copy owner with ⟨a, v', m₁⟩
  obtain ⟨hr₁, hS, hc₁⟩ := Region.openForWrite hr hc hs hv hopen
  rw [hopen] at ho
  dsimp only at ho
  obtain ⟨b, hb, hcell, -⟩ := reached ho cell
  unfold Memory.store Memory.reachCell
  rw [hopen]
  refine ⟨?_, ?_, ?_⟩
  · exact Region.overwrite (Region.growAt hr₁ a cell) hb hcell hnew
  · intro x hx
    rw [Option.some.inj (hx.symm.trans ho.target)]
    exact hS
  · simpa [Memory.overwrite, Memory.release, Memory.putCell, modifyCollector, Memory.growAt] using hc₁

theorem Region.storeNested (hr : m.heap.Region S) (hc : m.collector.isSome = true) {v new : Value}
    (hs : m.heap.Supports (v :: new :: vs)) (hv : v.Within S) (hnew : new.Within S) (path : List Cell)
    (copy : Bool) (owner : Option NodeId) :
    (m.storeNested v path new copy owner).2.heap.Region S ∧
      (m.storeNested v path new copy owner).1.Within S ∧
      (m.storeNested v path new copy owner).2.collector.isSome = true := by
  induction path generalizing m v vs owner with
  | nil =>
    rw [Memory.storeNested]
    exact ⟨hr.release _, hnew, hc⟩
  | cons cell rest ih =>
    by_cases hrest : rest = []
    · subst hrest
      rw [Memory.storeNested]
      exact Region.store hr hc hs hv hnew cell copy owner
    have ho := opened_openForWrite hs copy owner
    rcases hopen : m.openForWrite v copy owner with ⟨a, v', m₁⟩
    obtain ⟨hr₁, hS, hc₁⟩ := Region.openForWrite hr hc hs hv hopen
    rw [hopen] at ho
    dsimp only at ho
    obtain ⟨b, hb, hcell, -⟩ := reached ho cell
    have hr₂ := Region.growAt hr₁ a cell
    set inner := (m₁.growAt a cell).cellAt a cell with hinner
    obtain ⟨m₂, hm₂⟩ : ∃ m₂, (m₁.growAt a cell).putCell a cell .undefined = m₂ := ⟨_, rfl⟩
    have hs₂ : m₂.heap.Supports (inner :: new :: v' :: vs) := hm₂ ▸ supports_moved ho.supports hb hcell
    have hr₃ : m₂.heap.Region S := by
      rw [← hm₂]
      exact Region.putCell hr₂ hb hcell fun x hx => by cases hx
    have hc₂ : m₂.collector.isSome = true := by
      rw [← hm₂]
      exact hc₁
    have hinside : inner.Within S := hr₂.cells a b inner hS hb (Rows.mem_cells_of_cell? hcell)
    obtain ⟨hr₄, hout, hc₃⟩ := ih hr₃ hc₂ hs₂ hinside (m₂.node? v')
    have hw := written_storeNested hs₂ rest copy (m₂.node? v')
    rcases hnested : m₂.storeNested inner rest new copy (m₂.node? v') with ⟨inner', m₃⟩
    rw [storeNested_cons m v cell hrest new copy owner hopen hm₂ hnested]
    rw [hnested] at hr₄ hout hc₃ hw
    dsimp only at hr₄ hout hc₃ hw ⊢
    obtain ⟨b₃, hb₃⟩ := hw.supports.alive (v := v') (by simp) ho.target
    obtain ⟨b₄, hb₄, -, hcell₄⟩ := cell?_growAt hb₃ cell
    refine ⟨Region.overwrite (Region.growAt hr₄ a cell) hb₄ hcell₄ hout, ?_, hc₃⟩
    intro x hx
    rw [Option.some.inj (hx.symm.trans ho.target)]
    exact hS

end Memory
end ScriptVm
