import ScriptVm.Proofs.Tracking

/-! A collector pass over the memory. The hooks untie what was condemned from its nodes and then empty
its rows; data that the pass does not condemn keeps node and rows, unless the emptied rows held the
last handle on it. -/

namespace ScriptVm

namespace Memory

theorem block?_cleanups (condemned : List Tracked) (h : Heap) (a : Address) :
    ((condemned.map Hook.cleanup).foldl runHook h).block? a =
      (h.block? a).map fun b => if .array a ∈ condemned then { b with node := none } else b := by
  induction condemned generalizing h with
  | nil => simp
  | cons p condemned ih =>
    rw [List.map_cons, List.foldl_cons, ih]
    cases p with
    | owner => simp [runHook]
    | array x =>
      simp only [runHook, Heap.block?_modify, List.mem_cons, Tracked.array.injEq]
      by_cases hx : a = x
      · subst hx
        cases h.block? a <;> simp
      · simp [hx]

theorem size_cleanups (condemned : List Tracked) (h : Heap) :
    ((condemned.map Hook.cleanup).foldl runHook h).blocks.size = h.blocks.size := by
  induction condemned generalizing h with
  | nil => rfl
  | cons p condemned ih =>
    rw [List.map_cons, List.foldl_cons, ih]
    cases p <;> simp [runHook]

theorem supports_cleanups {vs : List Value} (condemned : List Tracked) {h : Heap} (hs : h.Supports vs) :
    ((condemned.map Hook.cleanup).foldl runHook h).Supports vs := by
  induction condemned generalizing h with
  | nil => exact hs
  | cons p condemned ih =>
    rw [List.map_cons, List.foldl_cons]
    apply ih
    cases p with
    | owner => exact hs
    | array x => exact hs.modify_same x (fun _ => rfl) (fun _ => rfl)

/-- Blocks that stay keep their nodes, and their rows unless these are emptied. -/
structure Emptied (condemned : List Tracked) (h h' : Heap) : Prop where
  size : h'.blocks.size = h.blocks.size
  block : ∀ a b', h'.block? a = some b' → ∃ b, h.block? a = some b ∧ b'.node = b.node ∧
    (b'.rows = b.rows ∨ .array a ∈ condemned ∧ b'.rows = #[])

theorem Emptied.refl (condemned : List Tracked) (h : Heap) : Emptied condemned h h :=
  ⟨rfl, fun _ b hb => ⟨b, hb, rfl, Or.inl rfl⟩⟩

theorem Emptied.trans {condemned : List Tracked} {h₁ h₂ h₃ : Heap} (h₁₂ : Emptied condemned h₁ h₂)
    (h₂₃ : Emptied condemned h₂ h₃) : Emptied condemned h₁ h₃ := by
  refine ⟨h₂₃.size.trans h₁₂.size, fun a b₃ hb₃ => ?_⟩
  obtain ⟨b₂, hb₂, hnode₂, hrows₂⟩ := h₂₃.block a b₃ hb₃
  obtain ⟨b₁, hb₁, hnode₁, hrows₁⟩ := h₁₂.block a b₂ hb₂
  refine ⟨b₁, hb₁, hnode₂.trans hnode₁, ?_⟩
  rcases hrows₂ with hrows₂ | hempty
  · rw [hrows₂]
    exact hrows₁
  · exact Or.inr hempty

theorem Emptied.mono {l l' : List Tracked} {h h' : Heap} (he : Emptied l h h') (hsub : l ⊆ l') :
    Emptied l' h h' := by
  refine ⟨he.size, fun a b' hb' => ?_⟩
  obtain ⟨b, hb, hnode, hrows⟩ := he.block a b' hb'
  exact ⟨b, hb, hnode, hrows.imp_right fun hempty => ⟨hsub hempty.1, hempty.2⟩⟩

theorem supports_delete {vs : List Value} {h : Heap} (hs : h.Supports vs) (p : Tracked) :
    (runHook h (.delete p)).Supports vs ∧ Emptied [p] h (runHook h (.delete p)) := by
  cases p with
  | owner => exact ⟨hs, Emptied.refl _ h⟩
  | array a =>
    cases hb : h.block? a with
    | none => simpa [runHook, hb] using ⟨hs, Emptied.refl _ h⟩
    | some b =>
      simp only [runHook, hb]
      constructor
      · apply Heap.Supports.release
        refine Heap.Supports.modify [] _ hs hb rfl fun x => ?_
        simp [Block.cells_eq]
      · have hsh := Heap.shrinks_release (h.modify a fun b => { b with rows := #[] }) b.cells
        refine ⟨by simp [hsh.size], fun x b₂ hb₂ => ?_⟩
        obtain ⟨b₁, hb₁, hrows, hnode⟩ := hsh.block x b₂ hb₂
        rw [Heap.block?_modify] at hb₁
        split_ifs at hb₁ with hx
        · subst hx
          rw [hb, Option.map_some, Option.some.injEq] at hb₁
          exact ⟨b, hb, by rw [hnode, ← hb₁], Or.inr ⟨by simp, by rw [hrows, ← hb₁]⟩⟩
        · exact ⟨b₁, hb₁, hnode, Or.inl hrows⟩

theorem supports_deletes {vs : List Value} (condemned : List Tracked) {h : Heap} (hs : h.Supports vs) :
    ((condemned.map Hook.delete).foldl runHook h).Supports vs ∧
      Emptied condemned h ((condemned.map Hook.delete).foldl runHook h) := by
  induction condemned generalizing h with
  | nil => exact ⟨hs, Emptied.refl _ h⟩
  | cons p condemned ih =>
    rw [List.map_cons, List.foldl_cons]
    obtain ⟨hs₁, he₁⟩ := supports_delete hs p
    obtain ⟨hs₂, he₂⟩ := ih hs₁
    exact ⟨hs₂, (he₁.mono (by simp)).trans (he₂.mono (List.subset_cons_self _ _))⟩

theorem rows_delete (h : Heap) (a : Address) {b' : Block} (hb' : (runHook h (.delete (.array a))).block? a = some b') :
    b'.rows = #[] := by
  cases hb : h.block? a with
  | none =>
    simp only [runHook, hb] at hb'
    cases hb'
  | some b =>
    simp only [runHook, hb] at hb'
    obtain ⟨b₁, hb₁, hrows, -⟩ := (Heap.shrinks_release
      (h.modify a fun b => { b with rows := #[] }) b.cells).block a b' hb'
    rw [Heap.block?_modify, if_pos rfl, hb] at hb₁
    rw [hrows, ← Option.some.inj hb₁]

theorem rows_deletes {vs : List Value} {condemned : List Tracked} {h : Heap} (hs : h.Supports vs) {a : Address}
    (ha : .array a ∈ condemned) {b' : Block} (hb' : ((condemned.map Hook.delete).foldl runHook h).block? a = some b') :
    b'.rows = #[] := by
  induction condemned generalizing h with
  | nil => cases ha
  | cons p condemned ih =>
    rw [List.map_cons, List.foldl_cons] at hb'
    have hsupports := (supports_delete hs p).1
    rcases List.mem_cons.1 ha with rfl | ha
    · obtain ⟨b₁, hb₁, -, hrows⟩ := (supports_deletes condemned hsupports).2.block a b' hb'
      rcases hrows with hrows | hempty
      · rw [hrows]
        exact rows_delete h a hb₁
      · exact hempty.2
    · exact ih hsupports ha hb'

/-- What the hooks of a pass leave of a heap. -/
structure Purged (condemned : List Tracked) (h h' : Heap) : Prop where
  size : h'.blocks.size = h.blocks.size
  block : ∀ a b', h'.block? a = some b' → ∃ b, h.block? a = some b ∧
    if .array a ∈ condemned then b'.node = none ∧ (b'.rows = b.rows ∨ b'.rows = #[])
    else b'.node = b.node ∧ b'.rows = b.rows

theorem purged_hooks {vs : List Value} (condemned : List Tracked) {h : Heap} (hs : h.Supports vs) :
    ((Hook.sequence condemned).foldl runHook h).Supports vs ∧
      Purged condemned h ((Hook.sequence condemned).foldl runHook h) := by
  rw [Hook.sequence, List.foldl_append]
  obtain ⟨hs', he⟩ := supports_deletes condemned (supports_cleanups condemned hs)
  refine ⟨hs', he.size.trans (size_cleanups condemned h), fun a b' hb' => ?_⟩
  obtain ⟨b₁, hb₁, hnode, hrows⟩ := he.block a b' hb'
  rw [block?_cleanups] at hb₁
  obtain ⟨b, hb, rfl⟩ := Option.map_eq_some_iff.1 hb₁
  refine ⟨b, hb, ?_⟩
  split_ifs at hnode hrows ⊢ with ha
  · exact ⟨hnode, hrows.imp_right And.right⟩
  · exact ⟨hnode, hrows.resolve_right fun hempty => ha hempty.1⟩

theorem rows_hooks {vs : List Value} {condemned : List Tracked} {h : Heap} (hs : h.Supports vs) {a : Address}
    (ha : .array a ∈ condemned) {b' : Block} (hb' : ((Hook.sequence condemned).foldl runHook h).block? a = some b') :
    b'.rows = #[] := by
  rw [Hook.sequence, List.foldl_append] at hb'
  exact rows_deletes (supports_cleanups condemned hs) ha hb'

section
variable {covering exact counted : Prop} {m : Memory} {c : Collector Tracked} {hands : List Hand}

theorem collect_eq (hcollector : m.collector = some c) (extra : List NodeId) :
    m.collect extra = (some (c.collect extra).2.length,
      { heap := (Hook.sequence (c.collect extra).2).foldl runHook m.heap
        collector := some (c.collect extra).1 }) := by
  unfold collect
  rw [hcollector]

theorem Mirrors.condemned_iff (hm : Mirrors covering exact counted m c hands) (extra : List NodeId) {a : Address}
    {b : Block} {id : NodeId} (hb : m.heap.block? a = some b) (hid : b.node = some id) :
    .array a ∈ (c.collect extra).2 ↔ ¬ c.Reach (c.Anchored extra) id := by
  rw [hm.tidy.mem_collect_iff]
  constructor
  · rintro ⟨id', n', hn', hout, hpay⟩
    obtain rfl := Option.some.inj (hid.symm.trans (hm.tied id' n' a b hn' hpay hb))
    exact hout
  · intro hout
    obtain ⟨n, hn, hpay⟩ := hm.linked a b id hb hid
    exact ⟨id, n, hn, hout, hpay⟩

theorem Mirrors.node?_purged (hm : Mirrors covering exact counted m c hands) {extra : List NodeId} {h' : Heap}
    (hpurged : Purged (c.collect extra).2 m.heap h') {v : Value} {a : Address} {b' : Block}
    (ha : v.target? = some a) (hb' : h'.block? a = some b') (id : NodeId) :
    h'.node? v = some id ↔ m.heap.node? v = some id ∧ c.Reach (c.Anchored extra) id := by
  obtain ⟨b, hb, hkept⟩ := hpurged.block a b' hb'
  rw [Heap.node?_eq ha hb', Heap.node?_eq ha hb]
  split_ifs at hkept with hcond
  · rw [hkept.1]
    simp only [reduceCtorEq, false_iff, not_and]
    intro hid
    exact (hm.condemned_iff extra hb hid).1 hcond
  · rw [hkept.1, iff_self_and]
    intro hid
    by_contra hout
    exact hcond ((hm.condemned_iff extra hb hid).2 hout)

theorem Mirrors.reach_cell (hm : Mirrors covering exact counted m c hands) (hcovering : covering)
    {start : NodeId → Prop} {a : Address} {b : Block} {id t : NodeId} {v : Value} (hb : m.heap.block? a = some b)
    (hid : b.node = some id) (hv : v ∈ b.cells) (ht : m.heap.node? v = some t) (hr : c.Reach start id) : c.Reach start t := by
  obtain ⟨n, hn, -⟩ := hm.linked a b id hb hid
  have hcov := hm.covered hcovering a b id n t hb hid hn
  have hpos : 0 < m.heap.tracked t b.cells := List.countP_pos_iff.2 ⟨v, hv, by simpa using ht⟩
  refine .edge hr ?_ (hm.node_live ht)
  rw [Collector.references_eq hn, Edges.mem_targets_iff (hm.tidy.ordered id n hn)]
  omega

/-- A block that still has a node keeps its rows, and its cells keep their nodes if edges cover them. -/
theorem Mirrors.block_purged (hm : Mirrors covering exact counted m c hands) {extra : List NodeId} {h' : Heap}
    (hpurged : Purged (c.collect extra).2 m.heap h') {vs : List Value} (hsupports : h'.Supports vs) {a : Address}
    {b' : Block} {id : NodeId} (hb' : h'.block? a = some b') (hid : b'.node = some id) :
    ∃ b, m.heap.block? a = some b ∧ b.node = some id ∧ c.Reach (c.Anchored extra) id ∧
      (covering → ∀ t, h'.tracked t b'.cells = m.heap.tracked t b.cells) := by
  obtain ⟨b, hb, hsame⟩ := hpurged.block a b' hb'
  split_ifs at hsame with hcond
  · rw [hsame.1] at hid
    cases hid
  · rw [hsame.1] at hid
    have hr : c.Reach (c.Anchored extra) id := by
      by_contra hout
      exact hcond ((hm.condemned_iff extra hb hid).2 hout)
    refine ⟨b, hb, hid, hr, fun hcovering t => ?_⟩
    have hcells : b'.cells = b.cells := by rw [Block.cells_eq, hsame.2, Block.cells_eq]
    rw [← hcells]
    apply List.countP_congr
    intro v hv
    simp only [decide_eq_true_eq]
    cases ha : v.target? with
    | none => rw [Heap.node?_eq_none ha, Heap.node?_eq_none ha]
    | some x =>
      obtain ⟨bx, hbx⟩ := hsupports.cell_alive hb' hv ha
      rw [hm.node?_purged hpurged ha hbx, and_iff_left_iff_imp]
      intro ht
      exact hm.reach_cell hcovering hb hid (hcells ▸ hv) ht hr

theorem Mirrors.rootsOn_purged (hm : Mirrors covering exact counted m c hands) {extra : List NodeId} {h' : Heap}
    (hpurged : Purged (c.collect extra).2 m.heap h') (hsupports : h'.Supports (hands.map Prod.snd)) {id : NodeId}
    (hr : c.Reach (c.Anchored extra) id) : m.heap.rootsOn hands id = h'.rootsOn hands id := by
  apply List.countP_congr
  intro hand hhand
  simp only [decide_eq_true_eq]
  cases ha : hand.2.target? with
  | none => rw [Heap.node?_eq_none ha, Heap.node?_eq_none ha]
  | some x =>
    obtain ⟨bx, hbx⟩ := hsupports.alive (List.mem_map_of_mem hhand) ha
    rw [hm.node?_purged hpurged ha hbx, and_iff_left hr]

theorem Mirrors.plain_purged (hm : Mirrors covering exact counted m c hands) {extra : List NodeId} {h' : Heap}
    (hpurged : Purged (c.collect extra).2 m.heap h') (hcounted : counted) (a : Address) (b' : Block) (v : Value)
    (hb' : h'.block? a = some b') (hv : v ∈ b'.cells) : v.isRooted = false := by
  obtain ⟨b, hb, hsame⟩ := hpurged.block a b' hb'
  have hrows : b'.rows = b.rows ∨ b'.rows = #[] := by
    split_ifs at hsame
    · exact hsame.2
    · exact Or.inl hsame.2
  rcases hrows with hrows | hrows
  · rw [Block.cells_eq, hrows] at hv
    exact hm.plain hcounted a b v hb hv
  · rw [Block.cells_eq, hrows] at hv
    cases hv

theorem Mirrors.collect (hm : Mirrors covering exact counted m c hands) (hfree : ∀ hand ∈ hands, hand.1 = none)
    (extra : List NodeId) :
    Mirrors covering exact counted (m.collect extra).2 (c.collect extra).1 hands := by
  rw [collect_eq hm.collector]
  obtain ⟨hsupports, hpurged⟩ := purged_hooks (c.collect extra).2 hm.supports
  set h' := (Hook.sequence (c.collect extra).2).foldl runHook m.heap with hh'
  have howed : ∀ (h : Heap) s t, h.owed hands s t = 0 := by
    intro h s t
    rw [Heap.owed, List.countP_eq_zero]
    intro hand hhand
    simp [hfree hand hhand]
  have hkept : ∀ {id n}, (c.collect extra).1.node? id = some n →
      c.node? id = some n ∧ c.Reach (c.Anchored extra) id :=
    fun hn => (hm.tidy.node?_collect_iff extra _ _).1 hn
  have hblock : ∀ {a b' id}, h'.block? a = some b' → b'.node = some id →
      ∃ b, m.heap.block? a = some b ∧ b.node = some id ∧ c.Reach (c.Anchored extra) id ∧
        (covering → ∀ t, h'.tracked t b'.cells = m.heap.tracked t b.cells) :=
    fun hb' hid => hm.block_purged hpurged hsupports hb' hid
  refine ⟨rfl, hm.tidy.collect extra, hsupports, ?_, ?_, ?_, ?_, ?_, ?_, ?_, hm.plain_purged hpurged⟩
  · intro id hid
    obtain ⟨hand, hhand, heq⟩ := List.mem_map.1 hid
    rw [hfree hand hhand] at heq
    cases heq
  · intro a b' id hb' hid
    obtain ⟨b, hb, hid, hr, -⟩ := hblock hb' hid
    obtain ⟨n, hn, hpay⟩ := hm.linked a b id hb hid
    exact ⟨n, (hm.tidy.node?_collect_iff extra id n).2 ⟨hn, hr⟩, hpay⟩
  · intro id n a hn hpay
    exact (hm.known id n a (hkept hn).1 hpay).trans_eq hpurged.size.symm
  · intro id n a b' hn hpay hb'
    obtain ⟨b, hb, hsame⟩ := hpurged.block a b' hb'
    obtain ⟨hn₀, hr⟩ := hkept hn
    have hid := hm.tied id n a b hn₀ hpay hb
    rw [if_neg fun hcond => (hm.condemned_iff extra hb hid).1 hcond hr] at hsame
    rw [hsame.1, hid]
  · intro hcovering a b' id n t hb' hid hn
    obtain ⟨b, hb, hid, -, htracked⟩ := hblock hb' hid
    have hcov := hm.covered hcovering a b id n t hb hid (hkept hn).1
    dsimp only
    rw [htracked hcovering, howed]
    omega
  · intro hcovering hexact a b' id n t hb' hid hn
    obtain ⟨b, hb, hid, -, htracked⟩ := hblock hb' hid
    have htight := hm.tight hcovering hexact a b id n t hb hid (hkept hn).1
    rw [howed] at htight
    dsimp only
    rw [htracked hcovering, howed]
    omega
  · intro hcounted id n hn
    obtain ⟨hn₀, hr⟩ := hkept hn
    rw [hm.rooted hcounted id n hn₀]
    exact hm.rootsOn_purged hpurged hsupports hr

end

end Memory
end ScriptVm
