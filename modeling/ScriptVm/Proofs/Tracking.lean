import ScriptVm.Proofs.Mirror

/-! The operations on arrays keep the collector's account. A new array takes its cells over from free
hands; a split moves what pointed at the old node for the handle's sake to the new one; a store moves
one edge. -/

namespace ScriptVm

namespace Collector
variable {π : Type}

def addAll (c : Collector π) (id : NodeId) (targets : List NodeId) : Collector π :=
  targets.foldl (fun c target => c.addReference (some id) (some target)) c

theorem contains_addAll (c : Collector π) (id : NodeId) (targets : List NodeId) (id' : NodeId) :
    (c.addAll id targets).contains id' = c.contains id' := by
  induction targets generalizing c with
  | nil => rfl
  | cons t targets ih =>
    rw [addAll, List.foldl_cons]
    exact (ih _).trans (contains_addReference c _ _ id')

theorem Tidy.addAll {c : Collector π} (h : c.Tidy) (id : NodeId) (targets : List NodeId) :
    (c.addAll id targets).Tidy := by
  induction targets generalizing c with
  | nil => exact h
  | cons t targets ih => exact ih (h.addReference _ _)

theorem payload_addAll (c : Collector π) (id : NodeId) (targets : List NodeId) (id' : NodeId) :
    ((c.addAll id targets).node? id').map (·.payload) = (c.node? id').map (·.payload) := by
  induction targets generalizing c with
  | nil => rfl
  | cons t targets ih => exact (ih _).trans (payload_addReference c _ _ id')

theorem Tidy.weight_addAll {c : Collector π} (h : c.Tidy) {id : NodeId} {targets : List NodeId}
    (ht : ∀ t ∈ targets, c.contains t = true) {id' : NodeId} {n n' : Node π}
    (hn : c.node? id' = some n) (hn' : (c.addAll id targets).node? id' = some n') :
    n'.roots = n.roots ∧
      ∀ u, n'.edges.weight u = n.edges.weight u + if id = id' then targets.count u else 0 := by
  induction targets generalizing c n with
  | nil =>
    obtain rfl := Option.some.inj (hn.symm.trans hn')
    simp
  | cons t targets ih =>
    have hlive : ∀ x, some t = some x → c.contains x = true := by
      intro x hx
      obtain rfl := Option.some.inj hx
      exact ht t List.mem_cons_self
    obtain ⟨n₁, hn₁⟩ := (contains_iff _ id').1
      ((contains_addReference c (some id) (some t) id').trans (contains_of_node? hn))
    obtain ⟨hroots₁, hweight₁⟩ := h.weight_addReference hlive hn hn₁
    obtain ⟨hroots, hweight⟩ := ih (h.addReference (some id) (some t))
      (fun u hu => (contains_addReference ..).trans (ht u (List.mem_cons_of_mem _ hu))) hn₁ hn'
    refine ⟨hroots.trans hroots₁, fun u => ?_⟩
    rw [hweight, hweight₁, List.count_cons]
    by_cases hid : id = id' <;> by_cases hu : t = u <;> simp [hid, hu]
    omega

/-- A node is new, with an edge to each of the targets, and the others are as they were. -/
structure Enrolled (c : Collector π) (payload : π) (id : NodeId) (targets : List NodeId) (c' : Collector π) :
    Prop where
  fresh : c.node? id = none
  tidy : c'.Tidy
  node : ∃ n, c'.node? id = some n ∧ n.payload = payload ∧ n.roots = 0 ∧ ∀ t, n.edges.weight t = targets.count t
  others : ∀ x n', c'.node? x = some n' → x ≠ id → ∃ n, c.node? x = some n ∧ n.payload = n'.payload ∧
    n'.roots = n.roots ∧ ∀ t, n'.edges.weight t = n.edges.weight t
  kept : ∀ x n, c.node? x = some n → ∃ n', c'.node? x = some n' ∧ n'.payload = n.payload

theorem Tidy.enrolled {c c₁ : Collector π} (h : c.Tidy) {payload : π} {id : NodeId}
    (hnew : c.construct payload = (id, c₁)) {targets : List NodeId} (ht : ∀ t ∈ targets, c.contains t = true) :
    c.Enrolled payload id targets (c₁.addAll id targets) := by
  have hfresh : c.node? id = none := by simpa [hnew] using h.node?_fresh payload
  have hget : ∀ x, c₁.node? x = if x = id then some { payload } else c.node? x := by
    intro x
    simpa [hnew] using h.node?_construct payload x
  have htidy : c₁.Tidy := by simpa [hnew] using h.construct payload
  have hother : ∀ {x n}, c.node? x = some n → x ≠ id := by
    rintro x n hn rfl
    rw [hfresh] at hn
    cases hn
  have hlive : ∀ t ∈ targets, c₁.contains t = true := by
    intro t hmem
    obtain ⟨n, hn⟩ := (c.contains_iff t).1 (ht t hmem)
    refine contains_of_node? (n := n) ?_
    rw [hget, if_neg (hother hn), hn]
  refine ⟨hfresh, htidy.addAll id targets, ?_, fun x n' hn' hx => ?_, fun x n hn => ?_⟩
  · have hid : c₁.node? id = some { payload } := by rw [hget, if_pos rfl]
    obtain ⟨n, hn⟩ := (contains_iff _ id).1 ((c₁.contains_addAll id targets id).trans (contains_of_node? hid))
    have hpay := c₁.payload_addAll id targets id
    rw [hn, hid] at hpay
    obtain ⟨hroots, hweight⟩ := htidy.weight_addAll hlive hid hn
    refine ⟨n, hn, Option.some.inj hpay, hroots, fun t => ?_⟩
    rw [hweight, if_pos rfl]
    exact Nat.zero_add _
  · have hpay := c₁.payload_addAll id targets x
    rw [hn', Option.map_some] at hpay
    obtain ⟨n, hn, hpay⟩ := Option.map_eq_some_iff.1 hpay.symm
    obtain ⟨hroots, hweight⟩ := htidy.weight_addAll hlive hn hn'
    rw [hget, if_neg hx] at hn
    refine ⟨n, hn, hpay, hroots, fun t => ?_⟩
    rw [hweight, if_neg (Ne.symm hx), Nat.add_zero]
  · have hpay := c₁.payload_addAll id targets x
    rw [hget, if_neg (hother hn), hn, Option.map_some] at hpay
    exact Option.map_eq_some_iff.1 hpay

end Collector

namespace Memory
variable {covering exact counted : Prop} {m : Memory} {c : Collector Tracked} {hands : List Hand}

theorem Mirrors.place {rows : Rows}
    (hm : Mirrors covering exact counted m c ((Rows.cells rows).map (Prod.mk none) ++ hands))
    (hplain : counted → ∀ v ∈ Rows.cells rows, v.isRooted = false) :
    Mirrors covering exact counted { m with heap := (m.heap.alloc rows).2 } c
      ((none, .array { target := some m.heap.blocks.size }) :: hands) := by
  have hp := Heap.placed_alloc m.heap rows
  have hsupports : (m.heap.alloc rows).2.Supports
      (.array { target := some m.heap.blocks.size } :: hands.map Prod.snd) := by
    refine hp.supports ?_ rfl
    simpa [Function.comp_def] using hm.supports
  have hnodes : m.heap.SameNodes (m.heap.alloc rows).2 := by
    refine ⟨by simp [hp.size], fun a b' hb' => ?_⟩
    rw [Heap.block?_alloc] at hb'
    split_ifs at hb' with ha
    · exact Or.inr ⟨ha.ge, by rw [← Option.some.inj hb']⟩
    · exact Or.inl ⟨b', hb', rfl⟩
  have hhands : ∀ hand ∈ hands, (m.heap.alloc rows).2.node? hand.2 = m.heap.node? hand.2 :=
    fun hand hhand => hnodes.node? fun a ha =>
      hsupports.alive (List.mem_cons_of_mem _ (List.mem_map_of_mem hhand)) ha
  refine hm.change hm.collector hm.tidy hsupports ?_ hnodes (fun _ => rfl) ?_ ?_ ?_
  · intro id hid
    refine hm.owners id ?_
    rw [List.map_append, List.mem_append]
    exact Or.inr (by simpa using hid)
  · intro _ a b b' id n n' t hb hb' _ hn hn'
    obtain rfl := Option.some.inj (hn.symm.trans hn')
    obtain rfl : b' = b := by
      rw [Heap.block?_alloc, if_neg (Heap.lt_of_block? hb).ne] at hb'
      exact Option.some.inj (hb'.symm.trans hb)
    have hcells : (m.heap.alloc rows).2.tracked t b'.cells = m.heap.tracked t b'.cells :=
      Heap.tracked_congr fun w hw => hnodes.node? fun x hx => hsupports.cell_alive hb' hw hx
    simp only [Heap.owed_cons, Heap.owed_append, Heap.owed_free, Heap.owed_congr hhands, hcells,
      reduceCtorEq, false_and, if_false]
    omega
  · intro hcounted id n n' hn hn'
    obtain rfl := Option.some.inj (hn.symm.trans hn')
    simp only [Heap.rootsOn_cons, Heap.rootsOn_append, Heap.rootsOn_congr hhands,
      Heap.rootsOn_free (hplain hcounted), Value.isRooted, Bool.false_eq_true, false_and, if_false]
    omega
  · intro hcounted a b' w hb' hw
    rw [Heap.block?_alloc] at hb'
    split_ifs at hb' with ha
    · obtain rfl := Option.some.inj hb'
      exact hplain hcounted w hw
    · exact hm.plain hcounted a b' w hb' hw

theorem register_eq (hcollector : m.collector = some c) {a : Address} {b : Block}
    (hb : m.heap.block? a = some b) {id : NodeId} {c₁ : Collector Tracked} {h' : Heap}
    (hnew : c.construct (.array a) = (id, c₁))
    (hheap : (m.heap.modify a fun b => { b with node := some id }) = h') :
    m.register a = { heap := h', collector := some (c₁.addAll id (h'.heldNodes b)) } := by
  have hb' : h'.block? a = some { b with node := some id } := by
    rw [← hheap, Heap.block?_modify, if_pos rfl, hb]
    rfl
  unfold register
  rw [hcollector]
  dsimp only
  rw [hnew]
  dsimp only
  rw [hheap, hb']
  rfl

theorem Mirrors.owed_fresh (hm : Mirrors covering exact counted m c hands) {id : NodeId} (hfresh : c.node? id = none)
    (h : Heap) (t : NodeId) : h.owed hands id t = 0 := by
  rw [Heap.owed, List.countP_eq_zero]
  intro hand hhand
  simp only [decide_eq_true_eq, not_and]
  intro howner
  have hin := hm.owners id (List.mem_map.2 ⟨hand, hhand, howner⟩)
  simp [Collector.contains, hfresh] at hin

theorem Mirrors.rootsOn_fresh (hm : Mirrors covering exact counted m c hands) {id : NodeId}
    (hfresh : c.node? id = none) :
    m.heap.rootsOn hands id = 0 := by
  rw [Heap.rootsOn, List.countP_eq_zero]
  intro hand _
  simp only [decide_eq_true_eq, not_and]
  intro _ hnode
  have hin := hm.node_live (v := hand.2) hnode
  simp [Collector.contains, hfresh] at hin

theorem node?_of_block {h h' : Heap} {a : Address} (hblock : ∀ x, x ≠ a → h'.block? x = h.block? x) {v : Value}
    (hv : v.target? ≠ some a) : h'.node? v = h.node? v := by
  cases hx : v.target? with
  | none => rw [Heap.node?_eq_none hx, Heap.node?_eq_none hx]
  | some x => simp [Heap.node?, hx, hblock x fun heq => hv (heq ▸ hx)]

/-- The data at an address that no cell leads to bears a new node, which has an edge for each array in the
data's cells. -/
structure Named (m : Memory) (c : Collector Tracked) (a : Address) (b : Block) (id : NodeId) (h' : Heap)
    (c' : Collector Tracked) : Prop where
  there : m.heap.block? a = some b
  bare : b.node = none
  inner : m.heap.innerHandles a = 0
  blocks : ∀ x, h'.block? x = if x = a then some { b with node := some id } else m.heap.block? x
  enrolled : c.Enrolled (.array a) id (h'.heldNodes b) c'

section
variable {a : Address} {b : Block} {id : NodeId} {h' : Heap} {c' : Collector Tracked}

theorem node?_cell_of_blocks
    (hblocks : ∀ x, h'.block? x = if x = a then some { b with node := some id } else m.heap.block? x)
    (hinner : m.heap.innerHandles a = 0) {x : Address} {b₀ : Block} {w : Value}
    (hb₀ : m.heap.block? x = some b₀) (hw : w ∈ b₀.cells) : h'.node? w = m.heap.node? w := by
  refine node?_of_block (fun y hy => by rw [hblocks, if_neg hy]) fun hwa => ?_
  have hpos := Heap.innerHandles_pos hb₀ hw hwa
  omega

theorem Named.node (hd : Named m c a b id h' c') {n' : Node Tracked} (hn' : c'.node? id = some n') :
    n'.payload = .array a ∧ n'.roots = 0 ∧ ∀ t, n'.edges.weight t = h'.tracked t b.cells := by
  obtain ⟨n, hn, hpay, hroots, hweight⟩ := hd.enrolled.node
  obtain rfl := Option.some.inj (hn'.symm.trans hn)
  exact ⟨hpay, hroots, fun t => (hweight t).trans (Heap.count_heldNodes ..)⟩

theorem Named.ne (hd : Named m c a b id h' c') (hm : Mirrors covering exact counted m c hands) {x : Address}
    {b₀ : Block} {s : NodeId} (hb₀ : m.heap.block? x = some b₀) (hs : b₀.node = some s) : s ≠ id := by
  rintro rfl
  obtain ⟨n, hn, -⟩ := hm.linked x b₀ s hb₀ hs
  rw [hd.enrolled.fresh] at hn
  cases hn

theorem Named.linked (hd : Named m c a b id h' c') (hm : Mirrors covering exact counted m c hands) (x : Address)
    (b' : Block) (s : NodeId) (hb' : h'.block? x = some b') (hs : b'.node = some s) :
    ∃ n, c'.node? s = some n ∧ n.payload = .array x := by
  rw [hd.blocks] at hb'
  split_ifs at hb' with hx
  · obtain rfl := Option.some.inj hb'
    obtain rfl := Option.some.inj hs
    obtain ⟨n, hn, hpay, -⟩ := hd.enrolled.node
    exact ⟨n, hn, by rw [hpay, hx]⟩
  · obtain ⟨n, hn, hpay⟩ := hm.linked x b' s hb' hs
    obtain ⟨n', hn', hpay'⟩ := hd.enrolled.kept s n hn
    exact ⟨n', hn', hpay'.trans hpay⟩

theorem Named.known (hd : Named m c a b id h' c') (hm : Mirrors covering exact counted m c hands) (s : NodeId)
    (n' : Node Tracked) (x : Address) (hn' : c'.node? s = some n') (hpay : n'.payload = .array x) :
    x < m.heap.blocks.size := by
  by_cases hs : s = id
  · subst hs
    rw [← Tracked.array.inj ((hd.node hn').1.symm.trans hpay)]
    exact Heap.lt_of_block? hd.there
  · obtain ⟨n, hn, hpay', -⟩ := hd.enrolled.others s n' hn' hs
    exact hm.known s n x hn (hpay'.trans hpay)

theorem Named.tied (hd : Named m c a b id h' c') (hm : Mirrors covering exact counted m c hands) (s : NodeId)
    (n' : Node Tracked) (x : Address) (b' : Block) (hn' : c'.node? s = some n') (hpay : n'.payload = .array x)
    (hb' : h'.block? x = some b') : b'.node = some s := by
  rw [hd.blocks] at hb'
  by_cases hs : s = id
  · subst hs
    rw [if_pos (Tracked.array.inj (hpay.symm.trans (hd.node hn').1))] at hb'
    rw [← Option.some.inj hb']
  obtain ⟨n, hn, hpay', -⟩ := hd.enrolled.others s n' hn' hs
  split_ifs at hb' with hx
  · -- a live node whose data bore no name
    have htied := hm.tied s n a b hn ((hpay'.trans hpay).trans (by rw [hx])) hd.there
    rw [hd.bare] at htied
    cases htied
  · exact hm.tied s n x b' hn (hpay'.trans hpay) hb'

/-- What a name stands for in the new account: the new one for its cells, each other for what it stood
for. -/
theorem Named.duty (hd : Named m c a b id h' c') (hm : Mirrors covering exact counted m c hands) {x : Address}
    {b' : Block} {s : NodeId} {n' : Node Tracked} (hb' : h'.block? x = some b') (hs : b'.node = some s)
    (hn' : c'.node? s = some n') (t : NodeId) :
    (s = id ∧ n'.edges.weight t = h'.tracked t b'.cells) ∨
      ∃ n, m.heap.block? x = some b' ∧ c.node? s = some n ∧ n'.edges.weight t = n.edges.weight t ∧
        h'.tracked t b'.cells = m.heap.tracked t b'.cells := by
  rw [hd.blocks] at hb'
  split_ifs at hb' with hx
  · left
    obtain rfl := Option.some.inj hb'
    obtain rfl := Option.some.inj hs
    exact ⟨rfl, (hd.node hn').2.2 t⟩
  · right
    obtain ⟨n, hn, -, -, hweight⟩ := hd.enrolled.others s n' hn' (hd.ne hm hb' hs)
    exact ⟨n, hb', hn, hweight t,
      Heap.tracked_congr fun w hw => node?_cell_of_blocks hd.blocks hd.inner hb' hw⟩

theorem Named.roots (hd : Named m c a b id h' c') (hm : Mirrors covering exact counted m c hands) (hcounted : counted)
    (s : NodeId) (n' : Node Tracked) (hn' : c'.node? s = some n') : n'.roots = m.heap.rootsOn hands s := by
  by_cases hs : s = id
  · subst hs
    rw [(hd.node hn').2.1, hm.rootsOn_fresh hd.enrolled.fresh]
  · obtain ⟨n, hn, -, hroots, -⟩ := hd.enrolled.others s n' hn' hs
    rw [hroots, hm.rooted hcounted s n hn]

theorem Named.plain (hd : Named m c a b id h' c') (hm : Mirrors covering exact counted m c hands) (hcounted : counted)
    (x : Address) (b' : Block) (w : Value) (hb' : h'.block? x = some b') (hw : w ∈ b'.cells) :
    w.isRooted = false := by
  rw [hd.blocks] at hb'
  split_ifs at hb' with hx
  · obtain rfl := Option.some.inj hb'
    exact hm.plain hcounted a b w hd.there hw
  · exact hm.plain hcounted x b' w hb' hw

end

theorem Mirrors.register {v : Value} {a : Address} {b : Block}
    (hm : Mirrors covering exact counted m c ((none, v) :: hands)) (hv : v.isRooted = false)
    (hb : m.heap.block? a = some b) (hbare : b.node = none) (hinner : m.heap.innerHandles a = 0)
    (hhands : handlesOn a (hands.map Prod.snd) = 0) :
    ∃ c', Mirrors covering exact counted (m.register a) c' ((none, v) :: hands) := by
  obtain ⟨id, c₁, hnew⟩ : ∃ id c₁, c.construct (.array a) = (id, c₁) := ⟨_, _, rfl⟩
  obtain ⟨h', hheap⟩ : ∃ h', (m.heap.modify a fun b => { b with node := some id }) = h' := ⟨_, rfl⟩
  rw [register_eq hm.collector hb hnew hheap]
  have hblocks : ∀ x, h'.block? x = if x = a then some { b with node := some id } else m.heap.block? x := by
    intro x
    rw [← hheap, Heap.block?_modify, hb]
    rfl
  have he : c.Enrolled (.array a) id (h'.heldNodes b) (c₁.addAll id (h'.heldNodes b)) := by
    refine hm.tidy.enrolled hnew fun t ht => ?_
    obtain ⟨w, hw, hwt⟩ := List.mem_filterMap.1 ht
    rw [node?_cell_of_blocks hblocks hinner hb hw] at hwt
    exact hm.node_live hwt
  generalize c₁.addAll id (h'.heldNodes b) = c' at he ⊢
  have hd : Named m c a b id h' c' := ⟨hb, hbare, hinner, hblocks, he⟩
  -- only the free hand sees the change
  have hkept : ∀ hand ∈ hands, h'.node? hand.2 = m.heap.node? hand.2 := fun hand hhand =>
    node?_of_block (fun x hx => by rw [hblocks, if_neg hx])
      (handlesOn_eq_zero_iff.1 hhands hand.2 (List.mem_map_of_mem hhand))
  have howed : ∀ s t, h'.owed ((none, v) :: hands) s t = m.heap.owed ((none, v) :: hands) s t := by
    intro s t
    simp [Heap.owed_congr hkept]
  have hsupports : h'.Supports (((none, v) :: hands).map Prod.snd) := by
    rw [← hheap]
    exact hm.supports.modify_same a (fun _ => rfl) (fun _ => rfl)
  refine ⟨c', rfl, he.tidy, hsupports, fun x hx => ?_, hd.linked hm, ?_, hd.tied hm, ?_, ?_, ?_, hd.plain hm⟩
  · obtain ⟨n, hn⟩ := (c.contains_iff x).1 (hm.owners x hx)
    obtain ⟨n', hn', -⟩ := he.kept x n hn
    exact Collector.contains_of_node? hn'
  · rw [← hheap, Heap.size_modify]
    exact hd.known hm
  · intro hcovering x b' s n' t hb' hs hn'
    rcases hd.duty hm hb' hs hn' t with ⟨rfl, hweight⟩ | ⟨n, hb₀, hn, hweight, htracked⟩
    · rw [hm.owed_fresh he.fresh, hweight]
      exact le_rfl
    · have hcov := hm.covered hcovering x b' s n t hb₀ hs hn
      have hsame := howed s t
      dsimp only
      omega
  · intro hcovering hexact x b' s n' t hb' hs hn'
    rcases hd.duty hm hb' hs hn' t with ⟨rfl, hweight⟩ | ⟨n, hb₀, hn, hweight, htracked⟩
    · rw [hweight]
      exact Nat.le_add_right _ _
    · have htight := hm.tight hcovering hexact x b' s n t hb₀ hs hn
      have hsame := howed s t
      dsimp only
      omega
  · intro hcounted s n' hn'
    have hsame : h'.rootsOn ((none, v) :: hands) s = m.heap.rootsOn ((none, v) :: hands) s := by
      rw [Heap.rootsOn_cons, Heap.rootsOn_cons, Heap.rootsOn_congr hkept]
      simp [hv]
    rw [hsame, hd.roots hm hcounted s n' hn']

theorem Mirrors.newArray (rows : Rows)
    (hm : Mirrors covering exact counted m c ((Rows.cells rows).map (Prod.mk none) ++ hands))
    (hplain : counted → ∀ v ∈ Rows.cells rows, v.isRooted = false) :
    ∃ c', Mirrors covering exact counted (m.newArray rows).2 c' ((none, (m.newArray rows).1) :: hands) := by
  have hp := Heap.placed_alloc m.heap rows
  have hsupports : m.heap.Supports (Rows.cells rows ++ hands.map Prod.snd) := by
    simpa [Function.comp_def] using hm.supports
  obtain ⟨hinner, hhands⟩ := hsupports.fresh (a := m.heap.blocks.size) le_rfl
  rw [handlesOn_append] at hhands
  have hb : (m.heap.alloc rows).2.block? m.heap.blocks.size = some { rows := rows } := by
    rw [Heap.block?_alloc, if_pos rfl]
  have hinner' : (m.heap.alloc rows).2.innerHandles m.heap.blocks.size = 0 := by
    rw [hp.inner]
    omega
  exact (hm.place hplain).register (b := { rows := rows }) rfl hb rfl hinner' (by omega)

/-! ### Opening -/

theorem Mirrors.own_bare {v : Value} (hm : Mirrors covering exact counted m c ((none, v) :: hands))
    (hv : m.node? v = none) (owner : Option NodeId)
    (howner : ∀ id, owner = some id → some id ∈ hands.map Prod.fst) :
    Mirrors covering exact counted m c ((owner, v) :: hands) := by
  have hnode : m.heap.node? v = none := hv
  refine hm.rehand hm.supports ?_ (fun s t => by simp [hnode]) (fun id => by simp)
  intro id hid
  rcases List.mem_cons.1 hid with hid | hid
  · exact hm.owners id (List.mem_cons_of_mem _ (howner id hid.symm))
  · exact hm.owners id (List.mem_cons_of_mem _ hid)

/-- A new array in a free hand takes the place of a handle: beside its owner and as a root. -/
theorem Mirrors.anchor {a : Address}
    (hm : Mirrors covering exact counted m c ((none, .array { target := some a }) :: hands))
    (owner : Option NodeId) (howner : ∀ id, owner = some id → some id ∈ hands.map Prod.fst) (h : Handle) :
    ∃ c', Mirrors covering exact counted (m.anchor h owner a) c'
      ((owner, .array { h with target := some a }) :: hands) := by
  have hid : (m.heap.block? a).bind (·.node) = m.node? (.array { target := some a }) := rfl
  unfold Memory.anchor
  rw [hid]
  cases hnode : m.node? (.array { target := some a }) with
  | none =>
    have hsame : m.modifyCollector (·.addReference owner none) = m := by
      have hnothing : ∀ c : Collector Tracked, c.addReference owner none = c := by
        intro c
        cases owner <;> rfl
      simp [modifyCollector, hnothing]
    dsimp only
    rw [hsame]
    have hflag := (hm.own_bare hnode owner howner).reflag (h := { target := some a }) hnode
    obtain ⟨target, rooted⟩ := h
    cases rooted with
    | false => exact ⟨c, hflag false⟩
    | true => exact ⟨c, hflag true⟩
  | some id =>
    have hown := hm.own owner fun x hx =>
      hm.owners x (List.mem_cons_of_mem _ (howner x hx))
    rw [hnode] at hown
    obtain ⟨target, rooted⟩ := h
    cases rooted with
    | false => exact ⟨_, hown⟩
    | true => exact ⟨_, hown.root (h := { target := some a }) hnode⟩

theorem Mirrors.openShared {owner : Option NodeId} {h : Handle}
    (hm : Mirrors covering exact counted m c ((owner, .array h) :: hands)) :
    ∃ c', Mirrors covering exact counted (m.openShared h owner).2.2 c'
      ((owner, .array (m.openShared h owner).2.1) :: hands) := by
  unfold Memory.openShared
  cases ht : h.target with
  | some a => exact ⟨c, hm⟩
  | none =>
    obtain ⟨c₁, hnew⟩ := Mirrors.newArray #[] (show Mirrors covering exact counted m c
      ((Rows.cells #[]).map (Prod.mk none) ++ (owner, .array h) :: hands) from hm) (by simp)
    obtain ⟨c₂, hplaced⟩ := hnew.anchor owner (fun id hid => by simp [hid]) h
    refine ⟨c₂, ?_⟩
    exact (hplaced.perm (List.Perm.swap _ _ _)).drop_null ht

theorem Mirrors.retainAll (hm : Mirrors covering exact counted m c hands) {ws : List Value}
    (halive : ∀ w ∈ ws, ∀ a, w.target? = some a → ∃ b, m.heap.block? a = some b) :
    Mirrors covering exact counted { m with heap := ws.foldl Heap.retain m.heap } c
      ((ws.map Value.share).map (Prod.mk none) ++ hands) := by
  induction ws generalizing m hands with
  | nil => exact hm
  | cons w ws ih =>
    have hw := hm.retain (halive w List.mem_cons_self)
    refine (ih hw fun u hu a ha => ?_).perm List.perm_middle
    obtain ⟨b, hb⟩ := halive u (List.mem_cons_of_mem _ hu) a ha
    obtain ⟨b', hb', -⟩ := (Heap.sameRows_retain m.heap w).keeps a b hb
    exact ⟨b', hb'⟩

theorem Mirrors.leave {owner : Option NodeId} {h : Handle} {id : NodeId}
    (hm : Mirrors covering exact counted m c ((owner, .array h) :: hands)) (hid : m.node? (.array h) = some id)
    {m₁ : Memory} (hedge : m.modifyCollector (·.removeReference owner (some id)) = m₁) :
    ∃ c', Mirrors covering exact counted (if h.rooted then m₁.modifyCollector (·.removeRoot id) else m₁) c'
      ((none, .array { target := h.target }) :: hands) := by
  have hfree := hm.release_owner
  rw [hid, hedge] at hfree
  have hid₁ : m₁.node? (.array h) = some id := by
    rw [← hedge]
    exact hid
  obtain ⟨target, rooted⟩ := h
  cases rooted with
  | false => exact ⟨_, hfree⟩
  | true => exact ⟨_, hfree.unroot (h := { target := target }) hid₁⟩

theorem split_of_bare {h : Handle} {owner : Option NodeId} {old : Address} {b : Block} {kept : Memory}
    (hkept : { m with heap := b.cells.foldl Heap.retain m.heap } = kept) (hbare : b.node = none) :
    m.split h owner old b = (kept.heap.blocks.size, { h with target := some kept.heap.blocks.size },
      Memory.release { kept with heap := (kept.heap.alloc b.rows.share).2 }
        [.array { target := some old }]) := by
  subst hkept
  unfold Memory.split
  rw [hbare]
  rfl

theorem split_of_tracked {h : Handle} {owner : Option NodeId} {old : Address} {b : Block} {kept : Memory}
    {id : NodeId} (hkept : { m with heap := b.cells.foldl Heap.retain m.heap } = kept)
    (hid : b.node = some id) {m₁ : Memory}
    (hedge : (kept.newArray b.rows.share).2.modifyCollector (·.removeReference owner (some id)) = m₁) :
    m.split h owner old b = (kept.heap.blocks.size, { h with target := some kept.heap.blocks.size },
      Memory.release ((if h.rooted then m₁.modifyCollector (·.removeRoot id) else m₁).anchor h owner
        kept.heap.blocks.size) [.array { target := some old }]) := by
  subst hkept hedge
  unfold Memory.split
  rw [hid]
  rfl

theorem isRooted_of_mem_share {rows : Rows} {v : Value} (hv : v ∈ Rows.cells rows.share) : v.isRooted = false := by
  rw [Rows.cells_share] at hv
  obtain ⟨w, -, rfl⟩ := List.mem_map.1 hv
  cases w <;> rfl

theorem Mirrors.retain_cells (hm : Mirrors covering exact counted m c hands) {a : Address} {b : Block}
    (hb : m.heap.block? a = some b) :
    Mirrors covering exact counted { m with heap := b.cells.foldl Heap.retain m.heap } c
      ((Rows.cells b.rows.share).map (Prod.mk none) ++ hands) := by
  rw [Rows.cells_share, ← Block.cells_eq]
  exact hm.retainAll fun w hw x hx => hm.supports.cell_alive hb hw hx

theorem Mirrors.split {owner : Option NodeId} {h : Handle} {old : Address} {b : Block}
    (hm : Mirrors covering exact counted m c ((owner, .array h) :: hands)) (ht : h.target = some old)
    (hb : m.heap.block? old = some b) :
    ∃ c', Mirrors covering exact counted (m.split h owner old b).2.2 c'
      ((owner, .array (m.split h owner old b).2.1) :: hands) := by
  -- a hand without data keeps the owner in view while the array changes hands
  have hwatch : Mirrors covering exact counted m c ((owner, .array h) :: (owner, .undefined) :: hands) := by
    refine (hm.add_null (owner, .undefined) rfl fun id hid => ?_).perm (List.Perm.swap _ _ _)
    exact hm.owners id (by simp [← hid])
  have hkept := hwatch.retain_cells hb
  obtain ⟨kept, hkept_eq⟩ : ∃ kept : Memory,
    { m with heap := b.cells.foldl Heap.retain m.heap } = kept := ⟨_, rfl⟩
  have hplain : counted → ∀ v ∈ Rows.cells b.rows.share, v.isRooted = false := fun _ _ => isRooted_of_mem_share
  rw [hkept_eq] at hkept
  have hnode : kept.heap.node? (.array h) = b.node := by
    rw [← hkept_eq]
    exact (Heap.node?_retainAll b.cells _).trans (Heap.node?_eq (v := .array h) ht hb)
  have hlt : old < kept.heap.blocks.size := by
    rw [← hkept_eq]
    exact (Heap.lt_of_block? hb).trans_eq (Heap.sameRows_retainAll m.heap b.cells).size.symm
  have hplaced : ∀ {h' : Heap}, kept.heap.Placed b.rows.share h' → h'.node? (.array h) = b.node := by
    intro h' hp
    rw [← hnode]
    simp only [Heap.node?, Value.target?, ht, Option.bind_some, hp.other old hlt.ne]
  cases hid : b.node with
  | none =>
    rw [split_of_bare hkept_eq hid]
    have hnew := hkept.place hplain
    have hp := Heap.placed_alloc kept.heap b.rows.share
    have hbare : (kept.heap.alloc b.rows.share).2.node?
        (.array { target := some kept.heap.blocks.size }) = none := by
      simp [Heap.node?, Value.target?, Heap.block?_alloc]
    have hown := (hnew.own_bare hbare owner (fun x hx => by simp [hx])).reflag
      (h := { target := some kept.heap.blocks.size }) hbare h.rooted
    have hleft := ((hown.perm (List.Perm.swap _ _ _)).disown fun _ => (hplaced hp).trans hid).reflag
      (h := h) ((hplaced hp).trans hid) false
    rw [ht] at hleft
    have hdropped := hleft.release_one fun _ => rfl
    exact ⟨c, (hdropped.perm (List.Perm.swap _ _ _)).drop_null rfl⟩
  | some id =>
    obtain ⟨m₁, hedge⟩ : ∃ m₁, (kept.newArray b.rows.share).2.modifyCollector
      (·.removeReference owner (some id)) = m₁ := ⟨_, rfl⟩
    rw [split_of_tracked hkept_eq hid hedge]
    obtain ⟨c₁, hnew⟩ := Mirrors.newArray b.rows.share hkept hplain
    have hold := (hplaced (placed_newArray kept b.rows.share)).trans hid
    obtain ⟨c₂, hleft⟩ := (hnew.perm (List.Perm.swap _ _ _)).leave hold hedge
    obtain ⟨c₃, hanchored⟩ := (hleft.perm (List.Perm.swap _ _ _)).anchor owner
      (fun x hx => by simp [hx]) h
    rw [ht] at hanchored
    have hdropped := (hanchored.perm (List.Perm.swap _ _ _)).release_one fun _ => rfl
    exact ⟨c₃, (hdropped.perm (List.Perm.swap _ _ _)).drop_null rfl⟩

theorem Mirrors.openPrivate {owner : Option NodeId} {h : Handle}
    (hm : Mirrors covering exact counted m c ((owner, .array h) :: hands)) :
    ∃ c', Mirrors covering exact counted (m.openPrivate h owner).2.2 c'
      ((owner, .array (m.openPrivate h owner).2.1) :: hands) := by
  unfold Memory.openPrivate
  cases ht : h.target with
  | none => exact hm.openShared
  | some a =>
    dsimp only
    split
    · rename_i b hb
      split_ifs with hmany
      · exact hm.split ht hb
      · exact ⟨c, hm⟩
    · exact ⟨c, hm⟩

theorem Mirrors.openForWrite {owner : Option NodeId} {v : Value}
    (hm : Mirrors covering exact counted m c ((owner, v) :: hands)) (copy : Bool) :
    ∃ c', Mirrors covering exact counted (m.openForWrite v copy owner).2.2 c'
      ((owner, (m.openForWrite v copy owner).2.1) :: hands) := by
  have howner : ∀ id, owner = some id → c.contains id = true := fun id hid => hm.owners id (by simp [hid])
  have hhandle : Mirrors covering exact counted m c ((owner, .array (handleOf v)) :: hands) := by
    cases v with
    | array h => exact hm
    | _ => exact (hm.drop_null rfl).add_null _ rfl howner
  unfold Memory.openForWrite
  cases copy with
  | true => exact hhandle.openPrivate
  | false => exact hhandle.openShared

theorem isRooted_openShared (m : Memory) (h : Handle) (owner : Option NodeId) :
    (m.openShared h owner).2.1.rooted = h.rooted := by
  unfold openShared
  split <;> rfl

theorem isRooted_openForWrite (m : Memory) (v : Value) (copy : Bool) (owner : Option NodeId) :
    (m.openForWrite v copy owner).2.1.isRooted = v.isRooted := by
  have hhandle : (handleOf v).rooted = v.isRooted := by cases v <;> rfl
  rw [← hhandle]
  cases copy with
  | false => exact isRooted_openShared m (handleOf v) owner
  | true =>
    change (m.openPrivate (handleOf v) owner).2.1.rooted = _
    unfold openPrivate
    split
    · exact isRooted_openShared m (handleOf v) owner
    · split
      · split_ifs
        · rfl
        · rfl
      · rfl

/-! ### Stores -/

theorem isRooted_store (m : Memory) (v : Value) (cell : Cell) (new : Value) (copy : Bool)
    (owner : Option NodeId) : (m.store v cell new copy owner).1.isRooted = v.isRooted :=
  isRooted_openForWrite m v copy owner

theorem Mirrors.store {owner : Option NodeId} {v new : Value}
    (hm : Mirrors covering exact counted m c ((owner, v) :: (none, new) :: hands))
    (hnew : counted → new.isRooted = false) (cell : Cell) (copy : Bool) :
    ∃ c', Mirrors covering exact counted (m.store v cell new copy owner).2 c'
      ((owner, (m.store v cell new copy owner).1) :: hands) := by
  obtain ⟨c₁, hopen⟩ := hm.openForWrite copy
  have ho := opened_openForWrite hm.supports copy owner
  rcases hopened : m.openForWrite v copy owner with ⟨a, v', m₁⟩
  rw [hopened] at ho hopen
  dsimp only at ho hopen
  obtain ⟨b, hb, hcell, -⟩ := reached ho cell
  have hgrown := (hopen.growAt a cell).perm (List.Perm.swap _ _ _)
  obtain ⟨m₂, hm₂⟩ : ∃ m₂, m₁.growAt a cell = m₂ := ⟨_, rfl⟩
  rw [hm₂] at hb hcell hgrown
  have hstore : m.store v cell new copy owner =
      (v', (m₂.modifyCollector fun c => (c.removeReference b.node (m₂.node? (m₂.cellAt a cell))).addReference
        b.node (m₂.node? new)).overwrite a cell new) := by
    unfold Memory.store reachCell
    simp only [hopened, hm₂, hb, Option.bind_some]
  have hplain : counted → (m₂.cellAt a cell).isRooted = false := fun hcounted =>
    hgrown.plain hcounted a b _ hb (Rows.mem_cells_of_cell? hcell)
  obtain ⟨c₃, hlinked⟩ := hgrown.relink hb hcell hnew
    ((m₂.modifyCollector fun c => (c.removeReference b.node
      (m₂.node? (m₂.cellAt a cell))).addReference b.node (m₂.node? new)).putCell a cell new)
    rfl (by simp [Memory.putCell, modifyCollector, hgrown.collector])
  rw [hstore]
  exact ⟨c₃, hlinked.release_one hplain⟩

theorem isRooted_storeNested (m : Memory) (v : Value) {path : List Cell} (hpath : path ≠ [])
    (new : Value) (copy : Bool) (owner : Option NodeId) :
    (m.storeNested v path new copy owner).1.isRooted = v.isRooted := by
  obtain ⟨cell, rest, rfl⟩ := List.exists_cons_of_ne_nil hpath
  by_cases hrest : rest = []
  · subst hrest
    rw [storeNested]
    exact isRooted_store m v cell new copy owner
  · rw [storeNested_cons m v cell hrest new copy owner rfl rfl rfl]
    exact isRooted_openForWrite m v copy owner

/-- A cell is moved out: what it held is in the hand of the array that held it. -/
theorem Mirrors.moveOut {a : Address} {b : Block} {cell : Cell} {inner : Value}
    (hm : Mirrors covering exact counted m c hands) (hb : m.heap.block? a = some b)
    (hcell : Rows.cell? b.rows cell.1 cell.2 = some inner) :
    Mirrors covering exact counted (m.putCell a cell .undefined) c ((b.node, inner) :: hands) := by
  have hlive : ∀ id, b.node = some id → c.contains id = true := by
    intro id hid
    obtain ⟨n, hn, -⟩ := hm.linked a b id hb hid
    exact Collector.contains_of_node? hn
  exact (hm.add_null (b.node, .undefined) rfl hlive).exchange hb hcell fun _ => rfl

/-- What was moved out and written through is put back. For the edges to be no more than they must, the
array has to be private: else the cell may have been filled again meanwhile. -/
theorem Mirrors.putBack {m' : Memory} {a : Address} {b : Block} {cell : Cell} {owner : Option NodeId}
    {v new inner inner' : Value} {copy : Bool}
    (hm : Mirrors covering exact counted m' c ((b.node, inner') :: (owner, v) :: hands))
    (hb : m.heap.block? a = some { b with rows := Rows.set b.rows cell.1 cell.2 .undefined })
    (hcell : Rows.cell? b.rows cell.1 cell.2 = some inner) (hv : v.target? = some a)
    (hw : Written copy m.heap inner new (v :: hands.map Prod.snd) inner' m'.heap)
    (hcopy : exact → copy = true) (hplain : counted → inner'.isRooted = false) :
    Mirrors covering exact counted ((m'.growAt a cell).overwrite a cell inner') c ((owner, v) :: hands) := by
  -- the array is still there, with its node
  obtain ⟨b₃, hb₃⟩ := hw.supports.alive (v := v) (by simp) hv
  obtain ⟨b₂, hb₂, hnode₃⟩ := hw.evolves.node a b₃ (Heap.lt_of_block? hb) hb₃
  obtain rfl := Option.some.inj (hb.symm.trans hb₂)
  obtain ⟨b₄, hb₄, hrows₄, hcell₄⟩ := cell?_growAt hb₃ cell
  have hnode₄ : b₄.node = b.node := by
    rw [← hnode₃, Option.some.inj (hb₄.symm.trans (block?_growAt hb₃ cell))]
  obtain ⟨old, hold⟩ : ∃ old, (m'.growAt a cell).cellAt a cell = old := ⟨_, rfl⟩
  rw [hold] at hcell₄
  have hback := hm.growAt a cell
  rw [← hnode₄] at hback
  have hput := hback.exchange hb₄ hcell₄ hplain
  -- a private array still has the hole that the cell left
  have hhole : exact → ((m'.growAt a cell).putCell a cell inner').heap.node? old = none := by
    intro hexact
    obtain ⟨b₃', hb₃', hrows₃⟩ := hw.agrees (hcopy hexact) a _ (.value (v := v) (by simp) hv) hb
    obtain rfl := Option.some.inj (hb₃.symm.trans hb₃')
    have hundefined : Rows.cell? b₃.rows cell.1 cell.2 = some .undefined := by
      rw [hrows₃]
      exact Rows.cell?_set hcell .undefined
    rw [hrows₄, Rows.grow_eq_self hundefined, hundefined] at hcell₄
    rw [← Option.some.inj hcell₄]
    rfl
  have hplain₄ : counted → old.isRooted = false := fun hcounted =>
    hback.plain hcounted a b₄ old hb₄ (Rows.mem_cells_of_cell? hcell₄)
  have hdropped := (hput.disown hhole).release_one hplain₄
  rwa [← hold] at hdropped

/-- A store along a path. The edges are no more than they must if the arrays on the way are private. -/
theorem Mirrors.storeNested {owner : Option NodeId} {v new : Value} {path : List Cell} {copy : Bool}
    (hm : Mirrors covering exact counted m c ((owner, v) :: (none, new) :: hands)) (hpath : path ≠ [])
    (hcopy : exact → copy = true) (hnew : counted → new.isRooted = false) :
    ∃ c', Mirrors covering exact counted (m.storeNested v path new copy owner).2 c'
      ((owner, (m.storeNested v path new copy owner).1) :: hands) := by
  induction path generalizing m c v hands owner with
  | nil => exact absurd rfl hpath
  | cons cell rest ih =>
    by_cases hrest : rest = []
    · subst hrest
      rw [Memory.storeNested]
      exact hm.store hnew cell copy
    obtain ⟨c₁, hopen⟩ := hm.openForWrite copy
    have ho := opened_openForWrite hm.supports copy owner
    rcases hopened : m.openForWrite v copy owner with ⟨a, v', m₁⟩
    rw [hopened] at ho hopen
    dsimp only at ho hopen
    obtain ⟨b, hb, hcell, -⟩ := reached ho cell
    have hgrown := hopen.growAt a cell
    obtain ⟨inner, hinner⟩ : ∃ inner, (m₁.growAt a cell).cellAt a cell = inner := ⟨_, rfl⟩
    obtain ⟨m₂, hm₂⟩ : ∃ m₂, (m₁.growAt a cell).putCell a cell .undefined = m₂ := ⟨_, rfl⟩
    rw [hinner] at hcell
    have hplain : counted → inner.isRooted = false := fun hcounted =>
      hgrown.plain hcounted a b _ hb (Rows.mem_cells_of_cell? hcell)
    have hmoved := hgrown.moveOut hb hcell
    rw [hm₂] at hmoved
    have hb₂ : m₂.heap.block? a = some { b with rows := Rows.set b.rows cell.1 cell.2 .undefined } := by
      rw [← hm₂]
      exact block?_putCell hb cell .undefined
    have hnode₂ : m₂.node? v' = b.node := by
      rw [Memory.node?, Heap.node?_eq ho.target hb₂]
    -- the store into what was moved out, the array being a hand meanwhile
    have hpass := hmoved.perm (List.Perm.cons _ (List.Perm.swap _ _ _))
    have hw := written_storeNested hpass.supports rest copy (m₂.node? v')
    obtain ⟨c₃, hbelow⟩ := ih hpass hrest
    have hflag := isRooted_storeNested m₂ inner hrest new copy b.node
    rw [hnode₂] at hw
    rcases hnested : m₂.storeNested inner rest new copy b.node with ⟨inner', m₃⟩
    rw [hnested] at hbelow hw hflag
    dsimp only at hbelow hw hflag
    rw [storeNested_cons m v cell hrest new copy owner hopened hm₂ (by rw [hinner, hnode₂, hnested])]
    exact ⟨c₃, hbelow.putBack hb₂ hcell ho.target hw hcopy fun hcounted => hflag.trans (hplain hcounted)⟩

end Memory
end ScriptVm
