import ScriptVm.Proofs.Collection
import ScriptVm.Proofs.Writing

/-! The collector's edges mirror the cells. Values outside the heap are held in hands; a hand may have
an owner, the node that records an edge for it, as while a cell is moved out of its array. The edges of
a node cover its cells and the hands it owns, unless someone stores without the collector. An operation
may keep more: that the edges are no more than that, and that the root count of a node is the number of
its rooted hands. -/

namespace ScriptVm

def Value.isRooted : Value → Bool
  | .array h => h.rooted
  | _ => false

/-- A value outside the heap and its owner. -/
abbrev Hand := Option NodeId × Value

namespace Heap

/-- How many of the values are arrays with the node. -/
def tracked (h : Heap) (t : NodeId) (vs : List Value) : Nat :=
  vs.countP fun v => decide (h.node? v = some t)

/-- How many edges to the target its hands ask of an owner. -/
def owed (h : Heap) (hands : List Hand) (source target : NodeId) : Nat :=
  hands.countP fun hand => decide (hand.1 = some source ∧ h.node? hand.2 = some target)

/-- How many hands make the node a root. -/
def rootsOn (h : Heap) (hands : List Hand) (id : NodeId) : Nat :=
  hands.countP fun hand => decide (hand.2.isRooted = true ∧ h.node? hand.2 = some id)

section
variable {h h' : Heap}

theorem count_heldNodes (h : Heap) (b : Block) (t : NodeId) :
    (h.heldNodes b).count t = h.tracked t b.cells := by
  rw [heldNodes, List.count, List.countP_filterMap, tracked]
  apply List.countP_congr
  intro v _
  cases h.node? v <;> simp

@[simp] theorem owed_nil (h : Heap) (s t : NodeId) : h.owed [] s t = 0 := rfl

@[simp] theorem owed_cons (h : Heap) (hand : Hand) (hands : List Hand) (s t : NodeId) :
    h.owed (hand :: hands) s t =
      h.owed hands s t + if hand.1 = some s ∧ h.node? hand.2 = some t then 1 else 0 := by
  simp [owed, List.countP_cons]

@[simp] theorem owed_append (h : Heap) (l r : List Hand) (s t : NodeId) :
    h.owed (l ++ r) s t = h.owed l s t + h.owed r s t := List.countP_append

@[simp] theorem owed_free (h : Heap) (vs : List Value) (s t : NodeId) :
    h.owed (vs.map (Prod.mk none)) s t = 0 := by
  simp [owed, List.countP_eq_zero]

@[simp] theorem rootsOn_append (h : Heap) (l r : List Hand) (id : NodeId) :
    h.rootsOn (l ++ r) id = h.rootsOn l id + h.rootsOn r id := List.countP_append

theorem rootsOn_free {vs : List Value} (hvs : ∀ v ∈ vs, v.isRooted = false) (h : Heap)
    (o : Option NodeId) (id : NodeId) : h.rootsOn (vs.map (Prod.mk o)) id = 0 := by
  rw [rootsOn, List.countP_eq_zero]
  intro hand hhand
  obtain ⟨v, hv, rfl⟩ := List.mem_map.1 hhand
  simp [hvs v hv]

@[simp] theorem rootsOn_nil (h : Heap) (id : NodeId) : h.rootsOn [] id = 0 := rfl

@[simp] theorem rootsOn_cons (h : Heap) (hand : Hand) (hands : List Hand) (id : NodeId) :
    h.rootsOn (hand :: hands) id =
      h.rootsOn hands id + if hand.2.isRooted = true ∧ h.node? hand.2 = some id then 1 else 0 := by
  simp [rootsOn, List.countP_cons]

theorem node?_eq {a : Address} {b : Block} {v : Value} (ha : v.target? = some a)
    (hb : h.block? a = some b) : h.node? v = b.node := by
  simp [node?, ha, hb]

theorem node?_eq_none {v : Value} (hv : v.target? = none) : h.node? v = none := by
  simp [node?, hv]

theorem node?_eq_some {v : Value} {id : NodeId} (hv : h.node? v = some id) :
    ∃ a b, v.target? = some a ∧ h.block? a = some b ∧ b.node = some id := by
  obtain ⟨b, hb, hnode⟩ := Option.bind_eq_some_iff.1 hv
  obtain ⟨a, ha, hb⟩ := Option.bind_eq_some_iff.1 hb
  exact ⟨a, b, ha, hb, hnode⟩

theorem node?_modify {a : Address} {f : Block → Block} (hf : ∀ b, (f b).node = b.node) (v : Value) :
    (h.modify a f).node? v = h.node? v := by
  cases hv : v.target? with
  | none => rw [node?_eq_none hv, node?_eq_none hv]
  | some x =>
    simp only [node?, hv, Option.bind_some, block?_modify]
    split_ifs with hx
    · subst hx
      cases h.block? x <;> simp [hf]
    · rfl

theorem node?_retain (v w : Value) : (h.retain v).node? w = h.node? w := by
  unfold Heap.retain
  split
  · apply node?_modify
    intro b
    rfl
  · rfl

theorem node?_retainAll (ws : List Value) (w : Value) : (ws.foldl Heap.retain h).node? w = h.node? w := by
  induction ws generalizing h with
  | nil => rfl
  | cons v ws ih => exact ih.trans (node?_retain v w)

/-- Blocks that stay keep their nodes, and those that come have none. -/
structure SameNodes (h h' : Heap) : Prop where
  size : h.blocks.size ≤ h'.blocks.size
  node : ∀ a b', h'.block? a = some b' →
    (∃ b, h.block? a = some b ∧ b'.node = b.node) ∨ h.blocks.size ≤ a ∧ b'.node = none

theorem SameNodes.node? (hsame : h.SameNodes h') {v : Value}
    (halive : ∀ a, v.target? = some a → ∃ b', h'.block? a = some b') : h'.node? v = h.node? v := by
  cases hv : v.target? with
  | none => rw [node?_eq_none hv, node?_eq_none hv]
  | some a =>
    obtain ⟨b', hb'⟩ := halive a hv
    rcases hsame.node a b' hb' with ⟨b, hb, hnode⟩ | ⟨hnew, hnode⟩
    · rw [node?_eq hv hb', node?_eq hv hb, hnode]
    · rw [node?_eq hv hb', hnode, Heap.node?, hv, Option.bind_some, block?_of_size_le hnew]
      rfl

theorem Evolves.sameNodes {ins outs : List Value} (he : h.Evolves ins h' outs)
    (hsize : h'.blocks.size = h.blocks.size) : h.SameNodes h' :=
  ⟨hsize.ge, fun a b' hb' => Or.inl (he.node a b' (hsize ▸ lt_of_block? hb') hb')⟩

theorem tracked_congr {t : NodeId} {vs : List Value} (heq : ∀ v ∈ vs, h'.node? v = h.node? v) :
    h'.tracked t vs = h.tracked t vs := by
  apply List.countP_congr
  intro v hv
  rw [heq v hv]

theorem owed_congr {hands : List Hand} {s t : NodeId}
    (heq : ∀ hand ∈ hands, h'.node? hand.2 = h.node? hand.2) : h'.owed hands s t = h.owed hands s t := by
  apply List.countP_congr
  intro hand hhand
  rw [heq hand hhand]

theorem rootsOn_congr {hands : List Hand} {id : NodeId}
    (heq : ∀ hand ∈ hands, h'.node? hand.2 = h.node? hand.2) :
    h'.rootsOn hands id = h.rootsOn hands id := by
  apply List.countP_congr
  intro hand hhand
  rw [heq hand hhand]

end
end Heap

namespace Memory

/-- The collector's account of the heap and of the hands. -/
structure Mirrors (covering exact counted : Prop) (m : Memory) (c : Collector Tracked)
    (hands : List Hand) : Prop where
  collector : m.collector = some c
  tidy : c.Tidy
  supports : m.heap.Supports (hands.map Prod.snd)
  owners : ∀ id, some id ∈ hands.map Prod.fst → c.contains id = true
  /-- Data names a live node that stands for it. -/
  linked : ∀ a b id, m.heap.block? a = some b → b.node = some id →
    ∃ n, c.node? id = some n ∧ n.payload = .array a
  known : ∀ id n a, c.node? id = some n → n.payload = .array a → a < m.heap.blocks.size
  /-- A live node's data names it. -/
  tied : ∀ id n a b, c.node? id = some n → n.payload = .array a → m.heap.block? a = some b →
    b.node = some id
  covered : covering → ∀ a b id n t, m.heap.block? a = some b → b.node = some id → c.node? id = some n →
    m.heap.tracked t b.cells + m.heap.owed hands id t ≤ n.edges.weight t
  tight : covering → exact → ∀ a b id n t, m.heap.block? a = some b → b.node = some id → c.node? id = some n →
    n.edges.weight t ≤ m.heap.tracked t b.cells + m.heap.owed hands id t
  rooted : counted → ∀ id n, c.node? id = some n → n.roots = m.heap.rootsOn hands id
  plain : counted → ∀ a b v, m.heap.block? a = some b → v ∈ b.cells → v.isRooted = false

section
variable {covering exact counted : Prop} {m : Memory} {c c' : Collector Tracked} {hands hands' : List Hand}

/-- A change after which every node's account is out by as much on both sides. -/
theorem Mirrors.change (hm : Mirrors covering exact counted m c hands) {m' : Memory}
    (hcollector : m'.collector = some c') (htidy : c'.Tidy)
    (hsupports : m'.heap.Supports (hands'.map Prod.snd))
    (howners : ∀ id, some id ∈ hands'.map Prod.fst → c.contains id = true)
    (hnodes : m.heap.SameNodes m'.heap)
    (hlive : ∀ id, (c'.node? id).map (·.payload) = (c.node? id).map (·.payload))
    (hduty : covering → ∀ a b b' id n n' t, m.heap.block? a = some b → m'.heap.block? a = some b' →
      b.node = some id → c.node? id = some n → c'.node? id = some n' →
      m'.heap.tracked t b'.cells + m'.heap.owed hands' id t + n.edges.weight t =
        m.heap.tracked t b.cells + m.heap.owed hands id t + n'.edges.weight t)
    (hroots : counted → ∀ id n n', c.node? id = some n → c'.node? id = some n' →
      m'.heap.rootsOn hands' id + n.roots = m.heap.rootsOn hands id + n'.roots)
    (hplain : counted → ∀ a b' v, m'.heap.block? a = some b' → v ∈ b'.cells → v.isRooted = false) :
    Mirrors covering exact counted m' c' hands' := by
  have hold : ∀ {id n'}, c'.node? id = some n' → ∃ n, c.node? id = some n ∧ n.payload = n'.payload := by
    intro id n' hn'
    have heq := hlive id
    rw [hn', Option.map_some] at heq
    exact Option.map_eq_some_iff.1 heq.symm
  have hnew : ∀ {id n}, c.node? id = some n → ∃ n', c'.node? id = some n' ∧ n'.payload = n.payload := by
    intro id n hn
    have heq := hlive id
    rw [hn, Option.map_some] at heq
    exact Option.map_eq_some_iff.1 heq
  -- a block with a node was there before
  have hback : ∀ {a b' id}, m'.heap.block? a = some b' → b'.node = some id →
      ∃ b, m.heap.block? a = some b ∧ b.node = some id := by
    intro a b' id hb' hid
    rcases hnodes.node a b' hb' with ⟨b, hb, hnode⟩ | ⟨-, hnone⟩
    · exact ⟨b, hb, hnode ▸ hid⟩
    · rw [hid] at hnone
      cases hnone
  refine ⟨hcollector, htidy, hsupports, ?_, ?_, ?_, ?_, ?_, ?_, ?_, hplain⟩
  · intro id hid
    obtain ⟨n, hn⟩ := (c.contains_iff id).1 (howners id hid)
    obtain ⟨n', hn', -⟩ := hnew hn
    exact Collector.contains_of_node? hn'
  · intro a b' id hb' hid
    obtain ⟨b, hb, hid⟩ := hback hb' hid
    obtain ⟨n, hn, hpay⟩ := hm.linked a b id hb hid
    obtain ⟨n', hn', hpay'⟩ := hnew hn
    exact ⟨n', hn', hpay'.trans hpay⟩
  · intro id n' a hn' hpay
    obtain ⟨n, hn, hpay'⟩ := hold hn'
    exact (hm.known id n a hn (hpay'.trans hpay)).trans_le hnodes.size
  · intro id n' a b' hn' hpay hb'
    obtain ⟨n, hn, hpay'⟩ := hold hn'
    rcases hnodes.node a b' hb' with ⟨b, hb, hnode⟩ | ⟨hsize, -⟩
    · rw [hnode]
      exact hm.tied id n a b hn (hpay'.trans hpay) hb
    · exact absurd (hm.known id n a hn (hpay'.trans hpay)) (Nat.not_lt.2 hsize)
  · intro hcovering a b' id n' t hb' hid hn'
    obtain ⟨b, hb, hid⟩ := hback hb' hid
    obtain ⟨n, hn, -⟩ := hold hn'
    have hcov := hm.covered hcovering a b id n t hb hid hn
    have hsame := hduty hcovering a b b' id n n' t hb hb' hid hn hn'
    omega
  · intro hcovering hexact a b' id n' t hb' hid hn'
    obtain ⟨b, hb, hid⟩ := hback hb' hid
    obtain ⟨n, hn, -⟩ := hold hn'
    have htight := hm.tight hcovering hexact a b id n t hb hid hn
    have hsame := hduty hcovering a b b' id n n' t hb hb' hid hn hn'
    omega
  · intro hcounted id n' hn'
    obtain ⟨n, hn, -⟩ := hold hn'
    have hcount := hm.rooted hcounted id n hn
    have hsame := hroots hcounted id n n' hn hn'
    omega

theorem Mirrors.rehand (hm : Mirrors covering exact counted m c hands)
    (hsupports : m.heap.Supports (hands'.map Prod.snd))
    (howners : ∀ id, some id ∈ hands'.map Prod.fst → c.contains id = true)
    (howed : ∀ s t, m.heap.owed hands' s t = m.heap.owed hands s t)
    (hroots : ∀ id, m.heap.rootsOn hands' id = m.heap.rootsOn hands id) :
    Mirrors covering exact counted m c hands' := by
  refine hm.change hm.collector hm.tidy hsupports howners
    ⟨le_rfl, fun a b hb => Or.inl ⟨b, hb, rfl⟩⟩ (fun _ => rfl)
    ?_ ?_ hm.plain
  · intro _ a b b' id n n' t hb hb' _ hn hn'
    obtain rfl := Option.some.inj (hb.symm.trans hb')
    obtain rfl := Option.some.inj (hn.symm.trans hn')
    rw [howed]
  · intro _ id n n' hn hn'
    obtain rfl := Option.some.inj (hn.symm.trans hn')
    rw [hroots]

theorem Mirrors.perm (hm : Mirrors covering exact counted m c hands) (hp : hands.Perm hands') :
    Mirrors covering exact counted m c hands' :=
  hm.rehand (hm.supports.perm (hp.map _)) (fun id hid => hm.owners id ((hp.map _).symm.subset hid))
    (fun _ _ => (hp.countP_eq _).symm) (fun _ => (hp.countP_eq _).symm)

theorem Mirrors.drop_null {hand : Hand} (hm : Mirrors covering exact counted m c (hand :: hands))
    (hnull : hand.2.target? = none) : Mirrors covering exact counted m c hands := by
  refine hm.rehand hm.supports.tail (fun id hid => hm.owners id (List.mem_cons_of_mem _ hid)) ?_ ?_
  · simp [Heap.node?_eq_none hnull]
  · simp [Heap.node?_eq_none hnull]

theorem Mirrors.add_null (hm : Mirrors covering exact counted m c hands) (hand : Hand)
    (hnull : hand.2.target? = none) (howner : ∀ id, hand.1 = some id → c.contains id = true) :
    Mirrors covering exact counted m c (hand :: hands) := by
  refine hm.rehand ?_ ?_ ?_ ?_
  · exact hm.supports.of_le (by simp [hnull])
  · intro id hid
    rcases List.mem_cons.1 hid with hid | hid
    · exact howner id hid.symm
    · exact hm.owners id hid
  · simp [Heap.node?_eq_none hnull]
  · simp [Heap.node?_eq_none hnull]

theorem Mirrors.disown {o : Option NodeId} {v : Value}
    (hm : Mirrors covering exact counted m c ((o, v) :: hands)) (hfree : exact → m.heap.node? v = none) :
    Mirrors covering exact counted m c ((none, v) :: hands) := by
  refine ⟨hm.collector, hm.tidy, hm.supports, ?_, hm.linked, hm.known, hm.tied, ?_, ?_, ?_, hm.plain⟩
  · intro id hid
    rcases List.mem_cons.1 hid with hid | hid
    · cases hid
    · exact hm.owners id (List.mem_cons_of_mem _ hid)
  · intro hcovering a b id n t hb hid hn
    have hcov := hm.covered hcovering a b id n t hb hid hn
    simp only [Heap.owed_cons] at hcov ⊢
    simp only [reduceCtorEq, false_and, if_false]
    omega
  · intro hcovering hexact a b id n t hb hid hn
    have htight := hm.tight hcovering hexact a b id n t hb hid hn
    simpa [hfree hexact] using htight
  · intro hcounted id n hn
    simpa using hm.rooted hcounted id n hn

/-! ### Holders -/

theorem Mirrors.retain (hm : Mirrors covering exact counted m c hands) {v : Value}
    (halive : ∀ a, v.target? = some a → ∃ b, m.heap.block? a = some b) :
    Mirrors covering exact counted (m.retain v) c ((none, v.share) :: hands) := by
  have hsame := Heap.sameRows_retain m.heap v
  have hnodes : m.heap.SameNodes (m.heap.retain v) :=
    (Heap.evolves_retain m.heap v []).sameNodes hsame.size
  have hrows : ∀ {a b b'}, m.heap.block? a = some b → (m.heap.retain v).block? a = some b' →
      b'.rows = b.rows := by
    intro a b b' hb hb'
    have heq := hsame.rows a
    rw [hb, hb'] at heq
    exact Option.some.inj heq
  refine hm.change hm.collector hm.tidy ?_ ?_ hnodes (fun _ => rfl) ?_ ?_ ?_
  · refine (hm.supports.retain halive).of_le ?_
    simp
  · intro id hid
    rcases List.mem_cons.1 hid with hid | hid
    · cases hid
    · exact hm.owners id hid
  · intro _ a b b' id n n' t hb hb' _ hn hn'
    obtain rfl := Option.some.inj (hn.symm.trans hn')
    rw [Block.cells_eq, hrows hb hb']
    simp only [Memory.retain, Heap.owed_cons, Heap.owed_congr fun hand _ => Heap.node?_retain v hand.2,
      Heap.tracked_congr fun w _ => Heap.node?_retain v w, Block.cells_eq]
    simp
  · intro _ id n n' hn hn'
    obtain rfl := Option.some.inj (hn.symm.trans hn')
    have hshare : v.share.isRooted = false := by cases v <;> rfl
    simp only [Memory.retain, Heap.rootsOn_cons,
      Heap.rootsOn_congr fun hand _ => Heap.node?_retain v hand.2]
    simp [hshare]
  · intro hcounted a b' w hb' hw
    obtain ⟨b, hb, -⟩ := (Heap.evolves_retain m.heap v []).node a b'
      (hsame.size ▸ Heap.lt_of_block? hb') hb'
    rw [Block.cells_eq, hrows hb hb'] at hw
    exact hm.plain hcounted a b w hb hw

theorem Mirrors.release {ws : List Value}
    (hm : Mirrors covering exact counted m c (ws.map (Prod.mk none) ++ hands))
    (hplain : counted → ∀ w ∈ ws, w.isRooted = false) : Mirrors covering exact counted (m.release ws) c hands := by
  have hsh := Heap.shrinks_release m.heap ws
  have hsupports : (m.heap.release ws).Supports (hands.map Prod.snd) := by
    apply Heap.Supports.release ws
    simpa [Function.comp_def] using hm.supports
  have hnodes : m.heap.SameNodes (m.heap.release ws) := (hsh.evolves []).sameNodes hsh.size
  have hhands : ∀ hand ∈ hands, (m.heap.release ws).node? hand.2 = m.heap.node? hand.2 :=
    fun hand hhand => hnodes.node? fun a ha => hsupports.alive (List.mem_map_of_mem hhand) ha
  refine hm.change hm.collector hm.tidy hsupports
    (fun id hid => hm.owners id (by simp [List.mem_map.1 hid])) hnodes (fun _ => rfl) ?_ ?_ ?_
  · intro _ a b b' id n n' t hb hb' _ hn hn'
    obtain rfl := Option.some.inj (hn.symm.trans hn')
    obtain ⟨b₀, hb₀, hrows, -⟩ := hsh.block a b' hb'
    obtain rfl := Option.some.inj (hb.symm.trans hb₀)
    have hcells : (m.heap.release ws).tracked t b'.cells = m.heap.tracked t b.cells := by
      rw [Block.cells_eq, hrows, ← Block.cells_eq]
      refine Heap.tracked_congr fun w hw => hnodes.node? fun x hx => ?_
      refine hsupports.cell_alive hb' ?_ hx
      rwa [Block.cells_eq, hrows]
    simp only [Memory.release, Heap.owed_append, Heap.owed_free, Heap.owed_congr hhands]
    omega
  · intro hcounted id n n' hn hn'
    obtain rfl := Option.some.inj (hn.symm.trans hn')
    simp only [Memory.release, Heap.rootsOn_append, Heap.rootsOn_congr hhands,
      Heap.rootsOn_free (hplain hcounted)]
    omega
  · intro hcounted a b' w hb' hw
    obtain ⟨b, hb, hrows, -⟩ := hsh.block a b' hb'
    rw [Block.cells_eq, hrows] at hw
    exact hm.plain hcounted a b w hb hw

theorem Mirrors.release_one {v : Value} (hm : Mirrors covering exact counted m c ((none, v) :: hands))
    (hplain : counted → v.isRooted = false) : Mirrors covering exact counted (m.release [v]) c hands := by
  have hlist : Mirrors covering exact counted m c ([v].map (Prod.mk none) ++ hands) := hm
  exact hlist.release (by simpa using hplain)

/-! ### Edges and roots -/

theorem Mirrors.node_live (hm : Mirrors covering exact counted m c hands) {v : Value} {id : NodeId}
    (hv : m.node? v = some id) : c.contains id = true := by
  obtain ⟨a, b, -, hb, hid⟩ := Heap.node?_eq_some hv
  obtain ⟨n, hn, -⟩ := hm.linked a b id hb hid
  exact Collector.contains_of_node? hn

theorem Mirrors.own {v : Value} (hm : Mirrors covering exact counted m c ((none, v) :: hands))
    (owner : Option NodeId) (howner : ∀ id, owner = some id → c.contains id = true) :
    Mirrors covering exact counted (m.modifyCollector (·.addReference owner (m.node? v)))
      (c.addReference owner (m.node? v)) ((owner, v) :: hands) := by
  have hlive : ∀ x, m.node? v = some x → c.contains x = true := fun x hx => hm.node_live hx
  refine hm.change (by simp [modifyCollector, hm.collector]) (hm.tidy.addReference _ _) hm.supports ?_
    ⟨le_rfl, fun a b hb => Or.inl ⟨b, hb, rfl⟩⟩ (c.payload_addReference _ _) ?_ ?_ hm.plain
  · intro id hid
    rcases List.mem_cons.1 hid with hid | hid
    · exact howner id hid.symm
    · exact hm.owners id (List.mem_cons_of_mem _ hid)
  · intro _ a b b' id n n' t hb hb' _ hn hn'
    obtain rfl := Option.some.inj (hb.symm.trans hb')
    have hweight := (hm.tidy.weight_addReference hlive hn hn').2 t
    simp only [heap_modifyCollector, Heap.owed_cons, reduceCtorEq, false_and, if_false] at hweight ⊢
    rw [Memory.node?] at hweight
    omega
  · intro _ id n n' hn hn'
    have hroots := (hm.tidy.weight_addReference hlive hn hn').1
    simp only [heap_modifyCollector, Heap.rootsOn_cons, hroots]

theorem Mirrors.release_owner {owner : Option NodeId} {v : Value}
    (hm : Mirrors covering exact counted m c ((owner, v) :: hands)) :
    Mirrors covering exact counted (m.modifyCollector (·.removeReference owner (m.node? v)))
      (c.removeReference owner (m.node? v)) ((none, v) :: hands) := by
  refine hm.change (by simp [modifyCollector, hm.collector]) (hm.tidy.removeReference _ _) hm.supports ?_
    ⟨le_rfl, fun a b hb => Or.inl ⟨b, hb, rfl⟩⟩ (c.payload_removeReference _ _) ?_ ?_ hm.plain
  · intro id hid
    rcases List.mem_cons.1 hid with hid | hid
    · cases hid
    · exact hm.owners id (List.mem_cons_of_mem _ hid)
  · intro hcovering a b b' id n n' t hb hb' hid hn hn'
    obtain rfl := Option.some.inj (hb.symm.trans hb')
    have hweight := (hm.tidy.weight_removeReference hn hn').2 t
    have hcov := hm.covered hcovering a b id n t hb hid hn
    simp only [heap_modifyCollector, Heap.owed_cons, reduceCtorEq, false_and, if_false] at hweight hcov ⊢
    rw [Memory.node?] at hweight
    omega
  · intro _ id n n' hn hn'
    have hroots := (hm.tidy.weight_removeReference hn hn').1
    simp only [heap_modifyCollector, Heap.rootsOn_cons, hroots]

theorem Mirrors.root {o : Option NodeId} {h : Handle} {id : NodeId}
    (hm : Mirrors covering exact counted m c ((o, .array { h with rooted := false }) :: hands))
    (hid : m.node? (.array h) = some id) :
    Mirrors covering exact counted (m.modifyCollector (·.makeRoot id)) (c.makeRoot id)
      ((o, .array { h with rooted := true }) :: hands) := by
  have hnode : ∀ r, m.heap.node? (.array { h with rooted := r }) = some id := fun _ => hid
  refine hm.change (by simp [modifyCollector, hm.collector]) (hm.tidy.makeRoot id) hm.supports
    hm.owners ⟨le_rfl, fun a b hb => Or.inl ⟨b, hb, rfl⟩⟩ (fun id' => ?_) ?_ ?_ hm.plain
  · apply Collector.payload_modifyNode
    intro n
    rfl
  · intro _ a b b' id' n n' t hb hb' _ hn hn'
    obtain rfl := Option.some.inj (hb.symm.trans hb')
    simp only [heap_modifyCollector, Heap.owed_cons, hnode, (Collector.roots_makeRoot hn hn').1]
  · intro _ id' n n' hn hn'
    have hroots := (Collector.roots_makeRoot hn hn').2
    simp only [heap_modifyCollector, Heap.rootsOn_cons, hnode, Value.isRooted, Bool.false_eq_true,
      false_and, true_and, if_false, Option.some.injEq, hroots]
    omega

theorem Mirrors.unroot {o : Option NodeId} {h : Handle} {id : NodeId}
    (hm : Mirrors covering exact counted m c ((o, .array { h with rooted := true }) :: hands))
    (hid : m.node? (.array h) = some id) :
    Mirrors covering exact counted (m.modifyCollector (·.removeRoot id)) (c.removeRoot id)
      ((o, .array { h with rooted := false }) :: hands) := by
  have hnode : ∀ r, m.heap.node? (.array { h with rooted := r }) = some id := fun _ => hid
  refine hm.change (by simp [modifyCollector, hm.collector]) (hm.tidy.removeRoot id) hm.supports
    hm.owners ⟨le_rfl, fun a b hb => Or.inl ⟨b, hb, rfl⟩⟩ (fun id' => ?_) ?_ ?_ hm.plain
  · apply Collector.payload_modifyNode
    intro n
    rfl
  · intro _ a b b' id' n n' t hb hb' _ hn hn'
    obtain rfl := Option.some.inj (hb.symm.trans hb')
    simp only [heap_modifyCollector, Heap.owed_cons, hnode, (Collector.roots_removeRoot hn hn').1]
  · intro hcounted id' n n' hn hn'
    have hroots := (Collector.roots_removeRoot hn hn').2
    have hcount := hm.rooted hcounted id' n hn
    simp only [heap_modifyCollector, Heap.rootsOn_cons, hnode, Value.isRooted, Bool.false_eq_true,
      false_and, true_and, if_false, Option.some.injEq, hroots] at hcount ⊢
    omega

/-- The flag of a hand that has no node counts for nothing. -/
theorem Mirrors.reflag {o : Option NodeId} {h : Handle} {r : Bool}
    (hm : Mirrors covering exact counted m c ((o, .array { h with rooted := r }) :: hands))
    (hid : m.node? (.array h) = none) (r' : Bool) :
    Mirrors covering exact counted m c ((o, .array { h with rooted := r' }) :: hands) := by
  have hnode : ∀ r, m.heap.node? (.array { h with rooted := r }) = none := fun _ => hid
  refine hm.rehand hm.supports hm.owners (fun s t => ?_) (fun id => ?_)
  · simp [hnode]
  · simp [hnode]

/-! ### Cells -/

theorem Mirrors.growAt (hm : Mirrors covering exact counted m c hands) (a : Address) (cell : Cell) :
    Mirrors covering exact counted (m.growAt a cell) c hands := by
  have hnodes : m.heap.SameNodes (m.growAt a cell).heap :=
    (evolves_growAt m a cell []).sameNodes (by simp [Memory.growAt])
  have hnode : ∀ v : Value, (m.growAt a cell).heap.node? v = m.heap.node? v :=
    Heap.node?_modify fun _ => rfl
  have hcells : ∀ {x b b'}, m.heap.block? x = some b → (m.growAt a cell).heap.block? x = some b' →
      b'.rows = b.rows ∨ b'.rows = b.rows.grow cell.1 cell.2 := by
    intro x b b' hb hb'
    simp only [Memory.growAt, Heap.block?_modify] at hb'
    split_ifs at hb' with hx
    · subst hx
      right
      rw [hb, Option.map_some, Option.some.injEq] at hb'
      rw [← hb']
    · left
      rw [Option.some.inj (hb.symm.trans hb')]
  refine hm.change hm.collector hm.tidy (supports_growAt hm.supports a cell) hm.owners hnodes
    (fun _ => rfl) ?_ ?_ ?_
  · intro _ x b b' id n n' t hb hb' _ hn hn'
    obtain rfl := Option.some.inj (hn.symm.trans hn')
    rw [Heap.owed_congr fun hand _ => hnode hand.2, Heap.tracked_congr fun w _ => hnode w]
    rcases hcells hb hb' with hrows | hrows
    · rw [Block.cells_eq, hrows, Block.cells_eq]
    · rw [Block.cells_eq, hrows, Block.cells_eq, Heap.tracked, Heap.tracked,
        Rows.countP_cells_grow (by simp [Heap.node?, Value.target?])]
  · intro _ id n n' hn hn'
    obtain rfl := Option.some.inj (hn.symm.trans hn')
    rw [Heap.rootsOn_congr fun hand _ => hnode hand.2]
  · intro hcounted x b' v hb' hv
    rcases hnodes.node x b' hb' with ⟨b, hb, -⟩ | ⟨hx, -⟩
    · rcases hcells hb hb' with hrows | hrows
      · rw [Block.cells_eq, hrows] at hv
        exact hm.plain hcounted x b v hb hv
      · rw [Block.cells_eq, hrows] at hv
        rcases Rows.mem_cells_grow hv with rfl | hv
        · rfl
        · exact hm.plain hcounted x b v hb hv
    · have hlt := Heap.lt_of_block? hb'
      simp only [Memory.growAt, Heap.size_modify] at hlt
      exact absurd hlt (Nat.not_lt.2 hx)

section
variable {a : Address} {b : Block} {cell : Cell} {old : Value}

theorem node?_putCell (m : Memory) (a : Address) (cell : Cell) (v w : Value) :
    (m.putCell a cell v).heap.node? w = m.heap.node? w := by
  apply Heap.node?_modify
  intro b
  rfl

theorem block?_putCell_cases {v : Value} {x : Address} {b₀ b' : Block} (hb : m.heap.block? a = some b)
    (hb₀ : m.heap.block? x = some b₀) (hb' : (m.putCell a cell v).heap.block? x = some b') :
    x = a ∧ b₀ = b ∧ b'.rows = b.rows.set cell.1 cell.2 v ∨ x ≠ a ∧ b' = b₀ := by
  simp only [Memory.putCell, Heap.block?_modify] at hb'
  split_ifs at hb' with hx
  · subst hx
    obtain rfl := Option.some.inj (hb.symm.trans hb₀)
    rw [hb, Option.map_some, Option.some.injEq] at hb'
    exact Or.inl ⟨rfl, rfl, by rw [← hb']⟩
  · exact Or.inr ⟨hx, (Option.some.inj (hb₀.symm.trans hb')).symm⟩

theorem tracked_putCell (hold : Rows.cell? b.rows cell.1 cell.2 = some old) (h : Heap) (v : Value)
    (t : NodeId) :
    h.tracked t (Rows.cells (b.rows.set cell.1 cell.2 v)) + (if h.node? old = some t then 1 else 0) =
      h.tracked t b.cells + if h.node? v = some t then 1 else 0 := by
  have hcount := Rows.countP_cells_set (fun v => decide (h.node? v = some t)) hold v
  simpa [Heap.tracked, Block.cells_eq, List.countP_cons] using hcount

theorem Mirrors.same_address (hm : Mirrors covering exact counted m c hands) {x : Address} {b₀ : Block}
    {id : NodeId} (hb : m.heap.block? a = some b) (hid : b.node = some id)
    (hb₀ : m.heap.block? x = some b₀) (hid₀ : b₀.node = some id) : x = a := by
  obtain ⟨n, hn, hpay⟩ := hm.linked a b id hb hid
  obtain ⟨n₀, hn₀, hpay₀⟩ := hm.linked x b₀ id hb₀ hid₀
  obtain rfl := Option.some.inj (hn.symm.trans hn₀)
  exact Tracked.array.inj (hpay₀.symm.trans hpay)

theorem Mirrors.plain_putCell {o : Option NodeId} {v : Value}
    (hm : Mirrors covering exact counted m c ((o, v) :: hands)) (hb : m.heap.block? a = some b)
    (hold : Rows.cell? b.rows cell.1 cell.2 = some old) (hv : counted → v.isRooted = false)
    (hcounted : counted) : ∀ x b' w, (m.putCell a cell v).heap.block? x = some b' → w ∈ b'.cells →
      w.isRooted = false := by
  intro x b' w hb' hw
  obtain ⟨b₀, hb₀, -⟩ := (evolves_putCell hb hold v).node x b' (by
    have hlt := Heap.lt_of_block? hb'
    simpa only [Memory.putCell, Heap.size_modify] using hlt) hb'
  rcases block?_putCell_cases hb hb₀ hb' with ⟨rfl, rfl, hrows⟩ | ⟨-, rfl⟩
  · rw [Block.cells_eq, hrows] at hw
    rcases Rows.mem_cells_set hold hw with rfl | hw
    · exact hv hcounted
    · exact hm.plain hcounted x b₀ w hb hw
  · exact hm.plain hcounted x b' w hb₀ hw

/-- A hand of an array's node and a cell of the array change places. -/
theorem Mirrors.exchange {v : Value} (hm : Mirrors covering exact counted m c ((b.node, v) :: hands))
    (hb : m.heap.block? a = some b) (hold : Rows.cell? b.rows cell.1 cell.2 = some old)
    (hv : counted → v.isRooted = false) :
    Mirrors covering exact counted (m.putCell a cell v) c ((b.node, old) :: hands) := by
  have hnodes : m.heap.SameNodes (m.putCell a cell v).heap :=
    (evolves_putCell hb hold v).sameNodes (by simp [Memory.putCell])
  refine hm.change hm.collector hm.tidy (supports_putCell hm.supports hb hold) hm.owners hnodes
    (fun _ => rfl) ?_ ?_ (hm.plain_putCell hb hold hv)
  · intro _ x b₀ b' id n n' t hb₀ hb' hid hn hn'
    obtain rfl := Option.some.inj (hn.symm.trans hn')
    simp only [Heap.owed_cons, Heap.owed_congr fun hand _ => node?_putCell m a cell v hand.2,
      Heap.tracked_congr fun w _ => node?_putCell m a cell v w]
    rcases block?_putCell_cases hb hb₀ hb' with ⟨-, rfl, hrows⟩ | ⟨hx, rfl⟩
    · have hset := tracked_putCell hold m.heap v t
      rw [Block.cells_eq, hrows, hid]
      simp only [true_and]
      omega
    · have hne : b.node ≠ some id := fun heq => hx (hm.same_address hb heq hb₀ hid)
      simp [hne]
  · intro hcounted id n n' hn hn'
    obtain rfl := Option.some.inj (hn.symm.trans hn')
    have hplain := hm.plain hcounted a b old hb (Rows.mem_cells_of_cell? hold)
    simp only [Heap.rootsOn_cons, Heap.rootsOn_congr fun hand _ => node?_putCell m a cell v hand.2]
    simp [hplain, hv hcounted]

/-- A store: the array's edge moves from the old content to the new. -/
theorem Mirrors.relink {new : Value} (hm : Mirrors covering exact counted m c ((none, new) :: hands))
    (hb : m.heap.block? a = some b) (hold : Rows.cell? b.rows cell.1 cell.2 = some old)
    (hnew : counted → new.isRooted = false) (m' : Memory)
    (hheap : m'.heap = (m.putCell a cell new).heap)
    (hcollector : m'.collector =
      some ((c.removeReference b.node (m.node? old)).addReference b.node (m.node? new))) :
    ∃ c', Mirrors covering exact counted m' c' ((none, old) :: hands) := by
  have hcut := hm.tidy.removeReference b.node (m.node? old)
  have hlive : ∀ x, m.node? new = some x →
      (c.removeReference b.node (m.node? old)).contains x = true := by
    intro x hx
    rw [Collector.contains_removeReference]
    exact hm.node_live hx
  refine ⟨_, hm.change hcollector (hcut.addReference _ _) ?_ hm.owners ?_ (fun id => ?_) ?_ ?_ ?_⟩
  · rw [hheap]
    exact supports_putCell hm.supports hb hold
  · rw [hheap]
    exact (evolves_putCell hb hold new).sameNodes (by simp [Memory.putCell])
  · rw [Collector.payload_addReference, Collector.payload_removeReference]
  · intro hcovering x b₀ b' id n n' t hb₀ hb' hid hn hn'
    rw [hheap] at hb' ⊢
    obtain ⟨n₁, hn₁⟩ : ∃ n₁, (c.removeReference b.node (m.node? old)).node? id = some n₁ := by
      rw [← Collector.contains_iff, Collector.contains_removeReference]
      exact Collector.contains_of_node? hn
    have hcutw := (hm.tidy.weight_removeReference hn hn₁).2 t
    have haddw := (hcut.weight_addReference hlive hn₁ hn').2 t
    have hcov := hm.covered hcovering x b₀ id n t hb₀ hid hn
    simp only [Heap.owed_cons, Heap.owed_congr fun hand _ => node?_putCell m a cell new hand.2,
      Heap.tracked_congr fun w _ => node?_putCell m a cell new w, reduceCtorEq, false_and,
      if_false, Memory.node?] at hcutw haddw hcov ⊢
    rcases block?_putCell_cases hb hb₀ hb' with ⟨-, rfl, hrows⟩ | ⟨hx, rfl⟩
    · have hset := tracked_putCell hold m.heap new t
      -- the old content is one of the cells, so its edge is there to be moved
      have hthere : (if m.heap.node? old = some t then 1 else 0) ≤ m.heap.tracked t b₀.cells := by
        split_ifs with ht
        · exact List.countP_pos_iff.2 ⟨old, Rows.mem_cells_of_cell? hold, by simpa using ht⟩
        · exact Nat.zero_le _
      rw [Block.cells_eq, hrows]
      simp only [hid, true_and] at hcutw haddw
      omega
    · have hne : b.node ≠ some id := fun heq => hx (hm.same_address hb heq hb₀ hid)
      simp only [hne, false_and, if_false] at hcutw haddw
      omega
  · intro hcounted id n n' hn hn'
    obtain ⟨n₁, hn₁⟩ : ∃ n₁, (c.removeReference b.node (m.node? old)).node? id = some n₁ := by
      rw [← Collector.contains_iff, Collector.contains_removeReference]
      exact Collector.contains_of_node? hn
    have hcutr := (hm.tidy.weight_removeReference hn hn₁).1
    have haddr := (hcut.weight_addReference hlive hn₁ hn').1
    have hplain := hm.plain hcounted a b old hb (Rows.mem_cells_of_cell? hold)
    rw [hheap]
    simp only [Heap.rootsOn_cons, Heap.rootsOn_congr fun hand _ => node?_putCell m a cell new hand.2,
      hplain, hnew hcounted, Bool.false_eq_true, false_and, if_false]
    omega
  · rw [hheap]
    exact hm.plain_putCell hb hold hnew

end

end

end Memory
end ScriptVm
