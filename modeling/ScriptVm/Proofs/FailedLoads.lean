import ScriptVm.Proofs.EdgeIntegrity
import ScriptVm.Proofs.Histories

/-! A load that fails. What it had built goes again, block by block, so that the heap holds what it held.
The nodes of those blocks stay behind until the next pass, but nothing anchors them and they lead to each
other alone: to the nodes from before and to the check of their edges they are not there. -/

namespace ScriptVm

namespace Collector
variable {π : Type} {P : π → Prop} {c c' : Collector π}

/-- A collector with further nodes, none of which is a root or leads to a node from before. -/
structure Joined (P : π → Prop) (c c' : Collector π) : Prop where
  tidy : c'.Tidy
  kept : ∀ id n, c.node? id = some n → c'.node? id = some n
  loose : ∀ id n, c'.node? id = some n → c.node? id = none →
    n.roots = 0 ∧ P n.payload ∧ ∀ t ∈ n.edges.targets, c.node? t = none
  run : ∃ ops, c' = c.performAll ops

theorem Tidy.joined (h : c.Tidy) : c.Joined P c := by
  refine ⟨h, fun _ _ hn => hn, fun id n hn hnone => ?_, [], rfl⟩
  rw [hnone] at hn
  cases hn

theorem Joined.fresh (hj : c.Joined P c') {id : NodeId} (hid : c'.node? id = none) : c.node? id = none := by
  cases hn : c.node? id with
  | none => rfl
  | some n =>
    rw [hj.kept id n hn] at hid
    cases hid

theorem Joined.construct (hj : c.Joined P c') {p : π} (hp : P p) : c.Joined P (c'.construct p).2 := by
  have hnew : c.node? (c'.construct p).1 = none := hj.fresh (hj.tidy.node?_fresh p)
  obtain ⟨ops, hops⟩ := hj.run
  refine ⟨hj.tidy.construct p, fun id n hn => ?_, fun id n hn hnone => ?_, ops ++ [.construct p], ?_⟩
  · rw [hj.tidy.node?_construct, if_neg]
    · exact hj.kept id n hn
    · rintro rfl
      rw [hnew] at hn
      cases hn
  · rw [hj.tidy.node?_construct] at hn
    split_ifs at hn
    · obtain rfl := Option.some.inj hn
      exact ⟨rfl, hp, nofun⟩
    · exact hj.loose id n hn hnone
  · rw [performAll_append, ← hops]
    rfl

theorem Joined.addReference (hj : c.Joined P c') {s t : NodeId} (hs : c.node? s = none) (ht : c.node? t = none) :
    c.Joined P (c'.addReference (some s) (some t)) := by
  obtain ⟨ops, hops⟩ := hj.run
  have hrun : c'.addReference (some s) (some t) = c.performAll (ops ++ [.addReference (some s) (some t)]) := by
    rw [performAll_append, ← hops]
    rfl
  refine ⟨hj.tidy.addReference _ _, fun id n hn => ?_, fun id n hn hnone => ?_, _, hrun⟩
  · have hne : id ≠ s := by
      rintro rfl
      rw [hs] at hn
      cases hn
    unfold Collector.addReference
    dsimp only
    split_ifs
    · rw [node?_modifyNode, if_neg hne]
      exact hj.kept id n hn
    · exact hj.kept id n hn
  · unfold Collector.addReference at hn
    dsimp only at hn
    split_ifs at hn
    · rw [node?_modifyNode] at hn
      split_ifs at hn with hid
      · subst hid
        obtain ⟨n', hn', rfl⟩ := Option.map_eq_some_iff.1 hn
        obtain ⟨hroots, hpay, htargets⟩ := hj.loose _ n' hn' hnone
        refine ⟨hroots, hpay, fun u hu => ?_⟩
        obtain ⟨edge, hedge, rfl⟩ := List.mem_map.1 hu
        rcases Edges.mem_add hedge with rfl | hedge
        · exact ht
        · exact htargets _ (List.mem_map_of_mem hedge)
      · exact hj.loose id n hn hnone
    · exact hj.loose id n hn hnone

theorem Joined.addAll (hj : c.Joined P c') {id : NodeId} (hid : c.node? id = none) {targets : List NodeId}
    (ht : ∀ t ∈ targets, c.node? t = none) : c.Joined P (c'.addAll id targets) := by
  induction targets generalizing c' with
  | nil => exact hj
  | cons t targets ih =>
    exact ih (hj.addReference hid (ht t List.mem_cons_self)) fun u hu => ht u (List.mem_cons_of_mem _ hu)

/-! ### A pass with the further nodes -/

theorem Joined.references (hj : c.Joined P c') {id : NodeId} (hid : c.contains id = true) :
    c'.references id = c.references id := by
  obtain ⟨n, hn⟩ := (contains_iff c id).1 hid
  rw [references_eq hn, references_eq (hj.kept id n hn)]

theorem Joined.isRoot_iff (hj : c.Joined P c') (id : NodeId) : c'.isRoot id = true ↔ c.isRoot id = true := by
  rw [Collector.isRoot_iff, Collector.isRoot_iff]
  constructor
  · rintro ⟨n, hn, hroots⟩
    cases hold : c.node? id with
    | none => exact absurd (hj.loose id n hn hold).1 hroots.ne'
    | some n₀ =>
      obtain rfl := Option.some.inj ((hj.kept id n₀ hold).symm.trans hn)
      exact ⟨n₀, rfl, hroots⟩
  · rintro ⟨n, hn, hroots⟩
    exact ⟨n, hj.kept id n hn, hroots⟩

theorem Joined.contains_source (hj : c.Joined P c') {source target : NodeId} (hsource : c'.contains source = true)
    (hedge : target ∈ (c'.references source).targets) (htarget : c.contains target = true) :
    c.contains source = true := by
  obtain ⟨n, hn⟩ := (contains_iff c' source).1 hsource
  rw [references_eq hn] at hedge
  cases hold : c.node? source with
  | none =>
    obtain ⟨n', hn'⟩ := (contains_iff c target).1 htarget
    rw [(hj.loose source n hn hold).2.2 target hedge] at hn'
    cases hn'
  | some n₀ => exact contains_of_node? hold

theorem Joined.reach_iff (hj : c.Joined P c') {extra : List NodeId} {id : NodeId} (hid : c.contains id = true) :
    c'.Reach (c'.Anchored extra) id ↔ c.Reach (c.Anchored extra) id := by
  constructor
  · intro hr
    induction hr with
    | start hs _ => exact .start (hs.imp_left (hj.isRoot_iff _).1) hid
    | edge hsource hedge _ ih =>
      have hold := hj.contains_source hsource.contains hedge hid
      exact .edge (ih hold) (hj.references hold ▸ hedge) hid
  · intro hr
    clear hid
    have hlive : ∀ {id}, c.contains id = true → c'.contains id = true := by
      intro id hid
      obtain ⟨n, hn⟩ := (contains_iff c id).1 hid
      exact contains_of_node? (hj.kept id n hn)
    induction hr with
    | start hs hc => exact .start (hs.imp_left (hj.isRoot_iff _).2) (hlive hc)
    | edge hsource hedge hc ih =>
      exact .edge ih ((hj.references hsource.contains).symm ▸ hedge) (hlive hc)

theorem Joined.contains_of_reach (hj : c.Joined P c') (h : c.Tidy) {extra : List NodeId}
    (hextra : ∀ id ∈ extra, c'.contains id = true → c.contains id = true) {id : NodeId}
    (hr : c'.Reach (c'.Anchored extra) id) : c.contains id = true := by
  induction hr with
  | start hs hc =>
    rcases hs with hroot | hmem
    · obtain ⟨n, hn, -⟩ := (c.isRoot_iff _).1 ((hj.isRoot_iff _).1 hroot)
      exact contains_of_node? hn
    · exact hextra _ hmem hc
  | edge _ hedge _ hsource =>
    rw [hj.references hsource] at hedge
    obtain ⟨n, hn⟩ := (contains_iff c _).1 hsource
    exact h.closed _ n hn _ (references_eq hn ▸ hedge)

/-- A pass does to the nodes from before what it would have done without the further ones. -/
theorem Joined.node?_collect (hj : c.Joined P c') (h : c.Tidy) (extra : List NodeId) {id : NodeId}
    (hid : c.contains id = true) : (c'.collect extra).1.node? id = (c.collect extra).1.node? id := by
  apply Option.ext
  intro n
  obtain ⟨n₀, hn₀⟩ := (contains_iff c id).1 hid
  rw [hj.tidy.node?_collect_iff, h.node?_collect_iff, hj.reach_iff hid, hj.kept id n₀ hn₀, hn₀]

theorem Joined.node?_collect_all (hj : c.Joined P c') (h : c.Tidy) {extra : List NodeId}
    (hextra : ∀ id ∈ extra, c'.contains id = true → c.contains id = true) (id : NodeId) :
    (c'.collect extra).1.node? id = (c.collect extra).1.node? id := by
  by_cases hid : c.contains id = true
  · exact hj.node?_collect h extra hid
  · apply Option.ext
    intro n
    rw [hj.tidy.node?_collect_iff, h.node?_collect_iff]
    constructor
    · rintro ⟨-, hr⟩
      exact absurd (hj.contains_of_reach h hextra hr) hid
    · rintro ⟨-, hr⟩
      exact absurd hr.contains hid

/-! ### The check and the ids -/

theorem Joined.mismatchAt? (hj : c.Joined P c') {held : π → Option (List NodeId)} (hheld : ∀ p, P p → held p = none)
    (i : Nat) : c'.mismatchAt? held i = c.mismatchAt? held i := by
  -- a slot that has a node in both has the same node
  have hsame : ∀ {g n}, c.slots[i]? = some (.occupied g n) → c'.slots[i]? = some (.occupied g n) :=
    fun hslot => (c'.node?_eq_some_iff ⟨i, _⟩ _).1 (hj.kept _ _ ((c.node?_eq_some_iff ⟨i, _⟩ _).2 hslot))
  have hfurther : ∀ {g n}, (∀ n', c.slots[i]? ≠ some (.occupied g n')) → c'.slots[i]? = some (.occupied g n) →
      held n.payload = none := by
    intro g n hout hslot
    refine hheld _ (hj.loose ⟨i, g⟩ n ((c'.node?_eq_some_iff _ _).2 hslot) ?_).2.1
    by_contra hsome
    obtain ⟨n', hn'⟩ := Option.ne_none_iff_exists'.1 hsome
    exact hout n' ((c.node?_eq_some_iff ⟨i, g⟩ n').1 hn')
  unfold Collector.mismatchAt?
  split
  · rename_i g n hslot'
    rcases hslot : c.slots[i]? with _ | (⟨g₀, n₀⟩ | next)
    · rw [hfurther (fun n' => by simp [hslot]) hslot']
      rfl
    · obtain ⟨rfl, rfl⟩ := Slot.occupied.inj (Option.some.inj ((hsame hslot).symm.trans hslot'))
      rfl
    · rw [hfurther (fun n' => by simp [hslot]) hslot']
      rfl
  · rename_i hfree
    split
    · rename_i g n hslot
      exact absurd (hsame hslot) (hfree g n)
    · rfl

theorem mismatchAt?_of_size_le (held : π → Option (List NodeId)) {i : Nat} (hi : c.slots.size ≤ i) :
    c.mismatchAt? held i = none := by
  rw [Collector.mismatchAt?, Array.getElem?_eq_none hi]

theorem Joined.integrityCheck (hj : c.Joined P c') {held : π → Option (List NodeId)}
    (hheld : ∀ p, P p → held p = none) : c'.integrityCheck held = c.integrityCheck held := by
  have hrange : ∀ (d : Collector π) k, (∀ i, d.mismatchAt? held i = c.mismatchAt? held i) →
      (List.range (d.slots.size + k)).findSome? (c.mismatchAt? held) =
        (List.range d.slots.size).findSome? (d.mismatchAt? held) := by
    intro d k hsame
    have hbeyond : ((List.range k).map (d.slots.size + ·)).findSome? (c.mismatchAt? held) = none := by
      rw [List.findSome?_eq_none_iff]
      intro i hi
      obtain ⟨j, -, rfl⟩ := List.mem_map.1 hi
      rw [← hsame]
      exact mismatchAt?_of_size_le held (Nat.le_add_right _ j)
    rw [List.range_add, List.findSome?_append, hbeyond, Option.or_none, funext hsame]
  have hnew := hrange c' c.slots.size (hj.mismatchAt? hheld)
  have hold := hrange c c'.slots.size fun _ => rfl
  rw [Nat.add_comm, hold] at hnew
  unfold Collector.integrityCheck
  rw [hnew]

theorem constructed_performAll (c : Collector π) (ops : List (Operation π)) :
    (c.performAll ops).stats.constructed = c.stats.constructed + (c.issued ops).length := by
  induction ops generalizing c with
  | nil => rfl
  | cons op ops ih =>
    rw [issued, List.length_append, ← Nat.add_assoc]
    refine (ih _).trans (congrArg (· + _) ?_)
    cases op with
    | construct p =>
      change (c.construct p).2.stats.constructed = _
      rw [stats_construct]
      rfl
    | makeRoot id => rfl
    | removeRoot id => rfl
    | addReference s t => exact congrArg (·.constructed) (stats_addReference c s t)
    | removeReference s t => exact congrArg (·.constructed) (stats_removeReference c s t)
    | collect extra => exact congrArg (·.constructed) (stats_collect c extra)

/-- While generations last, no further node has an id that was issued before. -/
theorem Joined.contains_issued {ops : List (Operation π)} (hj : (performAll {} ops).Joined P c')
    (hfew : c'.stats.constructed < 2 ^ 32) {id : NodeId} (hissued : id ∈ issued {} ops)
    (hid : c'.contains id = true) : (performAll {} ops).contains id = true := by
  obtain ⟨further, rfl⟩ := hj.run
  have hlength := constructed_performAll ({} : Collector π) (ops ++ further)
  rw [performAll_append] at hlength
  have hdistinct : (issued {} (ops ++ further)).Nodup := by
    refine (accounted_new.performAll Reachable.new ?_).distinct
    rw [List.nil_append]
    have hstart : (({} : Collector π)).stats.constructed = 0 := rfl
    omega
  rw [issued_append, List.nodup_append] at hdistinct
  rcases (Reachable.new.performAll ops).contains_performAll hid with hlive | hagain
  · exact hlive
  · exact absurd rfl (hdistinct.2.2 id hissued id hagain)

end Collector

namespace Heap

/-- The heap without the blocks at a range of addresses. -/
def vacate (h : Heap) (lo hi : Nat) : Heap :=
  ⟨h.blocks.mapIdx fun a o => if lo ≤ a ∧ a < hi then none else o⟩

theorem getElem?_vacate (h : Heap) (lo hi x : Nat) :
    (h.vacate lo hi).blocks[x]? = h.blocks[x]?.map fun o => if lo ≤ x ∧ x < hi then none else o := by
  simp only [vacate, Array.getElem?_mapIdx]

theorem ext_blocks {h h' : Heap} (hall : ∀ x : Nat, h.blocks[x]? = h'.blocks[x]?) : h = h' :=
  congrArg Heap.mk (Array.ext_getElem? hall)

theorem block?_vacate (h : Heap) (lo hi a : Nat) :
    (h.vacate lo hi).block? a = if lo ≤ a ∧ a < hi then none else h.block? a := by
  simp only [block?, getElem?_vacate]
  rcases h.blocks[a]? with _ | o <;> split_ifs <;> rfl

theorem vacate_self (h : Heap) (a : Nat) : h.vacate a a = h := by
  refine ext_blocks fun x => ?_
  simp only [getElem?_vacate, show ¬(a ≤ x ∧ x < a) by omega, if_false, Option.map_id']

theorem vacate_vacate (h : Heap) {lo mid hi : Nat} (hlo : lo ≤ mid) (hhi : mid ≤ hi) :
    (h.vacate lo mid).vacate mid hi = h.vacate lo hi := by
  refine ext_blocks fun x => ?_
  simp only [getElem?_vacate, Option.map_map]
  congr 1
  funext o
  simp only [Function.comp_apply]
  split_ifs <;> first | rfl | omega

theorem put_vacate (h : Heap) {lo a : Nat} (hlo : lo ≤ a) :
    (h.put a none).vacate lo a = h.vacate lo (a + 1) := by
  refine ext_blocks fun x => ?_
  simp only [getElem?_vacate, put, Array.getElem?_setIfInBounds]
  by_cases hx : a = x
  · subst hx
    by_cases hin : a < h.blocks.size
    · simp [hin, hlo]
    · simp [hin]
  · rw [if_neg hx]
    congr 1
    funext o
    split_ifs <;> first | rfl | omega

/-- New blocks above the ones of a heap, which hang on these values alone. In whatever heap they stand,
dropping the values takes them and nothing else. -/
structure Sprouts (h h' : Heap) (vs : List Value) : Prop where
  size : h.blocks.size ≤ h'.blocks.size
  old : ∀ a : Nat, a < h.blocks.size → h'.block? a = h.block? a
  above : ∀ v ∈ vs, ∀ a : Nat, v.target? = some a → h.blocks.size ≤ a
  drops : ∀ (k : Heap) (work : List Value),
    (∀ a : Nat, h.blocks.size ≤ a → a < h'.blocks.size → k.block? a = h'.block? a) →
      k.release (vs ++ work) = (k.vacate h.blocks.size h'.blocks.size).release work

section
variable {h h₁ h₂ : Heap} {vs ws : List Value}

theorem sprouts_plain (h : Heap) (hvs : ∀ v ∈ vs, v.target? = none) : h.Sprouts h vs := by
  refine ⟨le_rfl, fun _ _ => rfl, fun v hv a ha => ?_, fun k work _ => ?_⟩
  · rw [hvs v hv] at ha
    cases ha
  · rw [vacate_self]
    refine release_congr ?_
    rw [List.filterMap_append, List.filterMap_eq_nil_iff.2 hvs, List.nil_append]

theorem Sprouts.trans (h₀₁ : h.Sprouts h₁ vs) (h₁₂ : h₁.Sprouts h₂ ws) : h.Sprouts h₂ (vs ++ ws) := by
  refine ⟨h₀₁.size.trans h₁₂.size, fun a ha => ?_, fun v hv a ha => ?_, fun k work hk => ?_⟩
  · rw [h₁₂.old a (ha.trans_le h₀₁.size), h₀₁.old a ha]
  · rcases List.mem_append.1 hv with hv | hv
    · exact h₀₁.above v hv a ha
    · exact h₀₁.size.trans (h₁₂.above v hv a ha)
  · rw [List.append_assoc, h₀₁.drops k _ fun a hlo hhi => ?_, h₁₂.drops _ _ fun a hlo hhi => ?_,
      vacate_vacate k h₀₁.size h₁₂.size]
    · rw [block?_vacate, if_neg (by omega), hk a (h₀₁.size.trans hlo) hhi]
    · rw [hk a hlo (hhi.trans_le h₁₂.size), h₁₂.old a hhi]

theorem Sprouts.place {rows : Rows} {v : Value} (hs : h.Sprouts h₁ (Rows.cells rows)) (hp : h₁.Placed rows h₂)
    (hv : v.target? = some h₁.blocks.size) : h.Sprouts h₂ [v] := by
  refine ⟨?_, fun a ha => ?_, fun w hw a ha => ?_, fun k work hk => ?_⟩
  · rw [hp.size]
    exact hs.size.trans (Nat.le_succ _)
  · rw [hp.other a (ha.trans_le hs.size).ne, hs.old a ha]
  · obtain rfl := List.mem_singleton.1 hw
    obtain rfl := Option.some.inj (hv.symm.trans ha)
    exact hs.size
  · obtain ⟨b, hb, hrows, hone⟩ := hp.block
    have htop : k.block? h₁.blocks.size = some b := by
      rw [hk _ hs.size (by rw [hp.size]; exact Nat.lt_succ_self _), hb]
    have hcells : b.cells = Rows.cells rows := by rw [Block.cells_eq, hrows]
    rw [List.singleton_append, release_held hv htop, if_pos hone.le, hcells, hs.drops _ _ fun a hlo hhi => ?_,
      put_vacate k hs.size, hp.size]
    rw [block?_put htop, if_neg hhi.ne, hk a hlo (by rw [hp.size]; exact hhi.trans (Nat.lt_succ_self _)),
      hp.other a hhi.ne]

end

end Heap

namespace Memory
variable {c₀ : Collector Tracked} {base : Nat} {m : Memory}

/-- The collector has only been joined by nodes of arrays above an address. -/
structure Aside (c₀ : Collector Tracked) (base : Nat) (m : Memory) : Prop where
  joined : ∃ c, m.collector = some c ∧ c₀.Joined (fun p => ∃ a : Nat, p = .array a ∧ base ≤ a) c
  size : base ≤ m.heap.blocks.size
  node : ∀ (a : Nat) b id, base ≤ a → m.heap.block? a = some b → b.node = some id → c₀.node? id = none

theorem Aside.newArray (hm : m.Aside c₀ base) {rows : Rows}
    (habove : ∀ v ∈ Rows.cells rows, ∀ a : Nat, v.target? = some a → base ≤ a) :
    (m.newArray rows).2.Aside c₀ base := by
  obtain ⟨c, hc, hj⟩ := hm.joined
  obtain ⟨id, c₁, hnew⟩ : ∃ id c₁, c.construct (.array m.heap.blocks.size) = (id, c₁) := ⟨_, _, rfl⟩
  obtain ⟨h', hheap⟩ : ∃ h', ((m.heap.alloc rows).2.modify m.heap.blocks.size
    fun b => { b with node := some id }) = h' := ⟨_, rfl⟩
  have htop : (m.heap.alloc rows).2.block? m.heap.blocks.size = some { rows := rows } := by
    rw [Heap.block?_alloc, if_pos rfl]
  have hregister : (m.newArray rows).2 = { heap := h', collector := some (c₁.addAll id (h'.heldNodes { rows := rows })) } :=
    register_eq (m := { m with heap := (m.heap.alloc rows).2 }) hc htop hnew hheap
  have hid : c₀.node? id = none := by
    have hfresh := hj.fresh (hj.tidy.node?_fresh (.array m.heap.blocks.size))
    rwa [hnew] at hfresh
  have hjoined : c₀.Joined (fun p => ∃ a : Nat, p = .array a ∧ base ≤ a) c₁ := by
    have hmore := hj.construct (p := .array m.heap.blocks.size) ⟨_, rfl, hm.size⟩
    rwa [hnew] at hmore
  have hnode : ∀ (a : Nat) b id', base ≤ a → h'.block? a = some b → b.node = some id' → c₀.node? id' = none := by
    intro a b id' ha hb hid'
    rw [← hheap, Heap.block?_modify, htop] at hb
    split_ifs at hb with htop'
    · obtain rfl := Option.some.inj hb
      obtain rfl := Option.some.inj hid'
      exact hid
    · rw [Heap.block?_alloc, if_neg htop'] at hb
      exact hm.node a b id' ha hb hid'
  rw [hregister]
  refine ⟨⟨_, rfl, hjoined.addAll hid fun t ht => ?_⟩, ?_, hnode⟩
  · obtain ⟨w, hw, hwt⟩ := List.mem_filterMap.1 ht
    obtain ⟨a, b, ha, hb, hbt⟩ := Heap.node?_eq_some hwt
    exact hnode a b t (habove w hw a ha) hb hbt
  · rw [← hheap, Heap.size_modify]
    exact hm.size.trans (by simp [Heap.alloc])

end Memory

namespace Tree
variable {α : Type} {c₀ : Collector Tracked} {base : Nat}

mutual

/-- Building a tree without handles leaves what there was and hangs all that is new on the value. -/
theorem sprouts_build (t : Tree α) {m : Memory} (hm : m.Aside c₀ base) (hflat : ∀ v ∈ t.leaves, v.target? = none) :
    m.heap.Sprouts (t.build (fun _ => true) m).2.heap [(t.build (fun _ => true) m).1] ∧
      (t.build (fun _ => true) m).2.Aside c₀ base := by
  cases t with
  | scalar v =>
    have hv : v.target? = none := hflat v (by simp [leaves])
    have hretain : m.retain v = m := by simp [Memory.retain, Heap.retain, hv]
    rw [build, Memory.share, hretain]
    exact ⟨Heap.sprouts_plain m.heap (by simpa using hv), hm⟩
  | null note => exact ⟨Heap.sprouts_plain m.heap (by simp [build, Value.target?]), hm⟩
  | back note => exact ⟨Heap.sprouts_plain m.heap (by simp [build, Value.target?]), hm⟩
  | array note rows =>
    rw [leaves] at hflat
    rw [build]
    obtain ⟨hsprouts, haside⟩ := sprouts_buildRows rows hm hflat
    rcases hbuilt : buildRows (fun _ => true) rows m with ⟨cells, m₁⟩
    rw [hbuilt] at hsprouts haside
    rw [← Rows.cells_ofLists] at hsprouts
    refine ⟨hsprouts.place (Memory.placed_newArray m₁ _) rfl, haside.newArray fun v hv a ha => ?_⟩
    exact hm.size.trans (hsprouts.above v hv a ha)

theorem sprouts_buildRows (rows : List (List (Tree α))) {m : Memory} (hm : m.Aside c₀ base)
    (hflat : ∀ v ∈ rowLeaves rows, v.target? = none) :
    m.heap.Sprouts (buildRows (fun _ => true) rows m).2.heap (buildRows (fun _ => true) rows m).1.flatten ∧
      (buildRows (fun _ => true) rows m).2.Aside c₀ base := by
  cases rows with
  | nil => exact ⟨Heap.sprouts_plain m.heap (by simp [buildRows]), hm⟩
  | cons row rows =>
    rw [rowLeaves, List.forall_mem_append] at hflat
    obtain ⟨hcells, haside⟩ := sprouts_buildCells row hm hflat.1
    obtain ⟨hrest, haside'⟩ := sprouts_buildRows rows haside hflat.2
    rw [buildRows]
    exact ⟨hcells.trans hrest, haside'⟩

theorem sprouts_buildCells (cells : List (Tree α)) {m : Memory} (hm : m.Aside c₀ base)
    (hflat : ∀ v ∈ cellLeaves cells, v.target? = none) :
    m.heap.Sprouts (buildCells (fun _ => true) cells m).2.heap (buildCells (fun _ => true) cells m).1 ∧
      (buildCells (fun _ => true) cells m).2.Aside c₀ base := by
  cases cells with
  | nil => exact ⟨Heap.sprouts_plain m.heap (by simp [buildCells]), hm⟩
  | cons cell cells =>
    rw [cellLeaves, List.forall_mem_append] at hflat
    obtain ⟨hcell, haside⟩ := sprouts_build cell hm hflat.1
    obtain ⟨hrest, haside'⟩ := sprouts_buildCells cells haside hflat.2
    rw [buildCells]
    exact ⟨hcell.trans hrest, haside'⟩

end

end Tree

namespace Memory
variable {m : Memory} {c : Collector Tracked}

/-- A failed load leaves every block as it was, and in the collector nothing but further nodes whose data
is gone. -/
theorem load_error {input : List UInt8} {f : Fault} (hc : m.collector = some c) (htidy : c.Tidy)
    (hload : (m.load input).1 = .error f) :
    (∀ a, (m.load input).2.heap.block? a = m.heap.block? a) ∧ ∃ c', (m.load input).2.collector = some c' ∧
      c.Joined (fun p => ∃ a : Nat, p = .array a ∧ m.heap.blocks.size ≤ a) c' := by
  obtain ⟨done, hflat, hdropped⟩ := load_error_eq hload
  rw [hdropped]
  have hleaves : ∀ v ∈ Tree.cellLeaves done, v.target? = none := by
    intro v hv
    obtain ⟨t, ht, hv⟩ := Tree.mem_cellLeaves hv
    exact hflat t ht v hv
  have haside : m.Aside c m.heap.blocks.size :=
    ⟨⟨c, hc, htidy.joined⟩, le_rfl, fun a b _ ha hb => absurd (Heap.lt_of_block? hb) (Nat.not_lt.2 ha)⟩
  obtain ⟨hsprouts, hjoined⟩ := Tree.sprouts_buildCells done haside hleaves
  refine ⟨fun a => ?_, hjoined.joined⟩
  have hdrops := hsprouts.drops _ [] fun _ _ _ => rfl
  rw [List.append_nil, Heap.release_nil] at hdrops
  change ((Tree.buildCells (fun _ => true) done m).2.heap.release
    (Tree.buildCells (fun _ => true) done m).1).block? a = _
  rw [hdrops, Heap.block?_vacate]
  split_ifs with ha
  · exact (Heap.block?_of_size_le ha.1).symm
  · by_cases hold : (a : Nat) < m.heap.blocks.size
    · exact hsprouts.old a hold
    · have hout := Nat.not_lt.1 fun hin => ha ⟨Nat.not_lt.1 hold, hin⟩
      rw [Heap.block?_of_size_le (Nat.not_lt.1 hold), Heap.block?_of_size_le hout]

theorem heldBy_congr {h h' : Heap} (hblock : ∀ a, h'.block? a = h.block? a) : heldBy h' = heldBy h := by
  have hnode : h'.node? = h.node? := by
    funext v
    rw [Heap.node?, Heap.node?, funext hblock]
  funext p
  cases p with
  | owner => rfl
  | array a =>
    rw [heldBy, heldBy, hblock]
    exact congrArg (Option.map · (h.block? a)) (funext fun b => congrArg b.cells.filterMap hnode)

/-- A load that fails leaves no trace. The heap holds what it held, every node is as it was, and the check
says what it said. A pass gives every node from before the fate that it would have had, whatever further
roots it is given, and takes the nodes that the load has made unless a further root names one of them. No id
does that was issued before, as long as there are generations left. -/
theorem failed_load_leaves_no_trace {m : Memory} {ops : List (Collector.Operation Tracked)}
    (hc : m.collector = some (Collector.performAll {} ops)) {input : List UInt8} {f : Fault}
    (hload : (m.load input).1 = .error f) :
    (∀ a, (m.load input).2.heap.block? a = m.heap.block? a) ∧
    (m.load input).2.integrityCheck = m.integrityCheck ∧
    ∃ c', (m.load input).2.collector = some c' ∧
      (∀ id n, (Collector.performAll {} ops).node? id = some n → c'.node? id = some n) ∧
      (∀ extra id, (Collector.performAll {} ops).contains id = true →
        (c'.collect extra).1.node? id = ((Collector.performAll {} ops).collect extra).1.node? id) ∧
      (∀ extra, (∀ id ∈ extra, c'.contains id = true → (Collector.performAll {} ops).contains id = true) →
        ∀ id, (c'.collect extra).1.node? id = ((Collector.performAll {} ops).collect extra).1.node? id) ∧
      (c'.stats.constructed < 2 ^ 32 → ∀ extra, (∀ id ∈ extra, id ∈ Collector.issued {} ops) →
        ∀ id, (c'.collect extra).1.node? id = ((Collector.performAll {} ops).collect extra).1.node? id) := by
  have htidy : (Collector.performAll ({} : Collector Tracked) ops).Tidy := (Collector.Reachable.new.performAll ops).tidy
  obtain ⟨hblock, c', hc', hj⟩ := load_error hc htidy hload
  refine ⟨hblock, ?_, c', hc', hj.kept, fun extra id => hj.node?_collect htidy extra,
    fun extra hnamed => hj.node?_collect_all htidy hnamed, fun hfew extra hissued => ?_⟩
  · unfold integrityCheck
    rw [hc', hc]
    dsimp only
    rw [heldBy_congr hblock]
    refine hj.integrityCheck ?_
    rintro _ ⟨a, rfl, ha⟩
    rw [heldBy, Heap.block?_of_size_le ha]
    rfl
  · exact hj.node?_collect_all htidy fun id hid => hj.contains_issued hfew (hissued id hid)

/-- The calls behind an array that is a root and holds another. -/
def housing : List (Collector.Operation Tracked) :=
  [.construct (.array 0), .construct (.array 1), .addReference (some ⟨0, 0⟩) (some ⟨1, 0⟩), .makeRoot ⟨0, 0⟩]

def housed : Memory :=
  { heap := ⟨#[some { rows := #[#[.array { target := some 1 }]], node := some ⟨0, 0⟩ }, some { node := some ⟨1, 0⟩ }]⟩
    collector := some (Collector.performAll {} housing) }

def torn : List UInt8 :=
  ((Stored.encode (.array () [[.array () [[.scalar (.int 7)]]]])).getD []).dropLast

/-- The inner array is complete before the input ends and gets a node, which the next pass takes. -/
theorem failed_load_leaves_no_trace_torn :
    housed.collector = some (Collector.performAll {} housing) ∧
      (housed.load torn).1 = .error (.stream .shortRead) ∧ (housed.load torn).2.nodeCount? = some 3 ∧
      (housed.load torn).2.integrityCheck = housed.integrityCheck ∧
      ∃ c', (housed.load torn).2.collector = some c' ∧ (∀ id ∈ [⟨1, 0⟩], id ∈ Collector.issued {} housing) ∧
        c'.stats.constructed < 2 ^ 32 ∧
        ∀ id, (c'.collect [⟨1, 0⟩]).1.node? id = ((Collector.performAll {} housing).collect [⟨1, 0⟩]).1.node? id := by
  have hload : (housed.load torn).1 = .error (.stream .shortRead) := by cbv
  have hmade : (housed.load torn).2.collector.map (·.stats.constructed) = some 3 := by cbv
  have hissued : ∀ id ∈ [(⟨1, 0⟩ : NodeId)], id ∈ Collector.issued ({} : Collector Tracked) housing := by
    decide +kernel
  obtain ⟨-, hcheck, c', hc', -, -, -, hpass⟩ := failed_load_leaves_no_trace (m := housed) rfl hload
  rw [hc', Option.map_some] at hmade
  have hfew : c'.stats.constructed < 2 ^ 32 := by
    rw [Option.some.inj hmade]
    decide
  exact ⟨rfl, hload, by cbv, hcheck, c', hc', hissued, hfew, hpass hfew _ hissued⟩

end Memory
end ScriptVm
