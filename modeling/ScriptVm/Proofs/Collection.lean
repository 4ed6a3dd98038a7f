import ScriptVm.Proofs.Nodes

/-! A pass of the collector keeps exactly what the recorded edges reach from the roots. The work list
of the mark phase carries two invariants: every node it names is reachable, and every edge of a marked
node leads to a marked node or is still on the list. -/

namespace ScriptVm

def Node.clear {π : Type} (n : Node π) : Node π := { n with marked := false }

def Node.kept {π : Type} (n : Node π) : Bool := n.marked || 0 < n.roots

namespace Slot
variable {π : Type}

theorem condemned?_occupied (g : UInt32) (n : Node π) :
    (occupied g n).condemned? = if n.kept then none else some n.payload := rfl

theorem swept_occupied (g : UInt32) (n : Node π) :
    (occupied g n).swept = if n.kept then .occupied g n.clear else .vacant (g + 1) := rfl

end Slot

namespace Collector
variable {π : Type}

/-- Live nodes reached over recorded edges from those of the start. -/
inductive Reach (c : Collector π) (start : NodeId → Prop) : NodeId → Prop where
  | start {id : NodeId} : start id → c.contains id = true → Reach c start id
  | edge {source target : NodeId} : Reach c start source →
      target ∈ (c.references source).targets → c.contains target = true → Reach c start target

def Anchored (c : Collector π) (extra : List NodeId) (id : NodeId) : Prop :=
  c.isRoot id = true ∨ id ∈ extra

theorem Reach.contains {c : Collector π} {start : NodeId → Prop} {id : NodeId}
    (h : c.Reach start id) : c.contains id = true := by
  cases h <;> assumption

theorem Reach.mono {c : Collector π} {p q : NodeId → Prop} (hpq : ∀ id, p id → q id) {id : NodeId}
    (h : c.Reach p id) : c.Reach q id := by
  induction h with
  | start hs hc => exact .start (hpq _ hs) hc
  | edge _ he hc ih => exact .edge ih he hc

theorem isRoot_iff (c : Collector π) (id : NodeId) :
    c.isRoot id = true ↔ ∃ n, c.node? id = some n ∧ 0 < n.roots := by
  cases h : c.node? id <;> simp [isRoot, h]

/-! ### Marking -/

def Marked (c : Collector π) (id : NodeId) : Prop := ∃ n, c.node? id = some n ∧ n.marked = true

def setMark (c : Collector π) (id : NodeId) : Collector π :=
  c.modifyNode id fun n => { n with marked := true }

theorem set_eq_setMark {c : Collector π} {id : NodeId} {n : Node π} (hin : id.index < c.slots.size)
    (h : c.slots[id.index] = .occupied id.generation n) :
    { c with slots := c.slots.set id.index (.occupied id.generation { n with marked := true }) } =
      c.setMark id := by
  unfold setMark modifyNode
  congr 1
  apply Array.ext_getElem?
  intro i
  rw [Array.getElem?_modify, Array.getElem?_set]
  by_cases hi : id.index = i
  · subst hi
    simp [hin, h]
  · simp [hi]

theorem mark_of_unmarked {c : Collector π} {id : NodeId} {n : Node π} (hn : c.node? id = some n)
    (hmark : n.marked = false) (rest : List NodeId) :
    c.mark (id :: rest) = (c.setMark id).mark (n.edges.targets ++ rest) := by
  obtain ⟨hin, hslot⟩ := Array.getElem?_eq_some_iff.1 ((c.node?_eq_some_iff id n).1 hn)
  rw [mark, dif_pos hin]
  split
  · rename_i g m hm
    obtain ⟨rfl, rfl⟩ := Slot.occupied.inj (hslot.symm.trans hm)
    rw [dif_pos ⟨rfl, hmark⟩, set_eq_setMark hin hslot]
  · rename_i next hm
    rw [hslot] at hm
    cases hm

theorem mark_of_marked {c : Collector π} {id : NodeId}
    (h : ∀ n, c.node? id = some n → n.marked = true) (rest : List NodeId) :
    c.mark (id :: rest) = c.mark rest := by
  rw [mark]
  split_ifs with hin
  · split
    · rename_i g m hm
      rw [dif_neg]
      rintro ⟨rfl, hmark⟩
      have hn := (c.node?_eq_some_iff id m).2 (Array.getElem?_eq_some_iff.2 ⟨hin, hm⟩)
      rw [h m hn] at hmark
      cases hmark
    · rfl
  · rfl

/-- The mark phase step by step: an id that names nothing unmarked is passed over, any other is marked
and its targets come in front. -/
theorem mark_rec {P : Collector π → List NodeId → Collector π → Prop}
    (nil : ∀ c, P c [] c)
    (skip : ∀ c id rest r, (∀ n, c.node? id = some n → n.marked = true) → P c rest r →
      P c (id :: rest) r)
    (visit : ∀ c id n rest r, c.node? id = some n → n.marked = false →
      P (c.setMark id) (n.edges.targets ++ rest) r → P c (id :: rest) r)
    (c : Collector π) (work : List NodeId) : P c work (c.mark work) := by
  induction c, work using mark.induct with
  | case1 c =>
    rw [mark]
    exact nil c
  | case2 c id rest hin g n hslot hfresh ih =>
    obtain ⟨rfl, hmark⟩ := hfresh
    have hn := (c.node?_eq_some_iff id n).2 (Array.getElem?_eq_some_iff.2 ⟨hin, hslot⟩)
    rw [set_eq_setMark hin hslot] at ih
    rw [mark_of_unmarked hn hmark]
    exact visit c id n rest _ hn hmark ih
  | case3 c id rest hin g n hslot hfresh ih =>
    have hid : ∀ m, c.node? id = some m → m.marked = true := by
      intro m hm
      have hm' := (Array.getElem?_eq_some_iff.1 ((c.node?_eq_some_iff id m).1 hm)).2
      obtain ⟨rfl, rfl⟩ := Slot.occupied.inj (hslot.symm.trans hm')
      simpa using hfresh
    rw [mark_of_marked hid]
    exact skip c id rest _ hid ih
  | case4 c id rest hin next hslot ih =>
    have hid : ∀ m, c.node? id = some m → m.marked = true := by
      intro m hm
      rw [node?_of_vacant (Array.getElem?_eq_some_iff.2 ⟨hin, hslot⟩)] at hm
      cases hm
    rw [mark_of_marked hid]
    exact skip c id rest _ hid ih
  | case5 c id rest hout ih =>
    have hid : ∀ m, c.node? id = some m → m.marked = true := by
      intro m hm
      exact absurd (Array.getElem?_eq_some_iff.1 ((c.node?_eq_some_iff id m).1 hm)).1 hout
    rw [mark_of_marked hid]
    exact skip c id rest _ hid ih

structure SameGraph (c r : Collector π) : Prop where
  node : ∀ id, (r.node? id).map Node.clear = (c.node? id).map Node.clear
  vacant : ∀ (i : Nat) (next : UInt32), c.slots[i]? = some (.vacant next) →
    r.slots[i]? = some (.vacant next)
  free : r.free = c.free
  live : r.live = c.live

theorem SameGraph.refl (c : Collector π) : c.SameGraph c := ⟨fun _ => rfl, fun _ _ h => h, rfl, rfl⟩

theorem SameGraph.trans {a b c : Collector π} (hab : a.SameGraph b) (hbc : b.SameGraph c) :
    a.SameGraph c :=
  ⟨fun id => (hbc.node id).trans (hab.node id), fun i next h => hbc.vacant i next (hab.vacant i next h),
    hbc.free.trans hab.free, hbc.live.trans hab.live⟩

theorem sameGraph_setMark (c : Collector π) (id : NodeId) : c.SameGraph (c.setMark id) := by
  refine ⟨fun id' => ?_, fun i next h => vacant_modifyNode id _ h, rfl, rfl⟩
  rw [setMark, node?_modifyNode]
  split_ifs with h
  · subst h
    cases c.node? id' <;> rfl
  · rfl

theorem SameGraph.contains {c r : Collector π} (h : c.SameGraph r) (id : NodeId) :
    r.contains id = c.contains id := by
  have hid := congrArg Option.isSome (h.node id)
  simpa [Collector.contains] using hid

theorem SameGraph.references {c r : Collector π} (h : c.SameGraph r) (id : NodeId) :
    r.references id = c.references id := by
  have hid := congrArg (Option.map Node.edges) (h.node id)
  simp only [Option.map_map] at hid
  exact congrArg (Option.getD · []) hid

/-- Every edge of a marked node leads to a marked one or to one on the list. -/
def Pending (c : Collector π) (work : List NodeId) : Prop :=
  ∀ id, c.Marked id → ∀ t ∈ (c.references id).targets, c.contains t = true → c.Marked t ∨ t ∈ work

structure Marks (c : Collector π) (work : List NodeId) (r : Collector π) : Prop where
  same : c.SameGraph r
  mono : ∀ id, c.Marked id → r.Marked id
  complete : ∀ id ∈ work, c.contains id = true → r.Marked id
  sound : ∀ id, r.Marked id → c.Marked id ∨ c.Reach (· ∈ work) id
  pending : c.Pending work → r.Pending []

theorem marked_setMark_iff {c : Collector π} {id : NodeId} (h : c.contains id = true) (id' : NodeId) :
    (c.setMark id).Marked id' ↔ id' = id ∨ c.Marked id' := by
  obtain ⟨n, hn⟩ := (c.contains_iff id).1 h
  unfold Marked setMark
  rw [node?_modifyNode]
  split_ifs with hid
  · subst hid
    simp [hn]
  · simp [hid]

theorem references_eq {c : Collector π} {id : NodeId} {n : Node π} (h : c.node? id = some n) :
    c.references id = n.edges := by
  simp [references, h]

theorem marks_visit {c r : Collector π} {id : NodeId} {n : Node π} {rest : List NodeId}
    (hn : c.node? id = some n) (h : (c.setMark id).Marks (n.edges.targets ++ rest) r) :
    c.Marks (id :: rest) r := by
  have hc := contains_of_node? hn
  have hg := sameGraph_setMark c id
  have hmark := marked_setMark_iff hc
  refine ⟨hg.trans h.same, fun x hx => h.mono x ((hmark x).2 (Or.inr hx)), ?_, ?_, ?_⟩
  · intro x hx hxc
    rcases List.mem_cons.1 hx with rfl | hx
    · exact h.mono x ((hmark x).2 (Or.inl rfl))
    · exact h.complete x (List.mem_append_right _ hx) (hg.contains x ▸ hxc)
  · have hid : c.Reach (· ∈ id :: rest) id := .start List.mem_cons_self hc
    intro x hx
    rcases h.sound x hx with hx | hx
    · rcases (hmark x).1 hx with rfl | hx
      · exact Or.inr hid
      · exact Or.inl hx
    · right
      -- a target of the visited node is one edge away from it
      have hstep : ∀ y, (c.setMark id).Reach (· ∈ n.edges.targets ++ rest) y →
          c.Reach (· ∈ id :: rest) y := by
        intro y hy
        induction hy with
        | start hs hyc =>
          rw [hg.contains] at hyc
          rcases List.mem_append.1 hs with hs | hs
          · exact .edge hid (references_eq hn ▸ hs) hyc
          · exact .start (List.mem_cons_of_mem _ hs) hyc
        | edge _ he hyc ih => exact .edge ih (hg.references _ ▸ he) (hg.contains _ ▸ hyc)
      exact hstep x hx
  · intro hp
    apply h.pending
    intro x hx t ht htc
    rw [hg.references] at ht
    rw [hg.contains] at htc
    rcases (hmark x).1 hx with rfl | hx
    · rw [references_eq hn] at ht
      exact Or.inr (List.mem_append_left _ ht)
    · rcases hp x hx t ht htc with hm | hm
      · exact Or.inl ((hmark t).2 (Or.inr hm))
      · rcases List.mem_cons.1 hm with rfl | hm
        · exact Or.inl ((hmark t).2 (Or.inl rfl))
        · exact Or.inr (List.mem_append_right _ hm)

theorem marks_mark (c : Collector π) (work : List NodeId) : c.Marks work (c.mark work) := by
  induction c, work using mark_rec with
  | nil c => exact ⟨.refl c, fun _ h => h, by simp, fun _ h => Or.inl h, fun h => h⟩
  | skip c id rest r hid ih =>
    have hmarked : c.contains id = true → c.Marked id := by
      intro hc
      obtain ⟨n, hn⟩ := (c.contains_iff id).1 hc
      exact ⟨n, hn, hid n hn⟩
    refine ⟨ih.same, ih.mono, ?_, ?_, fun hp => ih.pending fun x hx t ht htc => ?_⟩
    · intro x hx hxc
      rcases List.mem_cons.1 hx with rfl | hx
      · exact ih.mono x (hmarked hxc)
      · exact ih.complete x hx hxc
    · intro x hx
      exact (ih.sound x hx).imp_right (Reach.mono fun y hy => List.mem_cons_of_mem _ hy)
    · rcases hp x hx t ht htc with hm | hm
      · exact Or.inl hm
      · rcases List.mem_cons.1 hm with rfl | hm
        · exact Or.inl (hmarked htc)
        · exact Or.inr hm
  | visit c id n rest r hn _ ih => exact marks_visit hn ih

/-! ### Sweeping -/

theorem node?_sweep (c : Collector π) (id : NodeId) :
    c.sweep.1.node? id =
      (c.node? id).bind fun n => if n.kept then some n.clear else none := by
  simp only [node?, sweep, Array.getElem?_map]
  cases hslot : c.slots[id.index]? with
  | none => simp
  | some slot =>
    cases slot with
    | vacant next => simp [Slot.swept]
    | occupied g n =>
      simp only [Option.map_some, Slot.swept_occupied]
      by_cases hkeep : n.kept = true
      · by_cases hg : g = id.generation <;> simp [hkeep, hg]
      · by_cases hg : g = id.generation <;> simp [hkeep, hg]

theorem vacant_sweep {c : Collector π} {i : Nat} {next : UInt32}
    (h : c.slots[i]? = some (.vacant next)) : c.sweep.1.slots[i]? = some (.vacant next) := by
  simp [sweep, Slot.swept, h]

theorem mem_vacated {c : Collector π} {i : Nat}
    (h : (c.slots[i]?.bind Slot.condemned?).isSome = true) :
    (∃ g n, c.slots[i]? = some (.occupied g n)) ∧
      ∃ next, c.sweep.1.slots[i]? = some (.vacant next) := by
  cases hslot : c.slots[i]? with
  | none => simp [hslot] at h
  | some slot =>
    cases slot with
    | vacant next => simp [hslot, Slot.condemned?] at h
    | occupied g n =>
      refine ⟨⟨g, n, rfl⟩, g + 1, ?_⟩
      by_cases hkeep : n.kept = true
      · simp [hslot, Slot.condemned?_occupied, hkeep] at h
      · simp [sweep, hslot, Slot.swept_occupied, hkeep]

theorem filterMap_range_getElem? {α β : Type} (l : List α) (f : α → Option β) :
    (List.range l.length).filterMap (fun i => l[i]?.bind f) = l.filterMap f := by
  induction l using List.reverseRecOn with
  | nil => rfl
  | append_singleton l x ih =>
    rw [List.length_append, List.length_singleton, List.range_succ, List.filterMap_append,
      List.filterMap_append, ← ih]
    congr 1
    · apply List.filterMap_congr
      intro i hi
      rw [List.getElem?_append_left (List.mem_range.1 hi)]
    · simp [List.filterMap]

theorem condemned_eq (c : Collector π) :
    c.sweep.2 = (List.range c.slots.size).filterMap fun i => c.slots[i]?.bind Slot.condemned? := by
  change c.slots.toList.filterMap Slot.condemned? = _
  rw [← filterMap_range_getElem? c.slots.toList Slot.condemned?]
  simp only [Array.getElem?_toList, Array.length_toList]

theorem length_sweep (c : Collector π) :
    c.sweep.2.length = (c.ids.filter fun id => !c.sweep.1.contains id).length := by
  rw [condemned_eq, ids, List.filter_filterMap, List.length_filterMap_eq_countP,
    List.length_filterMap_eq_countP]
  apply List.countP_congr
  intro i _
  cases hslot : c.slots[i]? with
  | none => simp [idAt?, hslot]
  | some slot =>
    cases slot with
    | vacant next => simp [idAt?, hslot, Slot.condemned?]
    | occupied g n =>
      have hn : c.node? ⟨i, g⟩ = some n := (c.node?_eq_some_iff ⟨i, g⟩ n).2 hslot
      by_cases hkeep : n.kept = true <;>
        simp [idAt?, hslot, Slot.condemned?_occupied, hkeep, contains, node?_sweep, hn, Option.filter]

/-! ### A pass -/

theorem mem_rootIds_iff (c : Collector π) (id : NodeId) :
    id ∈ c.rootIds ↔ c.isRoot id = true := by
  simp only [rootIds, List.mem_filterMap, List.mem_range, isRoot_iff, node?_eq_some_iff]
  constructor
  · rintro ⟨i, -, hi⟩
    unfold rootAt? at hi
    split at hi
    · rename_i g n hslot
      split_ifs at hi with hroots
      obtain rfl := Option.some.inj hi
      exact ⟨n, hslot, hroots⟩
    · cases hi
  · rintro ⟨n, hslot, hroots⟩
    refine ⟨id.index, (Array.getElem?_eq_some_iff.1 hslot).1, ?_⟩
    simp [rootAt?, hslot, hroots]

theorem Tidy.marked_iff {c : Collector π} (h : c.Tidy) (extra : List NodeId) (id : NodeId) :
    (c.mark (c.rootIds ++ extra)).Marked id ↔ c.Reach (c.Anchored extra) id := by
  have hm := marks_mark c (c.rootIds ++ extra)
  have hnone : ∀ id, ¬ c.Marked id := by
    rintro id ⟨n, hn, hmark⟩
    rw [h.unmarked id n hn] at hmark
    cases hmark
  have hstart : ∀ id, id ∈ c.rootIds ++ extra ↔ c.Anchored extra id := by
    intro id
    rw [List.mem_append, mem_rootIds_iff, Anchored]
  constructor
  · intro hid
    rcases hm.sound id hid with hid | hid
    · exact absurd hid (hnone id)
    · exact hid.mono fun id => (hstart id).1
  · intro hid
    have hdone := hm.pending fun id hid => absurd hid (hnone id)
    induction hid with
    | start hs hc => exact hm.complete _ ((hstart _).2 hs) hc
    | edge _ he hc ih =>
      rcases hdone _ ih _ (hm.same.references _ ▸ he) (hm.same.contains _ ▸ hc) with ht | ht
      · exact ht
      · cases ht

theorem node?_collect (c : Collector π) (extra : List NodeId) (id : NodeId) :
    (c.collect extra).1.node? id = (c.mark (c.rootIds ++ extra)).sweep.1.node? id := rfl

theorem Tidy.node?_collect_iff {c : Collector π} (h : c.Tidy) (extra : List NodeId) (id : NodeId)
    (n : Node π) :
    (c.collect extra).1.node? id = some n ↔ c.node? id = some n ∧ c.Reach (c.Anchored extra) id := by
  set r := c.mark (c.rootIds ++ extra) with hr
  have hsame := (marks_mark c (c.rootIds ++ extra)).same
  rw [node?_collect, node?_sweep, ← hr, ← h.marked_iff extra id, ← hr]
  have hnode := hsame.node id
  rw [← hr] at hnode
  cases hrn : r.node? id with
  | none =>
    rw [hrn] at hnode
    have hc : c.node? id = none := by simpa using hnode.symm
    simp [hc]
  | some m =>
    rw [hrn, Option.map_some] at hnode
    obtain ⟨k, hk, hkm⟩ := Option.map_eq_some_iff.1 hnode.symm
    have hkc : k.clear = k := by rw [Node.clear, ← h.unmarked id k hk]
    have hroots : m.clear.roots = k.clear.roots := congrArg Node.roots hkm.symm
    have hmark : r.Marked id ↔ m.marked = true := by
      simp [Marked, hrn]
    -- a root is where the mark phase starts
    have hkeep : m.kept = true ↔ r.Marked id := by
      rw [hmark, Node.kept, Bool.or_eq_true, decide_eq_true_eq, or_iff_left_iff_imp]
      intro hpos
      rw [← hmark, hr, h.marked_iff extra id]
      exact .start (Or.inl ((c.isRoot_iff id).2 ⟨k, hk, lt_of_lt_of_eq hpos hroots⟩)) (contains_of_node? hk)
    rw [Option.bind_some, hk, ← hkm, hkc, ← hkeep]
    by_cases hif : m.kept = true <;> simp [hif]

theorem Tidy.contains_collect {c : Collector π} (h : c.Tidy) (extra : List NodeId) (id : NodeId) :
    (c.collect extra).1.contains id = true ↔ c.Reach (c.Anchored extra) id := by
  rw [contains_iff]
  constructor
  · rintro ⟨n, hn⟩
    exact ((h.node?_collect_iff extra id n).1 hn).2
  · intro hid
    obtain ⟨n, hn⟩ := (c.contains_iff id).1 hid.contains
    exact ⟨n, (h.node?_collect_iff extra id n).2 ⟨hn, hid⟩⟩

theorem Tidy.mem_collect_iff {c : Collector π} (h : c.Tidy) (extra : List NodeId) (p : π) :
    p ∈ (c.collect extra).2 ↔
      ∃ id n, c.node? id = some n ∧ ¬ c.Reach (c.Anchored extra) id ∧ n.payload = p := by
  set r := c.mark (c.rootIds ++ extra) with hr
  have hsame := (marks_mark c (c.rootIds ++ extra)).same
  have hkept : ∀ {id m}, r.node? id = some m → (c.Reach (c.Anchored extra) id ↔ m.kept = true) := by
    intro id m hm
    rw [← h.contains_collect extra id, contains, node?_collect, ← hr, node?_sweep, hm]
    by_cases hk : m.kept = true <;> simp [hk]
  have hmem : p ∈ (c.collect extra).2 ↔ ∃ id m, r.node? id = some m ∧ m.kept = false ∧ m.payload = p := by
    change p ∈ r.slots.toList.filterMap Slot.condemned? ↔ _
    simp only [List.mem_filterMap, Array.mem_toList_iff, Array.mem_iff_getElem?, node?_eq_some_iff]
    constructor
    · rintro ⟨slot, ⟨i, hi⟩, hp⟩
      cases slot with
      | vacant next => cases hp
      | occupied g m =>
        rw [Slot.condemned?_occupied] at hp
        by_cases hk : m.kept = true
        · simp [hk] at hp
        · exact ⟨⟨i, g⟩, m, hi, by simpa using hk, by simpa [hk] using hp⟩
    · rintro ⟨id, m, hm, hk, hp⟩
      exact ⟨_, ⟨id.index, hm⟩, by simp [Slot.condemned?_occupied, hk, hp]⟩
  rw [hmem]
  constructor
  · rintro ⟨id, m, hm, hk, hp⟩
    have hnode := hsame.node id
    rw [← hr, hm, Option.map_some] at hnode
    obtain ⟨n, hn, hclear⟩ := Option.map_eq_some_iff.1 hnode.symm
    refine ⟨id, n, hn, by simp [hkept hm, hk], ?_⟩
    have hpay : n.clear.payload = m.clear.payload := congrArg Node.payload hclear
    exact hpay.trans hp
  · rintro ⟨id, n, hn, hout, hp⟩
    have hnode := hsame.node id
    rw [← hr, hn, Option.map_some] at hnode
    obtain ⟨m, hm, hclear⟩ := Option.map_eq_some_iff.1 hnode
    refine ⟨id, m, hm, by simpa [hkept hm] using hout, ?_⟩
    have hpay : m.clear.payload = n.clear.payload := congrArg Node.payload hclear
    exact hpay.trans hp

theorem length_collect (c : Collector π) (extra : List NodeId) :
    (c.collect extra).2.length =
      (c.ids.filter fun id => !(c.collect extra).1.contains id).length := by
  have hsame := (marks_mark c (c.rootIds ++ extra)).same
  change (c.mark (c.rootIds ++ extra)).sweep.2.length = _
  rw [length_sweep]
  exact ((ids_perm hsame.contains).filter _).length_eq

theorem Tidy.ids_collect {c : Collector π} (h : c.Tidy) (extra : List NodeId) :
    (c.collect extra).1.ids.Perm (c.ids.filter fun id => (c.collect extra).1.contains id) := by
  rw [List.perm_ext_iff_of_nodup (nodup_ids _) (c.nodup_ids.filter _)]
  intro id
  rw [mem_ids_iff, List.mem_filter, mem_ids_iff, iff_and_self]
  intro hid
  exact ((h.contains_collect extra id).1 hid).contains

theorem Tidy.length_ids_collect {c : Collector π} (h : c.Tidy) (extra : List NodeId) :
    (c.collect extra).1.ids.length + (c.collect extra).2.length = c.ids.length := by
  rw [(h.ids_collect extra).length_eq, length_collect]
  exact (List.length_eq_length_filter_add _).symm

theorem Tidy.free_collect {c : Collector π} (h : c.Tidy) (extra : List NodeId) :
    (∀ i ∈ (c.collect extra).1.free, ∃ next, (c.collect extra).1.slots[i]? = some (.vacant next)) ∧
      (c.collect extra).1.free.Nodup := by
  set r := c.mark (c.rootIds ++ extra)
  have hsame : c.SameGraph r := (marks_mark c (c.rootIds ++ extra)).same
  set vacated := (List.range r.slots.size).filter fun i => (r.slots[i]?.bind Slot.condemned?).isSome
  have hfree : (c.collect extra).1.free = vacated.reverse ++ c.free := by
    rw [← hsame.free]
    rfl
  have hold : ∀ i ∈ c.free, ∃ next, r.slots[i]? = some (.vacant next) := by
    intro i hi
    obtain ⟨next, hnext⟩ := h.vacant i hi
    exact ⟨next, hsame.vacant i next hnext⟩
  rw [hfree]
  constructor
  · intro i hi
    rcases List.mem_append.1 hi with hi | hi
    · exact (mem_vacated (List.mem_filter.1 (List.mem_reverse.1 hi)).2).2
    · obtain ⟨next, hnext⟩ := hold i hi
      exact ⟨next, vacant_sweep hnext⟩
  · rw [List.nodup_append]
    refine ⟨List.nodup_reverse.2 (List.nodup_range.filter _), h.distinct, ?_⟩
    rintro i hi j hj rfl
    obtain ⟨⟨g, n, hocc⟩, -⟩ := mem_vacated (List.mem_filter.1 (List.mem_reverse.1 hi)).2
    obtain ⟨next, hnext⟩ := hold i hj
    rw [hocc] at hnext
    cases hnext

theorem Tidy.collect {c : Collector π} (h : c.Tidy) (extra : List NodeId) :
    (c.collect extra).1.Tidy := by
  refine ⟨?_, ?_, ?_, (h.free_collect extra).1, (h.free_collect extra).2, ?_⟩
  · intro id n hn
    exact h.unmarked id n ((h.node?_collect_iff extra id n).1 hn).1
  · intro id n hn
    exact h.ordered id n ((h.node?_collect_iff extra id n).1 hn).1
  · intro id n hn t ht
    obtain ⟨hn, hid⟩ := (h.node?_collect_iff extra id n).1 hn
    rw [h.contains_collect]
    exact hid.edge (references_eq hn ▸ ht) (h.closed id n hn t ht)
  · have hlive : (c.collect extra).1.live = c.live - (c.collect extra).2.length := by
      rw [← (marks_mark c (c.rootIds ++ extra)).same.live]
      rfl
    have hlen := h.length_ids_collect extra
    rw [hlive, h.counted]
    omega

theorem Tidy.references_collect {c : Collector π} (h : c.Tidy) {extra : List NodeId} {id : NodeId}
    (hid : c.Reach (c.Anchored extra) id) :
    (c.collect extra).1.references id = c.references id := by
  obtain ⟨n, hn⟩ := (c.contains_iff id).1 hid.contains
  rw [references_eq hn, references_eq ((h.node?_collect_iff extra id n).2 ⟨hn, hid⟩)]

theorem Tidy.isRoot_collect {c : Collector π} (h : c.Tidy) (extra : List NodeId) (id : NodeId) :
    (c.collect extra).1.isRoot id = true ↔ c.isRoot id = true := by
  simp only [isRoot_iff, h.node?_collect_iff]
  constructor
  · rintro ⟨n, ⟨hn, -⟩, hroots⟩
    exact ⟨n, hn, hroots⟩
  · rintro ⟨n, hn, hroots⟩
    exact ⟨n, ⟨hn, .start (Or.inl ((c.isRoot_iff id).2 ⟨n, hn, hroots⟩)) (contains_of_node? hn)⟩,
      hroots⟩

theorem Tidy.reach_collect {c : Collector π} (h : c.Tidy) {extra : List NodeId} {id : NodeId}
    (hid : c.Reach (c.Anchored extra) id) :
    (c.collect extra).1.Reach ((c.collect extra).1.Anchored extra) id := by
  induction hid with
  | start hs hc =>
    refine .start (hs.imp_left (h.isRoot_collect extra _).2) ?_
    exact (h.contains_collect extra _).2 (.start hs hc)
  | edge hsrc he hc ih =>
    refine .edge ih (h.references_collect hsrc ▸ he) ?_
    exact (h.contains_collect extra _).2 (.edge hsrc he hc)

inductive Reachable : Collector π → Prop where
  | new : Reachable {}
  | construct {c : Collector π} (p : π) : Reachable c → Reachable (c.construct p).2
  | makeRoot {c : Collector π} (id : NodeId) : Reachable c → Reachable (c.makeRoot id)
  | removeRoot {c : Collector π} (id : NodeId) : Reachable c → Reachable (c.removeRoot id)
  | addReference {c : Collector π} (source target : Option NodeId) : Reachable c →
      Reachable (c.addReference source target)
  | removeReference {c : Collector π} (source target : Option NodeId) : Reachable c →
      Reachable (c.removeReference source target)
  | collect {c : Collector π} (extra : List NodeId) : Reachable c → Reachable (c.collect extra).1

theorem Reachable.tidy {c : Collector π} (h : c.Reachable) : c.Tidy := by
  induction h with
  | new => exact tidy_new
  | construct p _ ih => exact ih.construct p
  | makeRoot id _ ih => exact ih.makeRoot id
  | removeRoot id _ ih => exact ih.removeRoot id
  | addReference source target _ ih => exact ih.addReference source target
  | removeReference source target _ ih => exact ih.removeReference source target
  | collect extra _ ih => exact ih.collect extra

/-- A pass keeps exactly what the roots and the live further roots reach over recorded edges, with
root counts, edges and payloads as they were, and tells how many nodes disappeared. A second pass
with the same further roots takes nothing. -/
theorem collect_eq_reach {c : Collector π} (h : c.Reachable) (extra : List NodeId) :
    (∀ id, (c.collect extra).1.contains id = true ↔ c.Reach (c.Anchored extra) id) ∧
    (∀ id, (c.collect extra).1.contains id = true →
      (c.collect extra).1.node? id = c.node? id ∧
      ∀ target, (c.collect extra).1.referenceCount id target = c.referenceCount id target) ∧
    (c.collect extra).2.length =
      (c.ids.filter fun id => !(c.collect extra).1.contains id).length ∧
    (c.collect extra).1.live + (c.collect extra).2.length = c.live ∧
    ((c.collect extra).1.collect extra).2 = [] := by
  have ht := h.tidy
  refine ⟨ht.contains_collect extra, ?_, length_collect c extra, ?_, ?_⟩
  · intro id hid
    obtain ⟨n, hn⟩ := (contains_iff _ id).1 hid
    have hold := ((ht.node?_collect_iff extra id n).1 hn).1
    exact ⟨hn.trans hold.symm, fun target => by rw [referenceCount, referenceCount, hn, hold]⟩
  · rw [(ht.collect extra).counted, ht.counted]
    exact ht.length_ids_collect extra
  · apply List.eq_nil_of_length_eq_zero
    rw [length_collect, List.length_eq_zero_iff, List.filter_eq_nil_iff]
    intro id hid
    rw [mem_ids_iff] at hid
    have hagain := ht.reach_collect ((ht.contains_collect extra id).1 hid)
    simp [((ht.collect extra).contains_collect extra id).2 hagain]

/-- Two nodes that refer to each other, neither of them a root. -/
def ring : Collector Unit :=
  ((((({} : Collector Unit).construct ()).2.construct ()).2.addReference (some ⟨0, 0⟩)
    (some ⟨1, 0⟩)).addReference (some ⟨1, 0⟩) (some ⟨0, 0⟩))

theorem ring_reachable : ring.Reachable :=
  .addReference _ _ (.addReference _ _ (.construct () (.construct () .new)))

theorem collect_ring :
    ring.Reachable ∧ (ring.collect [⟨7, 3⟩]).2.length = 2 ∧
      (∀ id, (ring.collect [⟨1, 0⟩, ⟨7, 3⟩]).1.contains id = true ↔
        ring.Reach (ring.Anchored [⟨1, 0⟩, ⟨7, 3⟩]) id) ∧
      ((ring.collect [⟨7, 3⟩]).1.collect [⟨7, 3⟩]).2 = [] :=
  ⟨ring_reachable, by cbv, (collect_eq_reach ring_reachable [⟨1, 0⟩, ⟨7, 3⟩]).1,
    (collect_eq_reach ring_reachable [⟨7, 3⟩]).2.2.2.2⟩

end Collector
end ScriptVm
