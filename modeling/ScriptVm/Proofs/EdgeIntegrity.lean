import Mathlib
import ScriptVm.Proofs.EdgeCheck
import ScriptVm.Proofs.Loading

/-! Why the integrity check never fails on arrays: whatever is done to them through variables, the
recorded edges of a node are the arrays in its cells. -/

namespace ScriptVm

namespace Memory

theorem integrityCheck_iff {m : Memory} {c : Collector Tracked} (hc : m.collector = some c) (h : c.Tidy) :
    m.integrityCheck = .ok () ↔ ∀ id n a b, c.node? id = some n → n.payload = .array a →
      m.heap.block? a = some b → ∀ t, (m.heap.heldNodes b).count t = n.edges.weight t := by
  unfold integrityCheck
  rw [hc]
  dsimp only
  rw [Collector.integrityCheck_eq_ok_iff h.keyed]
  constructor
  · intro hall id n a b hn hpay hb t
    rw [← Collector.referenceCount_of_node? hn]
    refine hall id n _ hn ?_ t
    rw [hpay, heldBy, hb]
    rfl
  · intro hall id n l hn hl t
    rw [Collector.referenceCount_of_node? hn]
    cases hpay : n.payload with
    | owner =>
      rw [hpay] at hl
      cases hl
    | array a =>
      rw [hpay, heldBy] at hl
      obtain ⟨b, hb, rfl⟩ := Option.map_eq_some_iff.1 hl
      exact hall id n a b hn hpay hb t

section
variable {covering exact counted : Prop} {m : Memory} {c : Collector Tracked} {hands : List Hand}

theorem Mirrors.makeRoot {o : Option NodeId} {v : Value}
    (hm : Mirrors covering exact counted m c ((o, v) :: hands)) :
    ∃ c', Mirrors covering exact counted (m.makeRoot v).2 c' ((o, (m.makeRoot v).1) :: hands) := by
  unfold Memory.makeRoot
  rw [hm.collector]
  cases v with
  | array h =>
    simp only [rootHandle]
    obtain ⟨target, rooted⟩ := h
    cases rooted with
    | true => exact ⟨c, hm⟩
    | false =>
      simp only [Bool.false_eq_true, if_false]
      cases hid : m.node? (.array { target := target }) with
      | none => exact ⟨c, hm.reflag (h := { target := target }) hid true⟩
      | some id => exact ⟨_, hm.root (h := { target := target }) hid⟩
  | _ => exact ⟨c, hm⟩

theorem Mirrors.releaseRoot {o : Option NodeId} {v : Value}
    (hm : Mirrors covering exact counted m c ((o, v) :: hands)) :
    ∃ c', Mirrors covering exact counted (m.releaseRoot v).2 c' ((o, (m.releaseRoot v).1) :: hands) := by
  unfold Memory.releaseRoot
  rw [hm.collector]
  cases v with
  | array h =>
    simp only [unrootHandle]
    obtain ⟨target, rooted⟩ := h
    cases rooted with
    | false => exact ⟨c, hm⟩
    | true =>
      simp only [if_true]
      cases hid : m.node? (.array { target := target, rooted := true }) with
      | none => exact ⟨c, hm.reflag (h := { target := target }) hid false⟩
      | some id => exact ⟨_, hm.unroot (h := { target := target }) hid⟩
  | _ => exact ⟨c, hm⟩

/-- With no hand owned, tight edges pass the check. -/
theorem Mirrors.integrityCheck (hm : Mirrors True True counted m c hands) (hfree : ∀ hand ∈ hands, hand.1 = none) :
    m.integrityCheck = .ok () := by
  rw [integrityCheck_iff hm.collector hm.tidy]
  intro id n a b hn hpay hb t
  have hid := hm.tied id n a b hn hpay hb
  have hcov := hm.covered trivial a b id n t hb hid hn
  have htight := hm.tight trivial trivial a b id n t hb hid hn
  have howed : m.heap.owed hands id t = 0 := by
    rw [Heap.owed, List.countP_eq_zero]
    intro hand hhand
    simp [hfree hand hhand]
  rw [Heap.count_heldNodes]
  omega

end

theorem mirrors_new (covering exact counted : Prop) :
    Mirrors covering exact counted { collector := some {} } {} [] := by
  refine ⟨rfl, Collector.tidy_new, fun a => le_rfl, by simp, ?_, ?_, ?_, ?_, ?_, ?_, ?_⟩
  · intro a b id hb
    simp [Heap.block?] at hb
  · intro id n a hn
    simp [Collector.node?] at hn
  · intro id n a b hn
    simp [Collector.node?] at hn
  · intro _ a b id n t hb
    simp [Heap.block?] at hb
  · intro _ _ a b id n t hb
    simp [Heap.block?] at hb
  · intro _ id n hn
    simp [Collector.node?] at hn
  · intro _ a b v hb
    simp [Heap.block?] at hb

/-- The memories that array operations through variables lead to, with the values in the variables.
Every mutating operation is given the collector, and variables have no owner. -/
inductive Worked : Memory → List Value → Prop where
  | start : Worked { collector := some {} } []
  /-- Variables exchange what they hold: a value is taken out of one and put in another. -/
  | move {m : Memory} {vs ws : List Value} : vs.Perm ws → Worked m vs → Worked m ws
  | plain {m : Memory} {vs : List Value} (v : Value) : v.target? = none → Worked m vs →
      Worked m (v :: vs)
  | construct {m : Memory} {vs : List Value} (tracked : Bool) (rows : Rows) :
      Worked m (Rows.cells rows ++ vs) →
      Worked (m.trackedIf tracked (·.newArray rows)).2
        ((m.trackedIf tracked (·.newArray rows)).1 :: vs)
  /-- A clone of what a variable holds or of what a path of cells leads to from it. -/
  | clone {m : Memory} {vs : List Value} {v w : Value} (path : List Cell) : v ∈ vs →
      m.peekNested v path = .ok w → Worked m vs → Worked (m.share w).2 ((m.share w).1 :: vs)
  | drop {m : Memory} {v : Value} {vs : List Value} : Worked m (v :: vs) → Worked (m.release [v]) vs
  | ensure {m : Memory} {v : Value} {vs : List Value} : Worked m (v :: vs) →
      Worked (m.ensureArray v none).2 ((m.ensureArray v none).1 :: vs)
  | store {m : Memory} {v new : Value} {vs : List Value} (cell : Cell) (copy : Bool) :
      Worked m (v :: new :: vs) →
      Worked (m.store v cell new copy none).2 ((m.store v cell new copy none).1 :: vs)
  | storeNested {m : Memory} {v new : Value} {vs : List Value} (path : List Cell) :
      Worked m (v :: new :: vs) →
      Worked (m.storeNested v path new true none).2 ((m.storeNested v path new true none).1 :: vs)
  | makeRoot {m : Memory} {v : Value} {vs : List Value} : Worked m (v :: vs) →
      Worked (m.makeRoot v).2 ((m.makeRoot v).1 :: vs)
  | releaseRoot {m : Memory} {v : Value} {vs : List Value} : Worked m (v :: vs) →
      Worked (m.releaseRoot v).2 ((m.releaseRoot v).1 :: vs)
  | load {m : Memory} {vs : List Value} {input rest : List UInt8} {v : Value} :
      (m.load input).1 = .ok (v, rest) → Worked m vs → Worked (m.load input).2 (v :: vs)
  | loadFails {m : Memory} {vs : List Value} {input : List UInt8} {f : Fault} :
      (m.load input).1 = .error f → Worked m vs → Worked (m.load input).2 vs
  | collect {m : Memory} {vs : List Value} (extra : List NodeId) : Worked m vs →
      Worked (m.collect extra).2 vs

theorem Worked.mirrors {m : Memory} {vs : List Value} (h : Worked m vs) :
    ∃ c, Mirrors True True False m c (vs.map (Prod.mk none)) := by
  induction h with
  | start => exact ⟨{}, mirrors_new _ _ _⟩
  | move hp _ ih =>
    obtain ⟨c, hm⟩ := ih
    exact ⟨c, hm.perm (hp.map _)⟩
  | plain v hv _ ih =>
    obtain ⟨c, hm⟩ := ih
    exact ⟨c, hm.add_null _ hv (by simp)⟩
  | construct tracked rows _ ih =>
    obtain ⟨c, hm⟩ := ih
    rw [List.map_append] at hm
    exact Tree.mirrors_trackedIf hm (fun hfalse => hfalse.elim) tracked
  | @clone m vs v w path hv hpeek _ ih =>
    obtain ⟨c, hm⟩ := ih
    have hheld : m.heap.Holds [v] := by
      intro u hu a ha
      obtain rfl := List.mem_singleton.1 hu
      exact hm.supports.alive (by simpa using hv) ha
    exact ⟨c, hm.retain (holds_peekNested hm.supports hheld hpeek _ (by simp))⟩
  | drop _ ih =>
    obtain ⟨c, hm⟩ := ih
    exact ⟨c, Mirrors.release_one hm fun hfalse => hfalse.elim⟩
  | ensure _ ih =>
    obtain ⟨c, hm⟩ := ih
    exact Mirrors.openForWrite hm false
  | store cell copy _ ih =>
    obtain ⟨c, hm⟩ := ih
    exact Mirrors.store hm (fun hfalse => hfalse.elim) cell copy
  | @storeNested m v new vs path _ ih =>
    obtain ⟨c, hm⟩ := ih
    by_cases hpath : path = []
    · subst hpath
      rw [Memory.storeNested]
      exact ⟨c, Mirrors.release_one hm fun hfalse => hfalse.elim⟩
    · exact Mirrors.storeNested hm hpath (fun _ => rfl) fun hfalse => hfalse.elim
  | makeRoot _ ih =>
    obtain ⟨c, hm⟩ := ih
    exact Mirrors.makeRoot hm
  | releaseRoot _ ih =>
    obtain ⟨c, hm⟩ := ih
    exact Mirrors.releaseRoot hm
  | load hload _ ih =>
    obtain ⟨c, hm⟩ := ih
    exact hm.load_ok hload
  | loadFails hload _ ih =>
    obtain ⟨c, hm⟩ := ih
    exact hm.load_error hload
  | collect extra _ ih =>
    obtain ⟨c, hm⟩ := ih
    exact ⟨_, hm.collect (by simp) extra⟩

/-- Recorded edges always mirror the arrays: the check passes; for every live node whose data is
there, the multiplicity of each target is the number of cells that hold an array with that node; and
data that carries a node carries a live one. -/
theorem Worked.edges_mirror_cells {m : Memory} {vs : List Value} (h : Worked m vs) :
    m.integrityCheck = .ok () ∧ ∃ c, m.collector = some c ∧
      (∀ id n a b, c.node? id = some n → n.payload = .array a → m.heap.block? a = some b →
        ∀ t, c.referenceCount id t = (b.cells.filter fun v => m.node? v = some t).length) ∧
      ∀ a b id, m.heap.block? a = some b → b.node = some id → c.contains id = true := by
  obtain ⟨c, hm⟩ := h.mirrors
  have hok := hm.integrityCheck (by simp)
  refine ⟨hok, c, hm.collector, fun id n a b hn hpay hb t => ?_, fun a b id hb hid => ?_⟩
  · have hcount := (integrityCheck_iff hm.collector hm.tidy).1 hok id n a b hn hpay hb t
    rw [Heap.count_heldNodes, Heap.tracked, List.countP_eq_length_filter] at hcount
    rw [Collector.referenceCount, hn]
    exact hcount.symm
  · obtain ⟨n, hn, -⟩ := hm.linked a b id hb hid
    exact Collector.contains_of_node? hn

def knot : Value × Memory :=
  let (v, m) := ({ collector := some {} } : Memory).newArray #[]
  let (w, m) := m.share v
  m.store v (0, 0) w false none

theorem knot_worked : Worked knot.2 [knot.1] :=
  .store (0, 0) false (.move (List.Perm.swap _ _ _)
    (.clone [] (List.mem_singleton_self _) rfl (.construct true #[] .start)))

/-- The knot carries one edge to itself, and the check still passes once its variable is gone and a
pass has taken it. -/
theorem edges_mirror_cells_knot :
    Worked knot.2 [knot.1] ∧ knot.2.integrityCheck = .ok () ∧
      (knot.2.collector.map fun c => c.referenceCount ⟨0, 0⟩ ⟨0, 0⟩) = some 1 ∧
      ((knot.2.release [knot.1]).collect []).1 = some 1 ∧
      ((knot.2.release [knot.1]).collect []).2.integrityCheck = .ok () :=
  ⟨knot_worked, knot_worked.edges_mirror_cells.1, by cbv, by cbv,
    (Worked.collect [] knot_worked.drop).edges_mirror_cells.1⟩

end Memory
end ScriptVm
