import ScriptVm.Proofs.Erasure
import ScriptVm.Proofs.FreeRuns

/-! Root counts. Whatever a host does with arrays and edges, and whether the collector hears of it or not,
the root count of a node is the number of slots that hold its array, as long as globals and variables of
instances are left to the program and destroyed instances are removed with the collector. -/

namespace ScriptVm
variable {δ ν ρ : Type}

namespace Memory

section
variable {covering exact counted : Prop} {m : Memory} {c : Collector Tracked} {hands : List Hand}

/-! ### Without the collector -/

theorem split_untracked (hm : m.collector = none) (h : Handle) (owner : Option NodeId) (old : Address) (b : Block)
    {kept : Heap} (hkept : b.cells.foldl Heap.retain m.heap = kept) :
    m.split h owner old b = (kept.blocks.size, { h with target := some kept.blocks.size },
      { heap := (kept.alloc b.rows.share).2.release [.array { target := some old }], collector := none }) := by
  obtain ⟨heap, collector⟩ := m
  obtain rfl : collector = none := hm
  subst hkept
  unfold split
  cases b.node with
  | none => rfl
  | some id =>
    dsimp only
    rw [register_untracked rfl]
    split_ifs
    · rw [anchor_untracked rfl]
      rfl
    · rw [anchor_untracked rfl]
      rfl

theorem Mirrors.copy {old : Address} {b : Block}
    (hm : Mirrors covering exact counted m c ((none, .array { target := some old }) :: hands))
    (hb : m.heap.block? old = some b) {kept : Heap} (hkept : b.cells.foldl Heap.retain m.heap = kept) :
    Mirrors covering exact counted
      { m with heap := (kept.alloc b.rows.share).2.release [.array { target := some old }] } c
      ((none, .array { target := some kept.blocks.size }) :: hands) := by
  have hretained := hm.retain_cells hb
  rw [hkept] at hretained
  have hplaced := hretained.place fun _ _ => isRooted_of_mem_share
  exact (hplaced.perm (List.Perm.swap _ _ _)).release_one fun _ => rfl

theorem Mirrors.openUntracked {v : Value} (hm : Mirrors covering exact counted m c ((none, v) :: hands))
    (hv : v.isRooted = false) (copy : Bool) :
    Mirrors covering exact counted (m.untracked fun m => (m.openForWrite v copy none).2).2 c
      ((none, (m.untracked fun m => (m.openForWrite v copy none).2).1) :: hands) := by
  have hhandle : Mirrors covering exact counted m c ((none, .array (handleOf v)) :: hands) := by
    cases v with
    | array h => exact hm
    | _ => exact (hm.drop_null rfl).add_null _ rfl (by simp)
  have hplain : (handleOf v).rooted = false := by cases v <;> exact hv
  unfold untracked Memory.openForWrite
  generalize handleOf v = h at hhandle hplain ⊢
  obtain ⟨target, rooted⟩ := h
  obtain rfl : rooted = false := hplain
  cases target with
  | none =>
    have hempty : Mirrors covering exact counted m c ((Rows.cells #[]).map (Prod.mk none) ++ hands) :=
      hhandle.drop_null rfl
    have hnew : Mirrors covering exact counted { m with heap := (m.heap.alloc #[]).2 } c
        ((none, .array { target := some (m.heap.alloc #[]).1 }) :: hands) := hempty.place (by simp)
    cases copy <;> simpa [Memory.openPrivate, Memory.openShared, register_untracked, anchor_untracked] using hnew
  | some a =>
    obtain ⟨b, hb⟩ := hhandle.supports.alive List.mem_cons_self (a := a) rfl
    cases copy with
    | false => exact hhandle
    | true =>
      simp only [Memory.openPrivate, hb, if_true]
      split_ifs
      · rw [split_untracked rfl _ _ _ _ rfl]
        exact hhandle.copy hb rfl
      · exact hhandle

/-! ### Edges and cells that need not agree -/

theorem Mirrors.reweigh (hm : Mirrors covering exact counted m c hands) (hcovering : ¬ covering)
    {f : Collector Tracked → Collector Tracked} (htidy : (f c).Tidy)
    (hpayload : ∀ id, ((f c).node? id).map (·.payload) = (c.node? id).map (·.payload))
    (hroots : ∀ id n n', c.node? id = some n → (f c).node? id = some n' → n'.roots = n.roots) :
    Mirrors covering exact counted (m.modifyCollector f) (f c) hands := by
  refine hm.change (by simp [modifyCollector, hm.collector]) htidy hm.supports hm.owners
    ⟨le_rfl, fun a b hb => Or.inl ⟨b, hb, rfl⟩⟩ hpayload (fun hcov => absurd hcov hcovering) ?_ hm.plain
  intro _ id n n' hn hn'
  rw [heap_modifyCollector, hroots id n n' hn hn']

theorem Mirrors.link (hm : Mirrors covering exact counted m c hands) (hcovering : ¬ covering)
    (source target : Option NodeId) :
    Mirrors covering exact counted (m.modifyCollector (·.addReference source target)) (c.addReference source target)
      hands := by
  refine hm.reweigh hcovering (hm.tidy.addReference _ _) (c.payload_addReference _ _) fun id n n' hn hn' => ?_
  by_cases hlive : ∀ x, target = some x → c.contains x = true
  · exact (hm.tidy.weight_addReference hlive hn hn').1
  · push Not at hlive
    obtain ⟨x, rfl, hx⟩ := hlive
    have hsame : c.addReference source (some x) = c := by
      unfold Collector.addReference
      cases source <;> simp [hx]
    rw [hsame] at hn'
    rw [Option.some.inj (hn.symm.trans hn')]

theorem Mirrors.unlink (hm : Mirrors covering exact counted m c hands) (hcovering : ¬ covering)
    (source target : Option NodeId) :
    Mirrors covering exact counted (m.modifyCollector (·.removeReference source target))
      (c.removeReference source target) hands :=
  hm.reweigh hcovering (hm.tidy.removeReference _ _) (c.payload_removeReference _ _) fun _ _ _ hn hn' =>
    (hm.tidy.weight_removeReference hn hn').1

/-- Hands and the cells of an array change places, and the collector does not hear of it. -/
theorem Mirrors.rearrange {ins outs vs : List Value}
    (hm : Mirrors covering exact counted m c ((ins ++ vs).map (Prod.mk none))) (hcovering : ¬ covering)
    (hins : counted → ∀ v ∈ ins, v.isRooted = false) {a : Address} {b : Block} (hb : m.heap.block? a = some b)
    {rows : Rows} (hp : (Rows.cells rows ++ outs).Perm (b.cells ++ ins)) :
    Mirrors covering exact counted { m with heap := m.heap.modify a fun b => { b with rows } } c
      ((outs ++ vs).map (Prod.mk none)) := by
  have hsupports : m.heap.Supports (ins ++ vs) := by simpa [Function.comp_def] using hm.supports
  have hcount : ∀ x, handlesOn x (Rows.cells rows) + handlesOn x outs = handlesOn x b.cells + handlesOn x ins := by
    intro x
    simpa using handlesOn_perm hp x
  have hplain : counted → ∀ v ∈ Rows.cells rows ++ outs, v.isRooted = false := by
    intro hcounted v hv
    rcases List.mem_append.1 (hp.subset hv) with hv | hv
    · exact hm.plain hcounted a b v hb hv
    · exact hins hcounted v hv
  have hnode : ∀ v : Value, (m.heap.modify a fun b => { b with rows }).node? v = m.heap.node? v :=
    Heap.node?_modify fun _ => rfl
  refine hm.change hm.collector hm.tidy ?_ ?_ ?_ (fun _ => rfl) (fun hcov => absurd hcov hcovering) ?_ ?_
  · simpa [Function.comp_def] using
      Heap.Supports.modify ins outs hsupports hb (f := fun b => { b with rows }) rfl hcount
  · simp
  · exact (Heap.evolves_modify hb (f := fun b => { b with rows }) rfl hcount).sameNodes (by simp)
  · intro hcounted id n n' hn hn'
    obtain rfl := Option.some.inj (hn.symm.trans hn')
    rw [Heap.rootsOn_congr fun hand _ => hnode hand.2, List.map_append, List.map_append, Heap.rootsOn_append,
      Heap.rootsOn_append, Heap.rootsOn_free (hins hcounted),
      Heap.rootsOn_free fun v hv => hplain hcounted v (List.mem_append_right _ hv)]
  · intro hcounted x b' v hb' hv
    dsimp only at hb'
    rw [Heap.block?_modify] at hb'
    split_ifs at hb' with hx
    · rw [hb, Option.map_some, Option.some.injEq] at hb'
      subst hb'
      exact hplain hcounted v (List.mem_append_left _ hv)
    · exact hm.plain hcounted x b' v hb' hv

theorem Mirrors.construct_owner (hm : Mirrors covering exact counted m c hands) (hcovering : ¬ covering) :
    Mirrors covering exact counted (m.modifyCollector fun c => (c.construct .owner).2) (c.construct .owner).2
      hands := by
  have hget : ∀ id, (c.construct .owner).2.node? id =
      if id = (c.construct .owner).1 then some { payload := .owner } else c.node? id := hm.tidy.node?_construct .owner
  have hfresh : c.node? (c.construct .owner).1 = none := hm.tidy.node?_fresh .owner
  have hold : ∀ {id n}, c.node? id = some n → (c.construct .owner).2.node? id = some n := by
    intro id n hn
    rw [hget, if_neg, hn]
    rintro rfl
    rw [hfresh] at hn
    cases hn
  -- what is new stands for no array
  have hnew : ∀ {id n a}, (c.construct .owner).2.node? id = some n → n.payload = .array a → c.node? id = some n := by
    intro id n a hn hpay
    rw [hget] at hn
    split_ifs at hn
    · obtain rfl := Option.some.inj hn
      cases hpay
    · exact hn
  refine ⟨by simp [modifyCollector, hm.collector], hm.tidy.construct .owner, hm.supports, ?_, ?_, ?_, ?_,
    fun hcov => absurd hcov hcovering, fun hcov => absurd hcov hcovering, ?_, hm.plain⟩
  · intro id hid
    obtain ⟨n, hn⟩ := (c.contains_iff id).1 (hm.owners id hid)
    exact Collector.contains_of_node? (hold hn)
  · intro a b id hb hid
    obtain ⟨n, hn, hpay⟩ := hm.linked a b id hb hid
    exact ⟨n, hold hn, hpay⟩
  · exact fun id n a hn hpay => hm.known id n a (hnew hn hpay) hpay
  · exact fun id n a b hn hpay => hm.tied id n a b (hnew hn hpay) hpay
  · intro hcounted id n hn
    rw [hget] at hn
    split_ifs at hn with hid
    · obtain rfl := Option.some.inj hn
      rw [hid]
      exact (hm.rootsOn_fresh hfresh).symm
    · exact hm.rooted hcounted id n hn

end

/-! ### What a host does with its own -/

namespace Custody
variable {strict : Prop} {m m' : Memory} {free slots kept : List Value}

theorem relax (h : Custody strict m free slots kept) : Custody False m free slots kept := by
  obtain ⟨c, hm⟩ := h.mirrors
  exact ⟨⟨c, hm.collector, hm.tidy, hm.supports, hm.owners, hm.linked, hm.known, hm.tied, False.elim, False.elim,
    hm.rooted, hm.plain⟩, False.elim, h.plain, h.rooted⟩

/-- A host takes some of its values and leaves others; edges need not be kept. -/
theorem rework (taken given : List Value) (h : Custody False m free slots (taken ++ kept))
    (hm : ∀ c vs, Mirrors False False True m c ((taken ++ vs).map (Prod.mk none)) →
      ∃ c', Mirrors False False True m' c' ((given ++ vs).map (Prod.mk none)))
    (hplain : ∀ v ∈ given, v.isRooted = false) : Custody False m' free slots (given ++ kept) := by
  obtain ⟨c, hmirrors⟩ := h.hands (taken ++ (free ++ slots ++ kept)) (List.perm_append_comm_assoc _ _ _)
  obtain ⟨c', hmirrors'⟩ := hm c _ hmirrors
  refine of_hands _ hmirrors' (List.perm_append_comm_assoc _ _ _) False.elim ?_ h.rooted
  intro v hv
  rcases List.mem_append.1 hv with hv | hv
  · exact h.plain v (List.mem_append_left _ hv)
  · rcases List.mem_append.1 hv with hv | hv
    · exact hplain v hv
    · exact h.plain v (List.mem_append_right _ (List.mem_append_right _ hv))

/-- A node has as many roots as there are slots with its array. -/
theorem roots_eq (h : Custody strict m free slots kept) {c : Collector Tracked}
    (hm : Mirrors strict False True m c ((free ++ slots ++ kept).map (Prod.mk none))) {id : NodeId} {n : Node Tracked}
    (hn : c.node? id = some n) : n.roots = slots.countP fun v => decide (m.node? v = some id) := by
  have hslots : m.heap.rootsOn (slots.map (Prod.mk none)) id = slots.countP fun v => decide (m.node? v = some id) := by
    rw [Heap.rootsOn, List.countP_map]
    apply List.countP_congr
    intro v hv
    simp only [Function.comp, decide_eq_true_eq]
    refine ⟨And.right, fun hnode => ⟨h.rooted v hv fun hnone => ?_, hnode⟩⟩
    rw [Memory.node?, Heap.node?_eq_none hnone] at hnode
    cases hnode
  rw [hm.rooted trivial id n hn, List.map_append, List.map_append, Heap.rootsOn_append, Heap.rootsOn_append, hslots,
    Heap.rootsOn_free fun v hv => h.plain v (List.mem_append_left _ hv),
    Heap.rootsOn_free fun v hv => h.plain v (List.mem_append_right _ hv), Nat.zero_add, Nat.add_zero]

end Custody
end Memory

namespace Core.Stocked
variable {strict : Prop} {c : Core} {hand pool : List Value}

theorem relax (hc : c.Stocked strict hand pool) : c.Stocked False hand pool := ⟨hc.custody.relax, hc.world⟩

theorem rework (taken given : List Value) {m' : Memory} (hc : c.Stocked False hand (taken ++ pool))
    (hm : ∀ c' vs, Memory.Mirrors False False True c.memory c' ((taken ++ vs).map (Prod.mk none)) →
      ∃ c'', Memory.Mirrors False False True m' c'' ((given ++ vs).map (Prod.mk none)))
    (hplain : ∀ v ∈ given, v.isRooted = false) :
    ({ c with memory := m' } : Core).Stocked False hand (given ++ pool) := by
  have hcustody := hc.custody
  rw [List.append_assoc] at hcustody
  refine ⟨?_, hc.world⟩
  rw [List.append_assoc]
  exact hcustody.rework taken given hm hplain

end Core.Stocked

/-! ### The host -/

/-- What a host does that need not keep the collector informed. It does as in `HostMove`, and moreover
adds what roots it likes to a pass, leaves any value of its own to a built-in variable or on the operand
stack, opens arrays for writing with the collector or without, puts values into cells and takes them out
without a word, and adds, moves and removes edges. It makes no roots of its own. -/
inductive HostDeed : Core × List Value → Core × List Value → Prop where
  | move {s s' : Core × List Value} : HostMove s s' → HostDeed s s'
  | pass (c : Core) (pool : List Value) (extra : List NodeId) :
      HostDeed (c, pool) ({ c with memory := (c.memory.collect extra).2 }, pool)
  | declare (c : Core) (pool : List Value) (id : InstanceId) (slot : VariableId) (v : Value) :
      HostDeed (c, v :: pool) ({ c with
        world := (c.world.defineBuiltin c.memory id slot v).1
        memory := (c.world.defineBuiltin c.memory id slot v).2 }, pool)
  | exchange (c : Core) (pool : List Value) (stack : Array Value) (pool' : List Value) :
      (c.executor.stack.toList ++ pool).Perm (stack.toList ++ pool') →
      HostDeed (c, pool) ({ c with executor := { c.executor with stack } }, pool')
  | prepare (c : Core) (pool : List Value) (v : Value) (copy tracked : Bool) :
      HostDeed (c, v :: pool)
        ({ c with memory := (c.memory.trackedIf tracked fun m => (m.openForWrite v copy none).2).2 },
          (c.memory.trackedIf tracked fun m => (m.openForWrite v copy none).2).1 :: pool)
  /-- Gives an array other rows, of its cells and of values of the pool. -/
  | rearrange (c : Core) (pool : List Value) (a : Address) (b : Block) (rows : Rows) (pool' : List Value) :
      c.memory.heap.block? a = some b → (Rows.cells rows ++ pool').Perm (b.cells ++ pool) →
      HostDeed (c, pool)
        ({ c with memory := { c.memory with heap := c.memory.heap.modify a fun b => { b with rows } } }, pool')
  | store (c : Core) (pool : List Value) (v new : Value) (path : List Cell) (copy : Bool) : path ≠ [] →
      HostDeed (c, v :: new :: pool)
        ({ c with memory := (c.memory.storeNested v path new copy none).2 },
          (c.memory.storeNested v path new copy none).1 :: pool)
  | link (c : Core) (pool : List Value) (source target : Option NodeId) :
      HostDeed (c, pool) ({ c with memory := c.memory.modifyCollector (·.addReference source target) }, pool)
  | unlink (c : Core) (pool : List Value) (source target : Option NodeId) :
      HostDeed (c, pool) ({ c with memory := c.memory.modifyCollector (·.removeReference source target) }, pool)
  /-- Makes a node for an object of its own. -/
  | construct (c : Core) (pool : List Value) :
      HostDeed (c, pool) ({ c with memory := c.memory.modifyCollector fun c => (c.construct .owner).2 }, pool)

theorem HostDeed.stocked {s s' : Core × List Value} (h : HostDeed s s') (hs : s.1.Stocked False [] s.2) :
    s'.1.Stocked False [] s'.2 := by
  have hnot : ¬ False := id
  cases h with
  | move hmove => exact hmove.stocked hs
  | pass c pool extra =>
    refine hs.rework [] [] (fun c' vs hm => ⟨_, hm.collect ?_ extra⟩) (by simp)
    intro hand hhand
    obtain ⟨v, -, rfl⟩ := List.mem_map.1 hhand
    rfl
  | declare c pool id slot v => exact (hs.give False.elim).define id slot
  | exchange c pool stack pool' hp =>
    refine ⟨?_, hs.world⟩
    have hcustody := hs.custody
    rw [List.append_nil] at hcustody ⊢
    refine hcustody.exchange ?_ False.elim
    rw [← List.append_assoc, ← List.append_assoc]
    exact hp.append_right _
  | prepare c pool v copy tracked =>
    have hv : v.isRooted = false := hs.custody.plain v (by simp)
    refine hs.rework [v] [_] (fun c' vs hm => ?_) ?_
    · cases tracked with
      | true => exact Memory.Mirrors.openForWrite hm copy
      | false => exact ⟨c', Memory.Mirrors.openUntracked hm hv copy⟩
    · intro w hw
      rw [List.mem_singleton.1 hw]
      cases tracked <;> exact (Memory.isRooted_openForWrite _ v copy none).trans hv
  | rearrange c pool a b rows pool' hb hp =>
    have hpool : ∀ v ∈ pool, v.isRooted = false := fun v hv => hs.custody.plain v (by simp [hv])
    obtain ⟨c₀, hm₀⟩ := hs.custody.mirrors
    have hall : c.Stocked False [] (pool ++ []) := by rwa [List.append_nil]
    have hreworked := hall.rework pool pool'
      (fun c' vs hm => ⟨c', hm.rearrange hnot (fun _ => hpool) hb hp⟩) fun v hv => ?_
    · rwa [List.append_nil] at hreworked
    · rcases List.mem_append.1 (hp.subset (List.mem_append_right _ hv)) with hv | hv
      · exact hm₀.plain trivial a b v hb hv
      · exact hpool v hv
  | store c pool v new path copy hpath =>
    have hgiven := (Memory.Custody.give hs.custody False.elim).give False.elim
    refine ⟨Memory.Custody.take ?_, hs.world⟩
    exact (hgiven.perm_free (List.Perm.swap _ _ _)).storeNested hpath copy
  | link c pool source target =>
    exact hs.rework [] [] (fun c' vs hm => ⟨_, hm.link hnot source target⟩) (by simp)
  | unlink c pool source target =>
    exact hs.rework [] [] (fun c' vs hm => ⟨_, hm.unlink hnot source target⟩) (by simp)
  | construct c pool =>
    exact hs.rework [] [] (fun c' vs hm => ⟨_, hm.construct_owner hnot⟩) (by simp)

theorem stocked_hostDeeds {s s' : Core × List Value} (h : Relation.ReflTransGen HostDeed s s')
    (hs : s.1.Stocked False [] s.2) : s'.1.Stocked False [] s'.2 := by
  induction h with
  | refl => exact hs
  | tail _ hdeed ih => exact hdeed.stocked ih

/-! ### Runs -/

/-- A run with any host and any natives that leave globals and variables of instances to the program. As a
`FreeRun`, but what host and natives do are deeds, and nothing need be tracked. -/
inductive HostedRun (env : Environment δ ν) : State δ ν ρ → List Value → Prop where
  | start (config : Config) (code : Task δ ν ρ) : config.collecting = true →
      HostedRun env ⟨.new config {}, .host code, []⟩ []
  | step {s s' : State δ ν ρ} {pool pool' : List Value} : HostedRun env s pool → pool.Perm (s.returned ++ pool') →
      s.acts = false → (∀ v ∈ s.arguments, s.machine.core.memory.heap.Holds [v]) → s.step env = .inl s' →
      HostedRun env s' (s.delivered ++ s.entrusted env ++ pool')
  | act {m : Machine δ ν} {waiting : List (Waiting δ ν ρ)} {pool pool' : List Value}
      {f : Machine δ ν → Task δ ν ρ × Machine δ ν} : HostedRun env ⟨m, .host (.act f), waiting⟩ pool →
      Relation.ReflTransGen HostDeed (m.core, pool) ((f m).2.core, pool') →
      HostedRun env ⟨(f m).2, .host (f m).1, waiting⟩ pool'
  | again {s : State δ ν ρ} {pool : List Value} {r : ρ} {m : Machine δ ν} (code : Task δ ν ρ) : HostedRun env s pool →
      s.step env = .inr (r, m) → HostedRun env ⟨m, .host code, []⟩ pool

section
variable {env : Environment δ ν} {s : State δ ν ρ} {pool : List Value}

theorem FreeRun.hosted (h : FreeRun env s pool) : HostedRun env s pool := by
  induction h with
  | start config code hcollecting => exact .start config code hcollecting
  | step _ hpool hacts harguments hstep _ ih => exact ih.step hpool hacts (fun v hv => (harguments v hv).1) hstep
  | act _ hmoves ih => exact ih.act (hmoves.lift id fun _ _ => .move)
  | again code _ hstep ih => exact ih.again code hstep

namespace HostedRun

theorem stocked (h : HostedRun env s pool) : s.machine.core.Stocked False [] pool := by
  induction h with
  | start config code hcollecting =>
    have hfree : FreeRun env ⟨.new config {}, .host code, []⟩ [] := .start config code hcollecting
    exact hfree.stocked.relax
  | step _ hpool hacts harguments hstep ih =>
    refine State.stocked_transition ⟨?_, ih.world⟩ hacts (fun v hv => ⟨harguments v hv, False.elim⟩) hstep False.elim
    exact ih.custody.perm (List.Perm.refl _) (List.Perm.refl _) (hpool.append_right _)
  | act _ hdeeds ih => exact stocked_hostDeeds hdeeds ih
  | again code _ hstep ih =>
    rw [← Run.finish_inr hstep]
    exact ih

/-- At any moment of a run a live node has as many roots as there are globals and variables of instances,
destroyed ones up to their removal among them, whose array is its own; so it is a root as long as there is
one, and no longer. Nothing else is flagged as a root: no value on the operand stack, in a built-in
variable, with the host or in a cell. -/
theorem roots_accounted (h : HostedRun env s pool) :
    ∃ c, s.machine.core.memory.collector = some c ∧
      (∀ id n, c.node? id = some n →
        n.roots = s.machine.core.world.slots.countP fun v => decide (s.machine.core.memory.node? v = some id)) ∧
      (∀ id, c.isRoot id = true ↔
        ∃ v ∈ s.machine.core.world.slots, s.machine.core.memory.node? v = some id) ∧
      (∀ v ∈ s.machine.core.executor.stack.toList ++ s.machine.core.world.builtinValues ++ pool,
        v.isRooted = false) ∧
      ∀ a b v, s.machine.core.memory.heap.block? a = some b → v ∈ b.cells → v.isRooted = false := by
  have hcustody := h.stocked.custody
  rw [List.append_nil] at hcustody
  obtain ⟨c, hm⟩ := hcustody.mirrors
  have hcount : ∀ {id n}, c.node? id = some n → _ := fun hn => hcustody.roots_eq hm hn
  refine ⟨c, hm.collector, fun id n => hcount, fun id => ⟨fun hroot => ?_, ?_⟩, fun v hv => ?_, hm.plain trivial⟩
  · obtain ⟨n, hn, hpos⟩ := (c.isRoot_iff id).1 hroot
    rw [hcount hn] at hpos
    simpa using List.countP_pos_iff.1 hpos
  · rintro ⟨v, hv, hnode⟩
    exact hcustody.isRoot_slot hm hv hnode
  · refine hcustody.plain v ?_
    simp only [List.mem_append] at hv ⊢
    tauto

/-- The one global of the state is the root of its array, and the native's other array has none. -/
theorem roots_accounted_lent :
    HostedRun .sweeping lent [.array { target := some 0 }, .array { target := some 1 }] ∧
      lent.machine.core.world.slots.countP (fun v => decide (lent.machine.core.memory.node? v = some ⟨0, 0⟩)) = 1 ∧
      lent.machine.core.memory.collector.any (·.isRoot ⟨0, 0⟩) = true ∧
      ∀ v ∈ lent.machine.core.world.slots, lent.machine.core.memory.node? v ≠ some ⟨1, 0⟩ := by
  obtain ⟨hrun, hmemory, -⟩ := run_lent
  obtain ⟨c, hc, hcount, hroot, -, -⟩ := hrun.hosted.roots_accounted
  have hcollector : lent.machine.core.memory.collector = twoArrays.collector := by rw [hmemory]
  obtain rfl : _ = c := Option.some.inj (hcollector.symm.trans hc)
  refine ⟨hrun.hosted, (hcount ⟨0, 0⟩ { roots := 1, payload := .array 0 } rfl).symm, ?_, fun v hv hnode => ?_⟩
  · rw [hcollector]
    rfl
  · cases (hroot ⟨1, 0⟩).2 ⟨v, hv, hnode⟩

end HostedRun
end
end ScriptVm
