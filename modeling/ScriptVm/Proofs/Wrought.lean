import ScriptVm.Proofs.DistantWrites
import ScriptVm.Proofs.RootAccounting

/-! The memories that operations on arrays lead to, whatever is made of the operations: with the collector or
without it, for any owner, copying or not. Handles stay counted, and data and nodes go on naming each other; of
edges and roots nothing is left to say. -/

namespace ScriptVm

namespace Heap
variable {h h' h'' : Heap}

theorem SameNodes.trans (h₀₁ : h.SameNodes h') (h₁₂ : h'.SameNodes h'') : h.SameNodes h'' := by
  refine ⟨h₀₁.size.trans h₁₂.size, fun a b'' hb'' => ?_⟩
  rcases h₁₂.node a b'' hb'' with ⟨b', hb', hnode⟩ | ⟨hsize, hnone⟩
  · rcases h₀₁.node a b' hb' with ⟨b, hb, hnode'⟩ | ⟨hsize, hnone⟩
    · exact Or.inl ⟨b, hb, hnode.trans hnode'⟩
    · exact Or.inr ⟨hsize, hnode.trans hnone⟩
  · exact Or.inr ⟨h₀₁.size.trans hsize, hnone⟩

theorem sameNodes_refl (h : Heap) : h.SameNodes h := ⟨le_rfl, fun _ b hb => Or.inl ⟨b, hb, rfl⟩⟩

theorem sameNodes_modify (h : Heap) (a : Address) {f : Block → Block} (hf : ∀ b, (f b).node = b.node) :
    h.SameNodes (h.modify a f) := by
  refine ⟨by simp, fun x b' hb' => ?_⟩
  rw [block?_modify] at hb'
  split_ifs at hb' with hx
  · obtain ⟨b, hb, rfl⟩ := Option.map_eq_some_iff.1 hb'
    exact Or.inl ⟨b, hx ▸ hb, hf b⟩
  · exact Or.inl ⟨b', hb', rfl⟩

theorem sameNodes_alloc (h : Heap) (rows : Rows) : h.SameNodes (h.alloc rows).2 := by
  refine ⟨by simp [alloc], fun x b' hb' => ?_⟩
  rw [block?_alloc] at hb'
  split_ifs at hb' with hx
  · exact Or.inr ⟨hx.ge, by rw [← Option.some.inj hb']⟩
  · exact Or.inl ⟨b', hb', rfl⟩

theorem sameNodes_release (h : Heap) (work : List Value) : h.SameNodes (h.release work) :=
  ((shrinks_release h work).evolves []).sameNodes (shrinks_release h work).size

theorem sameNodes_retainAll (h : Heap) (ws : List Value) : h.SameNodes (ws.foldl Heap.retain h) := by
  induction ws generalizing h with
  | nil => exact sameNodes_refl h
  | cons w ws ih =>
    refine SameNodes.trans ?_ (ih (h.retain w))
    unfold Heap.retain
    split
    · exact h.sameNodes_modify _ fun _ => rfl
    · exact sameNodes_refl h

end Heap

namespace Memory
variable {m m' : Memory} {v new : Value} {vs ws : List Value}

/-! ### Without the collector -/

/-- What an operation without the collector leaves: old data keeps its node, and new data has none. -/
structure Unheard (m m' : Memory) : Prop where
  nodes : m.heap.SameNodes m'.heap
  collector : m'.collector = none

theorem Unheard.trans {m'' : Memory} (h₀₁ : m.Unheard m') (h₁₂ : m'.Unheard m'') : m.Unheard m'' :=
  ⟨h₀₁.nodes.trans h₁₂.nodes, h₁₂.collector⟩

theorem unheard_openForWrite (hm : m.collector = none) (v : Value) (copy : Bool) (owner : Option NodeId) :
    m.Unheard (m.openForWrite v copy owner).2.2 := by
  have hshared : ∀ h : Handle, m.Unheard (m.openShared h owner).2.2 := by
    intro h
    unfold Memory.openShared
    cases h.target with
    | some a => exact ⟨Heap.sameNodes_refl _, hm⟩
    | none =>
      dsimp only
      rw [register_untracked (by exact hm), anchor_untracked (by exact hm)]
      exact ⟨m.heap.sameNodes_alloc #[], hm⟩
  unfold Memory.openForWrite
  cases copy with
  | false => exact hshared _
  | true =>
    change m.Unheard (m.openPrivate (handleOf v) owner).2.2
    unfold Memory.openPrivate
    cases (handleOf v).target with
    | none => exact hshared _
    | some a =>
      dsimp only
      split
      · rename_i b hb
        split_ifs
        · rw [split_untracked hm _ owner a b rfl]
          exact ⟨((m.heap.sameNodes_retainAll b.cells).trans (Heap.sameNodes_alloc _ _)).trans
            (Heap.sameNodes_release _ _), rfl⟩
        · exact ⟨Heap.sameNodes_refl _, hm⟩
      · exact ⟨Heap.sameNodes_refl _, hm⟩

theorem unheard_growAt (hm : m.collector = none) (a : Address) (cell : Cell) : m.Unheard (m.growAt a cell) := by
  refine ⟨?_, hm⟩
  exact m.heap.sameNodes_modify a fun _ => rfl

theorem unheard_putCell (hm : m.collector = none) (a : Address) (cell : Cell) (v : Value) :
    m.Unheard (m.putCell a cell v) := by
  refine ⟨?_, hm⟩
  exact m.heap.sameNodes_modify a fun _ => rfl

theorem unheard_overwrite (hm : m.collector = none) (a : Address) (cell : Cell) (v : Value) :
    m.Unheard (m.overwrite a cell v) :=
  (unheard_putCell hm a cell v).trans ⟨Heap.sameNodes_release _ _, hm⟩

theorem unheard_store (hm : m.collector = none) (v : Value) (cell : Cell) (new : Value) (copy : Bool)
    (owner : Option NodeId) : m.Unheard (m.store v cell new copy owner).2 := by
  have hopen := unheard_openForWrite hm v copy owner
  have hgrown := unheard_growAt hopen.collector (m.openForWrite v copy owner).1 cell
  -- no edge is moved
  have hlinks : ∀ f, ((m.openForWrite v copy owner).2.2.growAt (m.openForWrite v copy owner).1 cell).modifyCollector f =
      (m.openForWrite v copy owner).2.2.growAt (m.openForWrite v copy owner).1 cell := by
    intro f
    rw [modifyCollector, hgrown.collector, Option.map_none, ← hgrown.collector]
  unfold store reachCell
  dsimp only
  rw [hlinks]
  exact (hopen.trans hgrown).trans (unheard_overwrite hgrown.collector _ cell new)

theorem unheard_storeNested (hm : m.collector = none) (v : Value) (path : List Cell) (new : Value) (copy : Bool)
    (owner : Option NodeId) : m.Unheard (m.storeNested v path new copy owner).2 := by
  induction path generalizing m v owner with
  | nil => exact ⟨Heap.sameNodes_release _ _, hm⟩
  | cons cell rest ih =>
    by_cases hrest : rest = []
    · subst hrest
      rw [storeNested]
      exact unheard_store hm v cell new copy owner
    rcases hopened : m.openForWrite v copy owner with ⟨a, v', m₁⟩
    have hopen := unheard_openForWrite hm v copy owner
    rw [hopened] at hopen
    have hgrown := unheard_growAt hopen.collector a cell
    have hout := unheard_putCell hgrown.collector a cell .undefined
    rw [storeNested_cons m v cell hrest new copy owner hopened rfl rfl]
    have hbelow := ih hout.collector ((m₁.growAt a cell).cellAt a cell)
      (((m₁.growAt a cell).putCell a cell .undefined).node? v')
    have hback := unheard_growAt hbelow.collector a cell
    exact ((((hopen.trans hgrown).trans hout).trans hbelow).trans hback).trans
      (unheard_overwrite hback.collector a cell _)

/-! ### Sound memories -/

/-- Handles are counted, and data and live nodes name each other. -/
def Sound (m : Memory) (vs : List Value) : Prop := ∃ c, Mirrors False False False m c (vs.map (Prod.mk none))

theorem Sound.supports (h : m.Sound vs) : m.heap.Supports vs := by
  obtain ⟨c, hm⟩ := h
  simpa [Function.comp_def] using hm.supports

theorem Sound.of_hands {c : Collector Tracked} {hands : List Hand} (hm : Mirrors False False False m c hands) :
    m.Sound (hands.map Prod.snd) := by
  refine ⟨c, hm.collector, hm.tidy, ?_, ?_, hm.linked, hm.known, hm.tied, False.elim, False.elim, False.elim, False.elim⟩
  · simpa [Function.comp_def] using hm.supports
  · simp

theorem Sound.of_le (h : m.Sound vs) (hle : ∀ a, handlesOn a ws ≤ handlesOn a vs) : m.Sound ws := by
  have hsupports := h.supports.of_le hle
  obtain ⟨c, hm⟩ := h
  refine ⟨c, hm.collector, hm.tidy, ?_, ?_, hm.linked, hm.known, hm.tied, False.elim, False.elim, False.elim, False.elim⟩
  · simpa [Function.comp_def] using hsupports
  · simp

theorem Sound.recollect (h : m.Sound vs) {f : Collector Tracked → Collector Tracked}
    (htidy : ∀ c, c.Tidy → (f c).Tidy)
    (hpayload : ∀ c id, ((f c).node? id).map (·.payload) = (c.node? id).map (·.payload)) :
    (m.modifyCollector f).Sound vs := by
  obtain ⟨c, hm⟩ := h
  exact ⟨f c, hm.change (by simp [modifyCollector, hm.collector]) (htidy c hm.tidy) hm.supports hm.owners
    (Heap.sameNodes_refl _) (hpayload c) False.elim False.elim False.elim⟩

theorem Sound.change (h : m.Sound vs) (hcollector : m'.collector = m.collector) (hnodes : m.heap.SameNodes m'.heap)
    (hsupports : m'.heap.Supports ws) : m'.Sound ws := by
  obtain ⟨c, hm⟩ := h
  refine ⟨c, hm.change (hcollector.trans hm.collector) hm.tidy ?_ ?_ hnodes (fun _ => rfl) False.elim False.elim
    False.elim⟩
  · simpa [Function.comp_def] using hsupports
  · simp

/-! ### Operations with the collector -/

theorem Sound.newArray {rows : Rows} (h : m.Sound (Rows.cells rows ++ vs)) :
    (m.newArray rows).2.Sound ((m.newArray rows).1 :: vs) := by
  obtain ⟨c, hm⟩ := h
  rw [List.map_append] at hm
  exact Mirrors.newArray rows hm False.elim

theorem Sound.release (h : m.Sound (ws ++ vs)) : (m.release ws).Sound vs := by
  obtain ⟨c, hm⟩ := h
  rw [List.map_append] at hm
  exact ⟨c, hm.release False.elim⟩

theorem Sound.release_one (h : m.Sound (v :: vs)) : (m.release [v]).Sound vs := by
  have hone : m.Sound ([v] ++ vs) := h
  exact hone.release

theorem Sound.makeRoot (h : m.Sound vs) (id : NodeId) : (m.modifyCollector (·.makeRoot id)).Sound vs :=
  h.recollect (f := (·.makeRoot id)) (fun _ hc => hc.makeRoot id) fun c =>
    c.payload_modifyNode id (f := fun n => { n with roots := n.roots + 1 }) fun _ => rfl

theorem Sound.removeRoot (h : m.Sound vs) (id : NodeId) : (m.modifyCollector (·.removeRoot id)).Sound vs :=
  h.recollect (f := (·.removeRoot id)) (fun _ hc => hc.removeRoot id) fun c =>
    c.payload_modifyNode id (f := fun n => { n with roots := n.roots - 1 }) fun _ => rfl

theorem Sound.anchor (h : m.Sound vs) (handle : Handle) (owner : Option NodeId) (a : Address) :
    (m.anchor handle owner a).Sound vs := by
  have hlinked : (m.modifyCollector (·.addReference owner ((m.heap.block? a).bind (·.node)))).Sound vs :=
    h.recollect (f := (·.addReference owner _)) (fun c hc => hc.addReference _ _) fun c => c.payload_addReference _ _
  unfold Memory.anchor
  dsimp only
  split
  · exact hlinked.makeRoot _
  · exact hlinked

theorem Sound.openShared {handle : Handle} (h : m.Sound (.array handle :: vs)) (owner : Option NodeId) :
    (m.openShared handle owner).2.2.Sound (.array (m.openShared handle owner).2.1 :: vs) := by
  unfold Memory.openShared
  cases ht : handle.target with
  | some a => exact h
  | none =>
    have hnull : m.Sound (Rows.cells #[] ++ vs) := h.of_le (by simp [Value.target?, ht])
    exact (hnull.newArray.anchor handle owner m.heap.blocks.size).of_le (by simp [Memory.newArray, Value.target?, Heap.alloc])

theorem Sound.split {handle : Handle} {old : Address} {b : Block} (h : m.Sound (.array handle :: vs))
    (ht : handle.target = some old) (hb : m.heap.block? old = some b) (owner : Option NodeId) :
    (m.split handle owner old b).2.2.Sound (.array (m.split handle owner old b).2.1 :: vs) := by
  obtain ⟨kept, hkept⟩ : ∃ kept : Memory, { m with heap := b.cells.foldl Heap.retain m.heap } = kept := ⟨_, rfl⟩
  have hcells : kept.Sound (Rows.cells b.rows.share ++ (.array { target := some old } :: vs)) := by
    obtain ⟨c, hm⟩ := h
    rw [← hkept]
    refine Sound.of_le (Sound.of_hands (hm.retain_cells hb)) fun a => ?_
    simp [Function.comp_def, Value.target?, ht]
  have hdropped : ∀ {m₁ : Memory} (new : Value), m₁.Sound (new :: .array { target := some old } :: vs) →
      new.target? = some kept.heap.blocks.size → (m₁.release [.array { target := some old }]).Sound
        (.array { handle with target := some kept.heap.blocks.size } :: vs) := by
    intro m₁ new h₁ hnew
    have hheld : (Value.array { handle with target := some kept.heap.blocks.size }).target? = new.target? := hnew.symm
    refine Sound.release_one (h₁.of_le fun a => ?_)
    simp only [handlesOn_cons, hheld]
    omega
  cases hid : b.node with
  | none =>
    rw [split_of_bare hkept hid]
    obtain ⟨c, hm⟩ := hcells
    rw [List.map_append] at hm
    exact hdropped _ ⟨c, hm.place False.elim⟩ rfl
  | some id =>
    rw [split_of_tracked hkept hid rfl]
    have hleft := hcells.newArray.recollect (f := (·.removeReference owner (some id)))
      (fun c hc => hc.removeReference _ _) fun c => c.payload_removeReference _ _
    refine hdropped (kept.newArray b.rows.share).1 (Sound.anchor ?_ handle owner _) rfl
    split_ifs
    · exact hleft.removeRoot id
    · exact hleft

theorem Sound.openForWrite (h : m.Sound (v :: vs)) (copy : Bool) (owner : Option NodeId) :
    (m.openForWrite v copy owner).2.2.Sound ((m.openForWrite v copy owner).2.1 :: vs) := by
  have hhandle : m.Sound (.array (handleOf v) :: vs) := h.of_le fun a => by simp
  unfold Memory.openForWrite
  cases copy with
  | false => exact hhandle.openShared owner
  | true =>
    change (m.openPrivate (handleOf v) owner).2.2.Sound (.array (m.openPrivate (handleOf v) owner).2.1 :: vs)
    unfold Memory.openPrivate
    cases ht : (handleOf v).target with
    | none => exact hhandle.openShared owner
    | some a =>
      dsimp only
      split
      · rename_i b hb
        split_ifs
        · exact hhandle.split ht hb owner
        · exact hhandle
      · exact hhandle

theorem reopen (hs : m.heap.Supports (v :: vs)) {copy : Bool} {owner : Option NodeId} {a : Address} {v' : Value}
    {m₁ : Memory} (hopen : m.openForWrite v copy owner = (a, v', m₁)) : m₁.openForWrite v' copy none = (a, v', m₁) := by
  have ho := opened_openForWrite hs copy owner
  rw [hopen] at ho
  dsimp only at ho
  cases copy with
  | false => exact openForWrite_in_place ho.target none
  | true =>
    obtain ⟨b, hb, -, hone⟩ := ho.block
    cases v' with
    | array handle =>
      have ht : handle.target = some a := ho.target
      simp [Memory.openForWrite, handleOf, Memory.openPrivate, ht, hb, Nat.not_lt.2 (hone (Or.inl rfl))]
    | _ => cases ho.target

theorem store_reopen (hs : m.heap.Supports (v :: vs)) {copy : Bool} {owner : Option NodeId} {a : Address} {v' : Value}
    {m₁ : Memory} (hopen : m.openForWrite v copy owner = (a, v', m₁)) (cell : Cell) (new : Value) :
    m.store v cell new copy owner = m₁.store v' cell new copy none := by
  unfold Memory.store reachCell
  rw [hopen, reopen hs hopen]

theorem storeNested_reopen (hs : m.heap.Supports (v :: vs)) {copy : Bool} {owner : Option NodeId} {a : Address}
    {v' : Value} {m₁ : Memory} (hopen : m.openForWrite v copy owner = (a, v', m₁)) {path : List Cell}
    (hpath : path ≠ []) (new : Value) :
    m.storeNested v path new copy owner = m₁.storeNested v' path new copy none := by
  obtain ⟨cell, rest, rfl⟩ := List.exists_cons_of_ne_nil hpath
  by_cases hrest : rest = []
  · subst hrest
    rw [Memory.storeNested, Memory.storeNested]
    exact store_reopen hs hopen cell new
  · rw [storeNested_cons m v cell hrest new copy owner hopen rfl rfl,
      storeNested_cons m₁ v' cell hrest new copy none (reopen hs hopen) rfl rfl]

theorem Sound.storeNested (h : m.Sound (v :: new :: vs)) (path : List Cell) (copy : Bool) (owner : Option NodeId) :
    (m.storeNested v path new copy owner).2.Sound ((m.storeNested v path new copy owner).1 :: vs) := by
  by_cases hpath : path = []
  · subst hpath
    rw [Memory.storeNested]
    exact h.release_one
  · rcases hopened : m.openForWrite v copy owner with ⟨a, v', m₁⟩
    have hopen := h.openForWrite copy owner
    rw [hopened] at hopen
    rw [storeNested_reopen h.supports hopened hpath]
    obtain ⟨c, hm⟩ := hopen
    exact Mirrors.storeNested hm hpath False.elim False.elim

theorem Sound.store (h : m.Sound (v :: new :: vs)) (cell : Cell) (copy : Bool) (owner : Option NodeId) :
    (m.store v cell new copy owner).2.Sound ((m.store v cell new copy owner).1 :: vs) := by
  have hnested := h.storeNested [cell] copy owner
  rwa [Memory.storeNested] at hnested

theorem Sound.trackedIf {f : Memory → Value × Memory} (h : m.Sound ws) (tracked : Bool)
    (hsound : ∀ m : Memory, m.Sound ws → (f m).2.Sound ((f m).1 :: vs))
    (hunheard : ∀ m : Memory, m.collector = none → m.Unheard (f m).2)
    (hsupports : ∀ m : Memory, m.heap.Supports ws → (f m).2.heap.Supports ((f m).1 :: vs)) :
    (m.trackedIf tracked f).2.Sound ((m.trackedIf tracked f).1 :: vs) := by
  cases tracked with
  | true => exact hsound m h
  | false =>
    have hnone := hunheard { m with collector := none } rfl
    change (m.untracked f).2.Sound ((m.untracked f).1 :: vs)
    exact h.change rfl hnone.nodes (hsupports _ h.supports)

/-- The memories that operations on arrays lead to, with the values of the variables. An operation may be given
the collector or not, any owner, and be told to copy or not. Cells may also be written through references, which
no edge goes with. -/
inductive Wrought : Memory → List Value → Prop where
  | start : Wrought { collector := some {} } []
  /-- Variables exchange what they hold: a value is taken out of one and put in another. -/
  | move {m : Memory} {vs ws : List Value} : vs.Perm ws → Wrought m vs → Wrought m ws
  | plain {m : Memory} {vs : List Value} (v : Value) : v.target? = none → Wrought m vs → Wrought m (v :: vs)
  | construct {m : Memory} {vs : List Value} (tracked : Bool) (rows : Rows) : Wrought m (Rows.cells rows ++ vs) →
      Wrought (m.trackedIf tracked (·.newArray rows)).2 ((m.trackedIf tracked (·.newArray rows)).1 :: vs)
  /-- A clone of what a variable holds or of what a path of cells leads to from it. -/
  | clone {m : Memory} {vs : List Value} {v w : Value} (path : List Cell) : v ∈ vs → m.peekNested v path = .ok w →
      Wrought m vs → Wrought (m.share w).2 ((m.share w).1 :: vs)
  | drop {m : Memory} {v : Value} {vs : List Value} : Wrought m (v :: vs) → Wrought (m.release [v]) vs
  | openForWrite {m : Memory} {v : Value} {vs : List Value} (copy tracked : Bool) (owner : Option NodeId) :
      Wrought m (v :: vs) →
      Wrought (m.trackedIf tracked fun m => (m.openForWrite v copy owner).2).2
        ((m.trackedIf tracked fun m => (m.openForWrite v copy owner).2).1 :: vs)
  | grow {m : Memory} {vs : List Value} (a : Address) (cell : Cell) : Wrought m vs → Wrought (m.growAt a cell) vs
  /-- A reference to a cell puts a value in and takes out what was there. -/
  | exchange {m : Memory} {new old : Value} {vs : List Value} {a : Address} {cell : Cell} :
      m.at? (a, cell) = some old → Wrought m (new :: vs) → Wrought (m.putCell a cell new) (old :: vs)
  | store {m : Memory} {v new : Value} {vs : List Value} (cell : Cell) (copy tracked : Bool) (owner : Option NodeId) :
      Wrought m (v :: new :: vs) →
      Wrought (m.trackedIf tracked (·.store v cell new copy owner)).2
        ((m.trackedIf tracked (·.store v cell new copy owner)).1 :: vs)
  | storeNested {m : Memory} {v new : Value} {vs : List Value} (path : List Cell) (copy tracked : Bool)
      (owner : Option NodeId) : Wrought m (v :: new :: vs) →
      Wrought (m.trackedIf tracked (·.storeNested v path new copy owner)).2
        ((m.trackedIf tracked (·.storeNested v path new copy owner)).1 :: vs)
  | makeRoot {m : Memory} {v : Value} {vs : List Value} : Wrought m (v :: vs) →
      Wrought (m.makeRoot v).2 ((m.makeRoot v).1 :: vs)
  | releaseRoot {m : Memory} {v : Value} {vs : List Value} : Wrought m (v :: vs) →
      Wrought (m.releaseRoot v).2 ((m.releaseRoot v).1 :: vs)
  | load {m : Memory} {vs : List Value} {input rest : List UInt8} {v : Value} :
      (m.load input).1 = .ok (v, rest) → Wrought m vs → Wrought (m.load input).2 (v :: vs)
  | loadFails {m : Memory} {vs : List Value} {input : List UInt8} {f : Fault} :
      (m.load input).1 = .error f → Wrought m vs → Wrought (m.load input).2 vs
  | collect {m : Memory} {vs : List Value} (extra : List NodeId) : Wrought m vs → Wrought (m.collect extra).2 vs

theorem Wrought.sound (h : Wrought m vs) : m.Sound vs := by
  induction h with
  | start => exact ⟨{}, mirrors_new _ _ _⟩
  | move hp _ ih => exact ih.of_le fun a => (handlesOn_perm hp a).ge
  | plain v hv _ ih => exact ih.of_le fun a => by simp [hv]
  | construct tracked rows _ ih =>
    obtain ⟨c, hm⟩ := ih
    rw [List.map_append] at hm
    exact Tree.mirrors_trackedIf hm False.elim tracked
  | @clone m vs v w path hv hpeek _ ih =>
    have hheld := ih.supports.holds.one hv
    obtain ⟨c, hm⟩ := ih
    have hmirrors := hm.retain (holds_peekNested (by simpa [Function.comp_def] using hm.supports) hheld hpeek w
      (List.mem_singleton_self w))
    exact ⟨c, hmirrors⟩
  | drop _ ih => exact ih.release_one
  | openForWrite copy tracked owner _ ih =>
    exact ih.trackedIf tracked (fun _ h => h.openForWrite copy owner)
      (fun _ hm => unheard_openForWrite hm _ copy owner) fun _ hs => (opened_openForWrite hs copy owner).supports
  | grow a cell _ ih =>
    obtain ⟨c, hm⟩ := ih
    exact ⟨c, hm.growAt a cell⟩
  | exchange hold _ ih =>
    obtain ⟨b, hb, hcell⟩ := Option.bind_eq_some_iff.1 hold
    exact ih.change rfl (Heap.sameNodes_modify _ _ fun _ => rfl) (supports_putCell ih.supports hb hcell)
  | store cell copy tracked owner _ ih =>
    exact ih.trackedIf tracked (fun _ h => h.store cell copy owner) (fun _ hm => unheard_store hm _ cell _ copy owner)
      fun _ hs => (written_store hs cell copy owner).supports
  | storeNested path copy tracked owner _ ih =>
    exact ih.trackedIf tracked (fun _ h => h.storeNested path copy owner)
      (fun _ hm => unheard_storeNested hm _ path _ copy owner) fun _ hs => (written_storeNested hs path copy owner).supports
  | makeRoot _ ih =>
    obtain ⟨c, hm⟩ := ih
    exact Mirrors.makeRoot hm
  | releaseRoot _ ih =>
    obtain ⟨c, hm⟩ := ih
    exact Mirrors.releaseRoot hm
  | load hload _ ih =>
    obtain ⟨c, hm⟩ := ih
    exact hm.load_ok hload
  | loadFails hload _ ih =>
    obtain ⟨c, hm⟩ := ih
    exact hm.load_error hload
  | collect extra _ ih =>
    obtain ⟨c, hm⟩ := ih
    exact ⟨_, hm.collect (by simp) extra⟩

/-- If the check passes, the recorded edges are those of the cells. -/
theorem Sound.mirrors (h : m.Sound vs) (hok : m.integrityCheck = .ok ()) :
    ∃ c, Mirrors True True False m c (vs.map (Prod.mk none)) := by
  obtain ⟨c, hm⟩ := h
  have hfree : ∀ s t, m.heap.owed (vs.map (Prod.mk none)) s t = 0 := fun s t => Heap.owed_free m.heap vs s t
  have hcount : ∀ a b id n t, m.heap.block? a = some b → b.node = some id → c.node? id = some n →
      m.heap.tracked t b.cells = n.edges.weight t := by
    intro a b id n t hb hid hn
    obtain ⟨n', hn', hpay⟩ := hm.linked a b id hb hid
    obtain rfl := Option.some.inj (hn.symm.trans hn')
    rw [← Heap.count_heldNodes]
    exact (integrityCheck_iff hm.collector hm.tidy).1 hok id n a b hn hpay hb t
  refine ⟨c, hm.collector, hm.tidy, hm.supports, hm.owners, hm.linked, hm.known, hm.tied, ?_, ?_, False.elim, False.elim⟩
  · intro _ a b id n t hb hid hn
    rw [hfree, hcount a b id n t hb hid hn, Nat.add_zero]
  · intro _ _ a b id n t hb hid hn
    rw [hfree, hcount a b id n t hb hid hn, Nat.add_zero]

end Memory
end ScriptVm
