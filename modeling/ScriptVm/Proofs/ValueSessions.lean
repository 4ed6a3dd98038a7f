import ScriptVm.Proofs.Entries
import ScriptVm.Proofs.ValueSemantics

/-! Sessions over named variables. The model keeps an immutable tree in each variable; the session
keeps handles on shared data. Step by step the two show the same. -/

namespace ScriptVm

namespace Literal

mutual

/-- Whether every scalar that is written down is one. -/
def plain : Literal → Bool
  | .scalar v => !v.isArray
  | .null => true
  | .array _ rows => plainRows rows
  | .register _ => true

def plainRows : List (List Literal) → Bool
  | [] => true
  | row :: rows => plainCells row && plainRows rows

def plainCells : List Literal → Bool
  | [] => true
  | cell :: cells => cell.plain && plainCells cells

end

mutual

/-- The tree that is written down, with the variables looked up. -/
def tree (vars : String → Tree Unit) : Literal → Tree Unit
  | .scalar v => .scalar v
  | .null => .null ()
  | .array _ rows => .array () (treeRows vars rows)
  | .register name => vars name

def treeRows (vars : String → Tree Unit) : List (List Literal) → List (List (Tree Unit))
  | [] => []
  | row :: rows => treeCells vars row :: treeRows vars rows

def treeCells (vars : String → Tree Unit) : List Literal → List (Tree Unit)
  | [] => []
  | cell :: cells => cell.tree vars :: treeCells vars cells

end

end Literal

/-- What building leaves: all blocks, no cycle, and the new values behind the others. -/
structure Built (m : Memory) (news vs : List Value) (m' : Memory) : Prop where
  supports : m'.heap.Supports (news ++ vs)
  keeps : m.heap.Extends m'.heap
  acyclic : m'.heap.Acyclic

namespace Built
variable {m m₁ m₂ : Memory} {news news' vs : List Value}

theorem refl (hs : m.heap.Supports vs) (ha : m.heap.Acyclic) : Built m [] vs m :=
  ⟨hs, Heap.Extends.refl _, ha⟩

theorem trans (h₁ : Built m news vs m₁) (h₂ : Built m₁ news' (news ++ vs) m₂) :
    Built m (news ++ news') vs m₂ := by
  refine ⟨h₂.supports.perm ?_, h₁.keeps.trans h₂.keeps, h₂.acyclic⟩
  rw [← List.append_assoc]
  exact List.perm_append_comm.append_right vs

theorem tree (hb : Built m news vs m₁) (ha : m.heap.Acyclic) {us : List Value}
    (hs : m.heap.Supports us) {w : Value} (hw : w ∈ us) : m₁.heap.tree w = m.heap.tree w :=
  hb.keeps.tree ha hb.acyclic hs (hs.holds.one hw)

theorem trees (hb : Built m news vs m₁) (ha : m.heap.Acyclic) {us : List Value}
    (hs : m.heap.Supports us) {ws : List Value} (hws : ∀ w ∈ ws, w ∈ us) :
    ws.map m₁.heap.tree = ws.map m.heap.tree := by
  apply List.map_congr_left
  intro w hw
  exact hb.tree ha hs (hws w hw)

end Built

theorem built_array {m m₁ : Memory} {vs : List Value} {cells : List (List Value)}
    {trees : List (List (Tree Unit))} (tracked : Bool) (hb : Built m cells.flatten vs m₁)
    (htrees : (cells.map fun row => row.map m₁.heap.tree) = trees) :
    Built m [(m₁.trackedIf tracked (·.newArray (cells.map List.toArray).toArray)).1] vs
        (m₁.trackedIf tracked (·.newArray (cells.map List.toArray).toArray)).2 ∧
      (m₁.trackedIf tracked (·.newArray (cells.map List.toArray).toArray)).2.heap.tree
          (m₁.trackedIf tracked (·.newArray (cells.map List.toArray).toArray)).1 = .array () trees := by
  obtain ⟨hvalue, hplaced⟩ := Memory.placed_trackedIf m₁ tracked (cells.map List.toArray).toArray
  set v := (m₁.trackedIf tracked (·.newArray (cells.map List.toArray).toArray)).1
  set m₂ := (m₁.trackedIf tracked (·.newArray (cells.map List.toArray).toArray)).2
  have htarget : v.target? = some m₁.heap.blocks.size := by rw [hvalue]; rfl
  have hcells : m₁.heap.Supports (Rows.cells (cells.map List.toArray).toArray ++ vs) := by
    rw [Rows.cells_ofLists]
    exact hb.supports
  have hs := hplaced.supports hcells htarget
  obtain ⟨b, hblock, hrows, hone⟩ := hplaced.block
  have ha : m₂.heap.Acyclic := by
    refine hb.acyclic.of_isolated hs (hs.sole htarget hblock hone.le).1 fun x b' hx hb' => ?_
    exact ⟨b', by rw [← hplaced.other x hx, hb'], rfl⟩
  have hbuilt : Built m [v] vs m₂ := ⟨hs, hb.keeps.trans hplaced.keeps, ha⟩
  refine ⟨hbuilt, ?_⟩
  rw [Heap.tree_array ha htarget hblock, hrows, ← htrees]
  simp only [List.map_map, Function.comp_def]
  congr 1
  apply List.map_congr_left
  intro row hrow
  apply List.map_congr_left
  intro w hw
  refine hplaced.keeps.tree hb.acyclic ha hb.supports (hb.supports.holds.one ?_)
  exact List.mem_append_left _ (List.mem_flatten.2 ⟨row, hrow, hw⟩)

/-- Registers whose values are there and stand for the trees of the variables. -/
def Shows (h : Heap) (registers : String → Value) (vars : String → Tree Unit) : Prop :=
  ∀ name, h.Holds [registers name] ∧ h.tree (registers name) = vars name

theorem Shows.mono {h h' : Heap} {registers : String → Value} {vars : String → Tree Unit}
    (hshow : Shows h registers vars) (he : h.Extends h') (ha : h.Acyclic) (ha' : h'.Acyclic)
    {us : List Value} (hs : h.Supports us) : Shows h' registers vars := by
  intro name
  obtain ⟨hheld, htree⟩ := hshow name
  exact ⟨hheld.mono he, by rw [he.tree ha ha' hs hheld, htree]⟩

namespace Literal
variable {registers : String → Value} {vars : String → Tree Unit}

mutual

theorem built_resolve (l : Literal) {m : Memory} {vs : List Value} (hs : m.heap.Supports vs)
    (ha : m.heap.Acyclic) (hshow : Shows m.heap registers vars) (hplain : l.plain = true) :
    Built m [((l.resolve registers).build id m).1] vs ((l.resolve registers).build id m).2 ∧
      ((l.resolve registers).build id m).2.heap.tree ((l.resolve registers).build id m).1 =
        l.tree vars := by
  cases l with
  | scalar v =>
    have hv : v.isArray = false := by simpa [plain] using hplain
    have htarget : v.target? = none := Value.target?_of_not_array hv
    have hshare : v.share = v := by cases v <;> first | rfl | cases hv
    have hkept : m.heap.retain v = m.heap := by
      unfold Heap.retain
      rw [htarget]
    rw [resolve, Tree.build, tree]
    refine ⟨⟨?_, ?_, ?_⟩, ?_⟩
    · simpa only [Memory.share, Memory.retain, hkept, hshare] using hs.of_le (by simp [htarget])
    · simpa only [Memory.share, Memory.retain, hkept] using Heap.Extends.refl m.heap
    · simpa only [Memory.share, Memory.retain, hkept] using ha
    · simpa only [Memory.share, Memory.retain, hkept, hshare] using Heap.tree_scalar hv
  | null =>
    rw [resolve, Tree.build, tree]
    exact ⟨⟨hs.of_le (by simp [Value.target?]), Heap.Extends.refl _, ha⟩, Heap.tree_null rfl⟩
  | register name =>
    obtain ⟨hheld, htree⟩ := hshow name
    have hsame := Heap.sameRows_retain m.heap (registers name)
    have ha' : (m.heap.retain (registers name)).Acyclic := by
      refine ha.of_rows fun x b' hb' => ?_
      have hrows := hsame.rows x
      rw [hb', Option.map_some] at hrows
      obtain ⟨b, hb, heq⟩ := Option.map_eq_some_iff.1 hrows.symm
      exact ⟨b, hb, heq.symm⟩
    rw [resolve, Tree.build, tree]
    refine ⟨⟨?_, hsame.keeps, ha'⟩, ?_⟩
    · exact (hs.retain (hheld _ (List.mem_singleton_self _))).of_le (by simp [Memory.share])
    · rw [← htree]
      exact (Heap.tree_share ha' _).trans (hsame.keeps.tree ha ha' hs hheld)
  | array tracked rows =>
    rw [resolve, Tree.build, tree]
    obtain ⟨hbuilt, htrees⟩ := built_resolveRows rows hs ha hshow hplain
    rcases hrows : Tree.buildRows id (resolveRows registers rows) m with ⟨cells, m₁⟩
    rw [hrows] at hbuilt htrees
    dsimp only at hbuilt htrees ⊢
    exact built_array tracked hbuilt htrees

theorem built_resolveRows (rows : List (List Literal)) {m : Memory} {vs : List Value}
    (hs : m.heap.Supports vs) (ha : m.heap.Acyclic) (hshow : Shows m.heap registers vars)
    (hplain : plainRows rows = true) :
    Built m (Tree.buildRows id (resolveRows registers rows) m).1.flatten vs
        (Tree.buildRows id (resolveRows registers rows) m).2 ∧
      ((Tree.buildRows id (resolveRows registers rows) m).1.map fun row =>
        row.map (Tree.buildRows id (resolveRows registers rows) m).2.heap.tree) = treeRows vars rows := by
  cases rows with
  | nil =>
    rw [resolveRows, Tree.buildRows, treeRows]
    exact ⟨Built.refl hs ha, rfl⟩
  | cons row rows =>
    obtain ⟨hrow, hrows⟩ := (Bool.and_eq_true _ _).mp hplain
    rw [resolveRows, Tree.buildRows, treeRows]
    obtain ⟨hbuilt, htrees⟩ := built_resolveCells row hs ha hshow hrow
    rcases hcells : Tree.buildCells id (resolveCells registers row) m with ⟨cells, m₁⟩
    rw [hcells] at hbuilt htrees
    dsimp only at hbuilt htrees ⊢
    obtain ⟨hbuilt', htrees'⟩ := built_resolveRows rows hbuilt.supports hbuilt.acyclic
      (hshow.mono hbuilt.keeps ha hbuilt.acyclic hs) hrows
    rcases hrest : Tree.buildRows id (resolveRows registers rows) m₁ with ⟨rest, m₂⟩
    rw [hrest] at hbuilt' htrees'
    refine ⟨hbuilt.trans hbuilt', ?_⟩
    rw [List.map_cons, htrees', ← htrees]
    congr 1
    exact hbuilt'.trees hbuilt.acyclic hbuilt.supports fun w hw => List.mem_append_left _ hw

theorem built_resolveCells (cells : List Literal) {m : Memory} {vs : List Value}
    (hs : m.heap.Supports vs) (ha : m.heap.Acyclic) (hshow : Shows m.heap registers vars)
    (hplain : plainCells cells = true) :
    Built m (Tree.buildCells id (resolveCells registers cells) m).1 vs
        (Tree.buildCells id (resolveCells registers cells) m).2 ∧
      ((Tree.buildCells id (resolveCells registers cells) m).1.map
        (Tree.buildCells id (resolveCells registers cells) m).2.heap.tree) = treeCells vars cells := by
  cases cells with
  | nil =>
    rw [resolveCells, Tree.buildCells, treeCells]
    exact ⟨Built.refl hs ha, rfl⟩
  | cons cell cells =>
    obtain ⟨hcell, hcells⟩ := (Bool.and_eq_true _ _).mp hplain
    rw [resolveCells, Tree.buildCells, treeCells]
    obtain ⟨hbuilt, htree⟩ := built_resolve cell hs ha hshow hcell
    rcases hone : (cell.resolve registers).build id m with ⟨v, m₁⟩
    rw [hone] at hbuilt htree
    dsimp only at hbuilt htree ⊢
    obtain ⟨hbuilt', htrees'⟩ := built_resolveCells cells hbuilt.supports hbuilt.acyclic
      (hshow.mono hbuilt.keeps ha hbuilt.acyclic hs) hcells
    rcases hrest : Tree.buildCells id (resolveCells registers cells) m₁ with ⟨rest, m₂⟩
    rw [hrest] at hbuilt' htrees'
    refine ⟨hbuilt.trans hbuilt', ?_⟩
    rw [List.map_cons, htrees', ← htree]
    congr 1
    exact hbuilt'.tree hbuilt.acyclic hbuilt.supports List.mem_cons_self

end

end Literal

/-! ### Writing through one of several values -/

/-- A value that was written through, and others that did not see it. -/
structure Rewritten (m : Memory) (others : List Value) (v' : Value) (t : Tree Unit) (m' : Memory) : Prop where
  supports : m'.heap.Supports (v' :: others)
  acyclic : m'.heap.Acyclic
  tree : m'.heap.tree v' = t
  others : ∀ w ∈ others, m'.heap.tree w = m.heap.tree w

namespace Memory
variable {m m' : Memory} {vs : List Value} {v new : Value}

theorem trackedIf_heap {α : Type} (m : Memory) (tracked : Bool) (f : Memory → α × Memory) :
    ∃ m' : Memory, m'.heap = m.heap ∧ (m.trackedIf tracked f).1 = (f m').1 ∧
      (m.trackedIf tracked f).2.heap = (f m').2.heap := by
  cases tracked with
  | true => exact ⟨m, rfl, rfl, rfl⟩
  | false => exact ⟨{ m with collector := none }, rfl, rfl, rfl⟩

theorem Written.rewritten {v' : Value} {t : Tree Unit} (hw : Written true m.heap v new vs v' m'.heap)
    (hs : m.heap.Supports (v :: new :: vs)) (ha : m.heap.Acyclic)
    (htree : m'.heap.Acyclic ∧ m'.heap.tree v' = t) : Rewritten m vs v' t m' := by
  refine ⟨hw.supports, htree.1, htree.2, fun w hw' => ?_⟩
  exact Heap.tree_agrees ha htree.1 hs hs.tail.tail.holds (hw.agrees rfl) hw'

theorem rewritten_store (hs : m.heap.Supports (v :: new :: vs)) (ha : m.heap.Acyclic) (cell : Cell)
    (owner : Option NodeId) :
    Rewritten m vs (m.store v cell new true owner).1 ((m.heap.tree v).store cell (m.heap.tree new))
      (m.store v cell new true owner).2 :=
  (written_store hs cell true owner).rewritten hs ha (tree_store hs ha cell owner)

theorem rewritten_storeNested (hs : m.heap.Supports (v :: new :: vs)) (ha : m.heap.Acyclic)
    (path : List Cell) (owner : Option NodeId) :
    Rewritten m vs (m.storeNested v path new true owner).1
      ((m.heap.tree v).storeNested path (m.heap.tree new)) (m.storeNested v path new true owner).2 :=
  (written_storeNested hs path true owner).rewritten hs ha (tree_storeNested hs ha path owner)

theorem rewritten_ensureArray (hs : m.heap.Supports (v :: vs)) (ha : m.heap.Acyclic)
    (owner : Option NodeId) :
    Rewritten m vs (m.ensureArray v owner).1 (m.heap.tree v).ensure (m.ensureArray v owner).2 := by
  have ho := opened_openForWrite hs false owner
  obtain ⟨ha', htree⟩ := tree_ensureArray hs ha owner
  refine ⟨ho.supports, ha', htree, fun w hw => ?_⟩
  exact ho.keeps.tree ha ha' hs (hs.tail.holds.one hw)

theorem rewritten_release (hs : m.heap.Supports (v :: new :: vs)) (ha : m.heap.Acyclic) :
    Rewritten m vs new (m.heap.tree new) (m.release [v]) :=
  rewritten_storeNested hs ha [] none

end Memory

namespace Rewritten
variable {m m' : Memory} {vs : List Value} {v' : Value} {t : Tree Unit}

theorem congr (h : Rewritten m vs v' t m') {n n' : Memory} (hn : n.heap = m.heap) (hn' : n'.heap = m'.heap) :
    Rewritten n vs v' t n' := by
  obtain ⟨hsupports, hacyclic, htree, hothers⟩ := h
  refine ⟨?_, ?_, ?_, ?_⟩ <;> simpa only [hn, hn']

theorem trackedIf {f : Memory → Value × Memory} (tracked : Bool)
    (h : ∀ n : Memory, n.heap = m.heap → Rewritten n vs (f n).1 t (f n).2) :
    Rewritten m vs (m.trackedIf tracked f).1 t (m.trackedIf tracked f).2 := by
  obtain ⟨n, hn, hvalue, hheap⟩ := m.trackedIf_heap tracked f
  rw [hvalue]
  exact (h n hn).congr hn.symm hheap

end Rewritten

namespace ArraySession

/-- Variables that hold immutable trees. -/
abbrev Trees := String → Tree Unit

/-- What a step of a session reads, if it reads. -/
abbrev Read := Option (Except Fault (Tree Unit))

/-- What a reply says of a value, whatever its sharing. -/
def Reply.read : Reply → Read
  | .value v => some (.ok (v.mapNotes fun _ => ()))
  | .fault f => some (.error f)
  | _ => none

namespace Trees

def nowhere : Tree Unit := .scalar .undefined

/-- An operation on a tree. The literals refer to the variables as they were before. -/
def perform (ts : Trees) (t : Tree Unit) : Operation → Tree Unit × Read
  | .store cell l => (t.store cell (l.tree ts), none)
  | .reach cell (some l) => (t.store cell (l.tree ts), some (.ok (t.content cell)))
  | .peek cell => (t, some (t.peek cell))
  | .storeNested path l => (t.storeNested path (l.tree ts), none)
  | .peekNested path => (t, some (t.peekNested path))
  | .ensure => (t.ensure, none)
  | _ => (t, none)

def step (ts : Trees) : Step → Trees × Read
  | .set r l => (Function.update ts r (l.tree ts), none)
  | .move r source => (Function.update (Function.update ts source nowhere) r (ts source), none)
  | .drop r => (Function.update ts r nowhere, none)
  | .apply r _ operation =>
    let (t, read) := ts.perform (ts r) operation
    (Function.update ts r t, read)
  | _ => (ts, none)

def run (ts : Trees) : List Step → Trees × List Read
  | [] => (ts, [])
  | step :: steps =>
    let (ts, read) := ts.step step
    let (ts, reads) := ts.run steps
    (ts, read :: reads)

end Trees

def Operation.plain : Operation → Bool
  | .store _ l | .reach _ (some l) | .storeNested _ l => l.plain
  | .peek _ | .peekNested _ | .ensure => true
  | _ => false

/-- The steps that plain values have: shared data is copied before it is written, and no variable has
an owner. -/
def Step.plain : Step → Bool
  | .set _ l => l.plain
  | .move _ _ | .drop _ => true
  | .apply _ options operation => options.copy && options.owner.isNone && operation.plain
  | _ => false

def State.after (s : State) (steps : List Step) : State := steps.foldl (fun s step => (s.step step).1) s

/-- A session whose registers stand for the trees of the variables. -/
structure Refines (s : State) (ts : Trees) : Prop where
  supports : s.memory.heap.Supports (s.registers.map Prod.snd)
  acyclic : s.memory.heap.Acyclic
  tree : ∀ r, s.memory.heap.tree (s.get r) = ts r

namespace Refines
variable {s : State} {ts : Trees}

theorem start (collected : Bool) : Refines (start collected) fun _ => Trees.nowhere := by
  refine ⟨fun a => le_rfl, ⟨fun _ => 0, fun a x hstep => ?_⟩, fun r => Heap.tree_scalar rfl⟩
  obtain ⟨b, hb, -⟩ := hstep
  simp [Heap.block?, ArraySession.start] at hb

theorem shows (h : Refines s ts) : Shows s.memory.heap s.get ts := by
  intro r
  refine ⟨?_, h.tree r⟩
  rcases Entries.look_mem s.registers r with hmem | hnone
  · exact h.supports.holds.one hmem
  · intro v hv a ha
    rw [List.mem_singleton.1 hv] at ha
    rw [show s.get r = .undefined from hnone] at ha
    cases ha

/-- One register is written, and the others do not see it. -/
theorem replace (h : Refines s ts) {m m' : Memory} {r : String} {v : Value} {t : Tree Unit}
    (hw : Rewritten m (Entries.others s.registers r) v t m')
    (hm : ∀ w ∈ Entries.others s.registers r, m.heap.tree w = s.memory.heap.tree w) :
    Refines (State.put { s with memory := m' } r v) (Function.update ts r t) := by
  refine ⟨?_, hw.acyclic, fun r' => ?_⟩
  · refine hw.supports.perm ?_
    rw [State.put, Entries.put_session]
    exact (Entries.perm_put s.registers r v).symm
  · have hget : (State.put { s with memory := m' } r v).get r' = if r = r' then v else s.get r' := by
      rw [State.put, Entries.put_session]
      exact Entries.look_put s.registers r r' v
    rw [hget, Function.update_apply]
    by_cases hr : r = r'
    · rw [if_pos hr, if_pos hr.symm]
      exact hw.tree
    · rw [if_neg hr, if_neg (Ne.symm hr), ← h.tree r']
      rcases Entries.look_mem_others s.registers hr with hmem | hnone
      · exact (hw.others _ hmem).trans (hm _ hmem)
      · rw [show s.get r' = .undefined from hnone, Heap.tree_scalar rfl, Heap.tree_scalar rfl]

theorem assign (h : Refines s ts) {m : Memory} {v : Value} {t : Tree Unit}
    (hb : Built s.memory [v] (s.registers.map Prod.snd) m) (ht : m.heap.tree v = t) (r : String) :
    Refines (State.assign { s with memory := m } r v) (Function.update ts r t) := by
  have hw := Memory.rewritten_release (Entries.supports_apart [v] hb.supports r) hb.acyclic
  rw [ht] at hw
  refine h.replace hw fun w hw' => ?_
  exact hb.tree h.acyclic (Entries.supports_apart [] h.supports r) (List.mem_cons_of_mem _ hw')

theorem literal (h : Refines s ts) {l : Literal} (hl : l.plain = true) :
    Built s.memory [(l.build s.memory s.get).1] (s.registers.map Prod.snd) (l.build s.memory s.get).2 ∧
      (l.build s.memory s.get).2.heap.tree (l.build s.memory s.get).1 = l.tree ts :=
  l.built_resolve h.supports h.acyclic h.shows hl

theorem take (h : Refines s ts) (r : String) :
    Refines (if (s.registers.lookup r).isSome then s.put r .undefined else s)
        (Function.update ts r Trees.nowhere) ∧
      (if (s.registers.lookup r).isSome then s.put r .undefined else s).memory.heap.Supports
        (s.get r :: (if (s.registers.lookup r).isSome then s.put r .undefined else s).registers.map Prod.snd) := by
  have hapart := Entries.supports_apart [] h.supports r
  split_ifs with hin
  · constructor
    · have hw : Rewritten s.memory (Entries.others s.registers r) .undefined Trees.nowhere s.memory :=
        ⟨hapart.of_le (by simp [Value.target?]), h.acyclic, Heap.tree_scalar rfl, fun _ _ => rfl⟩
      exact h.replace hw fun _ _ => rfl
    · refine hapart.of_le fun a => ?_
      rw [State.put, Entries.put_session, handlesOn_cons, handlesOn_perm (Entries.perm_put _ _ _)]
      rw [handlesOn_cons, if_neg (by simp [Value.target?]), List.nil_append, handlesOn_cons]
      exact le_rfl
  · have hnone : s.get r = .undefined := by
      rw [State.get]
      cases hl : s.registers.lookup r with
      | none => rfl
      | some v => simp [hl] at hin
    constructor
    · have hsame : Function.update ts r Trees.nowhere = ts := by
        rw [Function.update_eq_self_iff, ← h.tree r, hnone]
        exact (Heap.tree_scalar rfl).symm
      rw [hsame]
      exact h
    · rw [hnone]
      exact h.supports.of_le (by simp [Value.target?])

theorem drop (h : Refines s ts) (r : String) :
    Refines { memory := s.memory.release [s.get r]
              registers := s.registers.filter fun (name, _) => name != r }
      (Function.update ts r Trees.nowhere) := by
  have hapart := Entries.supports_apart [] h.supports r
  have hs : s.memory.heap.Supports (s.get r :: .undefined :: Entries.others s.registers r) :=
    hapart.of_le (by simp [Value.target?, State.get, Entries.look])
  have hw := Memory.rewritten_release hs h.acyclic
  refine ⟨?_, hw.acyclic, fun r' => ?_⟩
  · refine hw.supports.tail.of_le fun a => ?_
    exact (Entries.filter_sublist_others s.registers r).countP_le
  · have hget : State.get ⟨s.memory.release [s.get r], s.registers.filter fun (name, _) => name != r⟩ r' =
        if r = r' then .undefined else s.get r' := Entries.look_filter s.registers r r'
    rw [hget, Function.update_apply]
    by_cases hr : r = r'
    · rw [if_pos hr, if_pos hr.symm]
      exact Heap.tree_scalar rfl
    · rw [if_neg hr, if_neg (Ne.symm hr), ← h.tree r']
      rcases Entries.look_mem_others s.registers hr with hmem | hnone
      · exact hw.others _ hmem
      · rw [show s.get r' = .undefined from hnone, Heap.tree_scalar rfl, Heap.tree_scalar rfl]

/-- An operation is given a value: it stands beside the register's value and the others. -/
theorem given (h : Refines s ts) {l : Literal} (hl : l.plain = true) (r : String) :
    (l.build s.memory s.get).2.heap.Supports
        (s.get r :: (l.build s.memory s.get).1 :: Entries.others s.registers r) ∧
      (l.build s.memory s.get).2.heap.Acyclic ∧
      (l.build s.memory s.get).2.heap.tree (s.get r) = ts r ∧
      (l.build s.memory s.get).2.heap.tree (l.build s.memory s.get).1 = l.tree ts ∧
      ∀ w ∈ Entries.others s.registers r,
        (l.build s.memory s.get).2.heap.tree w = s.memory.heap.tree w := by
  obtain ⟨hb, htree⟩ := h.literal hl
  have hapart := Entries.supports_apart [] h.supports r
  refine ⟨Entries.supports_apart [_] hb.supports r, hb.acyclic, ?_, htree, fun w hw => ?_⟩
  · rw [← h.tree r]
    exact hb.tree h.acyclic hapart List.mem_cons_self
  · exact hb.tree h.acyclic hapart (List.mem_cons_of_mem _ hw)

theorem read_value (m : Memory) (v : Value) : (Reply.value (m.snapshot v)).read = some (.ok (m.heap.tree v)) := by
  rw [Reply.read, Memory.snapshot, Heap.unfold, Heap.mapNotes_unfoldFrom]
  rfl

theorem read_found (m : Memory) {e : Except Fault Value} {e' : Except Fault (Tree Unit)}
    (he : e.map m.heap.tree = e') : (State.found m e).read = some e' := by
  rw [← he]
  cases e with
  | ok v => exact read_value m v
  | error f => rfl

theorem trackedIf_reachCell (m : Memory) (tracked : Bool) (v : Value) (cell : Cell) (owner : Option NodeId) :
    ∃ (n n' m' : Memory) (a : Address) (v' : Value), n.heap = m.heap ∧ n.reachCell v cell true owner = (a, v', n') ∧
      m.trackedIf tracked (fun m =>
        let (a, v, m) := m.reachCell v cell true owner
        ((a, v), m)) = ((a, v'), m') ∧ m'.heap = n'.heap := by
  cases tracked with
  | true => exact ⟨m, _, _, _, _, rfl, rfl, rfl, rfl⟩
  | false => exact ⟨{ m with collector := none }, _, _, _, _, rfl, rfl, rfl, rfl⟩

/-- A cell that is reached shows what it holds, and overwriting it there is a store. -/
theorem rewritten_reach {m : Memory} {vs : List Value} {v new : Value}
    (hs : m.heap.Supports (v :: new :: vs)) (ha : m.heap.Acyclic) (cell : Cell) (owner : Option NodeId)
    {options : Options} (hcopy : options.copy = true) :
    Rewritten m vs (State.reach m v cell options owner (some new)).1
        ((m.heap.tree v).store cell (m.heap.tree new))
        (State.reach m v cell options owner (some new)).2.1 ∧
      (State.reach m v cell options owner (some new)).2.2.read =
        some (.ok ((m.heap.tree v).content cell)) := by
  unfold State.reach
  rw [hcopy]
  obtain ⟨n, n', m', a, v', hn, hreach, htracked, hheap⟩ := trackedIf_reachCell m options.tracked v cell owner
  rw [htracked, ← hn]
  rw [← hn] at hs ha
  obtain ⟨hstored, hwritten⟩ := Memory.overwrite_reachCell new hreach
  refine ⟨?_, ?_⟩
  · have hw := Memory.rewritten_store hs ha cell owner
    rw [hstored] at hw
    refine hw.congr hn.symm ?_
    rw [hwritten]
    simp only [Memory.overwrite, Memory.putCell, Memory.release, Memory.cellAt, hheap]
  · rw [read_value]
    have hcell := Memory.tree_reachCell hs ha hreach
    simp only [Memory.cellAt] at hcell ⊢
    rw [hheap, hcell]

theorem same (h : Refines s ts) (r : String) :
    Refines (s.put r (s.get r)) (Function.update ts r (ts r)) := by
  have hapart := Entries.supports_apart [] h.supports r
  have hw : Rewritten s.memory (Entries.others s.registers r) (s.get r) (ts r) s.memory :=
    ⟨hapart, h.acyclic, h.tree r, fun _ _ => rfl⟩
  exact h.replace hw fun _ _ => rfl

theorem perform (h : Refines s ts) (r : String) {options : Options} {operation : Operation}
    (hplain : (Step.apply r options operation).plain = true) :
    Refines (s.step (.apply r options operation)).1 (ts.step (.apply r options operation)).1 ∧
      (s.step (.apply r options operation)).2.read = (ts.step (.apply r options operation)).2 := by
  simp only [Step.plain, Bool.and_eq_true, Option.isNone_iff_eq_none] at hplain
  obtain ⟨⟨hcopy, howner⟩, hop⟩ := hplain
  cases operation with
  | store cell l =>
    obtain ⟨hs, ha, hold, hnew, hothers⟩ := h.given hop r
    refine ⟨h.replace ?_ hothers, rfl⟩
    rw [← hold, ← hnew, hcopy]
    exact Rewritten.trackedIf _ fun n hn => by
      rw [← hn] at hs ha ⊢
      exact Memory.rewritten_store hs ha cell _
  | reach cell new =>
    cases new with
    | none => cases hop
    | some l =>
      obtain ⟨hs, ha, hold, hnew, hothers⟩ := h.given hop r
      obtain ⟨hw, hread⟩ := rewritten_reach hs ha cell (options.owner.bind s.node?) hcopy
      rw [hold] at hw hread
      rw [hnew] at hw
      exact ⟨h.replace hw hothers, hread⟩
  | peek cell =>
    refine ⟨h.same r, read_found s.memory ?_⟩
    rw [← h.tree r]
    exact Memory.peek_tree h.acyclic (h.shows r).1 cell
  | storeNested path l =>
    obtain ⟨hs, ha, hold, hnew, hothers⟩ := h.given hop r
    refine ⟨h.replace ?_ hothers, rfl⟩
    rw [← hold, ← hnew, hcopy]
    exact Rewritten.trackedIf _ fun n hn => by
      rw [← hn] at hs ha ⊢
      exact Memory.rewritten_storeNested hs ha path _
  | peekNested path =>
    refine ⟨h.same r, read_found s.memory ?_⟩
    rw [← h.tree r]
    exact Memory.peekNested_tree h.supports h.acyclic (h.shows r).1 path
  | ensure =>
    have hs := Entries.supports_apart [] h.supports r
    have ha := h.acyclic
    refine ⟨h.replace (m := s.memory) ?_ fun _ _ => rfl, rfl⟩
    rw [← h.tree r]
    exact Rewritten.trackedIf _ fun n hn => by
      rw [← hn] at hs ha ⊢
      exact Memory.rewritten_ensureArray hs ha _
  | _ => cases hop

theorem step (h : Refines s ts) {step : Step} (hplain : step.plain = true) :
    Refines (s.step step).1 (ts.step step).1 ∧ (s.step step).2.read = (ts.step step).2 := by
  cases step with
  | set r l =>
    obtain ⟨hb, htree⟩ := h.literal hplain
    exact ⟨h.assign hb htree r, rfl⟩
  | move r source =>
    obtain ⟨htaken, hs⟩ := h.take source
    have htree := h.tree source
    refine ⟨htaken.assign ⟨hs, Heap.Extends.refl _, htaken.acyclic⟩ ?_ r, rfl⟩
    split_ifs <;> exact htree
  | drop r => exact ⟨h.drop r, rfl⟩
  | apply r options operation => exact h.perform r hplain
  | _ => cases hplain

theorem run (h : Refines s ts) {steps : List Step} (hplain : ∀ step ∈ steps, step.plain = true) :
    Refines (s.after steps) (ts.run steps).1 ∧
      (s.run steps).map (·.1.read) = (ts.run steps).2 ++ [none] := by
  induction steps generalizing s ts with
  | nil => exact ⟨h, rfl⟩
  | cons step steps ih =>
    obtain ⟨hstep, hread⟩ := h.step (hplain step List.mem_cons_self)
    obtain ⟨hrest, hreads⟩ := ih hstep fun later hlater => hplain later (List.mem_cons_of_mem _ hlater)
    refine ⟨hrest, ?_⟩
    rw [State.run, Trees.run]
    simp only [List.map_cons, List.cons_append]
    rw [hread, hreads]

end Refines

/-- Every session over copied arrays is a session over trees: after any sequence of steps every
variable holds the tree that it holds there, every step reads the same value or fault, and no array
contains itself. -/
theorem values_are_trees (collected : Bool) (steps : List Step) (hplain : ∀ step ∈ steps, step.plain = true) :
    (∀ r, ((start collected).after steps).memory.heap.tree (((start collected).after steps).get r) =
        (Trees.run (fun _ => Trees.nowhere) steps).1 r) ∧
      ((start collected).run steps).map (·.1.read) =
        (Trees.run (fun _ => Trees.nowhere) steps).2 ++ [none] ∧
      ∀ a, ¬ Relation.TransGen ((start collected).after steps).memory.heap.PointsTo a a := by
  obtain ⟨hrefines, hreads⟩ := (Refines.start collected).run hplain
  exact ⟨hrefines.tree, hreads, hrefines.acyclic.not_self⟩

/-- An array is shared, stored into itself through one of its variables and read through both. -/
def selfStore : List Step :=
  [.set "a" (.array true [[.null]]), .set "b" (.register "a"),
    .apply "b" {} (.store (1, 0) (.register "b")), .apply "a" {} (.peek (1, 0)),
    .apply "b" {} (.peekNested [(1, 0), (0, 0)])]

/-- The array that was stored stands as it was, in the cell and in the other variable. -/
theorem values_are_trees_selfStore :
    (∀ step ∈ selfStore, step.plain = true) ∧
      ((start true).after selfStore).memory.heap.tree (((start true).after selfStore).get "b") =
        .array () [[.null ()], [.array () [[.null ()]]]] ∧
      ((start true).run selfStore).map (·.1.read) =
        [none, none, none, some (.error (.outOfBounds 1 0 1 0)), some (.ok (.null ())), none] := by
  have hplain : ∀ step ∈ selfStore, step.plain = true := by decide
  obtain ⟨htree, hreads, -⟩ := values_are_trees true selfStore hplain
  refine ⟨hplain, ?_, ?_⟩
  · rw [htree]
    cbv
  · rw [hreads]
    cbv

end ArraySession

end ScriptVm
