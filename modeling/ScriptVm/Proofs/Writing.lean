import ScriptVm.Proofs.Opening

/-! Writing cells. A store takes the value that it writes through and the new content in, and gives
the value afterwards out; with `copy` all that other values reach is as before. A store at the end of
a path keeps to this through every array on the way, since the cell it moves out leaves the array
above it with one holder. -/

namespace ScriptVm.Memory
variable {m : Memory} {vs : List Value}

/-- What a write through `v` that takes `new` in leaves behind. -/
structure Written (copy : Bool) (h : Heap) (v new : Value) (vs : List Value) (v' : Value) (h' : Heap) :
    Prop where
  supports : h'.Supports (v' :: vs)
  evolves : h.Evolves [v, new] h' [v']
  agrees : copy = true → Heap.Agrees vs h h'

section
variable {a : Address} {b : Block} {cell : Cell} {old v : Value}

theorem heap_overwrite (hb : m.heap.block? a = some b)
    (hold : Rows.cell? b.rows cell.1 cell.2 = some old) (v : Value) :
    (m.overwrite a cell v).heap = (m.putCell a cell v).heap.release [old] := by
  rw [overwrite, cellAt_eq hb hold]
  rfl

theorem supports_overwrite (hs : m.heap.Supports (v :: vs)) (hb : m.heap.block? a = some b)
    (hold : Rows.cell? b.rows cell.1 cell.2 = some old) : (m.overwrite a cell v).heap.Supports vs := by
  rw [heap_overwrite hb hold]
  exact Heap.Supports.release [old] (supports_putCell hs hb hold)

theorem evolves_overwrite (hb : m.heap.block? a = some b)
    (hold : Rows.cell? b.rows cell.1 cell.2 = some old) (v : Value) :
    m.heap.Evolves [v] (m.overwrite a cell v).heap [] := by
  rw [heap_overwrite hb hold]
  exact (evolves_putCell hb hold v).trans (Heap.evolves_release _ [old] [])

theorem agrees_overwrite (hs : m.heap.Supports (v :: vs)) (hb : m.heap.block? a = some b)
    (hold : Rows.cell? b.rows cell.1 cell.2 = some old) (hfar : ¬ m.heap.Reaches vs a) :
    Heap.Agrees vs m.heap (m.overwrite a cell v).heap := by
  rw [heap_overwrite hb hold]
  exact (Heap.agrees_modify hfar _).trans
    (Heap.agrees_release [old] (supports_putCell hs hb hold))

end

theorem reached {copy : Bool} {h : Heap} {v v' : Value} {a : Address} (ho : Opened copy h v vs a v' m.heap)
    (cell : Cell) :
    ∃ b, (m.growAt a cell).heap.block? a = some b ∧
      Rows.cell? b.rows cell.1 cell.2 = some ((m.growAt a cell).cellAt a cell) ∧
      (copy = true → (m.growAt a cell).heap.innerHandles a = 0 ∧ handlesOn a vs = 0) := by
  obtain ⟨b₀, hb₀, -, hone⟩ := ho.block
  obtain ⟨b, hb, -, hcell⟩ := cell?_growAt hb₀ cell
  refine ⟨b, hb, hcell, fun hcopy => ?_⟩
  have hs := supports_growAt ho.supports a cell
  refine hs.sole ho.target hb ?_
  obtain rfl := Option.some.inj (hb.symm.trans (block?_growAt hb₀ cell))
  exact hone (Or.inl hcopy)

theorem agrees_growAt {copy : Bool} {h : Heap} {v v' : Value} {a : Address}
    (ho : Opened copy h v vs a v' m.heap) (hcopy : copy = true) (cell : Cell) :
    Heap.Agrees vs h (m.growAt a cell).heap := by
  refine (ho.keeps.agrees vs).trans (Heap.agrees_modify ?_ _)
  obtain ⟨b₀, hb₀, -, hone⟩ := ho.block
  obtain ⟨hinner, hvs⟩ := ho.supports.sole ho.target hb₀ (hone (Or.inl hcopy))
  exact Heap.not_reaches_of_isolated hinner hvs

theorem written_store {v new : Value} (hs : m.heap.Supports (v :: new :: vs)) (cell : Cell) (copy : Bool)
    (owner : Option NodeId) :
    Written copy m.heap v new vs (m.store v cell new copy owner).1
      (m.store v cell new copy owner).2.heap := by
  have ho := opened_openForWrite hs copy owner
  set a := (m.openForWrite v copy owner).1 with ha
  set v' := (m.openForWrite v copy owner).2.1 with hv'
  set m₁ := (m.openForWrite v copy owner).2.2 with hm₁
  obtain ⟨b, hb, hcell, hfar⟩ := reached ho cell
  have hs₂ : (m₁.growAt a cell).heap.Supports (new :: v' :: vs) :=
    (supports_growAt ho.supports a cell).perm (List.Perm.swap _ _ _)
  have hstore : (m.store v cell new copy owner).1 = v' ∧
      (m.store v cell new copy owner).2.heap = ((m₁.growAt a cell).overwrite a cell new).heap :=
    ⟨rfl, rfl⟩
  rw [hstore.1, hstore.2]
  refine ⟨supports_overwrite hs₂ hb hcell, ?_, fun hcopy => ?_⟩
  · have hopen : m.heap.Evolves [v, new] (m₁.growAt a cell).heap [v', new] :=
      (ho.evolves.frame [new]).trans (evolves_growAt m₁ a cell _)
    refine hopen.trans (((evolves_overwrite hb hcell new).frame [v']).of_le ?_ fun _ => le_rfl)
    exact fun x => (handlesOn_perm (List.Perm.swap _ _ _) x).le
  · obtain ⟨hinner, hvs⟩ := hfar hcopy
    refine ((agrees_growAt ho hcopy cell).mono fun w hw => List.mem_cons_of_mem _ hw).trans ?_
    refine agrees_overwrite (hs₂.of_le fun x => ?_) hb hcell ?_
    · simp only [handlesOn_cons]
      omega
    · refine Heap.not_reaches_of_isolated hinner ?_
      rw [handlesOn_cons] at hvs
      omega

/-- A store that goes on below a cell: the cell is moved out, written through, and put back. -/
theorem storeNested_cons (m : Memory) (v : Value) (cell : Cell) {rest : List Cell} (hrest : rest ≠ [])
    (new : Value) (copy : Bool) (owner : Option NodeId) {a : Address} {v' : Value} {m₁ m₂ : Memory}
    (hopen : m.openForWrite v copy owner = (a, v', m₁))
    (hout : (m₁.growAt a cell).putCell a cell .undefined = m₂) {inner : Value} {m₃ : Memory}
    (hinner : m₂.storeNested ((m₁.growAt a cell).cellAt a cell) rest new copy (m₂.node? v') = (inner, m₃)) :
    m.storeNested v (cell :: rest) new copy owner =
      (v', (m₃.growAt a cell).overwrite a cell inner) := by
  obtain ⟨next, rest, rfl⟩ := List.exists_cons_of_ne_nil hrest
  rw [storeNested]
  · simp only [reachCell, hopen, hout, hinner]
  · simp

theorem supports_moved {a : Address} {b : Block} {cell : Cell} {v new inner : Value}
    (hs : m.heap.Supports (v :: new :: vs)) (hb : (m.growAt a cell).heap.block? a = some b)
    (hcell : Rows.cell? b.rows cell.1 cell.2 = some inner) :
    ((m.growAt a cell).putCell a cell .undefined).heap.Supports (inner :: new :: v :: vs) := by
  have hgrown : (m.growAt a cell).heap.Supports (.undefined :: v :: new :: vs) :=
    (supports_growAt hs a cell).of_le (by simp [Value.target?])
  exact (supports_putCell hgrown hb hcell).perm (List.Perm.cons _ (List.Perm.swap _ _ _))

/-- Data that one value alone leads to stays so while what lay in one of its cells is written through. -/
theorem isolated_below {m₁ m₂ : Memory} {a : Address} {b : Block} {cell : Cell} {new inner inner' : Value}
    (hb : (m.growAt a cell).heap.block? a = some b) (hcell : Rows.cell? b.rows cell.1 cell.2 = some inner)
    (hm₁ : (m.growAt a cell).putCell a cell .undefined = m₁) (hinner : (m.growAt a cell).heap.innerHandles a = 0)
    (hnew : handlesOn a [new] = 0) (hevolves : m₁.heap.Evolves [inner, new] m₂.heap [inner']) :
    m₂.heap.innerHandles a = 0 ∧ handlesOn a [inner'] = 0 := by
  subst hm₁
  have hmoved := evolves_putCell hb hcell .undefined
  obtain ⟨hinner₁, hmoved₁⟩ := hmoved.unforged a (Heap.lt_of_block? hb) hinner rfl
  have hgiven : handlesOn a [inner, new] = 0 := by
    simp only [handlesOn_cons, handlesOn_nil] at hmoved₁ hnew ⊢
    omega
  exact hevolves.unforged a ((Heap.lt_of_block? hb).trans_le hmoved.size) hinner₁ hgiven

theorem written_storeNested {v new : Value} (hs : m.heap.Supports (v :: new :: vs)) (path : List Cell)
    (copy : Bool) (owner : Option NodeId) :
    Written copy m.heap v new vs (m.storeNested v path new copy owner).1
      (m.storeNested v path new copy owner).2.heap := by
  induction path generalizing m v vs owner with
  | nil =>
    rw [storeNested]
    refine ⟨Heap.Supports.release [v] hs, Heap.evolves_release m.heap [v] [new], fun _ => ?_⟩
    exact (Heap.agrees_release [v] hs).mono fun w hw => List.mem_cons_of_mem _ hw
  | cons cell rest ih =>
    by_cases hrest : rest = []
    · subst hrest
      rw [storeNested]
      exact written_store hs cell copy owner
    have ho := opened_openForWrite hs copy owner
    rcases hopen : m.openForWrite v copy owner with ⟨a, v', m₁⟩
    rw [hopen] at ho
    dsimp only at ho
    obtain ⟨b, hb, hcell, hfar⟩ := reached ho cell
    set inner := (m₁.growAt a cell).cellAt a cell with hinner
    obtain ⟨m₂, hm₂⟩ : ∃ m₂, (m₁.growAt a cell).putCell a cell .undefined = m₂ := ⟨_, rfl⟩
    have hs₂ : m₂.heap.Supports (inner :: new :: v' :: vs) := hm₂ ▸ supports_moved ho.supports hb hcell
    have hw := ih (v := inner) hs₂ (m₂.node? v')
    rcases hnested : m₂.storeNested inner rest new copy (m₂.node? v') with ⟨inner', m₃⟩
    rw [storeNested_cons m v cell hrest new copy owner hopen hm₂ hnested]
    rw [hnested] at hw
    dsimp only at hw ⊢
    obtain ⟨b₃, hb₃⟩ := hw.supports.alive (v := v') (by simp) ho.target
    obtain ⟨b₄, hb₄, -, hcell₄⟩ := cell?_growAt hb₃ cell
    have hs₄ := supports_growAt hw.supports a cell
    have hmoved : (m₁.growAt a cell).heap.Evolves [.undefined] m₂.heap [inner] := by
      rw [← hm₂]
      exact evolves_putCell hb hcell .undefined
    refine ⟨supports_overwrite hs₄ hb₄ hcell₄, ?_, fun hcopy => ?_⟩
    · have hopened : m.heap.Evolves [v, new] (m₁.growAt a cell).heap [v', new] :=
        (ho.evolves.frame [new]).trans (evolves_growAt m₁ a cell _)
      have hinto : (m₁.growAt a cell).heap.Evolves [v', new] m₂.heap [inner, new, v'] :=
        (hmoved.frame [new, v']).of_le (fun x => by simp [Value.target?]; omega) (fun _ => le_rfl)
      have hback : m₃.heap.Evolves [inner', v'] ((m₃.growAt a cell).overwrite a cell inner').heap [v'] :=
        (evolves_growAt m₃ a cell _).trans ((evolves_overwrite hb₄ hcell₄ inner').frame [v'])
      exact ((hopened.trans hinto).trans (hw.evolves.frame [v'])).trans hback
    · -- nothing but the opened value leads to the data, before the write below and after it
      obtain ⟨hinner₁, hvs⟩ := hfar hcopy
      obtain ⟨hnew, hvs₀⟩ : handlesOn a [new] = 0 ∧ handlesOn a vs = 0 := by
        simp only [handlesOn_cons, handlesOn_nil] at hvs ⊢
        omega
      obtain ⟨hinner₃, -⟩ := isolated_below hb hcell hm₂ hinner₁ hnew hw.evolves
      obtain ⟨hinner₄, -⟩ :=
        (evolves_growAt m₃ a cell vs).unforged a (Heap.lt_of_block? hb₃) hinner₃ hvs₀
      have hdown : Heap.Agrees vs m.heap m₂.heap := by
        refine ((agrees_growAt ho hcopy cell).mono fun w hw => List.mem_cons_of_mem _ hw).trans ?_
        rw [← hm₂]
        exact Heap.agrees_modify (Heap.not_reaches_of_isolated hinner₁ hvs₀) _
      have hbelow : Heap.Agrees vs m₂.heap m₃.heap :=
        (hw.agrees hcopy).mono fun w hw => List.mem_cons_of_mem _ hw
      have hgrown : Heap.Agrees vs m₃.heap (m₃.growAt a cell).heap :=
        Heap.agrees_modify (Heap.not_reaches_of_isolated hinner₃ hvs₀) _
      refine ((hdown.trans hbelow).trans hgrown).trans ?_
      refine agrees_overwrite (hs₄.of_le fun x => ?_) hb₄ hcell₄
        (Heap.not_reaches_of_isolated hinner₄ hvs₀)
      simp only [handlesOn_cons]
      omega

end ScriptVm.Memory
