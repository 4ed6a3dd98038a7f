import ScriptVm.Proofs.ErasedExecution
import ScriptVm.Proofs.Sections

/-! Arrays in built-in variables. Such an array is held, and yet it is no root and lies on no stack: to
the collector it is like one that the host keeps to itself. An instruction that leaves built-in variables
alone treats the rest as if they were empty; a store puts a value on this shelf, and a load makes a
further holder of what lies there. -/

namespace ScriptVm

/-- Takes the built-in variables away. -/
def Eraser.shelf : Eraser where
  value := id
  memory := id
  node := id
  builtins := fun _ => {}
  config := id
  rest := List.map (·.builtins)
  value_plain _ _ := rfl
  value_array h := ⟨h, rfl, rfl⟩
  share_value _ := rfl
  node_none := rfl
  maxCallDepth_config _ := rfl
  rest_fields w instanceId f := by
    simp only [World.modifyInstance, List.map_map]
    apply List.map_congr_left
    intro i _
    dsimp only [Function.comp]
    split_ifs <;> rfl
  memory_release m vs := by rw [List.map_id]; rfl
  memory_retain _ _ := rfl
  operate_memory _ _ _ _ := rfl
  ensureArray_memory _ _ := rfl
  storeNested_memory _ _ _ _ _ := rfl
  peekNested_memory m v path := by
    change m.peekNested v path = (m.peekNested v path).map id
    cases m.peekNested v path <;> rfl
  replaceSlot_memory _ _ _ _ := rfl
  storeInSlot_memory _ _ _ _ _ _ := rfl

namespace World
variable (w : World)

theorem slots_shelf : (Eraser.shelf.world w).slots = w.slots := by
  have htable : ∀ t : Variables, Eraser.shelf.table t = t := fun t => by simp [Eraser.table, Eraser.shelf]
  simp only [slots, Eraser.world, List.flatMap_map, Eraser.inst, htable]

theorem builtinValues_shelf : (Eraser.shelf.world w).builtinValues = [] := by
  simp [builtinValues, Eraser.world, Eraser.inst, Eraser.shelf, Variables.values]

theorem builtinValues_eq : w.builtinValues = (Eraser.shelf.rest w.instances).flatMap Variables.values := by
  simp only [builtinValues, Eraser.shelf, List.flatMap_map]

theorem mem_builtinValues {w : World} {i : Instance} (hi : i ∈ w.instances) {id : VariableId} {v : Value}
    (hv : i.builtins.get? id = some v) : v ∈ w.builtinValues := by
  obtain ⟨before, after, hsplit, -⟩ := List.lookup_eq_some_iff.1 hv
  refine List.mem_flatMap.2 ⟨i, hi, List.mem_map.2 ⟨(id, v), ?_, rfl⟩⟩
  rw [hsplit]
  exact List.mem_append_right _ List.mem_cons_self

theorem shelf_setBuiltins (instanceId : InstanceId) (id : VariableId) (v : Value) :
    Eraser.shelf.world (w.modifyInstance instanceId fun i => { i with builtins := i.builtins.set id v }) =
      Eraser.shelf.world w := by
  have hsame := Eraser.shelf.world_modifyInstance w
    (f := fun i => { i with builtins := i.builtins.set id v }) (g := fun i => i)
    (fun _ => rfl) instanceId
  rw [hsame]
  simp [modifyInstance]

theorem distinct_of_shelf {w : World} (hw : (Eraser.shelf.world w).Plain) : (w.instances.map (·.id)).Nodup := by
  have hdistinct := hw.distinct
  rwa [Eraser.world, List.map_map] at hdistinct

theorem place_builtin {w : World} (hw : (Eraser.shelf.world w).Plain) {i : Instance} (hi : i ∈ w.instances)
    (id : VariableId) : Place w.builtinValues (i.builtins.get id) fun v =>
      (w.modifyInstance i.id fun j => { j with builtins := j.builtins.set id v }).builtinValues := by
  obtain ⟨before, after, hsplit⟩ := List.append_of_mem hi
  have hplace := (place_entries i.builtins.entries id).within (before.flatMap (·.builtins.values))
    (after.flatMap (·.builtins.values))
  have hbefore : w.builtinValues = before.flatMap (·.builtins.values) ++ i.builtins.entries.map Prod.snd ++
      after.flatMap (·.builtins.values) := by
    simp [builtinValues, hsplit, Variables.values]
  have hafter : ∀ v, (w.modifyInstance i.id fun j => { j with builtins := j.builtins.set id v }).builtinValues =
      before.flatMap (·.builtins.values) ++ (Variables.setIn i.builtins.entries id v).map Prod.snd ++
        after.flatMap (·.builtins.values) := by
    intro v
    rw [builtinValues, modifyInstance_eq hsplit (distinct_of_shelf hw)]
    simp [Variables.values, Variables.set]
  simp only [hbefore, hafter]
  exact hplace

/-- A value goes into a place among those that are kept, and what was there is dropped. -/
theorem Place.exchange {strict : Prop} {shelf : List Value} {old v : Value} {exchanged : Value → List Value}
    {m : Memory} {free slots pool : List Value} (hp : Place shelf old exchanged)
    (h : m.Custody strict (v :: free) slots (pool ++ shelf)) :
    (m.release [old]).Custody strict free slots (pool ++ exchanged v) := by
  obtain ⟨rest, hnew, hold⟩ := hp
  have hkept : m.Custody strict free slots (old :: v :: (pool ++ rest)) := by
    rcases hold with hold | ⟨rfl, hold⟩
    · refine h.take.perm (List.Perm.refl _) (List.Perm.refl _) ?_
      refine ((hold.append_left pool).cons v).trans ?_
      exact (List.perm_middle.cons v).trans (List.Perm.swap _ _ _)
    · exact (h.take.perm (List.Perm.refl _) (List.Perm.refl _) ((hold.append_left pool).cons v)).keep_null rfl rfl
  have hreleased : (m.release [old]).Custody strict free slots (v :: (pool ++ rest)) :=
    Memory.Custody.release_kept (by simpa only [List.singleton_append] using hkept)
  refine hreleased.perm (List.Perm.refl _) (List.Perm.refl _) ?_
  exact List.perm_middle.symm.trans ((hnew v).append_left pool)

end World

/-- As `Sound`, but arrays may lie on the shelf: what is there is kept, as if the host had it. -/
structure Core.Stocked (strict : Prop) (c : Core) (hand pool : List Value) : Prop where
  custody : c.memory.Custody strict (c.executor.stack.toList ++ hand) c.world.slots (pool ++ c.world.builtinValues)
  world : (Eraser.shelf.world c.world).Plain

/-- The operand stack leads to tracked data only. -/
def Core.Orderly (c : Core) : Prop := c.memory.heap.Managed c.executor.stack.toList

namespace Core.Stocked
variable {strict : Prop} {c c' : Core} {hand pool : List Value}

theorem iff_sound :
    c.Stocked strict hand pool ↔ (Eraser.shelf.core c).Sound strict hand (pool ++ c.world.builtinValues) := by
  have hstack : (Eraser.shelf.core c).executor.stack = c.executor.stack := Array.map_id _
  have hslots : (Eraser.shelf.core c).world.slots = c.world.slots := c.world.slots_shelf
  constructor
  · rintro ⟨hcustody, hworld⟩
    refine ⟨?_, hworld⟩
    rw [hstack, hslots]
    exact hcustody
  · rintro ⟨hcustody, hworld⟩
    rw [hstack, hslots] at hcustody
    exact ⟨hcustody, hworld⟩

theorem same (hc : c.Stocked strict hand pool) (hmemory : c'.memory = c.memory)
    (hstack : c'.executor.stack = c.executor.stack) (hworld : c'.world = c.world) : c'.Stocked strict hand pool := by
  obtain ⟨hcustody, hplain⟩ := hc
  refine ⟨?_, by rwa [hworld]⟩
  rwa [hmemory, hstack, hworld]

theorem release (vs : List Value) (hc : c.Stocked strict (vs ++ hand) pool) :
    ({ c with memory := c.memory.release vs } : Core).Stocked strict hand pool :=
  ⟨Memory.Custody.release vs (hc.custody.perm_free (List.perm_append_comm_assoc _ _ _)), hc.world⟩

theorem forget (vs : List Value) (hc : c.Stocked strict hand (vs ++ pool)) :
    ({ c with memory := c.memory.release vs } : Core).Stocked strict hand pool := by
  have hcustody := hc.custody
  rw [List.append_assoc] at hcustody
  exact ⟨hcustody.release_kept, hc.world⟩

theorem holds (hc : c.Stocked strict hand pool) {v : Value}
    (hv : v ∈ c.executor.stack.toList ++ hand ++ c.world.slots ++ (pool ++ c.world.builtinValues)) :
    c.memory.heap.Holds [v] :=
  hc.custody.supports.holds.one hv

theorem handOver {vs : List Value} (hc : c.Stocked strict vs pool) : c.Stocked strict [] (vs ++ pool) := by
  refine ⟨?_, hc.world⟩
  rw [List.append_assoc]
  refine Memory.Custody.takeAll (hc.custody.perm_free ?_)
  rw [List.append_nil]
  exact List.perm_append_comm

theorem give {v : Value} (hc : c.Stocked strict hand (v :: pool)) (hv : strict → c.memory.heap.Managed [v]) :
    c.Stocked strict (v :: hand) pool :=
  ⟨(hc.custody.give hv).perm_free List.perm_middle.symm, hc.world⟩

/-- Execution that takes no notice of the shelf has not changed it. -/
theorem of_checked (hrest : Eraser.shelf.rest c'.world.instances = Eraser.shelf.rest c.world.instances)
    (h : Exec.Checked strict hand (pool ++ c.world.builtinValues) (Eraser.shelf.core c')) :
    c'.Stocked strict hand pool := by
  have hshelf : c'.world.builtinValues = c.world.builtinValues := by
    rw [World.builtinValues_eq, World.builtinValues_eq, hrest]
  rcases h with hsound | ⟨-, v, hv, -⟩
  · rw [← hshelf] at hsound
    exact iff_sound.2 hsound
  · have hempty : (Eraser.shelf.core c').world.builtinValues = [] := c'.world.builtinValues_shelf
    rw [hempty] at hv
    cases hv

end Core.Stocked

namespace Exec
variable {strict : Prop} {α β : Type} {e : α → β} {x : Exec α} {y : Exec β} {hand pool : List Value}

/-! ### Execution beside the shelf -/

theorem checked_stocked {ins left : List Value} (outs : β → List Value) (hx : Eraser.shelf.Erases e x y)
    (hy : ∀ kept, Triple (·.Sound strict ins kept) y (fun b => Checked strict (outs b) kept)
      (Checked strict left kept)) :
    Triple (·.Stocked strict ins pool) x (fun a c => c.Stocked strict (outs (e a)) pool)
      (·.Stocked strict left pool) := by
  intro c hc
  have hrun := hx c
  have hsound := hy _ (Eraser.shelf.core c) (Core.Stocked.iff_sound.1 hc)
  cases hxc : x c with
  | ok a d =>
    rw [hxc] at hrun
    rw [hrun.1] at hsound
    exact .of_checked hrun.2 hsound
  | error f d =>
    rw [hxc] at hrun
    rw [hrun.1] at hsound
    exact .of_checked hrun.2 hsound

/-- What moves values when the shelf is empty moves them when it is not. -/
theorem Moves.stocked {ins : List Value} {outs : β → List Value} (hy : Moves ins y outs)
    (hx : Eraser.shelf.Erases e x y) (hand pool : List Value) :
    Triple (·.Stocked strict (ins ++ hand) pool) x
      (fun a c => c.Stocked strict (outs (e a) ++ hand) pool) (·.Stocked strict hand pool) :=
  checked_stocked (fun b => outs b ++ hand) hx fun kept =>
    (hy strict hand kept).mono (fun _ hc => hc) (fun _ _ => Or.inl) fun _ => Or.inl

theorem Safe.stocked {x : Exec α} (hy : Safe x) (hx : Eraser.shelf.Oblivious x) (hand pool : List Value) :
    Triple (·.Stocked strict hand pool) x (fun _ c => c.Stocked strict hand pool) (·.Stocked strict hand pool) := by
  simpa only [List.nil_append] using Moves.stocked hy hx hand pool

theorem stocked_pop (hand pool : List Value) :
    Triple (·.Stocked strict hand pool) pop (fun v c => c.Stocked strict (v :: hand) pool)
      (·.Stocked strict hand pool) :=
  moves_pop.stocked (e := Eraser.shelf.value) Eraser.erases_pop hand pool

theorem stocked_drop (vs hand pool : List Value) :
    Triple (·.Stocked strict (vs ++ hand) pool) (drop vs)
      (fun _ c => c.Stocked strict hand pool) (·.Stocked strict hand pool) :=
  fun _ hc => hc.release vs

theorem Safe.stockedHolding {x : Exec α} (hy : Safe x) (hx : Eraser.shelf.Oblivious x) (v : Value)
    (hand pool : List Value) :
    Triple (·.Stocked strict (v :: hand) pool) (orDrop [v] x)
      (fun _ c => c.Stocked strict (v :: hand) pool) (·.Stocked strict hand pool) :=
  (hy.stocked hx (v :: hand) pool).orDrop fun _ hc => hc.release [v]

/-! ### Onto the shelf -/

theorem stocked_share (i : Instance) (v : Value) (hand pool : List Value) :
    Triple (fun c => c.Stocked strict (v :: hand) pool ∧ i ∈ c.world.instances) (share v)
      (fun v' c => c.Stocked strict (v' :: v :: hand) pool ∧ i ∈ c.world.instances)
      (·.Stocked strict (v :: hand) pool) := by
  rintro c ⟨hc, hi⟩
  have hmem : v ∈ c.executor.stack.toList ++ (v :: hand) ++ c.world.slots := by simp
  have hmanaged : strict → c.memory.heap.Managed [v] := fun hstrict =>
    (hc.custody.managed hstrict).mono fun w hw => by rwa [List.mem_singleton.1 hw]
  refine ⟨⟨(hc.custody.share (hc.holds (List.mem_append_left _ hmem)) hmanaged).perm_free ?_, hc.world⟩, hi⟩
  exact List.perm_middle.symm

theorem stocked_storeBuiltinAt (i : Instance) (id : VariableId) (cell? : Option Cell) (v : Value)
    (hand pool : List Value) :
    Triple (fun c => c.Stocked strict (v :: hand) pool ∧ i ∈ c.world.instances)
      (onWorld fun w m =>
        match cell? with
        | some cell => w.storeBuiltinCell m i id cell v
        | none => w.setBuiltin m i id v)
      (fun _ c => c.Stocked strict hand pool) (·.Stocked strict hand pool) := by
  refine triple_onWorld ?_
  rintro c ⟨hc, hi⟩
  have hroots : c.world.anchoring = .roots := hc.world.anchoring
  cases cell? with
  | some cell =>
    simp only [World.storeBuiltinCell, hroots]
    exact hc.release [v]
  | none =>
    simp only [World.setBuiltin]
    split_ifs
    · refine ⟨?_, ?_⟩
      · dsimp only
        rw [World.slots_setBuiltins]
        exact (World.place_builtin hc.world hi id).exchange (hc.custody.perm_free List.perm_middle)
      · dsimp only
        rw [World.shelf_setBuiltins]
        exact hc.world
    · exact hc.release [v]

theorem stocked_storeBuiltin (owner : Owner) (id : VariableId) (cell? : Option Cell) (v : Value)
    (hand pool : List Value) :
    Triple (·.Stocked strict (v :: hand) pool) (storeBuiltin owner id cell? v) (fun _ c => c.Stocked strict hand pool)
      (·.Stocked strict hand pool) := by
  have heach : ∀ ids : List InstanceId, Triple (·.Stocked strict (v :: hand) pool)
      (storeEach ids v fun i v => onWorld fun w m =>
        match cell? with
        | some cell => w.storeBuiltinCell m i id cell v
        | none => w.setBuiltin m i id v)
      (fun _ c => c.Stocked strict hand pool) (·.Stocked strict hand pool) := by
    intro ids
    refine Triple.thenDrop (R := (·.Stocked strict (v :: hand) pool)) (Triple.forM fun instanceId _ => ?_)
      fun c hc => hc.release [v]
    refine (triple_storeTarget instanceId _).bind fun i => ?_
    exact (stocked_share i v hand pool).bind fun v' => stocked_storeBuiltinAt i id cell? v' (v :: hand) pool
  cases owner with
  | noone => exact stocked_drop [v] hand pool
  | global => exact fun c hc => hc.release [v]
  | single i => exact heach [i]
  | multi is => exact heach is

/-! ### Off the shelf -/

/-- A load finds a value whose data is there, and that is all: it may be emptied and tracked no more. -/
theorem stocked_loadBuiltin (owner : Owner) (id : VariableId) (cell? : Option Cell) (hand pool : List Value) :
    Triple (·.Stocked strict hand pool) (loadBuiltin owner id cell?)
      (fun v c => c.Stocked strict hand pool ∧ c.memory.heap.Holds [v]) (·.Stocked strict hand pool) := by
  have hload : ∀ i : Instance, Triple (fun c => c.Stocked strict hand pool ∧ i ∈ c.world.instances)
      (do
        let c ← get
        match cell? with
        | some cell => ofExcept (c.world.builtinCell c.memory i id cell)
        | none => ofExcept (c.world.builtin i id) : Exec Value)
      (fun v c => c.Stocked strict hand pool ∧ c.memory.heap.Holds [v]) (·.Stocked strict hand pool) := by
    rintro i c ⟨hc, hi⟩
    have hroots : c.world.anchoring = .roots := hc.world.anchoring
    rw [run_get]
    cases cell? with
    | some cell =>
      dsimp only
      rw [World.builtinCell, hroots]
      exact hc
    | none =>
      dsimp only
      unfold World.builtin
      cases hv : i.builtins.get? id with
      | none =>
        rw [hroots]
        exact hc
      | some v =>
        exact ⟨hc, hc.holds (List.mem_append_right _ (List.mem_append_right _ (World.mem_builtinValues hi hv)))⟩
  cases owner with
  | noone => exact fun c hc => hc
  | global => exact fun c hc => hc
  | single i => exact (triple_loadTarget i _).bind hload
  | multi is =>
    cases is with
    | nil => exact fun c hc => hc
    | cons i is => exact (triple_loadTarget i _).bind hload

theorem stocked_pushHeld (v : Value) (hand pool : List Value) :
    Triple (fun c => c.Stocked strict hand pool ∧ c.memory.heap.Holds [v]) (pushShared v)
      (fun _ c => (strict → c.Orderly) → c.Stocked strict hand pool) (·.Stocked strict hand pool) := by
  rintro c ⟨hc, hv⟩ horderly
  have hmanaged : strict → (c.memory.retain v).heap.Managed [v.share] := by
    refine fun hstrict => (horderly hstrict).mono fun w hw => ?_
    rw [List.mem_singleton.1 hw]
    exact Array.mem_toList_iff.2 (Array.mem_push_self)
  refine ⟨((hc.custody.share_kept hv).give hmanaged).perm_free ?_, hc.world⟩
  simpa [Executor.push] using List.perm_middle.symm

theorem stocked_pushBuiltin (owner : Owner) (id : VariableId) (cell? : Option Cell) (pool : List Value) :
    Triple (·.Stocked strict [] pool) (loadBuiltin owner id cell? >>= pushShared)
      (fun _ c => (strict → c.Orderly) → c.Stocked strict [] pool)
      (·.Stocked strict [] pool) :=
  (stocked_loadBuiltin owner id cell? [] pool).bind fun v => stocked_pushHeld v [] pool

/-! ### Instructions -/

theorem stocked_effect (i : Instruction) (pool : List Value) :
    Triple (·.Stocked strict [] pool) i.effect
      (fun _ c => (strict → c.Orderly) → c.Stocked strict [] pool) (·.Stocked strict [] pool) := by
  obtain ⟨op, operands⟩ := i
  have hkeeps : ∀ {x : Exec Unit},
      Triple (·.Stocked strict [] pool) x (fun _ c => c.Stocked strict [] pool) (·.Stocked strict [] pool) →
      Triple (·.Stocked strict [] pool) x (fun _ c => (strict → c.Orderly) → c.Stocked strict [] pool)
        (·.Stocked strict [] pool) :=
    fun hx => hx.mono (fun _ hc => hc) (fun _ _ hc _ => hc) fun _ hc => hc
  by_cases hop : op ∈ Opcode.onBuiltins
  · simp only [Opcode.onBuiltins, List.mem_cons, List.not_mem_nil, or_false] at hop
    rcases hop with rfl | rfl | rfl | rfl | rfl | rfl
    · refine hkeeps ((stocked_pop [] pool).bind fun v c => ?_)
      exact stocked_storeBuiltin (c.owner OwnerId.self) _ none v [] pool c
    · exact fun c => stocked_pushBuiltin (c.owner OwnerId.self) _ none pool c
    · refine hkeeps ((stocked_pop [] pool).bind fun v => ?_)
      refine (safe_popOwner.stockedHolding Eraser.oblivious_popOwner v [] pool).bind fun owner => ?_
      exact stocked_storeBuiltin owner _ none v [] pool
    · refine (safe_popOwner.stocked Eraser.oblivious_popOwner [] pool).bind fun owner => ?_
      exact stocked_pushBuiltin owner _ none pool
    · refine hkeeps ((stocked_pop [] pool).bind fun v => ?_)
      refine (safe_popOwner.stockedHolding Eraser.oblivious_popOwner v [] pool).bind fun owner => ?_
      refine (safe_popCell.stockedHolding Eraser.oblivious_popCell v [] pool).bind fun cell => ?_
      exact stocked_storeBuiltin owner _ (some cell) v [] pool
    · refine (safe_popOwner.stocked Eraser.oblivious_popOwner [] pool).bind fun owner => ?_
      refine (safe_popCell.stocked Eraser.oblivious_popCell [] pool).bind fun cell => ?_
      exact stocked_pushBuiltin owner _ (some cell) pool
  · exact hkeeps (checked_stocked _ (Eraser.oblivious_effect ⟨op, operands⟩ fun h => absurd h hop)
      fun kept => checked_effect ⟨op, operands⟩ [] kept)

theorem held_map (flow : Flow) : (flow.map Eraser.shelf.value).held = flow.held := by
  cases flow <;> first | rfl | exact List.map_id _

theorem stocked_execute (natives : UInt32 → Option Signature) (i : Instruction) (pool : List Value) :
    Triple (·.Stocked strict [] pool) (i.execute natives)
      (fun flow c => (strict → c.Orderly) → c.Stocked strict flow.held pool)
      (·.Stocked strict [] pool) := by
  obtain ⟨op, operands⟩ := i
  by_cases hop : op ∈ Opcode.onBuiltins
  · have heffect := (stocked_effect ⟨op, operands⟩ pool).bind (f := fun _ => (pure .next : Exec Flow))
      (Q := fun flow c => (strict → c.Orderly) → c.Stocked strict flow.held pool) fun _ c hc => hc
    simp only [Opcode.onBuiltins, List.mem_cons, List.not_mem_nil, or_false] at hop
    rcases hop with rfl | rfl | rfl | rfl | rfl | rfl <;> exact heffect
  · have hbeside : Triple (·.Stocked strict [] pool) (Instruction.execute natives ⟨op, operands⟩)
        (fun flow c => c.Stocked strict (flow.map Eraser.shelf.value).held pool) (·.Stocked strict [] pool) :=
      checked_stocked Flow.held (Eraser.erases_execute natives ⟨op, operands⟩ fun h => absurd h hop)
        fun kept => by simpa using checked_execute natives ⟨op, operands⟩ [] kept
    refine hbeside.mono (fun _ hc => hc) (fun flow _ hc _ => ?_) fun _ hc => hc
    rwa [held_map] at hc

theorem stocked_step (natives : UInt32 → Option Signature) (pool : List Value) :
    Triple (·.Stocked strict [] pool) (step natives)
      (fun flow c => (strict → c.Orderly) → c.Stocked strict flow.held pool)
      (·.Stocked strict [] pool) := by
  rw [step_eq]
  exact ((safe_scan _).stocked (Eraser.oblivious_scan _) [] pool).bind fun i => stocked_execute natives i pool

end Exec
end ScriptVm
