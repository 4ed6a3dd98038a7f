import ScriptVm.Proofs.Bookkeeping
import ScriptVm.Proofs.RootAccounting

/-! Counts of holders, with a collector or without. All the handles of a state lie on its operand stack, in its
variables, in cells or with the host, and array data counts at least as many holders. Execution keeps it so, since
what it does to counts does not depend on the collector's bookkeeping: it does the same to the state whose
collector knows of nothing. -/

namespace ScriptVm
open Eraser (bookkeeping)
variable {δ ν ρ : Type}

/-! ### Values without bookkeeping -/

namespace Heap

@[simp] theorem erased_erased (h : Heap) : h.erased.erased = h.erased := by
  have hblock : Block.erased ∘ Block.erased = Block.erased := by
    funext b
    simp [Block.erased]
  simp [erased, hblock, Function.comp_def]

theorem innerHandles_erased (h : Heap) (a : Address) : h.erased.innerHandles a = h.innerHandles a := by
  have hcell : ∀ o : Option Block, ((o.map Block.erased).map fun b => handlesOn a b.cells) =
      o.map fun b => handlesOn a b.cells := by
    intro o
    cases o <;> simp
  simp only [innerHandles, erased, Array.toList_map, List.map_map, Function.comp_def, hcell]

theorem supports_erased {h : Heap} {vs : List Value} : h.erased.Supports (vs.map Value.share) ↔ h.Supports vs := by
  have hholders : ∀ a, h.erased.holdersOf a = h.holdersOf a := by
    intro a
    simp only [holdersOf, block?_erased, Option.map_map]
    rfl
  simp only [Supports, innerHandles_erased, handlesOn_share, hholders]

end Heap

namespace World

theorem slots_bookkeeping (w : World) : (bookkeeping.world w).slots = w.slots.map Value.share := by
  simp [slots, Eraser.world, Eraser.inst, Eraser.table, Eraser.bookkeeping, Variables.values, List.map_flatMap,
    List.flatMap_map, Function.comp_def]

theorem builtinValues_bookkeeping (w : World) :
    (bookkeeping.world w).builtinValues = w.builtinValues.map Value.share := by
  simp [builtinValues, Eraser.world, Eraser.inst, Eraser.bookkeeping, Variables.values, List.map_flatMap,
    List.flatMap_map, Function.comp_def]

end World

/-! ### The count -/

/-- The values on the operand stack and in variables of any kind. -/
def Core.values (c : Core) : List Value := c.executor.stack.toList ++ c.world.slots ++ c.world.builtinValues

/-- Array data counts its holders, these values among them, and the instances have ids of their own. -/
structure Core.Counted (c : Core) (held : List Value) : Prop where
  supports : c.memory.heap.Supports (c.values ++ held)
  anchoring : c.world.anchoring = .roots
  distinct : (c.world.instances.map (·.id)).Nodup

namespace Core

theorem values_bookkeeping (c : Core) : (bookkeeping.core c).values = c.values.map Value.share := by
  have hstack : (bookkeeping.core c).executor.stack.toList = c.executor.stack.toList.map Value.share :=
    Array.toList_map
  have hslots : (bookkeeping.core c).world.slots = _ := c.world.slots_bookkeeping
  have hbuiltins : (bookkeeping.core c).world.builtinValues = _ := c.world.builtinValues_bookkeeping
  rw [values, hstack, hslots, hbuiltins, values, List.map_append, List.map_append]

theorem counted_congr {c c' : Core} {held held' : List Value} (hsame : bookkeeping.core c = bookkeeping.core c')
    (hheld : held.map Value.share = held'.map Value.share) (hc : c.Counted held) : c'.Counted held' := by
  have hids : ∀ w, (bookkeeping.world w).instances.map (·.id) = w.instances.map (·.id) := by
    intro w
    simp [Eraser.world, Eraser.inst, Function.comp_def]
  have hworld : bookkeeping.world c.world = bookkeeping.world c'.world := congrArg Core.world hsame
  have hmemory : c.memory.erased = c'.memory.erased := congrArg Core.memory hsame
  refine ⟨?_, ?_, ?_⟩
  · have hsupports := Heap.supports_erased.2 hc.supports
    rw [List.map_append, ← values_bookkeeping, hsame, hheld, values_bookkeeping, ← List.map_append] at hsupports
    have hheap : c.memory.heap.erased = c'.memory.heap.erased := congrArg Memory.heap hmemory
    rw [hheap] at hsupports
    exact Heap.supports_erased.1 hsupports
  · have hanchoring : (bookkeeping.world c.world).anchoring = (bookkeeping.world c'.world).anchoring := by rw [hworld]
    exact hanchoring.symm.trans hc.anchoring
  · rw [← hids, ← hworld, hids]
    exact hc.distinct

namespace Counted
variable {c c' : Core} {held : List Value} {v : Value}

theorem same (hc : c.Counted held) (hmemory : c'.memory = c.memory) (hstack : c'.executor.stack = c.executor.stack)
    (hworld : c'.world = c.world) : c'.Counted held := by
  obtain ⟨hsupports, hanchoring, hdistinct⟩ := hc
  refine ⟨?_, by rwa [hworld], by rwa [hworld]⟩
  unfold values at hsupports ⊢
  rwa [hmemory, hstack, hworld]

theorem perm {held' : List Value} (hc : c.Counted held) (hp : held.Perm held') : c.Counted held' :=
  ⟨hc.supports.perm (hp.append_left _), hc.anchoring, hc.distinct⟩

theorem release (vs : List Value) (hc : c.Counted (vs ++ held)) :
    ({ c with memory := c.memory.release vs } : Core).Counted held :=
  ⟨Heap.Supports.release vs (hc.supports.perm (List.perm_append_comm_assoc _ _ _)), hc.anchoring, hc.distinct⟩

/-- Values move between the operand stack and those who hold others. -/
theorem restack {stack : Array Value} {held' : List Value} (hc : c.Counted held)
    (hp : (c.executor.stack.toList ++ held).Perm (stack.toList ++ held')) :
    ({ c with executor := { c.executor with stack } } : Core).Counted held' := by
  refine ⟨hc.supports.perm ?_, hc.anchoring, hc.distinct⟩
  have hmove : ∀ us vs : List Value, (us ++ c.world.slots ++ c.world.builtinValues ++ vs).Perm
      (us ++ vs ++ (c.world.slots ++ c.world.builtinValues)) := by
    intro us vs
    rw [List.append_assoc us, List.append_assoc us, List.append_assoc us]
    exact List.perm_append_comm.append_left us
  exact ((hmove _ _).trans (hp.append_right _)).trans (hmove _ _).symm

theorem push (hc : c.Counted (v :: held)) : ({ c with executor := c.executor.push v } : Core).Counted held := by
  refine hc.restack ?_
  rw [Array.toList_push, List.append_assoc]
  rfl

theorem retain (hc : c.Counted held) (hv : c.memory.heap.Holds [v]) :
    ({ c with memory := c.memory.retain v } : Core).Counted (v.share :: held) := by
  refine ⟨?_, hc.anchoring, hc.distinct⟩
  refine (hc.supports.retain fun a ha => hv v (List.mem_singleton_self v) a ha).of_le fun a => ?_
  change handlesOn a (c.values ++ v.share :: held) ≤ _
  simp only [handlesOn_cons, handlesOn_append, Value.target?_share]
  omega

theorem reset (hc : c.Counted held) : c.reset.Counted held := by
  have hempty : ({ c with executor := { c.executor with stack := #[] } } : Core).Counted
      (c.executor.stack.toList ++ held) := hc.restack (List.Perm.refl _)
  exact (hempty.release c.executor.stack.toList).same rfl rfl rfl

end Counted
end Core

/-! ### A collector that knows of nothing -/

def Value.flagged : Value → Value
  | .array h => .array { h with rooted := true }
  | v => v

namespace Value

@[simp] theorem target?_flagged (v : Value) : v.flagged.target? = v.target? := by cases v <;> rfl

@[simp] theorem share_flagged (v : Value) : v.flagged.share = v.share := by cases v <;> rfl

theorem isRooted_flagged {v : Value} (hv : v.target? ≠ none) : v.flagged.isRooted = true := by
  cases v <;> first | rfl | exact absurd rfl hv

@[simp] theorem isRooted_share (v : Value) : v.share.isRooted = false := by cases v <;> rfl

end Value

@[simp] theorem handlesOn_flagged (a : Address) (vs : List Value) :
    handlesOn a (vs.map Value.flagged) = handlesOn a vs := by
  simp [handlesOn, List.countP_map, Function.comp_def]

def Variables.flagged (t : Variables) : Variables := ⟨t.entries.map fun e => (e.1, e.2.flagged)⟩

def World.flagged (w : World) : World :=
  { bookkeeping.world w with
    globals := w.globals.flagged
    instances := w.instances.map fun i => { bookkeeping.inst i with fields := i.fields.flagged } }

namespace World
variable (w : World)

theorem slots_flagged : w.flagged.slots = w.slots.map Value.flagged := by
  simp [slots, flagged, Variables.flagged, Variables.values, List.map_flatMap, List.flatMap_map, Function.comp_def]

theorem builtinValues_flagged : w.flagged.builtinValues = w.builtinValues.map Value.share := by
  simp [builtinValues, flagged, Eraser.inst, bookkeeping, Variables.values, List.map_flatMap, List.flatMap_map,
    Function.comp_def]

theorem bookkeeping_flagged : bookkeeping.world w.flagged = bookkeeping.world w := by
  simp [flagged, Eraser.world, Eraser.inst, Eraser.table, bookkeeping, Variables.flagged, Function.comp_def]

end World

def Core.untracked (c : Core) : Core :=
  { bookkeeping.core c with world := c.world.flagged, memory := { c.memory.erased with collector := some {} } }

namespace Core

theorem bookkeeping_untracked (c : Core) : bookkeeping.core c.untracked = bookkeeping.core c := by
  have hexecutor : bookkeeping.executor (bookkeeping.executor c.executor) = bookkeeping.executor c.executor := by
    simp [Eraser.executor, bookkeeping, Function.comp_def]
  have hmemory : c.untracked.memory.erased = c.memory.erased :=
    congrArg (fun heap => (⟨heap, none⟩ : Memory)) c.memory.heap.erased_erased
  have hworld : bookkeeping.world c.untracked.world = bookkeeping.world c.world := c.world.bookkeeping_flagged
  have hcore : bookkeeping.core c.untracked = { bookkeeping.core c with
      executor := bookkeeping.executor (bookkeeping.executor c.executor)
      world := bookkeeping.world c.untracked.world
      memory := c.untracked.memory.erased } := rfl
  rw [hcore, hexecutor, hworld, hmemory]
  rfl

theorem Counted.stocked {c : Core} {held : List Value} (hc : c.Counted held) :
    c.untracked.Stocked False [] (held.map Value.share) := by
  have hstack : c.untracked.executor.stack.toList = c.executor.stack.toList.map Value.share := Array.toList_map
  have hslots : c.untracked.world.slots = c.world.slots.map Value.flagged := c.world.slots_flagged
  have hbuiltins : c.untracked.world.builtinValues = c.world.builtinValues.map Value.share :=
    c.world.builtinValues_flagged
  have hfree : ∀ id, ({} : Collector Tracked).node? id = none := fun _ => rfl
  have hplain : ∀ {a b v}, c.memory.heap.erased.block? a = some b → v ∈ b.cells → v.isRooted = false := by
    intro a b v hb hv
    rw [Heap.block?_erased] at hb
    obtain ⟨b, -, rfl⟩ := Option.map_eq_some_iff.1 hb
    rw [Block.cells_erased] at hv
    obtain ⟨v, -, rfl⟩ := List.mem_map.1 hv
    exact v.isRooted_share
  refine ⟨⟨⟨{}, rfl, Collector.tidy_new, ?_, ?_, ?_, ?_, ?_, False.elim, False.elim, ?_, fun _ _ _ _ => hplain⟩,
    False.elim, ?_, ?_⟩, ?_⟩
  · refine (Heap.supports_erased.2 hc.supports).of_le fun a => ?_
    rw [hstack, hslots, hbuiltins]
    simp only [values, List.map_map, Function.comp_def, List.append_nil, handlesOn_append,
      handlesOn_share, handlesOn_flagged, List.map_append]
    omega
  · intro id hid
    simp at hid
  · intro a b id hb hid
    change (c.memory.heap.erased.block? a) = _ at hb
    rw [Heap.block?_erased] at hb
    obtain ⟨b, -, rfl⟩ := Option.map_eq_some_iff.1 hb
    cases hid
  · exact fun id n a hn => absurd hn (by rw [hfree]; nofun)
  · exact fun id n a b hn => absurd hn (by rw [hfree]; nofun)
  · exact fun _ id n hn => absurd hn (by rw [hfree]; nofun)
  · intro v hv
    rw [hstack, hbuiltins] at hv
    simp only [List.mem_append, List.mem_map, List.not_mem_nil, or_false] at hv
    rcases hv with ⟨v, -, rfl⟩ | ⟨v, -, rfl⟩ | ⟨v, -, rfl⟩ <;> exact v.isRooted_share
  · intro v hv htarget
    rw [hslots] at hv
    obtain ⟨v, -, rfl⟩ := List.mem_map.1 hv
    exact Value.isRooted_flagged (v.target?_flagged ▸ htarget)
  · refine ⟨hc.anchoring, fun i hi => ?_, ?_, fun v hv => ?_⟩
    · obtain ⟨j, hj, rfl⟩ := List.mem_map.1 hi
      obtain ⟨k, -, rfl⟩ := List.mem_map.1 hj
      rfl
    · have hids : (Eraser.shelf.world c.untracked.world).instances.map (·.id) = c.world.instances.map (·.id) := by
        simp [untracked, World.flagged, Eraser.world, Eraser.inst, Function.comp_def]
      rw [hids]
      exact hc.distinct
    · rw [World.builtinValues_shelf] at hv
      cases hv

theorem Stocked.counted {strict : Prop} {c : Core} {hand pool : List Value} (hc : c.Stocked strict hand pool) :
    c.Counted (hand ++ pool) := by
  refine ⟨hc.custody.supports.of_le fun a => ?_, hc.world.anchoring, World.distinct_of_shelf hc.world⟩
  simp only [values, handlesOn_append]
  omega

end Core

/-! ### Execution -/

namespace Exec
variable {α β : Type} {held : List Value}

/-- What is kept with a collector that tracks nothing is kept with any, and without one. -/
theorem counted_of_stocked {x : Exec α} {y : Exec β} {e : α → β} (hx : bookkeeping.Erases e x y)
    (given : α → List Value) (hgiven : ∀ a b, e a = e b → (given a).map Value.share = (given b).map Value.share)
    (hstocked : Triple (·.Stocked False [] (held.map Value.share)) x
      (fun a c => c.Stocked False (given a) (held.map Value.share)) (·.Stocked False [] (held.map Value.share))) :
    Triple (·.Counted held) x (fun a c => c.Counted (given a ++ held)) (·.Counted held) := by
  intro c hc
  have hrun := hx c
  have huntracked := hx c.untracked
  have hcounted := hstocked c.untracked hc.stocked
  rw [c.bookkeeping_untracked] at huntracked
  cases hxc : x c with
  | ok a d =>
    rw [hxc] at hrun
    cases hxu : x c.untracked with
    | ok a' d' =>
      rw [hxu] at huntracked hcounted
      obtain ⟨hresult, hcore⟩ := EStateM.Result.ok.inj (huntracked.1.symm.trans hrun.1)
      refine Core.counted_congr hcore ?_ hcounted.counted
      simp only [List.map_append, List.map_map, hgiven a' a hresult]
      simp [Function.comp_def]
    | error f d' =>
      rw [hxu] at huntracked
      cases huntracked.1.symm.trans hrun.1
  | error f d =>
    rw [hxc] at hrun
    cases hxu : x c.untracked with
    | ok a d' =>
      rw [hxu] at huntracked
      cases huntracked.1.symm.trans hrun.1
    | error f' d' =>
      rw [hxu] at huntracked hcounted
      obtain ⟨-, hcore⟩ := EStateM.Result.error.inj (huntracked.1.symm.trans hrun.1)
      refine Core.counted_congr hcore ?_ hcounted.counted
      simp [Function.comp_def]

/-- An instruction keeps the count. What a native is called with leaves the stack and is held. -/
theorem counted_step (natives : UInt32 → Option Signature) (held : List Value) :
    Triple (·.Counted held) (step natives) (fun flow c => c.Counted (flow.held ++ held)) (·.Counted held) := by
  refine counted_of_stocked (Eraser.erases_step Eraser.leavesBuiltins_bookkeeping natives) Flow.held
    (fun flow flow' h => ?_)
    ((stocked_step natives _).mono (fun _ hc => hc) (fun _ _ hc => hc False.elim) fun _ hc => hc)
  have hheld : ∀ flow : Flow, (flow.map bookkeeping.value).held = flow.held.map Value.share := by
    intro flow
    cases flow <;> rfl
  rw [← hheld, h, hheld]

theorem counted_pushAll (vs held : List Value) :
    Triple (fun c => c.Counted held ∧ ∀ v ∈ vs, c.memory.heap.Holds [v]) (vs.forM pushShared)
      (fun _ c => c.Counted held) (·.Counted held) := by
  have hall : Triple (fun c => c.Counted held ∧ ∀ v ∈ vs, c.OffersIf False v) (vs.forM pushShared)
      (fun _ c => c.Counted held ∧ ∀ v ∈ vs, c.OffersIf False v) (·.Counted held) := by
    refine Triple.forM fun v hv c hc => ?_
    exact ⟨((hc.1.retain (hc.2 v hv).1).push).same rfl rfl rfl, fun w hw => offers_retain (hc.2 w hw) v⟩
  exact hall.mono (fun _ hc => ⟨hc.1, fun v hv => ⟨hc.2 v hv, False.elim⟩⟩) (fun _ _ hc => hc.1) fun _ hc => hc

theorem counted_pushScalar (n : Int32) (held : List Value) :
    Triple (·.Counted held) (push (.int n)) (fun _ c => c.Counted held) (·.Counted held) := by
  intro c hc
  refine Core.Counted.push (v := .int n) ⟨hc.supports.of_le fun a => ?_, hc.anchoring, hc.distinct⟩
  simp [Value.target?]

theorem counted_popMany (count : Nat) (held : List Value) :
    Triple (·.Counted held) (popMany count) (fun vs c => c.Counted (vs ++ held)) (·.Counted held) := by
  intro c hc
  rw [popMany_eq]
  split_ifs
  · exact hc
  · refine hc.restack ?_
    simp [Array.take_eq_extract, ← List.append_assoc]

theorem counted_enterSection (index : UInt32) (held : List Value) :
    Triple (·.Counted held) (enterSection index) (fun _ c => c.Counted held) (·.Counted held) :=
  counted_of_stocked (Eraser.oblivious_enterSection index) (fun _ => []) (fun _ _ _ => rfl)
    ((safe_enterSection index).stocked (Eraser.oblivious_enterSection index) [] _)

end Exec

/-! ### Calls -/

namespace Machine
variable {m : Machine δ ν} {held : List Value}

theorem counted_abandon (hm : m.core.Counted held) : m.abandon.core.Counted held := by
  unfold abandon
  split_ifs
  · exact hm.reset
  · exact hm

theorem counted_complete (hm : m.core.Counted held) (results : UInt8) (r : Except Failure Bool) :
    (m.complete results r).2.core.Counted (Execution.given (m.complete results r).1 ++ held) := by
  rcases r with failure | _ | _
  · exact counted_abandon hm
  · unfold complete
    rcases exec_cases (Exec.counted_popMany results.toNat held) hm with
      ⟨vs, m', hrun, hcounted⟩ | ⟨f, m', hrun, hcounted⟩ <;> rw [hrun] <;> exact hcounted
  · exact hm

theorem counted_prepareCall (hm : m.core.Counted held) (index : UInt32) {arguments : List Value}
    (harguments : ∀ v ∈ arguments, m.core.memory.heap.Holds [v]) :
    (m.prepareCall index arguments).2.core.Counted held := by
  unfold prepareCall
  split_ifs
  · exact hm
  · split
    · exact hm
    · split
      · exact hm
      · have hpush := (Exec.counted_pushAll arguments held).bind fun _ =>
          (Exec.counted_pushScalar (.ofInt arguments.length) held)
        rcases exec_cases hpush ⟨hm, harguments⟩ with ⟨u, m', hrun, hcounted⟩ | ⟨f, m', hrun, hcounted⟩ <;>
          rw [hrun] <;> exact hcounted

end Machine

/-! ### Transitions -/

namespace State
variable {env : Environment δ ν} {m : Machine δ ν} {waiting : List (Waiting δ ν ρ)} {held : List Value}

theorem counted_dispatch (hm : m.core.Counted held) :
    (dispatch env m waiting).machine.core.Counted (entrusted env ⟨m, .dispatch, waiting⟩ ++ held) := by
  have hrun := Exec.counted_step env.signature? held m.core hm
  change (dispatch env m waiting).machine.core.Counted (m.core.entrusts env.signature? ++ held)
  unfold Core.entrusts dispatch Machine.exec
  cases hstep : Exec.step env.signature? m.core with
  | error f c =>
    rw [hstep] at hrun
    exact hrun
  | ok flow c =>
    rw [hstep] at hrun
    cases flow with
    | native index arguments =>
      dsimp only
      cases env.native? index <;> exact hrun
    | next => exact hrun
    | returned => exact hrun
    | suspended => exact hrun
    | entered => exact Core.Counted.same hrun rfl rfl rfl

theorem counted_leave (hm : m.core.Counted held) (result : Except Failure Bool) :
    (leave m result waiting).machine.core.Counted (delivered ⟨m, .leave result, waiting⟩ ++ held) := by
  have hclosed : m.closeRun.core.Counted held := hm.same rfl rfl rfl
  cases waiting with
  | nil => exact hm
  | cons w waiting =>
    cases w with
    | instruction => rcases result with failure | _ | _ <;> exact hclosed
    | caller results next => exact Machine.counted_complete hclosed results result
    | executor next => exact hclosed

theorem counted_enter (hm : m.core.Counted held) (next : Except Failure Execution → Task δ ν ρ) (entry : Entry)
    (harguments : ∀ v ∈ arguments (ρ := ρ) ⟨m, .host (.enter entry next), waiting⟩, m.core.memory.heap.Holds [v]) :
    (enter m waiting next entry).machine.core.Counted held := by
  refine core_enter (P := (·.Counted held)) (fun hm => hm.same rfl rfl rfl) Machine.counted_abandon
    (fun index _ hm => Machine.core_exec (P := (·.Counted held)) (Exec.counted_enterSection index held) hm)
    (Machine.core_exec (P := (·.Counted held)) (Exec.counted_pushScalar 0 held)) hm next entry ?_
  rintro index values rfl
  exact Machine.counted_prepareCall hm index harguments

/-- A native ends: its arguments are dropped, and its result goes onto the stack. -/
theorem counted_settle {arguments : List Value} {result : Except Fault (Option Value)}
    (hm : m.core.Counted (returned (ρ := ρ) ⟨m, .host (.finish (.native arguments result)), waiting⟩ ++ held))
    {s' : State δ ν ρ} (hstep : settle m waiting (.native arguments result) = .inl s') :
    s'.machine.core.Counted held := by
  rcases result with f | _ | v <;> obtain rfl := Sum.inl.inj hstep
  · exact hm.release arguments
  · exact hm.release arguments
  · have hgiven : m.core.Counted (arguments ++ v :: held) := by simpa [returned] using hm
    exact (hgiven.release arguments).push

/-- A transition keeps the count. What it calls a native with and what it delivers are held from then on. -/
theorem counted_transition {s s' : State δ ν ρ} (hs : s.machine.core.Counted (s.returned ++ held))
    (hacts : s.acts = false) (harguments : ∀ v ∈ s.arguments, s.machine.core.memory.heap.Holds [v])
    (hstep : s.step env = .inl s') : s'.machine.core.Counted (s.delivered ++ s.entrusted env ++ held) := by
  cases coreStep_of_step hacts hstep with
  | spares hspares hcore =>
    rw [returned_of_sparesCore hspares] at hs
    rw [hcore, delivered_of_sparesCore hspares, entrusted_of_sparesCore hspares]
    exact hs
  | dispatch m waiting => exact counted_dispatch hs
  | leave m result waiting =>
    rw [show entrusted env ⟨m, .leave result, waiting⟩ = [] from rfl, List.append_nil]
    exact counted_leave hs result
  | enter m entry next waiting => exact counted_enter hs next entry harguments
  | native hsettled => exact counted_settle hs hsettled

end State

/-! ### Runs -/

/-- A run under any configuration, with any host, natives and debuggers. What a native is called with, what a
call delivers and what the host takes is held by them. The host may do what it likes as long as each handle is
counted, as each one is that it did not make up. -/
inductive CountedRun (env : Environment δ ν) : State δ ν ρ → List Value → Prop where
  | start (config : Config) (code : Task δ ν ρ) : CountedRun env ⟨.new config {}, .host code, []⟩ []
  | step {s s' : State δ ν ρ} {held held' : List Value} : CountedRun env s held → held.Perm (s.returned ++ held') →
      s.acts = false → (∀ v ∈ s.arguments, s.machine.core.memory.heap.Holds [v]) → s.step env = .inl s' →
      CountedRun env s' (s.delivered ++ s.entrusted env ++ held')
  | act {m : Machine δ ν} {waiting : List (Waiting δ ν ρ)} {held held' : List Value}
      {f : Machine δ ν → Task δ ν ρ × Machine δ ν} : CountedRun env ⟨m, .host (.act f), waiting⟩ held →
      (f m).2.core.Counted held' → CountedRun env ⟨(f m).2, .host (f m).1, waiting⟩ held'
  | again {s : State δ ν ρ} {held : List Value} {r : ρ} {m : Machine δ ν} (code : Task δ ν ρ) : CountedRun env s held →
      s.step env = .inr (r, m) → CountedRun env ⟨m, .host code, []⟩ held

theorem CountedRun.counted {env : Environment δ ν} {s : State δ ν ρ} {held : List Value} (h : CountedRun env s held) :
    s.machine.core.Counted held := by
  induction h with
  | start config code => exact ⟨fun a => Nat.le_refl 0, rfl, List.nodup_nil⟩
  | step _ hheld hacts harguments hstep ih => exact State.counted_transition (ih.perm hheld) hacts harguments hstep
  | act _ hcounted _ => exact hcounted
  | again code _ hstep ih =>
    rw [← Run.finish_inr hstep]
    exact ih

theorem HostedRun.counted {env : Environment δ ν} {s : State δ ν ρ} {pool : List Value} (h : HostedRun env s pool) :
    CountedRun env s pool := by
  induction h with
  | start config code _ => exact .start config code
  | step _ hpool hacts harguments hstep ih => exact ih.step hpool hacts harguments hstep
  | act hrun hdeeds ih => exact ih.act (stocked_hostDeeds hdeeds hrun.stocked).counted
  | again code _ hstep ih => exact ih.again code hstep

end ScriptVm
