import ScriptVm.Proofs.Shelving
import ScriptVm.Proofs.MachineCollection

/-! Runs in which natives and built-in variables have arrays. A native's arguments leave the operand stack
when it is called and are its own until it ends; what a built-in variable holds is on no stack and is no
root. A pass leaves such an array its rows only if something else leads to it. -/

namespace ScriptVm
variable {δ ν ρ : Type}

namespace World
variable (w : World)

theorem shelf_destroy (id : InstanceId) : Eraser.shelf.world (w.destroy id) = (Eraser.shelf.world w).destroy id :=
  Eraser.shelf.world_modifyInstance w (f := fun i => { i with active := false })
    (g := fun i => { i with active := false }) (fun _ => rfl) id

theorem builtinValues_destroy (id : InstanceId) : (w.destroy id).builtinValues = w.builtinValues := by
  simp only [builtinValues, destroy, modifyInstance, List.flatMap_map]
  congr 1
  funext i
  split_ifs <;> rfl

theorem shelf_cleanup (m : Memory) : Eraser.shelf.world (w.cleanup m).1 = ((Eraser.shelf.world w).cleanup m).1 := by
  simp only [cleanup, Eraser.active_world]
  rfl

theorem shelf_create {w : World} (hw : (Eraser.shelf.world w).Plain) (m : Memory) (object : Int64)
    (hfresh : w.instance? w.nextId = none) :
    (Eraser.shelf.world (w.create m object).2.1).Plain ∧ (w.create m object).2.1.slots = w.slots ∧
      (w.create m object).2.1.builtinValues = w.builtinValues ∧ (w.create m object).2.2 = m := by
  have hanchoring : w.anchoring = .roots := hw.anchoring
  have hfresh' : (Eraser.shelf.world w).instance? (Eraser.shelf.world w).nextId = none := by
    rw [Eraser.instance?_world]
    exact Option.map_eq_none_iff.2 hfresh
  have hworld : Eraser.shelf.world (w.create m object).2.1 = ((Eraser.shelf.world w).create m object).2.1 := by
    simp [create, Eraser.world, Eraser.inst, Eraser.table, hanchoring, Eraser.shelf]
  obtain ⟨hplain, hslots, -⟩ := hw.create m object hfresh'
  rw [← hworld] at hplain hslots
  rw [slots_shelf, slots_shelf] at hslots
  refine ⟨hplain, hslots, ?_, ?_⟩
  · simp [create, hanchoring, builtinValues, Variables.values]
  · rw [create, hanchoring]

end World

namespace Core.Stocked
variable {strict : Prop} {c : Core} {hand pool : List Value}

theorem collect (hc : c.Stocked strict [] pool) : c.collect.2.Stocked strict [] pool := by
  have hcustody := hc.custody.collect
  rw [List.append_nil] at hcustody
  refine ⟨?_, hc.world⟩
  rw [List.append_nil]
  exact hcustody

theorem reset (hc : c.Stocked strict [] pool) : c.reset.Stocked strict [] pool :=
  ⟨Memory.Custody.release c.executor.stack.toList hc.custody, hc.world⟩

theorem define {v : Value} (hc : c.Stocked strict [v] pool) (id : InstanceId) (slot : VariableId) :
    ({ c with
      world := (c.world.defineBuiltin c.memory id slot v).1
      memory := (c.world.defineBuiltin c.memory id slot v).2 } : Core).Stocked strict [] pool := by
  unfold World.defineBuiltin
  cases hi : c.world.instance? id with
  | none => exact Core.Stocked.release [v] hc
  | some i =>
    obtain rfl : i.id = id := by simpa using List.find?_some hi
    refine ⟨?_, ?_⟩
    · dsimp only
      rw [World.slots_setBuiltins]
      refine (World.place_builtin hc.world (World.Plain.instance_mem hi) slot).exchange (hc.custody.perm_free ?_)
      exact List.perm_middle
    · dsimp only
      rw [World.shelf_setBuiltins]
      exact hc.world

theorem declare (hc : c.Stocked strict [] pool) (id : InstanceId) (slot : VariableId) {v : Value}
    (hv : v.isArray = false) :
    ({ c with
      world := (c.world.defineBuiltin c.memory id slot v).1
      memory := (c.world.defineBuiltin c.memory id slot v).2 } : Core).Stocked strict [] pool := by
  have hadded := hc.custody.add_null (Value.target?_of_not_array hv) (Value.isRooted_of_not_array hv)
  have hinHand : c.Stocked strict [v] pool := ⟨hadded.perm_free List.perm_middle.symm, hc.world⟩
  exact hinHand.define id slot

end Core.Stocked

/-! ### The host -/

theorem HostMove.stocked {strict : Prop} {s s' : Core × List Value} (h : HostMove s s')
    (hs : s.1.Stocked strict [] s.2) :
    s'.1.Stocked strict [] s'.2 := by
  cases h with
  | collect c pool => exact hs.collect
  | create c pool object hfresh =>
    obtain ⟨hplain, hslots, hshelf, hmemory⟩ := World.shelf_create hs.world c.memory object hfresh
    refine ⟨?_, hplain⟩
    dsimp only
    rw [hslots, hshelf, hmemory]
    exact hs.custody
  | destroy c pool id =>
    refine ⟨?_, ?_⟩
    · dsimp only
      rw [World.slots_destroy, World.builtinValues_destroy]
      exact hs.custody
    · dsimp only
      rw [World.shelf_destroy]
      exact hs.world.destroy id
  | cleanup c pool =>
    have hanchoring : c.world.anchoring = .roots := hs.world.anchoring
    refine ⟨World.custody_cleanup hanchoring hs.custody, ?_⟩
    dsimp only
    rw [World.shelf_cleanup]
    exact hs.world.withoutDestroyed c.memory
  | declare c pool id slot v hv => exact hs.declare id slot hv
  | touch c pool id =>
    have htouched : Exec.Safe (Exec.updateGlobal id fun m v => (v, m)) :=
      Exec.moves_updateGlobal [] fun _ m old free slots kept hcustody => hcustody
    have hbeside : Eraser.shelf.Oblivious (Exec.updateGlobal id fun m v => (v, m)) :=
      Eraser.erases_updateGlobal (fun _ _ => rfl) id
    exact htouched.stocked hbeside [] pool c hs
  | adjust c c' pool hmemory hstack hworld => exact hs.same hmemory hstack hworld
  | exchange c pool stack pool' hp hmanaged =>
    refine ⟨?_, hs.world⟩
    have hcustody := hs.custody
    rw [List.append_nil] at hcustody ⊢
    refine hcustody.exchange ?_ fun _ => hmanaged
    rw [← List.append_assoc, ← List.append_assoc]
    exact hp.append_right _
  | share c pool v hv => exact ⟨hs.custody.share_kept hv, hs.world⟩
  | scalar c pool v hnull hplain => exact ⟨hs.custody.keep_null hnull hplain, hs.world⟩
  | build c pool rows tracked =>
    have hcustody := hs.custody
    dsimp only at hcustody
    rw [List.append_assoc] at hcustody
    exact ⟨hcustody.newArray tracked, hs.world⟩
  | store c pool v new path copy hpath hv hnew =>
    have hgiven := (Memory.Custody.give hs.custody fun _ => hv).give fun _ => hnew
    refine ⟨Memory.Custody.take ?_, hs.world⟩
    exact (hgiven.perm_free (List.Perm.swap _ _ _)).storeNested hpath copy
  | drop c pool vs => exact hs.forget vs

theorem stocked_hostMoves {strict : Prop} {s s' : Core × List Value} (h : Relation.ReflTransGen HostMove s s')
    (hs : s.1.Stocked strict [] s.2) : s'.1.Stocked strict [] s'.2 := by
  induction h with
  | refl => exact hs
  | tail _ hmove ih => exact hmove.stocked ih

/-! ### Calls -/

theorem Exec.stocked_pushOffered {strict : Prop} (vs hand pool : List Value) :
    Triple (fun c => c.Stocked strict hand pool ∧ ∀ v ∈ vs, c.OffersIf strict v) (vs.forM pushShared)
      (fun _ c => c.Stocked strict hand pool) (·.Stocked strict hand pool) := by
  have hall : Triple (fun c => c.Stocked strict hand pool ∧ ∀ v ∈ vs, c.OffersIf strict v) (vs.forM pushShared)
      (fun _ c => c.Stocked strict hand pool ∧ ∀ v ∈ vs, c.OffersIf strict v) (·.Stocked strict hand pool) := by
    refine Triple.forM fun v hv c hc => ?_
    obtain ⟨hheld, hmanaged⟩ := hc.2 v hv
    refine ⟨⟨(hc.1.custody.share hheld hmanaged).perm_free ?_, hc.1.world⟩, fun w hw => offers_retain (hc.2 w hw) v⟩
    simpa [Executor.push] using List.perm_middle.symm
  exact hall.mono (fun _ hc => hc) (fun _ _ hc => hc.1) fun _ hc => hc

namespace Machine
variable {strict : Prop} {m : Machine δ ν} {pool : List Value}

theorem stocked_exec {x : Exec Unit} (hx : Exec.Safe x) (hx' : Eraser.shelf.Oblivious x)
    (hm : m.core.Stocked strict [] pool) :
    (m.exec x).2.core.Stocked strict [] pool :=
  core_exec (P := (·.Stocked strict [] pool)) (hx.stocked hx' [] pool) hm

theorem stocked_abandon (hm : m.core.Stocked strict [] pool) : m.abandon.core.Stocked strict [] pool := by
  unfold abandon
  split_ifs
  · exact hm.reset
  · exact hm

theorem stocked_complete (hm : m.core.Stocked strict [] pool) (results : UInt8) (r : Except Failure Bool) :
    (m.complete results r).2.core.Stocked strict [] (Execution.given (m.complete results r).1 ++ pool) := by
  rcases r with failure | suspended
  · exact stocked_abandon hm
  · cases suspended with
    | true => exact hm
    | false =>
      unfold complete
      have hbeside := Eraser.erases_popMany (R := Eraser.shelf) results.toNat
      rcases exec_cases ((Exec.moves_popMany results.toNat).stocked hbeside [] pool) hm with
        ⟨vs, m', hrun, hstocked⟩ | ⟨f, m', hrun, hstocked⟩
      · rw [hrun]
        rw [List.append_nil, show List.map Eraser.shelf.value vs = vs from List.map_id vs] at hstocked
        exact hstocked.handOver
      · rw [hrun]
        exact hstocked

theorem stocked_prepareCall (hm : m.core.Stocked strict [] pool) (index : UInt32) {arguments : List Value}
    (harguments : ∀ v ∈ arguments, m.core.OffersIf strict v) :
    (m.prepareCall index arguments).2.core.Stocked strict [] pool := by
  unfold prepareCall
  split_ifs
  · exact hm
  · split
    · exact hm
    · split
      · exact hm
      · have hpush := (@Exec.stocked_pushOffered strict arguments [] pool).bind fun _ =>
          (Exec.safe_push (v := .int (.ofInt arguments.length)) rfl rfl).stocked (Eraser.oblivious_push rfl) [] pool
        rcases exec_cases hpush ⟨hm, harguments⟩ with ⟨u, m', hrun, hstocked⟩ | ⟨f, m', hrun, hstocked⟩ <;>
          rw [hrun] <;> exact hstocked

end Machine

/-! ### Natives -/

/-- What the next instruction calls a native with. -/
def Core.entrusts (natives : UInt32 → Option Signature) (c : Core) : List Value :=
  match Exec.step natives c with
  | .ok flow _ => flow.held
  | .error _ _ => []

namespace State
variable {strict : Prop} {env : Environment δ ν} {m : Machine δ ν} {waiting : List (Waiting δ ν ρ)} {pool : List Value}

def entrusted (env : Environment δ ν) : State δ ν ρ → List Value
  | ⟨m, .dispatch, _⟩ => m.core.entrusts env.signature?
  | _ => []

/-- What a native gives back when it ends: its arguments, which are dropped, and its result. -/
def returned : State δ ν ρ → List Value
  | ⟨_, .host (.finish (.native arguments (.ok (some v)))), _⟩ => arguments ++ [v]
  | ⟨_, .host (.finish (.native arguments _)), _⟩ => arguments
  | _ => []

theorem entrusted_of_sparesCore {s : State δ ν ρ} (h : s.sparesCore = true) : s.entrusted env = [] := by
  obtain ⟨m, focus, waiting⟩ := s
  cases focus with
  | dispatch => cases h
  | _ => rfl

theorem returned_of_not_inNative {s : State δ ν ρ} (hs : s.inNative env = false) : s.returned = [] := by
  obtain ⟨m, focus, waiting⟩ := s
  cases focus with
  | host task =>
    cases task with
    | finish verdict =>
      cases verdict with
      | native arguments result => cases hs
      | _ => rfl
    | _ => rfl
  | _ => rfl

theorem returned_of_sparesCore {s : State δ ν ρ} (h : s.sparesCore = true) : s.returned = [] := by
  obtain ⟨m, focus, waiting⟩ := s
  cases focus with
  | host task =>
    cases task with
    | finish verdict =>
      cases verdict with
      | native arguments result => cases h
      | _ => rfl
    | _ => rfl
  | _ => rfl

theorem entrusted_of_not_inNative {s : State δ ν ρ} (hs : s.inNative env = false) : s.entrusted env = [] := by
  obtain ⟨m, focus, waiting⟩ := s
  cases focus with
  | dispatch =>
    unfold inNative Core.callsNative at hs
    unfold entrusted Core.entrusts
    dsimp only at hs ⊢
    cases hrun : Exec.step env.signature? m.core with
    | error f c => rfl
    | ok flow c =>
      rw [hrun] at hs
      cases flow with
      | native index arguments => cases hs
      | _ => rfl
  | _ => rfl

theorem stocked_dispatch (hm : m.core.Stocked strict [] pool)
    (horderly : strict → (dispatch env m waiting).machine.core.Orderly) :
    (dispatch env m waiting).machine.core.Stocked strict [] (entrusted env ⟨m, .dispatch, waiting⟩ ++ pool) := by
  have hrun := Exec.stocked_step env.signature? pool m.core hm
  change (dispatch env m waiting).machine.core.Stocked strict [] (m.core.entrusts env.signature? ++ pool)
  unfold Core.entrusts
  unfold dispatch Machine.exec at horderly ⊢
  cases hstep : Exec.step env.signature? m.core with
  | error f c =>
    rw [hstep] at hrun
    exact hrun
  | ok flow c =>
    rw [hstep] at hrun horderly
    cases flow with
    | native index arguments =>
      dsimp only at horderly ⊢
      cases hnative : env.native? index with
      | none =>
        rw [hnative] at horderly
        exact (hrun horderly).handOver
      | some n =>
        rw [hnative] at horderly
        exact (hrun horderly).handOver
    | next => exact hrun horderly
    | returned => exact hrun horderly
    | suspended => exact hrun horderly
    | entered => exact (hrun horderly).same rfl rfl rfl

theorem stocked_leave (hm : m.core.Stocked strict [] pool) (result : Except Failure Bool) :
    (leave m result waiting).machine.core.Stocked strict [] (delivered ⟨m, .leave result, waiting⟩ ++ pool) := by
  have hclosed : m.closeRun.core.Stocked strict [] pool := hm.same rfl rfl rfl
  cases waiting with
  | nil => exact hm
  | cons w waiting =>
    cases w with
    | instruction =>
      rcases result with failure | suspended
      · exact hclosed
      · cases suspended <;> exact hclosed
    | caller results next => exact Machine.stocked_complete hclosed results result
    | executor next => exact hclosed

theorem stocked_enter (hm : m.core.Stocked strict [] pool) (next : Except Failure Execution → Task δ ν ρ)
    (entry : Entry)
    (harguments : ∀ v ∈ arguments (ρ := ρ) ⟨m, .host (.enter entry next), waiting⟩, m.core.OffersIf strict v) :
    (enter m waiting next entry).machine.core.Stocked strict [] pool := by
  refine core_enter (P := (·.Stocked strict [] pool)) (fun hm => hm.same rfl rfl rfl) Machine.stocked_abandon
    (fun index _ hm => Machine.stocked_exec (Exec.safe_enterSection index) (Eraser.oblivious_enterSection index) hm)
    (Machine.stocked_exec (Exec.safe_push rfl rfl) (Eraser.oblivious_push rfl)) hm next entry ?_
  rintro index values rfl
  exact Machine.stocked_prepareCall hm index harguments

theorem stocked_settle {arguments : List Value} {result : Except Fault (Option Value)}
    (hm : m.core.Stocked strict [] (returned (ρ := ρ) ⟨m, .host (.finish (.native arguments result)), waiting⟩ ++ pool))
    {s' : State δ ν ρ} (hstep : settle m waiting (.native arguments result) = .inl s')
    (horderly : strict → s'.machine.core.Orderly) :
    s'.machine.core.Stocked strict [] pool := by
  have hdropped : ∀ {pool : List Value}, m.core.Stocked strict [] (arguments ++ pool) →
      (m.exec (Exec.drop arguments)).2.core.Stocked strict [] pool := fun hm => hm.forget arguments
  rcases result with f | _ | v
  · obtain rfl := Sum.inl.inj hstep
    exact hdropped hm
  · obtain rfl := Sum.inl.inj hstep
    exact hdropped hm
  · obtain rfl := Sum.inl.inj hstep
    have hgiven : (m.exec (Exec.drop arguments)).2.core.Stocked strict [] (v :: pool) := by
      refine hdropped ?_
      simpa [returned] using hm
    have hmanaged : strict → (m.exec (Exec.drop arguments)).2.core.memory.heap.Managed [v] := by
      intro hstrict
      have hpushed : (m.exec (Exec.drop arguments)).2.core.memory.heap.Managed
          ((m.exec (Exec.drop arguments)).2.core.executor.push v).stack.toList := horderly hstrict
      refine hpushed.mono fun w hw => ?_
      rw [List.mem_singleton.1 hw]
      exact Array.mem_toList_iff.2 Array.mem_push_self
    exact (Exec.moves_push v).stocked (Eraser.erases_push (R := Eraser.shelf) v) [] pool _ (hgiven.give hmanaged)

/-- A transition keeps the state stocked, if it brings no untracked data onto the stack. -/
theorem stocked_transition {s s' : State δ ν ρ} (hs : s.machine.core.Stocked strict [] (s.returned ++ pool))
    (hacts : s.acts = false) (harguments : ∀ v ∈ s.arguments, s.machine.core.OffersIf strict v)
    (hstep : s.step env = .inl s') (horderly : strict → s'.machine.core.Orderly) :
    s'.machine.core.Stocked strict [] (s.delivered ++ s.entrusted env ++ pool) := by
  cases coreStep_of_step hacts hstep with
  | spares hspares hcore =>
    rw [returned_of_sparesCore hspares] at hs
    rw [hcore, delivered_of_sparesCore hspares, entrusted_of_sparesCore hspares]
    exact hs
  | dispatch m waiting => exact stocked_dispatch hs horderly
  | leave m result waiting =>
    rw [show entrusted env ⟨m, .leave result, waiting⟩ = [] from rfl, List.append_nil]
    exact stocked_leave hs result
  | enter m entry next waiting => exact stocked_enter hs next entry harguments
  | native hsettled => exact stocked_settle hs hsettled horderly

end State

/-! ### Runs -/

/-- As a `Run`, but natives are called, and built-in variables may have arrays. What a native is called
with is its own until it ends; it then has to give that back, with its result. Data that is not tracked,
as arrays that a pass has emptied, does not get back onto the operand stack. -/
inductive FreeRun (env : Environment δ ν) : State δ ν ρ → List Value → Prop where
  | start (config : Config) (code : Task δ ν ρ) : config.collecting = true →
      FreeRun env ⟨.new config {}, .host code, []⟩ []
  | step {s s' : State δ ν ρ} {pool pool' : List Value} : FreeRun env s pool → pool.Perm (s.returned ++ pool') →
      s.acts = false → (∀ v ∈ s.arguments, s.machine.core.Offers v) → s.step env = .inl s' →
      s'.machine.core.Orderly → FreeRun env s' (s.delivered ++ s.entrusted env ++ pool')
  | act {m : Machine δ ν} {waiting : List (Waiting δ ν ρ)} {pool pool' : List Value}
      {f : Machine δ ν → Task δ ν ρ × Machine δ ν} : FreeRun env ⟨m, .host (.act f), waiting⟩ pool →
      Relation.ReflTransGen HostMove (m.core, pool) ((f m).2.core, pool') →
      FreeRun env ⟨(f m).2, .host (f m).1, waiting⟩ pool'
  /-- The host comes to its end and begins anew. -/
  | again {s : State δ ν ρ} {pool : List Value} {r : ρ} {m : Machine δ ν} (code : Task δ ν ρ) : FreeRun env s pool →
      s.step env = .inr (r, m) → FreeRun env ⟨m, .host code, []⟩ pool

section
variable {env : Environment δ ν} {s : State δ ν ρ} {pool : List Value}

theorem Core.Sound.orderly {c : Core} {hand kept : List Value} (hc : c.Sound True hand kept) : c.Orderly :=
  (hc.custody.managed trivial).mono fun _ hv => List.mem_append_left _ (List.mem_append_left _ hv)

/-- A run in which no native is called is one of these. -/
theorem Run.free (h : Run env s pool) : FreeRun env s pool := by
  induction h with
  | start config code hcollecting => exact .start config code hcollecting
  | @step s s' pool hrun hacts hnative harguments hstep hbuiltins ih =>
    have hreturned : s.returned = [] := State.returned_of_not_inNative hnative
    have hentrusted : s.entrusted env = [] := State.entrusted_of_not_inNative hnative
    have horderly := (hrun.step hacts hnative harguments hstep hbuiltins).sound.orderly
    have hfree := ih.step (by rw [hreturned, List.nil_append]) hacts harguments hstep horderly
    rwa [hentrusted, List.append_nil] at hfree
  | act _ hmoves ih => exact ih.act hmoves
  | again code _ hstep ih => exact ih.again code hstep

namespace FreeRun

theorem stocked (h : FreeRun env s pool) : s.machine.core.Stocked True [] pool := by
  induction h with
  | start config code hcollecting =>
    exact ⟨(Run.sound_new hcollecting).custody, (Run.sound_new (δ := Unit) (ν := Unit) hcollecting).world⟩
  | step _ hpool hacts harguments hstep horderly ih =>
    refine State.stocked_transition ⟨?_, ih.world⟩ hacts (fun v hv => (harguments v hv).offersIf) hstep
      fun _ => horderly
    exact ih.custody.perm (List.Perm.refl _) (List.Perm.refl _) (hpool.append_right _)
  | act _ hmoves ih => exact stocked_hostMoves hmoves ih
  | again code _ hstep ih =>
    rw [← Run.finish_inr hstep]
    exact ih

/-- What a pass at any moment of a run makes of an array that a built-in variable holds, or that the host
has, the arguments of the natives that run among it. It keeps the rows that it had if the operand stack,
a global or a variable of an instance leads to it, and if the collector never knew it. If nothing of the
kind leads to it and the edges are exact, it is emptied. -/
theorem collect_spares_reached (h : FreeRun env s pool) {v : Value}
    (hv : v ∈ pool ++ s.machine.core.world.builtinValues) {a : Address} (ha : v.target? = some a) :
    ∃ b b', s.machine.core.memory.heap.block? a = some b ∧
      s.machine.core.collect.2.memory.heap.block? a = some b' ∧
      (s.machine.core.Live a ∨ b.node = none → b'.rows = b.rows) ∧
      (s.machine.core.memory.integrityCheck = .ok () → ¬ s.machine.core.Live a → b.node ≠ none → b'.rows = #[]) := by
  have hcustody := h.stocked.custody
  rw [List.append_nil] at hcustody
  exact hcustody.collect_held (List.mem_append_right _ hv) ha

end FreeRun
end

/-! ### Arguments of a native -/

def Heap.allTracked (h : Heap) : Bool := h.blocks.all fun b? => b?.all (·.node.isSome)

theorem Core.orderly_of_allTracked {c : Core} (h : c.memory.heap.allTracked = true) : c.Orderly := by
  intro a b _ hb
  exact Array.all_eq_true_iff_forall_mem.1 h _ (Array.mem_of_getElem? (Option.join_eq_some_iff.1 hb))

/-- Whether a transition needs nothing of the host and leaves all data tracked. -/
def State.orderly (s s' : State δ ν ρ) : Bool :=
  !s.acts && s.arguments.isEmpty && s.returned.isEmpty && s'.machine.core.memory.heap.allTracked

theorem FreeRun.next {env : Environment δ ν} {s s' : State δ ν ρ} {pool : List Value} (h : FreeRun env s pool)
    (hs : s.next? env State.orderly = some s') : FreeRun env s' (s.delivered ++ s.entrusted env ++ pool) := by
  obtain ⟨hstep, hallowed⟩ := State.next?_eq_some.1 hs
  simp only [State.orderly, Bool.and_eq_true, Bool.not_eq_true', List.isEmpty_iff] at hallowed
  obtain ⟨⟨⟨hacts, harguments⟩, hreturned⟩, htracked⟩ := hallowed
  exact h.step (by rw [hreturned, List.nil_append]) hacts (by simp [harguments]) hstep
    (Core.orderly_of_allTracked htracked)

def Native.sweep : Native Unit Unit where
  name := "sweep"
  arity := .fixed 2
  body := fun _ => .act fun m => (.finish (.ok none), m.modifyCore fun c => c.collect.2)

def Environment.sweeping : Environment Unit Unit := { Environment.bare with natives := #[Native.sweep] }

/-- Makes two arrays and calls the native with them. The first one is also in global 0. -/
def lender : Section :=
  { code := (List.flatMap Instruction.encode [⟨.ldiS32, (0, ())⟩, ⟨.ldiS32, (0, ())⟩, ⟨.ldiS32, (5, ())⟩,
      ⟨.stga, (0, ())⟩, ⟨.ldg, (0, ())⟩, ⟨.ldiS32, (0, ())⟩, ⟨.ldiS32, (0, ())⟩, ⟨.ldiS32, (7, ())⟩, ⟨.stga, (1, ())⟩,
      ⟨.ldg, (1, ())⟩, ⟨.ldiUndef, ()⟩, ⟨.stg, (1, ())⟩, ⟨.nat, (0, 2, ())⟩]).toArray }

def loadLender (m : Machine Unit Unit) : Machine Unit Unit :=
  { m with core := { m.core with sections := (m.core.sections.add lender).2 } }

def lending? : Option (State Unit Unit Unit) :=
  State.stretch .sweeping 26 ⟨loadLender (.new {} {}), .host runKnots, []⟩

def lent : State Unit Unit Unit := (lending?.bind (State.next? .sweeping State.orderly)).getD ⟨.new {} {}, .dispatch, []⟩

def twoArrays : Memory :=
  { heap := ⟨#[some { rows := #[#[.int 5]], node := some ⟨0, 0⟩, holders := 2 },
      some { rows := #[#[.int 7]], node := some ⟨1, 0⟩ }]⟩
    collector := some
      { slots := #[.occupied 0 { roots := 1, payload := .array 0 }, .occupied 0 { payload := .array 1 }]
        live := 2
        stats := { constructed := 2 } } }

set_option maxRecDepth 8000 in
theorem summary_lent : (lending?.bind fun s => (s.next? .sweeping State.orderly).map fun s' => (s.delivered ++ s.entrusted .sweeping,
      s'.machine.core.memory, s'.machine.core.executor.stack.toList ++ s'.machine.core.world.slots)) =
    some ([.array { target := some 0 }, .array { target := some 1 }], twoArrays,
      [.int 0, .array { target := some 0, rooted := true }, .undefined]) := by cbv

theorem run_lent : FreeRun .sweeping lent [.array { target := some 0 }, .array { target := some 1 }] ∧
    lent.machine.core.memory = twoArrays ∧ lent.machine.core.executor.stack.toList ++ lent.machine.core.world.slots =
      [.int 0, .array { target := some 0, rooted := true }, .undefined] := by
  obtain ⟨s, hs, hsummary⟩ := Option.bind_eq_some_iff.1 summary_lent
  obtain ⟨s', hs', hsummary⟩ := Option.map_eq_some_iff.1 hsummary
  obtain ⟨hgiven, hmemory, hseen⟩ : _ ∧ _ ∧ _ := by simpa only [Prod.mk.injEq] using hsummary
  have hlent : lent = s' := by rw [lent, hs, Option.bind_some, hs', Option.getD_some]
  have hloaded : Run .sweeping ⟨loadLender (.new {} {}), .host runKnots, []⟩ [] :=
    .act (.start {} (.act fun m => (runKnots, loadLender m)) rfl) (.single (.adjust _ _ _ rfl rfl rfl))
  have hrun := (hloaded.stretch hs).free.next hs'
  rw [List.append_nil, hgiven] at hrun
  rw [hlent]
  exact ⟨hrun, hmemory, hseen⟩

theorem live_lent (a : Address) : lent.machine.core.Live a ↔ a = 0 := by
  obtain ⟨-, hmemory, hseen⟩ := run_lent
  unfold Core.Live
  rw [hmemory, hseen]
  constructor
  · intro hr
    induction hr with
    | value hv ha =>
      simp only [List.mem_cons, List.not_mem_nil, or_false] at hv
      rcases hv with rfl | rfl | rfl
      · cases ha
      · exact (Option.some.inj ha).symm
      · cases ha
    | cell _ hb hv ha ih =>
      subst ih
      obtain rfl := Option.some.inj hb
      rw [List.mem_singleton.1 hv] at ha
      cases ha
  · rintro rfl
    exact .value (List.mem_cons_of_mem _ List.mem_cons_self) rfl

/-- The pass of the native leaves the array that is in a global as well, and empties the other one. -/
theorem collect_spares_reached_lent :
    FreeRun .sweeping lent [.array { target := some 0 }, .array { target := some 1 }] ∧
      lent.machine.core.memory.integrityCheck = .ok () ∧
      (∃ b', lent.machine.core.collect.2.memory.heap.block? 0 = some b' ∧ b'.rows = #[#[.int 5]]) ∧
      ∃ b', lent.machine.core.collect.2.memory.heap.block? 1 = some b' ∧ b'.rows = #[] := by
  obtain ⟨hrun, hmemory, -⟩ := run_lent
  have hok : lent.machine.core.memory.integrityCheck = .ok () := by
    rw [hmemory]
    cbv
  refine ⟨hrun, hok, ?_, ?_⟩
  · obtain ⟨b, b', hb, hb', hkept, -⟩ := hrun.collect_spares_reached
      (List.mem_append_left _ List.mem_cons_self) (rfl : _ = some 0)
    rw [hmemory] at hb
    obtain rfl := Option.some.inj hb
    exact ⟨b', hb', hkept (Or.inl ((live_lent 0).2 rfl))⟩
  · obtain ⟨b, b', hb, hb', -, hemptied⟩ := hrun.collect_spares_reached
      (List.mem_append_left _ (List.mem_cons_of_mem _ List.mem_cons_self)) (rfl : _ = some 1)
    rw [hmemory] at hb
    obtain rfl := Option.some.inj hb
    refine ⟨b', hb', hemptied hok (fun hlive => ?_) (by simp)⟩
    cases (live_lent 1).1 hlive

/-! ### A built-in variable -/

open Exec in
theorem Exec.effect_stt {c : Core} {var : VariableId} {stack : Array Value} {v : Value} {id : InstanceId} {i : Instance}
    (hstack : c.executor.stack = stack.push v) (hself : c.executor.self = some id)
    (hi : c.world.instance? id = some i) (hadmits : c.world.admitsBuiltin i var = true) :
    Instruction.effect ⟨.stt, (var, ())⟩ c = .ok () { c with
      executor := { c.executor with stack := stack }
      world := c.world.modifyInstance i.id fun i => { i with builtins := i.builtins.set var v.share }
      memory := ((c.memory.retain v).release [i.builtins.get var]).release [v] } := by
  have hpop : pop c = .ok v { c with executor := { c.executor with stack := stack } } := by
    simp [pop, onExecutor, Executor.pop, hstack]
  have howner : ({ c with executor := { c.executor with stack := stack } } : Core).owner OwnerId.self = .single id := by
    simp [Core.owner, hself]
  change (pop >>= fun v => get >>= fun c => storeBuiltin (c.owner OwnerId.self) var none v : Exec Unit) c = _
  simp only [bind, EStateM.bind, hpop, get, getThe, MonadStateOf.get, EStateM.get, howner]
  simp [storeBuiltin, storeEach, thenDrop, storeTarget, share, onWorld, ofExcept, World.setBuiltin, hi, hadmits,
    Memory.share, bind, EStateM.bind, get, getThe, MonadStateOf.get, EStateM.get, pure, EStateM.pure, modifyGet,
    EStateM.modifyGet, MonadStateOf.modifyGet]

theorem Exec.step_stt (natives : UInt32 → Option Signature) {c c' : Core} {var : VariableId} {pc : Cursor}
    (hread : Cursor.readInstruction c.executor.pc = .ok ⟨.stt, (var, ())⟩ pc)
    (heffect : Instruction.effect ⟨.stt, (var, ())⟩ { c with executor := { c.executor with pc } } = .ok () c') :
    Exec.step natives c = .ok .next c' := by
  have hscan : Exec.scan Cursor.readInstruction c =
      .ok ⟨.stt, (var, ())⟩ { c with executor := { c.executor with pc } } := by
    rw [Exec.scan, hread]
  rw [Exec.step_eq]
  simp only [bind, EStateM.bind, hscan]
  change (Instruction.effect ⟨.stt, (var, ())⟩ >>= fun _ => pure Flow.next : Exec Flow) _ = _
  simp only [bind, EStateM.bind, heffect]
  rfl

/-- Makes an array and leaves it to built-in variable 7 of the current instance. -/
def shelver : Section :=
  { code := (List.flatMap Instruction.encode [⟨.ldiS32, (0, ())⟩, ⟨.ldiS32, (0, ())⟩, ⟨.ldiS32, (5, ())⟩,
      ⟨.stga, (0, ())⟩, ⟨.ldg, (0, ())⟩, ⟨.ldiUndef, ()⟩, ⟨.stg, (0, ())⟩, ⟨.stt, (7, ())⟩]).toArray }

def loadShelver (m : Machine Unit Unit) : Machine Unit Unit :=
  let created := { m.core with
    world := (m.core.world.create m.core.memory 0).2.1
    memory := (m.core.world.create m.core.memory 0).2.2 }
  let declared := { created with
    world := (created.world.defineBuiltin created.memory 100000 7 .undefined).1
    memory := (created.world.defineBuiltin created.memory 100000 7 .undefined).2 }
  { m with core := { declared with
      executor := { declared.executor with self := some 100000 }
      sections := (declared.sections.add shelver).2 } }

def shelving? : Option (State Unit Unit Unit) :=
  State.stretch .bare 16 ⟨loadShelver (.new {} {}), .host runKnots, []⟩

def shelved : State Unit Unit Unit :=
  match shelving?.map (State.step .bare) with
  | some (.inl s) => s
  | _ => ⟨.new {} {}, .dispatch, []⟩

def oneArray : Memory :=
  { heap := ⟨#[some { rows := #[#[.int 5]], node := some ⟨0, 0⟩ }]⟩
    collector := some { slots := #[.occupied 0 { payload := .array 0 }], live := 1, stats := { constructed := 1 } } }

def owning (v : Value) : Instance := { id := 100000, object := 0, builtins := { entries := [(7, v)] } }

set_option maxRecDepth 8000 in
theorem summary_shelving : (shelving?.map fun s => (s.focus,
      match Cursor.readInstruction s.machine.core.executor.pc with
      | .ok i _ => some i
      | .error _ _ => none,
      s.machine.core.executor.stack, s.machine.core.executor.self, s.machine.core.world.instances,
      s.machine.core.memory)) =
    some (.dispatch, some ⟨.stt, (7, ())⟩, #[.int 0, .array { target := some 0 }], some 100000, [owning .undefined],
      oneArray) := by cbv

theorem step_shelving {m : Machine Unit Unit} {waiting : List (Waiting Unit Unit Unit)}
    (hs : shelving? = some ⟨m, .dispatch, waiting⟩) (hrun : Run .bare ⟨m, .dispatch, waiting⟩ []) :
    ∃ c, Exec.step Environment.bare.signature? m.core = .ok .next c ∧ c.memory = oneArray ∧
      c.executor.stack = #[.int 0] ∧ c.world.instances = [owning (.array { target := some 0 })] := by
  have hsummary := summary_shelving
  rw [hs] at hsummary
  simp only [Option.map_some, Option.some.injEq, Prod.mk.injEq, true_and] at hsummary
  obtain ⟨hread, hstack, hself, hinstances, hmemory⟩ := hsummary
  obtain ⟨pc, hpc⟩ : ∃ pc, Cursor.readInstruction m.core.executor.pc = .ok ⟨.stt, (7, ())⟩ pc := by
    cases hcursor : Cursor.readInstruction m.core.executor.pc with
    | ok i pc =>
      rw [hcursor] at hread
      exact ⟨pc, by rw [Option.some.inj hread]⟩
    | error e pc =>
      rw [hcursor] at hread
      cases hread
  have hfound : m.core.world.instance? 100000 = some (owning .undefined) := by
    rw [World.instance?, hinstances]
    rfl
  have hadmits : m.core.world.admitsBuiltin (owning .undefined) 7 = true := by
    rw [World.admitsBuiltin, hrun.sound.world.anchoring]
    rfl
  have hpushed : m.core.executor.stack = #[.int 0].push (.array { target := some 0 }) := hstack
  refine ⟨_, Exec.step_stt _ hpc (Exec.effect_stt hpushed hself hfound hadmits), ?_, rfl, ?_⟩
  · dsimp only
    rw [hmemory]
    cbv
  · dsimp only [World.modifyInstance]
    rw [hinstances]
    rfl

theorem run_shelved : FreeRun .bare shelved [] ∧ shelved.machine.core.memory = oneArray ∧
    shelved.machine.core.executor.stack = #[.int 0] ∧
    shelved.machine.core.world.instances = [owning (.array { target := some 0 })] := by
  obtain ⟨⟨m, focus, waiting⟩, hs, hsummary⟩ := Option.map_eq_some_iff.1 summary_shelving
  obtain rfl : focus = .dispatch := (Prod.mk.inj hsummary).1
  have hloaded : Run .bare ⟨loadShelver (.new {} {}), .host runKnots, []⟩ [] := by
    refine .act (.start {} (.act fun m => (runKnots, loadShelver m)) rfl) ?_
    exact .head (.create _ _ 0 rfl) (.head (.declare _ _ 100000 7 .undefined rfl) (.single (.adjust _ _ _ rfl rfl rfl)))
  have hrun : Run .bare ⟨m, .dispatch, waiting⟩ [] := hloaded.stretch hs
  obtain ⟨c, hexec, hmemory, hstack, hinstances⟩ := step_shelving hs hrun
  have hstep : State.step .bare ⟨m, .dispatch, waiting⟩ = .inl ⟨{ m with core := c }, .tick, waiting⟩ := by
    simp only [State.step, State.dispatch, Machine.exec, hexec]
  have hshelved : shelved = ⟨{ m with core := c }, .tick, waiting⟩ := by
    rw [shelved, hs, Option.map_some, hstep]
  have hentrusted : State.entrusted .bare ⟨m, .dispatch, waiting⟩ = [] := by
    change m.core.entrusts Environment.bare.signature? = []
    rw [Core.entrusts, hexec]
    rfl
  have horderly : c.Orderly := Core.orderly_of_allTracked (by rw [hmemory]; cbv)
  have hfree : FreeRun .bare ⟨{ m with core := c }, .tick, waiting⟩ _ :=
    hrun.free.step (List.Perm.refl []) rfl (by simp [State.arguments]) hstep horderly
  rw [hentrusted] at hfree
  rw [hshelved]
  exact ⟨hfree, hmemory, hstack, hinstances⟩

/-- An array that only a built-in variable holds is emptied by a pass. -/
theorem collect_empties_shelved :
    FreeRun .bare shelved [] ∧ shelved.machine.core.world.instances = [owning (.array { target := some 0 })] ∧
      (∃ b, shelved.machine.core.memory.heap.block? 0 = some b ∧ b.rows = #[#[.int 5]]) ∧
      ∃ b', shelved.machine.core.collect.2.memory.heap.block? 0 = some b' ∧ b'.rows = #[] := by
  obtain ⟨hrun, hmemory, hstack, hinstances⟩ := run_shelved
  refine ⟨hrun, hinstances, ⟨{ rows := #[#[.int 5]], node := some ⟨0, 0⟩ }, ?_, rfl⟩, ⟨{}, ?_, rfl⟩⟩
  · rw [hmemory]
    rfl
  · simp only [Core.collect, hmemory, hstack]
    cbv

end ScriptVm
