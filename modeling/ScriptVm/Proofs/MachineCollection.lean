import Mathlib
import ScriptVm.Proofs.HostMoves
import ScriptVm.Proofs.Walks

/-! Collection while a machine runs. Between any two transitions the operand stack and the variables
lead to tracked data only, the variables' arrays are roots, and nothing but them makes roots; so a pass
takes only what they do not reach, and all of it if the edges are exact. -/

namespace ScriptVm
variable {δ ν ρ α : Type}

def Core.callsNative (natives : UInt32 → Option Signature) (c : Core) : Bool :=
  match Exec.step natives c with
  | .ok (.native _ _) _ => true
  | _ => false

/-- The values that a run gives to the host. -/
def Execution.given : Except Failure Execution → List Value
  | .ok (.finished vs) => vs
  | _ => []

namespace Machine
variable {m : Machine δ ν} {pool : List Value}

theorem exec_cases {P E : Core → Prop} {Q : α → Core → Prop} {x : Exec α} (hx : Exec.Triple P x Q E)
    (hm : P m.core) : (∃ a m', m.exec x = (.ok a, m') ∧ Q a m'.core) ∨
      ∃ f m', m.exec x = (.error f, m') ∧ E m'.core := by
  have hrun := hx m.core hm
  unfold exec
  cases hxc : x m.core with
  | ok a c =>
    rw [hxc] at hrun
    exact Or.inl ⟨a, { m with core := c }, rfl, hrun⟩
  | error f c =>
    rw [hxc] at hrun
    exact Or.inr ⟨f, { m with core := c }, rfl, hrun⟩

theorem core_exec {P : Core → Prop} {x : Exec α} (hx : Exec.Triple P x (fun _ => P) P) (hm : P m.core) :
    P (m.exec x).2.core := by
  rcases exec_cases hx hm with ⟨a, m', hrun, hm'⟩ | ⟨f, m', hrun, hm'⟩ <;> rw [hrun] <;> exact hm'

theorem sound_exec {x : Exec α} (hx : Exec.Safe x) (hm : m.core.Sound True [] pool) :
    (m.exec x).2.core.Sound True [] pool :=
  core_exec (P := (·.Sound True [] pool)) (hx True [] pool) hm

theorem sound_openRun (hm : m.core.Sound True [] pool) : m.openRun.core.Sound True [] pool := hm.same rfl rfl rfl

theorem sound_closeRun (hm : m.core.Sound True [] pool) : m.closeRun.core.Sound True [] pool := hm.same rfl rfl rfl

theorem sound_abandon (hm : m.core.Sound True [] pool) : m.abandon.core.Sound True [] pool := by
  unfold abandon
  split_ifs
  · exact hm.reset
  · exact hm

theorem sound_complete (hm : m.core.Sound True [] pool) (results : UInt8) (r : Except Failure Bool) :
    (m.complete results r).2.core.Sound True [] (Execution.given (m.complete results r).1 ++ pool) := by
  rcases r with failure | suspended
  · exact sound_abandon hm
  · cases suspended with
    | true => exact hm
    | false =>
      unfold complete
      rcases exec_cases (Exec.moves_popMany results.toNat True [] pool) hm with
        ⟨vs, m', hrun, hsound⟩ | ⟨f, m', hrun, hsound⟩
      · rw [hrun]
        rw [List.append_nil] at hsound
        exact hsound.handOver
      · rw [hrun]
        exact hsound

theorem sound_prepareCall (hm : m.core.Sound True [] pool) (index : UInt32) {arguments : List Value}
    (harguments : ∀ v ∈ arguments, m.core.Offers v) :
    (m.prepareCall index arguments).2.core.Sound True [] pool := by
  unfold prepareCall
  split_ifs
  · exact hm
  · split
    · exact hm
    · split
      · exact hm
      · have hpush := Exec.Triple.bind (Exec.triple_pushShared arguments [] pool) fun _ =>
          Exec.safe_push (v := .int (.ofInt arguments.length)) rfl rfl True [] pool
        rcases exec_cases hpush ⟨hm, fun v hv => (harguments v hv).offersIf⟩ with
            ⟨u, m', hrun, hsound⟩ | ⟨f, m', hrun, hsound⟩ <;>
          rw [hrun] <;> exact hsound

end Machine

namespace State
variable {env : Environment δ ν} {m : Machine δ ν} {waiting : List (Waiting δ ν ρ)} {pool : List Value}

/-! ### Transitions that move no values -/

theorem core_tick : (tick (ρ := ρ) env m waiting).machine.core = m.core := by
  unfold tick
  cases m.debugger with
  | none => rfl
  | some d =>
    dsimp only
    split_ifs <;> rfl

theorem core_fail (f : Fault) : (fail (ρ := ρ) env m waiting f).machine.core = m.core := by
  unfold fail
  split_ifs
  · rfl
  · rfl
  · dsimp only
    cases m.debugger <;> rfl

theorem core_takeBack (d : Attached δ) : (m.takeBack d).core = m.core := by
  unfold Machine.takeBack
  dsimp only
  split_ifs <;> rfl

/-! ### Transitions that move values -/

def delivered : State δ ν ρ → List Value
  | ⟨m, .leave result, .caller results _ :: _⟩ => Execution.given (m.closeRun.complete results result).1
  | _ => []

def arguments : State δ ν ρ → List Value
  | ⟨_, .host (.enter (.call _ arguments) _), _⟩ => arguments
  | _ => []

def acts : State δ ν ρ → Bool
  | ⟨_, .host (.act _), _⟩ => true
  | _ => false

def inNative (env : Environment δ ν) : State δ ν ρ → Bool
  | ⟨m, .dispatch, _⟩ => m.core.callsNative env.signature?
  | ⟨_, .host (.finish (.native _ _)), _⟩ => true
  | _ => false

/-- Whether a debugger's turn may begin or end, and nothing else happens. -/
def sparesCore : State δ ν ρ → Bool
  | ⟨_, .tick, _⟩ | ⟨_, .fail _, _⟩ | ⟨_, .host (.finish (.tick _ _)), _⟩ | ⟨_, .host (.finish (.pause _ _)), _⟩ => true
  | _ => false

theorem delivered_of_sparesCore {s : State δ ν ρ} (h : s.sparesCore = true) : s.delivered = [] := by
  obtain ⟨m, focus, waiting⟩ := s
  cases focus with
  | leave result => cases h
  | _ => rfl

/-- A transition that is not up to host code, by what it does with the core. -/
inductive CoreStep (env : Environment δ ν) : State δ ν ρ → State δ ν ρ → Prop where
  | spares {s s' : State δ ν ρ} : s.sparesCore = true → s'.machine.core = s.machine.core → CoreStep env s s'
  | dispatch (m : Machine δ ν) (waiting : List (Waiting δ ν ρ)) :
      CoreStep env ⟨m, .dispatch, waiting⟩ (dispatch env m waiting)
  | leave (m : Machine δ ν) (result : Except Failure Bool) (waiting : List (Waiting δ ν ρ)) :
      CoreStep env ⟨m, .leave result, waiting⟩ (leave m result waiting)
  | enter (m : Machine δ ν) (entry : Entry) (next : Except Failure Execution → Task δ ν ρ)
      (waiting : List (Waiting δ ν ρ)) :
      CoreStep env ⟨m, .host (.enter entry next), waiting⟩ (enter m waiting next entry)
  /-- A native comes to its end. -/
  | native {m : Machine δ ν} {waiting : List (Waiting δ ν ρ)} {arguments : List Value}
      {result : Except Fault (Option Value)} {s' : State δ ν ρ} :
      settle m waiting (.native arguments result) = .inl s' →
      CoreStep env ⟨m, .host (.finish (.native arguments result)), waiting⟩ s'

theorem coreStep_of_step {s s' : State δ ν ρ} (hacts : s.acts = false) (h : s.step env = .inl s') :
    s.CoreStep env s' := by
  obtain ⟨m, focus, waiting⟩ := s
  cases focus with
  | tick =>
    cases h
    exact .spares rfl core_tick
  | dispatch =>
    cases h
    exact .dispatch m waiting
  | fail f =>
    cases h
    exact .spares rfl (core_fail f)
  | leave result =>
    cases h
    exact .leave m result waiting
  | host task =>
    cases task with
    | act f => cases hacts
    | enter entry next =>
      cases h
      exact .enter m entry next waiting
    | finish verdict =>
      cases verdict with
      | host result => cases h
      | native arguments result => exact .native h
      | tick d result => cases result <;> cases h <;> exact .spares rfl (core_takeBack d)
      | pause d failure =>
        cases h
        exact .spares rfl (core_takeBack d)

theorem core_enter {P : Core → Prop} (hopen : ∀ {m : Machine δ ν}, P m.core → P m.openRun.core)
    (habandon : ∀ {m : Machine δ ν}, P m.core → P m.abandon.core)
    (hsection : ∀ (index : UInt32) {m : Machine δ ν}, P m.core → P (m.exec (Exec.enterSection index)).2.core)
    (hpush : ∀ {m : Machine δ ν}, P m.core → P (m.exec (Exec.push (.int 0))).2.core) (hm : P m.core)
    (next : Except Failure Execution → Task δ ν ρ) (entry : Entry)
    (hprepare : ∀ index arguments, entry = .call index arguments → P (m.prepareCall index arguments).2.core) :
    P (enter m waiting next entry).machine.core := by
  cases entry with
  | call index arguments =>
    have hprepared := hprepare index arguments rfl
    unfold enter
    dsimp only
    rcases hprep : m.prepareCall index arguments with ⟨failure | results, m₁⟩ <;>
      rw [hprep] at hprepared <;> dsimp only at hprepared ⊢
    · exact hprepared
    · have hentered := hsection index hprepared
      rcases hrun : m₁.exec (Exec.enterSection index) with ⟨f | u, m₂⟩ <;> rw [hrun] at hentered
      · exact habandon hentered
      · exact hopen hentered
  | execute index ready =>
    have hready : P (m.exec (if ready then pure () else Exec.push (.int 0))).2.core := by
      split_ifs
      · exact hm
      · exact hpush hm
    have hentered := hsection index hready
    unfold enter
    dsimp only
    rcases hrun : (m.exec (if ready then pure () else Exec.push (.int 0))).2.exec (Exec.enterSection index) with
      ⟨f | u, m₂⟩ <;> rw [hrun] at hentered
    · exact hentered
    · exact hopen hentered
  | resume =>
    unfold enter
    dsimp only
    cases m.suspended with
    | none => exact hm
    | some results => exact hopen (m := { m with suspended := none }) hm

theorem checked_dispatch (hm : m.core.Sound True [] pool) (hnative : m.core.callsNative env.signature? = false) :
    Exec.Checked True [] pool (dispatch env m waiting).machine.core := by
  have hrun := Exec.checked_step env.signature? [] pool m.core hm
  unfold Core.callsNative at hnative
  unfold dispatch Machine.exec
  cases hstep : Exec.step env.signature? m.core with
  | error f c =>
    rw [hstep] at hrun
    exact hrun
  | ok flow c =>
    rw [hstep] at hrun hnative
    cases flow with
    | native index arguments => cases hnative
    | next => exact hrun
    | returned => exact hrun
    | suspended => exact hrun
    | entered => exact hrun.imp (fun hc => hc.same rfl rfl rfl) fun hc => hc

theorem sound_leave (hm : m.core.Sound True [] pool) (result : Except Failure Bool) :
    (leave m result waiting).machine.core.Sound True []
      (delivered ⟨m, .leave result, waiting⟩ ++ pool) := by
  cases waiting with
  | nil => exact hm
  | cons w waiting =>
    cases w with
    | instruction =>
      rcases result with failure | suspended
      · exact Machine.sound_closeRun hm
      · cases suspended <;> exact Machine.sound_closeRun hm
    | caller results next => exact Machine.sound_complete (Machine.sound_closeRun hm) results result
    | executor next => exact Machine.sound_closeRun hm

theorem sound_enter (hm : m.core.Sound True [] pool) (next : Except Failure Execution → Task δ ν ρ) (entry : Entry)
    (harguments : ∀ v ∈ arguments (ρ := ρ) ⟨m, .host (.enter entry next), waiting⟩, m.core.Offers v) :
    (enter m waiting next entry).machine.core.Sound True [] pool := by
  refine core_enter (P := (·.Sound True [] pool)) Machine.sound_openRun Machine.sound_abandon
    (fun index _ hm => Machine.sound_exec (Exec.safe_enterSection index) hm)
    (Machine.sound_exec (Exec.safe_push rfl rfl)) hm next entry ?_
  rintro index values rfl
  exact Machine.sound_prepareCall hm index harguments

/-- A transition keeps the state sound, unless it puts an array into a built-in variable. -/
theorem checked_transition {s s' : State δ ν ρ} (hs : s.machine.core.Sound True [] pool) (hacts : s.acts = false)
    (hnative : s.inNative env = false) (harguments : ∀ v ∈ s.arguments, s.machine.core.Offers v)
    (hstep : s.step env = .inl s') : Exec.Checked True [] (s.delivered ++ pool) s'.machine.core := by
  cases coreStep_of_step hacts hstep with
  | spares hspares hcore =>
    rw [hcore, delivered_of_sparesCore hspares]
    exact Or.inl hs
  | dispatch m waiting => exact checked_dispatch hs hnative
  | leave m result waiting => exact Or.inl (sound_leave hs result)
  | enter m entry next waiting => exact Or.inl (sound_enter hs next entry harguments)
  | native hsettled => cases hnative

end State

/-! ### Runs -/

/-- The states of a machine with a collector and the pools of its host. The host may be any code; what
it does on its own are moves. No native is called, arguments are tracked with all that they reach, and
no array gets into a built-in variable. -/
inductive Run (env : Environment δ ν) : State δ ν ρ → List Value → Prop where
  | start (config : Config) (code : Task δ ν ρ) : config.collecting = true →
      Run env ⟨.new config {}, .host code, []⟩ []
  | step {s s' : State δ ν ρ} {pool : List Value} : Run env s pool → s.acts = false → s.inNative env = false →
      (∀ v ∈ s.arguments, s.machine.core.Offers v) → s.step env = .inl s' →
      (∀ v ∈ s'.machine.core.world.builtinValues, v.isArray = false) → Run env s' (s.delivered ++ pool)
  | act {m : Machine δ ν} {waiting : List (Waiting δ ν ρ)} {pool pool' : List Value}
      {f : Machine δ ν → Task δ ν ρ × Machine δ ν} : Run env ⟨m, .host (.act f), waiting⟩ pool →
      Relation.ReflTransGen HostMove (m.core, pool) ((f m).2.core, pool') →
      Run env ⟨(f m).2, .host (f m).1, waiting⟩ pool'
  /-- The host comes to its end and begins anew. -/
  | again {s : State δ ν ρ} {pool : List Value} {r : ρ} {m : Machine δ ν} (code : Task δ ν ρ) : Run env s pool →
      s.step env = .inr (r, m) → Run env ⟨m, .host code, []⟩ pool

namespace Run
variable {env : Environment δ ν} {s : State δ ν ρ} {pool : List Value}

theorem sound_new {config : Config} (hcollecting : config.collecting = true) :
    (Machine.new (δ := δ) (ν := ν) config {}).core.Sound True [] [] := by
  refine ⟨?_, ⟨rfl, nofun, List.nodup_nil, nofun⟩⟩
  unfold Machine.new
  rw [if_pos hcollecting]
  exact Memory.Custody.of_hands [] (Memory.mirrors_new True False True) (List.Perm.refl _)
    (fun _ => Heap.managed_nulls _ nofun) nofun nofun

theorem finish_inr {s : State δ ν ρ} {r : ρ} {m : Machine δ ν} (h : s.step env = .inr (r, m)) :
    s.machine = m := by
  obtain ⟨m₀, focus, waiting⟩ := s
  cases focus with
  | host task =>
    cases task with
    | finish verdict =>
      cases verdict with
      | host result =>
        obtain ⟨-, rfl⟩ := Prod.mk.inj (Sum.inr.inj h)
        rfl
      | native arguments result => rcases result with f | _ | v <;> cases h
      | tick d result => cases result <;> cases h
      | pause d failure => cases h
    | act f => cases h
    | enter entry next => cases h
  | _ => cases h

theorem sound (h : Run env s pool) : s.machine.core.Sound True [] pool := by
  induction h with
  | start config code hcollecting => exact sound_new hcollecting
  | step _ hacts hnative harguments hstep hbuiltins ih =>
    rcases State.checked_transition ih hacts hnative harguments hstep with hsound | ⟨-, v, hv, harray⟩
    · exact hsound
    · rw [hbuiltins v hv] at harray
      cases harray
  | act _ hmoves ih => exact sound_hostMoves hmoves ih
  | again code _ hstep ih =>
    rw [← finish_inr hstep]
    exact ih

end Run

/-- What the operand stack, a global or a variable of an instance leads to through cells. -/
def Core.Live (c : Core) (a : Address) : Prop :=
  c.memory.heap.Reaches (c.executor.stack.toList ++ c.world.slots) a

def Core.tracks (c : Core) (id : NodeId) : Bool := c.memory.collector.any (·.contains id)

/-- A pass at any moment of a run leaves each live array its rows and a node of its own. If the edges
are exact, it takes every node that no live array has. -/
theorem Run.collect_spares_live {env : Environment δ ν} {s : State δ ν ρ} {pool : List Value} (h : Run env s pool) :
    (∀ a, s.machine.core.Live a → ∃ b b' id, s.machine.core.memory.heap.block? a = some b ∧
      s.machine.core.collect.2.memory.heap.block? a = some b' ∧ b'.rows = b.rows ∧ b'.node = some id ∧
      s.machine.core.collect.2.tracks id = true) ∧
    (s.machine.core.memory.integrityCheck = .ok () → ∀ id, s.machine.core.tracks id = true →
      (∀ a b, s.machine.core.memory.heap.block? a = some b → b.node = some id → ¬ s.machine.core.Live a) →
      s.machine.core.collect.2.tracks id = false) := by
  have hcustody := h.sound.custody
  rw [List.append_nil] at hcustody
  refine ⟨fun a ha => hcustody.survives ha, fun hok id _ hgarbage => ?_⟩
  obtain ⟨c, hm⟩ := hcustody.mirrors
  rw [Bool.eq_false_iff]
  intro htracked
  unfold Core.tracks Core.collect at htracked
  dsimp only at htracked
  rw [Memory.collect_eq hm.collector] at htracked
  obtain ⟨a, b, hb, hid, hr⟩ :=
    hcustody.reaches_of_reach hok hm ((hm.tidy.contains_collect _ id).1 htracked)
  exact hgarbage a b hb hid hr

/-! ### A run -/

/-- Whether a transition needs not to be looked into. -/
def State.unremarkable (env : Environment δ ν) (s s' : State δ ν ρ) : Bool :=
  !s.acts && !s.inNative env && s.arguments.isEmpty && s.delivered.isEmpty &&
    !s'.machine.core.world.builtinValues.any (·.isArray)

/-- The state after so many transitions, if none of them needs to be looked into. -/
def State.stretch (env : Environment δ ν) : Nat → State δ ν ρ → Option (State δ ν ρ) :=
  walk (next? env (unremarkable env))

theorem Run.stretch {env : Environment δ ν} {s s' : State δ ν ρ} {pool : List Value} (h : Run env s pool) {n : Nat}
    (hs : s.stretch env n = some s') : Run env s' pool := by
  refine walk_induction (P := (Run env · pool)) (fun t u ht hnext => ?_) h hs
  obtain ⟨hstep, hallowed⟩ := State.next?_eq_some.1 hnext
  simp only [State.unremarkable, Bool.and_eq_true, Bool.not_eq_true', List.isEmpty_iff] at hallowed
  obtain ⟨⟨⟨⟨hacts, hnative⟩, harguments⟩, hdelivered⟩, hbuiltins⟩ := hallowed
  have hrun := ht.step hacts hnative (by simp [harguments]) hstep (by simpa using hbuiltins)
  rwa [hdelivered] at hrun

/-- Ties an array into itself, gives it up, and keeps one inside another in global 1. -/
def knots : Section :=
  { code := (List.flatMap Instruction.encode [⟨.sfx, ()⟩, ⟨.ldiArr, ()⟩, ⟨.stg, (0, ())⟩, ⟨.ldiS32, (0, ())⟩,
      ⟨.ldiS32, (0, ())⟩, ⟨.ldg, (0, ())⟩, ⟨.stga, (0, ())⟩, ⟨.ldiUndef, ()⟩, ⟨.stg, (0, ())⟩, ⟨.ldiArr, ()⟩,
      ⟨.stg, (1, ())⟩, ⟨.ldiS32, (0, ())⟩, ⟨.ldiS32, (0, ())⟩, ⟨.ldiArr, ()⟩, ⟨.stga, (1, ())⟩]).toArray }

def loadKnots (m : Machine Unit Unit) : Machine Unit Unit :=
  { m with core := { m.core with sections := (m.core.sections.add knots).2 } }

def runKnots : Task Unit Unit Unit := .enter (.execute 0 false) fun _ => .finish (.host ())

def knotted : State Unit Unit Unit :=
  (State.stretch .bare 31 ⟨loadKnots (.new {} {}), .host runKnots, []⟩).getD ⟨.new {} {}, .dispatch, []⟩

def tied : Memory :=
  { heap := ⟨#[some { rows := #[#[.array { target := some 0 }]], node := some ⟨0, 0⟩ },
      some { rows := #[#[.array { target := some 2 }]], node := some ⟨1, 0⟩ },
      some { node := some ⟨2, 0⟩ }]⟩
    collector := some
      { slots := #[.occupied 0 { edges := [(⟨0, 0⟩, 1)], payload := .array 0 },
          .occupied 0 { roots := 1, edges := [(⟨2, 0⟩, 1)], payload := .array 1 },
          .occupied 0 { payload := .array 2 }]
        live := 3
        stats := { constructed := 3 } } }

set_option maxRecDepth 4000 in
theorem run_knotted : Run .bare knotted [] := by
  have hloaded : Run .bare ⟨loadKnots (.new {} {}), .host runKnots, []⟩ [] :=
    .act (.start {} (.act fun m => (runKnots, loadKnots m)) rfl) (.single (.adjust _ _ _ rfl rfl rfl))
  refine hloaded.stretch (n := 31) ?_
  have hsome : (State.stretch .bare 31 ⟨loadKnots (.new {} {}), .host runKnots, []⟩).isSome = true := by cbv
  obtain ⟨s, hs⟩ := Option.isSome_iff_exists.1 hsome
  rw [knotted, hs, Option.getD_some]

set_option maxRecDepth 4000 in
theorem memory_knotted : knotted.machine.core.memory = tied ∧
    knotted.machine.core.executor.stack.toList ++ knotted.machine.core.world.slots =
      [.int 0, .undefined, .array { target := some 1, rooted := true }] := by
  rw [← Prod.mk.injEq]
  cbv

theorem live_knotted (a : Address) : knotted.machine.core.Live a ↔ a = 1 ∨ a = 2 := by
  unfold Core.Live
  rw [memory_knotted.1, memory_knotted.2]
  have houter : Heap.Reaches tied.heap [.int 0, .undefined, .array { target := some 1, rooted := true }] 1 :=
    .value (List.mem_cons_of_mem _ (List.mem_cons_of_mem _ (List.mem_singleton_self _))) rfl
  constructor
  · intro hr
    induction hr with
    | value hv ha =>
      simp only [List.mem_cons, List.not_mem_nil, or_false] at hv
      rcases hv with rfl | rfl | rfl
      · cases ha
      · cases ha
      · exact Or.inl (Option.some.inj ha).symm
    | cell _ hb hv ha ih =>
      rcases ih with rfl | rfl
      · obtain rfl := Option.some.inj hb
        rw [List.mem_singleton.1 hv] at ha
        exact Or.inr (Option.some.inj ha).symm
      · obtain rfl := Option.some.inj hb
        cases hv
  · rintro (rfl | rfl)
    · exact houter
    · exact .cell houter rfl (List.mem_singleton_self _) rfl

/-- A pass takes the array that is tied into itself and leaves the others. -/
theorem collect_spares_live_knotted :
    Run .bare knotted [] ∧ knotted.machine.core.memory.integrityCheck = .ok () ∧
      (∃ b' id, knotted.machine.core.collect.2.memory.heap.block? 2 = some b' ∧ b'.rows = #[] ∧
        b'.node = some id ∧ knotted.machine.core.collect.2.tracks id = true) ∧
      knotted.machine.core.tracks ⟨0, 0⟩ = true ∧ knotted.machine.core.collect.2.tracks ⟨0, 0⟩ = false := by
  obtain ⟨hkept, htaken⟩ := run_knotted.collect_spares_live
  have hok : knotted.machine.core.memory.integrityCheck = .ok () := by
    rw [memory_knotted.1]
    cbv
  have htracked : knotted.machine.core.tracks ⟨0, 0⟩ = true := by
    rw [Core.tracks, memory_knotted.1]
    rfl
  refine ⟨run_knotted, hok, ?_, htracked, htaken hok ⟨0, 0⟩ htracked fun a b hb hid hlive => ?_⟩
  · obtain ⟨b, b', id, hb, hb', hrows, hid, htracks⟩ := hkept 2 ((live_knotted 2).2 (Or.inr rfl))
    rw [memory_knotted.1] at hb
    obtain rfl := Option.some.inj hb
    exact ⟨b', id, hb', hrows, hid, htracks⟩
  · rw [memory_knotted.1] at hb
    rcases (live_knotted a).1 hlive with rfl | rfl <;> obtain rfl := Option.some.inj hb <;> cases hid

end ScriptVm
