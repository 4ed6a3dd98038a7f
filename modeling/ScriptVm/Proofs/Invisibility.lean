import Mathlib
import ScriptVm.Proofs.Likeness
import ScriptVm.Session.Natives

/-! Programs cannot see the collector's bookkeeping. Two machines that differ in it alone go through the
same transitions, side by side, and stay so; a machine that starts with a collector and one that starts
without come to the same results and leave the same state. -/

namespace ScriptVm
open Eraser (bookkeeping)
variable {δ ν ρ : Type}

/-! ### States of control -/

/-- Two verdicts that differ in flags of handles alone, and in results of the host as `r` says. -/
inductive Verdict.Alike (r : ρ → ρ → Prop) : Verdict δ ρ → Verdict δ ρ → Prop where
  | host {a b : ρ} : r a b → Alike r (.host a) (.host b)
  | native {vs vs' : List Value} {x x' : Except Fault (Option Value)} : vs.map Value.share = vs'.map Value.share →
      Native.Agrees x x' → Alike r (.native vs x) (.native vs' x')
  | tick (d : Attached δ) (result : Except Fault Unit) : Alike r (.tick d result) (.tick d result)
  | pause (d : Attached δ) (failure : Failure) : Alike r (.pause d failure) (.pause d failure)

def Task.Follows (r : ρ → ρ → Prop) (next next' : Except Failure Execution → Task δ ν ρ) : Prop :=
  ∀ o o', Execution.Agrees o o' → HostCode.Alike (Verdict.Alike r) (next o) (next' o')

inductive Focus.Alike (r : ρ → ρ → Prop) : Focus δ ν ρ → Focus δ ν ρ → Prop where
  | tick : Alike r .tick .tick
  | dispatch : Alike r .dispatch .dispatch
  | fail (f : Fault) : Alike r (.fail f) (.fail f)
  | leave (result : Except Failure Bool) : Alike r (.leave result) (.leave result)
  | host {task task' : Task δ ν ρ} : HostCode.Alike (Verdict.Alike r) task task' → Alike r (.host task) (.host task')

inductive Waiting.Alike (r : ρ → ρ → Prop) : Waiting δ ν ρ → Waiting δ ν ρ → Prop where
  | instruction : Alike r .instruction .instruction
  | caller (results : UInt8) {next next' : Except Failure Execution → Task δ ν ρ} : Task.Follows r next next' →
      Alike r (.caller results next) (.caller results next')
  | executor {next next' : Except Failure Execution → Task δ ν ρ} : Task.Follows r next next' →
      Alike r (.executor next) (.executor next')

structure State.Alike (r : ρ → ρ → Prop) (s s' : State δ ν ρ) : Prop where
  machine : s.machine.Agrees s'.machine
  focus : Focus.Alike r s.focus s'.focus
  waiting : List.Forall₂ (Waiting.Alike r) s.waiting s'.waiting

/-- The results are related, and the machines differ in the bookkeeping alone. -/
def State.SameEnd (r : ρ → ρ → Prop) (a b : ρ × Machine δ ν) : Prop := r a.1 b.1 ∧ a.2.Agrees b.2

/-! ### Calls -/

namespace Machine.Agrees
variable {m m' : Machine δ ν}

theorem openRun (hm : m.Agrees m') : m.openRun.Agrees m'.openRun :=
  hm.modifyCore (k := fun c => { c with runs := c.runs + 1 }) (fun _ => rfl) fun _ => rfl

theorem closeRun (hm : m.Agrees m') : m.closeRun.Agrees m'.closeRun :=
  hm.modifyCore (k := fun c => { c with runs := c.runs - 1 }) (fun _ => rfl) fun _ => rfl

theorem setSuspended (hm : m.Agrees m') (results : Option UInt8) :
    Machine.Agrees { m with suspended := results } { m' with suspended := results } :=
  hm.map (fun m => { m with suspended := results }) fun _ => rfl

theorem abandon (hm : m.Agrees m') : m.abandon.Agrees m'.abandon := by
  have hruns : m.core.runs = m'.core.runs := hm.congr (·.core.runs) fun _ => rfl
  unfold Machine.abandon
  rw [hruns]
  split_ifs
  · exact (hm.modifyCore bookkeeping.core_reset bookkeeping.core_reset).setSuspended none
  · exact hm

theorem complete (hm : m.Agrees m') (results : UInt8) (result : Except Failure Bool) :
    Execution.Agrees (m.complete results result).1 (m'.complete results result).1 ∧
      (m.complete results result).2.Agrees (m'.complete results result).2 := by
  unfold Machine.complete
  rcases result with failure | _ | _
  · exact ⟨rfl, hm.abandon⟩
  · rcases hm.exec_cases (Eraser.erases_popMany results.toNat) (Eraser.erases_popMany results.toNat) with
      ⟨vs, vs', n, n', hrun, hrun', hvalues, hn⟩ | ⟨f, n, n', hrun, hrun', hn⟩ <;> simp only [hrun, hrun']
    · exact ⟨congrArg (fun vs => Except.ok (Execution.finished vs)) hvalues, hn⟩
    · exact ⟨rfl, hn⟩
  · exact ⟨rfl, hm.setSuspended (some results)⟩

theorem prepareCall (hm : m.Agrees m') (index : UInt32) {arguments arguments' : List Value}
    (h : arguments.map Value.share = arguments'.map Value.share) :
    ∃ result n n', m.prepareCall index arguments = (result, n) ∧ m'.prepareCall index arguments' = (result, n') ∧
      n.Agrees n' := by
  have hlength : arguments.length = arguments'.length := by
    have hmapped := congrArg List.length h
    rwa [List.length_map, List.length_map] at hmapped
  have hpush : ∀ vs : List Value, bookkeeping.Erases id (do vs.forM Exec.pushShared; Exec.push (.int (.ofInt vs.length)))
      (do (vs.map Value.share).forM Exec.pushShared; Exec.push (.int (.ofInt vs.length))) := fun vs =>
    (Eraser.Erases.forM Eraser.erases_pushShared vs).bind fun _ => Eraser.erases_push (.int (.ofInt vs.length))
  have hpush' := hpush arguments'
  rw [← h, ← hlength] at hpush'
  have hruns : m.core.runs = m'.core.runs := hm.congr (·.core.runs) fun _ => rfl
  have hsuspended : m.suspended = m'.suspended := hm.congr (·.suspended) fun _ => rfl
  have hsections : m.core.sections = m'.core.sections := hm.congr (·.core.sections) fun _ => rfl
  unfold Machine.prepareCall
  rw [hruns, hsuspended, hsections, ← hlength]
  split_ifs
  · exact ⟨_, m, m', rfl, rfl, hm⟩
  · cases m'.core.sections.get index with
    | error e => exact ⟨_, m, m', rfl, rfl, hm⟩
    | ok home =>
      dsimp only
      cases home.checkArguments arguments.length with
      | error f => exact ⟨_, m, m', rfl, rfl, hm⟩
      | ok _ => exact ⟨_, _, _, rfl, rfl, (hm.exec (hpush arguments) hpush').2⟩

end Machine.Agrees

/-! ### Transitions -/

namespace State
variable {r : ρ → ρ → Prop} {m m' : Machine δ ν} {waiting waiting' : List (Waiting δ ν ρ)} {env : Environment δ ν}

theorem alike_enter (hm : m.Agrees m') (hw : List.Forall₂ (Waiting.Alike r) waiting waiting')
    {next next' : Except Failure Execution → Task δ ν ρ} (hnext : Task.Follows r next next') {entry entry' : Entry}
    (h : entry.share = entry'.share) : Alike r (enter m waiting next entry) (enter m' waiting' next' entry') := by
  cases entry with
  | call index arguments =>
    cases entry' with
    | call index' arguments' =>
      obtain ⟨rfl, harguments⟩ := Entry.call.inj h
      obtain ⟨result, n, n', hready, hready', hn⟩ := hm.prepareCall index harguments
      simp only [enter, hready, hready']
      cases result with
      | error failure => exact ⟨hn, .host (hnext _ _ rfl), hw⟩
      | ok results =>
        rcases hn.exec_cases (Eraser.oblivious_enterSection index) (Eraser.oblivious_enterSection index) with
          ⟨_, _, o, o', hrun, hrun', -, ho⟩ | ⟨f, o, o', hrun, hrun', ho⟩ <;> simp only [hrun, hrun']
        · exact ⟨ho.openRun, .tick, .cons (.caller results hnext) hw⟩
        · rw [ho.traced f]
          have hfailed := ho.complete results (.error (o'.traced f))
          exact ⟨hfailed.2, .host (hnext _ _ hfailed.1), hw⟩
    | _ => cases h
  | execute index ready =>
    cases entry' with
    | execute index' ready' =>
      cases h
      have hstart : bookkeeping.Oblivious (if ready then pure () else Exec.push (.int 0)) :=
        Eraser.Erases.ite (Eraser.erases_pure id ()) (Eraser.erases_push (.int 0))
      have hn := (hm.exec hstart hstart).2
      rcases hn.exec_cases (Eraser.oblivious_enterSection index) (Eraser.oblivious_enterSection index) with
        ⟨_, _, o, o', hrun, hrun', -, ho⟩ | ⟨f, o, o', hrun, hrun', ho⟩ <;> simp only [enter, hrun, hrun']
      · exact ⟨ho.openRun, .tick, .cons (.executor hnext) hw⟩
      · rw [ho.traced f]
        exact ⟨ho, .host (hnext _ _ rfl), hw⟩
    | _ => cases h
  | resume =>
    cases entry' with
    | resume =>
      have hsuspended : m.suspended = m'.suspended := hm.congr (·.suspended) fun _ => rfl
      simp only [enter, hsuspended]
      cases m'.suspended with
      | none => exact ⟨hm, .host (hnext _ _ rfl), hw⟩
      | some results => exact ⟨(hm.setSuspended none).openRun, .tick, .cons (.caller results hnext) hw⟩
    | _ => cases h

theorem alike_settle (hm : m.Agrees m') (hw : List.Forall₂ (Waiting.Alike r) waiting waiting') {v v' : Verdict δ ρ}
    (h : Verdict.Alike r v v') : Sum.LiftRel (Alike r) (SameEnd r) (settle m waiting v) (settle m' waiting' v') := by
  cases h with
  | host hab => exact .inr ⟨hab, hm⟩
  | @native vs vs' x x' hvs hx =>
    have hdrop' : bookkeeping.Erases id (Exec.drop vs') (Exec.drop (vs'.map Value.share)) := Eraser.erases_drop vs'
    rw [← hvs] at hdrop'
    have hn := (hm.exec (Eraser.erases_drop vs) hdrop').2
    unfold settle
    rcases x with f | _ | v <;> rcases x' with f' | _ | v' <;> try cases hx
    · exact .inl ⟨hn, .fail f, hw⟩
    · exact .inl ⟨hn, .tick, hw⟩
    · have hpush' : bookkeeping.Erases id (Exec.push v') (Exec.push v'.share) := Eraser.erases_push v'
      rw [← (Option.some.inj (Except.ok.inj hx) : v.share = v'.share)] at hpush'
      exact .inl ⟨(hn.exec (Eraser.erases_push v) hpush').2, .tick, hw⟩
  | tick d result =>
    have hn := hm.takeBack d
    cases result with
    | error f =>
      simp only [settle, hn.traced f]
      exact .inl ⟨hn, .leave _, hw⟩
    | ok _ => exact .inl ⟨hn, .dispatch, hw⟩
  | pause d failure => exact .inl ⟨hm.takeBack d, .leave _, hw⟩

theorem alike_turn (henv : env.Indifferent) (d : Attached δ) :
    HostCode.Alike (Verdict.Alike r)
      ((env.debugging.tick d.state).bind fun (result, state) => .finish (.tick { d with state } result))
      ((env.debugging.tick d.state).bind fun (result, state) => .finish (.tick { d with state } result)) := by
  refine (henv.tick d.state).bind fun a b hab => ?_
  subst hab
  exact .finish (.tick _ _)

theorem alike_tick (henv : env.Indifferent) (hm : m.Agrees m') (hw : List.Forall₂ (Waiting.Alike r) waiting waiting') :
    Alike r (tick env m waiting) (tick env m' waiting') := by
  have hdebugger : m.debugger = m'.debugger := hm.congr (·.debugger) fun _ => rfl
  have hpc : m.core.executor.pc = m'.core.executor.pc := hm.congr (·.core.executor.pc) fun _ => rfl
  unfold tick
  rw [hdebugger, hpc]
  cases m'.debugger with
  | none => exact ⟨hm, .dispatch, hw⟩
  | some d =>
    dsimp only
    split_ifs
    · exact ⟨(hm.tell _).handOver, .host (alike_turn henv d), hw⟩
    · exact ⟨hm.handOver, .host (alike_turn henv d), hw⟩

theorem alike_invoke (henv : env.Indifferent) {n : Native δ ν} {index : UInt32} (hn : env.native? index = some n)
    {vs vs' : List Value} (h : vs.map Value.share = vs'.map Value.share) :
    HostCode.Alike Native.Agrees (n.invoke vs) (n.invoke vs') := by
  have hlength : vs.length = vs'.length := by
    have hmapped := congrArg List.length h
    rwa [List.length_map, List.length_map] at hmapped
  unfold Native.invoke
  rw [hlength]
  split_ifs
  · exact henv.natives n (Array.mem_of_getElem? hn) vs vs' h
  · exact .finish rfl

theorem alike_dispatch (henv : env.Indifferent) (hm : m.Agrees m')
    (hw : List.Forall₂ (Waiting.Alike r) waiting waiting') : Alike r (dispatch env m waiting) (dispatch env m' waiting') := by
  have herases := Eraser.erases_step Eraser.leavesBuiltins_bookkeeping env.signature?
  rcases hm.exec_cases herases herases with
    ⟨flow, flow', n, n', hrun, hrun', hflow, hn⟩ | ⟨f, n, n', hrun, hrun', hn⟩ <;> simp only [dispatch, hrun, hrun']
  · cases flow <;> cases flow' <;> simp only [Flow.map, reduceCtorEq, Flow.native.injEq] at hflow
    · exact ⟨hn, .tick, hw⟩
    · exact ⟨hn, .leave _, hw⟩
    · exact ⟨hn, .leave _, hw⟩
    · exact ⟨hn.openRun, .tick, .cons .instruction hw⟩
    · obtain ⟨rfl, hvs⟩ := hflow
      rename_i index vs vs'
      dsimp only
      cases hnative : env.native? index with
      | none => exact ⟨hn, .fail _, hw⟩
      | some native =>
        exact ⟨hn, .host ((alike_invoke henv hnative hvs).bind fun _ _ hx => .finish (.native hvs hx)), hw⟩
  · exact ⟨hn, .fail f, hw⟩

theorem alike_fail (henv : env.Indifferent) (hm : m.Agrees m') (hw : List.Forall₂ (Waiting.Alike r) waiting waiting')
    (f : Fault) : Alike r (fail env m waiting f) (fail env m' waiting' f) := by
  have hdebugger : m.debugger = m'.debugger := hm.congr (·.debugger) fun _ => rfl
  have hticking : m.ticking = m'.ticking := hm.congr (·.ticking) fun _ => rfl
  unfold fail
  rw [hdebugger, hticking, hm.traced f]
  split_ifs
  · exact ⟨hm, .fail _, hw⟩
  · exact ⟨hm, .leave _, hw⟩
  · cases m'.debugger with
    | none => exact ⟨hm, .leave _, hw⟩
    | some d =>
      refine ⟨(hm.tell _).handOver, .host ((henv.tick d.state).bind fun a b hab => ?_), hw⟩
      subst hab
      exact .finish (.pause _ _)

theorem alike_leave (hm : m.Agrees m') (hw : List.Forall₂ (Waiting.Alike r) waiting waiting')
    (result : Except Failure Bool) : Alike r (leave m result waiting) (leave m' result waiting') := by
  cases hw with
  | nil => exact ⟨hm, .leave _, .nil⟩
  | cons hhead hw =>
    have hn := hm.closeRun
    cases hhead with
    | instruction =>
      rcases result with failure | _ | _
      · exact ⟨hn, .leave _, hw⟩
      · exact ⟨hn, .tick, hw⟩
      · exact ⟨hn, .fail _, hw⟩
    | caller results hnext =>
      have hended := hn.complete results result
      exact ⟨hended.2, .host (hnext _ _ hended.1), hw⟩
    | executor hnext => exact ⟨hn, .host (hnext _ _ rfl), hw⟩

/-- One transition keeps two states alike. -/
theorem alike_step (henv : env.Indifferent) {s s' : State δ ν ρ} (h : Alike r s s') :
    Sum.LiftRel (Alike r) (SameEnd r) (s.step env) (s'.step env) := by
  obtain ⟨m, focus, waiting⟩ := s
  obtain ⟨m', focus', waiting'⟩ := s'
  obtain ⟨hm, hfocus, hw⟩ := h
  cases hfocus with
  | tick => exact .inl (alike_tick henv hm hw)
  | dispatch => exact .inl (alike_dispatch henv hm hw)
  | fail f => exact .inl (alike_fail henv hm hw f)
  | leave result => exact .inl (alike_leave hm hw result)
  | host htask =>
    cases htask with
    | finish hverdict => exact alike_settle hm hw hverdict
    | act hcode hstate => exact .inl ⟨hstate m m' hm, .host (hcode m m' hm), hw⟩
    | enter hentry hnext => exact .inl (alike_enter hm hw hnext hentry)

theorem Alike.isDown {s s' : State δ ν ρ} (h : Alike r s s') : s.isDown = s'.isDown := by
  obtain ⟨m, focus, waiting⟩ := s
  obtain ⟨m', focus', waiting'⟩ := s'
  cases h.focus with
  | fail f => cases f <;> rfl
  | _ => rfl

theorem alike_run (henv : env.Indifferent) (fuel : Nat) {s s' : State δ ν ρ} (h : Alike r s s') :
    Option.Rel (SameEnd r) (run env fuel s) (run env fuel s') := by
  induction fuel generalizing s s' with
  | zero => exact .none
  | succ fuel ih =>
    simp only [run, h.isDown]
    split_ifs
    · exact .none
    · have hstep := alike_step henv h
      revert hstep
      rcases s.step env with t | end₁ <;> rcases s'.step env with t' | end₂ <;> intro hstep <;> cases hstep
      · exact ih ‹_›
      · exact .some ‹_›

end State

/-! ### Machines with and without a collector -/

namespace Machine

/-- A machine with these sections, on a world whose arrays are in the heap. -/
def launch (config : Config) (world : World) (heap : Heap) (sections : SectionTable) : Machine δ ν :=
  (new config world).modifyCore fun c => { c with memory := { c.memory with heap }, sections }

theorem launch_agrees (config : Config) (world : World) (heap : Heap) (sections : SectionTable) :
    (launch { config with collecting := true } world heap sections : Machine δ ν).Agrees
      (launch { config with collecting := false } world heap sections) := rfl

theorem perform_alike {env : Environment δ ν} (henv : env.Indifferent) {r : ρ → ρ → Prop} {host host' : HostCode δ ν ρ}
    (hhost : HostCode.Alike r host host') {m m' : Machine δ ν} (hm : m.Agrees m') (fuel : Nat) :
    Option.Rel (State.SameEnd r) (m.perform env fuel host) (m'.perform env fuel host') :=
  State.alike_run henv fuel ⟨hm, .host (hhost.bind fun _ _ hab => .finish (.host hab)), .nil⟩

/-- The collector's bookkeeping is invisible. Whatever the sections, the world and its arrays, host code
that does not look at the bookkeeping, such as any calls and resumptions in turn, comes with a collector
to its end just when it does without. Its results are related: outcomes of calls are the same up to flags
of handles, failures have the same fault and trace. The machines it leaves differ in node ids and in
flags of handles alone: an array has the same address in both, with the same rows and as many holders. -/
theorem perform_with_collector_agrees (env : Environment δ ν) (henv : env.Indifferent) (config : Config) (world : World)
    (heap : Heap) (sections : SectionTable) {r : ρ → ρ → Prop} (host : HostCode δ ν ρ)
    (hhost : HostCode.Alike r host host) (fuel : Nat) :
    Option.Rel (State.SameEnd r)
      ((launch { config with collecting := true } world heap sections).perform env fuel host)
      ((launch { config with collecting := false } world heap sections).perform env fuel host) :=
  perform_alike henv hhost (launch_agrees config world heap sections) fuel

end Machine

theorem alike_array {vs vs' : List Value} (h : vs.map Value.share = vs'.map Value.share) :
    HostCode.Alike Native.Agrees (MachineSession.array vs) (MachineSession.array vs') := by
  have hbuild : ∀ vs : List Value, bookkeeping.Erases Value.share
      (do
        let cells ← vs.mapM Exec.share
        modifyGet fun c => ((c.memory.newArray #[cells.toArray]).1, { c with memory := (c.memory.newArray #[cells.toArray]).2 }))
      (do
        let cells ← (vs.map Value.share).mapM Exec.share
        modifyGet fun c => ((c.memory.newArray #[cells.toArray]).1, { c with memory := (c.memory.newArray #[cells.toArray]).2 })) := by
    intro vs
    refine (Eraser.Erases.mapM Eraser.erases_share vs).bind fun cells => Eraser.erases_modifyGet (fun c => ?_) fun _ => rfl
    have hrows : (#[(cells.map bookkeeping.value).toArray] : Rows) = Rows.share #[cells.toArray] := by
      simp [Rows.share, bookkeeping]
    have hmade := c.memory.newArray_erased #[cells.toArray]
    have hmemory : (bookkeeping.core c).memory = c.memory.erased := rfl
    rw [hrows, hmemory, hmade]
    rfl
  have hresult : ∀ v, some v.share = Option.map Value.share (some v) := fun _ => rfl
  have hcall := (hbuild vs).map hresult
  have hcall' := (hbuild vs').map hresult
  rw [← h] at hcall'
  exact HostCode.alike_exec hcall hcall'

/-- A native that makes arrays, and a debugger that does nothing. -/
def Environment.arrays : Environment MachineSession.Debugger MachineSession.Note :=
  { natives := #[⟨"array", .variadic, MachineSession.array⟩]
    debugging := { tick := fun d => .finish (.ok (), d), traces := fun _ => false, inline := fun _ => false } }

theorem Environment.indifferent_arrays : arrays.Indifferent where
  natives := by
    intro n hn vs vs' h
    obtain rfl := Array.mem_singleton.1 hn
    exact alike_array h
  tick := fun _ => .finish rfl

/-- Puts one array into two globals and writes to one of them, which parts them; returns an array of both
that the native makes, and the one that was written to. -/
def parting : Section :=
  { results := 2
    code := (List.flatMap Instruction.encode [⟨.all, (0, ())⟩, ⟨.ldiArr, ()⟩, ⟨.stg, (0, ())⟩, ⟨.ldg, (0, ())⟩,
      ⟨.stg, (1, ())⟩, ⟨.ldiS32, (0, ())⟩, ⟨.ldiS32, (0, ())⟩, ⟨.ldiS32, (7, ())⟩, ⟨.stga, (1, ())⟩, ⟨.ldg, (0, ())⟩,
      ⟨.ldg, (1, ())⟩, ⟨.ldiU64, (2, ())⟩, ⟨.nat, (0, -1, ())⟩, ⟨.ldg, (1, ())⟩, ⟨.ret, (2, ())⟩]).toArray }

/-- Two calls, and a resumption between them that fails. -/
def partTwice : HostCode MachineSession.Debugger MachineSession.Note (List (Except Failure Execution)) :=
  HostCode.runAll [.call 0 [], .resume, .call 0 []]

def Machine.parted (collecting : Bool) :
    Option (List (Except Failure Execution) × Machine MachineSession.Debugger MachineSession.Note) :=
  (launch { collecting } {} {} (SectionTable.add {} parting).2).perform .arrays 80 partTwice

set_option maxRecDepth 4000 in
theorem Machine.perform_with_collector_agrees_parting :
    Environment.arrays.Indifferent ∧ HostCode.Alike (List.Forall₂ Execution.Agrees) partTwice partTwice ∧
      ∃ a b, parted true = some a ∧ parted false = some b ∧ State.SameEnd (List.Forall₂ Execution.Agrees) a b ∧
        a.2.core.memory.nodeCount? = some 6 ∧ b.2.core.memory.nodeCount? = none := by
  have hsame := perform_with_collector_agrees .arrays Environment.indifferent_arrays {} {} {} (SectionTable.add {} parting).2
    partTwice (HostCode.alike_runAll _) 80
  have hwith : (parted true).bind (·.2.core.memory.nodeCount?) = some 6 := by cbv
  have hwithout : (parted false).bind (·.2.core.memory.nodeCount?) = none := by cbv
  change Option.Rel _ (parted true) (parted false) at hsame
  refine ⟨Environment.indifferent_arrays, HostCode.alike_runAll _, ?_⟩
  rcases ha : parted true with _ | a
  · rw [ha] at hwith
    cases hwith
  rcases hb : parted false with _ | b
  · rw [ha, hb] at hsame
    cases hsame
  rw [ha] at hwith
  rw [hb] at hwithout
  rw [ha, hb] at hsame
  cases hsame with
  | some hend => exact ⟨a, b, rfl, rfl, hend, hwith, hwithout⟩

end ScriptVm
