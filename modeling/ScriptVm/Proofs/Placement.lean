import ScriptVm.Proofs.Dispatch
import ScriptVm.Proofs.MachineCollection

/-! Where program counters get to. Only instructions, calls and resets move them, so a set of places that
holds the starts of all sections, and that reading and branching do not leave, holds the program counter
and all callers at every moment of every run. -/

namespace ScriptVm
variable {δ ν ρ α : Type}

/-- A set of places that reading and branching do not leave, and that resets lead to. -/
structure Enclosed (K : Cursor → Prop) : Prop where
  read : ∀ {pc next i}, K pc → Cursor.readInstruction pc = .ok i next → K next
  unread : ∀ {pc pc' e}, K pc → Cursor.readInstruction pc = .error e pc' → K pc'
  seek : ∀ {pc next pc' i target}, K pc → Cursor.readInstruction pc = .ok i next → i.target? = some target →
    Cursor.seek target next = .ok () pc' → K pc'
  rest : ∀ n, K { home := .host n }

/-- Execution stands in the set, comes back to it and can only be called into it. -/
structure Bearings.Within (K : Cursor → Prop) (b : Bearings) : Prop where
  pc : K b.pc
  callers : ∀ pc ∈ b.callers, K pc
  sections : ∀ index home, b.sections.get index = .ok home → K { home }

theorem Bearings.Within.same {K : Cursor → Prop} {b b' : Bearings} (h : b.Within K) (hpc : b'.pc = b.pc)
    (hcallers : b'.callers = b.callers) (hsections : b'.sections = b.sections) : b'.Within K :=
  ⟨by rw [hpc]; exact h.pc, by rw [hcallers]; exact h.callers, by rw [hsections]; exact h.sections⟩

theorem Bearings.Within.enter {K : Cursor → Prop} {b : Bearings} (h : b.Within K) {index : UInt32} {home : Section}
    (hhome : b.sections.get index = .ok home) :
    Within K { b with callers := b.callers.push b.pc, pc := { home } } := by
  refine ⟨h.sections index home hhome, fun pc hpc => ?_, h.sections⟩
  rcases Array.mem_push.1 hpc with hpc | rfl
  · exact h.callers pc hpc
  · exact h.pc

theorem Shift.within {K : Cursor → Prop} (hK : Enclosed K) {i : Instruction} {b b' : Bearings} {pc : Cursor}
    (h : Shift i b b') (hb : b.Within K) (hpc : K pc) (hread : Cursor.readInstruction pc = .ok i b.pc) :
    b'.Within K := by
  cases h with
  | stay => exact hb
  | rebase base _ => exact hb.same rfl rfl rfl
  | jump htarget hseek => exact ⟨hK.seek hpc hread htarget hseek, hb.callers, hb.sections⟩
  | enter _ hhome => exact hb.enter hhome
  | leave base _ hback =>
    refine ⟨hb.callers _ (Array.mem_of_back? hback), fun pc hpc => ?_, hb.sections⟩
    rw [← Array.mem_toList_iff, Array.toList_pop] at hpc
    exact hb.callers pc (Array.mem_toList_iff.1 (List.mem_of_mem_dropLast hpc))

namespace Exec

theorem within_step {K : Cursor → Prop} (hK : Enclosed K) (natives : UInt32 → Option Signature) {c : Core}
    (hc : c.bearings.Within K) :
    Ends (fun c' => c'.bearings.Within K) (fun _ c' => c'.bearings.Within K) (step natives c) := by
  cases hread : Cursor.readInstruction c.executor.pc with
  | error e pc =>
    rw [step_of_unread hread]
    exact ⟨hK.unread hc.pc hread, hc.callers, hc.sections⟩
  | ok i next =>
    rw [step_of_read hread]
    have hnext : (c.withPc next).bearings.Within K := ⟨hK.read hc.pc hread, hc.callers, hc.sections⟩
    refine (Instruction.shift_execute natives i (c.withPc next)).mono ?_ ?_
    · exact fun c' hshift => hshift.within hK hnext hc.pc hread
    · exact fun f c' hshift => hshift.1.within hK hnext hc.pc hread

end Exec

namespace Machine
variable {K : Cursor → Prop} {m : Machine δ ν}

theorem bearings_exec {p : Bearings → Fault → Prop} {x : Exec α} (hx : Exec.Steady p x) :
    (m.exec x).2.core.bearings = m.core.bearings := by
  have hrun := hx m.core
  unfold exec
  cases hxc : x m.core with
  | ok a c =>
    rw [hxc] at hrun
    exact hrun
  | error f c =>
    rw [hxc] at hrun
    exact hrun.1

theorem within_openRun (hm : m.core.bearings.Within K) : m.openRun.core.bearings.Within K := hm.same rfl rfl rfl

theorem within_closeRun (hm : m.core.bearings.Within K) : m.closeRun.core.bearings.Within K := hm.same rfl rfl rfl

theorem within_abandon (hK : Enclosed K) (hm : m.core.bearings.Within K) : m.abandon.core.bearings.Within K := by
  unfold abandon
  split_ifs
  · exact ⟨hK.rest _, nofun, hm.sections⟩
  · exact hm

theorem within_complete (hK : Enclosed K) (hm : m.core.bearings.Within K) (results : UInt8) (r : Except Failure Bool) :
    (m.complete results r).2.core.bearings.Within K := by
  rcases r with failure | _ | _
  · exact within_abandon hK hm
  · have hpop : (m.exec (Exec.popMany results.toNat)).2.core.bearings.Within K := by
      rw [bearings_exec (Exec.steady_popMany _)]
      exact hm
    unfold complete
    rcases hrun : m.exec (Exec.popMany results.toNat) with ⟨f | vs, m'⟩ <;> rw [hrun] at hpop <;> exact hpop
  · exact hm

theorem bearings_prepareCall (m : Machine δ ν) (index : UInt32) (arguments : List Value) :
    (m.prepareCall index arguments).2.core.bearings = m.core.bearings := by
  unfold prepareCall
  split_ifs
  · rfl
  · split
    · rfl
    · split
      · rfl
      · have hpush : Exec.Steady Exec.ordinarily (do
            arguments.forM Exec.pushShared
            Exec.push (.int (.ofInt arguments.length))) :=
          (Exec.Steady.forM Exec.steady_pushShared).bind fun _ => Exec.steady_push _
        exact bearings_exec hpush

theorem within_enterSection (hm : m.core.bearings.Within K) (index : UInt32) :
    (m.exec (Exec.enterSection index)).2.core.bearings.Within K := by
  have hrun := Exec.bearings_enterSection index m.core
  unfold exec
  cases hc : Exec.enterSection index m.core with
  | ok u c =>
    rw [hc] at hrun
    obtain ⟨home, hhome, hbearings⟩ := hrun
    change c.bearings.Within K
    rw [hbearings]
    exact hm.enter hhome
  | error f c =>
    rw [hc] at hrun
    change c.bearings.Within K
    rw [hrun.1]
    exact hm

end Machine

namespace State
variable {K : Cursor → Prop} {env : Environment δ ν} {m : Machine δ ν} {waiting : List (Waiting δ ν ρ)}

theorem within_dispatch (hK : Enclosed K) (hm : m.core.bearings.Within K) :
    (dispatch env m waiting).machine.core.bearings.Within K := by
  have hrun := Exec.within_step hK env.signature? hm
  unfold dispatch Machine.exec
  cases hc : Exec.step env.signature? m.core with
  | error f c =>
    rw [hc] at hrun
    exact hrun
  | ok flow c =>
    rw [hc] at hrun
    cases flow with
    | entered => exact hrun.same rfl rfl rfl
    | native index arguments =>
      dsimp only
      cases env.native? index <;> exact hrun
    | _ => exact hrun

theorem within_leave (hK : Enclosed K) (hm : m.core.bearings.Within K) (result : Except Failure Bool) :
    (leave m result waiting).machine.core.bearings.Within K := by
  have hclosed := Machine.within_closeRun hm
  rcases waiting with _ | ⟨_ | ⟨results, next⟩ | next, waiting⟩
  · exact hm
  · rcases result with failure | _ | _ <;> exact hclosed
  · exact Machine.within_complete hK hclosed results result
  · exact hclosed

theorem within_enter (hK : Enclosed K) (hm : m.core.bearings.Within K)
    (next : Except Failure Execution → Task δ ν ρ) (entry : Entry) :
    (enter m waiting next entry).machine.core.bearings.Within K := by
  refine core_enter (P := fun c => c.bearings.Within K) Machine.within_openRun (Machine.within_abandon hK)
    (fun index _ hm => Machine.within_enterSection hm index) (fun {m} hm => ?_) hm next entry fun index arguments _ => ?_
  · rw [Machine.bearings_exec (p := Exec.ordinarily) (Exec.steady_push _)]
    exact hm
  · rw [m.bearings_prepareCall index arguments]
    exact hm

theorem within_native (hm : m.core.bearings.Within K) (arguments : List Value) (result : Except Fault (Option Value))
    {s : State δ ν ρ} (h : settle m waiting (.native arguments result) = .inl s) :
    s.machine.core.bearings.Within K := by
  rcases result with f | _ | v <;> obtain rfl := Sum.inl.inj h <;> exact hm.same rfl rfl rfl

theorem within_transition (hK : Enclosed K) {s s' : State δ ν ρ} (hs : s.machine.core.bearings.Within K)
    (hacts : s.acts = false) (hstep : s.step env = .inl s') : s'.machine.core.bearings.Within K := by
  cases coreStep_of_step hacts hstep with
  | spares _ hcore =>
    rw [hcore]
    exact hs
  | dispatch m waiting => exact within_dispatch hK hs
  | leave m result waiting => exact within_leave hK hs result
  | enter m entry next waiting => exact within_enter hK hs next entry
  | @native m waiting arguments result _ hsettled => exact within_native hs arguments result hsettled

end State

/-! ### Runs -/

/-- Leaves the places in code alone, or has all calls forgotten, and loads only sections of a kind. -/
structure Machine.Spares (kind : Section → Prop) (m m' : Machine δ ν) : Prop where
  places : m'.core.executor.pc = m.core.executor.pc ∧ m'.core.executor.callers = m.core.executor.callers ∨
    ∃ n, m'.core.executor.pc = { home := .host n } ∧ m'.core.executor.callers = #[]
  sections : ∀ index home, m'.core.sections.get index = .ok home → kind home

/-- The states that a machine can get into which has only sections of a kind. The host, natives and
debuggers may be any code that spares the places in code. -/
inductive Course (kind : Section → Prop) (env : Environment δ ν) : State δ ν ρ → Prop where
  | start (config : Config) (world : World) (code : Task δ ν ρ) : Course kind env ⟨.new config world, .host code, []⟩
  | step {s s' : State δ ν ρ} : Course kind env s → s.acts = false → s.step env = .inl s' → Course kind env s'
  | act {m : Machine δ ν} {waiting : List (Waiting δ ν ρ)} {f : Machine δ ν → Task δ ν ρ × Machine δ ν} :
      Course kind env ⟨m, .host (.act f), waiting⟩ → m.Spares kind (f m).2 →
      Course kind env ⟨(f m).2, .host (f m).1, waiting⟩
  /-- The host comes to its end and begins anew. -/
  | again {s : State δ ν ρ} {r : ρ} {m : Machine δ ν} (code : Task δ ν ρ) : Course kind env s →
      s.step env = .inr (r, m) → Course kind env ⟨m, .host code, []⟩

theorem Course.within {K : Cursor → Prop} (hK : Enclosed K) {kind : Section → Prop}
    (hkind : ∀ home, kind home → K { home }) {env : Environment δ ν} {s : State δ ν ρ} (h : Course kind env s) :
    s.machine.core.bearings.Within K := by
  induction h with
  | start config world code => exact ⟨hK.rest 0, nofun, fun index home hhome => by cases hhome⟩
  | step _ hacts hstep ih => exact State.within_transition hK ih hacts hstep
  | act _ hspares ih =>
    refine ⟨?_, ?_, fun index home hhome => hkind home (hspares.sections index home hhome)⟩
    · rcases hspares.places with ⟨hpc, -⟩ | ⟨n, hpc, -⟩
      · change K (Executor.pc _)
        rw [hpc]
        exact ih.pc
      · change K (Executor.pc _)
        rw [hpc]
        exact hK.rest n
    · rcases hspares.places with ⟨-, hcallers⟩ | ⟨n, -, hcallers⟩
      · change ∀ pc ∈ Executor.callers _, K pc
        rw [hcallers]
        exact ih.callers
      · change ∀ pc ∈ Executor.callers _, K pc
        rw [hcallers]
        nofun
  | again code _ hstep ih =>
    rw [← Run.finish_inr hstep]
    exact ih

end ScriptVm
