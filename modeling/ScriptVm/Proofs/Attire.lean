import ScriptVm.Proofs.Likeness

/-! What the machine wears: its debugger and what it was told of it. Instructions, calls and returns take no notice of
it, and leave it on. So a transition that is up to neither a debugger nor host code is the same whatever the machine
wears, and changes nothing of it. -/

namespace ScriptVm
variable {δ ν ρ α β : Type}

/-- What a machine has besides the state that its programs work on. -/
structure Attire (δ ν : Type) where
  debugger : Option (Attached δ) := none
  attachments : Nat := 0
  ticking : Bool := false
  detachPending : Bool := false
  journal : Array (Event δ ν) := #[]

namespace Machine

def attire (m : Machine δ ν) : Attire δ ν := ⟨m.debugger, m.attachments, m.ticking, m.detachPending, m.journal⟩

def dressed (m : Machine δ ν) (a : Attire δ ν) : Machine δ ν :=
  { m with
    debugger := a.debugger
    attachments := a.attachments
    ticking := a.ticking
    detachPending := a.detachPending
    journal := a.journal }

structure Resembles (m m' : Machine δ ν) : Prop where
  core : m.core = m'.core
  suspended : m.suspended = m'.suspended

end Machine

def State.dressed (s : State δ ν ρ) (a : Attire δ ν) : State δ ν ρ := { s with machine := s.machine.dressed a }

/-! ### Machines -/

namespace Machine
variable {m m' : Machine δ ν}

@[simp] theorem dressed_attire (m : Machine δ ν) : m.dressed m.attire = m := rfl

@[simp] theorem attire_dressed (m : Machine δ ν) (a : Attire δ ν) : (m.dressed a).attire = a := rfl

theorem Resembles.refl (m : Machine δ ν) : m.Resembles m := ⟨rfl, rfl⟩

theorem resembles_dressed (m : Machine δ ν) (a : Attire δ ν) : (m.dressed a).Resembles m := ⟨rfl, rfl⟩

theorem Resembles.eq_dressed (h : m.Resembles m') : m = m'.dressed m.attire := by
  obtain ⟨core, suspended⟩ := m
  obtain ⟨rfl, rfl⟩ := h
  rfl

theorem exec_dressed (m : Machine δ ν) (a : Attire δ ν) (x : Exec α) :
    (m.dressed a).exec x = ((m.exec x).1, (m.exec x).2.dressed a) := by
  have hcore : (m.dressed a).core = m.core := rfl
  unfold exec
  rw [hcore]
  cases x m.core <;> rfl

theorem abandon_dressed (m : Machine δ ν) (a : Attire δ ν) : (m.dressed a).abandon = m.abandon.dressed a := by
  have hruns : (m.dressed a).core.runs = m.core.runs := rfl
  unfold abandon
  rw [hruns]
  split_ifs <;> rfl

theorem complete_dressed (m : Machine δ ν) (a : Attire δ ν) (results : UInt8) (result : Except Failure Bool) :
    (m.dressed a).complete results result =
      ((m.complete results result).1, (m.complete results result).2.dressed a) := by
  rcases result with failure | _ | _
  · exact congrArg (Prod.mk _) (m.abandon_dressed a)
  · unfold complete
    simp only [exec_dressed]
    rcases m.exec (Exec.popMany results.toNat) with ⟨f | vs, n⟩ <;> rfl
  · rfl

theorem prepareCall_dressed (m : Machine δ ν) (a : Attire δ ν) (index : UInt32) (arguments : List Value) :
    (m.dressed a).prepareCall index arguments =
      ((m.prepareCall index arguments).1, (m.prepareCall index arguments).2.dressed a) := by
  have hsuspended : (m.dressed a).suspended = m.suspended := rfl
  have hcore : (m.dressed a).core = m.core := rfl
  unfold prepareCall
  rw [hsuspended, hcore]
  split_ifs
  · rfl
  · cases m.core.sections.get index with
    | error e => rfl
    | ok home =>
      dsimp only
      cases home.checkArguments arguments.length with
      | error f => rfl
      | ok u => simp only [exec_dressed]

end Machine

/-! ### Transitions -/

namespace State
variable {env : Environment δ ν} (m : Machine δ ν) (a : Attire δ ν) (waiting : List (Waiting δ ν ρ))

theorem enter_dressed (next : Except Failure Execution → Task δ ν ρ) (entry : Entry) :
    enter (m.dressed a) waiting next entry = (enter m waiting next entry).dressed a := by
  cases entry with
  | call index arguments =>
    unfold enter
    simp only [Machine.prepareCall_dressed]
    rcases m.prepareCall index arguments with ⟨failure | results, n⟩
    · rfl
    · simp only [Machine.exec_dressed]
      rcases n.exec (Exec.enterSection index) with ⟨f | u, o⟩
      · exact congrArg (fun r : Except Failure Execution × Machine δ ν => State.mk r.2 (.host (next r.1)) waiting)
          (o.complete_dressed a results (.error (o.traced f)))
      · rfl
  | execute index ready =>
    unfold enter
    simp only [Machine.exec_dressed]
    rcases (m.exec (if ready then pure () else Exec.push (.int 0))).2.exec (Exec.enterSection index) with
      ⟨f | u, o⟩ <;> rfl
  | resume =>
    have hsuspended : (m.dressed a).suspended = m.suspended := rfl
    unfold enter
    simp only [hsuspended]
    cases m.suspended <;> rfl

theorem leave_dressed (result : Except Failure Bool) :
    leave (m.dressed a) result waiting = (leave m result waiting).dressed a := by
  rcases waiting with _ | ⟨_ | ⟨results, next⟩ | next, waiting⟩
  · rfl
  · rcases result with failure | _ | _ <;> rfl
  · exact congrArg (fun r : Except Failure Execution × Machine δ ν => State.mk r.2 (.host (next r.1)) waiting)
      (m.closeRun.complete_dressed a results result)
  · rfl

theorem dispatch_dressed : dispatch env (m.dressed a) waiting = (dispatch env m waiting).dressed a := by
  unfold dispatch
  simp only [Machine.exec_dressed]
  rcases m.exec (Exec.step env.signature?) with ⟨f | flow, n⟩
  · rfl
  · cases flow with
    | native index arguments =>
      dsimp only
      cases env.native? index <;> rfl
    | _ => rfl

/-- What does not depend on what the machine wears leaves it on. -/
theorem attire_eq {F : Machine δ ν → State δ ν ρ} {m : Machine δ ν} (h : ∀ a, F (m.dressed a) = (F m).dressed a) :
    (F m).machine.attire = m.attire := by
  have hself := h m.attire
  rw [Machine.dressed_attire] at hself
  rw [hself]
  rfl

end State
end ScriptVm
