import ScriptVm.Machine.Basic

/-! Control. Sections, natives, debuggers and the host call one another to any depth, so the calls
that wait are kept on a stack of their own, and the machine moves by single transitions. A run is a
stretch of instructions up to the return or suspension of the section it was started for. -/

namespace ScriptVm
variable {δ ν ρ : Type}

/-- For whose sake host code ran, and what it came to. -/
inductive Verdict (δ ρ : Type) where
  | host (result : ρ)
  | native (arguments : List Value) (result : Except Fault (Option Value))
  | tick (d : Attached δ) (result : Except Fault Unit)
  /-- A debugger after a fault, which goes on whatever the debugger says. -/
  | pause (d : Attached δ) (failure : Failure)

abbrev Task (δ ν ρ : Type) := HostCode δ ν (Verdict δ ρ)

/-- What the machine does next. -/
inductive Focus (δ ν ρ : Type) where
  /-- Give the debugger, if there is one, control before the instruction. -/
  | tick
  | dispatch
  | fail (fault : Fault)
  /-- End the innermost run; the flag says whether it was suspended. -/
  | leave (result : Except Failure Bool)
  | host (task : Task δ ν ρ)

/-- Who waits for the end of a run. -/
inductive Waiting (δ ν ρ : Type) where
  | instruction
  /-- Host code that called a section, to be given so many results. -/
  | caller (results : UInt8) (next : Except Failure Execution → Task δ ν ρ)
  | executor (next : Except Failure Execution → Task δ ν ρ)

structure State (δ ν ρ : Type) where
  machine : Machine δ ν
  focus : Focus δ ν ρ
  waiting : List (Waiting δ ν ρ) := []

namespace Machine

def openRun (m : Machine δ ν) : Machine δ ν := m.modifyCore fun c => { c with runs := c.runs + 1 }

def closeRun (m : Machine δ ν) : Machine δ ν := m.modifyCore fun c => { c with runs := c.runs - 1 }

/-- A call that failed. If no run is left, all call state is discarded. -/
def abandon (m : Machine δ ν) : Machine δ ν :=
  if m.core.runs = 0 then { m.modifyCore Core.reset with suspended := none } else m

/-- What a call comes to when its run has ended. -/
def complete (m : Machine δ ν) (results : UInt8) :
    Except Failure Bool → Except Failure Execution × Machine δ ν
  | .ok true => (.ok .suspended, { m with suspended := some results })
  | .ok false =>
    match m.exec (Exec.popMany results.toNat) with
    | (.ok vs, m) => (.ok (.finished vs), m)
    | (.error f, m) => (.error { fault := f }, m)
  | .error failure => (.error failure, m.abandon)

/-- Makes ready for a call of the section: arguments and their number are pushed. -/
def prepareCall (m : Machine δ ν) (index : UInt32) (arguments : List Value) :
    Except Failure UInt8 × Machine δ ν :=
  if m.suspended.isSome && m.core.runs == 0 then (.error { fault := .busySuspended }, m)
  else
    match m.core.sections.get index with
    | .error e => (.error { fault := .code e }, m)
    | .ok home =>
      match home.checkArguments arguments.length with
      | .error f => (.error { fault := f }, m)
      | .ok () =>
        let (_, m) := m.exec do
          arguments.forM Exec.pushShared
          Exec.push (.int (.ofInt arguments.length))
        (.ok home.results, m)

end Machine

namespace State

def enter (m : Machine δ ν) (waiting : List (Waiting δ ν ρ))
    (next : Except Failure Execution → Task δ ν ρ) : Entry → State δ ν ρ
  | .call index arguments =>
    match m.prepareCall index arguments with
    | (.error failure, m) => ⟨m, .host (next (.error failure)), waiting⟩
    | (.ok results, m) =>
      match m.exec (Exec.enterSection index) with
      | (.ok (), m) => ⟨m.openRun, .tick, .caller results next :: waiting⟩
      | (.error f, m) =>
        let (r, m) := m.complete results (.error (m.traced f))
        ⟨m, .host (next r), waiting⟩
  | .execute index ready =>
    let (_, m) := m.exec (if ready then pure () else Exec.push (.int 0))
    match m.exec (Exec.enterSection index) with
    | (.ok (), m) => ⟨m.openRun, .tick, .executor next :: waiting⟩
    | (.error f, m) => ⟨m, .host (next (.error (m.traced f))), waiting⟩
  | .resume =>
    match m.suspended with
    | none => ⟨m, .host (next (.error { fault := .notSuspended })), waiting⟩
    | some results =>
      ⟨{ m with suspended := none }.openRun, .tick, .caller results next :: waiting⟩

def settle (m : Machine δ ν) (waiting : List (Waiting δ ν ρ)) :
    Verdict δ ρ → State δ ν ρ ⊕ (ρ × Machine δ ν)
  | .host result => .inr (result, m)
  | .native arguments result =>
    let (_, m) := m.exec (Exec.drop arguments)
    match result with
    | .error f => .inl ⟨m, .fail f, waiting⟩
    | .ok none => .inl ⟨m, .tick, waiting⟩
    | .ok (some v) => .inl ⟨(m.exec (Exec.push v)).2, .tick, waiting⟩
  | .tick d result =>
    let m := m.takeBack d
    match result with
    | .ok () => .inl ⟨m, .dispatch, waiting⟩
    | .error f => .inl ⟨m, .leave (.error (m.traced f)), waiting⟩
  | .pause d failure => .inl ⟨m.takeBack d, .leave (.error failure), waiting⟩

def tick (env : Environment δ ν) (m : Machine δ ν) (waiting : List (Waiting δ ν ρ)) : State δ ν ρ :=
  match m.debugger with
  | none => ⟨m, .dispatch, waiting⟩
  | some d =>
    let m :=
      if env.debugging.traces d.state then
        let pc := m.core.executor.pc
        m.tell (.traced d (match pc.home.listingAt pc.position env.names with
          | .ok line => line
          | .error e => e.message))
      else m
    let turn := (env.debugging.tick d.state).bind fun (result, state) =>
      .finish (.tick { d with state } result)
    ⟨m.handOver, .host turn, waiting⟩

def dispatch (env : Environment δ ν) (m : Machine δ ν) (waiting : List (Waiting δ ν ρ)) :
    State δ ν ρ :=
  match m.exec (Exec.step env.signature?) with
  | (.ok .next, m) => ⟨m, .tick, waiting⟩
  | (.ok .returned, m) => ⟨m, .leave (.ok false), waiting⟩
  | (.ok .suspended, m) => ⟨m, .leave (.ok true), waiting⟩
  | (.ok .entered, m) => ⟨m.openRun, .tick, .instruction :: waiting⟩
  | (.ok (.native index arguments), m) =>
    match env.native? index with
    | some n =>
      ⟨m, .host ((n.invoke arguments).bind fun r => .finish (.native arguments r)), waiting⟩
    | none => ⟨m, .fail (.noNative index), waiting⟩
  | (.error f, m) => ⟨m, .fail f, waiting⟩

/-- A fault gets its trace, and a debugger that runs no code itself gets a turn. Faults under a
debugger's control pass without a trace. After a crash nothing moves any more. -/
def fail (env : Environment δ ν) (m : Machine δ ν) (waiting : List (Waiting δ ν ρ)) (f : Fault) :
    State δ ν ρ :=
  if f = .crash then ⟨m, .fail .crash, waiting⟩
  else if m.ticking || m.debugger.any (env.debugging.inline ·.state) then
    ⟨m, .leave (.error { fault := f }), waiting⟩
  else
    let failure := m.traced f
    match m.debugger with
    | none => ⟨m, .leave (.error failure), waiting⟩
    | some d =>
      let turn := (env.debugging.tick d.state).bind fun (_, state) =>
        .finish (.pause { d with state } failure)
      ⟨(m.tell (.broke d)).handOver, .host turn, waiting⟩

/-- A run has ended: the one who waits for it goes on. While nobody waits no run is in progress. -/
def leave (m : Machine δ ν) (result : Except Failure Bool) :
    List (Waiting δ ν ρ) → State δ ν ρ
  | [] => ⟨m, .leave result, []⟩
  | .instruction :: waiting =>
    let m := m.closeRun
    match result with
    | .ok false => ⟨m, .tick, waiting⟩
    | .ok true => ⟨m, .fail .nestedSuspension, waiting⟩
    | .error failure => ⟨m, .leave (.error failure), waiting⟩
  | .caller results next :: waiting =>
    let (r, m) := m.closeRun.complete results result
    ⟨m, .host (next r), waiting⟩
  | .executor next :: waiting =>
    let r := result.map fun suspended => if suspended then Execution.suspended else .finished []
    ⟨m.closeRun, .host (next r), waiting⟩

/-- One transition: the next state, or the result of the host's code. -/
def step (env : Environment δ ν) : State δ ν ρ → State δ ν ρ ⊕ (ρ × Machine δ ν)
  | ⟨m, .tick, waiting⟩ => .inl (tick env m waiting)
  | ⟨m, .dispatch, waiting⟩ => .inl (dispatch env m waiting)
  | ⟨m, .fail f, waiting⟩ => .inl (fail env m waiting f)
  | ⟨m, .leave r, waiting⟩ => .inl (leave m r waiting)
  | ⟨m, .host (.finish verdict), waiting⟩ => settle m waiting verdict
  | ⟨m, .host (.act f), waiting⟩ =>
    let (task, m) := f m
    .inl ⟨m, .host task, waiting⟩
  | ⟨m, .host (.enter entry next), waiting⟩ => .inl (enter m waiting next entry)

def isDown : State δ ν ρ → Bool
  | ⟨_, .fail .crash, _⟩ => true
  | _ => false

/-- Up to `fuel` transitions; `none` if the host's code has not come to its end by then, or never
will because the machine has crashed. -/
def run (env : Environment δ ν) : Nat → State δ ν ρ → Option (ρ × Machine δ ν)
  | 0, _ => none
  | fuel + 1, s =>
    if s.isDown then none
    else
      match s.step env with
      | .inl s => run env fuel s
      | .inr r => some r

theorem run_add {env : Environment δ ν} {fuel : Nat} {s : State δ ν ρ} {r : ρ × Machine δ ν}
    (h : run env fuel s = some r) (more : Nat) : run env (fuel + more) s = some r := by
  induction fuel generalizing s with
  | zero => cases h
  | succ fuel ih =>
    rw [Nat.succ_add]
    simp only [run] at h ⊢
    split at h
    · cases h
    · rename_i hdown
      rw [if_neg hdown]
      split at h
      · exact ih h
      · exact h

end State

/-- Runs code of the host on a machine that is at rest. -/
def Machine.perform (env : Environment δ ν) (fuel : Nat) (m : Machine δ ν) (code : HostCode δ ν ρ) :
    Option (ρ × Machine δ ν) :=
  State.run env fuel ⟨m, .host (code.bind fun r => .finish (.host r)), []⟩

end ScriptVm
