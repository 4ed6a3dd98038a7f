import ScriptVm.Proofs.Attire
import ScriptVm.Proofs.Turns
import ScriptVm.Session.Natives

/-! A debugger that only looks on. Two machines run the same programs, one with a debugger attached that does nothing
to it and one without. They go through the same transitions, between which the one with the debugger makes a few more,
while the debugger has its turn. -/

namespace ScriptVm
variable {δ ν ρ α β : Type}

def Event.isBreak : Event δ ν → Bool
  | .broke _ => true
  | _ => false

/-- How often debuggers were told to pause because of a fault. -/
def Machine.breaks (m : Machine δ ν) : Nat := m.journal.countP Event.isBreak

/-- The same debugger is attached or has control, and was not told to pause. -/
structure Machine.SameDebugger (m m' : Machine δ ν) : Prop where
  debugger : m'.debugger = m.debugger
  ticking : m'.ticking = m.ticking
  detachPending : m'.detachPending = m.detachPending
  breaks : m'.breaks = m.breaks

/-- A debugger's turn that goes well and leaves the machine alone, though the debugger may look at it and note what it
likes. -/
inductive HostCode.Passive : HostCode δ ν (Except Fault Unit × δ) → Prop where
  | finish (d : δ) : Passive (.finish (.ok (), d))
  | act {f : Machine δ ν → HostCode δ ν (Except Fault Unit × δ) × Machine δ ν} :
      (∀ m, (f m).2.Resembles m) → (∀ m : Machine δ ν, m.SameDebugger (f m).2) → (∀ m, Passive (f m).1) →
        Passive (.act f)

/-- Host code that does the same whatever debugger is attached, has nothing to do with debuggers itself, and comes to
results as `p` says. -/
inductive HostCode.Heedless (p : α → Prop) : HostCode δ ν α → Prop where
  | finish {a : α} : p a → Heedless p (.finish a)
  | act {f : Machine δ ν → HostCode δ ν α × Machine δ ν} :
      (∀ m m' : Machine δ ν, m.Resembles m' → (f m).1 = (f m').1 ∧ (f m).2.Resembles (f m').2) →
      (∀ m : Machine δ ν, m.SameDebugger (f m).2) → (∀ m, Heedless p (f m).1) → Heedless p (.act f)
  | enter (entry : Entry) {next : Except Failure Execution → HostCode δ ν α} :
      (∀ o, Heedless p (next o)) → Heedless p (.enter entry next)

/-- Debuggers that only look on. They may want to be shown the instructions. -/
structure Debugging.Passive (debugging : Debugging δ ν) : Prop where
  tick : ∀ d, HostCode.Passive (debugging.tick d)
  inline : ∀ d, debugging.inline d = false

def Environment.Heedless (env : Environment δ ν) : Prop :=
  ∀ n ∈ env.natives, ∀ vs, HostCode.Heedless (fun _ => True) (n.body vs)

/-! ### What a debugger notices -/

/-- What happens between the machine and its debugger. -/
inductive Signal where
  | ticked
  | dispatched
  | broke
deriving DecidableEq, Repr

def Focus.dispatches : Focus δ ν ρ → Bool
  | .dispatch => true
  | _ => false

namespace State

def signals (s s' : State δ ν ρ) : List Signal :=
  (if s.focus.dispatches then [.dispatched] else []) ++
    List.replicate (s'.machine.breaks - s.machine.breaks) .broke ++
    if !s.machine.ticking && s'.machine.ticking then [.ticked] else []

/-- The signals of so many transitions, or of all until the end. -/
def trail (env : Environment δ ν) : Nat → State δ ν ρ → List Signal
  | 0, _ => []
  | fuel + 1, s =>
    match s.step env with
    | .inl s' => s.signals s' ++ trail env fuel s'
    | .inr _ => []

end State

/-- Each instruction follows a turn of the debugger, and each pause is followed by one; there are no others. The flag
says that the turn for the next instruction has been given already. -/
inductive Paced : Bool → List Signal → Prop where
  | start : Paced false []
  | tick {signals : List Signal} : Paced false signals → Paced true (signals ++ [.ticked])
  | dispatch {signals : List Signal} : Paced true signals → Paced false (signals ++ [.dispatched])
  | pause {signals : List Signal} : Paced false signals → Paced false (signals ++ [.broke, .ticked])

/-- The turns are as many as the instructions and the pauses, but for one that was given ahead. -/
theorem Paced.count {awaiting : Bool} {signals : List Signal} (h : Paced awaiting signals) :
    signals.count .ticked = signals.count .dispatched + signals.count .broke + awaiting.toNat := by
  induction h with
  | start => rfl
  | tick _ ih | dispatch _ ih | pause _ ih => simp at ih ⊢; omega

/-! ### The two machines -/

structure Attire.Watching (a : Attire δ ν) : Prop where
  debugger : a.debugger.isSome = true
  ticking : a.ticking = false
  detachPending : a.detachPending = false

structure Attire.Engaged (a : Attire δ ν) : Prop where
  debugger : a.debugger = none
  ticking : a.ticking = true
  detachPending : a.detachPending = false

structure Attire.Bare (a : Attire δ ν) : Prop where
  debugger : a.debugger = none
  ticking : a.ticking = false

def Verdict.IsPlain : Verdict δ ρ → Prop
  | .host _ => True
  | .native .. => True
  | _ => False

def Focus.Heedless : Focus δ ν ρ → Prop
  | .host task => HostCode.Heedless Verdict.IsPlain task
  | _ => True

def Waiting.Heedless : Waiting δ ν ρ → Prop
  | .instruction => True
  | .caller _ next => ∀ o, HostCode.Heedless Verdict.IsPlain (next o)
  | .executor next => ∀ o, HostCode.Heedless Verdict.IsPlain (next o)

structure State.Heedless (s : State δ ν ρ) : Prop where
  focus : s.focus.Heedless
  waiting : ∀ w ∈ s.waiting, w.Heedless

/-- The first machine has a debugger attached and the second has none. Else they are the same. -/
structure State.Level (s s' : State δ ν ρ) : Prop where
  watching : s.machine.attire.Watching
  bare : s'.machine.attire.Bare
  resembles : s.machine.Resembles s'.machine
  focus : s.focus = s'.focus
  waiting : s.waiting = s'.waiting
  heedless : s'.Heedless

/-- Where the machine goes on after a debugger's turn that comes to such a verdict. -/
inductive Verdict.Closes : (Except Fault Unit × δ → Verdict δ ρ) → Focus δ ν ρ → Prop where
  | tick (serial : Nat) : Closes (fun r => .tick ⟨serial, r.2⟩ r.1) .dispatch
  | pause (serial : Nat) (failure : Failure) : Closes (fun r => .pause ⟨serial, r.2⟩ failure) (.leave (.error failure))

/-- On the first machine the debugger has its turn, of which so much is left. After that it goes on as the second one
does now. -/
structure State.Interlude (turn : HostCode δ ν (Except Fault Unit × δ)) (s s' : State δ ν ρ) : Prop where
  engaged : s.machine.attire.Engaged
  bare : s'.machine.attire.Bare
  resembles : s.machine.Resembles s'.machine
  focus : ∃ verdict, s.focus = .host (turn.bind fun r => .finish (verdict r)) ∧ Verdict.Closes verdict s'.focus
  waiting : s.waiting = s'.waiting
  heedless : s'.Heedless

/-- The first machine has a debugger attached that only looks on, and the second has none. -/
def State.Attended (s s' : State δ ν ρ) : Prop := Level s s' ∨ ∃ turn, HostCode.Passive turn ∧ Interlude turn s s'

/-! ### Host code -/

theorem Machine.SameDebugger.of_attire {m m' : Machine δ ν} (h : m'.attire = m.attire) : m.SameDebugger m' :=
  ⟨congrArg Attire.debugger h, congrArg Attire.ticking h, congrArg Attire.detachPending h,
    congrArg (fun a => a.journal.countP Event.isBreak) h⟩

namespace HostCode

theorem Heedless.bind {p : α → Prop} {q : β → Prop} {x : HostCode δ ν α} {k : α → HostCode δ ν β} (h : Heedless p x)
    (hk : ∀ a, p a → Heedless q (k a)) : Heedless q (x.bind k) := by
  induction h with
  | finish ha => exact hk _ ha
  | act hsame hkeeps _ ih =>
    refine .act (fun m m' hm => ?_) (fun m => ?_) fun m => ?_
    · simp only [Program.bindResult_fst, Program.bindResult_snd, (hsame m m' hm).1, true_and]
      exact (hsame m m' hm).2
    · rw [Program.bindResult_snd]
      exact hkeeps m
    · rw [Program.bindResult_fst]
      exact ih m
  | enter entry _ ih => exact .enter entry ih

/-- What neither depends on what the machine wears nor changes it has nothing to do with debuggers. -/
theorem heedless_state {f : Machine δ ν → α × Machine δ ν}
    (hf : ∀ m a, f (m.dressed a) = ((f m).1, (f m).2.dressed a)) : Heedless (fun _ => True) (Program.state f) := by
  refine .act (fun m m' hm => ?_) (fun m => ?_) fun m => .finish trivial
  · have hstate := hf m' m.attire
    rw [← hm.eq_dressed] at hstate
    exact ⟨congrArg (fun r => Program.finish r.1) hstate, congrArg (·.2.core) hstate, congrArg (·.2.suspended) hstate⟩
  · have hattire : (f m).2.attire = m.attire := congrArg (fun r => r.2.attire) (hf m m.attire)
    exact .of_attire hattire

theorem heedless_runAll (entries : List Entry) :
    Heedless (δ := δ) (ν := ν) (fun _ => True) (runAll entries) := by
  induction entries with
  | nil => exact .finish trivial
  | cons entry entries ih =>
    exact (Heedless.enter entry fun o => .finish (p := fun _ => True) trivial).bind fun o _ =>
      ih.bind fun os _ => .finish trivial

end HostCode

theorem Environment.Heedless.invoke {env : Environment δ ν} (h : env.Heedless) {n : Native δ ν} {index : UInt32}
    (hn : env.native? index = some n) (vs : List Value) : HostCode.Heedless (fun _ => True) (n.invoke vs) := by
  unfold Native.invoke
  split_ifs
  · exact h n (Array.mem_of_getElem? hn) vs
  · exact .finish trivial

/-! ### Signals of a transition -/

namespace State
variable {s s' : State δ ν ρ}

theorem signals_of_same (h : s.machine.SameDebugger s'.machine) :
    s.signals s' = if s.focus.dispatches then [.dispatched] else [] := by
  unfold signals
  rw [h.breaks, h.ticking, Nat.sub_self]
  cases s.machine.ticking <;> simp

theorem signals_quiet (h : s.machine.SameDebugger s'.machine) (hfocus : s.focus.dispatches = false) :
    s.signals s' = [] := by
  rw [signals_of_same h, hfocus]
  rfl

end State

theorem Machine.breaks_tell (m : Machine δ ν) (e : Event δ ν) :
    (m.tell e).breaks = m.breaks + if e.isBreak then 1 else 0 :=
  Array.countP_push

namespace State
variable {m : Machine δ ν} {focus focus' : Focus δ ν ρ} {waiting waiting' : List (Waiting δ ν ρ)}

theorem signals_handOver (hfocus : focus.dispatches = false) (hidle : m.ticking = false) :
    signals ⟨m, focus, waiting⟩ ⟨m.handOver, focus', waiting'⟩ = [.ticked] := by
  unfold signals
  change (if focus.dispatches then _ else _) ++ List.replicate (m.breaks - m.breaks) _ ++
    (if !m.ticking && true then _ else _) = _
  rw [hfocus, hidle, Nat.sub_self]
  rfl

theorem signals_tell (hfocus : focus.dispatches = false) (hidle : m.ticking = false) (e : Event δ ν) :
    signals ⟨m, focus, waiting⟩ ⟨(m.tell e).handOver, focus', waiting'⟩ =
      (if e.isBreak then [.broke] else []) ++ [.ticked] := by
  unfold signals
  change (if focus.dispatches then _ else _) ++ List.replicate ((m.tell e).breaks - m.breaks) _ ++
    (if !m.ticking && true then _ else _) = _
  rw [hfocus, hidle, Machine.breaks_tell, Nat.add_sub_cancel_left]
  cases e.isBreak <;> rfl

end State

/-! ### Transitions of the two machines -/

namespace State
variable {env : Environment δ ν} {m : Machine δ ν} {waiting : List (Waiting δ ν ρ)} {s s' : State δ ν ρ}

theorem heedless_enter (hw : ∀ w ∈ waiting, w.Heedless) {next : Except Failure Execution → Task δ ν ρ}
    (hnext : ∀ o, HostCode.Heedless Verdict.IsPlain (next o)) (entry : Entry) :
    Heedless (enter m waiting next entry) ∧ (enter m waiting next entry).focus.dispatches = false := by
  have hpush : ∀ w : Waiting δ ν ρ, w.Heedless → ∀ v ∈ w :: waiting, v.Heedless := fun w hwaits =>
    List.forall_mem_cons.2 ⟨hwaits, hw⟩
  cases entry with
  | call index arguments =>
    rcases enter_call_cases m waiting next index arguments with
      ⟨home, memory, -, -, hentered⟩ | ⟨failure, hrefused⟩ | ⟨memory, failure, hrefused⟩
    · rw [hentered]
      exact ⟨⟨trivial, hpush _ hnext⟩, rfl⟩
    · rw [hrefused]
      exact ⟨⟨hnext _, hw⟩, rfl⟩
    · rw [hrefused]
      exact ⟨⟨hnext _, hw⟩, rfl⟩
  | execute index ready =>
    rcases enter_execute_cases m waiting next index ready with ⟨home, -, hentered⟩ | ⟨failure, hrefused⟩
    · rw [hentered]
      exact ⟨⟨trivial, hpush _ hnext⟩, rfl⟩
    · rw [hrefused]
      exact ⟨⟨hnext _, hw⟩, rfl⟩
  | resume =>
    unfold enter
    cases m.suspended with
    | none => exact ⟨⟨hnext _, hw⟩, rfl⟩
    | some results => exact ⟨⟨trivial, hpush _ hnext⟩, rfl⟩

theorem heedless_leave (hw : ∀ w ∈ waiting, w.Heedless) (result : Except Failure Bool) :
    Heedless (leave m result waiting) ∧ (leave m result waiting).focus.dispatches = false := by
  rcases waiting with _ | ⟨w, waiting⟩
  · exact ⟨⟨trivial, hw⟩, rfl⟩
  obtain ⟨hhead, hrest⟩ := List.forall_mem_cons.1 hw
  cases w with
  | instruction => rcases result with failure | _ | _ <;> exact ⟨⟨trivial, hrest⟩, rfl⟩
  | caller results next => exact ⟨⟨hhead _, hrest⟩, rfl⟩
  | executor next => exact ⟨⟨hhead _, hrest⟩, rfl⟩

theorem heedless_dispatch (hnatives : env.Heedless) (hw : ∀ w ∈ waiting, w.Heedless) :
    Heedless (dispatch env m waiting) ∧ (dispatch env m waiting).focus.dispatches = false := by
  unfold dispatch
  rcases m.exec (Exec.step env.signature?) with ⟨f | flow, n⟩
  · exact ⟨⟨trivial, hw⟩, rfl⟩
  · cases flow with
    | entered => exact ⟨⟨trivial, List.forall_mem_cons.2 ⟨trivial, hw⟩⟩, rfl⟩
    | native index arguments =>
      dsimp only
      cases hnative : env.native? index with
      | none => exact ⟨⟨trivial, hw⟩, rfl⟩
      | some native =>
        exact ⟨⟨(hnatives.invoke hnative arguments).bind fun _ _ => .finish trivial, hw⟩, rfl⟩
    | _ => exact ⟨⟨trivial, hw⟩, rfl⟩

theorem Level.goes {a : Attire δ ν} (ha : a.Watching) (hm : m.attire.Bare) {focus : Focus δ ν ρ}
    {F : Machine δ ν → State δ ν ρ} (hF : ∀ b, F (m.dressed b) = (F m).dressed b)
    (hnext : (F m).Heedless ∧ (F m).focus.dispatches = false) :
    Level (F (m.dressed a)) (F m) ∧ ∀ l, Paced focus.dispatches l →
      Paced (F m).focus.dispatches (l ++ signals ⟨m.dressed a, focus, waiting⟩ (F (m.dressed a))) := by
  have hbare : (F m).machine.attire.Bare := attire_eq hF ▸ hm
  rw [hF a, hnext.2]
  refine ⟨⟨ha, hbare, Machine.resembles_dressed _ a, rfl, rfl, hnext.1⟩, fun l hl => ?_⟩
  have hsame : (m.dressed a).SameDebugger ((F m).dressed a).machine := .of_attire rfl
  rw [signals_of_same (s := ⟨m.dressed a, focus, waiting⟩) hsame]
  cases hdispatches : focus.dispatches <;> rw [hdispatches] at hl
  · exact (List.append_nil l).symm ▸ hl
  · exact hl.dispatch

theorem attended_tick (hpassive : env.debugging.Passive) {m' : Machine δ ν} (hm : m.attire.Watching)
    (hm' : m'.attire.Bare) (hres : m.Resembles m') (hw : ∀ w ∈ waiting, w.Heedless) :
    Attended (tick env m waiting) (tick env m' waiting) ∧ ∀ l, Paced false l →
      Paced (tick env m' waiting).focus.dispatches (l ++ signals ⟨m, .tick, waiting⟩ (tick env m waiting)) := by
  obtain ⟨d, hdebugger⟩ := Option.isSome_iff_exists.1 hm.debugger
  have hsome : m.debugger = some d := hdebugger
  have hnone : m'.debugger = none := hm'.debugger
  unfold tick
  rw [hsome, hnone]
  dsimp only
  split_ifs
  · refine ⟨Or.inr ⟨_, hpassive.tick d.state, ⟨rfl, rfl, hm.detachPending⟩, hm', ⟨hres.core, hres.suspended⟩,
      ⟨_, rfl, .tick d.serial⟩, rfl, trivial, hw⟩, fun l hl => ?_⟩
    rw [signals_tell rfl hm.ticking]
    exact hl.tick
  · refine ⟨Or.inr ⟨_, hpassive.tick d.state, ⟨rfl, rfl, hm.detachPending⟩, hm', ⟨hres.core, hres.suspended⟩,
      ⟨_, rfl, .tick d.serial⟩, rfl, trivial, hw⟩, fun l hl => ?_⟩
    rw [signals_handOver rfl hm.ticking]
    exact hl.tick

theorem attended_fail (hpassive : env.debugging.Passive) {m' : Machine δ ν} (hm : m.attire.Watching)
    (hm' : m'.attire.Bare) (hres : m.Resembles m') (hw : ∀ w ∈ waiting, w.Heedless) {f : Fault} (hf : f ≠ .crash) :
    Attended (fail env m waiting f) (fail env m' waiting f) ∧ ∀ l, Paced false l →
      Paced (fail env m' waiting f).focus.dispatches (l ++ signals ⟨m, .fail f, waiting⟩ (fail env m waiting f)) := by
  obtain ⟨d, hdebugger⟩ := Option.isSome_iff_exists.1 hm.debugger
  have hsome : m.debugger = some d := hdebugger
  have hnone : m'.debugger = none := hm'.debugger
  have hidle : m.ticking = false := hm.ticking
  have hidle' : m'.ticking = false := hm'.ticking
  have htraced : m.traced f = m'.traced f := by rw [Machine.traced, hres.core, Machine.traced]
  have hinline : (some d).any (env.debugging.inline ·.state) = false := hpassive.inline d.state
  unfold fail
  rw [hsome, hnone, hidle, hidle', htraced, hinline, if_neg hf, if_neg hf]
  simp only [Option.any_none, Bool.or_self, Bool.false_eq_true, if_false]
  refine ⟨Or.inr ⟨_, hpassive.tick d.state, ⟨rfl, rfl, hm.detachPending⟩, hm', ⟨hres.core, hres.suspended⟩,
    ⟨_, rfl, .pause d.serial _⟩, rfl, trivial, hw⟩, fun l hl => ?_⟩
  rw [signals_tell rfl hidle]
  exact hl.pause

theorem attended_act {f : Machine δ ν → Task δ ν ρ × Machine δ ν} {m' : Machine δ ν} (hm : m.attire.Watching)
    (hm' : m'.attire.Bare) (hkeeps : m.SameDebugger (f m).2) (hkeeps' : m'.SameDebugger (f m').2)
    (hsame : (f m).1 = (f m').1 ∧ (f m).2.Resembles (f m').2)
    (hnext : HostCode.Heedless Verdict.IsPlain (f m').1) (hw : ∀ w ∈ waiting, w.Heedless) :
    Attended ⟨(f m).2, .host (f m).1, waiting⟩ ⟨(f m').2, .host (f m').1, waiting⟩ ∧ ∀ l, Paced false l →
      Paced false (l ++ signals ⟨m, .host (.act f), waiting⟩ ⟨(f m).2, .host (f m).1, waiting⟩) := by
  refine ⟨Or.inl ⟨⟨?_, ?_, ?_⟩, ⟨?_, ?_⟩, hsame.2, congrArg Focus.host hsame.1, rfl, hnext, hw⟩, fun l hl => ?_⟩
  · exact (congrArg Option.isSome hkeeps.debugger).trans hm.debugger
  · exact hkeeps.ticking.trans hm.ticking
  · exact hkeeps.detachPending.trans hm.detachPending
  · exact hkeeps'.debugger.trans hm'.debugger
  · exact hkeeps'.ticking.trans hm'.ticking
  · rw [signals_quiet (s := ⟨m, _, waiting⟩) hkeeps rfl, List.append_nil]
    exact hl

theorem Level.step (hpassive : env.debugging.Passive) (hnatives : env.Heedless) (h : Level s s') :
    (∃ t t', s.step env = .inl t ∧ s'.step env = .inl t' ∧ Attended t t' ∧
      ∀ l, Paced s'.focus.dispatches l → Paced t'.focus.dispatches (l ++ s.signals t)) ∨
    ∃ r n n', s.step env = .inr (r, n) ∧ s'.step env = .inr (r, n') ∧ n.attire.Watching ∧ n.Resembles n' ∧
      s'.focus.dispatches = false := by
  obtain ⟨m, focus, waiting⟩ := s
  obtain ⟨m', _, _⟩ := s'
  obtain ⟨hm, hm', hres, hfocus, hwaiting, hheedless, hw⟩ := h
  cases hfocus
  cases hwaiting
  obtain ⟨a, rfl⟩ : ∃ a, m = m'.dressed a := ⟨_, hres.eq_dressed⟩
  -- a transition that both machines make in the same way
  have hgoes : ∀ {F : Machine δ ν → State δ ν ρ}, (∀ b, F (m'.dressed b) = (F m').dressed b) →
      (F m').Heedless ∧ (F m').focus.dispatches = false →
      Attended (F (m'.dressed a)) (F m') ∧ ∀ l, Paced focus.dispatches l →
        Paced (F m').focus.dispatches (l ++ signals ⟨m'.dressed a, focus, waiting⟩ (F (m'.dressed a))) :=
    fun hF hnext => (Level.goes (a := a) hm hm' hF hnext).imp_left Or.inl
  cases focus with
  | tick =>
    exact Or.inl ⟨_, _, rfl, rfl, attended_tick hpassive hm hm' hres hw⟩
  | dispatch =>
    exact Or.inl ⟨_, _, rfl, rfl, hgoes (F := fun n => dispatch env n waiting)
      (fun a => dispatch_dressed m' a waiting) (heedless_dispatch hnatives hw)⟩
  | fail f =>
    by_cases hf : f = .crash
    · subst hf
      have hcrashed : ∀ n : Machine δ ν, fail env n waiting .crash = ⟨n, .fail .crash, waiting⟩ := fun n => if_pos rfl
      refine Or.inl ⟨_, _, rfl, rfl, hgoes (F := fun n => fail env n waiting .crash) (fun b => ?_) ?_⟩
      · rw [hcrashed, hcrashed]
        rfl
      · rw [hcrashed]
        exact ⟨⟨trivial, hw⟩, rfl⟩
    · exact Or.inl ⟨_, _, rfl, rfl, attended_fail hpassive hm hm' hres hw hf⟩
  | leave result =>
    exact Or.inl ⟨_, _, rfl, rfl, hgoes (F := fun n => leave n result waiting)
      (fun a => leave_dressed m' a waiting result) (heedless_leave hw result)⟩
  | host task =>
    cases hheedless with
    | @finish verdict hplain =>
      cases verdict with
      | host r => exact Or.inr ⟨r, _, _, rfl, rfl, hm, hres, rfl⟩
      | native arguments result =>
        rcases result with f | _ | v
        · exact Or.inl ⟨_, _, rfl, rfl, hgoes (F := fun n => ⟨(n.exec (Exec.drop arguments)).2, .fail f, waiting⟩)
            (fun _ => rfl) ⟨⟨trivial, hw⟩, rfl⟩⟩
        · exact Or.inl ⟨_, _, rfl, rfl, hgoes (F := fun n => ⟨(n.exec (Exec.drop arguments)).2, .tick, waiting⟩)
            (fun _ => rfl) ⟨⟨trivial, hw⟩, rfl⟩⟩
        · exact Or.inl ⟨_, _, rfl, rfl, hgoes
            (F := fun n => ⟨((n.exec (Exec.drop arguments)).2.exec (Exec.push v)).2, .tick, waiting⟩)
            (fun _ => rfl) ⟨⟨trivial, hw⟩, rfl⟩⟩
      | tick d result => cases hplain
      | pause d failure => cases hplain
    | @act f hsame hkeeps hnext =>
      exact Or.inl ⟨_, _, rfl, rfl,
        attended_act hm hm' (hkeeps (m'.dressed a)) (hkeeps m') (hsame _ _ hres) (hnext m') hw⟩
    | enter entry hnext =>
      exact Or.inl ⟨_, _, rfl, rfl, hgoes (F := fun n => enter n waiting _ entry)
        (fun a => enter_dressed m' a waiting _ entry) (heedless_enter hw hnext entry)⟩

theorem Interlude.over (env : Environment δ ν) {d : δ} (h : Interlude (.finish (.ok (), d)) s s') :
    ∃ t, s.step env = .inl t ∧ Level t s' ∧ s.signals t = [] := by
  obtain ⟨m, focus, waiting⟩ := s
  obtain ⟨m', focus', _⟩ := s'
  obtain ⟨hm, hm', hres, ⟨verdict, hfocus, hcloses⟩, hwaiting, hheedless⟩ := h
  cases hwaiting
  cases hfocus
  have hback : ∀ serial, m.takeBack ⟨serial, d⟩ =
      { m with ticking := false, detachPending := false, debugger := some ⟨serial, d⟩ } := by
    intro serial
    have hleaves : (m.detachPending || m.debugger.isSome) = false := by
      rw [show m.detachPending = false from hm.detachPending, show m.debugger = none from hm.debugger]
      rfl
    simp only [Machine.takeBack, hleaves]
    rfl
  have hsignals : ∀ serial focus', signals (⟨m, .host (.finish (verdict (.ok (), d))), waiting⟩ : State δ ν ρ)
      ⟨m.takeBack ⟨serial, d⟩, focus', waiting⟩ = [] := by
    intro serial focus'
    have hbusy : m.ticking = true := hm.ticking
    rw [hback]
    unfold signals
    change [] ++ List.replicate (m.breaks - m.breaks) _ ++ (if !m.ticking && false then _ else _) = []
    rw [hbusy, Nat.sub_self]
    rfl
  have hlevel : ∀ serial, Level ⟨m.takeBack ⟨serial, d⟩, focus', waiting⟩ ⟨m', focus', waiting⟩ := by
    intro serial
    rw [hback]
    exact ⟨⟨rfl, rfl, rfl⟩, hm', ⟨hres.core, hres.suspended⟩, rfl, rfl, hheedless⟩
  cases hcloses with
  | tick serial => exact ⟨_, rfl, hlevel serial, hsignals serial _⟩
  | pause serial failure => exact ⟨_, rfl, hlevel serial, hsignals serial _⟩

theorem Interlude.goes (env : Environment δ ν) {f : Machine δ ν → HostCode δ ν (Except Fault Unit × δ) × Machine δ ν}
    (hsame : ∀ m, (f m).2.Resembles m) (hkeeps : ∀ m : Machine δ ν, m.SameDebugger (f m).2)
    (h : Interlude (.act f) s s') :
    ∃ t, s.step env = .inl t ∧ Interlude (f s.machine).1 t s' ∧ s.signals t = [] := by
  obtain ⟨m, focus, waiting⟩ := s
  obtain ⟨hm, hm', hres, ⟨verdict, hfocus, hcloses⟩, hwaiting, hheedless⟩ := h
  cases hfocus
  have hkept := hkeeps m
  refine ⟨⟨(f m).2, .host ((f m).1.bind fun r => .finish (verdict r)), waiting⟩, step_act env m f _ waiting,
    ⟨⟨?_, ?_, ?_⟩, hm', ?_, ⟨verdict, rfl, hcloses⟩, hwaiting, hheedless⟩, signals_quiet hkept rfl⟩
  · exact hkept.debugger.trans hm.debugger
  · exact hkept.ticking.trans hm.ticking
  · exact hkept.detachPending.trans hm.detachPending
  · exact ⟨(hsame m).core.trans hres.core, (hsame m).suspended.trans hres.suspended⟩

theorem Interlude.step (env : Environment δ ν) {turn : HostCode δ ν (Except Fault Unit × δ)} (hturn : turn.Passive)
    (h : Interlude turn s s') :
    ∃ t, s.step env = .inl t ∧ Attended t s' ∧ s.signals t = [] := by
  cases hturn with
  | finish d =>
    obtain ⟨t, hstep, hlevel, hsignals⟩ := h.over env
    exact ⟨t, hstep, Or.inl hlevel, hsignals⟩
  | act hsame hkeeps hnext =>
    obtain ⟨t, hstep, hinterlude, hsignals⟩ := h.goes env hsame hkeeps
    exact ⟨t, hstep, Or.inr ⟨_, hnext _, hinterlude⟩, hsignals⟩

theorem Level.isDown (h : Level s s') : s.isDown = s'.isDown := by
  obtain ⟨m, focus, waiting⟩ := s
  obtain ⟨m', _, waiting'⟩ := s'
  cases h.focus
  cases focus with
  | fail f => cases f <;> rfl
  | _ => rfl

theorem Interlude.isDown {turn : HostCode δ ν (Except Fault Unit × δ)} (h : Interlude turn s s') :
    s.isDown = false := by
  obtain ⟨m, focus, waiting⟩ := s
  obtain ⟨verdict, hfocus, -⟩ := h.focus
  cases hfocus
  rfl

theorem Interlude.ends {turn : HostCode δ ν (Except Fault Unit × δ)} (hturn : turn.Passive) (h : Interlude turn s s') :
    ∃ t, LeadsTo env s t ∧ Level t s' := by
  induction hturn generalizing s with
  | finish d =>
    obtain ⟨t, hstep, hlevel, -⟩ := h.over env
    exact ⟨t, .of_step hstep, hlevel⟩
  | act hsame hkeeps _ ih =>
    obtain ⟨t₁, hstep, hinterlude, -⟩ := h.goes env hsame hkeeps
    obtain ⟨t, hleads, hlevel⟩ := ih _ hinterlude
    exact ⟨t, .trans (.of_step hstep) hleads, hlevel⟩

/-! ### Runs of the two machines -/

theorem Attended.run (hpassive : env.debugging.Passive) (hnatives : env.Heedless) {fuel : Nat} {r : ρ} {n : Machine δ ν}
    (h : Attended s s') (hrun : State.run env fuel s = some (r, n)) :
    ∃ n', State.run env fuel s' = some (r, n') ∧ n.attire.Watching ∧ n.Resembles n' := by
  induction fuel generalizing s s' with
  | zero => cases hrun
  | succ fuel ih =>
    rcases h with hlevel | ⟨turn, hturn, hinterlude⟩
    · have hdown : s.isDown = false := isDown_of_run hrun
      have hdown' : s'.isDown = false := hlevel.isDown.symm.trans hdown
      rcases hlevel.step hpassive hnatives with ⟨t, t', hstep, hstep', hattended, -⟩ |
        ⟨r', m, m', hstep, hstep', hwatching, hresembles, -⟩
      · rw [run_of_inl hdown hstep] at hrun
        rw [run_of_inl hdown' hstep']
        exact ih hattended hrun
      · rw [run_of_inr hstep] at hrun
        cases hrun
        exact ⟨m', run_of_inr hstep' fuel, hwatching, hresembles⟩
    · obtain ⟨t, hstep, hattended, -⟩ := hinterlude.step env hturn
      rw [run_of_inl hinterlude.isDown hstep] at hrun
      obtain ⟨n', hrun', hend⟩ := ih hattended hrun
      exact ⟨n', run_add hrun' 1, hend⟩

theorem Attended.run_back (hpassive : env.debugging.Passive) (hnatives : env.Heedless) {fuel : Nat} {r : ρ}
    {n' : Machine δ ν} (h : Attended s s') (hrun : State.run env fuel s' = some (r, n')) :
    ∃ fuel' n, State.run env fuel' s = some (r, n) ∧ n.attire.Watching ∧ n.Resembles n' := by
  induction fuel generalizing s s' with
  | zero => cases hrun
  | succ fuel ih =>
    obtain ⟨t, ⟨k, hends⟩, hlevel⟩ : ∃ t, LeadsTo env s t ∧ Level t s' := by
      rcases h with hlevel | ⟨turn, hturn, hinterlude⟩
      · exact ⟨s, .refl s, hlevel⟩
      · exact hinterlude.ends hturn
    have hdown' : s'.isDown = false := isDown_of_run hrun
    have hdown : t.isDown = false := hlevel.isDown.trans hdown'
    rcases hlevel.step hpassive hnatives with ⟨u, u', hstep, hstep', hattended, -⟩ |
      ⟨r', m, m', hstep, hstep', hwatching, hresembles, -⟩
    · rw [run_of_inl hdown' hstep'] at hrun
      obtain ⟨fuel', n, hrun', hend⟩ := ih hattended hrun
      exact ⟨fuel' + 1 + k, n, ((hends.run _).trans (run_of_inl hdown hstep fuel')).trans hrun', hend⟩
    · rw [run_of_inr hstep'] at hrun
      cases hrun
      exact ⟨0 + 1 + k, m, (hends.run _).trans (run_of_inr hstep 0), hwatching, hresembles⟩

theorem Attended.paced (hpassive : env.debugging.Passive) (hnatives : env.Heedless) (h : Attended s s')
    {l : List Signal} (hl : Paced s'.focus.dispatches l) (fuel : Nat) :
    ∃ awaiting, Paced awaiting (l ++ trail env fuel s) ∧ ((State.run env fuel s).isSome = true → awaiting = false) := by
  induction fuel generalizing s s' l with
  | zero => exact ⟨_, (List.append_nil l).symm ▸ hl, nofun⟩
  | succ fuel ih =>
    have hgo : ∀ {t t'}, s.step env = .inl t → Attended t t' → Paced t'.focus.dispatches (l ++ s.signals t) →
        ∃ awaiting, Paced awaiting (l ++ trail env (fuel + 1) s) ∧
          ((State.run env (fuel + 1) s).isSome = true → awaiting = false) := by
      intro t t' hstep hattended hpaced
      obtain ⟨awaiting, htrail, hend⟩ := ih hattended hpaced
      refine ⟨awaiting, ?_, fun hrun => hend ?_⟩
      · rw [trail, hstep]
        exact List.append_assoc .. ▸ htrail
      · rw [State.run, hstep] at hrun
        split_ifs at hrun
        · cases hrun
        · exact hrun
    rcases h with hlevel | ⟨turn, hturn, hinterlude⟩
    · rcases hlevel.step hpassive hnatives with ⟨t, t', hstep, -, hattended, hpaced⟩ | ⟨r, m, m', hstep, -, -, -, hdone⟩
      · exact hgo hstep hattended (hpaced l hl)
      · refine ⟨false, ?_, fun _ => rfl⟩
        rw [trail, hstep, ← hdone]
        exact (List.append_nil l).symm ▸ hl
    · obtain ⟨t, hstep, hattended, hsignals⟩ := hinterlude.step env hturn
      refine hgo hstep hattended ?_
      rw [hsignals, List.append_nil]
      exact hl

end State

namespace Machine
variable {env : Environment δ ν} {m : Machine δ ν}

def outset (m : Machine δ ν) (host : HostCode δ ν ρ) : State δ ν ρ :=
  ⟨m, .host (host.bind fun r => .finish (.host r)), []⟩

/-- A debugger that only looks on changes nothing. Whatever the sections and the world, host code that has nothing to do
with debuggers, such as any calls and resumptions in turn, comes to its end with a debugger attached just when it does
without, if the natives have nothing to do with debuggers either. The results, failures and traces are the same, and so
are the executor, the world, the memory with its collector, the sections and what is suspended. On the way the debugger
has one turn before each instruction and one after each time it is told to pause, and no others. -/
theorem perform_with_debugger (hpassive : env.debugging.Passive) (hnatives : env.Heedless) (hnone : m.debugger = none)
    (hidle : m.ticking = false) (hpending : m.detachPending = false) (d : δ) {host : HostCode δ ν ρ}
    (hhost : HostCode.Heedless (fun _ => True) host) :
    (∀ fuel r n, (m.attach d).perform env fuel host = some (r, n) →
      ∃ n', m.perform env fuel host = some (r, n') ∧ n.debugger.isSome = true ∧ n.Resembles n') ∧
    (∀ fuel r n', m.perform env fuel host = some (r, n') →
      ∃ fuel' n, (m.attach d).perform env fuel' host = some (r, n) ∧ n.debugger.isSome = true ∧ n.Resembles n') ∧
    ∀ fuel, ∃ awaiting, Paced awaiting (((m.attach d).outset host).trail env fuel) ∧
      (((m.attach d).perform env fuel host).isSome = true → awaiting = false) := by
  have hattach : m.attach d = m.dressed (m.attach d).attire := by
    unfold attach
    rw [hnone]
    rfl
  have hattended : State.Attended ((m.attach d).outset host) (m.outset host) := by
    refine Or.inl ⟨⟨?_, ?_, ?_⟩, ⟨hnone, hidle⟩, ?_, rfl, rfl, hhost.bind fun r _ => .finish trivial, nofun⟩
    · unfold attach
      rw [hnone]
      rfl
    · unfold attach
      rw [hnone]
      exact hidle
    · unfold attach
      rw [hnone]
      exact hpending
    · change (m.attach d).Resembles m
      rw [hattach]
      exact m.resembles_dressed _
  refine ⟨fun fuel r n hrun => ?_, fun fuel r n' hrun => ?_, fun fuel => ?_⟩
  · obtain ⟨n', hrun', hwatching, hresembles⟩ := hattended.run hpassive hnatives hrun
    exact ⟨n', hrun', hwatching.debugger, hresembles⟩
  · obtain ⟨fuel', n, hrun', hwatching, hresembles⟩ := hattended.run_back hpassive hnatives hrun
    exact ⟨fuel', n, hrun', hwatching.debugger, hresembles⟩
  · exact hattended.paced hpassive hnatives .start fuel

end Machine

/-! ### A debugger that notes its turns -/

/-- A native that calls sections, and a debugger that notes each of its turns and has the instructions shown. -/
def Environment.noting : Environment MachineSession.Debugger MachineSession.Note :=
  { natives := #[⟨"call", .variadic, MachineSession.callSection⟩]
    debugging :=
      { tick := fun d => .act fun m => (.finish (.ok (), { d with turns := d.turns + 1 }), m.tell (.note (.log "turn")))
        traces := fun _ => true
        inline := fun _ => false } }

theorem Environment.passive_noting : noting.debugging.Passive where
  tick _ := .act (fun _ => ⟨rfl, rfl⟩) (fun m => ⟨rfl, rfl, rfl, m.breaks_tell _⟩) fun _ => .finish _
  inline _ := rfl

theorem MachineSession.heedless_callSection (vs : List Value) :
    HostCode.Heedless (fun _ => True) (callSection vs) := by
  cases vs with
  | nil => exact .finish trivial
  | cons target arguments =>
    unfold callSection
    dsimp only
    cases target.exact .uint64 with
    | error f => exact .finish trivial
    | ok index =>
      refine .enter _ fun o => ?_
      rcases o with failure | ⟨_ | ⟨first, rest⟩⟩ | _
      · exact .finish trivial
      · exact .finish trivial
      · have hdrop : HostCode.Heedless (fun _ => True) (drop rest) :=
          HostCode.heedless_state (f := fun m => ((), (m.exec (Exec.drop rest)).2)) fun _ _ => rfl
        exact hdrop.bind fun _ _ => .finish trivial
      · exact .finish trivial

theorem Environment.heedless_noting : noting.Heedless := by
  intro n hn vs
  obtain rfl := Array.mem_singleton.1 hn
  exact MachineSession.heedless_callSection vs

def delegating : Section :=
  { name? := some "main"
    code := (List.flatMap Instruction.encode
      [⟨.all, (0, ())⟩, ⟨.ldiU64, (1, ())⟩, ⟨.ldiU64, (1, ())⟩, ⟨.nat, (0, -1, ())⟩, ⟨.ret, (0, ())⟩]).toArray }

def dividing : Section :=
  { code := (List.flatMap Instruction.encode [⟨.all, (0, ())⟩, ⟨.ldiS32, (1, ())⟩, ⟨.ldiS32, (0, ())⟩, ⟨.idiv2, ()⟩,
      ⟨.ret, (0, ())⟩]).toArray }

def delegated : Machine MachineSession.Debugger MachineSession.Note :=
  (Machine.new {} {}).modifyCore fun c => { c with sections := (c.sections.add delegating).2.add dividing |>.2 }

/-- A call that fails twice, in the section and where the native was called, and a resumption that fails. -/
def delegate : HostCode MachineSession.Debugger MachineSession.Note (List (Except Failure Execution)) :=
  HostCode.runAll [.call 0 [], .resume]

def refusals : List (Except Failure Execution) :=
  [.error { fault := .divideByZero, trace := [⟨"main", 29, none⟩, ⟨"<anonymous>", 16, none⟩] },
    .error { fault := .notSuspended }]

set_option maxRecDepth 4000 in
theorem Machine.perform_with_debugger_delegated :
    Environment.noting.debugging.Passive ∧ Environment.noting.Heedless ∧
      HostCode.Heedless (fun _ => True) delegate ∧ ∃ fuel n n',
        delegated.perform .noting 26 delegate = some (refusals, n') ∧
        (delegated.attach {}).perform .noting fuel delegate = some (refusals, n) ∧ n.debugger.isSome = true ∧
        n.Resembles n' := by
  have hsame := perform_with_debugger Environment.passive_noting Environment.heedless_noting (m := delegated)
    rfl rfl rfl {} (HostCode.heedless_runAll [.call 0 [], .resume])
  have hrun : (delegated.perform .noting 26 delegate).map Prod.fst = some refusals := by cbv
  obtain ⟨⟨r, n'⟩, hperform, hr⟩ := Option.map_eq_some_iff.1 hrun
  cases hr
  obtain ⟨fuel, n, hattended, hsome, hresembles⟩ := hsame.2.1 26 _ n' hperform
  exact ⟨Environment.passive_noting, Environment.heedless_noting, HostCode.heedless_runAll _, fuel, n, n', hperform,
    hattended, hsome, hresembles⟩

/-! ### A native that asks for the debugger -/

/-- The native tells whether a debugger is attached. The debugger does nothing. -/
def Environment.curious : Environment MachineSession.Debugger MachineSession.Note :=
  { natives := #[⟨"has_debugger", .fixed 0, MachineSession.hasDebugger⟩]
    debugging := { tick := fun d => .finish (.ok (), d), traces := fun _ => false, inline := fun _ => false } }

def questioning : Section :=
  { results := 1
    code := (List.flatMap Instruction.encode [⟨.all, (0, ())⟩, ⟨.nat, (0, 0, ())⟩, ⟨.ret, (1, ())⟩]).toArray }

def questioned : Machine MachineSession.Debugger MachineSession.Note :=
  (Machine.new {} {}).modifyCore fun c => { c with sections := (c.sections.add questioning).2 }

/-- The same program on the same machine returns one thing with the debugger and another without. -/
theorem Machine.debugger_noticed :
    Environment.curious.debugging.Passive ∧
      ((questioned.attach {}).perform .curious 20 (Program.run (.call 0 []))).map Prod.fst =
        some (.ok (.finished [.bool true])) ∧
      (questioned.perform .curious 20 (Program.run (.call 0 []))).map Prod.fst = some (.ok (.finished [.bool false])) :=
  ⟨⟨fun d => .finish d, fun _ => rfl⟩, by cbv, by cbv⟩

end ScriptVm
