import ScriptVm.Proofs.Alarms
import ScriptVm.Proofs.Lines
import ScriptVm.Proofs.Roll
import ScriptVm.Proofs.Strides

/-! Traces of errors. Where no debugger is attached and natives call no sections, an error that an instruction raises
reaches the host with the trace that was taken where it was raised. The trace has an entry for each section on the
roll, and those of the sections that were called in the call of the host that is in progress tell where they stand. -/

namespace ScriptVm
variable {δ ν ρ : Type}

/-! ### The roll -/

/-- The roll tells the sections of the places, and where execution stands if an instruction has just been read. -/
structure State.Enrolled (l : Roll) (s : State δ ν ρ) : Prop where
  fits : l.Fits s.machine.core.executor
  halts : s.Halted → l.Halts s.machine.core.executor.pc

namespace Roll
variable {env : Environment δ ν} {l : Roll} {m : Machine δ ν} {waiting : List (Waiting δ ν ρ)} {s s' : State δ ν ρ}

theorem aimed_of_focus (l : Roll) (h : s.focus ≠ .dispatch) : l.aimed s = l := by
  unfold aimed
  split
  · rename_i hfocus
    exact absurd hfocus h
  · rfl

theorem Fits.cursor_readAt {e : Executor} (h : l.Fits e) {a : ActiveSection}
    (ha : a ∈ (l.readAt e.pc.position).active.head?) : (⟨a.home, a.address⟩ : Cursor) = e.pc := by
  have hhome := (h.readAt e.pc.position).home ha
  have haddress : a.address = e.pc.position := by
    obtain ⟨_ | ⟨b, active⟩, earlier⟩ := l <;> cases ha
    rfl
  rw [hhome, haddress]

theorem Fits.reads {e : Executor} (h : l.Fits e) (haligned : e.pc.Aligned) {i : Instruction} {next : Cursor}
    (hread : Cursor.readInstruction e.pc = .ok i next) {a : ActiveSection}
    (ha : a ∈ (l.readAt e.pc.position).active.head?) : a.Reads i next := by
  have hcursor := h.cursor_readAt ha
  exact ⟨hcursor.symm ▸ haligned, hcursor.symm ▸ hread⟩

theorem Fits.halts_of_unread {e : Executor} (h : l.Fits e) (haligned : e.pc.Aligned) {pc pc' : Cursor}
    {error : CodeError} (hread : Cursor.readInstruction e.pc = .error error pc') :
    (l.readAt e.pc.position).Halts pc := by
  intro a ha hlt
  have hcursor := h.cursor_readAt ha
  have hend := (haligned.unread hread).2.2
  rw [← hcursor] at hend
  exact absurd hend hlt.ne

theorem Fits.enrolled (h : l.Fits m.core.executor)
    (hcallers : s'.machine.core.executor.callers = m.core.executor.callers)
    (hhome : s'.machine.core.executor.pc.home = m.core.executor.pc.home) (hwaiting : s'.waiting = waiting)
    (hhalts : s'.Halted → (l.readAt m.core.executor.pc.position).Halts s'.machine.core.executor.pc) :
    s'.Enrolled (l.follow ⟨m, .dispatch, waiting⟩ s') := by
  rw [follow_quiet (s := ⟨m, .dispatch, waiting⟩) h hcallers (Nat.le_of_eq (congrArg List.length hwaiting))]
  exact ⟨(h.readAt _).move hhome hcallers, hhalts⟩

theorem Fits.enrolled_call (h : l.Fits m.core.executor) (haligned : m.core.executor.pc.Aligned)
    (hwaiting : waiting ≠ []) {i : Instruction} {next : Cursor}
    (hread : Cursor.readInstruction m.core.executor.pc = .ok i next) (hcall : i.op = .call)
    {flow : Flow} {c : Core} (hexecute : i.execute env.signature? (m.core.withPc next) = .ok flow c) :
    flow = .entered ∧ State.Enrolled (l.follow ⟨m, .dispatch, waiting⟩
      ⟨{ m with core := c }.openRun, .tick, .instruction :: waiting⟩)
      ⟨{ m with core := c }.openRun, .tick, .instruction :: waiting⟩ := by
  have hbusy : ¬ waiting.isEmpty = true := by simpa using hwaiting
  have hnext := (Cursor.lt_of_readInstruction hread).1
  have hreads : ∀ a ∈ (l.readAt m.core.executor.pc.position).active.head?, a.Reads i next :=
    fun a ha => h.reads haligned hread ha
  obtain ⟨op, operands⟩ := i
  cases hcall
  rcases Exec.execute_call_cases env.signature? operands.1 operands.2.1 (m.core.withPc next) with
    ⟨home, -, hentered⟩ | ⟨g, vs, hfailed⟩
  · cases hentered.symm.trans hexecute
    rw [follow_enters (s := ⟨m, .dispatch, waiting⟩) l rfl, if_neg hbusy]
    exact ⟨rfl, (h.readAt _).enter (fun a ha => ⟨_, hreads a ha, rfl⟩) hnext rfl rfl, nofun⟩
  · cases hfailed.symm.trans hexecute

theorem Fits.enrolled_return (h : l.Fits m.core.executor) {i : Instruction} {next : Cursor} (hret : i.op = .ret)
    {c : Core} (hexecute : i.execute env.signature? (m.core.withPc next) = .ok .returned c) :
    State.Enrolled (l.follow ⟨m, .dispatch, waiting⟩ ⟨{ m with core := c }, .leave (.ok false), waiting⟩)
      ⟨{ m with core := c }, .leave (.ok false), waiting⟩ := by
  obtain ⟨op, operands⟩ := i
  cases hret
  have hleave := Exec.bearings_leaveSection operands.1.toNat (m.core.withPc next)
  rw [Instruction.execute_ret_eq_ok hexecute] at hleave
  obtain ⟨base, pc, hback, hbearings⟩ := hleave
  have hpc : c.executor.pc = pc := congrArg Bearings.pc hbearings
  have hcallers : c.executor.callers = m.core.executor.callers.pop := congrArg Bearings.callers hbearings
  change m.core.executor.callers.back? = some pc at hback
  have hsome : m.core.executor.callers ≠ #[] := by
    intro hnone
    rw [hnone] at hback
    cases hback
  have hleft : (l.readAt m.core.executor.pc.position).leave.Fits c.executor :=
    (h.readAt _).leave (hpc.symm ▸ hback) hcallers
  have hfollow : l.follow ⟨m, .dispatch, waiting⟩ ⟨{ m with core := c }, .leave (.ok false), waiting⟩ =
      (l.readAt m.core.executor.pc.position).leave := follow_leaves hleft hsome hcallers
  rw [hfollow]
  exact ⟨hleft, nofun⟩

theorem Fits.enrolled_dispatch (h : l.Fits m.core.executor) (haligned : m.core.executor.pc.Aligned)
    (hwaiting : waiting ≠ []) :
    (State.dispatch env m waiting).Enrolled (l.follow ⟨m, .dispatch, waiting⟩ (State.dispatch env m waiting)) := by
  unfold State.dispatch
  cases hread : Cursor.readInstruction m.core.executor.pc with
  | error e pc =>
    have hpc := (haligned.unread hread).2.1
    rw [Machine.exec_of_error (Exec.step_of_unread hread)]
    exact h.enrolled rfl (congrArg Cursor.home hpc) rfl fun _ => h.halts_of_unread haligned hread
  | ok i next =>
    have hnext := (Cursor.lt_of_readInstruction hread).1
    have hstands : ∀ {pc : Cursor}, pc = next → (l.readAt m.core.executor.pc.position).Halts pc :=
      fun hpc a ha _ => ⟨i, hpc ▸ h.reads haligned hread ha⟩
    have hstep : Exec.step env.signature? m.core = _ := Exec.step_of_read hread
    cases hexecute : i.execute env.signature? (m.core.withPc next) with
    | error f c =>
      have hpc : c.executor.pc = next := Instruction.pc_execute_error hexecute
      rw [Machine.exec_of_error (hstep.trans hexecute)]
      exact h.enrolled (i.callers_execute_error hexecute).1 ((congrArg Cursor.home hpc).trans hnext) rfl fun _ =>
        hstands hpc
    | ok flow c =>
      rw [Machine.exec_of_ok (hstep.trans hexecute)]
      by_cases hcall : i.op = .call
      · obtain ⟨rfl, henrolled⟩ := h.enrolled_call haligned hwaiting hread hcall hexecute
        exact henrolled
      by_cases hret : i.op = .ret
      · obtain rfl := i.flow_of_ret hret hexecute
        exact h.enrolled_return hret hexecute
      have hcallers := i.callers_execute env.signature? (m.core.withPc next) hcall hret
      have hshift := Instruction.shift_execute env.signature? i (m.core.withPc next)
      rw [hexecute] at hcallers hshift
      have hhome : c.executor.pc.home = m.core.executor.pc.home := (hshift.home_pc hcall hret).trans hnext
      -- it matters where execution stands before a native and after a `sus`, which are no branches
      have hbehind : i.target? = none → (l.readAt m.core.executor.pc.position).Halts c.executor.pc :=
        fun htarget => hstands (hshift.pc_eq htarget hcall hret)
      by_cases hsus : i.op = .sus
      · obtain ⟨op, operands⟩ := i
        cases hsus
        obtain ⟨rfl, -, -⟩ := Instruction.execute_sus_eq_ok hexecute
        exact h.enrolled hcallers.1 hhome rfl fun _ => hbehind rfl
      rcases i.flow_of_plain hcall hret hsus hexecute with rfl | ⟨index, arguments, rfl⟩
      · exact h.enrolled hcallers.1 hhome rfl nofun
      · have hnative := Instruction.op_of_native hexecute
        have htarget : i.target? = none := by
          obtain ⟨op, operands⟩ := i
          cases hnative
          rfl
        dsimp only
        cases env.native? index with
        | none => exact h.enrolled hcallers.1 hhome rfl fun _ => hbehind htarget
        | some native => exact h.enrolled hcallers.1 hhome rfl fun _ => hbehind htarget

end Roll

namespace State
variable {env : Environment δ ν} {l : Roll} {s s' : State δ ν ρ}

/-- The roll follows every transition. -/
theorem Enrolled.stride (h : s.Enrolled l) (haligned : s.machine.core.executor.pc.Aligned) (hstride : Stride env s s') :
    s'.Enrolled (l.follow s s') := by
  cases hstride with
  | stays hsame hwaiting hfocus hhalted =>
    rw [Roll.follow_quiet h.fits hsame.callers hwaiting, l.aimed_of_focus hfocus]
    exact ⟨h.fits.same hsame, fun hs => hsame.pc.symm ▸ h.halts (hhalted hs)⟩
  | forgets hcallers hhalted =>
    rw [Roll.follow_forgets l s hcallers]
    exact ⟨Roll.fits_empty hcallers, fun hs => absurd hs hhalted⟩
  | begins home hidle hfocus hpc hcallers htick =>
    rw [Roll.follow_enters l hcallers, if_pos (List.isEmpty_iff.2 hidle), l.aimed_of_focus hfocus, hpc]
    exact ⟨h.fits.begin hpc hcallers, fun hs => absurd hs (not_halted_of_tick htick)⟩
  | resumes hsame hwaiting hfocus htick =>
    rw [Roll.follow_resumes h.fits hsame.callers hwaiting, l.aimed_of_focus hfocus]
    exact ⟨(h.fits.same hsame).resume, fun hs => absurd hs (not_halted_of_tick htick)⟩
  | dispatches hfocus hwaiting hs' =>
    obtain ⟨m, focus, waiting⟩ := s
    cases hfocus
    rw [hs']
    exact h.fits.enrolled_dispatch haligned hwaiting

end State

/-! ### Runs -/

/-- The states that a new machine gets into, and the roll. There are no debuggers, natives have no sections called, and
what host code does on its own is considerate. -/
inductive Unaided (env : Environment δ ν) : Roll → State δ ν ρ → Prop where
  | start (config : Config) (world : World) (host : HostCode δ ν ρ) :
      Unaided env {} ((Machine.new config world).outset host)
  | goes {l : Roll} {s s' : State δ ν ρ} : Unaided env l s → s.step env = .inl s' →
      (s.acts = true → s.Considerate s') →
      (∀ entry next, s.focus = .host (.enter entry next) → s.waiting = []) → Unaided env (l.follow s s') s'
  /-- The host comes to its end and begins anew. -/
  | again {l : Roll} {s : State δ ν ρ} {r : ρ} {m : Machine δ ν} (host : HostCode δ ν ρ) : Unaided env l s →
      s.step env = .inr (r, m) → Unaided env l (m.outset host)

/-- Where an error is reported, the entry tells the section, where the instruction ends that is executed in it, and the
line of that instruction. -/
structure TraceEntry.Tells (e : TraceEntry) (a : ActiveSection) (i : Instruction) : Prop where
  name : e.name = a.home.name
  pc : ∃ next, Cursor.readInstruction ⟨a.home, a.address⟩ = .ok i next ∧ e.pc = next.position
  line : ∀ name? calls, a.home.WrittenBy name? calls →
    e.line = Assembler.Transcript.lineAt? (Assembler.transcript { name? } calls) a.address

theorem ActiveSection.Reads.tells {a : ActiveSection} {i : Instruction} {next : Cursor} (h : a.Reads i next) :
    next.traceEntry.Tells a i := by
  have hhome : next.home = a.home := (Cursor.lt_of_readInstruction h.read).1
  refine ⟨congrArg Section.name hhome, ⟨next, h.read, rfl⟩, fun name? calls hwritten => ?_⟩
  unfold Cursor.traceEntry
  rw [hhome]
  exact hwritten.lineAt?_end h.aligned h.read

/-- A program counter that rests is in a section without code. -/
theorem assembled_host (n : Nat) : (Section.host n).Assembled :=
  ⟨{ name? := some "<host>" }, 0, some 0, { name? := some "<host>" }, .start _, rfl, by decide, rfl⟩

/-- Only assembled sections are ever entered, and execution stands between their instructions. -/
theorem enclosed_assembled : Enclosed fun pc => pc.Aligned ∧ pc.home.Assembled where
  read h hread := ⟨Cursor.enclosed_aligned.read h.1 hread, (Cursor.lt_of_readInstruction hread).1.symm ▸ h.2⟩
  unread h hread := (h.1.unread hread).2.1.symm ▸ h
  seek h hread htarget hseek := by
    refine ⟨Cursor.enclosed_aligned.seek h.1 hread htarget hseek, ?_⟩
    unfold Cursor.seek at hseek
    split_ifs at hseek
    cases hseek
    exact (Cursor.lt_of_readInstruction hread).1.symm ▸ h.2
  rest n := ⟨Cursor.enclosed_aligned.rest n, assembled_host n⟩

namespace Unaided
variable {env : Environment δ ν} {l : Roll} {s : State δ ν ρ}

theorem course (h : Unaided env l s) : Course Section.Assembled env s := by
  induction h with
  | start config world host => exact .start config world _
  | @goes l s s' _ hstep hacts _ ih =>
    cases hact : s.acts with
    | false => exact ih.step hact hstep
    | true =>
      have hspares := (hacts hact).spares
      obtain ⟨m, focus, waiting⟩ := s
      cases focus with
      | host task =>
        cases task with
        | act f =>
          cases hstep
          exact ih.act hspares
        | enter entry next => cases hact
        | finish verdict => cases hact
      | _ => cases hact
  | again host _ hstep ih => exact ih.again _ hstep

theorem within (h : Unaided env l s) : s.machine.core.bearings.Within fun pc => pc.Aligned ∧ pc.home.Assembled :=
  h.course.within enclosed_assembled fun _ hhome => ⟨hhome.aligned, hhome⟩

theorem keeps (h : Unaided env l s) : s.Driven ∧ s.machine.Unwatched ∧ s.Enrolled l := by
  induction h with
  | start config world host =>
    refine ⟨.idle _ rfl rfl (HostCode.comesTo_bind host fun r => .finish ⟨r, rfl⟩), ⟨rfl, rfl⟩, ?_, nofun⟩
    exact Roll.fits_empty rfl
  | goes hrun hstep hacts hnative ih =>
    obtain ⟨hdriven, hm, henrolled⟩ := ih
    obtain ⟨hdriven', hstride⟩ := hdriven.stride hm hstep hacts hnative
    exact ⟨hdriven', hdriven.unwatched hm hstep hacts, henrolled.stride hrun.within.pc.1 hstride⟩
  | again host _ hstep ih =>
    obtain ⟨-, hm, henrolled⟩ := ih
    have hsame := Run.finish_inr hstep
    refine ⟨.idle _ rfl rfl (HostCode.comesTo_bind host fun r => .finish ⟨r, rfl⟩), hsame ▸ hm, ?_, nofun⟩
    exact hsame ▸ henrolled.fits

theorem assembled (h : Unaided env l s) {a : ActiveSection} (ha : a ∈ l.all) : a.home.Assembled := by
  have hwithin := h.within
  have hmem : a.home ∈ s.machine.core.executor.places.dropLast.map (·.home) := by
    rw [← h.keeps.2.2.fits.homes]
    exact List.mem_map_of_mem ha
  obtain ⟨pc, hpc, hhome⟩ := List.mem_map.1 hmem
  rw [← hhome]
  rcases List.mem_cons.1 (List.mem_of_mem_dropLast hpc) with rfl | hcaller
  · exact hwithin.pc.2
  · exact (hwithin.callers pc (Array.mem_toList_iff.1 (List.mem_reverse.1 hcaller))).2

end Unaided

/-! ### The trace -/

/-- A failure passes from section to section and reaches the host as it is. -/
theorem Waiting.Chain.leadsTo {next : Except Failure Execution → Task δ ν ρ} {waiting : List (Waiting δ ν ρ)}
    (h : Waiting.Chain next waiting) (env : Environment δ ν) (m : Machine δ ν) (failure : Failure) :
    ∃ m', State.LeadsTo env ⟨m, .leave (.error failure), waiting⟩ ⟨m', .host (next (.error failure)), []⟩ := by
  induction h generalizing m with
  | host hgives =>
    obtain ⟨m', outcome, hleft, -, houtcome⟩ := State.leave_gives m hgives (.error failure)
    rw [houtcome failure rfl] at hleft
    exact ⟨m', .of_step (congrArg Sum.inl hleft)⟩
  | instruction _ ih =>
    obtain ⟨m', hleads⟩ := ih m.closeRun
    exact ⟨m', .trans (.of_step rfl) hleads⟩

namespace Roll
variable {l : Roll} {c : Core}

theorem Fits.names (h : l.Fits c.executor) : c.trace.map (·.name) = l.all.reverse.map (·.home.name) := by
  have hhomes := congrArg (fun homes => (homes.map Section.name).reverse) h.homes
  simp only [List.map_map] at hhomes
  rw [c.trace_eq, List.map_map, List.map_reverse, List.map_reverse]
  exact hhomes.symm

theorem Fits.length_places {e : Executor} (h : l.Fits e) :
    e.places.dropLast.length = l.active.length + l.earlier.length := by
  have hlengths := congrArg List.length h.homes
  simpa [all] using hlengths.symm

theorem Fits.stands {e : Executor} (h : l.Fits e) (hhalts : l.Halts e.pc)
    (hread : ∀ a ∈ l.active.head?, a.address < a.home.size) {j : Nat} {a : ActiveSection} (ha : l.active[j]? = some a) :
    ∃ pc i, e.places.dropLast[j]? = some pc ∧ a.Reads i pc ∧ (j ≠ 0 → i.op = .call) := by
  obtain ⟨hj, -⟩ := List.getElem?_eq_some_iff.1 ha
  have hlength := h.length_places
  obtain ⟨pc, hpc⟩ : ∃ pc, e.places.dropLast[j]? = some pc := ⟨_, List.getElem?_eq_getElem (by omega)⟩
  have hplace : e.places[j]? = some pc := by
    rwa [List.getElem?_dropLast, if_pos (by rw [← List.length_dropLast]; omega)] at hpc
  cases j with
  | zero =>
    cases hplace
    have hhead : a ∈ l.active.head? := by rwa [List.head?_eq_getElem?]
    obtain ⟨i, hi⟩ := hhalts a hhead (hread a hhead)
    exact ⟨_, i, hpc, hi, fun hzero => absurd rfl hzero⟩
  | succ j =>
    rw [← List.getElem?_tail] at ha
    have hwait : (e.places.tail.take l.active.tail.length)[j]? = some pc := by
      rw [List.getElem?_take_of_lt (by rw [List.length_tail]; omega), List.getElem?_tail]
      exact hplace
    obtain ⟨hactive, rfl⟩ := List.getElem?_eq_some_iff.1 ha
    obtain ⟨hcallers, rfl⟩ := List.getElem?_eq_some_iff.1 hwait
    obtain ⟨i, hi, hcall⟩ := h.waits.get hactive hcallers
    exact ⟨_, i, hpc, hi, fun _ => hcall⟩

/-- Each section of the call in progress has its entry, and all but the innermost one execute a call. -/
theorem Fits.tells (h : l.Fits c.executor) (hhalts : l.Halts c.executor.pc)
    (hread : ∀ a ∈ l.active.head?, a.address < a.home.size) {k : Nat} {a : ActiveSection}
    (ha : l.active.reverse[k]? = some a) :
    ∃ e i, c.trace[l.earlier.length + k]? = some e ∧ e.Tells a i ∧ (k + 1 < l.active.length → i.op = .call) := by
  have hk : k < l.active.length := by
    obtain ⟨hk, -⟩ := List.getElem?_eq_some_iff.1 ha
    rwa [List.length_reverse] at hk
  have hlength := h.length_places
  -- the entries of a trace are in the other order
  have hentry : c.trace[l.earlier.length + k]? =
      (c.executor.places.dropLast[l.active.length - 1 - k]?).map Cursor.traceEntry := by
    rw [c.trace_eq, List.getElem?_map, List.getElem?_reverse (by omega), hlength]
    congr 2
    omega
  rw [List.getElem?_reverse hk] at ha
  obtain ⟨pc, i, hpc, hreads, hcall⟩ := h.stands hhalts hread ha
  rw [hpc] at hentry
  exact ⟨_, i, hentry, hreads.tells, fun hlt => hcall (by omega)⟩

end Roll

/-- An error that an instruction raises reaches the host with the trace that was taken there, however many sections it
passes. The trace has an entry for each section on the roll, the outermost first. Those of the call in progress tell
which section it is, where the instruction ends that it is executing, which is a call in all but the innermost one, and
the line of the latest statement that was noted at or before that instruction. If there were no sections on the roll
when the host's call began, these are all the entries. -/
theorem Unaided.trace_of_error {env : Environment δ ν} {l : Roll} {s : State δ ν ρ} {f : Fault} (h : Unaided env l s)
    (hfault : s.focus = .fail f) (hcrash : f ≠ .crash) (hread : ∀ a ∈ l.active.head?, a.address < a.home.size) :
    ∃ next failure m, Waiting.Chain next s.waiting ∧
      State.LeadsTo env s ⟨m, .host (next (.error failure)), []⟩ ∧ failure.fault = f ∧
      failure.trace.length = s.machine.core.executor.depth ∧
      failure.trace.map (·.name) = (l.active ++ l.earlier).reverse.map (·.home.name) ∧
      ∀ k a, l.active.reverse[k]? = some a → a.home.Assembled ∧
        ∃ e i, failure.trace[l.earlier.length + k]? = some e ∧ e.Tells a i ∧ (k + 1 < l.active.length → i.op = .call) := by
  obtain ⟨hdriven, hm, henrolled⟩ := h.keeps
  obtain ⟨m, focus, waiting⟩ := s
  cases hfault
  cases hdriven with
  | idle task _ hfocus _ => cases hfocus
  | busy next hchain _ _ =>
    obtain ⟨m', hleads⟩ := hchain.leadsTo env m (m.traced f)
    have hraised : State.step env ⟨m, .fail f, waiting⟩ = .inl ⟨m, .leave (.error (m.traced f)), waiting⟩ :=
      congrArg Sum.inl (State.fail_unwatched hm hcrash)
    have hnames := henrolled.fits.names
    have hlength := congrArg List.length hnames
    rw [List.length_map, List.length_map, List.length_reverse, henrolled.fits.length] at hlength
    refine ⟨next, m.traced f, m', hchain, .trans (.of_step hraised) hleads, rfl,
      hlength, hnames, fun k a ha => ?_⟩
    have hmem : a ∈ l.active := List.mem_reverse.1 (List.mem_of_getElem? ha)
    exact ⟨h.assembled (List.mem_append_left _ hmem), henrolled.fits.tells (henrolled.halts trivial) hread ha⟩

/-! ### Runs on fixed sections -/

open Assembler

/-- Whether host code for whose sake somebody else runs has a section run. -/
def State.entersWithin : State δ ν ρ → Bool
  | ⟨_, .host (.enter ..), _ :: _⟩ => true
  | _ => false

/-- The roll and the state after so many transitions, if host code does nothing in them and natives have no sections
called. -/
def Roll.through (env : Environment δ ν) (n : Nat) (l : Roll) (s : State δ ν ρ) : Option (Roll × State δ ν ρ) :=
  walk (State.nextNoted? env (fun s _ => !s.acts && !s.entersWithin) follow) n (l, s)

theorem Unaided.through {env : Environment δ ν} {l l' : Roll} {s s' : State δ ν ρ} (h : Unaided env l s) {n : Nat}
    (hs : Roll.through env n l s = some (l', s')) : Unaided env l' s' := by
  refine walk_induction (P := fun r => Unaided env r.1 r.2) (fun r r' hr hnext => ?_) h hs
  obtain ⟨t, hstep, hallowed, rfl⟩ := State.nextNoted?_eq_some.1 hnext
  simp only [Bool.and_eq_true, Bool.not_eq_true'] at hallowed
  refine hr.goes hstep (fun hact => absurd hact (by simp [hallowed.1])) fun entry next hfocus => ?_
  obtain ⟨l, m, focus, waiting⟩ := r
  cases hfocus
  cases waiting with
  | nil => rfl
  | cons w waiting => cases hallowed.2

theorem TraceEntry.Tells.eq {e : TraceEntry} {a : ActiveSection} {i j : Instruction} {next : Cursor}
    {name? : Option String} {calls : List Call} (h : e.Tells a i)
    (hread : Cursor.readInstruction ⟨a.home, a.address⟩ = .ok j next) (hwritten : a.home.WrittenBy name? calls) :
    e = ⟨a.home.name, next.position, Transcript.lineAt? (transcript { name? } calls) a.address⟩ := by
  obtain ⟨hname, ⟨next', hread', hpc⟩, hline⟩ := h
  obtain ⟨name, pc, line⟩ := e
  cases hread.symm.trans hread'
  cases hname
  cases hpc
  cases hline name? calls hwritten
  rfl

theorem SectionTable.of_get_loaded {sections : List Section} {t : SectionTable} {home : Section} {index : UInt32}
    (h : (sections.foldl (fun t s => (t.add s).2) t).get index = .ok home) :
    t.get index = .ok home ∨ ∃ s ∈ sections, home = { s with id := home.id } := by
  induction sections generalizing t with
  | nil => exact .inl h
  | cons s sections ih =>
    rcases ih h with hbefore | ⟨s', hs', hhome⟩
    · rcases of_get_add hbefore with hget | rfl
      · exact .inl hget
      · exact .inr ⟨s, List.mem_cons_self, rfl⟩
    · exact .inr ⟨s', List.mem_cons_of_mem s hs', hhome⟩

def Machine.withSections (sections : List Section) : Machine Unit Unit :=
  { Machine.new {} {} with core := { (Machine.new {} {} : Machine Unit Unit).core with
    sections := sections.foldl (fun t s => (t.add s).2) {} } }

theorem unaided_withSections {sections : List Section}
    (hassembled : ∀ s ∈ sections, ∀ id, Section.Assembled { s with id }) (host : HostCode Unit Unit ρ) :
    Unaided .bare {} ((Machine.withSections sections).outset host) := by
  have hstart : Unaided .bare {} (Machine.outset (.new {} {}) (.act fun _ => (host, Machine.withSections sections))) :=
    .start {} {} _
  refine hstart.goes rfl
    (fun _ => ⟨⟨.inl ⟨rfl, rfl⟩, fun index home hhome => ?_⟩, fun _ => ⟨rfl, rfl⟩, rfl, rfl, rfl, rfl⟩)
    nofun
  rcases SectionTable.of_get_loaded hhome with hnone | ⟨s, hs, hsame⟩
  · cases hnone
  · rw [hsame]
    exact hassembled s hs _

def Transcript.calling : List Call :=
  [.statement 3, .emit ⟨.all, (0, ())⟩, .emit ⟨.call, (1, 0, ())⟩, .emit ⟨.ret, (0, ())⟩]

def Transcript.faulty : List Call :=
  [.emit ⟨.all, (0, ())⟩, .statement 12, .load (.int 1), .load (.int 0), .emit ⟨.idiv2, ()⟩, .emit ⟨.ret, (0, ())⟩]

def calling : Section :=
  { code := (List.flatMap Instruction.encode [⟨.all, (0, ())⟩, ⟨.call, (1, 0, ())⟩, ⟨.ret, (0, ())⟩]).toArray
    name? := some "calling"
    symbols? := some ⟨#[(0, 3)]⟩ }

def faulty : Section :=
  { code := (List.flatMap Instruction.encode [⟨.all, (0, ())⟩, ⟨.ldiS32, (1, ())⟩, ⟨.ldiS32, (0, ())⟩, ⟨.idiv2, ()⟩,
      ⟨.ret, (0, ())⟩]).toArray
    name? := some "faulty"
    symbols? := some ⟨#[(5, 12)]⟩ }

theorem writtenBy_calling (id : SectionId) :
    Section.WrittenBy { calling with id } (some "calling") Transcript.calling :=
  ⟨by decide, ⟨0, some 0, calling, by decide, rfl⟩, show calling.size < 2 ^ 31 by decide⟩

theorem writtenBy_faulty (id : SectionId) :
    Section.WrittenBy { faulty with id } (some "faulty") Transcript.faulty :=
  ⟨by decide, ⟨0, some 0, faulty, by decide, rfl⟩, show faulty.size < 2 ^ 31 by decide⟩

def divided : State Unit Unit (Except Failure Execution) :=
  ⟨((Roll.through .bare 13 {} ((Machine.withSections [calling, faulty]).outset (Program.run (.call 0 [])))).map
      (·.2.machine)).getD (.new {} {}),
    .fail .divideByZero, [.instruction, .caller 0 fun r => .finish (.host r)]⟩

def dividedRoll : Roll :=
  { active := [⟨{ faulty with id := .loaded 2 }, 15⟩, ⟨{ calling with id := .loaded 1 }, 5⟩] }

theorem unaided_divided : Unaided .bare dividedRoll divided := by
  have hassembled : ∀ s ∈ [calling, faulty], ∀ id, Section.Assembled { s with id } := by
    rintro s hs id
    rcases List.mem_pair.1 hs with rfl | rfl
    · exact Section.assembled_iff.2 ⟨_, _, writtenBy_calling id⟩
    · exact Section.assembled_iff.2 ⟨_, _, writtenBy_faulty id⟩
  exact (unaided_withSections hassembled (Program.run (.call 0 []))).through (n := 13) (by cbv)

theorem trace_of_error_divided :
    Unaided .bare dividedRoll divided ∧ (∀ a ∈ dividedRoll.active.head?, a.address < a.home.size) ∧
      ∃ failure m, State.LeadsTo .bare divided ⟨m, .host (.finish (.host (.error failure))), []⟩ ∧
        failure = { fault := .divideByZero, trace := [⟨"calling", 11, some 3⟩, ⟨"faulty", 16, some 12⟩] } := by
  have hread : ∀ a ∈ dividedRoll.active.head?, a.address < a.home.size := by
    rintro a ⟨⟩
    decide
  obtain ⟨next, failure, m, hchain, hleads, hfault, hlength, -, htells⟩ :=
    unaided_divided.trace_of_error rfl nofun hread
  have hdepth : failure.trace.length = 2 := hlength.trans (by cbv)
  obtain ⟨outer, _, houter, hcalling, -⟩ := (htells 0 ⟨{ calling with id := .loaded 1 }, 5⟩ rfl).2
  obtain ⟨inner, _, hinner, hfaulty, -⟩ := (htells 1 ⟨{ faulty with id := .loaded 2 }, 15⟩ rfl).2
  have hcall : Cursor.readInstruction ⟨{ calling with id := .loaded 1 }, 5⟩ =
      .ok ⟨.call, (1, 0, ())⟩ ⟨{ calling with id := .loaded 1 }, 11⟩ := rfl
  have hdivide : Cursor.readInstruction ⟨{ faulty with id := .loaded 2 }, 15⟩ =
      .ok ⟨.idiv2, ()⟩ ⟨{ faulty with id := .loaded 2 }, 16⟩ := rfl
  obtain rfl := hcalling.eq hcall (writtenBy_calling _)
  obtain rfl := hfaulty.eq hdivide (writtenBy_faulty _)
  have htrace : failure.trace = [⟨"calling", 11, some 3⟩, ⟨"faulty", 16, some 12⟩] := by
    obtain ⟨fault, _ | ⟨first, _ | ⟨second, _ | ⟨third, rest⟩⟩⟩⟩ := failure <;> cases hdepth
    cases houter
    cases hinner
    rfl
  refine ⟨unaided_divided, hread, failure, m, ?_, ?_⟩
  · cases hchain with
    | instruction hchain =>
      cases hchain with
      | host hgives =>
        cases hgives
        exact hleads
  · obtain ⟨fault, trace⟩ := failure
    cases hfault
    cases htrace
    rfl

def dud (name : String) : Section :=
  { code := (List.flatMap Instruction.encode [⟨.all, (0, ())⟩, ⟨.eof, ()⟩]).toArray, name? := some name }

theorem assembled_dud (name : String) (id : SectionId) : Section.Assembled { dud name with id } :=
  Section.assembled_iff.2 ⟨some name, [.emit ⟨.all, (0, ())⟩, .emit ⟨.eof, ()⟩], by decide,
    ⟨0, some 0, dud name, rfl, rfl⟩, show (6 : Nat) < 2 ^ 31 by decide⟩

def Focus.fault? : Focus δ ν ρ → Option Fault
  | .fail f => some f
  | _ => none

theorem Focus.eq_fail {focus : Focus δ ν ρ} {f : Fault} (h : focus.fault? = some f) : focus = .fail f := by
  cases focus with
  | fail g =>
    cases h
    rfl
  | _ => cases h

/-- The second section is called by the host. The first one failed when the host executed it. -/
def staleRoll : Roll :=
  { active := [⟨{ dud "second" with id := .loaded 2 }, 5⟩], earlier := [⟨{ dud "first" with id := .loaded 1 }, 5⟩] }

/-- Where the second section fails it is the only one of the host's call, but the trace has an entry before its own. -/
theorem trace_of_error_stale :
    (∃ s, Unaided (ρ := List (Except Failure Execution)) .bare staleRoll s ∧ s.focus = .fail .endOfUnit ∧
      s.machine.core.trace.length ≠ staleRoll.active.length) ∧
    ((Machine.withSections [dud "first", dud "second"]).perform .bare 16
        (HostCode.runAll [.execute 0 false, .call 1 []])).map (·.1) = some
      [.error { fault := .endOfUnit, trace := [⟨"first", 6, none⟩] },
        .error { fault := .endOfUnit, trace := [⟨"first", 6, none⟩, ⟨"second", 6, none⟩] }] := by
  have hassembled : ∀ s ∈ [dud "first", dud "second"], ∀ id, Section.Assembled { s with id } := by
    rintro s hs id
    rcases List.mem_pair.1 hs with rfl | rfl <;> exact assembled_dud _ id
  have hfails : (Roll.through .bare 12 {} ((Machine.withSections [dud "first", dud "second"]).outset
      (HostCode.runAll [.execute 0 false, .call 1 []]))).map
      (fun r => (r.1, r.2.focus.fault?, r.2.machine.core.trace.length)) = some (staleRoll, some .endOfUnit, 2) := by cbv
  refine ⟨?_, by cbv⟩
  obtain ⟨⟨l, s⟩, hthrough, hsame⟩ := Option.map_eq_some_iff.1 hfails
  obtain ⟨rfl, hfault, hlength⟩ :
      l = staleRoll ∧ s.focus.fault? = some .endOfUnit ∧ s.machine.core.trace.length = 2 := by
    simpa using hsame
  refine ⟨s, (unaided_withSections hassembled _).through hthrough, Focus.eq_fail hfault, ?_⟩
  rw [hlength]
  decide

end ScriptVm
