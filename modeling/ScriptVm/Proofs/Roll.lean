import ScriptVm.Proofs.Strides

/-! The roll of active sections. A section is put on it when it is entered and taken off when it is left, and the
address is noted at which it is read. The machine keeps places only: where execution stands, and where the callers go
on. What the roll and the places have to do with each other is said here, and what keeps it so. -/

namespace ScriptVm
variable {δ ν ρ : Type}

namespace Executor

/-- Where execution stands, and where the callers go on, the innermost first and the host's place last. -/
def places (e : Executor) : List Cursor := e.pc :: e.callers.toList.reverse

end Executor

theorem Core.trace_eq (c : Core) : c.trace = c.executor.places.dropLast.reverse.map Cursor.traceEntry := by
  unfold trace Executor.places
  rw [← Array.isEmpty_toList]
  cases c.executor.callers.toList with
  | nil => rfl
  | cons host callers =>
    rw [List.reverse_cons, ← List.cons_append, List.dropLast_concat, List.reverse_cons, List.reverse_reverse]
    rfl

/-- A section that was entered and has not been left, and the address of the instruction that was read in it last. -/
structure ActiveSection where
  home : Section
  address : Nat := 0

namespace ActiveSection

/-- The instruction is read there, up to the cursor. -/
structure Reads (a : ActiveSection) (i : Instruction) (next : Cursor) : Prop where
  aligned : Cursor.Aligned ⟨a.home, a.address⟩
  read : Cursor.readInstruction ⟨a.home, a.address⟩ = .ok i next

/-- The section waits there for one that it calls. -/
def Waits (a : ActiveSection) (back : Cursor) : Prop := ∃ i, a.Reads i back ∧ i.op = .call

end ActiveSection

/-- The active sections, the innermost first: those of the call of the host that is in progress, and beneath them those
that were there when it began. -/
structure Roll where
  active : List ActiveSection := []
  earlier : List ActiveSection := []

namespace Roll

def all (l : Roll) : List ActiveSection := l.active ++ l.earlier

def readAt (l : Roll) (address : Nat) : Roll :=
  { l with active := l.active.modifyHead fun a => { a with address } }

def enter (l : Roll) (home : Section) : Roll := { l with active := { home } :: l.active }

def leave (l : Roll) : Roll :=
  match l.active with
  | [] => { l with earlier := l.earlier.tail }
  | _ :: active => { l with active }

def begin (l : Roll) (home : Section) : Roll := ⟨[{ home }], l.all⟩

def resume (l : Roll) : Roll := ⟨l.all.take 1, l.all.drop 1⟩

/-- The roll once the next instruction has been read. -/
def aimed (l : Roll) (s : State δ ν ρ) : Roll :=
  match s.focus with
  | .dispatch => l.readAt s.machine.core.executor.pc.position
  | _ => l

/-- The roll after a transition. -/
def follow (l : Roll) (s s' : State δ ν ρ) : Roll :=
  if s'.machine.core.executor.depth = 0 then {}
  else if s.machine.core.executor.depth < s'.machine.core.executor.depth then
    if s.waiting.isEmpty then (l.aimed s).begin s'.machine.core.executor.pc.home
    else (l.aimed s).enter s'.machine.core.executor.pc.home
  else if s'.machine.core.executor.depth < s.machine.core.executor.depth then (l.aimed s).leave
  else if s.waiting.length < s'.waiting.length then (l.aimed s).resume
  else l.aimed s

/-- The roll tells the sections of the places. The places of the call in progress are where its sections wait for one
another. -/
structure Fits (l : Roll) (e : Executor) : Prop where
  homes : l.all.map (·.home) = e.places.dropLast.map (·.home)
  waits : List.Forall₂ ActiveSection.Waits l.active.tail (e.places.tail.take l.active.tail.length)

/-- If an instruction could be read in the innermost section, execution stands behind it. -/
def Halts (l : Roll) (pc : Cursor) : Prop :=
  ∀ a ∈ l.active.head?, a.address < a.home.size → ∃ i, a.Reads i pc

/-! ### Places -/

variable {l : Roll} {e e' : Executor}

theorem all_readAt (l : Roll) (address : Nat) : (l.readAt address).all.map (·.home) = l.all.map (·.home) := by
  obtain ⟨_ | ⟨a, active⟩, earlier⟩ := l <;> rfl

theorem tail_readAt (l : Roll) (address : Nat) : (l.readAt address).active.tail = l.active.tail := by
  obtain ⟨_ | ⟨a, active⟩, earlier⟩ := l <;> rfl

theorem all_leave (l : Roll) : l.leave.all = l.all.tail := by
  obtain ⟨_ | ⟨a, active⟩, earlier⟩ := l <;> rfl

theorem tail_leave (l : Roll) : l.leave.active.tail = l.active.tail.tail := by
  obtain ⟨_ | ⟨a, active⟩, earlier⟩ := l <;> rfl

theorem all_resume (l : Roll) : l.resume.all = l.all := List.take_append_drop ..

theorem tail_resume (l : Roll) : l.resume.active.tail = [] := by
  unfold resume
  cases l.all <;> rfl

theorem eq_empty (h : l.all = []) : l = {} := by
  obtain ⟨active, earlier⟩ := l
  obtain ⟨rfl, rfl⟩ := List.append_eq_nil_iff.1 h
  rfl

namespace Fits

theorem length (h : l.Fits e) : l.all.length = e.depth := by
  have hlengths := congrArg List.length h.homes
  simpa [Executor.places, Executor.depth] using hlengths

theorem eq_empty (h : l.Fits e) (hcallers : e.callers = #[]) : l = {} := by
  have hlength := h.length
  rw [Executor.depth, hcallers] at hlength
  exact Roll.eq_empty (List.eq_nil_of_length_eq_zero hlength)

theorem home (h : l.Fits e) {a : ActiveSection} (ha : a ∈ l.active.head?) : a.home = e.pc.home := by
  obtain ⟨_ | ⟨b, active⟩, earlier⟩ := l
  · cases ha
  · cases ha
    have hhomes := h.homes
    unfold Executor.places at hhomes
    cases hcallers : e.callers.toList.reverse with
    | nil =>
      rw [hcallers] at hhomes
      cases hhomes
    | cons back callers =>
      rw [hcallers, List.dropLast_cons_cons] at hhomes
      exact (List.cons.inj hhomes).1

theorem move (h : l.Fits e) (hhome : e'.pc.home = e.pc.home) (hcallers : e'.callers = e.callers) : l.Fits e' := by
  have hplaces : e'.places.dropLast.map (·.home) = e.places.dropLast.map (·.home) := by
    unfold Executor.places
    rw [hcallers]
    cases e.callers.toList.reverse with
    | nil => rfl
    | cons back callers =>
      rw [List.dropLast_cons_cons, List.dropLast_cons_cons, List.map_cons, List.map_cons, hhome]
  have htail : e'.places.tail = e.places.tail :=
    congrArg (fun callers : Array Cursor => callers.toList.reverse) hcallers
  exact ⟨h.homes.trans hplaces.symm, htail.symm ▸ h.waits⟩

theorem same (h : l.Fits e) (hsame : e.SamePlaces e') : l.Fits e' := h.move (congrArg _ hsame.pc) hsame.callers

theorem readAt (h : l.Fits e) (address : Nat) : (l.readAt address).Fits e := by
  refine ⟨(l.all_readAt address).trans h.homes, ?_⟩
  rw [l.tail_readAt]
  exact h.waits

theorem aimed (h : l.Fits e) (s : State δ ν ρ) : (l.aimed s).Fits e := by
  unfold Roll.aimed
  split
  · exact h.readAt _
  · exact h

theorem places_push {home : Section} {back : Cursor} (hpc : e'.pc = { home })
    (hcallers : e'.callers = e.callers.push back) :
    e'.places = { home } :: back :: e.callers.toList.reverse := by
  unfold Executor.places
  rw [hpc, hcallers, Array.toList_push, List.reverse_append]
  rfl

theorem enter (h : l.Fits e) {home : Section} {back : Cursor} (hwaits : ∀ a ∈ l.active.head?, a.Waits back)
    (hback : back.home = e.pc.home) (hpc : e'.pc = { home }) (hcallers : e'.callers = e.callers.push back) :
    (l.enter home).Fits e' := by
  have hbehind : l.Fits { e with pc := back } := h.move hback rfl
  have hrest := h.waits
  obtain ⟨active, earlier⟩ := l
  constructor
  · rw [places_push hpc hcallers, List.dropLast_cons_cons, List.map_cons]
    exact congrArg _ hbehind.homes
  · rw [places_push hpc hcallers]
    cases active with
    | nil => exact .nil
    | cons a active => exact .cons (hwaits a rfl) hrest

theorem begin (h : l.Fits e) {home : Section} (hpc : e'.pc = { home }) (hcallers : e'.callers = e.callers.push e.pc) :
    (l.begin home).Fits e' := by
  refine ⟨?_, .nil⟩
  rw [places_push hpc hcallers, List.dropLast_cons_cons, List.map_cons]
  exact congrArg _ h.homes

theorem leave (h : l.Fits e) (hback : e.callers.back? = some e'.pc) (hcallers : e'.callers = e.callers.pop) :
    l.leave.Fits e' := by
  have hplaces : e.places.tail = e'.places := by
    obtain ⟨callers, hpush⟩ := Array.back?_eq_some_iff.1 hback
    unfold Executor.places
    rw [hcallers, hpush, Array.pop_push, Array.toList_push, List.reverse_append]
    rfl
  constructor
  · have hhomes := congrArg List.tail h.homes
    rwa [← List.map_tail, ← List.map_tail, List.tail_dropLast, hplaces, ← l.all_leave] at hhomes
  · have hwaits := h.waits
    rw [l.tail_leave]
    cases hactive : l.active.tail with
    | nil => exact .nil
    | cons a active =>
      rw [hactive, hplaces] at hwaits
      cases hwaits with
      | cons _ hrest => exact hrest

theorem resume (h : l.Fits e) : l.resume.Fits e := by
  refine ⟨l.all_resume ▸ h.homes, ?_⟩
  rw [l.tail_resume]
  exact .nil

end Fits

theorem fits_empty (hcallers : e.callers = #[]) : Fits {} e := by
  refine ⟨?_, .nil⟩
  unfold Executor.places
  rw [hcallers]
  rfl

/-! ### Transitions -/

section
variable {s s' : State δ ν ρ}

theorem follow_quiet (h : l.Fits s.machine.core.executor)
    (hcallers : s'.machine.core.executor.callers = s.machine.core.executor.callers)
    (hwaiting : s'.waiting.length ≤ s.waiting.length) : l.follow s s' = l.aimed s := by
  unfold follow Executor.depth
  rw [hcallers]
  rw [if_neg (Nat.lt_irrefl _), if_neg (Nat.lt_irrefl _), if_neg (Nat.not_lt_of_le hwaiting)]
  split_ifs with hnone
  · exact ((h.aimed s).eq_empty (Array.size_eq_zero_iff.1 hnone)).symm
  · rfl

theorem follow_forgets (l : Roll) (s : State δ ν ρ) (hcallers : s'.machine.core.executor.callers = #[]) :
    l.follow s s' = {} := by
  unfold follow Executor.depth
  rw [hcallers]
  rfl

theorem follow_enters (l : Roll) {back : Cursor}
    (hcallers : s'.machine.core.executor.callers = s.machine.core.executor.callers.push back) :
    l.follow s s' = if s.waiting.isEmpty then (l.aimed s).begin s'.machine.core.executor.pc.home
      else (l.aimed s).enter s'.machine.core.executor.pc.home := by
  unfold follow Executor.depth
  rw [hcallers, Array.size_push]
  rw [if_neg (Nat.succ_ne_zero _), if_pos (Nat.lt_succ_self _)]

theorem follow_leaves (hleft : (l.aimed s).leave.Fits s'.machine.core.executor)
    (hsome : s.machine.core.executor.callers ≠ #[])
    (hcallers : s'.machine.core.executor.callers = s.machine.core.executor.callers.pop) :
    l.follow s s' = (l.aimed s).leave := by
  have hsize : 0 < s.machine.core.executor.callers.size := Array.size_pos_iff.2 hsome
  have hsize' : s'.machine.core.executor.callers.size = s.machine.core.executor.callers.size - 1 := by
    rw [hcallers, Array.size_pop]
  unfold follow Executor.depth
  rw [if_neg (show ¬ s.machine.core.executor.callers.size < s'.machine.core.executor.callers.size by omega),
    if_pos (show s'.machine.core.executor.callers.size < s.machine.core.executor.callers.size by omega)]
  split_ifs with hnone
  · exact (hleft.eq_empty (Array.size_eq_zero_iff.1 hnone)).symm
  · rfl

theorem follow_resumes (h : l.Fits s.machine.core.executor)
    (hcallers : s'.machine.core.executor.callers = s.machine.core.executor.callers)
    (hwaiting : s.waiting.length < s'.waiting.length) : l.follow s s' = (l.aimed s).resume := by
  unfold follow Executor.depth
  rw [hcallers]
  rw [if_neg (Nat.lt_irrefl _), if_neg (Nat.lt_irrefl _), if_pos hwaiting]
  split_ifs with hnone
  · rw [(h.aimed s).eq_empty (Array.size_eq_zero_iff.1 hnone)]
    rfl
  · rfl

end
end Roll
end ScriptVm
