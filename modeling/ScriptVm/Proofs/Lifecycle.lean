import ScriptVm.Proofs.Attendance
import ScriptVm.Proofs.Debuggers

/-! The life of a debugger. Anyone may attach and detach debuggers at any time: the host, natives, and debuggers in the
middle of a turn, whose debugger is not on the machine then. Every debugger is told once that it was attached, and once
that it was detached when it is no longer there. The one that is there when no turn is in progress is the one attached
last, or none after a detaching, unless a detaching came across a turn that had begun before the attachment. -/

namespace ScriptVm
variable {δ ν ρ : Type}

inductive Dealing where
  | attach
  | detach
  | engage
  | release
deriving DecidableEq, Repr

/-! Histories have the latest dealing first. -/

namespace Dealing

/-- How many turns are in progress. -/
def depth : List Dealing → Nat
  | [] => 0
  | .engage :: h => depth h + 1
  | .release :: h => depth h - 1
  | _ :: h => depth h

/-- The debugger that was attached last, unless a detaching came after it. -/
def latest? : List Dealing → Option Nat
  | [] => none
  | .attach :: h => some (h.count .attach)
  | .detach :: _ => none
  | _ :: h => latest? h

/-- How many of the turns in progress had begun before the latest attachment. -/
def outer : List Dealing → Nat
  | [] => 0
  | .attach :: h => depth h
  | .release :: h => min (outer h) (depth h - 1)
  | _ :: h => outer h

/-- Whether there was a detaching since the outermost turn in progress began and since a turn last ended. -/
def asked : List Dealing → Bool
  | [] => false
  | .detach :: _ => true
  | .release :: _ => false
  | .engage :: h => depth h != 0 && asked h
  | .attach :: h => asked h

/-- Whether, since the latest attachment and during a turn that had begun before it, there was a detaching, or a turn
began with one asked for. -/
def crossed : List Dealing → Bool
  | [] => false
  | .attach :: _ => false
  | .detach :: h => crossed h || outer h != 0
  | .engage :: h => crossed h || outer h != 0 && asked h
  | .release :: h => crossed h

end Dealing

/-- Tells the debugger of this number that it was attached. -/
def Event.attaches (k : Nat) : Event δ ν → Bool
  | .attached d => d.serial == k
  | _ => false

def Event.detaches (k : Nat) : Event δ ν → Bool
  | .detached d => d.serial == k
  | _ => false

namespace Machine

/-- How often the debugger of this number was told that it was attached. -/
def attachedTimes (m : Machine δ ν) (k : Nat) : Nat := m.journal.countP (Event.attaches k)

def detachedTimes (m : Machine δ ν) (k : Nat) : Nat := m.journal.countP (Event.detaches k)

/-- The number of the debugger that is attached and waits for its turn. -/
def serial? (m : Machine δ ν) : Option Nat := m.debugger.map Attached.serial

/-- Nothing was done to debuggers in between. -/
structure SameAttachments (m m' : Machine δ ν) : Prop where
  serial : m'.serial? = m.serial?
  attachments : m'.attachments = m.attachments
  ticking : m'.ticking = m.ticking
  detachPending : m'.detachPending = m.detachPending
  attached : ∀ k, m'.attachedTimes k = m.attachedTimes k
  detached : ∀ k, m'.detachedTimes k = m.detachedTimes k

structure NeverAttached (m : Machine δ ν) : Prop where
  debugger : m.debugger = none
  attachments : m.attachments = 0
  ticking : m.ticking = false
  detachPending : m.detachPending = false
  journal : ∀ k, m.attachedTimes k = 0 ∧ m.detachedTimes k = 0

/-- Host code on the machine attaches and detaches, and does other things in between. -/
inductive Deals (m : Machine δ ν) : List Dealing → Machine δ ν → Prop where
  | start : Deals m [] m
  | other {h : List Dealing} {m' m'' : Machine δ ν} : Deals m h m' → m'.SameAttachments m'' → Deals m h m''
  | attach {h : List Dealing} {m' : Machine δ ν} (d : δ) : Deals m h m' → Deals m (.attach :: h) (m'.attach d)
  | detach {h : List Dealing} {m' : Machine δ ν} : Deals m h m' → Deals m (.detach :: h) m'.detach

end Machine

namespace State

/-- Whether a debugger gets control in a transition that is not up to host code, or gives it back. -/
def dealing? (s s' : State δ ν ρ) : Option Dealing :=
  match s.focus with
  | .host (.finish verdict) => verdict.turn?.map fun _ => .release
  | _ => if s.machine.debugger.isSome && s'.machine.debugger.isNone then some .engage else none

end State

/-- The moments of a run with what was done to debuggers until then. -/
inductive Dealt (env : Environment δ ν) (s₀ : State δ ν ρ) : List Dealing → State δ ν ρ → Prop where
  | start : Dealt env s₀ [] s₀
  | acts {s s' : State δ ν ρ} {h h' : List Dealing} : Dealt env s₀ h s → s.acts = true → s.step env = .inl s' →
      s.machine.Deals h' s'.machine → Dealt env s₀ (h' ++ h) s'
  | goes {s s' : State δ ν ρ} {h : List Dealing} : Dealt env s₀ h s → s.acts = false → s.step env = .inl s' →
      Dealt env s₀ ((s.dealing? s').toList ++ h) s'

/-! ### What the machine knows of it -/

/-- Where the debugger is that was attached last: on the machine while the turns in progress are those that had begun
before, or in control itself. After a detaching it may still have to end its turn. -/
def Dealing.Stands (latest? : Option Nat) (outer : Nat) (m : Machine δ ν) (turns : List Nat) : Prop :=
  match latest? with
  | some k => (m.serial? = some k ∧ turns.length = outer) ∨
      (m.serial? = none ∧ m.ticking = true ∧ m.detachPending = false ∧ ∃ rest, turns = k :: rest ∧ rest.length = outer)
  | none => outer = 0 ∧ m.serial? = none ∧ (turns = [] ∨ m.detachPending = true ∧ ∃ k, turns = [k])

/-- The debuggers that were not told that they were detached. -/
def Machine.present (m : Machine δ ν) (turns : List Nat) : List Nat := m.serial?.toList ++ turns

/-- The machine is as the dealings say, with the debuggers of these numbers in control. -/
structure Machine.Accounts (m : Machine δ ν) (h : List Dealing) (turns : List Nat) : Prop where
  attachments : m.attachments = h.count .attach
  depth : turns.length = Dealing.depth h
  pending : m.detachPending = true → m.ticking = true
  ticking : m.ticking = true → turns ≠ []
  asked : m.detachPending = true → Dealing.asked h = true
  distinct : (m.present turns).Nodup
  below : ∀ k ∈ m.present turns, k < m.attachments
  attached : ∀ k, m.attachedTimes k = if k < m.attachments then 1 else 0
  detached : ∀ k, m.detachedTimes k = if k < m.attachments ∧ k ∉ m.present turns then 1 else 0
  stands : Dealing.crossed h = false → Dealing.Stands (Dealing.latest? h) (Dealing.outer h) m turns

namespace Machine
variable {m m' : Machine δ ν} {h : List Dealing} {turns : List Nat}

theorem attachedTimes_tell (m : Machine δ ν) (e : Event δ ν) (k : Nat) :
    (m.tell e).attachedTimes k = m.attachedTimes k + if e.attaches k then 1 else 0 :=
  Array.countP_push

theorem detachedTimes_tell (m : Machine δ ν) (e : Event δ ν) (k : Nat) :
    (m.tell e).detachedTimes k = m.detachedTimes k + if e.detaches k then 1 else 0 :=
  Array.countP_push

theorem NeverAttached.accounts (hm : m.NeverAttached) : m.Accounts [] [] where
  attachments := hm.attachments
  depth := rfl
  pending hpending := absurd (hm.detachPending.symm.trans hpending) nofun
  ticking hticking := absurd (hm.ticking.symm.trans hticking) nofun
  asked hpending := absurd (hm.detachPending.symm.trans hpending) nofun
  distinct := by simp [present, serial?, hm.debugger]
  below := by simp [present, serial?, hm.debugger]
  attached k := by rw [(hm.journal k).1, hm.attachments]; rfl
  detached k := by rw [(hm.journal k).2, hm.attachments]; simp
  stands _ := ⟨rfl, by simp [serial?, hm.debugger], .inl rfl⟩

theorem SameAttachments.present (hsame : m.SameAttachments m') : m'.present turns = m.present turns := by
  unfold Machine.present
  rw [hsame.serial]

theorem SameAttachments.stands (hsame : m.SameAttachments m') {latest? : Option Nat} {outer : Nat}
    (h : Dealing.Stands latest? outer m turns) : Dealing.Stands latest? outer m' turns := by
  unfold Dealing.Stands at h ⊢
  rwa [hsame.serial, hsame.ticking, hsame.detachPending]

theorem Accounts.other (hm : m.Accounts h turns) (hsame : m.SameAttachments m') : m'.Accounts h turns where
  attachments := hsame.attachments.trans hm.attachments
  depth := hm.depth
  pending hpending := hsame.ticking.trans (hm.pending (hsame.detachPending.symm.trans hpending))
  ticking hticking := hm.ticking (hsame.ticking.symm.trans hticking)
  asked hpending := hm.asked (hsame.detachPending.symm.trans hpending)
  distinct := by
    rw [hsame.present]
    exact hm.distinct
  below := by
    rw [hsame.present, hsame.attachments]
    exact hm.below
  attached k := by rw [hsame.attached, hsame.attachments, hm.attached]
  detached k := by rw [hsame.detached, hsame.attachments, hsame.present, hm.detached]
  stands hcrossed := hsame.stands (hm.stands hcrossed)

theorem mem_present {k : Nat} : k ∈ m.present turns ↔ m.serial? = some k ∨ k ∈ turns := by
  rw [present, List.mem_append, Option.mem_toList]

theorem Accounts.not_mem (hm : m.Accounts h turns) {k : Nat} (hk : m.serial? = some k) : k ∉ turns :=
  fun hmem => (List.nodup_append.1 hm.distinct).2.2 k (Option.mem_toList.2 hk) k hmem rfl

theorem Accounts.serial_lt (hm : m.Accounts h turns) {k : Nat} (hk : m.serial? = some k) : k < m.attachments :=
  hm.below k (mem_present.2 (.inl hk))

theorem Accounts.parts (hm : m.Accounts h turns) {k : Nat} {rest : List Nat}
    (hparts : (m.present turns).Perm (k :: rest)) (j : Nat) :
    (m.detachedTimes j + if k = j then 1 else 0) = if j < m.attachments ∧ j ∉ rest then 1 else 0 := by
  have hfree : k ∉ rest := (List.nodup_cons.1 (hparts.nodup hm.distinct)).1
  have hlt : k < m.attachments := hm.below k (hparts.mem_iff.2 List.mem_cons_self)
  rw [hm.detached]
  simp only [hparts.mem_iff, List.mem_cons]
  grind

/-! ### Attaching -/

theorem detachedTimes_tellDetached (m : Machine δ ν) (d? : Option (Attached δ)) (k : Nat) :
    (m.tellDetached d?).detachedTimes k = m.detachedTimes k + if d?.map Attached.serial = some k then 1 else 0 := by
  cases d? with
  | none => rfl
  | some d => simp [tellDetached, detachedTimes_tell, Event.detaches]

theorem attachedTimes_tellDetached (m : Machine δ ν) (d? : Option (Attached δ)) (k : Nat) :
    (m.tellDetached d?).attachedTimes k = m.attachedTimes k := by
  cases d? with
  | none => rfl
  | some d => exact m.attachedTimes_tell (.detached d) k

theorem tellDetached_fields (m : Machine δ ν) (d? : Option (Attached δ)) :
    (m.tellDetached d?).debugger = m.debugger ∧ (m.tellDetached d?).attachments = m.attachments ∧
      (m.tellDetached d?).ticking = m.ticking ∧ (m.tellDetached d?).detachPending = m.detachPending := by
  cases d? <;> exact ⟨rfl, rfl, rfl, rfl⟩

theorem attach_fields (m : Machine δ ν) (d : δ) :
    (m.attach d).serial? = some m.attachments ∧ (m.attach d).attachments = m.attachments + 1 ∧
      (m.attach d).ticking = m.ticking ∧ (m.attach d).detachPending = m.detachPending := by
  obtain ⟨hdebugger, hattachments, hticking, hpending⟩ := tellDetached_fields
    ({ m with debugger := some ⟨m.attachments, d⟩, attachments := m.attachments + 1 }.tell
      (.attached ⟨m.attachments, d⟩))
    m.debugger
  exact ⟨congrArg (Option.map Attached.serial) hdebugger, hattachments, hticking, hpending⟩

theorem attachedTimes_attach (m : Machine δ ν) (d : δ) (k : Nat) :
    (m.attach d).attachedTimes k = m.attachedTimes k + if k = m.attachments then 1 else 0 := by
  unfold attach
  dsimp only
  rw [attachedTimes_tellDetached, attachedTimes_tell]
  have hattaches : (Event.attached (ν := ν) ⟨m.attachments, d⟩).attaches k = decide (k = m.attachments) := by
    rw [Event.attaches, beq_eq_decide, decide_eq_decide]
    exact eq_comm
  rw [hattaches]
  simp only [decide_eq_true_eq]
  rfl

theorem detachedTimes_attach (m : Machine δ ν) (d : δ) (k : Nat) :
    (m.attach d).detachedTimes k = m.detachedTimes k + if m.serial? = some k then 1 else 0 := by
  unfold attach
  dsimp only
  rw [detachedTimes_tellDetached, detachedTimes_tell]
  rfl

theorem Accounts.attach (hm : m.Accounts h turns) (d : δ) : (m.attach d).Accounts (.attach :: h) turns := by
  obtain ⟨hserial, hattachments, hticking, hpending⟩ := m.attach_fields d
  have hpresent : (m.attach d).present turns = m.attachments :: turns := by
    unfold present
    rw [hserial]
    rfl
  have hnew : m.attachments ∉ m.present turns := fun hmem => (hm.below _ hmem).false
  refine ⟨?_, hm.depth, ?_, ?_, ?_, ?_, ?_, ?_, ?_, fun _ => .inl ⟨?_, hm.depth⟩⟩
  · rw [hattachments, hm.attachments, List.count_cons_self]
  · rw [hpending, hticking]
    exact hm.pending
  · rw [hticking]
    exact hm.ticking
  · rw [hpending]
    exact hm.asked
  · rw [hpresent, List.nodup_cons]
    exact ⟨fun hmem => hnew (List.mem_append_right _ hmem), hm.distinct.of_append_right⟩
  · rw [hpresent, hattachments, List.forall_mem_cons]
    exact ⟨m.attachments.lt_succ_self, fun k hk => (hm.below k (List.mem_append_right _ hk)).trans (Nat.lt_succ_self _)⟩
  · intro k
    rw [attachedTimes_attach, hattachments, hm.attached]
    split_ifs <;> omega
  · intro k
    have hlt := fun hk => hm.serial_lt (k := k) hk
    have hfree := fun hk => hm.not_mem (k := k) hk
    simp only [detachedTimes_attach, hattachments, hpresent, hm.detached, mem_present, List.mem_cons]
    grind
  · rw [hserial, hm.attachments]

/-! ### Detaching -/

/-- Without a debugger that waits for its turn, a detaching marks the one in control. -/
theorem detach_cases (m : Machine δ ν) :
    (∃ d, m.debugger = some d ∧ m.detach = { m with debugger := none }.tell (.detached d)) ∨
      m.debugger = none ∧ m.detach = { m with detachPending := m.detachPending || m.ticking } := by
  obtain ⟨core, suspended, _ | d, attachments, ticking, detachPending, journal⟩ := m
  · refine .inr ⟨rfl, ?_⟩
    cases ticking <;> cases detachPending <;> rfl
  · exact .inl ⟨d, rfl, rfl⟩

theorem serial?_of_debugger {d? : Option (Attached δ)} (h : m.debugger = d?) : m.serial? = d?.map Attached.serial :=
  congrArg (Option.map Attached.serial) h

theorem Accounts.stands_detach (hm : m.Accounts h turns) (hcrossed : Dealing.crossed (.detach :: h) = false) :
    Dealing.Stands none (Dealing.outer h) m.detach turns := by
  rw [Dealing.crossed, Bool.or_eq_false_iff, bne_eq_false_iff_eq] at hcrossed
  obtain ⟨hcrossed, houter⟩ := hcrossed
  have hstands := hm.stands hcrossed
  have hticking := hm.ticking
  rcases m.detach_cases with ⟨d, hdebugger, hdetach⟩ | ⟨hdebugger, hdetach⟩ <;> rw [hdetach]
  · -- The debugger waits for its turn, so no turn is in progress.
    have hserial := serial?_of_debugger hdebugger
    refine ⟨houter, rfl, .inl ?_⟩
    cases hlatest : Dealing.latest? h <;> rw [hlatest] at hstands <;> grind [Dealing.Stands]
  · have hserial := serial?_of_debugger hdebugger
    refine ⟨houter, hserial, ?_⟩
    cases hlatest : Dealing.latest? h <;> rw [hlatest] at hstands <;> grind [Dealing.Stands]

theorem Accounts.detach (hm : m.Accounts h turns) : m.detach.Accounts (.detach :: h) turns := by
  have hstands := hm.stands_detach
  rcases m.detach_cases with ⟨d, hdebugger, hdetach⟩ | ⟨hdebugger, hdetach⟩ <;> rw [hdetach] at hstands ⊢
  · have hserial := serial?_of_debugger hdebugger
    refine ⟨hm.attachments, hm.depth, hm.pending, hm.ticking, fun _ => rfl, hm.distinct.of_append_right, ?_, ?_, ?_,
      hstands⟩
    · exact fun k hk => hm.below k (List.mem_append_right _ hk)
    · intro k
      rw [attachedTimes_tell]
      exact hm.attached k
    · intro k
      rw [detachedTimes_tell, Event.detaches]
      simp only [beq_iff_eq]
      have hpresent : m.present turns = d.serial :: turns := by
        rw [present, hserial]
        rfl
      exact hm.parts (.of_eq hpresent) k
  · refine ⟨hm.attachments, hm.depth, ?_, hm.ticking, fun _ => rfl, hm.distinct, hm.below, hm.attached, hm.detached,
      hstands⟩
    intro hpending
    rcases Bool.or_eq_true_iff.1 hpending with hpending | hticking
    · exact hm.pending hpending
    · exact hticking

/-! ### Turns -/

theorem Accounts.stands_engage (hm : m.Accounts h turns) {k : Nat} (hserial : m.serial? = some k)
    (hcrossed : Dealing.crossed (.engage :: h) = false) {m' : Machine δ ν} (hfree : m'.serial? = none)
    (hticking : m'.ticking = true) (hpending : m'.detachPending = m.detachPending) :
    Dealing.Stands (Dealing.latest? h) (Dealing.outer h) m' (k :: turns) := by
  rw [Dealing.crossed, Bool.or_eq_false_iff] at hcrossed
  obtain ⟨hcrossed, hunasked⟩ := hcrossed
  have hstands := hm.stands hcrossed
  cases hlatest : Dealing.latest? h with
  | none =>
    rw [hlatest] at hstands
    cases hserial.symm.trans hstands.2.1
  | some j =>
    rw [hlatest] at hstands
    rcases hstands with ⟨hj, hlength⟩ | ⟨hnone, -⟩
    · obtain rfl := Option.some.inj (hserial.symm.trans hj)
      refine .inr ⟨hfree, hticking, ?_, turns, rfl, hlength⟩
      -- A mark would be for a debugger in control, and its turn had begun before the attachment.
      rw [hpending, Bool.eq_false_iff]
      intro hmarked
      have hturns := List.length_pos_iff.2 (hm.ticking (hm.pending hmarked))
      rw [hm.asked hmarked, Bool.and_true, bne_eq_false_iff_eq] at hunasked
      omega
    · cases hserial.symm.trans hnone

theorem Accounts.engage (hm : m.Accounts h turns) {d : Attached δ} {told? : Option (Event δ ν)}
    (hdebugger : m.debugger = some d) (htold : ∀ e ∈ told?, ∀ k, e.attaches k = false ∧ e.detaches k = false) :
    (told?.elim m m.tell).handOver.Accounts (.engage :: h) (d.serial :: turns) := by
  have hserial := serial?_of_debugger hdebugger
  have hattachments : (told?.elim m m.tell).handOver.attachments = m.attachments := by cases told? <;> rfl
  have hpending : (told?.elim m m.tell).handOver.detachPending = m.detachPending := by cases told? <;> rfl
  have hpresent : (told?.elim m m.tell).handOver.present (d.serial :: turns) = m.present turns := by
    rw [present, present, hserial]
    rfl
  refine ⟨?_, ?_, fun _ => rfl, fun _ => List.cons_ne_nil _ _, ?_, ?_, ?_, ?_, ?_, ?_⟩
  · rw [hattachments, hm.attachments, List.count_cons_of_ne (by decide)]
  · rw [List.length_cons, hm.depth, Dealing.depth]
  · rw [hpending]
    intro hmarked
    have hturns := hm.ticking (hm.pending hmarked)
    rw [Dealing.asked, hm.asked hmarked, Bool.and_true, bne_iff_ne, ← hm.depth]
    exact fun hnone => hturns (List.length_eq_zero_iff.1 hnone)
  · rw [hpresent]
    exact hm.distinct
  · rw [hpresent, hattachments]
    exact hm.below
  · intro k
    rw [hattachments, ← hm.attached]
    cases told? with
    | none => rfl
    | some e =>
      have htell := m.attachedTimes_tell e k
      rw [(htold e rfl k).1] at htell
      exact htell
  · intro k
    rw [hattachments, hpresent, ← hm.detached]
    cases told? with
    | none => rfl
    | some e =>
      have htell := m.detachedTimes_tell e k
      rw [(htold e rfl k).2] at htell
      exact htell
  · exact fun hcrossed => hm.stands_engage hserial hcrossed rfl rfl hpending

/-- A debugger that gives control back leaves if that was asked for or another one has come, and else stays. -/
theorem takeBack_cases (m : Machine δ ν) (d : Attached δ) :
    ((m.detachPending = true ∨ m.serial? ≠ none) ∧
        m.takeBack d = { m with ticking := false, detachPending := false }.tell (.detached d)) ∨
      (m.detachPending = false ∧ m.serial? = none) ∧
        m.takeBack d = { m with ticking := false, detachPending := false, debugger := some d } := by
  obtain ⟨core, suspended, _ | d', attachments, ticking, _ | _, journal⟩ := m
  · exact .inr ⟨⟨rfl, rfl⟩, rfl⟩
  · exact .inl ⟨.inl rfl, rfl⟩
  · exact .inl ⟨.inr nofun, rfl⟩
  · exact .inl ⟨.inl rfl, rfl⟩

theorem Accounts.stands_release {d : Attached δ} (hm : m.Accounts h (d.serial :: turns))
    (hcrossed : Dealing.crossed h = false) :
    Dealing.Stands (Dealing.latest? h) (min (Dealing.outer h) (Dealing.depth h - 1)) (m.takeBack d) turns := by
  have hstands := hm.stands hcrossed
  have hdepth := hm.depth
  rw [List.length_cons] at hdepth
  rcases m.takeBack_cases d with ⟨hleaves, htaken⟩ | ⟨⟨hunmarked, hfree⟩, htaken⟩ <;> rw [htaken] <;>
    cases hlatest : Dealing.latest? h <;> rw [hlatest] at hstands
  case inl.none =>
    obtain ⟨houter, hnone, hturns | ⟨-, k, hturns⟩⟩ := hstands
    · cases hturns
    · obtain ⟨-, hturns⟩ := List.cons.inj hturns
      exact ⟨by omega, hnone, .inl hturns⟩
  case inl.some k =>
    rcases hstands with ⟨hk, hlength⟩ | ⟨hnone, -, hpending, -⟩
    · rw [List.length_cons] at hlength
      exact .inl ⟨hk, by omega⟩
    · rcases hleaves with hmarked | hother
      · cases hpending.symm.trans hmarked
      · exact absurd hnone hother
  case inr.none =>
    obtain ⟨-, -, hturns | ⟨hmarked, -⟩⟩ := hstands
    · cases hturns
    · cases hunmarked.symm.trans hmarked
  case inr.some k =>
    rcases hstands with ⟨hk, -⟩ | ⟨-, -, -, rest, hturns, hlength⟩
    · cases hfree.symm.trans hk
    · obtain ⟨rfl, rfl⟩ := List.cons.inj hturns
      exact .inl ⟨rfl, by omega⟩

theorem Accounts.release {d : Attached δ} (hm : m.Accounts h (d.serial :: turns)) :
    (m.takeBack d).Accounts (.release :: h) turns := by
  have hstands := fun hcrossed => hm.stands_release hcrossed
  have hdepth := hm.depth
  rw [List.length_cons] at hdepth
  rcases m.takeBack_cases d with ⟨-, htaken⟩ | ⟨⟨-, hnone⟩, htaken⟩ <;> rw [htaken] at hstands ⊢
  · have hparts : (m.present (d.serial :: turns)).Perm (d.serial :: m.present turns) := List.perm_middle
    refine ⟨?_, ?_, nofun, nofun, nofun, ?_, ?_, ?_, ?_, hstands⟩
    · exact hm.attachments
    · rw [Dealing.depth]
      omega
    · exact (List.nodup_cons.1 (hparts.nodup hm.distinct)).2
    · exact fun k hk => hm.below k (hparts.mem_iff.2 (List.mem_cons_of_mem _ hk))
    · intro k
      rw [attachedTimes_tell]
      exact hm.attached k
    · intro k
      rw [detachedTimes_tell, Event.detaches]
      simp only [beq_iff_eq]
      exact hm.parts hparts k
  · have hpresent : m.present (d.serial :: turns) = d.serial :: turns := by
      rw [present, hnone]
      rfl
    have hdistinct := hm.distinct
    have hbelow := hm.below
    have hdetached := hm.detached
    rw [hpresent] at hdistinct hbelow hdetached
    refine ⟨hm.attachments, ?_, nofun, nofun, nofun, hdistinct, hbelow, hm.attached, hdetached, hstands⟩
    rw [Dealing.depth]
    omega

theorem Accounts.deals {h' : List Dealing} (hm : m.Accounts h turns) (hdeals : m.Deals h' m') :
    m'.Accounts (h' ++ h) turns := by
  induction hdeals with
  | start => exact hm
  | other _ hsame ih => exact ih.other hsame
  | attach d _ ih => exact ih.attach d
  | detach _ ih => exact ih.detach

end Machine

/-! ### Runs -/

theorem Machine.SameAttachments.of_attire {m m' : Machine δ ν} (h : m'.attire = m.attire) : m.SameAttachments m' where
  serial := congrArg (fun a : Attire δ ν => a.debugger.map Attached.serial) h
  attachments := congrArg Attire.attachments h
  ticking := congrArg Attire.ticking h
  detachPending := congrArg Attire.detachPending h
  attached k := congrArg (fun a : Attire δ ν => a.journal.countP (Event.attaches k)) h
  detached k := congrArg (fun a : Attire δ ν => a.journal.countP (Event.detaches k)) h

namespace State
variable {s s' : State δ ν ρ} {h : List Dealing} {turns turns' : List Nat}

theorem dealing?_of_finish {verdict : Verdict δ ρ} (hfocus : s.focus = .host (.finish verdict)) :
    s.dealing? s' = verdict.turn?.map fun _ => .release := by
  simp only [dealing?, hfocus]

theorem dealing?_of_unfinished (hfocus : ∀ verdict, s.focus ≠ .host (.finish verdict)) :
    s.dealing? s' = if s.machine.debugger.isSome && s'.machine.debugger.isNone then some .engage else none := by
  unfold dealing?
  split
  · rename_i verdict hfinish
    exact absurd hfinish (hfocus verdict)
  · rfl

/-- What a transition does to the debuggers in control is told by its dealing, and the account stays right. -/
theorem Passing.accounts {env : Environment δ ν} (hpassing : Passing env s s' turns turns')
    (hm : s.machine.Accounts h turns) :
    s'.machine.Accounts ((s.dealing? s').toList ++ h) turns' := by
  cases hpassing with
  | quiet hattire hplain =>
    have hsame : s'.machine.debugger = s.machine.debugger := congrArg Attire.debugger hattire
    have hnone : s.dealing? s' = none := by
      by_cases hfinish : ∃ verdict, s.focus = .host (.finish verdict)
      · obtain ⟨verdict, hfinish⟩ := hfinish
        rw [dealing?_of_finish hfinish, hplain verdict hfinish]
        rfl
      · rw [dealing?_of_unfinished fun verdict hfinal => hfinish ⟨verdict, hfinal⟩, hsame]
        cases s.machine.debugger <;> rfl
    rw [hnone]
    exact hm.other (.of_attire hattire)
  | engages d told? verdict hdebugger htold hfocus hmachine =>
    have hengages : s.dealing? s' = some .engage := by
      rw [dealing?_of_unfinished fun verdict => hfocus (.finish verdict), hdebugger, hmachine]
      rfl
    rw [hengages, hmachine]
    refine hm.engage hdebugger fun e he k => ?_
    rcases htold e he with ⟨line, rfl⟩ | ⟨rfl, -⟩ <;> exact ⟨rfl, rfl⟩
  | releases d v hfocus hturn hmachine =>
    rw [dealing?_of_finish hfocus, hturn, hmachine]
    exact hm.release

end State

namespace Dealt
variable {env : Environment δ ν} {m : Machine δ ν} {host : HostCode δ ν ρ} {s : State δ ν ρ} {h : List Dealing}

theorem accounts (hm : m.NeverAttached) (hdealt : Dealt env (m.outset host) h s) :
    ∃ turns, s.InControl turns ∧ s.machine.Accounts h turns := by
  induction hdealt with
  | start => exact ⟨[], State.inControl_outset m host, hm.accounts⟩
  | acts _ hacts hstep hdeals ih =>
    obtain ⟨turns, hcontrol, haccounts⟩ := ih
    exact ⟨turns, hcontrol.acts hacts hstep, haccounts.deals hdeals⟩
  | goes _ hacts hstep ih =>
    obtain ⟨turns, hcontrol, haccounts⟩ := ih
    obtain ⟨turns', hcontrol', hpassing⟩ := hcontrol.passing hacts hstep
    exact ⟨turns', hcontrol', hpassing.accounts haccounts⟩

/-- When no turn is in progress, the machine says truly whether a debugger is attached. Every debugger was told once that
it was attached, and once that it was detached unless it is the one that is attached. That is the one attached last, or
none if there was a detaching after it, unless a detaching came across a turn that had begun before the attachment. -/
theorem lifecycle (hm : m.NeverAttached) (hdealt : Dealt env (m.outset host) h s) (hidle : Dealing.depth h = 0) :
    s.machine.hasDebugger = s.machine.serial?.isSome ∧
      (∀ k, s.machine.attachedTimes k = if k < h.count .attach then 1 else 0) ∧
      (∀ k, s.machine.detachedTimes k = if k < h.count .attach ∧ s.machine.serial? ≠ some k then 1 else 0) ∧
      (Dealing.crossed h = false → s.machine.serial? = Dealing.latest? h) := by
  obtain ⟨turns, -, haccounts⟩ := accounts hm hdealt
  obtain rfl : turns = [] := List.length_eq_zero_iff.1 (haccounts.depth.trans hidle)
  have hticking : s.machine.ticking = false := Bool.eq_false_iff.2 fun hticking => haccounts.ticking hticking rfl
  refine ⟨?_, fun k => ?_, fun k => ?_, fun hcrossed => ?_⟩
  · rw [Machine.hasDebugger, hticking, Machine.serial?, Option.isSome_map]
    exact Bool.or_false _
  · rw [← haccounts.attachments]
    exact haccounts.attached k
  · rw [haccounts.detached, haccounts.attachments]
    simp [Machine.mem_present]
  · have hstands := haccounts.stands hcrossed
    cases hlatest : Dealing.latest? h with
    | none =>
      rw [hlatest] at hstands
      exact hstands.2.1
    | some k =>
      rw [hlatest] at hstands
      rcases hstands with ⟨hk, -⟩ | ⟨-, -, -, rest, hturns, -⟩
      · exact hk
      · cases hturns

end Dealt

/-! ### Debuggers that replace one another -/

/-- So many transitions with their dealings, if none of them is up to host code. -/
def State.dealings? (env : Environment δ ν) (n : Nat) (h : List Dealing) (s : State δ ν ρ) :
    Option (List Dealing × State δ ν ρ) :=
  walk (nextNoted? env (fun s _ => !s.acts) fun h s s' => (s.dealing? s').toList ++ h) n (h, s)

theorem Dealt.dealings {env : Environment δ ν} {s₀ s s' : State δ ν ρ} {h h' : List Dealing} (hdealt : Dealt env s₀ h s)
    {n : Nat} (hdealings : s.dealings? env n h = some (h', s')) : Dealt env s₀ h' s' := by
  refine walk_induction (P := fun r => Dealt env s₀ r.1 r.2) (fun r r' hr hnext => ?_) hdealt hdealings
  obtain ⟨t, hstep, hallowed, rfl⟩ := State.nextNoted?_eq_some.1 hnext
  exact hr.goes (by simpa using hallowed) hstep

def noop : Section :=
  { code := (List.flatMap Instruction.encode [⟨.all, (0, ())⟩, ⟨.ret, (0, ())⟩]).toArray }

def loadNoop : Machine Bool Unit :=
  (Machine.new {} {}).modifyCore fun c => { c with sections := (c.sections.add noop).2 }

def attachAndCall : HostCode Bool Unit (Except Failure Execution) :=
  .act fun m => (.enter (.call 0 []) .finish, m.attach true)

def called : State Bool Unit (Except Failure Execution) :=
  .enter (loadNoop.attach true) [] (fun r => .finish (.host r)) (.call 0 [])

def calledAgain (m : Machine Bool Unit) : State Bool Unit (Except Failure Execution) :=
  ⟨m, .host (.enter (.call 0 []) fun _ => .finish (.tick ⟨0, false⟩ (.ok ()))), called.waiting⟩

theorem Dealt.act {env : Environment δ ν} {s₀ : State δ ν ρ} {h h' : List Dealing} {m m' : Machine δ ν}
    {f : Machine δ ν → Task δ ν ρ × Machine δ ν} {waiting : List (Waiting δ ν ρ)} {task : Task δ ν ρ}
    (hdealt : Dealt env s₀ h ⟨m, .host (.act f), waiting⟩) (hf : f m = (task, m')) (hdeals : m.Deals h' m') :
    Dealt env s₀ (h' ++ h) ⟨m', .host task, waiting⟩ := by
  have hstep : State.step env ⟨m, .host (.act f), waiting⟩ = .inl ⟨m', .host task, waiting⟩ := by
    rw [State.step, hf]
  exact hdealt.acts rfl hstep hdeals

/-- A debugger that makes a change to the machine in its first turn and then calls the section. In the others it does
nothing. -/
def Debugging.changing (change : Machine Bool Unit → Machine Bool Unit) : Debugging Bool Unit :=
  { tick := fun first =>
      if first then .act fun m => (.enter (.call 0 []) fun _ => .finish (.ok (), false), change m)
      else .finish (.ok (), false)
    traces := fun _ => false
    inline := fun _ => false }

theorem dealt_calledAgain (change : Machine Bool Unit → Machine Bool Unit) {h : List Dealing}
    (hdeals : ∀ m : Machine Bool Unit, m.Deals h (change m)) :
    Dealt { debugging := .changing change } (loadNoop.outset attachAndCall) (h ++ [Dealing.engage, Dealing.attach])
      (calledAgain (change called.machine.handOver)) := by
  have hstart : Dealt { debugging := .changing change } (loadNoop.outset attachAndCall) []
      ⟨loadNoop, .host (.act fun m => (.enter (.call 0 []) fun r => .finish (.host r), m.attach true)), []⟩ :=
    .start
  have hattached := hstart.act rfl (.attach true .start)
  have hturn : Dealt { debugging := .changing change } (loadNoop.outset attachAndCall) [.engage, .attach]
      ⟨called.machine.handOver, .host (((Debugging.changing change).tick true).bind fun r =>
        .finish (.tick ⟨0, r.2⟩ r.1)), called.waiting⟩ :=
    Dealt.dealings (h := [.attach]) hattached (n := 2) (by cbv)
  exact hturn.act rfl (hdeals _)

/-- One debugger is attached by another during its turn and has turns of its own in it. -/
theorem lifecycle_replaced :
    loadNoop.NeverAttached ∧ ∃ h s,
      Dealt { debugging := .changing (·.attach false) } (loadNoop.outset attachAndCall) h s ∧
      Dealing.depth h = 0 ∧ Dealing.crossed h = false ∧ Dealing.latest? h = some 1 ∧ s.machine.hasDebugger = true ∧
      s.machine.serial? = some 1 ∧ s.machine.detachedTimes 0 = 1 ∧ s.machine.detachedTimes 1 = 0 := by
  have hnever : loadNoop.NeverAttached := ⟨rfl, rfl, rfl, rfl, fun _ => ⟨rfl, rfl⟩⟩
  have hcalled := dealt_calledAgain (·.attach false) fun m => .attach false .start
  have hrun : ((calledAgain (called.machine.handOver.attach false)).dealings? { debugging := .changing (·.attach false) } 14
      [.attach, .engage, .attach]).map Prod.fst =
        some [.release, .engage, .release, .release, .engage, .release, .engage, .attach, .engage, .attach] := by cbv
  obtain ⟨⟨h, s⟩, hdealings, hhistory⟩ := Option.map_eq_some_iff.1 hrun
  cases hhistory
  have hdealt := hcalled.dealings hdealings
  obtain ⟨hasks, -, htold, hstays⟩ := hdealt.lifecycle hnever rfl
  have hone := hstays rfl
  have hzero := htold 0
  have htold := htold 1
  rw [hone] at hasks hzero htold
  exact ⟨hnever, _, s, hdealt, rfl, rfl, rfl, hasks, hone, hzero, htold⟩

/-- A debugger asks in its turn to be detached, attaches another one and calls the section. The other one's turn there
takes the mark, and at the end the first debugger is attached although the other one came after the detaching. -/
theorem lifecycle_exchanged :
    loadNoop.NeverAttached ∧ ∃ h s,
      Dealt { debugging := .changing fun m => m.detach.attach false } (loadNoop.outset attachAndCall) h s ∧
      Dealing.depth h = 0 ∧ Dealing.latest? h = some 1 ∧ s.machine.serial? = some 0 := by
  have hcalled := dealt_calledAgain (fun m => m.detach.attach false) fun m => .attach false (.detach .start)
  have hrun : ((calledAgain (called.machine.handOver.detach.attach false)).dealings?
      { debugging := .changing fun m => m.detach.attach false } 13 [.attach, .detach, .engage, .attach]).map
        (fun r => (r.1, r.2.machine.serial?)) =
          some ([.release, .engage, .release, .release, .engage, .attach, .detach, .engage, .attach], some 0) := by cbv
  obtain ⟨⟨h, s⟩, hdealings, hend⟩ := Option.map_eq_some_iff.1 hrun
  obtain ⟨rfl, hserial⟩ := Prod.mk.inj hend
  exact ⟨⟨rfl, rfl, rfl, rfl, fun _ => ⟨rfl, rfl⟩⟩, _, s, hcalled.dealings hdealings, rfl, rfl, hserial⟩

end ScriptVm
