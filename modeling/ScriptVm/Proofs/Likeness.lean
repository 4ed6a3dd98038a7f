import ScriptVm.Proofs.Bookkeeping
import ScriptVm.Machine.Control

/-! Two runs beside each other whose machines differ in the collector's bookkeeping alone. Host code that
does not look at the bookkeeping is like itself: on such machines it does the same, as long as what it
is given is the same up to flags of handles. -/

namespace ScriptVm
open Eraser (bookkeeping)
variable {δ ν ρ α β γ : Type}

/-- The machine without the collector's bookkeeping: no node ids, no nodes and no flags of roots. The
operand stack, the flags, the variables, the rows, who shares them and how many hold them are left. -/
def Machine.erased (m : Machine δ ν) : Machine δ ν := { m with core := bookkeeping.core m.core }

/-- What a call gives, the values without flags. -/
def Execution.share : Execution → Execution
  | .finished vs => .finished (vs.map Value.share)
  | .suspended => .suspended

def Entry.share : Entry → Entry
  | .call index arguments => .call index (arguments.map Value.share)
  | .execute index ready => .execute index ready
  | .resume => .resume

/-- Two machines that differ in the bookkeeping alone. -/
def Machine.Agrees (m m' : Machine δ ν) : Prop := m.erased = m'.erased

/-- Two outcomes that differ in flags of handles alone; a failure has the same fault and trace. -/
def Execution.Agrees (o o' : Except Failure Execution) : Prop := o.map Execution.share = o'.map Execution.share

/-- Host code on two machines, in step: from machines that agree to machines that agree, into the same
sections with the same arguments, and with results that `r` relates. -/
inductive HostCode.Alike (r : α → α → Prop) : HostCode δ ν α → HostCode δ ν α → Prop where
  | finish {a b : α} : r a b → Alike r (.finish a) (.finish b)
  | act {f g : Machine δ ν → HostCode δ ν α × Machine δ ν} :
      (∀ m m', m.Agrees m' → Alike r (f m).1 (g m').1) →
      (∀ m m', m.Agrees m' → (f m).2.Agrees (g m').2) → Alike r (.act f) (.act g)
  | enter {entry entry' : Entry} {next next' : Except Failure Execution → HostCode δ ν α} :
      entry.share = entry'.share →
      (∀ o o', Execution.Agrees o o' → Alike r (next o) (next' o')) → Alike r (.enter entry next) (.enter entry' next')

def Native.Agrees (x x' : Except Fault (Option Value)) : Prop :=
  x.map (Option.map Value.share) = x'.map (Option.map Value.share)

/-- Natives and debuggers that do not look at the bookkeeping. -/
structure Environment.Indifferent (env : Environment δ ν) : Prop where
  natives : ∀ n ∈ env.natives, ∀ vs vs' : List Value, vs.map Value.share = vs'.map Value.share →
    HostCode.Alike Native.Agrees (n.body vs) (n.body vs')
  tick : ∀ d, HostCode.Alike Eq (env.debugging.tick d) (env.debugging.tick d)

/-! ### Machines -/

namespace Machine
variable {m m' : Machine δ ν}

theorem erased_exec {x : Exec α} {y : Exec β} {e : α → β} (h : bookkeeping.Erases e x y) (m : Machine δ ν) :
    m.erased.exec y = ((m.exec x).1.map e, (m.exec x).2.erased) := by
  have hcore : m.erased.core = bookkeeping.core m.core := rfl
  have hrun := h m.core
  unfold exec
  rw [hcore]
  cases hx : x m.core <;> rw [hx] at hrun <;> rw [hrun.1] <;> rfl

theorem Agrees.exec {x : Exec α} {x' : Exec β} {y : Exec γ} {e : α → γ} {e' : β → γ} (hm : m.Agrees m')
    (hx : bookkeeping.Erases e x y) (hx' : bookkeeping.Erases e' x' y) :
    (m.exec x).1.map e = (m'.exec x').1.map e' ∧ (m.exec x).2.Agrees (m'.exec x').2 := by
  have hrun : m.erased.exec y = m'.erased.exec y := by rw [hm]
  rw [erased_exec hx, erased_exec hx'] at hrun
  exact Prod.mk.inj hrun

theorem Agrees.exec_cases {x : Exec α} {x' : Exec β} {y : Exec γ} {e : α → γ} {e' : β → γ} (hm : m.Agrees m')
    (hx : bookkeeping.Erases e x y) (hx' : bookkeeping.Erases e' x' y) :
    (∃ a a' n n', m.exec x = (.ok a, n) ∧ m'.exec x' = (.ok a', n') ∧ e a = e' a' ∧ n.Agrees n') ∨
      ∃ f n n', m.exec x = (.error f, n) ∧ m'.exec x' = (.error f, n') ∧ n.Agrees n' := by
  obtain ⟨hresult, hmachine⟩ := hm.exec hx hx'
  rcases hrun : m.exec x with ⟨f | a, n⟩ <;> rcases hrun' : m'.exec x' with ⟨f' | a', n'⟩ <;>
    rw [hrun, hrun'] at hresult hmachine
  · obtain rfl : f = f' := Except.error.inj hresult
    exact Or.inr ⟨f, n, n', rfl, rfl, hmachine⟩
  · cases hresult
  · cases hresult
  · exact Or.inl ⟨a, a', n, n', rfl, rfl, Except.ok.inj hresult, hmachine⟩

theorem Agrees.modifyCore {f g : Core → Core} {k : Core → Core} (hm : m.Agrees m')
    (hf : ∀ c, bookkeeping.core (f c) = k (bookkeeping.core c))
    (hg : ∀ c, bookkeeping.core (g c) = k (bookkeeping.core c)) : (m.modifyCore f).Agrees (m'.modifyCore g) :=
  (hm.exec (Eraser.erases_modify (fun c => (hf c).symm) fun _ => rfl)
    (Eraser.erases_modify (fun c => (hg c).symm) fun _ => rfl)).2

theorem Agrees.congr (hm : m.Agrees m') (f : Machine δ ν → α) (hf : ∀ m : Machine δ ν, f m.erased = f m) : f m = f m' := by
  rw [← hf m, ← hf m', hm]

theorem Agrees.map (hm : m.Agrees m') (f : Machine δ ν → Machine δ ν)
    (hf : ∀ m : Machine δ ν, (f m).erased = f m.erased) : (f m).Agrees (f m') := by
  unfold Agrees
  rw [hf, hf, hm]

theorem Agrees.traced (hm : m.Agrees m') (f : Fault) : m.traced f = m'.traced f := hm.congr (·.traced f) fun _ => rfl

theorem Agrees.tell (hm : m.Agrees m') (e : Event δ ν) : (m.tell e).Agrees (m'.tell e) := hm.map (·.tell e) fun _ => rfl

theorem Agrees.handOver (hm : m.Agrees m') : m.handOver.Agrees m'.handOver := hm.map (·.handOver) fun _ => rfl

theorem Agrees.takeBack (hm : m.Agrees m') (d : Attached δ) : (m.takeBack d).Agrees (m'.takeBack d) := by
  refine hm.map (·.takeBack d) fun m => ?_
  cases hleaves : m.detachPending || m.debugger.isSome
  · have herased : (m.erased.detachPending || m.erased.debugger.isSome) = false := hleaves
    simp only [Machine.takeBack, hleaves, herased]
    rfl
  · have herased : (m.erased.detachPending || m.erased.debugger.isSome) = true := hleaves
    simp only [Machine.takeBack, hleaves, herased]
    rfl

end Machine

/-! ### Host code -/

theorem Program.bindResult_fst {σ : Type} (p : Program σ α × σ) (k : α → Program σ β) :
    (Program.bindResult p k).1 = p.1.bind k := by
  obtain ⟨p, s⟩ := p
  rfl

theorem Program.bindResult_snd {σ : Type} (p : Program σ α × σ) (k : α → Program σ β) :
    (Program.bindResult p k).2 = p.2 := by
  obtain ⟨p, s⟩ := p
  rfl

theorem State.step_act (env : Environment δ ν) (m : Machine δ ν) (f : Machine δ ν → HostCode δ ν α × Machine δ ν)
    (k : α → Task δ ν ρ) (waiting : List (Waiting δ ν ρ)) :
    State.step env ⟨m, .host (Program.bind (.act f) k), waiting⟩ = .inl ⟨(f m).2, .host ((f m).1.bind k), waiting⟩ :=
  congrArg Sum.inl (congrArg₂ (fun task n => State.mk n (.host task) waiting)
    (Program.bindResult_fst (f m) k) (Program.bindResult_snd (f m) k))

namespace HostCode

theorem Alike.bind {r : α → α → Prop} {s : β → β → Prop} {p q : HostCode δ ν α} {k k' : α → HostCode δ ν β}
    (h : Alike r p q) (hk : ∀ a b, r a b → Alike s (k a) (k' b)) : Alike s (p.bind k) (q.bind k') := by
  induction h with
  | finish hab => exact hk _ _ hab
  | act _ hstate ih =>
    refine .act (fun m m' hm => ?_) fun m m' hm => ?_
    · rw [Program.bindResult_fst, Program.bindResult_fst]
      exact ih m m' hm
    · rw [Program.bindResult_snd, Program.bindResult_snd]
      exact hstate m m' hm
  | enter hentry _ ih => exact .enter hentry fun o o' ho => ih o o' ho

theorem alike_state {r : α → α → Prop} {f g : Machine δ ν → α × Machine δ ν}
    (h : ∀ m m', m.Agrees m' → r (f m).1 (g m').1 ∧ (f m).2.Agrees (g m').2) : Alike r (Program.state f) (Program.state g) :=
  .act (fun m m' hm => .finish (h m m' hm).1) fun m m' hm => (h m m' hm).2

theorem alike_exec {x x' : Exec α} {y : Exec β} {e : α → β} (hx : bookkeeping.Erases e x y) (hx' : bookkeeping.Erases e x' y) :
    Alike (δ := δ) (ν := ν) (fun a b => a.map e = b.map e) (Program.state (·.exec x)) (Program.state (·.exec x')) :=
  alike_state fun _ _ hm => hm.exec hx hx'

theorem alike_run {entry entry' : Entry} (h : entry.share = entry'.share) :
    Alike (δ := δ) (ν := ν) Execution.Agrees (Program.run entry) (Program.run entry') :=
  .enter h fun _ _ ho => .finish ho

/-- Sections run one after the other, with what each of them came to. -/
def runAll : List Entry → HostCode δ ν (List (Except Failure Execution))
  | [] => .finish []
  | entry :: entries => (Program.run entry).bind fun o => (runAll entries).bind fun os => .finish (o :: os)

theorem alike_runAll (entries : List Entry) :
    Alike (δ := δ) (ν := ν) (List.Forall₂ Execution.Agrees) (runAll entries) (runAll entries) := by
  induction entries with
  | nil => exact .finish .nil
  | cons entry entries ih =>
    exact (alike_run rfl).bind fun o o' ho => ih.bind fun os os' hos => .finish (.cons ho hos)

end HostCode
end ScriptVm
