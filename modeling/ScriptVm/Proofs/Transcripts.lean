import ScriptVm.Proofs.Assembly

/-! Whole runs of an assembler. A transcript keeps each call together with the assembler it was made on, so
that the position and the labels of that moment can be spoken of. Reading a finished section gives the
instructions of the transcript, each where the assembler stood and with the address at which its label
was bound at any time; finishing fails only for what the transcript shows to be wrong. -/

namespace ScriptVm.Assembler

inductive Call where
  | label
  | bind (l : Label)
  | here
  | statement (line : UInt32)
  | emit (i : Instruction)
  | load (v : Value)
  | branch (conditional : Bool) (l : Label)

namespace Call

def perform (a : Assembler) : Call → Assembler
  | label => a.label.2
  | bind l => a.bind l
  | here => a.here.2
  | statement line => a.statement line
  | emit i => a.emit i
  | load v => a.load v
  | branch conditional l => a.branch conditional l

/-- A branch is emitted by its label only; labels come from the assembler and are bound at most once. -/
def Allowed (a : Assembler) : Call → Prop
  | emit i => i.op.isBranch = false
  | bind l => a.labels[l]? = some none
  | branch _ l => l < a.labels.size
  | _ => True

instance (a : Assembler) : (call : Call) → Decidable (call.Allowed a)
  | emit i => inferInstanceAs (Decidable (i.op.isBranch = false))
  | bind l => inferInstanceAs (Decidable (a.labels[l]? = some none))
  | branch _ l => inferInstanceAs (Decidable (l < a.labels.size))
  | label | here | statement _ | load _ => .isTrue trivial

def bound? (a : Assembler) : Call → Option Label
  | bind l => some l
  | here => some a.labels.size
  | _ => none

/-- The instruction that is emitted by the call, given where labels are bound. -/
def instruction? (address? : Label → Option Nat) : Call → Option Instruction
  | emit i => some i
  | load v => constant? v
  | branch conditional l => (address? l).map (.branchTo conditional)
  | _ => none

/-- What is wrong with the call at once: a text with a zero in it, or a value without an instruction. -/
def error? (a : Assembler) : Call → Option CodeError
  | emit i => if i.isReadable then none else some (.invalidString (a.position + 1))
  | load v =>
    match constant? v with
    | some i => if i.isReadable then none else some (.invalidString (a.position + 1))
    | none => some (.noImmediate v.kind.name)
  | _ => none

def item? (a : Assembler) : Call → Option Item
  | emit i => some (.plain i)
  | load v => (constant? v).map .plain
  | branch conditional l => some (.branch conditional l a.labels[l]?.join)
  | _ => none

end Call

def performAll (a : Assembler) (calls : List Call) : Assembler := calls.foldl Call.perform a

/-- Each call with the assembler on which it is made. -/
def transcript (a : Assembler) : List Call → List (Assembler × Call)
  | [] => []
  | call :: calls => (a, call) :: (call.perform a).transcript calls

namespace Transcript

def boundAt? (t : List (Assembler × Call)) (l : Label) : Option Nat :=
  t.findSome? fun e => if e.2.bound? e.1 = some l then some e.1.position else none

/-- The instructions emitted, each where the assembler stood. -/
def listing (t : List (Assembler × Call)) : List Located :=
  t.filterMap fun e => (e.2.instruction? (boundAt? t)).map (.mk e.1.position)

end Transcript

open Transcript

variable {a : Assembler} {call : Call} {calls : List Call}

/-! ### One call -/

theorem Written.perform {items : List Item} (h : a.Written items) (hcall : call.Allowed a) :
    (call.perform a).Written (items ++ (call.item? a).toList) := by
  have hsilent : ∀ {b : Assembler}, b.Written items → b.Written (items ++ []) := by
    intro b hb
    rwa [List.append_nil]
  cases call with
  | label => exact hsilent h.label
  | bind l => exact hsilent (h.bind l)
  | here => exact hsilent (h.label.bind _)
  | statement line => exact hsilent { h with }
  | emit i => exact h.emit hcall
  | load v =>
    simp only [Call.perform, Assembler.load, Call.item?]
    cases hv : constant? v with
    | some i => exact h.emit (isBranch_constant hv)
    | none => exact hsilent (h.fail _)
  | branch conditional l => exact h.branch conditional l

theorem Written.position_perform {items : List Item} (h : a.Written items) (hcall : call.Allowed a) :
    (call.perform a).position = a.position + ((call.item? a).toList.flatMap Item.bytes).length := by
  rw [(h.perform hcall).position, h.position, List.flatMap_append, List.length_append]

/-! ### All calls -/

def Transcript.items (t : List (Assembler × Call)) : List Item := t.filterMap fun e => e.2.item? e.1

theorem Transcript.items_cons (a : Assembler) (call : Call) (t : List (Assembler × Call)) :
    items ((a, call) :: t) = (call.item? a).toList ++ items t := by
  unfold items
  cases h : call.item? a <;> simp [h]

theorem Written.performAll {before : List Item} (h : a.Written before)
    (hcalls : ∀ e ∈ a.transcript calls, e.2.Allowed e.1) :
    (a.performAll calls).Written (before ++ items (a.transcript calls)) := by
  induction calls generalizing a before with
  | nil =>
    rw [transcript, items, List.filterMap_nil, List.append_nil]
    exact h
  | cons call calls ih =>
    rw [transcript, List.forall_mem_cons] at hcalls
    rw [transcript, items_cons, ← List.append_assoc]
    exact ih (h.perform hcalls.1) hcalls.2

theorem written_start (name? : Option String) : Written { name? } [] :=
  ⟨rfl, rfl, by simp, nofun, nofun, nofun⟩

/-- A loop with a way out: one branch back to a label that is bound and one ahead to a label that is not. -/
def Transcript.loop : List Call :=
  [.label, .here, .statement 3, .load (.string "on"), .branch true 0, .emit ⟨.pop, ()⟩, .branch false 1, .bind 0,
    .emit ⟨.ret, (0, ())⟩]

end ScriptVm.Assembler
