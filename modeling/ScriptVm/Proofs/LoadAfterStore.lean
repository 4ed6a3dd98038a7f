import ScriptVm.Proofs.Addressing

/-! Every store instruction has a load instruction of its kind. Given the operands that the store took, the load pushes
what was stored, and whatever the store did not address is read as before. -/

namespace ScriptVm

/-- The stores with the loads of their kind: how they address a variable, and through how many cells. -/
inductive Paired : Mode → Nat → Instruction → Instruction → Prop where
  | stl (i : UInt32) : Paired (.slot i) 0 ⟨.stl, (i, ())⟩ ⟨.ldl, (i, ())⟩
  | sts (id : VariableId) : Paired (.self id) 0 ⟨.sts, (id, ())⟩ ⟨.lds, (id, ())⟩
  | sto (id : VariableId) : Paired (.owner id) 0 ⟨.sto, (id, ())⟩ ⟨.ldo, (id, ())⟩
  | stg (id : VariableId) : Paired (.global id) 0 ⟨.stg, (id, ())⟩ ⟨.ldg, (id, ())⟩
  | stla (i : UInt32) : Paired (.slot i) 1 ⟨.stla, (i, ())⟩ ⟨.ldla, (i, ())⟩
  | stsa (id : VariableId) : Paired (.self id) 1 ⟨.stsa, (id, ())⟩ ⟨.ldsa, (id, ())⟩
  | stoa (id : VariableId) : Paired (.owner id) 1 ⟨.stoa, (id, ())⟩ ⟨.ldoa, (id, ())⟩
  | stga (id : VariableId) : Paired (.global id) 1 ⟨.stga, (id, ())⟩ ⟨.ldga, (id, ())⟩
  | stlax (i depth : UInt32) :
      Paired (.slot i) (depth.toNat + 1) ⟨.stlax, (i, depth, ())⟩ ⟨.ldlax, (i, depth, ())⟩
  | stoax (id : VariableId) (depth : UInt32) :
      Paired (.owner id) (depth.toNat + 1) ⟨.stoax, (id, depth, ())⟩ ⟨.ldoax, (id, depth, ())⟩

def Core.denoted (c : Core) (v : Value) : Owner :=
  match (v.coerce .int64 : Except Fault Int64) with
  | .ok id => c.owner id
  | .error _ => .noone

/-- The variables addressed, given the operands. The owner is the last of them. -/
def Mode.spots (c : Core) (operands : List Value) : Mode → List Spot
  | .slot index => [.slot (c.executor.base + index.toNat)]
  | .self id => (c.owner OwnerId.self).spots id
  | .owner id => (operands.getLast?.elim .noone c.denoted).spots id
  | .global id => [.global id]

namespace Paired
variable {mode : Mode} {cells : Nat} {st ld : Instruction}
open Exec

theorem effect_store (h : Paired mode cells st ld) : st.effect = mode.storing cells := by
  cases h <;> exact Instruction.effect_form _

theorem effect_load (h : Paired mode cells st ld) : ld.effect = mode.loading cells := by
  cases h <;> exact Instruction.effect_form _

theorem execute_store (h : Paired mode cells st ld) (natives : UInt32 → Option Signature) :
    st.execute natives = (mode.storing cells >>= fun _ => pure .next) := by
  rw [← h.effect_store]
  cases h <;> rfl

theorem execute_load (h : Paired mode cells st ld) (natives : UInt32 → Option Signature) :
    ld.execute natives = (mode.loading cells >>= fun _ => pure .next) := by
  rw [← h.effect_load]
  cases h <;> rfl

end Paired

/-! ### Operands -/

theorem Core.owner_laden (c : Core) (vs : List Value) (memory : Memory) (id : Int64) :
    (c.laden vs memory).owner id = c.owner id := rfl

theorem Core.laden_laden (c : Core) (vs ws : List Value) (memory memory' : Memory) :
    (c.laden vs memory).laden ws memory' = c.laden (vs ++ ws) memory' := by
  simp [laden, Array.append_assoc]

theorem Core.laden_nil (c : Core) : c.laden [] c.memory = c := by simp [laden]

theorem Value.target?_of_coerce {v : Value} {t : CastTarget} {a : t.Carrier} (h : v.coerce t = .ok a) :
    v.target? = none := by
  cases v with
  | array k => cases t <;> cases h
  | _ => rfl

namespace Exec
variable {α β : Type}

/-- Takes so many values off the stack and does nothing else. What it makes of them depends on what owner ids denote
at most. -/
def Draws (count : Nat) (x : Exec α) : Prop :=
  ∀ c a c', x c = .ok a c' → ∃ ops : List Value, ops.length = count ∧ c = c'.laden ops c'.memory ∧
    ∀ d : Core, (∀ id, d.owner id = c'.owner id) → x (d.laden ops d.memory) = .ok a d

theorem bind_ok {x : Exec α} {f : α → Exec β} {c c' : Core} {b : β} (h : (x >>= f) c = .ok b c') :
    ∃ a c₁, x c = .ok a c₁ ∧ f a c₁ = .ok b c' := by
  change EStateM.bind x f c = _ at h
  unfold EStateM.bind at h
  cases hxc : x c with
  | ok a c₁ =>
    rw [hxc] at h
    exact ⟨a, c₁, rfl, h⟩
  | error e c₁ =>
    rw [hxc] at h
    cases h

theorem bind_of_ok {x : Exec α} {f : α → Exec β} {c c₁ : Core} {a : α} (h : x c = .ok a c₁) : (x >>= f) c = f a c₁ := by
  simp only [Bind.bind, EStateM.bind, h]

theorem draws_pure (a : α) : Draws 0 (pure a : Exec α) := by
  intro c b c' h
  cases h
  refine ⟨[], rfl, c.laden_nil.symm, fun d _ => ?_⟩
  rw [d.laden_nil]
  rfl

theorem draws_throw (f : Fault) : Draws 0 (throw f : Exec α) := fun _ _ _ h => nomatch h

theorem Draws.bind {k l : Nat} {x : Exec α} {f : α → Exec β} (hx : Draws k x) (hf : ∀ a, Draws l (f a)) :
    Draws (l + k) (x >>= f) := by
  intro c b c' h
  obtain ⟨a, c₁, hxc, hfc⟩ := bind_ok h
  obtain ⟨ops, hlength, hc, hops⟩ := hx c a c₁ hxc
  obtain ⟨ops', hlength', hc', hops'⟩ := hf a c₁ b c' hfc
  have howner : ∀ id, c₁.owner id = c'.owner id := fun id => by rw [hc', Core.owner_laden]
  have hmemory : c₁.memory = c'.memory := by
    rw [hc']
    rfl
  refine ⟨ops' ++ ops, by simp [hlength, hlength'], ?_, fun d hd => ?_⟩
  · rw [hc, hmemory, hc', Core.laden_laden]
  · have hfirst := hops (d.laden ops' d.memory) fun id => (hd id).trans (howner id).symm
    change x ((d.laden ops' d.memory).laden ops d.memory) = _ at hfirst
    rw [Core.laden_laden] at hfirst
    rw [bind_of_ok hfirst]
    exact hops' d hd

theorem pop_ok {v : Value} {c c' : Core} (h : pop c = .ok v c') : c = c'.laden [v] c'.memory := by
  unfold pop onExecutor Executor.pop at h
  cases hback : c.executor.stack.back? with
  | none =>
    rw [hback] at h
    cases h
  | some w =>
    rw [hback] at h
    cases h
    have hstack : c.executor.stack.pop ++ #[v] = c.executor.stack := by
      rw [← Array.toList_inj, Array.toList_append, toList_eq_pop hback]
    simp only [Core.laden, hstack]

theorem pop_laden (v : Value) (d : Core) : pop (d.laden [v] d.memory) = .ok v d := by
  have hstack : (d.laden [v] d.memory).executor.stack = d.executor.stack.push v := by simp [Core.laden]
  exact pop_of_push hstack

theorem release_null {v : Value} (hv : v.target? = none) (m : Memory) : m.release [v] = m := by
  rw [Memory.release, Heap.release_nulls (by simp [hv])]

/-- A value that can be coerced is no array, so nothing goes with it. -/
theorem popCoerced_ok {t : CastTarget} {a : t.Carrier} {c c' : Core} (h : popCoerced t c = .ok a c') :
    ∃ v, v.coerce t = .ok a ∧ c = c'.laden [v] c'.memory := by
  obtain ⟨v, c₁, hpop, hrest⟩ := bind_ok h
  change (ofExcept (v.coerce t) : Exec t.Carrier) { c₁ with memory := c₁.memory.release [v] } = .ok a c' at hrest
  cases hv : v.coerce t with
  | error f =>
    rw [hv] at hrest
    cases hrest
  | ok b =>
    rw [hv, release_null (Value.target?_of_coerce hv)] at hrest
    cases hrest
    exact ⟨v, hv, pop_ok hpop⟩

theorem popCoerced_laden {t : CastTarget} {a : t.Carrier} {v : Value} (hv : v.coerce t = .ok a) (d : Core) :
    popCoerced t (d.laden [v] d.memory) = .ok a d := by
  unfold popCoerced
  rw [bind_of_ok (pop_laden v d)]
  change (ofExcept (v.coerce t) : Exec t.Carrier) { d with memory := d.memory.release [v] } = _
  rw [hv, release_null (Value.target?_of_coerce hv)]
  rfl

theorem draws_popCoerced (t : CastTarget) : Draws 1 (popCoerced t) := by
  intro c a c' h
  obtain ⟨v, hv, hc⟩ := popCoerced_ok h
  exact ⟨[v], rfl, hc, fun d _ => popCoerced_laden hv d⟩

theorem draws_popCell : Draws 2 popCell := by
  refine (draws_popCoerced .int).bind fun col => ?_
  refine Draws.bind (k := 1) (l := 0) (draws_popCoerced .int) fun row => ?_
  split_ifs
  · exact draws_pure _
  · exact draws_throw _

theorem draws_popPath (cells : Nat) : Draws (2 * cells) (popPath cells) := by
  induction cells with
  | zero => exact draws_pure []
  | succ cells ih =>
    refine Draws.bind (k := 2) (l := 2 * cells) draws_popCell fun cell => ?_
    have hrest := ih.bind fun path => draws_pure (cell :: path)
    rwa [Nat.zero_add] at hrest

theorem popOwner_ok {owner : Owner} {c c' : Core} (h : popOwner c = .ok owner c') :
    ∃ v, c = c'.laden [v] c'.memory ∧ c'.denoted v = owner ∧
      ∀ d : Core, (∀ id, d.owner id = c'.owner id) → popOwner (d.laden [v] d.memory) = .ok owner d := by
  obtain ⟨id, c₁, hpop, hrest⟩ := bind_ok h
  obtain ⟨v, hv, hc⟩ := popCoerced_ok hpop
  cases hrest
  refine ⟨v, hc, ?_, fun d hd => ?_⟩
  · unfold Core.denoted
    rw [hv]
  · unfold popOwner
    rw [bind_of_ok (popCoerced_laden hv d), ← hd id]
    rfl

end Exec

open Exec in
/-- The operands of a store, taken off the stack, say what it addresses. With them a load takes the same course, as
long as owner ids denote the same. -/
theorem Mode.operands_ok {mode : Mode} {cells : Nat} {target : Target} {path : List Cell} {c c' : Core}
    (h : mode.operands cells c = .ok (target, path) c') :
    ∃ ops : List Value, ops.length = mode.arity cells ∧ c = c'.laden ops c'.memory ∧
      target.spots c'.executor.base = mode.spots c' ops ∧
      ∀ d : Core, (∀ id, d.owner id = c'.owner id) →
        mode.operands cells (d.laden ops d.memory) = .ok (target, path) d := by
  cases mode with
  | slot _ | global _ =>
    obtain ⟨path, c₁, hpath, hrest⟩ := bind_ok h
    cases hrest
    obtain ⟨ops, hlength, hc, hops⟩ := draws_popPath cells _ _ _ hpath
    exact ⟨ops, hlength, hc, rfl, fun d hd => bind_of_ok (hops d hd)⟩
  | self id =>
    obtain ⟨path, c₁, hpath, hrest⟩ := bind_ok h
    cases hrest
    obtain ⟨ops, hlength, hc, hops⟩ := draws_popPath cells _ _ _ hpath
    refine ⟨ops, hlength, hc, rfl, fun d hd => ?_⟩
    refine (bind_of_ok (hops d hd)).trans ?_
    rw [← hd OwnerId.self]
    rfl
  | owner id =>
    obtain ⟨owner, c₁, howner, hrest⟩ := bind_ok h
    obtain ⟨path, c₂, hpath, hrest⟩ := bind_ok hrest
    cases hrest
    obtain ⟨v, hc, hdenoted, hload⟩ := popOwner_ok howner
    obtain ⟨ops, hlength, rfl, hops⟩ := draws_popPath cells _ _ _ hpath
    rw [Core.laden_laden] at hc
    refine ⟨ops ++ [v], by simp [hlength, arity], hc, ?_, fun d hd => ?_⟩
    · change owner.spots id = ((ops ++ [v]).getLast?.elim .noone c'.denoted).spots id
      rw [List.getLast?_concat]
      exact congrArg (Owner.spots id) hdenoted.symm
    · have hfirst := hload (d.laden ops d.memory) hd
      change popOwner ((d.laden ops d.memory).laden [v] d.memory) = _ at hfirst
      rw [Core.laden_laden] at hfirst
      exact (bind_of_ok hfirst).trans (bind_of_ok (hops d hd))

/-! ### A store, and then a load -/

namespace Exec

theorem orDrop_ok {α : Type} {vs : List Value} {x : Exec α} {a : α} {c c' : Core} (h : orDrop vs x c = .ok a c') :
    x c = .ok a c' := by
  unfold orDrop at h
  cases hxc : x c <;> rw [hxc] at h <;> cases h
  rfl

theorem localSlot_of_store {index : UInt32} {path : List Cell} {v : Value} {c c' : Core}
    (h : Target.store path v (.slot index) c = .ok () c') : ∃ slot, c.executor.localSlot index = .ok slot := by
  obtain ⟨slot, c₁, hslot, -⟩ := bind_ok h
  have hfound : (ofExcept (c.executor.localSlot index) : Exec Nat) c = .ok slot c₁ := orDrop_ok hslot
  cases hlocal : c.executor.localSlot index with
  | ok slot => exact ⟨slot, rfl⟩
  | error f =>
    rw [hlocal] at hfound
    cases hfound

end Exec

theorem Executor.localSlot_mono {e e' : Executor} {index : UInt32} {slot : Nat} (hbase : e'.base = e.base)
    (hsize : e.stack.size ≤ e'.stack.size) (h : e.localSlot index = .ok slot) : e'.localSlot index = .ok slot := by
  obtain ⟨-, hlt⟩ := localSlot_eq_ok h
  unfold localSlot at h ⊢
  rw [hbase]
  cases hword : Word.add e.base index.toNat with
  | error f =>
    rw [hword] at h
    cases h
  | ok sum =>
    rw [hword] at h
    change (if sum < e.stack.size then Except.ok sum else _) = _ at h
    change (if sum < e'.stack.size then Except.ok sum else _) = _
    split_ifs at h
    cases h
    exact if_pos (hlt.trans_le hsize)

theorem Mode.spots_laden (mode : Mode) (c : Core) (ops vs : List Value) (memory : Memory) :
    mode.spots (c.laden vs memory) ops = mode.spots c ops := by
  cases mode <;> rfl

namespace Core
variable {c c₀ c₁ : Core} {held : List Value} {mode : Mode} {cells : Nat} {st ld : Instruction}

/-- What lies on the stack below the operands, and everything off it, is read the same once they have left it. -/
theorem read?_laden (c : Core) (vs : List Value) {spot : Spot} (hspot : ∀ i, spot = .slot i → i < c.executor.stack.size)
    (path : List Cell) : (c.laden vs c.memory).read? spot path = c.read? spot path := by
  cases spot with
  | slot index =>
    have hlt := hspot index rfl
    have hcell : (c.laden vs c.memory).content? (.slot index) = c.content? (.slot index) := by
      simp [content?, laden, Array.getElem?_append_left hlt]
    rw [read?, hcell]
    rfl
  | _ => rfl

theorem Stored.load {target : Target} {path : List Cell} {v : Value} {ops : List Value}
    (hstored : c₀.Stored (target.spots c₀.executor.base) path v c₁) (htarget : target.spots c₀.executor.base ≠ [])
    (hlocal : ∀ index, target = .slot index → ∃ slot, c₀.executor.localSlot index = .ok slot)
    (hoperands : mode.operands cells (c₁.laden ops c₁.memory) = .ok (target, path) c₁) :
    ∃ c₂, mode.loading cells (c₁.laden ops c₁.memory) = .ok () c₂ ∧
      c₂.executor.stack = c₁.executor.stack.push v.share := by
  obtain ⟨spot, spots, hspots⟩ := List.exists_cons_of_ne_nil htarget
  obtain ⟨w, hread, hshare⟩ := hstored.read spot (by simp [hspots])
  obtain ⟨u, hcontent, hpeek⟩ := Option.map_eq_some_iff.1 hread
  have hbase : c₁.executor.base = c₀.executor.base := by rw [hstored.executor]
  obtain ⟨world, hload⟩ := Exec.load_ok (hbase ▸ hspots) hcontent fun index hindex => by
    obtain ⟨slot, hslot⟩ := hlocal index hindex
    exact ⟨slot, Executor.localSlot_mono hbase hstored.size.ge hslot⟩
  refine ⟨_, (Exec.bind_of_ok hoperands).trans ((Exec.bind_of_ok hload).trans (Exec.loadCell_ok hpeek)), ?_⟩
  rw [← hshare]
  rfl

theorem Counted.unladen {vs : List Value} (hc : (c.laden vs c.memory).Counted held) : c.Counted (vs ++ held) := by
  have hmoved : ({ c.laden vs c.memory with executor := { (c.laden vs c.memory).executor with
      stack := c.executor.stack } } : Core).Counted (vs ++ held) := by
    refine hc.restack ?_
    rw [toList_laden, List.append_assoc]
  exact hmoved

/-- What a store does that succeeds, and what the load of its kind does afterwards. -/
theorem Counted.load_again (hc : c.Counted held) (hcopying : c.executor.copying = true)
    (hpair : Paired mode cells st ld) (natives : UInt32 → Option Signature)
    (hstore : st.execute natives c = .ok .next c₁) :
    ∃ rest ops v, c.executor.stack.toList = rest ++ ops ++ [v] ∧ ops.length = mode.arity cells ∧
      c₁.executor.stack.size = rest.length ∧
      (mode.spots c ops ≠ [] → ∃ c₂, ld.execute natives (c₁.laden ops c₁.memory) = .ok .next c₂ ∧
        c₂.executor.stack = c₁.executor.stack.push v.share) ∧
      ∀ spot ∉ mode.spots c ops, (∀ i, spot = .slot i → i < rest.length) →
        ∀ path, c₁.read? spot path = c.read? spot path := by
  rw [hpair.execute_store natives] at hstore
  obtain ⟨_, d₁, hstoring, hnext⟩ := Exec.bind_ok hstore
  cases hnext
  obtain ⟨v, d, hpop, hrest⟩ := Exec.bind_ok hstoring
  obtain ⟨⟨target, path⟩, c₀, hoperands, hset⟩ := Exec.bind_ok hrest
  obtain rfl := Exec.pop_ok hpop
  obtain ⟨ops, hlength, rfl, hspots, hagain⟩ := Mode.operands_ok (Exec.orDrop_ok hoperands)
  have hstack : ((c₀.laden ops c₀.memory).laden [v] (c₀.laden ops c₀.memory).memory).executor.stack.toList =
      c₀.executor.stack.toList ++ ops ++ [v] := by
    rw [toList_laden, toList_laden]
  have hheld : c₀.Counted (v :: held) := by
    have hboth : c₀.Counted (ops ++ v :: held) := (hc.unladen).unladen
    exact ⟨hboth.supports.of_le fun a => by simp, hboth.anchoring, hboth.distinct⟩
  have hrun := Exec.counted_store (c := c₀) target hcopying c₀ ⟨hheld, .refl c₀ path v⟩
  change Target.store path v target c₀ = _ at hset
  rw [hset] at hrun
  obtain ⟨-, hstored⟩ := hrun
  refine ⟨c₀.executor.stack.toList, ops, v, hstack, hlength, hstored.size, ?_, ?_⟩ <;>
    rw [Mode.spots_laden, Mode.spots_laden, ← hspots]
  · intro haddressed
    obtain ⟨c₂, hload, hpushed⟩ := hstored.load haddressed
      (fun index hindex => Exec.localSlot_of_store (hindex ▸ hset)) (hagain c₁ hstored.owner)
    rw [hpair.execute_load natives]
    exact ⟨c₂, Exec.next_of_ok hload, hpushed⟩
  · intro spot hspot hbelow path'
    have hbelow' : ∀ i, spot = .slot i → i < (c₀.laden ops c₀.memory).executor.stack.size := by
      intro i hi
      have hlt := hbelow i hi
      simp only [laden, Array.size_append, Array.length_toList] at hlt ⊢
      omega
    have hupper := (c₀.laden ops c₀.memory).read?_laden [v] hbelow' path'
    exact (hstored.spares spot hspot path').trans (hupper.trans (c₀.read?_laden ops hbelow path')).symm

end Core

/-- In any state that a run reaches with copy-on-write switched on, a store that succeeds has taken its operands and
the value off the stack. If it addresses a variable at all, the load of its kind succeeds with the same operands and
pushes the value: the same scalar, or an array that is the same. Whatever the store did not address, be it a local, a
global or a variable of an instance, reads the same as before through any path of cells. -/
theorem CountedRun.load_after_store {δ ν ρ : Type} {env : Environment δ ν} {s : State δ ν ρ} {held : List Value}
    (h : CountedRun env s held) (hcopying : s.machine.core.executor.copying = true) {mode : Mode} {cells : Nat}
    {st ld : Instruction} (hpair : Paired mode cells st ld) (natives : UInt32 → Option Signature) (pc : Cursor)
    {c₁ : Core} (hstore : st.execute natives (s.machine.core.withPc pc) = .ok .next c₁) :
    ∃ rest ops v, s.machine.core.executor.stack.toList = rest ++ ops ++ [v] ∧ ops.length = mode.arity cells ∧
      c₁.executor.stack.size = rest.length ∧
      (mode.spots s.machine.core ops ≠ [] → ∃ c₂, ld.execute natives (c₁.laden ops c₁.memory) = .ok .next c₂ ∧
        c₂.executor.stack = c₁.executor.stack.push v.share) ∧
      ∀ spot ∉ mode.spots s.machine.core ops, (∀ i, spot = .slot i → i < rest.length) →
        ∀ path, c₁.read? spot path = s.machine.core.read? spot path := by
  have hcounted : (s.machine.core.withPc pc).Counted held := h.counted.same rfl rfl rfl
  obtain ⟨rest, ops, v, hstack, hlength, hsize, hload, hspares⟩ :=
    hcounted.load_again hcopying hpair natives hstore
  have hspots : mode.spots (s.machine.core.withPc pc) ops = mode.spots s.machine.core ops := by cases mode <;> rfl
  have hread : ∀ spot path, (s.machine.core.withPc pc).read? spot path = s.machine.core.read? spot path := by
    intro spot path
    cases spot <;> rfl
  rw [hspots] at hload hspares
  exact ⟨rest, ops, v, hstack, hlength, hsize, hload, fun spot hspot hbelow path =>
    (hspares spot hspot hbelow path).trans (hread spot path)⟩

/-- Makes an array in global 0, shares it with global 1 and makes ready to store into a cell of the latter. -/
def sharer : Section :=
  { code := (List.flatMap Instruction.encode [⟨.ldiS32, (0, ())⟩, ⟨.ldiS32, (0, ())⟩, ⟨.ldiS32, (5, ())⟩,
      ⟨.stga, (0, ())⟩, ⟨.ldg, (0, ())⟩, ⟨.stg, (1, ())⟩, ⟨.ldiS32, (0, ())⟩, ⟨.ldiS32, (0, ())⟩,
      ⟨.ldiS32, (7, ())⟩]).toArray }

def loadSharer (m : Machine Unit Unit) : Machine Unit Unit :=
  { m with core := { m.core with sections := (m.core.sections.add sharer).2 } }

def sharing? : Option (State Unit Unit Unit) :=
  State.stretch .bare 20 ⟨loadSharer (.new {} {}), .host runKnots, []⟩

def Core.after? (i : Instruction) (c : Core) : Option Core :=
  match i.execute (fun _ => none) c with
  | .ok .next c' => some c'
  | _ => none

theorem Core.execute_of_after? {i : Instruction} {c c' : Core} (h : c.after? i = some c') :
    i.execute (fun _ => none) c = .ok .next c' := by
  unfold after? at h
  split at h
  · rename_i hrun
    rw [hrun, Option.some.inj h]
  · cases h

set_option maxRecDepth 8000 in
theorem summary_sharing : (sharing?.bind fun s => (s.machine.core.after? ⟨.stga, (1, ())⟩).map fun c =>
      (s.machine.core.executor.copying, s.machine.core.executor.stack.toList, c.executor.stack.size,
        (s.machine.core.content (.global 0)).target?, (s.machine.core.content (.global 1)).target?,
        s.machine.core.read? (.global 0) [(0, 0)])) =
    some (true, [.int 0, .int 0, .int 0, .int 7], 1, some 0, some 0, some (.ok (.int 5))) := by cbv

/-- Two globals share an array. A store into a cell of one is read back there, and the other keeps its own. -/
theorem load_after_store_sharing : ∃ (s : State Unit Unit Unit) (c₁ c₂ : Core), CountedRun .bare s [] ∧
    (s.machine.core.content (.global 0)).target? = some 0 ∧ (s.machine.core.content (.global 1)).target? = some 0 ∧
    Instruction.execute (fun _ => none) ⟨.stga, (1, ())⟩ s.machine.core = .ok .next c₁ ∧
    Instruction.execute (fun _ => none) ⟨.ldga, (1, ())⟩ (c₁.laden [.int 0, .int 0] c₁.memory) = .ok .next c₂ ∧
    c₂.executor.stack = c₁.executor.stack.push (.int 7) ∧ c₁.read? (.global 0) [(0, 0)] = some (.ok (.int 5)) := by
  obtain ⟨s, hs, hsummary⟩ := Option.bind_eq_some_iff.1 summary_sharing
  obtain ⟨c₁, hstore, hsummary⟩ := Option.map_eq_some_iff.1 hsummary
  simp only [Prod.mk.injEq] at hsummary
  obtain ⟨hcopying, hstack, hsize, hfirst, hsecond, hread⟩ := hsummary
  have hloaded : Run .bare ⟨loadSharer (.new {} {}), .host runKnots, []⟩ [] :=
    .act (.start {} (.act fun m => (runKnots, loadSharer m)) rfl) (.single (.adjust _ _ _ rfl rfl rfl))
  have hrun : CountedRun .bare s [] := (hloaded.stretch hs).free.hosted.counted
  obtain ⟨rest, ops, v, hparts, hlength, hrest, hload, hspares⟩ :=
    hrun.load_after_store hcopying (.stga 1) (fun _ => none) s.machine.core.executor.pc (Core.execute_of_after? hstore)
  obtain ⟨saved, rfl⟩ := List.length_eq_one_iff.1 (hrest.symm.trans hsize)
  obtain ⟨row, column, rfl⟩ := List.length_eq_two.1 hlength
  rw [hstack] at hparts
  simp only [List.cons_append, List.nil_append, List.cons.injEq, and_true] at hparts
  obtain ⟨-, rfl, rfl, rfl⟩ := hparts
  obtain ⟨c₂, hagain, hpushed⟩ := hload (by simp [Mode.spots])
  refine ⟨s, c₁, c₂, hrun, hfirst, hsecond, Core.execute_of_after? hstore, hagain, hpushed, ?_⟩
  rw [hspares (.global 0) (by simp [Mode.spots]) nofun, hread]

end ScriptVm
