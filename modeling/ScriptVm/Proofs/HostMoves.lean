import ScriptVm.Proofs.Sections
import Mathlib.Logic.Relation

/-! What a host does between runs and in a debugger's turn. The values that it has of its own are its
pool: nothing is promised of what they reach until they get onto the operand stack. -/

namespace ScriptVm

namespace Core.Sound
variable {c : Core} {hand kept : List Value}

theorem handOver {vs : List Value} (hc : c.Sound True vs kept) : c.Sound True [] (vs ++ kept) := by
  refine ⟨Memory.Custody.takeAll (hc.custody.perm_free ?_), hc.world⟩
  rw [List.append_nil]
  exact List.perm_append_comm

theorem collect (hc : c.Sound True [] kept) : c.collect.2.Sound True [] kept := by
  have hcustody := hc.custody.collect
  rw [List.append_nil] at hcustody
  refine ⟨?_, hc.world⟩
  rw [List.append_nil]
  exact hcustody

theorem reset (hc : c.Sound True [] kept) : c.reset.Sound True [] kept := by
  have hdropped := Memory.Custody.release c.executor.stack.toList hc.custody
  exact ⟨hdropped, hc.world⟩

end Core.Sound

/-- A host's move, from a state and a pool to others. It has the collector make passes; it creates,
destroys and removes instances and declares built-in variables that are no arrays; it makes arrays and
stores into its own; it holds what it likes, and moves values between its pool and the operand stack as
long as all that they reach is tracked. To globals and variables of instances it does nothing. -/
inductive HostMove : Core × List Value → Core × List Value → Prop where
  | collect (c : Core) (pool : List Value) : HostMove (c, pool) (c.collect.2, pool)
  /-- Ids are counted up and do not run out. -/
  | create (c : Core) (pool : List Value) (object : Int64) : c.world.instance? c.world.nextId = none →
      HostMove (c, pool) ({ c with
        world := (c.world.create c.memory object).2.1
        memory := (c.world.create c.memory object).2.2 }, pool)
  | destroy (c : Core) (pool : List Value) (id : InstanceId) :
      HostMove (c, pool) ({ c with world := c.world.destroy id }, pool)
  | cleanup (c : Core) (pool : List Value) :
      HostMove (c, pool) ({ c with
        world := (c.world.cleanup c.memory).1
        memory := (c.world.cleanup c.memory).2 }, pool)
  | declare (c : Core) (pool : List Value) (id : InstanceId) (slot : VariableId) (v : Value) :
      v.isArray = false → HostMove (c, pool) ({ c with
        world := (c.world.defineBuiltin c.memory id slot v).1
        memory := (c.world.defineBuiltin c.memory id slot v).2 }, pool)
  /-- Reads a global, which creates it. -/
  | touch (c : Core) (pool : List Value) (id : VariableId) :
      HostMove (c, pool) ({ c with world := { c.world with globals := c.world.globals.touch id } }, pool)
  /-- Changes flags, places in code, sections and the like. -/
  | adjust (c c' : Core) (pool : List Value) : c'.memory = c.memory →
      c'.executor.stack = c.executor.stack → c'.world = c.world → HostMove (c, pool) (c', pool)
  | exchange (c : Core) (pool : List Value) (stack : Array Value) (pool' : List Value) :
      (c.executor.stack.toList ++ pool).Perm (stack.toList ++ pool') →
      (∀ v ∈ stack.toList, v ∈ c.executor.stack.toList ∨ c.memory.heap.Managed [v]) →
      HostMove (c, pool) ({ c with executor := { c.executor with stack } }, pool')
  | share (c : Core) (pool : List Value) (v : Value) : c.memory.heap.Holds [v] →
      HostMove (c, pool) ({ c with memory := (c.memory.share v).2 }, (c.memory.share v).1 :: pool)
  | scalar (c : Core) (pool : List Value) (v : Value) : v.target? = none → v.isRooted = false →
      HostMove (c, pool) (c, v :: pool)
  /-- Makes an array of values of its own, tracked or not. -/
  | build (c : Core) (pool : List Value) (rows : Rows) (tracked : Bool) :
      HostMove (c, Rows.cells rows ++ pool)
        ({ c with memory := (c.memory.trackedIf tracked (·.newArray rows)).2 },
          (c.memory.trackedIf tracked (·.newArray rows)).1 :: pool)
  | store (c : Core) (pool : List Value) (v new : Value) (path : List Cell) (copy : Bool) : path ≠ [] →
      c.memory.heap.Managed [v] → c.memory.heap.Managed [new] →
      HostMove (c, v :: new :: pool)
        ({ c with memory := (c.memory.storeNested v path new copy none).2 },
          (c.memory.storeNested v path new copy none).1 :: pool)
  | drop (c : Core) (pool vs : List Value) :
      HostMove (c, vs ++ pool) ({ c with memory := c.memory.release vs }, pool)

theorem HostMove.sound {s s' : Core × List Value} (h : HostMove s s') (hs : s.1.Sound True [] s.2) :
    s'.1.Sound True [] s'.2 := by
  cases h with
  | collect c pool => exact hs.collect
  | create c pool object hfresh =>
    obtain ⟨hplain, hslots, hmemory⟩ := hs.world.create c.memory object hfresh
    refine ⟨?_, hplain⟩
    dsimp only
    rw [hslots, hmemory]
    exact hs.custody
  | destroy c pool id =>
    refine ⟨?_, hs.world.destroy id⟩
    dsimp only
    rw [World.slots_destroy]
    exact hs.custody
  | cleanup c pool =>
    obtain ⟨hplain, hcustody⟩ := hs.world.cleanup hs.custody
    exact ⟨hcustody, hplain⟩
  | declare c pool id slot v hv =>
    unfold World.defineBuiltin
    cases hi : c.world.instance? id with
    | none =>
      refine ⟨?_, hs.world⟩
      dsimp only
      rw [Memory.release, Heap.release_nulls (by simp [Value.target?_of_not_array hv])]
      exact hs.custody
    | some i =>
      have hold : (i.builtins.get slot).target? = none :=
        Value.target?_of_not_array (hs.world.builtin_get (World.Plain.instance_mem hi) slot)
      refine ⟨?_, hs.world.setBuiltins id slot hv⟩
      dsimp only
      rw [World.slots_setBuiltins, Memory.release, Heap.release_nulls (by simp [hold])]
      exact hs.custody
  | touch c pool id =>
    have htouched : Exec.Moves [] (Exec.updateGlobal id fun m v => (v, m)) fun _ => [] :=
      Exec.moves_updateGlobal [] fun _ m old free slots kept hcustody => hcustody
    exact htouched True [] pool c hs
  | adjust c c' pool hmemory hstack hworld => exact hs.same hmemory hstack hworld
  | exchange c pool stack pool' hp hmanaged =>
    refine ⟨?_, hs.world⟩
    have hcustody := hs.custody
    rw [List.append_nil] at hcustody ⊢
    exact hcustody.exchange hp fun _ => hmanaged
  | share c pool v hv => exact ⟨hs.custody.share_kept hv, hs.world⟩
  | scalar c pool v hnull hplain => exact ⟨hs.custody.keep_null hnull hplain, hs.world⟩
  | build c pool rows tracked => exact ⟨hs.custody.newArray tracked, hs.world⟩
  | store c pool v new path copy hpath hv hnew =>
    have hgiven := (hs.custody.give fun _ => hv).give fun _ => hnew
    refine ⟨Memory.Custody.take ?_, hs.world⟩
    exact (hgiven.perm_free (List.Perm.swap _ _ _)).storeNested hpath copy
  | drop c pool vs => exact ⟨hs.custody.release_kept, hs.world⟩

theorem sound_hostMoves {s s' : Core × List Value} (h : Relation.ReflTransGen HostMove s s')
    (hs : s.1.Sound True [] s.2) : s'.1.Sound True [] s'.2 := by
  induction h with
  | refl => exact hs
  | tail _ hmove ih => exact hmove.sound ih

end ScriptVm
