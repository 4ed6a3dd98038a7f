import ScriptVm.Proofs.Occurrences
import ScriptVm.Proofs.Persistence

/-! Serializing values. The writer of the stored form follows handles without looking at what is open. It comes to
an end exactly on the values none of whose arrays contains itself, there with the stored form, and takes no more
arrays inside one another than there are. -/

namespace ScriptVm

section
variable {α β : Type} {f g : α → Option β} {l : List α}

theorem mapM_congr (hfg : ∀ x ∈ l, f x = g x) : l.mapM f = l.mapM g := by
  induction l with
  | nil => rfl
  | cons x l ih =>
    rw [List.mapM_cons, List.mapM_cons, hfg x List.mem_cons_self, ih fun y hy => hfg y (List.mem_cons_of_mem x hy)]

theorem isSome_mapM_iff : (l.mapM f).isSome ↔ ∀ x ∈ l, (f x).isSome := by
  induction l with
  | nil => simp
  | cons x l ih =>
    rw [List.mapM_cons, List.forall_mem_cons, ← ih]
    cases f x <;> cases l.mapM f <;> simp

theorem length_of_mapM {ys : List β} (hl : l.mapM f = some ys) : ys.length = l.length := by
  induction l generalizing ys with
  | nil =>
    obtain rfl : ys = [] := by simpa using hl.symm
    rfl
  | cons x l ih =>
    rw [List.mapM_cons] at hl
    obtain ⟨y, -, hl⟩ := Option.bind_eq_some_iff.1 hl
    obtain ⟨rest, hrest, hl⟩ := Option.bind_eq_some_iff.1 hl
    obtain rfl := Option.some.inj hl
    rw [List.length_cons, List.length_cons, ih hrest]

end

theorem Tree.whole_array_iff {α : Type} {note : α} {rows : List (List (Tree α))} :
    (array note rows).Whole ↔ ∀ row ∈ rows, ∀ t ∈ row, t.Whole := by
  refine ⟨fun h row hrow t ht => h.cell hrow ht, fun h path hback => ?_⟩
  cases path with
  | nil => cases hback
  | cons cell rest =>
    rw [shown?_array] at hback
    obtain ⟨t, ht, hback⟩ := Option.bind_eq_some_iff.1 hback
    obtain ⟨row, hrow, ht⟩ := Option.bind_eq_some_iff.1 ht
    exact h row (List.mem_of_getElem? hrow) t (List.mem_of_getElem? ht) rest hback

namespace Stored
variable {α : Type}

def enclose (rows : List (List (List UInt8))) : List UInt8 :=
  6 :: slot openCanary ++ size rows.length ++ (rows.flatMap fun row => size row.length ++ row.flatten) ++
    slot closeCanary

theorem encodeCells_eq (cells : List (Tree α)) : encodeCells cells = (cells.mapM encode).map List.flatten := by
  induction cells with
  | nil => rfl
  | cons cell cells ih =>
    rw [encodeCells, List.mapM_cons, ih]
    cases encode cell <;> cases cells.mapM encode <;> simp

theorem encodeRows_eq (rows : List (List (Tree α))) : encodeRows rows =
    (rows.mapM (List.mapM encode)).map fun rows => rows.flatMap fun row => size row.length ++ row.flatten := by
  induction rows with
  | nil => rfl
  | cons row rows ih =>
    rw [encodeRows, List.mapM_cons, ih, encodeCells_eq]
    cases hrow : row.mapM encode with
    | none => rfl
    | some cells => cases rows.mapM (List.mapM encode) <;> simp [length_of_mapM hrow]

theorem encode_array (note : α) (rows : List (List (Tree α))) :
    encode (.array note rows) = (rows.mapM (List.mapM encode)).map enclose := by
  rw [encode, encodeRows_eq]
  cases hrows : rows.mapM (List.mapM encode) with
  | none => rfl
  | some cells => simp [enclose, length_of_mapM hrows]

/-- A tree has a stored form if nothing in it is met again below itself. -/
theorem isSome_encode_iff (t : Tree α) : (encode t).isSome ↔ t.Whole := by
  match t with
  | .scalar v =>
    refine iff_of_true rfl fun path hback => ?_
    cases path <;> cases hback
  | .null note =>
    refine iff_of_true rfl fun path hback => ?_
    cases path <;> cases hback
  | .back note => exact iff_of_false (by simp [encode]) fun h => h [] rfl
  | .array note rows =>
    rw [encode_array, Option.isSome_map, isSome_mapM_iff, Tree.whole_array_iff]
    refine forall₂_congr fun row hrow => ?_
    rw [isSome_mapM_iff]
    exact forall₂_congr fun cell hcell => isSome_encode_iff cell
termination_by sizeOf t
decreasing_by
  have hlt : sizeOf row < sizeOf rows := List.sizeOf_lt_of_mem hrow
  have hlt' : sizeOf cell < sizeOf row := List.sizeOf_lt_of_mem hcell
  simp only [Tree.array.sizeOf_spec]
  omega

end Stored
namespace Heap
variable {h : Heap} {v : Value} {a x : Address} {b : Block} {k : Handle} {n : Nat}

/-- Writes the stored form of a value, at most `nesting` arrays inside one another. -/
def serialize (h : Heap) (nesting : Nat) : Value → Option (List UInt8)
  | .array k =>
    match k.target.bind h.block?, nesting with
    | none, _ => some (Stored.enclose [])
    | some _, 0 => none
    | some b, nesting + 1 =>
      (b.rows.toList.mapM fun (row : Array Value) => row.toList.mapM (h.serialize nesting)).map Stored.enclose
  | v => some (Stored.encodeScalar v)

theorem serialize_scalar (n : Nat) (hv : v.isArray = false) : h.serialize n v = some (Stored.encodeScalar v) := by
  cases v with
  | array k => cases hv
  | _ =>
    rw [serialize]
    nofun

theorem serialize_gone (n : Nat) (hb : k.target.bind h.block? = none) :
    h.serialize n (.array k) = some (Stored.enclose []) := by
  unfold serialize
  rw [hb]

theorem serialize_zero (hb : k.target.bind h.block? = some b) : h.serialize 0 (.array k) = none := by
  unfold serialize
  rw [hb]

theorem serialize_succ (n : Nat) (hb : k.target.bind h.block? = some b) : h.serialize (n + 1) (.array k) =
    (b.rows.toList.mapM fun (row : Array Value) => row.toList.mapM (h.serialize n)).map Stored.enclose := by
  rw [serialize.eq_def]
  simp only [hb]

theorem isSome_serialize_succ_iff (hb : k.target.bind h.block? = some b) :
    (h.serialize (n + 1) (.array k)).isSome ↔ ∀ row ∈ b.rows.toList, ∀ w ∈ row.toList, (h.serialize n w).isSome := by
  rw [serialize_succ n hb, Option.isSome_map, isSome_mapM_iff]
  exact forall₂_congr fun row _ => isSome_mapM_iff

theorem serialize_mono {n n' : Nat} (hn : n ≤ n') {v : Value} (hsome : (h.serialize n v).isSome) :
    h.serialize n' v = h.serialize n v := by
  cases v with
  | array k =>
    cases hb : k.target.bind h.block? with
    | none => rw [serialize_gone n' hb, serialize_gone n hb]
    | some b =>
      cases n with
      | zero =>
        rw [serialize_zero hb] at hsome
        cases hsome
      | succ n =>
        obtain ⟨n', rfl⟩ := Nat.exists_eq_succ_of_ne_zero (Nat.ne_zero_of_lt hn)
        rw [isSome_serialize_succ_iff hb] at hsome
        rw [serialize_succ n' hb, serialize_succ n hb]
        refine congrArg _ (mapM_congr fun row hrow => mapM_congr fun w hw => ?_)
        exact serialize_mono (Nat.le_of_succ_le_succ hn) (hsome row hrow w hw)
  | _ => rw [serialize_scalar n' rfl, serialize_scalar n rfl]

theorem serialize_eq_encode {α : Type} (note : Handle → α) (n : Nat) (path : List Address) (v : Value)
    (hn : h.unvisited path ≤ n) (hwhole : (h.unfoldFrom note path v).Whole) :
    h.serialize n v = Stored.encode (h.unfoldFrom note path v) := by
  cases v with
  | array k =>
    cases ht : k.target with
    | none =>
      rw [unfoldFrom_null note path ht, serialize_gone n (by rw [ht, Option.bind_none])]
      simp [Stored.encode, Stored.enclose]
    | some a =>
      have hpath : a ∉ path := by
        intro hin
        rw [unfoldFrom_back note ht hin] at hwhole
        exact hwhole [] rfl
      cases hb : h.block? a with
      | none =>
        rw [unfoldFrom_gone note ht hpath hb, serialize_gone n (by rw [ht, Option.bind_some, hb])]
        simp [Stored.encode, Stored.enclose]
      | some b =>
        have hfewer := unvisited_cons_lt (lt_of_block? hb) hpath
        obtain ⟨n, rfl⟩ := Nat.exists_eq_succ_of_ne_zero (Nat.ne_zero_of_lt (hfewer.trans_le hn))
        rw [unfoldFrom_array note ht hpath hb] at hwhole ⊢
        rw [serialize_succ n (by rw [ht, Option.bind_some, hb]), Stored.encode_array, List.mapM_map]
        refine congrArg _ (mapM_congr fun row hrow => ?_)
        rw [Function.comp_apply, List.mapM_map]
        refine mapM_congr fun w hw => serialize_eq_encode note n (a :: path) w (by omega) ?_
        exact hwhole.cell (List.mem_map_of_mem hrow) (List.mem_map_of_mem hw)
  | _ =>
    rw [unfoldFrom_scalar note path rfl, serialize_scalar n rfl]
    rfl

/-! ### Results and cycles -/

theorem serialize_of_target (ht : v.target? = some a) :
    h.serialize n v = h.serialize n (.array { target := some a }) := by
  cases v with
  | array k =>
    have ht : k.target = some a := ht
    unfold serialize
    rw [ht]
  | _ => cases ht

theorem serialize_of_pointsTo (hstep : h.PointsTo a x) (ha : (h.serialize n (.array { target := some a })).isSome) :
    ∃ n' < n, (h.serialize n' (.array { target := some x })).isSome := by
  obtain ⟨b, hb, w, hw, hx⟩ := hstep
  cases n with
  | zero =>
    rw [serialize_zero (k := { target := some a }) hb] at ha
    cases ha
  | succ n =>
    obtain ⟨row, hrow, hw⟩ := List.mem_flatMap.1 hw
    refine ⟨n, Nat.lt_succ_self n, ?_⟩
    rw [← serialize_of_target hx]
    exact (isSome_serialize_succ_iff (k := { target := some a }) hb).1 ha row hrow w hw

theorem serialize_of_transGen (hpath : Relation.TransGen h.PointsTo a x)
    (ha : (h.serialize n (.array { target := some a })).isSome) :
    ∃ n' < n, (h.serialize n' (.array { target := some x })).isSome := by
  induction hpath with
  | single hstep => exact serialize_of_pointsTo hstep ha
  | tail _ hstep ih =>
    obtain ⟨n₁, hn₁, hy⟩ := ih
    obtain ⟨n₂, hn₂, hx⟩ := serialize_of_pointsTo hstep hy
    exact ⟨n₂, hn₂.trans hn₁, hx⟩

theorem serialize_of_reaches (hreach : h.Reaches [v] a) (hv : (h.serialize n v).isSome) :
    ∃ n', (h.serialize n' (.array { target := some a })).isSome := by
  induction hreach with
  | value hmem ht =>
    obtain rfl := List.mem_singleton.1 hmem
    exact ⟨n, serialize_of_target ht ▸ hv⟩
  | cell _ hb hw hx ih =>
    obtain ⟨n', ha⟩ := ih
    obtain ⟨n'', -, hx⟩ := serialize_of_pointsTo ⟨_, hb, _, hw, hx⟩ ha
    exact ⟨n'', hx⟩

/-- An array that contains itself would take less nesting than it takes. -/
theorem grounded_of_serialize (hv : (h.serialize n v).isSome) : h.Grounded v := by
  intro a hreach hloop
  obtain ⟨n, ha⟩ := serialize_of_reaches hreach hv
  induction n using Nat.strong_induction_on with
  | _ n ih =>
    obtain ⟨n', hn', ha'⟩ := serialize_of_transGen hloop ha
    exact ih n' hn' ha'

end Heap

namespace Memory
variable {m : Memory} {v : Value}

theorem serialize_eq_stored (hv : (m.heap.tree v).Whole) : m.heap.serialize m.heap.blocks.size v = m.stored? v :=
  Heap.serialize_eq_encode (fun _ => ()) m.heap.blocks.size [] v (List.countP_le_length.trans_eq List.length_range) hv

/-- A value contains no array that contains itself if writing it out shows none. -/
theorem grounded_iff_whole : m.heap.Grounded v ↔ (m.heap.tree v).Whole := by
  refine ⟨whole_tree, fun hwhole => Heap.grounded_of_serialize (n := m.heap.blocks.size) ?_⟩
  rw [serialize_eq_stored hwhole]
  exact (Stored.isSome_encode_iff _).2 hwhole

theorem exists_serialize (hv : m.heap.Grounded v) :
    ∃ bytes, m.heap.serialize m.heap.blocks.size v = some bytes := by
  have hwhole := grounded_iff_whole.1 hv
  refine Option.isSome_iff_exists.1 ?_
  rw [serialize_eq_stored hwhole]
  exact (Stored.isSome_encode_iff _).2 hwhole

theorem serialize_size {nesting : Nat} {bytes : List UInt8} (hbytes : m.heap.serialize nesting v = some bytes) :
    m.heap.serialize m.heap.blocks.size v = some bytes := by
  have hsome : (m.heap.serialize nesting v).isSome := Option.isSome_iff_exists.2 ⟨bytes, hbytes⟩
  obtain ⟨bytes', hbytes'⟩ := exists_serialize (Heap.grounded_of_serialize hsome)
  have hsome' := Option.isSome_iff_exists.2 ⟨bytes', hbytes'⟩
  calc m.heap.serialize m.heap.blocks.size v
      = m.heap.serialize (max nesting m.heap.blocks.size) v := (Heap.serialize_mono (le_max_right _ _) hsome').symm
    _ = m.heap.serialize nesting v := Heap.serialize_mono (le_max_left _ _) hsome
    _ = some bytes := hbytes

theorem stored_of_serialize {nesting : Nat} {bytes : List UInt8} (hbytes : m.heap.serialize nesting v = some bytes) :
    m.stored? v = some bytes := by
  have hv := Heap.grounded_of_serialize (Option.isSome_iff_exists.2 ⟨bytes, hbytes⟩)
  rw [← serialize_eq_stored (grounded_iff_whole.1 hv)]
  exact serialize_size hbytes

/-- Serializing a value comes to an end exactly if no array that the value leads to contains itself, that is, if its
text shows no back reference. It then takes no more arrays inside one another than there are, and it ends with bytes,
which are the stored form. -/
theorem serialize_finishes_iff_grounded (m : Memory) (v : Value) :
    ((∃ nesting bytes, m.heap.serialize nesting v = some bytes) ↔
      ∀ a, m.heap.Reaches [v] a → ¬ Relation.TransGen m.heap.PointsTo a a) ∧
    ((∃ nesting bytes, m.heap.serialize nesting v = some bytes) ↔ ∀ path, m.shown? v path ≠ some .back) ∧
    (∀ nesting bytes, m.heap.serialize nesting v = some bytes → m.stored? v = some bytes) ∧
    ∀ bytes, m.stored? v = some bytes → m.heap.serialize m.heap.blocks.size v = some bytes := by
  have hfinishes : (∃ nesting bytes, m.heap.serialize nesting v = some bytes) ↔ m.heap.Grounded v := by
    refine ⟨fun ⟨nesting, bytes, hbytes⟩ => ?_, fun hv => ⟨_, exists_serialize hv⟩⟩
    exact Heap.grounded_of_serialize (Option.isSome_iff_exists.2 ⟨bytes, hbytes⟩)
  have hshows : m.heap.Grounded v ↔ ∀ path, m.shown? v path ≠ some .back := by
    rw [grounded_iff_whole]
    exact forall_congr' fun path => by rw [shown?_tree]
  refine ⟨hfinishes, hfinishes.trans hshows, fun _ _ => stored_of_serialize, fun bytes hstored => ?_⟩
  have hwhole : (m.heap.tree v).Whole := (Stored.isSome_encode_iff _).1 (Option.isSome_iff_exists.2 ⟨bytes, hstored⟩)
  exact (serialize_eq_stored hwhole).trans hstored

/-- The array that has been stored into its own cell is never through. -/
theorem knot_serialize_endless : Wrought knot.2 [knot.1] ∧ ∀ nesting, knot.2.heap.serialize nesting knot.1 = none := by
  refine ⟨knot_worked.wrought, fun nesting => ?_⟩
  have hnone : knot.2.stored? knot.1 = none := by cbv
  refine Option.eq_none_iff_forall_ne_some.2 fun bytes hbytes => ?_
  rw [stored_of_serialize hbytes] at hnone
  cases hnone

end Memory
end ScriptVm
