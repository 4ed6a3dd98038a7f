import ScriptVm.Proofs.Loading
import ScriptVm.Proofs.Persistence

/-! Reading takes no more of its input than the value's own bytes, and no less. A reader is delimited if
what it takes in front of some bytes it takes in front of any others, while a part of what it takes is not
enough; readers in a row are delimited when each of them is. A number of rows or cells is announced before
they come, but none of them is empty, so a loop ends by the end of the input whatever was announced. -/

namespace ScriptVm

namespace Stored
open ScriptVm.Tree
variable {β γ : Type}

/-- Fails on every proper beginning of these bytes. -/
def Starves (read : Read β) (bytes : List UInt8) : Prop :=
  ∀ part, part <+: bytes → part ≠ bytes → ∃ failure, read part = .error failure

/-- What it takes for a good result in front of some input it takes in front of any, and all of it. -/
def Delimited (good : β → Prop) (read : Read β) : Prop :=
  ∀ input x rest, read input = .ok (x, rest) →
    good x ∧ ∃ taken, input = taken ++ rest ∧ Takes read taken x ∧ Starves read taken

theorem delimited_pure {good : β → Prop} {x : β} (hx : good x) : Delimited good (pure x) := by
  intro input y rest h
  obtain ⟨rfl, rfl⟩ := Prod.mk.inj (Except.ok.inj h)
  refine ⟨hx, [], rfl, takes_pure x, fun part hpart hne => ?_⟩
  exact absurd (List.prefix_nil.1 hpart) hne

theorem delimited_fail {good : β → Prop} (e : StreamError) : Delimited good (fail e : Read β) := by
  intro input x rest h
  cases h

/-- A beginning of two pieces ends in the first one or runs through it into the second. -/
theorem prefix_append_cases {α : Type} {part l r : List α} (h : part <+: l ++ r) (hne : part ≠ l ++ r) :
    (part <+: l ∧ part ≠ l) ∨ ∃ part', part = l ++ part' ∧ part' <+: r ∧ part' ≠ r := by
  rcases List.prefix_or_prefix_of_prefix h (List.prefix_append l r) with hshort | ⟨part', rfl⟩
  · by_cases heq : part = l
    · subst heq
      refine Or.inr ⟨[], (List.append_nil _).symm, List.nil_prefix, ?_⟩
      rintro rfl
      exact hne (List.append_nil _).symm
    · exact Or.inl ⟨hshort, heq⟩
  · refine Or.inr ⟨part', rfl, (List.prefix_append_right_inj l).1 h, ?_⟩
    rintro rfl
    exact hne rfl

theorem Starves.bind {read : Read β} {next : β → Read γ} {bs cs : List UInt8} {x : β} (htakes : Takes read bs x)
    (hread : Starves read bs) (hnext : Starves (next x) cs) : Starves (read >>= next) (bs ++ cs) := by
  intro part hpart hne
  change ∃ failure, (read part).bind (fun p => next p.1 p.2) = .error failure
  rcases prefix_append_cases hpart hne with ⟨hfirst, hne⟩ | ⟨part', rfl, hsecond, hne⟩
  · obtain ⟨failure, hfail⟩ := hread part hfirst hne
    exact ⟨failure, by rw [hfail]; rfl⟩
  · obtain ⟨failure, hfail⟩ := hnext part' hsecond hne
    exact ⟨failure, by rw [htakes]; exact hfail⟩

theorem Delimited.bind {good : β → Prop} {fine : γ → Prop} {read : Read β} {next : β → Read γ}
    (hread : Delimited good read) (hnext : ∀ x, good x → Delimited fine (next x)) :
    Delimited fine (read >>= next) := by
  intro input y rest h
  change (read input).bind (fun p => next p.1 p.2) = .ok (y, rest) at h
  cases hr : read input with
  | error failure =>
    rw [hr] at h
    cases h
  | ok p =>
    rw [hr] at h
    obtain ⟨hgood, bs, hbs, htakes, hstarves⟩ := hread input p.1 p.2 hr
    obtain ⟨hfine, cs, hcs, htakes', hstarves'⟩ := hnext p.1 hgood p.2 y rest h
    refine ⟨hfine, bs ++ cs, ?_, htakes.bind htakes', hstarves.bind htakes hstarves'⟩
    rw [hbs, hcs, List.append_assoc]

theorem Delimited.after {good : β → Prop} {read : Read β} (hread : Delimited good read)
    (done : List (Tree Unit)) : Delimited good (after done read) := by
  intro input x rest h
  have hok : read input = .ok (x, rest) := by
    unfold Stored.after at h
    cases hr : read input with
    | error failure =>
      rw [hr] at h
      cases h
    | ok p =>
      rw [hr] at h
      exact h
  obtain ⟨hgood, taken, htaken, htakes, hstarves⟩ := hread input x rest hok
  refine ⟨hgood, taken, htaken, htakes.after done, fun part hpart hne => ?_⟩
  obtain ⟨failure, hfail⟩ := hstarves part hpart hne
  rw [Stored.after, hfail]
  exact ⟨_, rfl⟩

/-! ### The readers -/

theorem takeBytes?_eq_some {count : Nat} {input taken rest : List UInt8}
    (h : takeBytes? count input = some (taken, rest)) :
    input = taken ++ rest ∧ taken.length = count ∧ (∀ more, takeBytes? count (taken ++ more) = some (taken, more)) ∧
      ∀ part, part <+: taken → part ≠ taken → takeBytes? count part = none := by
  unfold takeBytes? at h
  dsimp only at h
  split_ifs at h with hlength
  obtain ⟨rfl, rfl⟩ := Prod.mk.inj (Option.some.inj h)
  refine ⟨(List.take_append_drop count input).symm, hlength, fun more => ?_, fun part hpart hne => ?_⟩
  · have hmore := takeBytes?_append (input.take count) more
    rwa [hlength] at hmore
  · have hshort : part.length < (input.take count).length :=
      lt_of_le_of_ne hpart.length_le fun heq => hne (hpart.eq_of_length heq)
    unfold takeBytes?
    dsimp only
    rw [if_neg]
    rw [List.length_take]
    omega

theorem delimited_readSlot : Delimited (fun _ => True) readSlot := by
  intro input n rest h
  unfold readSlot at h
  split at h
  · rename_i taken rest' htake
    obtain ⟨rfl, rfl⟩ := Prod.mk.inj (Except.ok.inj h)
    obtain ⟨hinput, -, htakes, hstarves⟩ := takeBytes?_eq_some htake
    refine ⟨trivial, taken, hinput, fun more => by simp only [readSlot, htakes], fun part hpart hne => ?_⟩
    simp only [readSlot, hstarves part hpart hne]
    exact ⟨_, rfl⟩
  · cases h

theorem utf8ByteSize_of_fromUTF8? {bytes : List UInt8} {s : String}
    (h : String.fromUTF8? ⟨bytes.toArray⟩ = some s) : s.utf8ByteSize = bytes.length := by
  unfold String.fromUTF8? at h
  split_ifs at h
  rw [← Option.some.inj h]
  simp [String.utf8ByteSize, String.fromUTF8, ByteArray.size]

theorem delimited_readText (size : Nat) : Delimited (fun s => s.utf8ByteSize = size) (readText size) := by
  intro input s rest h
  unfold readText at h
  split at h
  · cases h
  · rename_i taken rest' htake
    obtain ⟨hinput, hlength, htakes, hstarves⟩ := takeBytes?_eq_some htake
    split at h
    · rename_i s' hs
      obtain ⟨rfl, rfl⟩ := Prod.mk.inj (Except.ok.inj h)
      refine ⟨(utf8ByteSize_of_fromUTF8? hs).trans hlength, taken, hinput,
        fun more => by simp only [readText, htakes, hs], fun part hpart hne => ?_⟩
      simp only [readText, hstarves part hpart hne]
      exact ⟨_, rfl⟩
    · cases h

theorem delimited_readTag : Delimited (fun _ => True) readTag := by
  intro input tag rest h
  cases input with
  | nil => cases h
  | cons first input =>
    obtain ⟨rfl, rfl⟩ := Prod.mk.inj (Except.ok.inj h)
    refine ⟨trivial, [first], rfl, fun _ => rfl, fun part hpart hne => ?_⟩
    rcases List.prefix_cons_iff.1 hpart with rfl | ⟨tail, rfl, htail⟩
    · exact ⟨_, rfl⟩
    · rw [List.prefix_nil.1 htail] at hne
      exact absurd rfl hne

theorem delimited_readCanary (expected : UInt64) : Delimited (fun _ => True) (readCanary expected) := by
  refine delimited_readSlot.bind fun found _ => ?_
  split_ifs
  · exact delimited_pure trivial
  · exact delimited_fail _

theorem delimited_readCells {good : Tree Unit → Prop} {cell : Read (Tree Unit)} (hcell : Delimited good cell)
    (count : Nat) : Delimited (fun ts => ts.length = count ∧ ∀ t ∈ ts, good t) (readCells cell count) := by
  induction count with
  | zero => exact delimited_pure (by simp)
  | succ count ih =>
    refine hcell.bind fun first hfirst => ?_
    refine (ih.after [first]).bind fun others hothers => ?_
    exact delimited_pure (by simpa [hothers.1] using ⟨hfirst, hothers.2⟩)

theorem delimited_readRows {good : Tree Unit → Prop} {cell : Read (Tree Unit)} (hcell : Delimited good cell)
    (count : Nat) :
    Delimited (fun rows => rows.length = count ∧ ∀ row ∈ rows, row.length < 2 ^ 64 ∧ ∀ t ∈ row, good t)
      (readRows cell count) := by
  induction count with
  | zero => exact delimited_pure (by simp)
  | succ count ih =>
    refine delimited_readSlot.bind fun size _ => ?_
    refine (delimited_readCells hcell size.toNat).bind fun first hfirst => ?_
    refine (ih.after first).bind fun others hothers => ?_
    refine delimited_pure ⟨by simp [hothers.1], ?_⟩
    rw [List.forall_mem_cons, hfirst.1]
    exact ⟨⟨size.toNat_lt, hfirst.2⟩, hothers.2⟩

end Stored

namespace Tree
variable {α : Type}

theorem cellsDepth_le_iff {cells : List (Tree α)} {n : Nat} : cellsDepth cells ≤ n ↔ ∀ t ∈ cells, t.depth ≤ n := by
  induction cells with
  | nil => simp [cellsDepth]
  | cons cell cells ih => rw [cellsDepth, max_le_iff, ih, List.forall_mem_cons]

theorem rowsDepth_le_iff {rows : List (List (Tree α))} {n : Nat} :
    rowsDepth rows ≤ n ↔ ∀ row ∈ rows, ∀ t ∈ row, t.depth ≤ n := by
  induction rows with
  | nil => simp [rowsDepth]
  | cons row rows ih => rw [rowsDepth, max_le_iff, ih, List.forall_mem_cons, cellsDepth_le_iff]

theorem settledCells_eq_self {cells : List (Tree α)} (h : ∀ t ∈ cells, t.settled = t) : settledCells cells = cells := by
  induction cells with
  | nil => rfl
  | cons cell cells ih =>
    rw [List.forall_mem_cons] at h
    rw [settledCells, h.1, ih h.2]

theorem settledRows_eq_self {rows : List (List (Tree α))} (h : ∀ row ∈ rows, ∀ t ∈ row, t.settled = t) :
    settledRows rows = rows := by
  induction rows with
  | nil => rfl
  | cons row rows ih =>
    rw [List.forall_mem_cons] at h
    rw [settledRows, settledCells_eq_self h.1, ih h.2]

/-- What is read: it can be stored, nests no deeper than is read, and has data for every array. -/
structure Legible (nesting : Nat) (t : Tree α) : Prop where
  storable : t.Storable
  shallow : t.depth ≤ nesting
  settled : t.settled = t

theorem legible_scalar {nesting : Nat} {v : Value} (hv : v.isArray = false) (hfits : v.Fits) :
    (Tree.scalar v : Tree α).Legible nesting :=
  ⟨⟨hv, hfits⟩, Nat.zero_le _, rfl⟩

theorem legible_array {nesting : Nat} {note : α} {rows : List (List (Tree α))} (hheight : rows.length < 2 ^ 64)
    (hrows : ∀ row ∈ rows, row.length < 2 ^ 64 ∧ ∀ t ∈ row, t.Legible nesting) :
    (Tree.array note rows).Legible (nesting + 1) := by
  refine ⟨⟨hheight, storableRows_iff.2 fun row hrow => ?_⟩, ?_, ?_⟩
  · exact ⟨(hrows row hrow).1, fun t ht => ((hrows row hrow).2 t ht).storable⟩
  · rw [depth, Nat.add_le_add_iff_right, rowsDepth_le_iff]
    exact fun row hrow t ht => ((hrows row hrow).2 t ht).shallow
  · rw [Tree.settled, settledRows_eq_self fun row hrow t ht => ((hrows row hrow).2 t ht).settled]

end Tree

namespace Stored
open ScriptVm.Tree

theorem delimited_readArray {nesting : Nat} {cell : Read (Tree Unit)} (hcell : Delimited (Legible nesting) cell) :
    Delimited (Legible (nesting + 1)) (readArray cell) := by
  refine (delimited_readCanary openCanary).bind fun _ _ => ?_
  refine delimited_readSlot.bind fun height _ => ?_
  refine (delimited_readRows hcell height.toNat).bind fun rows hrows => ?_
  refine ((delimited_readCanary closeCanary).after rows.flatten).bind fun _ _ => ?_
  refine delimited_pure (legible_array ?_ hrows.2)
  rw [hrows.1]
  exact height.toNat_lt

theorem delimited_scalar {nesting : Nat} {f : UInt64 → Value} (hf : ∀ n, (f n).isArray = false ∧ (f n).Fits) :
    Delimited (Legible nesting) (do return (Tree.scalar (f (← readSlot)) : Tree Unit)) :=
  delimited_readSlot.bind fun n _ => delimited_pure (legible_scalar (hf n).1 (hf n).2)

theorem delimited_tagged {nesting : Nat}
    (hinner : ∀ n, nesting = n + 1 → Delimited (Legible n) (readWithin n)) :
    Delimited (Legible nesting) (readWithin nesting) := by
  unfold readWithin
  refine delimited_readTag.bind fun tag _ => ?_
  split
  · exact delimited_scalar (f := fun _ => .undefined) fun _ => ⟨rfl, trivial⟩
  · exact delimited_scalar fun _ => ⟨rfl, trivial⟩
  · exact delimited_scalar fun _ => ⟨rfl, trivial⟩
  · exact delimited_scalar fun _ => ⟨rfl, trivial⟩
  · exact delimited_scalar fun _ => ⟨rfl, trivial⟩
  · refine delimited_readSlot.bind fun n _ => (delimited_readText n.toNat).bind fun text htext => ?_
    refine delimited_pure (legible_scalar rfl ?_)
    rw [Value.Fits, htext]
    exact n.toNat_lt
  · cases nesting with
    | zero => exact delimited_fail _
    | succ n => exact delimited_readArray (hinner n rfl)
  · exact delimited_scalar fun _ => ⟨rfl, trivial⟩
  · exact delimited_fail _

theorem delimited_readWithin (nesting : Nat) : Delimited (Legible nesting) (readWithin nesting) := by
  induction nesting with
  | zero => exact delimited_tagged fun n hn => absurd hn (Nat.succ_ne_zero n).symm
  | succ nesting ih =>
    apply delimited_tagged
    intro n hn
    obtain rfl := Nat.succ.inj hn
    exact ih

/-! ### Loops -/

section
variable {β : Type} {good : β → Prop} {read : Read β} {input rest : List UInt8} {x : β}

theorem Delimited.length_le (hread : Delimited good read) (h : read input = .ok (x, rest)) :
    rest.length ≤ input.length := by
  obtain ⟨-, taken, rfl, -⟩ := hread input x rest h
  simp

theorem Delimited.length_lt (hread : Delimited good read) {failure : Failure} (hempty : read [] = .error failure)
    (h : read input = .ok (x, rest)) : rest.length < input.length := by
  obtain ⟨-, taken, rfl, htakes, -⟩ := hread input x rest h
  have hsome : taken ≠ [] := by
    rintro rfl
    have hnone := htakes []
    rw [List.append_nil, hempty] at hnone
    cases hnone
  have hpos := List.length_pos_iff.2 hsome
  rw [List.length_append]
  omega

end

section
variable {good : Tree Unit → Prop} {cell : Read (Tree Unit)} {failure : Failure}

/-- No matter how many cells are announced: more turns than there are bytes are as good as any number. -/
theorem readCells_of_length_lt (hcell : Delimited good cell) (hempty : cell [] = .error failure)
    {count count' : Nat} {input : List UInt8} (h : input.length < count) (h' : input.length < count') :
    readCells cell count input = readCells cell count' input := by
  induction count generalizing count' input with
  | zero => exact absurd h (Nat.not_lt_zero _)
  | succ count ih =>
    obtain ⟨count', rfl⟩ := Nat.exists_eq_add_of_le' (Nat.one_le_of_lt h')
    rw [readCells, readCells]
    change (cell input).bind _ = (cell input).bind _
    cases hr : cell input with
    | error failure => rfl
    | ok p =>
      have hshort := hcell.length_lt hempty hr
      have hrest : readCells cell count p.2 = readCells cell count' p.2 := ih (by omega) (by omega)
      change (Stored.after [p.1] (readCells cell count) p.2).bind _ =
        (Stored.after [p.1] (readCells cell count') p.2).bind _
      rw [Stored.after, Stored.after, hrest]

theorem readSlot_nil : readSlot [] = .error { error := .shortRead } := rfl

theorem readRows_of_length_lt (hcell : Delimited good cell) {count count' : Nat} {input : List UInt8}
    (h : input.length < count) (h' : input.length < count') :
    readRows cell count input = readRows cell count' input := by
  induction count generalizing count' input with
  | zero => exact absurd h (Nat.not_lt_zero _)
  | succ count ih =>
    obtain ⟨count', rfl⟩ := Nat.exists_eq_add_of_le' (Nat.one_le_of_lt h')
    rw [readRows, readRows]
    change (readSlot input).bind _ = (readSlot input).bind _
    cases hr : readSlot input with
    | error failure => rfl
    | ok p =>
      have hshort := delimited_readSlot.length_lt readSlot_nil hr
      change (readCells cell p.1.toNat p.2).bind _ = (readCells cell p.1.toNat p.2).bind _
      cases hq : readCells cell p.1.toNat p.2 with
      | error failure => rfl
      | ok q =>
        have hshort' := (delimited_readCells hcell p.1.toNat).length_le hq
        have hrest : readRows cell count q.2 = readRows cell count' q.2 := ih (by omega) (by omega)
        change (Stored.after q.1 (readRows cell count) q.2).bind _ =
          (Stored.after q.1 (readRows cell count') q.2).bind _
        rw [Stored.after, Stored.after, hrest]

end

theorem readWithin_nil (nesting : Nat) : readWithin nesting [] = .error { error := .shortRead } := by
  unfold readWithin
  rfl

end Stored

namespace Memory
variable {m : Memory}

/-- A load fails for want of a stored value alone. -/
theorem kind_of_load_error {input : List UInt8} {f : Fault} (h : (m.load input).1 = .error f) : f.kind = .misc := by
  unfold load at h
  split at h
  · cases h
  · rw [← Except.error.inj h]
    rfl

theorem load_of_parse {input rest : List UInt8} {t : Tree Unit} (h : Stored.parse input = .ok (t, rest)) :
    m.load input = (.ok ((t.build (fun _ => true) m).1, rest), (t.build (fun _ => true) m).2) := by
  rw [load, h]

theorem parse_of_load {input rest : List UInt8} {v : Value} (h : (m.load input).1 = .ok (v, rest)) :
    ∃ t, Stored.parse input = .ok (t, rest) := by
  unfold load at h
  split at h
  · rename_i t rest' hparse
    obtain ⟨-, rfl⟩ := Prod.mk.inj (Except.ok.inj h)
    exact ⟨t, hparse⟩
  · cases h

/-- Loading comes to an end, with a value or an error of the general kind: numbers of rows and cells that
exceed the bytes are as good as any others that do. The bytes of a value that was loaded, whether they are
the ones that it is stored as or not, give that value in front of any others, and a part of them gives an
error. What it is stored as gives a value with the same tree. -/
theorem load_prefix_free (m : Memory) (input : List UInt8) :
    (∀ nesting count, input.length < count →
      Stored.readCells (Stored.readWithin nesting) count input =
          Stored.readCells (Stored.readWithin nesting) (input.length + 1) input ∧
        Stored.readRows (Stored.readWithin nesting) count input =
          Stored.readRows (Stored.readWithin nesting) (input.length + 1) input) ∧
    (∀ f, (m.load input).1 = .error f → f.kind = .misc) ∧
    ∀ v rest, (m.load input).1 = .ok (v, rest) → ∃ taken, input = taken ++ rest ∧
      (∀ more, m.load (taken ++ more) = (.ok (v, more), (m.load input).2)) ∧
      (∀ part, part <+: taken → part ≠ taken → ∃ f, (m.load part).1 = .error f ∧ f.kind = .misc) ∧
      ∃ bytes, (m.load input).2.stored? v = some bytes ∧ ∀ (n : Memory) (more : List UInt8),
        ∃ v' n', n.load (bytes ++ more) = (.ok (v', more), n') ∧
          n'.heap.tree v' = (m.load input).2.heap.tree v := by
  refine ⟨fun nesting count hcount => ⟨?_, ?_⟩, fun f hf => kind_of_load_error hf, fun v rest hv => ?_⟩
  · exact Stored.readCells_of_length_lt (Stored.delimited_readWithin nesting) (Stored.readWithin_nil nesting) hcount
      (Nat.lt_succ_self _)
  · exact Stored.readRows_of_length_lt (Stored.delimited_readWithin nesting) hcount (Nat.lt_succ_self _)
  obtain ⟨t, hparse⟩ := parse_of_load hv
  have hload := load_of_parse (m := m) hparse
  obtain ⟨rfl, -⟩ := Prod.mk.inj (Except.ok.inj ((congrArg Prod.fst hload).symm.trans hv))
  obtain ⟨hlegible, taken, htaken, htakes, hstarves⟩ :=
    Stored.delimited_readWithin Stored.maxNesting input t rest hparse
  have hbuilt := Tree.tree_build (fun _ => true) hlegible.storable m
  obtain ⟨bytes, hbytes⟩ := Stored.exists_encode hlegible.storable
  refine ⟨taken, htaken, fun more => ?_, fun part hpart hne => ?_, bytes, ?_, fun n more => ?_⟩
  · rw [hload]
    exact load_of_parse (htakes more)
  · obtain ⟨failure, hfail⟩ := hstarves part hpart hne
    have hfault : (m.load part).1 = .error (.stream failure.error) := by
      rw [load, Stored.parse, hfail]
    exact ⟨_, hfault, rfl⟩
  · rw [hload]
    exact (congrArg Stored.encode hbuilt).trans hbytes
  · have hagain := Stored.takes_encode hlegible.storable hlegible.shallow hbytes more
    rw [hlegible.settled] at hagain
    refine ⟨_, _, load_of_parse hagain, ?_⟩
    rw [hload]
    exact (Tree.tree_build (fun _ => true) hlegible.storable n).trans hbuilt.symm

def oddly : List UInt8 :=
  6 :: Stored.slot Stored.openCanary ++ Stored.size 1 ++ Stored.size 3 ++ 1 :: Stored.slot 2 ++
    2 :: Stored.slot 0x1FFFFFFFF ++ 0 :: Stored.slot 7 ++ Stored.slot Stored.closeCanary

/-- The odd bytes are read and a byte is left; a part of them is not, nor are all the rows that a few bytes
announce; what was read is stored in other bytes. -/
theorem load_prefix_free_oddly :
    let m : Memory := { collector := some {} }
    (m.load (oddly ++ [9])).1 = .ok (.array { target := some 0 }, [9]) ∧
      (m.load (oddly ++ [])).1 = .ok (.array { target := some 0 }, []) ∧
      (∃ f, (m.load (oddly.take 59)).1 = .error f ∧ f.kind = .misc) ∧
      (m.load (oddly ++ [9])).2.stored? (.array { target := some 0 }) ≠ some oddly ∧
      Stored.readRows (Stored.readWithin 9) (2 ^ 64 - 1) [1, 2] = Stored.readRows (Stored.readWithin 9) 3 [1, 2] ∧
      (Fault.stream (.unknownTag 9)).kind = .misc := by
  have hload : (({ collector := some {} } : Memory).load (oddly ++ [9])).1 =
      .ok (.array { target := some 0 }, [9]) := by cbv
  obtain ⟨taken, htaken, hmore, hpart, -⟩ := (load_prefix_free _ _).2.2 _ _ hload
  obtain rfl : oddly = taken := List.append_cancel_right htaken
  refine ⟨hload, ?_, ?_, by cbv; decide, ((load_prefix_free {} [1, 2]).1 9 _ (by decide)).2, ?_⟩
  · rw [hmore]
  · exact hpart _ (List.take_prefix _ _) (by decide)
  · exact (load_prefix_free {} [9]).2.1 _ (by cbv)

end Memory
end ScriptVm
