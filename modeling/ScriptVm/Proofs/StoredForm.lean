import ScriptVm.Proofs.Reading
import ScriptVm.Stored.Format

/-! Reading the stored form of a tree. A reader that takes some bytes takes them before any others, and
readers in a row take the bytes in a row; so what `encode` writes is read back, with empty arrays for
those without data, as long as arrays nest no deeper than is read, and refused when they do. -/

namespace ScriptVm

/-- The lengths in memory are machine words. -/
def Value.Fits : Value → Prop
  | .string s => s.utf8ByteSize < 2 ^ 64
  | _ => True

namespace Tree
variable {α : Type}

mutual

def depth : Tree α → Nat
  | .scalar _ => 0
  | .null _ | .back _ => 1
  | .array _ rows => rowsDepth rows + 1

def rowsDepth : List (List (Tree α)) → Nat
  | [] => 0
  | row :: rows => max (cellsDepth row) (rowsDepth rows)

def cellsDepth : List (Tree α) → Nat
  | [] => 0
  | cell :: cells => max cell.depth (cellsDepth cells)

end

mutual

/-- The tree with an empty array for each that has no data. -/
def settled : Tree α → Tree α
  | .scalar v => .scalar v
  | .null note => .array note []
  | .back note => .back note
  | .array note rows => .array note (settledRows rows)

def settledRows : List (List (Tree α)) → List (List (Tree α))
  | [] => []
  | row :: rows => settledCells row :: settledRows rows

def settledCells : List (Tree α) → List (Tree α)
  | [] => []
  | cell :: cells => cell.settled :: settledCells cells

end

mutual

/-- No array is met again below itself, the leaves are no arrays and lengths are machine words. -/
def Storable : Tree α → Prop
  | .scalar v => v.isArray = false ∧ v.Fits
  | .null _ => True
  | .back _ => False
  | .array _ rows => rows.length < 2 ^ 64 ∧ StorableRows rows

def StorableRows : List (List (Tree α)) → Prop
  | [] => True
  | row :: rows => row.length < 2 ^ 64 ∧ StorableCells row ∧ StorableRows rows

def StorableCells : List (Tree α) → Prop
  | [] => True
  | cell :: cells => cell.Storable ∧ StorableCells cells

end

theorem storableCells_iff {cells : List (Tree α)} : StorableCells cells ↔ ∀ t ∈ cells, t.Storable := by
  induction cells with
  | nil => simp [StorableCells]
  | cons cell cells ih => rw [StorableCells, ih, List.forall_mem_cons]

theorem storableRows_iff {rows : List (List (Tree α))} :
    StorableRows rows ↔ ∀ row ∈ rows, row.length < 2 ^ 64 ∧ ∀ t ∈ row, t.Storable := by
  induction rows with
  | nil => simp [StorableRows]
  | cons row rows ih => rw [StorableRows, ih, List.forall_mem_cons, storableCells_iff, and_assoc]

theorem length_settledCells (cells : List (Tree α)) : (settledCells cells).length = cells.length := by
  induction cells with
  | nil => rfl
  | cons cell cells ih => rw [settledCells, List.length_cons, ih, List.length_cons]

theorem length_settledRows (rows : List (List (Tree α))) : (settledRows rows).length = rows.length := by
  induction rows with
  | nil => rfl
  | cons row rows ih => rw [settledRows, List.length_cons, ih, List.length_cons]

mutual

theorem Storable.settled {t : Tree α} (ht : t.Storable) : t.settled.Storable := by
  cases t with
  | scalar v => exact ht
  | null note => exact ⟨by simp, trivial⟩
  | back note => exact ht.elim
  | array note rows =>
    rw [Tree.settled, Storable, length_settledRows]
    exact ⟨ht.1, storableRows_settled ht.2⟩

theorem storableRows_settled {rows : List (List (Tree α))} (h : StorableRows rows) :
    StorableRows (settledRows rows) := by
  cases rows with
  | nil => trivial
  | cons row rows =>
    rw [settledRows, StorableRows, length_settledCells]
    exact ⟨h.1, storableCells_settled h.2.1, storableRows_settled h.2.2⟩

theorem storableCells_settled {cells : List (Tree α)} (h : StorableCells cells) :
    StorableCells (settledCells cells) := by
  cases cells with
  | nil => trivial
  | cons cell cells => exact ⟨h.1.settled, storableCells_settled h.2⟩

end

end Tree

namespace Stored
open ScriptVm.Tree
variable {α β γ : Type}

mutual

theorem encode_settled (t : Tree α) : encode t.settled = encode t := by
  cases t with
  | scalar v => rfl
  | null note => simp [settled, encode, encodeRows]
  | back note => rfl
  | array note rows => rw [settled, encode, encode, encodeRows_settled rows, length_settledRows]

theorem encodeRows_settled (rows : List (List (Tree α))) : encodeRows (settledRows rows) = encodeRows rows := by
  cases rows with
  | nil => rfl
  | cons row rows =>
    rw [settledRows, encodeRows, encodeRows, encodeCells_settled row, encodeRows_settled rows, length_settledCells]

theorem encodeCells_settled (cells : List (Tree α)) : encodeCells (settledCells cells) = encodeCells cells := by
  cases cells with
  | nil => rfl
  | cons cell cells =>
    rw [settledCells, encodeCells, encodeCells, encode_settled cell, encodeCells_settled cells]

end

/-! ### Readers -/

/-- Takes these bytes, whatever follows, for `x`. -/
def Takes (read : Read β) (bytes : List UInt8) (x : β) : Prop := ∀ rest, read (bytes ++ rest) = .ok (x, rest)

/-- Finds arrays too deep in these bytes, whatever follows. -/
def Refuses (read : Read β) (bytes : List UInt8) : Prop :=
  ∀ rest, ∃ completed, read (bytes ++ rest) = .error ⟨.tooDeep, completed⟩

theorem takes_pure (x : β) : Takes (pure x) [] x := fun _ => rfl

theorem Takes.bind {read : Read β} {next : β → Read γ} {bs cs : List UInt8} {x : β} {y : γ} (hread : Takes read bs x)
    (hnext : Takes (next x) cs y) : Takes (read >>= next) (bs ++ cs) y := by
  intro rest
  change (read (bs ++ cs ++ rest)).bind (fun p => next p.1 p.2) = _
  rw [List.append_assoc, hread]
  exact hnext rest

theorem Takes.map {read : Read β} {bs : List UInt8} {x : β} (hread : Takes read bs x) (f : β → γ) :
    Takes (read >>= fun x => pure (f x)) bs (f x) := by
  have h : Takes (read >>= fun x => pure (f x)) (bs ++ []) (f x) := hread.bind (takes_pure (f x))
  rwa [List.append_nil] at h

theorem Takes.after {read : Read β} {bs : List UInt8} {x : β} (hread : Takes read bs x) (done : List (Tree Unit)) :
    Takes (after done read) bs x := by
  intro rest
  rw [Stored.after, hread]

theorem Takes.refuses {read : Read β} {next : β → Read γ} {bs cs : List UInt8} {x : β} (hread : Takes read bs x)
    (hnext : Refuses (next x) cs) : Refuses (read >>= next) (bs ++ cs) := by
  intro rest
  obtain ⟨completed, hfail⟩ := hnext rest
  refine ⟨completed, ?_⟩
  change (read (bs ++ cs ++ rest)).bind (fun p => next p.1 p.2) = _
  rw [List.append_assoc, hread]
  exact hfail

theorem Refuses.bind {read : Read β} {bs : List UInt8} (hread : Refuses read bs) (next : β → Read γ)
    (cs : List UInt8) : Refuses (read >>= next) (bs ++ cs) := by
  intro rest
  obtain ⟨completed, hfail⟩ := hread (cs ++ rest)
  refine ⟨completed, ?_⟩
  change (read (bs ++ cs ++ rest)).bind (fun p => next p.1 p.2) = _
  rw [List.append_assoc, hfail]
  rfl

theorem Refuses.after {read : Read β} {bs : List UInt8} (hread : Refuses read bs) (done : List (Tree Unit)) :
    Refuses (after done read) bs := by
  intro rest
  obtain ⟨completed, hfail⟩ := hread rest
  refine ⟨done ++ completed, ?_⟩
  rw [Stored.after, hfail]

theorem takeBytes?_append (bs rest : List UInt8) : takeBytes? bs.length (bs ++ rest) = some (bs, rest) := by
  simp [takeBytes?]

theorem length_slot (n : UInt64) : (slot n).length = 8 := LittleEndian.length_bytes 8 _

theorem takes_readSlot (n : UInt64) : Takes readSlot (slot n) n := by
  intro rest
  have htake := takeBytes?_append (slot n) rest
  rw [length_slot] at htake
  have hword : (LittleEndian.toNat (slot n)).toUInt64 = n := by
    have hlow : n.toNat % 1 <<< (8 * 8) = n.toNat := Nat.mod_eq_of_lt n.toNat_lt
    rw [slot, LittleEndian.toNat_bytes, hlow]
    exact UInt64.ofNat_toNat
  simp only [readSlot, htake, hword]

theorem toNat_size {n : Nat} (hn : n < 2 ^ 64) : n.toUInt64.toNat = n := UInt64.toNat_ofNat_of_lt' hn

theorem takes_readCanary (canary : UInt64) : Takes (readCanary canary) (slot canary) () := by
  rw [← List.append_nil (slot canary)]
  refine (takes_readSlot canary).bind ?_
  rw [if_pos rfl]
  exact takes_pure ()

theorem takes_readText (s : String) : Takes (readText s.utf8ByteSize) s.toUTF8.data.toList s := by
  intro rest
  have htake := takeBytes?_append s.toUTF8.data.toList rest
  have hlength : s.toUTF8.data.toList.length = s.utf8ByteSize := rfl
  rw [hlength] at htake
  have hdata : (⟨s.toUTF8.data.toList.toArray⟩ : ByteArray) = s.toUTF8 := by
    rw [Array.toArray_toList]
  simp only [readText, htake, hdata, Cursor.fromUTF8?_toUTF8]

/-! ### Values -/

theorem Takes.tagged {nesting : Nat} {tag : UInt8} {read : Read (Tree Unit)} {bs : List UInt8} {t : Tree Unit}
    (hread : Takes read bs t) (htag : ∀ rest, readWithin nesting (tag :: rest) = read rest) :
    Takes (readWithin nesting) (tag :: bs) t := by
  intro rest
  rw [List.cons_append, htag]
  exact hread rest

theorem Refuses.tagged {nesting : Nat} {tag : UInt8} {read : Read (Tree Unit)} {bs : List UInt8}
    (hread : Refuses read bs) (htag : ∀ rest, readWithin nesting (tag :: rest) = read rest) :
    Refuses (readWithin nesting) (tag :: bs) := by
  intro rest
  rw [List.cons_append, htag]
  exact hread rest

theorem takes_slot {nesting : Nat} {tag : UInt8} {f : UInt64 → Value} {n : UInt64} {v : Value} (hv : f n = v)
    (htag : ∀ rest, readWithin nesting (tag :: rest) =
      (do return (Tree.scalar (f (← readSlot)) : Tree Unit) : Read (Tree Unit)) rest) :
    Takes (readWithin nesting) (tag :: slot n) (.scalar v) := by
  rw [← hv]
  exact ((takes_readSlot n).map fun n => (.scalar (f n) : Tree Unit)).tagged htag

theorem ofInt_slot (i : Int32) : Int32.ofInt (UInt64.ofInt i.toInt).toNat = i := by
  have hword : ((UInt64.ofInt i.toInt).toNat : Int) = i.toInt % 2 ^ 64 := by
    have hnat : (i.toInt % 2 ^ 64).toNat < 2 ^ 64 := by omega
    rw [UInt64.ofInt, UInt64.toNat_ofNat_of_lt' hnat]
    omega
  have hlow := i.le_toInt
  have hhigh := i.toInt_lt
  have hsize : (Int32.size : Int) = 2 ^ 32 := rfl
  rw [hword, ← Int32.toInt_inj, Int32.toInt_ofInt, Int.bmod_def, hsize]
  omega

theorem takes_scalar {v : Value} (hv : v.isArray = false) (hfits : v.Fits) (nesting : Nat) :
    Takes (readWithin nesting) (encodeScalar v) (.scalar v) := by
  cases v with
  | undefined =>
    refine takes_slot (f := fun _ => .undefined) rfl fun rest => ?_
    unfold readWithin
    rfl
  | bool b =>
    refine takes_slot (f := fun n => .bool (n != 0)) (by cases b <;> rfl) fun rest => ?_
    unfold readWithin
    rfl
  | int i =>
    refine takes_slot (f := fun n => .int (.ofInt n.toNat)) (congrArg Value.int (ofInt_slot i)) fun rest => ?_
    unfold readWithin
    rfl
  | uint n =>
    refine takes_slot (f := .uint) rfl fun rest => ?_
    unfold readWithin
    rfl
  | real x =>
    refine takes_slot (f := fun n => .real ⟨n⟩) rfl fun rest => ?_
    unfold readWithin
    rfl
  | string s =>
    have h : Takes (do return (Tree.scalar (.string (← readText (← readSlot).toNat)) : Tree Unit))
        (size s.utf8ByteSize ++ s.toUTF8.data.toList) (.scalar (.string s)) := by
      refine (takes_readSlot _).bind ?_
      rw [toNat_size hfits]
      exact (takes_readText s).map _
    refine h.tagged fun rest => ?_
    unfold readWithin
    rfl
  | pointer p =>
    refine takes_slot (f := .pointer) rfl fun rest => ?_
    unfold readWithin
    rfl
  | array k => cases hv

theorem readWithin_array (nesting : Nat) (rest : List UInt8) :
    readWithin (nesting + 1) (6 :: rest) = readArray (readWithin nesting) rest := by
  rw [readWithin]
  rfl

theorem takes_readArray {cell : Read (Tree Unit)} {height : Nat} {rows : List (List (Tree Unit))} {body : List UInt8}
    (hheight : height < 2 ^ 64) (hbody : Takes (readRows cell height) body rows) :
    Takes (readArray cell) (slot openCanary ++ (size height ++ (body ++ slot closeCanary))) (.array () rows) := by
  unfold readArray
  refine (takes_readCanary openCanary).bind ?_
  refine (takes_readSlot height.toUInt64).bind ?_
  rw [toNat_size hheight]
  have hclose := ((takes_readCanary closeCanary).after rows.flatten).map fun _ => (Tree.array () rows : Tree Unit)
  exact hbody.bind hclose

theorem refuses_readArray {cell : Read (Tree Unit)} {height : Nat} {body : List UInt8} (hheight : height < 2 ^ 64)
    (hbody : Refuses (readRows cell height) body) :
    Refuses (readArray cell) (slot openCanary ++ (size height ++ (body ++ slot closeCanary))) := by
  unfold readArray
  refine (takes_readCanary openCanary).refuses ?_
  refine (takes_readSlot height.toUInt64).refuses ?_
  rw [toNat_size hheight]
  exact hbody.bind _ _

theorem refuses_array (bs : List UInt8) : Refuses (readWithin 0) (6 :: bs) := by
  intro rest
  refine ⟨[], ?_⟩
  rw [List.cons_append, readWithin]
  rfl

mutual

/-- What is stored is read back, if it nests no deeper than is read. -/
theorem takes_encode {t : Tree Unit} (ht : t.Storable) {nesting : Nat} (hdepth : t.depth ≤ nesting) {bytes : List UInt8}
    (hbytes : encode t = some bytes) : Takes (readWithin nesting) bytes t.settled := by
  cases t with
  | scalar v =>
    cases hbytes
    exact takes_scalar ht.1 ht.2 nesting
  | null note =>
    cases hbytes
    obtain ⟨nesting, rfl⟩ := Nat.exists_eq_add_of_le' hdepth
    have hempty : Takes (readRows (readWithin nesting) 0) [] [] := takes_pure []
    exact (takes_readArray (by decide) hempty).tagged (readWithin_array nesting)
  | back note => cases hbytes
  | array note rows =>
    rw [depth] at hdepth
    obtain ⟨nesting, rfl⟩ := Nat.exists_eq_add_of_le' (Nat.one_le_of_lt hdepth)
    obtain ⟨body, hbody, hbytes⟩ := Option.bind_eq_some_iff.1 hbytes
    cases hbytes
    have h := takes_readArray ht.1 (takes_encodeRows ht.2 (Nat.le_of_succ_le_succ hdepth) hbody)
    rw [settled]
    simpa using h.tagged (readWithin_array nesting)

theorem takes_encodeRows {rows : List (List (Tree Unit))} (hrows : StorableRows rows) {nesting : Nat}
    (hdepth : rowsDepth rows ≤ nesting) {bytes : List UInt8} (hbytes : encodeRows rows = some bytes) :
    Takes (readRows (readWithin nesting) rows.length) bytes (settledRows rows) := by
  cases rows with
  | nil =>
    cases hbytes
    exact takes_pure []
  | cons row rows =>
    obtain ⟨hdepth, hdepth'⟩ := max_le_iff.1 hdepth
    obtain ⟨cells, hcells, hbytes⟩ := Option.bind_eq_some_iff.1 hbytes
    obtain ⟨body, hbody, hbytes⟩ := Option.bind_eq_some_iff.1 hbytes
    cases hbytes
    rw [List.append_assoc]
    refine (takes_readSlot _).bind ?_
    rw [toNat_size hrows.1]
    exact (takes_encodeCells hrows.2.1 hdepth hcells).bind
      (((takes_encodeRows hrows.2.2 hdepth' hbody).after _).map _)

theorem takes_encodeCells {cells : List (Tree Unit)} (hcells : StorableCells cells) {nesting : Nat}
    (hdepth : cellsDepth cells ≤ nesting) {bytes : List UInt8} (hbytes : encodeCells cells = some bytes) :
    Takes (readCells (readWithin nesting) cells.length) bytes (settledCells cells) := by
  cases cells with
  | nil =>
    cases hbytes
    exact takes_pure []
  | cons cell cells =>
    obtain ⟨hdepth, hdepth'⟩ := max_le_iff.1 hdepth
    obtain ⟨first, hfirst, hbytes⟩ := Option.bind_eq_some_iff.1 hbytes
    obtain ⟨others, hothers, hbytes⟩ := Option.bind_eq_some_iff.1 hbytes
    cases hbytes
    exact (takes_encode hcells.1 hdepth hfirst).bind
      (((takes_encodeCells hcells.2 hdepth' hothers).after _).map _)

end

mutual

theorem refuses_encode {t : Tree Unit} (ht : t.Storable) {nesting : Nat} (hdepth : nesting < t.depth) {bytes : List UInt8}
    (hbytes : encode t = some bytes) : Refuses (readWithin nesting) bytes := by
  cases t with
  | scalar v => cases hdepth
  | null note =>
    cases hbytes
    obtain rfl := Nat.lt_one_iff.1 hdepth
    exact refuses_array _
  | back note => cases hbytes
  | array note rows =>
    obtain ⟨body, hbody, hbytes⟩ := Option.bind_eq_some_iff.1 hbytes
    cases hbytes
    cases nesting with
    | zero => exact refuses_array _
    | succ nesting =>
      have hrows := refuses_encodeRows ht.2 (Nat.lt_of_succ_lt_succ hdepth) hbody
      simpa using (refuses_readArray ht.1 hrows).tagged (readWithin_array nesting)

theorem refuses_encodeRows {rows : List (List (Tree Unit))} (hrows : StorableRows rows) {nesting : Nat}
    (hdepth : nesting < rowsDepth rows) {bytes : List UInt8} (hbytes : encodeRows rows = some bytes) :
    Refuses (readRows (readWithin nesting) rows.length) bytes := by
  cases rows with
  | nil => cases hdepth
  | cons row rows =>
    obtain ⟨cells, hcells, hbytes⟩ := Option.bind_eq_some_iff.1 hbytes
    obtain ⟨body, hbody, hbytes⟩ := Option.bind_eq_some_iff.1 hbytes
    cases hbytes
    rw [List.append_assoc]
    refine (takes_readSlot _).refuses ?_
    rw [toNat_size hrows.1]
    -- the first row that is too deep stops the reading
    by_cases hrow : cellsDepth row ≤ nesting
    · have hrest : nesting < rowsDepth rows := (lt_max_iff.1 hdepth).resolve_left (not_lt.2 hrow)
      refine (takes_encodeCells hrows.2.1 hrow hcells).refuses ?_
      have h := ((refuses_encodeRows hrows.2.2 hrest hbody).after (settledCells row)).bind
        (fun others => pure (settledCells row :: others)) []
      rwa [List.append_nil] at h
    · exact (refuses_encodeCells hrows.2.1 (not_le.1 hrow) hcells).bind _ body

theorem refuses_encodeCells {cells : List (Tree Unit)} (hcells : StorableCells cells) {nesting : Nat}
    (hdepth : nesting < cellsDepth cells) {bytes : List UInt8} (hbytes : encodeCells cells = some bytes) :
    Refuses (readCells (readWithin nesting) cells.length) bytes := by
  cases cells with
  | nil => cases hdepth
  | cons cell cells =>
    obtain ⟨first, hfirst, hbytes⟩ := Option.bind_eq_some_iff.1 hbytes
    obtain ⟨others, hothers, hbytes⟩ := Option.bind_eq_some_iff.1 hbytes
    cases hbytes
    by_cases hcell : cell.depth ≤ nesting
    · have hrest : nesting < cellsDepth cells := (lt_max_iff.1 hdepth).resolve_left (not_lt.2 hcell)
      refine (takes_encode hcells.1 hcell hfirst).refuses ?_
      have h := ((refuses_encodeCells hcells.2 hrest hothers).after [cell.settled]).bind
        (fun others => pure (cell.settled :: others)) []
      rwa [List.append_nil] at h
    · exact (refuses_encode hcells.1 (not_le.1 hcell) hfirst).bind _ others

end

mutual

theorem exists_encode {t : Tree α} (ht : t.Storable) : ∃ bytes, encode t = some bytes := by
  cases t with
  | scalar v => exact ⟨_, rfl⟩
  | null note => exact ⟨_, rfl⟩
  | back note => exact ht.elim
  | array note rows =>
    obtain ⟨body, hbody⟩ := exists_encodeRows ht.2
    exact ⟨_, by rw [encode, hbody]; rfl⟩

theorem exists_encodeRows {rows : List (List (Tree α))} (h : StorableRows rows) :
    ∃ bytes, encodeRows rows = some bytes := by
  cases rows with
  | nil => exact ⟨_, rfl⟩
  | cons row rows =>
    obtain ⟨cells, hcells⟩ := exists_encodeCells h.2.1
    obtain ⟨body, hbody⟩ := exists_encodeRows h.2.2
    exact ⟨_, by rw [encodeRows, hcells, hbody]; rfl⟩

theorem exists_encodeCells {cells : List (Tree α)} (h : StorableCells cells) :
    ∃ bytes, encodeCells cells = some bytes := by
  cases cells with
  | nil => exact ⟨_, rfl⟩
  | cons cell cells =>
    obtain ⟨first, hfirst⟩ := exists_encode h.1
    obtain ⟨others, hothers⟩ := exists_encodeCells h.2
    exact ⟨_, by rw [encodeCells, hfirst, hothers]; rfl⟩

end

end Stored
end ScriptVm
