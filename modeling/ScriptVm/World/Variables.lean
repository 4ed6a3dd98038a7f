import ScriptVm.Value.Basic

/-! Tables of variables by number, in the order in which they were first set. -/

namespace ScriptVm

abbrev VariableId := UInt32

structure Variables where
  entries : List (VariableId × Value) := []
deriving DecidableEq, Repr

namespace Variables

def get? (t : Variables) (id : VariableId) : Option Value := t.entries.lookup id

def get (t : Variables) (id : VariableId) : Value := (t.get? id).getD .undefined

def setIn : List (VariableId × Value) → VariableId → Value → List (VariableId × Value)
  | [], id, v => [(id, v)]
  | (key, old) :: rest, id, v =>
    if key = id then (id, v) :: rest else (key, old) :: setIn rest id v

def set (t : Variables) (id : VariableId) (v : Value) : Variables := ⟨setIn t.entries id v⟩

theorem lookup_cons_eq (es : List (VariableId × Value)) (key other : VariableId) (v : Value) :
    ((key, v) :: es).lookup other = if other = key then some v else es.lookup other := by
  rw [List.lookup_cons]
  by_cases h : other = key
  · simp [h]
  · simp [beq_false_of_ne h, h]

theorem lookup_setIn (es : List (VariableId × Value)) (id other : VariableId) (v : Value) :
    (setIn es id v).lookup other = if other = id then some v else es.lookup other := by
  induction es with
  | nil => rw [setIn, lookup_cons_eq]
  | cons e es ih =>
    obtain ⟨key, old⟩ := e
    by_cases hk : key = id
    · subst hk
      rw [setIn, if_pos rfl, lookup_cons_eq, lookup_cons_eq]
      split <;> rfl
    · rw [setIn, if_neg hk, lookup_cons_eq, lookup_cons_eq, ih]
      by_cases h : other = key
      · subst h
        rw [if_pos rfl, if_neg hk, if_pos rfl]
      · rw [if_neg h, if_neg h]

@[simp] theorem get?_set (t : Variables) (id other : VariableId) (v : Value) :
    (t.set id v).get? other = if other = id then some v else t.get? other :=
  lookup_setIn t.entries id other v

def touch (t : Variables) (id : VariableId) : Variables := t.set id (t.get id)

def values (t : Variables) : List Value := t.entries.map (·.2)

end Variables
end ScriptVm
