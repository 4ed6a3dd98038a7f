import Mathlib.Tactic
import ScriptVm.Proofs.Holders
import ScriptVm.Session.Arrays
import ScriptVm.World.Variables

/-! Tables of values by key, whatever the keys are. Putting a value in a key's place exchanges one
value of the table for another and leaves the rest. -/

namespace ScriptVm.Entries
variable {κ : Type} [DecidableEq κ]

def look (es : List (κ × Value)) (k : κ) : Value := (es.lookup k).getD .undefined

def put : List (κ × Value) → κ → Value → List (κ × Value)
  | [], k, v => [(k, v)]
  | (key, old) :: rest, k, v => if key = k then (k, v) :: rest else (key, old) :: put rest k v

/-- The values of the table but for the one that the key finds. -/
def others : List (κ × Value) → κ → List Value
  | [], _ => []
  | (key, old) :: rest, k => if key = k then rest.map Prod.snd else old :: others rest k

theorem put_session (es : List (String × Value)) (r : String) (v : Value) :
    ArraySession.State.setIn es r v = put es r v := by
  induction es with
  | nil => rfl
  | cons e es ih => rw [ArraySession.State.setIn, put, ih]

theorem put_variables (es : List (VariableId × Value)) (id : VariableId) (v : Value) :
    Variables.setIn es id v = put es id v := by
  induction es with
  | nil => rfl
  | cons e es ih => rw [Variables.setIn, put, ih]

theorem lookup_cons (key k : κ) (v : Value) (es : List (κ × Value)) :
    ((key, v) :: es).lookup k = if key = k then some v else es.lookup k := by
  rw [List.lookup_cons]
  by_cases h : k = key
  · simp [h]
  · simp [beq_false_of_ne h, Ne.symm h]

theorem look_cons (key k : κ) (v : Value) (es : List (κ × Value)) :
    look ((key, v) :: es) k = if key = k then v else look es k := by
  rw [look, lookup_cons]
  split_ifs <;> rfl

theorem look_put (es : List (κ × Value)) (k k' : κ) (v : Value) :
    look (put es k v) k' = if k = k' then v else look es k' := by
  induction es with
  | nil => rw [put, look_cons]
  | cons e es ih =>
    obtain ⟨key, old⟩ := e
    by_cases hk : key = k
    · subst hk
      rw [put, if_pos rfl, look_cons, look_cons]
      split_ifs <;> rfl
    · rw [put, if_neg hk, look_cons, look_cons, ih]
      by_cases h : key = k'
      · subst h
        rw [if_pos rfl, if_neg (Ne.symm hk), if_pos rfl]
      · rw [if_neg h, if_neg h]

theorem perm_put (es : List (κ × Value)) (k : κ) (v : Value) :
    ((put es k v).map Prod.snd).Perm (v :: others es k) := by
  induction es with
  | nil => exact List.Perm.refl _
  | cons e es ih =>
    obtain ⟨key, old⟩ := e
    rw [put, others]
    split_ifs with hk
    · exact List.Perm.refl _
    · exact (ih.cons old).trans (List.Perm.swap _ _ _)

theorem perm_others (es : List (κ × Value)) (k : κ) :
    (es.map Prod.snd).Perm (look es k :: others es k) ∨
      look es k = .undefined ∧ es.map Prod.snd = others es k := by
  induction es with
  | nil => exact Or.inr ⟨rfl, rfl⟩
  | cons e es ih =>
    obtain ⟨key, old⟩ := e
    rw [look_cons, others]
    split_ifs with hk
    · exact Or.inl (List.Perm.refl _)
    · rcases ih with ih | ⟨hlook, hothers⟩
      · exact Or.inl ((ih.cons old).trans (List.Perm.swap _ _ _))
      · exact Or.inr ⟨hlook, by rw [List.map_cons, hothers]⟩

theorem look_mem (es : List (κ × Value)) (k : κ) : look es k ∈ es.map Prod.snd ∨ look es k = .undefined := by
  rcases perm_others es k with hp | ⟨hlook, -⟩
  · exact Or.inl (hp.symm.subset List.mem_cons_self)
  · exact Or.inr hlook

theorem look_mem_others (es : List (κ × Value)) {k k' : κ} (hne : k ≠ k') :
    look es k' ∈ others es k ∨ look es k' = .undefined := by
  induction es with
  | nil => exact Or.inr rfl
  | cons e es ih =>
    obtain ⟨key, old⟩ := e
    rw [look_cons, others]
    by_cases hk : key = k
    · subst hk
      rw [if_neg hne, if_pos rfl]
      exact look_mem es k'
    · rw [if_neg hk]
      split_ifs with hk'
      · exact Or.inl List.mem_cons_self
      · exact ih.imp_left (List.mem_cons_of_mem _)

theorem supports_apart {h : Heap} {es : List (κ × Value)} (news : List Value)
    (hs : h.Supports (news ++ es.map Prod.snd)) (k : κ) :
    h.Supports (look es k :: (news ++ others es k)) := by
  refine hs.of_le fun a => ?_
  rcases perm_others es k with hp | ⟨hlook, hothers⟩
  · rw [handlesOn_append, handlesOn_perm hp a]
    simp only [handlesOn_cons, handlesOn_append]
    omega
  · rw [handlesOn_append, hothers, hlook]
    simp [Value.target?]

/-! ### Taking a key out -/

theorem look_filter (es : List (String × Value)) (r r' : String) :
    look (es.filter fun (name, _) => name != r) r' = if r = r' then .undefined else look es r' := by
  induction es with
  | nil =>
    rw [List.filter_nil]
    split_ifs <;> rfl
  | cons e es ih =>
    obtain ⟨name, v⟩ := e
    rw [List.filter_cons]
    by_cases hname : name = r
    · subst hname
      rw [if_neg (by simp), ih, look_cons]
      split_ifs <;> rfl
    · rw [if_pos (by simpa using hname), look_cons, ih, look_cons]
      by_cases hr : r = r'
      · subst hr
        rw [if_neg hname, if_pos rfl, if_pos rfl]
      · rw [if_neg hr, if_neg hr]

theorem filter_sublist_others (es : List (String × Value)) (r : String) :
    ((es.filter fun (name, _) => name != r).map Prod.snd).Sublist (others es r) := by
  induction es with
  | nil => exact List.Sublist.refl _
  | cons e es ih =>
    obtain ⟨name, v⟩ := e
    rw [List.filter_cons, others]
    by_cases hname : name = r
    · rw [if_neg (by simp [hname]), if_pos hname]
      exact List.filter_sublist.map _
    · rw [if_pos (by simpa using hname), if_neg hname]
      exact ih.cons_cons v

end ScriptVm.Entries
