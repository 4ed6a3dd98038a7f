import Mathlib.Tactic
import ScriptVm.Collector.Edges

/-! Weights of recorded edges. Entries stand in the order of their targets and none of them is empty;
under that order adding and removing an edge change one weight by one and no other. -/

namespace ScriptVm

theorem NodeId.before_irrefl (a : NodeId) : ¬ a.before a = true := by
  simp [NodeId.before, UInt32.lt_irrefl]

theorem NodeId.before_iff (a b : NodeId) :
    a.before b = true ↔
      a.index < b.index ∨ a.index = b.index ∧ a.generation.toNat < b.generation.toNat := by
  simp [NodeId.before, UInt32.lt_iff_toNat_lt]

theorem NodeId.before_trans {a b c : NodeId} (hab : a.before b = true) (hbc : b.before c = true) :
    a.before c = true := by
  rw [NodeId.before_iff] at *
  omega

theorem NodeId.before_of_not {a b : NodeId} (hne : b ≠ a) (h : ¬ a.before b = true) :
    b.before a = true := by
  rw [NodeId.before_iff] at *
  have hid : ¬ (b.index = a.index ∧ b.generation.toNat = a.generation.toNat) := by
    rintro ⟨hi, hg⟩
    apply hne
    cases a
    cases b
    simp_all [UInt32.toNat_inj]
  omega

namespace Edges

/-- Entries by target, none with weight zero. -/
structure Ordered (e : Edges) : Prop where
  sorted : e.Pairwise fun x y => x.1.before y.1 = true
  positive : ∀ x ∈ e, 0 < x.2

theorem ordered_nil : Ordered [] := ⟨List.Pairwise.nil, by simp⟩

theorem Ordered.tail {x : NodeId × Nat} {e : Edges} (h : Ordered (x :: e)) : Ordered e :=
  ⟨(List.pairwise_cons.1 h.sorted).2, fun y hy => h.positive y (List.mem_cons_of_mem _ hy)⟩

theorem Ordered.cons {x : NodeId × Nat} {e : Edges} (h : Ordered e) (hx : 0 < x.2)
    (hb : ∀ y ∈ e, x.1.before y.1 = true) : Ordered (x :: e) := by
  refine ⟨List.pairwise_cons.2 ⟨hb, h.sorted⟩, fun y hy => ?_⟩
  rcases List.mem_cons.1 hy with rfl | hy
  · exact hx
  · exact h.positive y hy

theorem weight_eq_zero {e : Edges} {t : NodeId} (h : ∀ y ∈ e, y.1 ≠ t) : weight e t = 0 := by
  induction e with
  | nil => rfl
  | cons x e ih =>
    obtain ⟨id, n⟩ := x
    rw [weight, if_neg (h _ List.mem_cons_self)]
    exact ih fun y hy => h y (List.mem_cons_of_mem _ hy)

theorem weight_eq_zero_of_before {e : Edges} {t : NodeId} (h : ∀ y ∈ e, t.before y.1 = true) :
    weight e t = 0 := by
  apply weight_eq_zero
  rintro y hy rfl
  exact NodeId.before_irrefl _ (h y hy)

theorem mem_add {e : Edges} {t : NodeId} {y : NodeId × Nat} (h : y ∈ add e t) :
    y.1 = t ∨ y ∈ e := by
  induction e with
  | nil =>
    rw [add, List.mem_singleton] at h
    exact Or.inl (by rw [h])
  | cons x e ih =>
    obtain ⟨id, n⟩ := x
    rw [add] at h
    split_ifs at h with h1 h2
    · subst h1
      rcases List.mem_cons.1 h with rfl | h
      · exact Or.inl rfl
      · exact Or.inr (List.mem_cons_of_mem _ h)
    · rcases List.mem_cons.1 h with rfl | h
      · exact Or.inl rfl
      · exact Or.inr h
    · rcases List.mem_cons.1 h with rfl | h
      · exact Or.inr List.mem_cons_self
      · exact (ih h).imp_right (List.mem_cons_of_mem _)

theorem mem_remove {e : Edges} {t : NodeId} {y : NodeId × Nat} (h : y ∈ remove e t) :
    ∃ n, (y.1, n) ∈ e ∧ y.2 ≤ n := by
  induction e with
  | nil => cases h
  | cons x e ih =>
    obtain ⟨id, n⟩ := x
    rw [remove] at h
    split_ifs at h with h1 h2
    · exact ⟨y.2, List.mem_cons_of_mem _ h, le_rfl⟩
    · rcases List.mem_cons.1 h with rfl | h
      · exact ⟨n, List.mem_cons_self, Nat.sub_le _ _⟩
      · exact ⟨y.2, List.mem_cons_of_mem _ h, le_rfl⟩
    · rcases List.mem_cons.1 h with rfl | h
      · exact ⟨n, List.mem_cons_self, le_rfl⟩
      · obtain ⟨n', hn', hle⟩ := ih h
        exact ⟨n', List.mem_cons_of_mem _ hn', hle⟩

theorem ordered_add {e : Edges} (h : Ordered e) (t : NodeId) : Ordered (add e t) := by
  induction e with
  | nil => exact ordered_nil.cons Nat.one_pos (by simp)
  | cons x e ih =>
    obtain ⟨id, n⟩ := x
    have hhead := (List.pairwise_cons.1 h.sorted).1
    rw [add]
    split_ifs with h1 h2
    · exact h.tail.cons (Nat.succ_pos n) hhead
    · refine h.cons Nat.one_pos fun y hy => ?_
      rcases List.mem_cons.1 hy with rfl | hy
      · exact h2
      · exact NodeId.before_trans h2 (hhead y hy)
    · refine (ih h.tail).cons (h.positive _ List.mem_cons_self) fun y hy => ?_
      rcases mem_add hy with hyt | hy
      · rw [hyt]
        exact NodeId.before_of_not h1 h2
      · exact hhead y hy

theorem ordered_remove {e : Edges} (h : Ordered e) (t : NodeId) : Ordered (remove e t) := by
  induction e with
  | nil => exact ordered_nil
  | cons x e ih =>
    obtain ⟨id, n⟩ := x
    have hhead := (List.pairwise_cons.1 h.sorted).1
    rw [remove]
    split_ifs with h1 h2
    · exact h.tail
    · exact h.tail.cons (show 0 < n - 1 by omega) hhead
    · refine (ih h.tail).cons (h.positive _ List.mem_cons_self) fun y hy => ?_
      obtain ⟨m, hm, -⟩ := mem_remove hy
      exact hhead (y.1, m) hm

theorem weight_add {e : Edges} (h : Ordered e) (t u : NodeId) :
    weight (add e t) u = weight e u + if t = u then 1 else 0 := by
  induction e with
  | nil => simp [add, weight]
  | cons x e ih =>
    obtain ⟨id, n⟩ := x
    have hhead := (List.pairwise_cons.1 h.sorted).1
    have hrest := ih h.tail
    by_cases h1 : id = t
    · subst h1
      by_cases h3 : id = u <;> simp [add, weight, h3]
    by_cases h2 : t.before id = true
    · -- the target comes before every entry, so it had none
      have hzero : weight ((id, n) :: e) t = 0 := by
        apply weight_eq_zero_of_before
        intro y hy
        rcases List.mem_cons.1 hy with rfl | hy
        · exact h2
        · exact NodeId.before_trans h2 (hhead y hy)
      rw [add, if_neg h1, if_pos h2, weight]
      by_cases h3 : t = u
      · subst h3
        simp [hzero]
      · simp [h3]
    · rw [add, if_neg h1, if_neg h2, weight, weight, hrest]
      by_cases h3 : id = u
      · subst h3
        simp [Ne.symm h1]
      · simp [h3]

theorem weight_remove {e : Edges} (h : Ordered e) (t u : NodeId) :
    weight (remove e t) u = weight e u - if t = u then 1 else 0 := by
  induction e with
  | nil => simp [remove, weight]
  | cons x e ih =>
    obtain ⟨id, n⟩ := x
    have hhead := (List.pairwise_cons.1 h.sorted).1
    have hrest := ih h.tail
    by_cases h1 : id = t
    · subst h1
      have hgone : weight e id = 0 := weight_eq_zero_of_before hhead
      rw [remove, if_pos rfl]
      by_cases h3 : id = u
      · subst h3
        by_cases h2 : n ≤ 1
        · rw [if_pos h2, hgone, weight, if_pos rfl, if_pos rfl]
          omega
        · simp [h2, weight]
      · by_cases h2 : n ≤ 1 <;> simp [h2, h3, weight]
    · rw [remove, if_neg h1, weight, weight, hrest]
      by_cases h3 : id = u
      · subst h3
        simp [Ne.symm h1]
      · simp [h3]

theorem mem_targets_iff {e : Edges} (h : Ordered e) (t : NodeId) :
    t ∈ e.targets ↔ 0 < weight e t := by
  induction e with
  | nil => simp [targets, weight]
  | cons x e ih =>
    obtain ⟨id, n⟩ := x
    have hn : 0 < n := h.positive _ List.mem_cons_self
    have hrest := ih h.tail
    simp only [targets, List.map_cons, List.mem_cons, weight] at hrest ⊢
    by_cases hid : id = t
    · simp [hid, hn]
    · rw [if_neg hid, ← hrest]
      simp [Ne.symm hid]

theorem remove_eq_self {e : Edges} {t : NodeId} (h : t ∉ e.targets) : e.remove t = e := by
  induction e with
  | nil => rfl
  | cons x e ih =>
    obtain ⟨hne, hrest⟩ := not_or.1 (List.mem_cons.not.1 h)
    rw [remove, if_neg (Ne.symm hne), ih hrest]

end Edges
end ScriptVm
