import Mathlib.Data.List.Basic
import Mathlib.Algebra.Order.Ring.Nat
import Mathlib.Tactic.Common

/-!
# Texts cut at a separator

`before sep t` and `after sep t` are the two sides of the first `sep` in `t`;
without a separator everything is before it. The lemmas follow a text that
grows at its end, as a parser that reads one character at a time sees it.
`ascii` gives the bytes of an ASCII string.
-/

namespace RobotPws.Lib

/-- The bytes of a string of ASCII characters. -/
def ascii (s : String) : List UInt8 := s.toList.map fun c => c.toNat.toUInt8

variable {α : Type*} [DecidableEq α] {sep x : α} {t u : List α}

/-- The text before the first separator. -/
def before (sep : α) : List α → List α
  | [] => []
  | x :: t => if x = sep then [] else x :: before sep t

/-- The text after the first separator. -/
def after (sep : α) : List α → List α
  | [] => []
  | x :: t => if x = sep then t else after sep t

theorem before_of_not_mem (h : sep ∉ t) : before sep t = t := by
  induction t with
  | nil => rfl
  | cons y t ih =>
    simp only [List.mem_cons, not_or] at h
    rw [before, if_neg (Ne.symm h.1), ih h.2]

theorem after_of_not_mem (h : sep ∉ t) : after sep t = [] := by
  induction t with
  | nil => rfl
  | cons y t ih =>
    simp only [List.mem_cons, not_or] at h
    rw [after, if_neg (Ne.symm h.1), ih h.2]

theorem before_append (h : sep ∈ t) (u : List α) : before sep (t ++ u) = before sep t := by
  induction t with
  | nil => cases h
  | cons y t ih =>
    by_cases hy : y = sep
    · simp [before, hy]
    · have ht : sep ∈ t := (List.mem_cons.1 h).resolve_left (Ne.symm hy)
      simp [before, hy, ih ht]

theorem after_append (h : sep ∈ t) (u : List α) : after sep (t ++ u) = after sep t ++ u := by
  induction t with
  | nil => cases h
  | cons y t ih =>
    by_cases hy : y = sep
    · simp [after, hy]
    · have ht : sep ∈ t := (List.mem_cons.1 h).resolve_left (Ne.symm hy)
      simp [after, hy, ih ht]

theorem before_append_of_not_mem (h : sep ∉ t) (u : List α) :
    before sep (t ++ u) = t ++ before sep u := by
  induction t with
  | nil => rfl
  | cons y t ih =>
    simp only [List.mem_cons, not_or] at h
    rw [List.cons_append, before, if_neg (Ne.symm h.1), ih h.2, List.cons_append]

theorem after_append_of_not_mem (h : sep ∉ t) (u : List α) :
    after sep (t ++ u) = after sep u := by
  induction t with
  | nil => rfl
  | cons y t ih =>
    simp only [List.mem_cons, not_or] at h
    rw [List.cons_append, after, if_neg (Ne.symm h.1), ih h.2]

theorem before_append_after (h : sep ∈ t) : before sep t ++ sep :: after sep t = t := by
  induction t with
  | nil => cases h
  | cons y t ih =>
    by_cases hy : y = sep
    · simp [before, after, hy]
    · have ht : sep ∈ t := (List.mem_cons.1 h).resolve_left (Ne.symm hy)
      simp [before, after, hy, ih ht]

/-- A text whose only separator is at its end does not overlap itself. -/
theorem overlap_of_prefix {v w : List α} (ht : before sep t ++ [sep] = t)
    (h : t <+: v ++ (t ++ w)) : v = [] ∨ t <+: v := by
  have hmem : sep ∈ t := by
    rw [← ht]
    exact List.mem_append_right _ (List.mem_singleton_self _)
  have hbefore : before sep t = before sep (v ++ (t ++ w)) := by
    obtain ⟨u, hu⟩ := h
    rw [← hu, before_append hmem]
  by_cases hv : sep ∈ v
  · right
    rw [before_append hv] at hbefore
    refine ⟨after sep v, ?_⟩
    calc t ++ after sep v = before sep v ++ [sep] ++ after sep v := by rw [← hbefore, ht]
      _ = before sep v ++ sep :: after sep v := List.append_assoc ..
      _ = v := before_append_after hv
  · left
    rw [before_append_of_not_mem hv, before_append hmem] at hbefore
    have hlen := congrArg List.length hbefore
    rw [List.length_append] at hlen
    exact List.eq_nil_of_length_eq_zero (by omega)

theorem before_length_mono (t u : List α) :
    (before sep t).length ≤ (before sep (t ++ u)).length := by
  by_cases h : sep ∈ t
  · exact Nat.le_of_eq (by rw [before_append h])
  · rw [before_of_not_mem h, before_append_of_not_mem h, List.length_append]; omega

theorem after_length_mono (t u : List α) :
    (after sep t).length ≤ (after sep (t ++ u)).length := by
  by_cases h : sep ∈ t
  · rw [after_append h, List.length_append]; omega
  · rw [after_of_not_mem h]; exact Nat.zero_le _

theorem mem_of_mem_before (h : x ∈ before sep t) : x ∈ t := by
  induction t with
  | nil => exact h
  | cons y t ih =>
    by_cases hy : y = sep
    · simp [before, hy] at h
    · simp only [before, hy, ↓reduceIte, List.mem_cons] at h ⊢
      exact h.imp_right ih

theorem mem_of_mem_after (h : x ∈ after sep t) : x ∈ t := by
  induction t with
  | nil => exact h
  | cons y t ih =>
    by_cases hy : y = sep
    · simp only [after, hy, ↓reduceIte] at h; exact List.mem_cons_of_mem _ h
    · simp only [after, hy, ↓reduceIte] at h; exact List.mem_cons_of_mem _ (ih h)

end RobotPws.Lib
