import Mathlib.Data.List.Nodup
import Mathlib.Logic.Function.Basic
import Mathlib.Tactic.Common

/-!
# Singly linked lists in memory

A list kept in the cells it consists of: each cell holds the pointer to the one after it.
`Linked next head l` says that the pointers lead from `head` through the cells of `l`. A
store into a cell outside the list leaves it as it is (`Linked.update`), and a cell can be
put in front (`Linked.push`) and taken off there (`Linked.pop`).
-/

namespace RobotPws.Lib

variable {α : Type*} {next next' : α → Option α} {head : Option α} {l l' : List α} {a : α}

/-- The pointers lead from `head` through `l` and end there. -/
def Linked (next : α → Option α) : Option α → List α → Prop
  | head, [] => head = none
  | head, a :: l => head = some a ∧ Linked next (next a) l

namespace Linked

theorem congr (h : Linked next head l) (hn : ∀ a ∈ l, next' a = next a) : Linked next' head l := by
  induction l generalizing head with
  | nil => exact h
  | cons a l ih =>
    refine ⟨h.1, ?_⟩
    rw [hn a List.mem_cons_self]
    exact ih h.2 fun b hb => hn b (List.mem_cons_of_mem _ hb)

theorem update [DecidableEq α] (h : Linked next head l) (ha : a ∉ l) (v : Option α) :
    Linked (Function.update next a v) head l := by
  refine h.congr fun b hb => Function.update_of_ne ?_ _ _
  rintro rfl
  exact ha hb

theorem push [DecidableEq α] (h : Linked next head l) (ha : a ∉ l) :
    Linked (Function.update next a head) (some a) (a :: l) := by
  refine ⟨rfl, ?_⟩
  rw [Function.update_self]
  exact h.update ha head

theorem pop (h : Linked next (some a) l) : ∃ l', l = a :: l' ∧ Linked next (next a) l' := by
  cases l with
  | nil => cases h
  | cons b l' =>
    obtain ⟨rfl⟩ := h.1
    exact ⟨l', rfl, h.2⟩

theorem head_eq (h : Linked next head l) : head = l.head? := by
  cases l with
  | nil => exact h
  | cons a l => exact h.1

end Linked

end RobotPws.Lib
