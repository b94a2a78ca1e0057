import Mathlib.Data.List.Basic
import Mathlib.Algebra.Order.Ring.Nat
import Mathlib.Tactic.Common

/-!
# Delta lists

A set of alarms kept as a list in which each entry holds the time after the
entry before it. `timeLeft l` is what the list stands for, a table of the time
left to each alarm: `insert` sets it for one alarm and `remove` drops one, both
without a change for the others (`timeLeft_insert_*`, `timeLeft_remove`), `tick`
lets one unit of time pass for all of them (`timeLeft_tick`), and an entry at the
front with no time left can be taken off (`timeLeft_pop`). `total` is the time
left to the last alarm.
-/

namespace RobotPws.Lib

namespace DeltaList

variable {α : Type*} {x y z : α} {t d : Nat} {l : List (α × Nat)}

/-- Insert an alarm before the first one that is not earlier. -/
def insert (x : α) (t : Nat) : List (α × Nat) → List (α × Nat)
  | [] => [(x, t)]
  | (y, d) :: l => if d < t then (y, d) :: insert x (t - d) l else (x, t) :: (y, d - t) :: l

/-- Add to the time of the first entry. -/
def addHead (t : Nat) : List (α × Nat) → List (α × Nat)
  | [] => []
  | (y, d) :: l => (y, d + t) :: l

/-- One unit of time passes. -/
def tick : List (α × Nat) → List (α × Nat)
  | [] => []
  | (y, d) :: l => (y, d - 1) :: l

def keys (l : List (α × Nat)) : List α := l.map Prod.fst

def total (l : List (α × Nat)) : Nat := (l.map Prod.snd).sum

@[simp] theorem keys_cons (y : α) (d : Nat) (l : List (α × Nat)) :
    keys ((y, d) :: l) = y :: keys l := rfl

@[simp] theorem total_cons (y : α) (d : Nat) (l : List (α × Nat)) :
    total ((y, d) :: l) = d + total l := by
  simp [total]

theorem keys_insert (x : α) (t : Nat) (l : List (α × Nat)) :
    (keys (insert x t l)).Perm (x :: keys l) := by
  induction l generalizing t with
  | nil => exact .refl _
  | cons p l ih =>
    obtain ⟨y, d⟩ := p
    rw [insert]
    split
    · exact ((ih (t - d)).cons y).trans (.swap x y _)
    · exact .refl _

theorem total_insert (x : α) (t : Nat) (l : List (α × Nat)) :
    total (insert x t l) = max t (total l) := by
  induction l generalizing t with
  | nil => simp [insert, total]
  | cons p l ih =>
    obtain ⟨y, d⟩ := p
    rw [insert]
    split
    · rw [total_cons, ih, total_cons]
      omega
    · rw [total_cons, total_cons, total_cons]
      omega

theorem total_addHead_le (d : Nat) (l : List (α × Nat)) : total (addHead d l) ≤ d + total l := by
  cases l with
  | nil => exact Nat.zero_le _
  | cons p l =>
    obtain ⟨y, e⟩ := p
    rw [addHead, total_cons, total_cons]
    omega

theorem total_tick_le (l : List (α × Nat)) : total (tick l) ≤ total l := by
  cases l with
  | nil => exact Nat.le_refl _
  | cons p l =>
    obtain ⟨y, d⟩ := p
    rw [tick, total_cons, total_cons]
    omega

/-- The first alarm is not due. -/
def Early (l : List (α × Nat)) : Prop := ∀ p ∈ l.head?, 0 < p.2

theorem Early.insert (h : Early l) (ht : 0 < t) : Early (insert x t l) := by
  cases l with
  | nil => simpa [DeltaList.insert, Early] using ht
  | cons p l =>
    obtain ⟨y, d⟩ := p
    rw [DeltaList.insert]
    split
    · simpa [Early] using h
    · simpa [Early] using ht

section
variable [DecidableEq α]

/-- Remove an alarm; its time goes to the one after it. -/
def remove (x : α) : List (α × Nat) → List (α × Nat)
  | [] => []
  | (y, d) :: l => if y = x then addHead d l else (y, d) :: remove x l

/-- The time left to an alarm. -/
def timeLeft : List (α × Nat) → α → Option Nat
  | [], _ => none
  | (y, d) :: l, x => if y = x then some d else (timeLeft l x).map (d + ·)

theorem total_remove_le (x : α) (l : List (α × Nat)) : total (remove x l) ≤ total l := by
  induction l with
  | nil => exact Nat.le_refl _
  | cons p l ih =>
    obtain ⟨y, d⟩ := p
    rw [remove, total_cons]
    split
    · exact total_addHead_le d l
    · rw [total_cons]
      omega

theorem Early.remove (h : Early l) : Early (remove x l) := by
  cases l with
  | nil => exact h
  | cons p l =>
    obtain ⟨y, d⟩ := p
    have hd : 0 < d := h (y, d) rfl
    rw [DeltaList.remove]
    split
    · cases l with
      | nil => simp [Early, addHead]
      | cons q l => simpa [Early, addHead] using Nat.lt_of_lt_of_le hd (Nat.le_add_left d q.2)
    · simpa [Early] using hd

/-! ## The table -/

theorem timeLeft_eq_none : timeLeft l x = none ↔ x ∉ keys l := by
  induction l with
  | nil => simp [timeLeft, keys]
  | cons p l ih =>
    obtain ⟨y, d⟩ := p
    by_cases h : y = x
    · simp [timeLeft, h]
    · simp [timeLeft, h, ih, Ne.symm h]

theorem timeLeft_insert_self (h : x ∉ keys l) (t : Nat) : timeLeft (insert x t l) x = some t := by
  induction l generalizing t with
  | nil => simp [insert, timeLeft]
  | cons p l ih =>
    obtain ⟨y, d⟩ := p
    rw [keys_cons, List.mem_cons, not_or] at h
    rw [insert]
    split
    · next hd =>
      rw [timeLeft, if_neg (Ne.symm h.1), ih h.2, Option.map_some]
      congr 1
      omega
    · simp [timeLeft]

theorem timeLeft_insert_of_ne (h : z ≠ x) (t : Nat) :
    timeLeft (insert x t l) z = timeLeft l z := by
  induction l generalizing t with
  | nil => simp [insert, timeLeft, Ne.symm h]
  | cons p l ih =>
    obtain ⟨y, d⟩ := p
    rw [insert]
    split
    · rw [timeLeft, timeLeft, ih]
    · rw [timeLeft, if_neg (Ne.symm h), timeLeft, timeLeft]
      by_cases hy : y = z
      · simp [hy]
        omega
      · cases timeLeft l z with
        | none => simp [hy]
        | some n => simp [hy]; omega

theorem timeLeft_addHead (d : Nat) (l : List (α × Nat)) (z : α) :
    timeLeft (addHead d l) z = (timeLeft l z).map (d + ·) := by
  cases l with
  | nil => rfl
  | cons p l =>
    obtain ⟨y, e⟩ := p
    by_cases hy : y = z
    · simp [addHead, timeLeft, hy, Nat.add_comm]
    · cases h : timeLeft l z with
      | none => simp [addHead, timeLeft, hy, h]
      | some n => simp [addHead, timeLeft, hy, h]; omega

theorem timeLeft_remove (h : z ≠ x) : timeLeft (remove x l) z = timeLeft l z := by
  induction l with
  | nil => rfl
  | cons p l ih =>
    obtain ⟨y, d⟩ := p
    rw [remove]
    by_cases hy : y = x
    · rw [if_pos hy, timeLeft_addHead, timeLeft, if_neg (by rw [hy]; exact Ne.symm h)]
    · rw [if_neg hy, timeLeft, timeLeft, ih]

/-- While the first alarm is not due, time passes for all of them. -/
theorem timeLeft_tick (h : Early l) (z : α) : timeLeft (tick l) z = (timeLeft l z).map (· - 1) := by
  cases l with
  | nil => rfl
  | cons p l =>
    obtain ⟨y, d⟩ := p
    have hd : 0 < d := h (y, d) rfl
    by_cases hy : y = z
    · simp [tick, timeLeft, hy]
    · cases hz : timeLeft l z with
      | none => simp [tick, timeLeft, hy, hz]
      | some n => simp [tick, timeLeft, hy, hz]; omega

theorem timeLeft_pop (h : y ≠ z) : timeLeft ((y, 0) :: l) z = timeLeft l z := by
  cases hz : timeLeft l z <;> simp [timeLeft, h, hz]

theorem Early.timeLeft_pos (h : Early l) (hz : timeLeft l z = some t) : 0 < t := by
  cases l with
  | nil => cases hz
  | cons p l =>
    obtain ⟨y, d⟩ := p
    have hd : 0 < d := h (y, d) rfl
    rw [timeLeft] at hz
    split at hz
    · rw [← Option.some.inj hz]
      exact hd
    · obtain ⟨n, -, hn⟩ := Option.map_eq_some_iff.1 hz
      omega

end

end DeltaList

end RobotPws.Lib
