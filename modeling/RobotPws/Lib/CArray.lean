import Mathlib.Data.List.Basic
import Mathlib.Data.List.TakeWhile
import Mathlib.Data.Nat.ModEq
import Mathlib.Algebra.Order.Ring.Nat
import Mathlib.Tactic.Common

/-!
# C arrays, C strings and circular windows

- `CArray α n`: an array of `n` cells, whatever they hold; `store` writes one
  cell and `take_store_*` say what a write does to the prefix written so far.
- `cstr nul`: the C string an array holds, the cells before the first one
  `nul` accepts.
- `Window cells rd Q`: reading `cells` circularly from index `rd` yields `Q`.
  `Window.push` and `Window.pop` are the two ends of a queue kept in a
  circular buffer.
-/

namespace RobotPws.Lib

variable {α β : Type*} {n : Nat}

/-- An array of `n` cells. -/
structure CArray (α : Type*) (n : Nat) where
  cells : List α
  size : cells.length = n

namespace CArray

/-- Every cell holds `x`. -/
def fill (n : Nat) (x : α) : CArray α n := ⟨List.replicate n x, by simp⟩

/-- Write cell `i`; a write outside the array changes nothing here, so its
uses carry a bound of their own. -/
def store (b : CArray α n) (i : Nat) (x : α) : CArray α n := ⟨b.cells.set i x, by simp [b.size]⟩

def map (f : α → β) (b : CArray α n) : CArray β n := ⟨b.cells.map f, by simp [b.size]⟩

theorem map_store (f : α → β) (b : CArray α n) (i : Nat) (x : α) :
    (b.store i x).map f = (b.map f).store i (f x) := by
  simp [map, store, List.map_set]

theorem take_store_succ (b : CArray α n) {i : Nat} (hi : i < n) (x : α) :
    (b.store i x).cells.take (i + 1) = b.cells.take i ++ [x] := by
  have hlt : i < b.cells.length := by rw [b.size]; exact hi
  rw [store, List.take_add_one, List.take_set_of_le (Nat.le_refl i)]
  simp [hlt]

theorem take_store_le (b : CArray α n) {i k : Nat} (hk : k ≤ i) (x : α) :
    (b.store i x).cells.take k = b.cells.take k :=
  List.take_set_of_le hk

theorem mem_take_store_succ {b : CArray α n} {i : Nat} {x y : α}
    (h : y ∈ (b.store i x).cells.take (i + 1)) : y ∈ b.cells.take i ∨ y = x := by
  by_cases hi : i < n
  · rw [take_store_succ b hi, List.mem_append, List.mem_singleton] at h
    exact h
  · have hlen : b.cells.length ≤ i := by rw [b.size]; omega
    simp only [store, List.set_eq_of_length_le hlen] at h
    rw [List.take_of_length_le hlen]
    exact .inl (List.mem_of_mem_take h)

theorem take_length (b : CArray α n) {i : Nat} (hi : i ≤ n) : (b.cells.take i).length = i := by
  simp [b.size, hi]

/-! ## C strings -/

/-- The cells before the first terminator. -/
def cstr (nul : α → Bool) (b : CArray α n) : List α := b.cells.takeWhile fun x => !nul x

theorem cstr_store (nul : α → Bool) (b : CArray α n) {i : Nat} (hi : i < n) {x : α}
    (hx : nul x = true) :
    (b.store i x).cstr nul = (b.cells.take i).takeWhile fun y => !nul y := by
  have hlen : (b.cells.take i).length = i := take_length b (Nat.le_of_lt hi)
  have hsplit : (b.store i x).cells = b.cells.take i ++ x :: b.cells.drop (i + 1) := by
    simp only [store, List.set_eq_take_append_cons_drop, b.size, hi, ↓reduceIte]
  rw [cstr, hsplit, List.takeWhile_append]
  split
  · next h =>
    rw [List.takeWhile_cons, hx]
    simp only [Bool.not_true, Bool.false_eq_true, ↓reduceIte, List.append_nil]
    exact (List.IsPrefix.eq_of_length (List.takeWhile_prefix _) h).symm
  · rfl

/-- A terminator at `i` confines the string to the prefix written so far. -/
theorem mem_take_of_mem_cstr_store {nul : α → Bool} {b : CArray α n} {i : Nat} (hi : i < n)
    {x y : α} (hx : nul x = true) (h : y ∈ (b.store i x).cstr nul) : y ∈ b.cells.take i := by
  rw [cstr_store nul b hi hx] at h
  exact List.takeWhile_subset _ h

/-- With no terminator before `i` the string is the prefix written so far. -/
theorem cstr_store_of_forall (nul : α → Bool) (b : CArray α n) {i : Nat} (hi : i < n) {x : α}
    (hx : nul x = true) (h : ∀ y ∈ b.cells.take i, nul y = false) :
    (b.store i x).cstr nul = b.cells.take i := by
  rw [cstr_store nul b hi hx, List.takeWhile_eq_self_iff]
  intro y hy
  rw [h y hy, Bool.not_false]

end CArray

/-! ## Circular windows -/

/-- Reading `cells` circularly from `rd` yields `Q`. -/
def Window (cells : List α) (rd : Nat) (Q : List α) : Prop :=
  ∀ d, d < Q.length → cells[(rd + d) % cells.length]? = Q[d]?

namespace Window

variable {cells Q : List α} {rd : Nat} {x : α}

theorem nil : Window cells rd [] := fun _ h => absurd h (Nat.not_lt_zero _)

theorem head (h : Window cells rd (x :: Q)) : cells[rd % cells.length]? = some x := by
  simpa using h 0 (by simp)

theorem pop (h : Window cells rd (x :: Q)) : Window cells ((rd + 1) % cells.length) Q := by
  intro d hd
  have := h (d + 1) (by simp; omega)
  rw [List.getElem?_cons_succ] at this
  rw [Nat.mod_add_mod, Nat.add_assoc, Nat.add_comm 1 d]
  exact this

theorem add_mod_ne {m rd a b : Nat} (ha : a < m) (hb : b < m) (hne : a ≠ b) :
    (rd + a) % m ≠ (rd + b) % m := by
  intro h
  have hab : a % m = b % m := Nat.ModEq.add_left_cancel' rd h
  rw [Nat.mod_eq_of_lt ha, Nat.mod_eq_of_lt hb] at hab
  exact hne hab

/-- Writing behind the last cell appends, as long as there is room. -/
theorem push (h : Window cells rd Q) (hroom : Q.length < cells.length) :
    Window (cells.set ((rd + Q.length) % cells.length) x) rd (Q ++ [x]) := by
  intro d hd
  rw [List.length_set]
  rw [List.length_append, List.length_singleton] at hd
  by_cases hdq : d = Q.length
  · subst hdq
    rw [List.getElem?_set_self (Nat.mod_lt _ (by omega))]
    simp
  · have hlt : d < Q.length := by omega
    rw [List.getElem?_set_ne (add_mod_ne hroom (by omega) (Ne.symm hdq)), h d hlt,
      List.getElem?_append_left hlt]

end Window

end RobotPws.Lib
