import RobotPws.Lib.CArray

/-!
# Strings in a buffer

A buffer of `n` bytes together with the indices written so far, in bounds or not (`Buffer`):
the string functions of C as series of stores. `Holds s b` says that the buffer holds the C
string `s` with its terminator inside; `strcat` and the store of a terminator keep it, as long
as there is room.
-/

namespace RobotPws.Lib

structure Buffer (n : Nat) where
  array : CArray UInt8 n
  written : List Nat

namespace Buffer

variable {n : Nat}

/-- `b[i] = c` -/
def store (b : Buffer n) (i : Nat) (c : UInt8) : Buffer n := ⟨b.array.store i c, b.written ++ [i]⟩

/-- These bytes from index `i` on. -/
def storeAll (b : Buffer n) (i : Nat) : List UInt8 → Buffer n
  | [] => b
  | c :: cs => (b.store i c).storeAll (i + 1) cs

/-- The C string in the buffer. -/
def text (b : Buffer n) : List UInt8 := b.array.cstr (· == 0)

def strlen (b : Buffer n) : Nat := b.text.length

/-- `strcat(b, s)` -/
def strcat (b : Buffer n) (s : List UInt8) : Buffer n := b.storeAll b.strlen (s ++ [0])

/-- The writes stay in the buffer. -/
def InBounds (b : Buffer n) : Prop := ∀ i ∈ b.written, i < n

/-- The buffer holds the string `s`. -/
structure Holds (s : List UInt8) (b : Buffer n) : Prop where
  chars : 0 ∉ s
  cells : b.array.cells.take (s.length + 1) = s ++ [0]

theorem storeAll_written (b : Buffer n) (i : Nat) (cs : List UInt8) :
    (b.storeAll i cs).written = b.written ++ List.range' i cs.length := by
  induction cs generalizing b i with
  | nil => exact (List.append_nil _).symm
  | cons c cs ih =>
    rw [storeAll, ih, store, List.append_assoc, List.length_cons, List.range'_succ]
    rfl

theorem storeAll_take (b : Buffer n) {i : Nat} (cs : List UInt8) (h : i + cs.length ≤ n) :
    (b.storeAll i cs).array.cells.take (i + cs.length) = b.array.cells.take i ++ cs := by
  induction cs generalizing b i with
  | nil => rw [storeAll, List.append_nil, List.length_nil, Nat.add_zero]
  | cons c cs ih =>
    rw [List.length_cons] at h
    have hi : i + (cs.length + 1) = i + 1 + cs.length := by omega
    rw [storeAll, List.length_cons, hi, ih (b.store i c) (by omega), store,
      CArray.take_store_succ b.array (by omega), List.append_assoc]
    rfl

section
variable {s u : List UInt8} {b : Buffer n}

theorem Holds.lt (h : Holds s b) : s.length < n := by
  have hlen := congrArg List.length h.cells
  rw [List.length_take, b.array.size, List.length_append, List.length_singleton] at hlen
  omega

theorem Holds.text (h : Holds s b) : b.text = s := by
  have hsplit : b.array.cells = s ++ 0 :: b.array.cells.drop (s.length + 1) := by
    have he := List.take_append_drop (s.length + 1) b.array.cells
    rw [h.cells, List.append_assoc] at he
    exact he.symm
  have hall : ∀ c ∈ s, (!(c == 0)) = true := by
    intro c hc
    rw [Bool.not_eq_true', beq_eq_false_iff_ne]
    rintro rfl
    exact h.chars hc
  rw [Buffer.text, CArray.cstr, hsplit, List.takeWhile_append_of_pos hall, List.takeWhile_cons]
  exact List.append_nil s

theorem Holds.strlen (h : Holds s b) : b.strlen = s.length := by rw [Buffer.strlen, h.text]

/-- `b[0] = '\0'` -/
theorem holds_clear (b : Buffer n) (hn : 0 < n) : Holds [] (b.store 0 0) :=
  ⟨List.not_mem_nil, CArray.take_store_succ b.array hn 0⟩

theorem Holds.strcat (h : Holds s b) (hu : 0 ∉ u) (hroom : s.length + u.length < n) :
    Holds (s ++ u) (b.strcat u) := by
  refine ⟨fun hm => (List.mem_append.1 hm).elim h.chars hu, ?_⟩
  have htake : b.array.cells.take s.length = s := by
    have he := congrArg (List.take s.length) h.cells
    rw [List.take_take, Nat.min_eq_left (Nat.le_succ _), List.take_left] at he
    exact he
  have hcells := b.storeAll_take (i := s.length) (u ++ [0])
    (by rw [List.length_append, List.length_singleton]; omega)
  rw [List.length_append, List.length_singleton, htake] at hcells
  rw [Buffer.strcat, h.strlen, List.length_append, List.append_assoc, Nat.add_assoc]
  exact hcells

theorem Holds.truncate (h : Holds s b) {i : Nat} (hi : i ≤ s.length) :
    Holds (s.take i) (b.store i 0) := by
  have hlt := h.lt
  have hmin : (s.take i).length = i := by rw [List.length_take, Nat.min_eq_left hi]
  refine ⟨fun hm => h.chars (List.mem_of_mem_take hm), ?_⟩
  have htake : b.array.cells.take i = s.take i := by
    have he := congrArg (List.take i) h.cells
    rw [List.take_take, Nat.min_eq_left (by omega), List.take_append_of_le_length hi] at he
    exact he
  rw [hmin, Buffer.store, CArray.take_store_succ b.array (by omega), htake]

theorem InBounds.store {i : Nat} {c : UInt8} (h : InBounds b) (hi : i < n) :
    InBounds (b.store i c) := by
  intro j hj
  obtain hj | hj := List.mem_append.1 hj
  · exact h j hj
  · rw [List.mem_singleton.1 hj]
    exact hi

theorem InBounds.strcat (h : InBounds b) (hs : Holds s b) (hroom : s.length + u.length < n) :
    InBounds (b.strcat u) := by
  intro j hj
  rw [Buffer.strcat, storeAll_written, hs.strlen, List.mem_append] at hj
  obtain hj | hj := hj
  · exact h j hj
  · rw [List.mem_range'_1, List.length_append, List.length_singleton] at hj
    omega

end

end Buffer

end RobotPws.Lib
