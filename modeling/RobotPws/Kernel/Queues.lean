import RobotPws.Lib.CArray

/-!
# I/O queues

`GenericQueue` with its counter, its two pointers (offsets from `q_buffer`)
and its buffer. `q_counter` counts the used cells of an input queue and the
free cells of an output queue. The non-blocking halves of the queue calls are
modelled, the parts that run inside one lock zone; a caller that would be
suspended is handled where the calling thread is.

`chIQResetI` and `chOQResetI` store to the three fields one after the other.
They are `iclass` functions, to be called with the kernel locked; a caller
that holds no lock can be interrupted between the stores, so each store is an
operation of its own (`QReset`).

`IQHolds q Q` connects an input queue to the list `Q` of the bytes it holds,
`OQHolds q Q` does so for an output queue. `written` reads off an output queue what has
been put into it between two of its states.
-/

namespace RobotPws.Kernel

open RobotPws.Lib

structure GenericQueue (α : Type) (size : Nat) where
  qCounter : Nat
  qBuffer : CArray α size
  qWrptr : Nat
  qRdptr : Nat

/-- `*ptr++`, back to `q_buffer` at `q_top`. -/
def qNext (size ptr : Nat) : Nat := if size ≤ ptr + 1 then 0 else ptr + 1

theorem qNext_lt {size ptr : Nat} (h : ptr < size) : qNext size ptr < size := by
  unfold qNext; split <;> omega

theorem qNext_eq_mod {size ptr : Nat} (h : ptr < size) : qNext size ptr = (ptr + 1) % size := by
  unfold qNext
  split
  · rw [show ptr + 1 = size by omega, Nat.mod_self]
  · rw [Nat.mod_eq_of_lt (by omega)]

/-- The stores of `chIQResetI` and `chOQResetI`, in their order. -/
inductive QReset where
  | wrptr
  | rdptr
  | counter
  deriving DecidableEq, Repr

namespace GenericQueue

variable {α : Type} {size : Nat}

/-! ## Input queues -/

def chIQInit (x : α) : GenericQueue α size := ⟨0, .fill size x, 0, 0⟩

def chIQIsEmptyI (q : GenericQueue α size) : Bool := q.qCounter == 0

def chIQIsFullI (q : GenericQueue α size) : Bool := q.qWrptr == q.qRdptr && q.qCounter != 0

/-- The queue after the write, or `none` for `Q_FULL`. -/
def chIQPutI (q : GenericQueue α size) (b : α) : Option (GenericQueue α size) :=
  if q.chIQIsFullI then none
  else some { q with
    qCounter := q.qCounter + 1
    qBuffer := q.qBuffer.store q.qWrptr b
    qWrptr := qNext size q.qWrptr }

/-- `chIQGetTimeout` with `TIME_IMMEDIATE`: `none` is `Q_TIMEOUT`. -/
def chIQGetTimeout (q : GenericQueue α size) : Option α × GenericQueue α size :=
  if q.chIQIsEmptyI then (none, q)
  else (q.qBuffer.cells[q.qRdptr]?,
    { q with qCounter := q.qCounter - 1, qRdptr := qNext size q.qRdptr })

/-- One store of `chIQResetI`. -/
def chIQResetI (q : GenericQueue α size) : QReset → GenericQueue α size
  | .wrptr => { q with qWrptr := 0 }
  | .rdptr => { q with qRdptr := 0 }
  | .counter => { q with qCounter := 0 }

/-! ## Output queues -/

def chOQInit (x : α) : GenericQueue α size := ⟨size, .fill size x, 0, 0⟩

def chOQIsEmptyI (q : GenericQueue α size) : Bool := q.qWrptr == q.qRdptr && q.qCounter != 0

def chOQIsFullI (q : GenericQueue α size) : Bool := q.qCounter == 0

/-- One turn of the loop of `chOQWriteTimeout`; `none` where the thread is
suspended because the queue is full. -/
def chOQPut (q : GenericQueue α size) (b : α) : Option (GenericQueue α size) :=
  if q.chOQIsFullI then none
  else some { q with
    qCounter := q.qCounter - 1
    qBuffer := q.qBuffer.store q.qWrptr b
    qWrptr := qNext size q.qWrptr }

/-- The byte read, or `none` for `Q_EMPTY`. -/
def chOQGetI (q : GenericQueue α size) : Option α × GenericQueue α size :=
  if q.chOQIsEmptyI then (none, q)
  else (q.qBuffer.cells[q.qRdptr]?,
    { q with qCounter := q.qCounter + 1, qRdptr := qNext size q.qRdptr })

/-- One store of `chOQResetI`. -/
def chOQResetI (q : GenericQueue α size) : QReset → GenericQueue α size
  | .wrptr => { q with qWrptr := 0 }
  | .rdptr => { q with qRdptr := 0 }
  | .counter => { q with qCounter := size }

/-- What has been put into an output queue between `q` and `q'`: the write pointer has moved
on over cells that are not free any more. -/
def written (q q' : GenericQueue α size) : List α :=
  if q'.qWrptr = q.qWrptr then []
  else (List.range (q.qCounter - q'.qCounter)).filterMap fun n =>
    q'.qBuffer.cells[(q.qWrptr + n) % size]?

theorem written_of_wrptr {q q' : GenericQueue α size} (h : q'.qWrptr = q.qWrptr) :
    q.written q' = [] := if_pos h

theorem written_of_counter {q q' : GenericQueue α size} (h : q'.qCounter = q.qCounter) :
    q.written q' = [] := by
  unfold written
  split
  · rfl
  · rw [h, Nat.sub_self, List.range_zero, List.filterMap_nil]

theorem qNext_ne {ptr : Nat} (hs : 1 < size) : qNext size ptr ≠ ptr := by
  unfold qNext
  split <;> omega

theorem chOQPut_written {q q' : GenericQueue α size} {b : α} (hs : 1 < size) (hw : q.qWrptr < size)
    (h : q.chOQPut b = some q') : q.written q' = [b] := by
  unfold chOQPut at h
  split at h
  · cases h
  · next hfull =>
    have hne : q.qCounter ≠ 0 := by simpa [chOQIsFullI] using hfull
    cases h
    have hone : q.qCounter - (q.qCounter - 1) = 1 := by omega
    have hlt : q.qWrptr < q.qBuffer.cells.length := by rw [q.qBuffer.size]; exact hw
    rw [written, if_neg (qNext_ne hs)]
    simp [hone, CArray.store, Nat.mod_eq_of_lt hw, hlt]

theorem chOQPut_wrptr {q q' : GenericQueue α size} {b : α} (hw : q.qWrptr < size)
    (h : q.chOQPut b = some q') : q'.qWrptr < size := by
  unfold chOQPut at h
  split at h
  · cases h
  · cases h
    exact qNext_lt hw

theorem chOQResetI_written (q : GenericQueue α size) (k : QReset) :
    q.written (q.chOQResetI k) = [] := by
  cases k with
  | wrptr => exact written_of_counter rfl
  | rdptr | counter => exact written_of_wrptr rfl

/-! ## The counter of an input queue -/

theorem chIQGetTimeout_empty {q : GenericQueue α size} (h : q.qCounter = 0) :
    q.chIQGetTimeout = (none, q) := by
  simp [chIQGetTimeout, chIQIsEmptyI, h]

theorem chIQGetTimeout_counter (q : GenericQueue α size) :
    q.chIQGetTimeout.2.qCounter = q.qCounter - 1 := by
  unfold chIQGetTimeout
  split
  · next h =>
    simp only [chIQIsEmptyI, beq_iff_eq] at h
    simp only [h, Nat.zero_sub]
  · rfl

/-- Nothing to read means that nothing is counted. -/
theorem chIQGetTimeout_none {q : GenericQueue α size} (hr : q.qRdptr < size)
    (h : q.chIQGetTimeout.1 = none) : q.qCounter = 0 := by
  unfold chIQGetTimeout at h
  split at h
  · next he => simpa [chIQIsEmptyI] using he
  · have hlt : q.qRdptr < q.qBuffer.cells.length := by rw [q.qBuffer.size]; exact hr
    simp [hlt] at h

theorem chIQGetTimeout_rdptr {q : GenericQueue α size} (hr : q.qRdptr < size) :
    q.chIQGetTimeout.2.qRdptr < size := by
  unfold chIQGetTimeout
  split
  · exact hr
  · exact qNext_lt hr

theorem chIQPutI_rdptr {q q' : GenericQueue α size} {b : α} (h : q.chIQPutI b = some q') :
    q'.qRdptr = q.qRdptr := by
  unfold chIQPutI at h
  split at h
  · cases h
  · cases h; rfl

theorem chIQPutI_counter {q q' : GenericQueue α size} {b : α} (h : q.chIQPutI b = some q') :
    q'.qCounter = q.qCounter + 1 := by
  unfold chIQPutI at h
  split at h
  · cases h
  · cases h; rfl

theorem chIQPutI_none {q : GenericQueue α size} {b : α} (h : q.chIQPutI b = none) :
    q.qCounter ≠ 0 := by
  unfold chIQPutI chIQIsFullI at h
  split at h
  · next hf => simp only [Bool.and_eq_true, bne_iff_ne] at hf; exact hf.2
  · cases h

/-! ## What an input queue holds -/

/-- `q` holds the bytes `Q`, oldest first: the counter and the pointers agree
and reading circularly from `q_rdptr` yields `Q`. -/
structure IQHolds (q : GenericQueue α size) (Q : List α) : Prop where
  counter : q.qCounter = Q.length
  room : Q.length ≤ size
  rdptr : q.qRdptr < size
  wrptr : q.qWrptr = (q.qRdptr + Q.length) % size
  window : Window q.qBuffer.cells q.qRdptr Q

namespace IQHolds

variable {q q' : GenericQueue α size} {Q : List α} {b : α}

theorem init (hs : 0 < size) (x : α) : IQHolds (chIQInit x : GenericQueue α size) [] where
  counter := rfl
  room := Nat.zero_le _
  rdptr := hs
  wrptr := by simp [chIQInit]
  window := Window.nil

theorem full_iff (h : IQHolds q Q) : q.chIQIsFullI = true ↔ Q.length = size := by
  have hr := h.rdptr
  simp only [chIQIsFullI, Bool.and_eq_true, beq_iff_eq, bne_iff_ne, h.wrptr, h.counter]
  constructor
  · rintro ⟨hw, hne⟩
    by_contra hlt
    have hroom := h.room
    have h0 : (q.qRdptr + Q.length) % size ≠ (q.qRdptr + 0) % size :=
      Window.add_mod_ne (by omega) (by omega) hne
    rw [Nat.add_zero, Nat.mod_eq_of_lt hr] at h0
    exact h0 hw
  · intro he
    rw [he, Nat.add_mod_right, Nat.mod_eq_of_lt hr]
    exact ⟨rfl, by omega⟩

theorem put (h : IQHolds q Q) (hp : q.chIQPutI b = some q') : IQHolds q' (Q ++ [b]) := by
  have hfull : ¬ q.chIQIsFullI = true := by
    intro hf; simp [chIQPutI, hf] at hp
  have hlt : Q.length < size := by
    have := h.room
    have := mt h.full_iff.mpr hfull
    omega
  simp only [chIQPutI, hfull, Bool.false_eq_true, ↓reduceIte, Option.some.injEq] at hp
  subst hp
  have hw : q.qWrptr < size := by rw [h.wrptr]; exact Nat.mod_lt _ (by omega)
  refine ⟨by simp [h.counter], by simp; omega, h.rdptr, ?_, ?_⟩
  · rw [qNext_eq_mod hw, h.wrptr, Nat.mod_add_mod, List.length_append, List.length_singleton,
      Nat.add_assoc]
  · have hpush := h.window.push (x := b) (by rw [q.qBuffer.size]; exact hlt)
    rw [q.qBuffer.size, ← h.wrptr] at hpush
    exact hpush

theorem unique {Q' : List α} (h : IQHolds q Q) (h' : IQHolds q Q') : Q = Q' := by
  have hlen : Q.length = Q'.length := h.counter.symm.trans h'.counter
  refine List.ext_getElem? fun d => ?_
  by_cases hd : d < Q.length
  · rw [← h.window d hd, h'.window d (hlen ▸ hd)]
  · rw [List.getElem?_eq_none (by omega), List.getElem?_eq_none (by omega)]

theorem empty_iff (h : IQHolds q Q) : q.chIQIsEmptyI = true ↔ Q = [] := by
  rw [chIQIsEmptyI, beq_iff_eq, h.counter, List.length_eq_zero_iff]

theorem put_full (h : IQHolds q Q) (hp : q.chIQPutI b = none) : Q.length = size := by
  unfold chIQPutI at hp
  split at hp
  · next hf => exact h.full_iff.mp hf
  · cases hp

theorem get_nil (h : IQHolds q []) : q.chIQGetTimeout = (none, q) :=
  chIQGetTimeout_empty h.counter

theorem get_cons (h : IQHolds q (b :: Q)) :
    ∃ q', q.chIQGetTimeout = (some b, q') ∧ IQHolds q' Q := by
  have hne : ¬ q.chIQIsEmptyI = true := by simp [chIQIsEmptyI, h.counter]
  have hroom := h.room
  rw [List.length_cons] at hroom
  have hr := h.rdptr
  refine ⟨{ q with qCounter := q.qCounter - 1, qRdptr := qNext size q.qRdptr }, ?_, ?_⟩
  · have hh := h.window.head
    rw [q.qBuffer.size, Nat.mod_eq_of_lt hr] at hh
    simp only [chIQGetTimeout, hne, Bool.false_eq_true, ↓reduceIte, hh]
  · refine ⟨by simp [h.counter], by omega, qNext_lt hr, ?_, ?_⟩
    · simp only [qNext_eq_mod hr, h.wrptr, List.length_cons, Nat.mod_add_mod]
      congr 1; omega
    · have hp := h.window.pop
      rw [q.qBuffer.size, ← qNext_eq_mod hr] at hp
      exact hp

/-- The last store of a reset empties the queue, if the pointers have stayed as
the stores before it left them. -/
theorem reset {q : GenericQueue α size} (hs : 0 < size) (hw : q.qWrptr = 0) (hr : q.qRdptr = 0) :
    IQHolds (q.chIQResetI .counter) [] where
  counter := rfl
  room := Nat.zero_le _
  rdptr := by simpa [chIQResetI, hr] using hs
  wrptr := by simp [chIQResetI, hw, hr]
  window := Window.nil

end IQHolds

/-! ## What an output queue holds -/

/-- The queue with the counter of its other cells: an output queue seen as an input queue. -/
def flip (q : GenericQueue α size) : GenericQueue α size := { q with qCounter := size - q.qCounter }

/-- `q` holds the bytes `Q`, oldest first. -/
structure OQHolds (q : GenericQueue α size) (Q : List α) : Prop where
  free : q.qCounter ≤ size
  used : IQHolds q.flip Q

namespace OQHolds

variable {q q' : GenericQueue α size} {Q : List α} {b : α}

theorem init (hs : 0 < size) (x : α) : OQHolds (chOQInit x : GenericQueue α size) [] := by
  refine ⟨Nat.le_refl _, ?_⟩
  have hf : (chOQInit x : GenericQueue α size).flip = chIQInit x := by
    simp only [flip, chOQInit, chIQInit, Nat.sub_self]
  rw [hf]
  exact .init hs x

theorem counter (h : OQHolds q Q) : q.qCounter + Q.length = size := by
  have hc : size - q.qCounter = Q.length := h.used.counter
  have := h.free
  omega

theorem wrptr_lt (h : OQHolds q Q) : q.qWrptr < size := by
  have hr : q.qRdptr < size := h.used.rdptr
  have hw : q.qWrptr = (q.qRdptr + Q.length) % size := h.used.wrptr
  rw [hw]
  exact Nat.mod_lt _ (Nat.zero_lt_of_lt hr)

theorem empty_iff (h : OQHolds q Q) : q.chOQIsEmptyI = true ↔ Q = [] := by
  have hc := h.counter
  have hr : q.qRdptr < size := h.used.rdptr
  have hw : q.qWrptr = (q.qRdptr + Q.length) % size := h.used.wrptr
  simp only [chOQIsEmptyI, Bool.and_eq_true, beq_iff_eq, bne_iff_ne, hw]
  constructor
  · rintro ⟨he, hne⟩
    by_contra hQ
    have hpos : 0 < Q.length := List.length_pos_iff.2 hQ
    have h0 : (q.qRdptr + Q.length) % size ≠ (q.qRdptr + 0) % size :=
      Window.add_mod_ne (by omega) (by omega) (by omega)
    rw [Nat.add_zero, Nat.mod_eq_of_lt hr] at h0
    exact h0 he
  · rintro rfl
    rw [List.length_nil] at hc ⊢
    rw [Nat.add_zero, Nat.mod_eq_of_lt hr]
    exact ⟨rfl, by omega⟩

theorem unique {Q' : List α} (h : OQHolds q Q) (h' : OQHolds q Q') : Q = Q' := h.used.unique h'.used

theorem put (h : OQHolds q Q) (hp : q.chOQPut b = some q') : OQHolds q' (Q ++ [b]) := by
  have hc := h.counter
  unfold chOQPut at hp
  split at hp
  · cases hp
  · next hfull =>
    have hne : q.qCounter ≠ 0 := by simpa [chOQIsFullI] using hfull
    have hroom : ¬ q.flip.chIQIsFullI = true := by
      rw [h.used.full_iff]
      omega
    cases hp
    refine ⟨by have := h.free; dsimp only; omega, h.used.put (q := q.flip) (b := b) ?_⟩
    rw [chIQPutI, if_neg hroom]
    have hcount : size - q.qCounter + 1 = size - (q.qCounter - 1) := by omega
    simp only [flip, hcount]

theorem get_nil (h : OQHolds q []) : q.chOQGetI = (none, q) := by
  rw [chOQGetI, if_pos (h.empty_iff.2 rfl)]

theorem get_cons (h : OQHolds q (b :: Q)) :
    ∃ q', q.chOQGetI = (some b, q') ∧ OQHolds q' Q := by
  have hc := h.counter
  rw [List.length_cons] at hc
  obtain ⟨p, hp, hQ⟩ := h.used.get_cons
  have hne : ¬ q.chOQIsEmptyI = true := by
    rw [h.empty_iff]
    exact List.cons_ne_nil _ _
  have hne' : ¬ q.flip.chIQIsEmptyI = true := by
    simp only [chIQIsEmptyI, flip, beq_iff_eq]
    omega
  rw [chIQGetTimeout, if_neg hne'] at hp
  obtain ⟨hb, rfl⟩ := Prod.mk.inj hp
  refine ⟨{ q with qCounter := q.qCounter + 1, qRdptr := qNext size q.qRdptr }, ?_, ?_⟩
  · rw [chOQGetI, if_neg hne]
    exact congrArg₂ Prod.mk hb rfl
  · refine ⟨by dsimp only; omega, ?_⟩
    have hcount : size - q.qCounter - 1 = size - (q.qCounter + 1) := by omega
    simpa only [flip, hcount] using hQ

theorem reset {q : GenericQueue α size} (hs : 0 < size) (hw : q.qWrptr = 0) (hr : q.qRdptr = 0) :
    OQHolds (q.chOQResetI .counter) [] := by
  refine ⟨Nat.le_refl _, ?_⟩
  have hf : (q.chOQResetI .counter).flip = q.chIQResetI .counter := by
    simp only [flip, chOQResetI, chIQResetI, Nat.sub_self]
  rw [hf]
  exact .reset hs hw hr

end OQHolds

end GenericQueue

end RobotPws.Kernel
