import RobotPws.Hal.Adc
import RobotPws.Lib.CString
import RobotPws.Main

/-!
# The sonar

`serv_sonar.c` over the ADC driver: the callbacks of its conversion group and the functions the
other services call. An `int` sum beyond 32 bits is undefined, so the callback has no result then.
What `wiflySend` does when the error callback calls it is in `ErrorIsr`.
-/

namespace RobotPws.Sonar

open RobotPws.Lib RobotPws.Hal RobotPws.Main

def adcChannels : Nat := 1
def adcBufferDepth : Nat := 8

/-- `STOP` -/
def stop : Int := 40

/-- The variables of `serv_sonar.c`, and the LED its callback switches. -/
structure Vars where
  sonarEn : Bool
  tdistance : Int
  /-- the characters in `string` -/
  string : List UInt8
  led3 : Bool
  deriving DecidableEq, Repr

/-- The stores of `itoa` into `string`. -/
def itoaStores (string : CArray UInt8 7) (getal : Int) : Buffer 7 :=
  Buffer.storeAll ⟨string, []⟩ 0 (itoa getal ++ [0])

/-- The sum of two `int`s, undefined if it is none. -/
def addInt (a b : Int) : Option Int :=
  if -2 ^ 31 ≤ a + b ∧ a + b < 2 ^ 31 then some (a + b) else none

/-- The loop of `adccallback`: `correction` after its first `n` rounds. -/
def correction (buffer : List UInt16) : Nat → Option Int
  | 0 => some 0
  | n + 1 => (correction buffer n).bind fun c => buffer[n]?.bind fun x => addInt c x.toNat

/-- `adccallback` -/
def adccallback (buffer : List UInt16) (n : Nat) (s : Vars) : Option Vars :=
  (correction buffer n).map fun c =>
    let total := c.tdiv adcBufferDepth
    { s with tdistance := total, led3 := decide (total < stop) }

/-- `adcerrorcallback` up to its call of `wiflySend`. -/
def adcerrorcallback (err : AdcError) (s : Vars) : Option Vars :=
  some { s with string := itoa err.code }

def adcgrpcfg2 : AdcConversionGroup Vars where
  circular := true
  numChannels := adcChannels
  endCb := some adccallback
  errorCb := some adcerrorcallback

namespace Vars

def sonarDistance (s : Vars) : Int := s.tdistance

def sonarActive (s : Vars) : Bool := s.sonarEn

/-- The variables before any call. -/
def init : Vars := ⟨false, 0, [], false⟩

end Vars

/-- `sonarInit`, for the driver. -/
def sonarInit : AdcDriver Vars := AdcDriver.adcObjectInit.adcStart

/-- `sonarStart` -/
def sonarStart (adcp : AdcDriver Vars) (s : Vars) : Option (AdcDriver Vars × Vars) :=
  (adcp.adcStartConversionI adcgrpcfg2 adcBufferDepth).map (·, { s with sonarEn := true })

/-- `sonarStop` -/
def sonarStop (adcp : AdcDriver Vars) (s : Vars) : AdcDriver Vars × Vars :=
  (adcp.adcStopConversionI, { s with sonarEn := false })

theorem cText_append_nul (s : List UInt8) : cText (s ++ [0]) = cText s := by
  induction s with
  | nil => rfl
  | cons c s ih =>
    unfold cText at ih ⊢
    rw [List.cons_append, List.takeWhile_cons, List.takeWhile_cons, ih]

theorem itoaStores_cells (string : CArray UInt8 7) (v : Int) :
    (itoaStores string v).array.cells = itoa v ++ [0] := by
  have hlen : 0 + (itoa v ++ [0]).length = 7 := rfl
  have htake := Buffer.storeAll_take ⟨string, []⟩ (itoa v ++ [0]) (Nat.le_of_eq hlen)
  rw [hlen, List.take_zero, List.nil_append] at htake
  rw [← htake]
  exact (List.take_of_length_le (Nat.le_of_eq (itoaStores string v).array.size)).symm

theorem itoaStores_text (string : CArray UInt8 7) (v : Int) :
    (itoaStores string v).text = cText (itoa v) := by
  rw [← cText_append_nul, ← itoaStores_cells string v]
  rfl

theorem itoaStores_inBounds (string : CArray UInt8 7) (v : Int) :
    (itoaStores string v).InBounds := by
  intro i hi
  rw [itoaStores, Buffer.storeAll_written] at hi
  have hlt := (List.mem_range'_1.1 hi).2
  exact hlt

/-- The sum of these samples. -/
def sampleSum (xs : List UInt16) : Nat := (xs.map UInt16.toNat).sum

/-- The integer part of the mean of these samples. -/
def mean (xs : List UInt16) : Nat := sampleSum xs / xs.length

theorem addInt_nat (a b : Nat) :
    addInt a b = if a + b < 2 ^ 31 then some ((a + b : Nat) : Int) else none := by
  unfold addInt
  by_cases h : a + b < 2 ^ 31
  · rw [if_pos h, if_pos ⟨by omega, by omega⟩]
    rfl
  · rw [if_neg h, if_neg (by omega)]

theorem sampleSum_take_succ {xs : List UInt16} {n : Nat} (h : n < xs.length) :
    sampleSum (xs.take (n + 1)) = sampleSum (xs.take n) + xs[n].toNat := by
  unfold sampleSum
  rw [List.take_succ_eq_append_getElem h, List.map_append, List.sum_append]
  rfl

theorem sampleSum_le (xs : List UInt16) : sampleSum xs ≤ xs.length * 65535 := by
  induction xs with
  | nil => exact Nat.le_refl _
  | cons x xs ih =>
    have hx := x.toNat_lt
    have hcons : sampleSum (x :: xs) = x.toNat + sampleSum xs := rfl
    rw [hcons, List.length_cons]
    omega

/-- The loop adds up the samples, as long as the sum is an `int`. -/
theorem correction_eq {buffer : List UInt16} {n : Nat} (h : n ≤ buffer.length) :
    correction buffer n =
      if sampleSum (buffer.take n) < 2 ^ 31 then some (sampleSum (buffer.take n) : Int)
      else none := by
  induction n with
  | zero => rfl
  | succ n ih =>
    have hget : buffer[n]? = some buffer[n] := List.getElem?_eq_getElem (by omega)
    have hsum := @sampleSum_take_succ buffer n (by omega)
    rw [correction, ih (by omega), hget]
    by_cases hlt : sampleSum (buffer.take n) < 2 ^ 31
    · rw [if_pos hlt, hsum, Option.bind_some, Option.bind_some, addInt_nat]
    · rw [if_neg hlt, if_neg (by omega)]
      rfl

theorem adccallback_eq {buffer : List UInt16} {n : Nat} (h : n ≤ buffer.length) (s : Vars) :
    adccallback buffer n s =
      if sampleSum (buffer.take n) < 2 ^ 31 then
        some { s with
          tdistance := (sampleSum (buffer.take n) / 8 : Nat)
          led3 := decide ((sampleSum (buffer.take n) / 8 : Nat) < stop) }
      else none := by
  unfold adccallback
  rw [correction_eq h]
  split <;> rfl

theorem correction_le {buffer : List UInt16} {n : Nat} {c : Int}
    (h : correction buffer n = some c) : n ≤ buffer.length := by
  cases n with
  | zero => exact Nat.zero_le _
  | succ n =>
    obtain ⟨_, -, h⟩ := Option.bind_eq_some_iff.1 h
    obtain ⟨_, hx, -⟩ := Option.bind_eq_some_iff.1 h
    exact (List.getElem?_eq_some_iff.1 hx).1

theorem sonarDistance_adccallback {buffer : List UInt16} {n : Nat} {s s' : Vars}
    (h : adccallback buffer n s = some s') :
    s'.sonarDistance = (sampleSum (buffer.take n) / 8 : Nat) := by
  obtain ⟨c, hc, -⟩ := Option.map_eq_some_iff.1 h
  rw [adccallback_eq (correction_le hc)] at h
  split at h
  · cases h
    rfl
  · cases h

/-- On a buffer that is not too long the callback returns; it leaves the flag alone. -/
theorem adccallback_some {buffer : List UInt16} {n : Nat} (h : n ≤ buffer.length) (hn : n ≤ 2 ^ 15)
    (s : Vars) : ∃ s', adccallback buffer n s = some s' ∧ s'.sonarEn = s.sonarEn := by
  have hsum := sampleSum_le (buffer.take n)
  rw [List.length_take, Nat.min_eq_left h] at hsum
  rw [adccallback_eq h, if_pos (by omega)]
  exact ⟨_, rfl, rfl⟩

end RobotPws.Sonar
