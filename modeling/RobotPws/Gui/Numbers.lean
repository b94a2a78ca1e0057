import RobotPws.Gui.Protocol
import RobotPws.Heading.Model
import RobotPws.Sonar.Model

/-!
# Numbers in replies

`itoa` writes four digits and a newline into its static buffer, the GUI reads the reply with
Python's `int`. This module says which numbers come back.
-/

namespace RobotPws.Gui

open RobotPws.Lib RobotPws.Hal RobotPws.Main RobotPws.Sonar

/-- `int(s)`: white space around an optional sign and digits; `none` is a `ValueError`. -/
def pyInt (s : Text) : Option Int :=
  let (neg, t) := signed (s.dropWhile isSpace)
  let ds := t.takeWhile isDigit
  if ds = [] ∨ (t.dropWhile isDigit).all isSpace = false then none
  else some (if neg then -digitsVal ds else digitsVal ds)

/-- Decimal digits after an optional minus sign. -/
def IsDecimal (s : Text) : Prop :=
  ∃ ds, (s = ds ∨ s = 45 :: ds) ∧ ds ≠ [] ∧ ∀ c ∈ ds, isDigit c = true

/-- The reply to a query with this result is decimal text with a newline, it stays in the buffer,
and the GUI reads the number back. -/
structure RoundTrips (string : CArray UInt8 7) (v : Int) : Prop where
  fits : (itoaStores string v).InBounds
  text : ∃ s, (itoaStores string v).text = s ++ crlf ∧ IsDecimal s
  read : pyInt (dropEnd2 (itoaStores string v).text) = some v

theorem digitsFrom_lt {ds : Text} (h : ∀ c ∈ ds, isDigit c = true) (acc : Nat) :
    digitsFrom acc ds < (acc + 1) * 10 ^ ds.length := by
  induction ds generalizing acc with
  | nil => show acc < (acc + 1) * 1; omega
  | cons d ds ih =>
    have hd := h d List.mem_cons_self
    have h9 : d.toNat - 48 ≤ 9 := by
      simp only [isDigit, Bool.and_eq_true, decide_eq_true_eq, UInt8.le_iff_toNat_le] at hd
      have h57 : d.toNat ≤ 57 := hd.2
      omega
    calc digitsFrom acc (d :: ds)
        = digitsFrom (acc * 10 + (d.toNat - 48)) ds := rfl
      _ < (acc * 10 + (d.toNat - 48) + 1) * 10 ^ ds.length :=
          ih (fun c hc => h c (List.mem_cons_of_mem _ hc)) _
      _ ≤ (acc + 1) * 10 * 10 ^ ds.length := Nat.mul_le_mul_right _ (by omega)
      _ = (acc + 1) * 10 ^ (d :: ds).length := by rw [List.length_cons, Nat.pow_succ]; ring

theorem digitsVal_lt {ds : Text} (h : ∀ c ∈ ds, isDigit c = true) :
    digitsVal ds < 10 ^ ds.length := by
  have hlt := digitsFrom_lt h 0
  rw [Nat.zero_add, Nat.one_mul] at hlt
  exact hlt

theorem length_signed (s : Text) :
    (signed s).2.length ≤ s.length ∧ ((signed s).1 = true → (signed s).2.length < s.length) := by
  unfold signed
  split
  · exact ⟨by simp, fun _ => by simp⟩
  · exact ⟨by simp, fun h => by cases h⟩
  · exact ⟨Nat.le_refl _, fun h => by cases h⟩

/-- A number read from a text has no more digits than the text has characters, and one character
less if it is negative. -/
theorem pyInt_bounds {s : Text} {v : Int} (h : pyInt s = some v) {n : Nat} (hn : s.length ≤ n + 1) :
    v < 10 ^ (n + 1) ∧ -v < 10 ^ n := by
  obtain ⟨hlen, hneg⟩ := length_signed (s.dropWhile isSpace)
  have hdrop : (s.dropWhile isSpace).length ≤ s.length := List.length_dropWhile_le _ _
  unfold pyInt at h
  dsimp only at h
  split at h
  · cases h
  cases h
  have hds := @digitsVal_lt ((signed (s.dropWhile isSpace)).2.takeWhile isDigit)
    fun _ => List.mem_takeWhile_imp
  have htake := (List.takeWhile_prefix isDigit (l := (signed (s.dropWhile isSpace)).2)).length_le
  have hlt : ∀ n, (signed (s.dropWhile isSpace)).2.length ≤ n →
      (digitsVal ((signed (s.dropWhile isSpace)).2.takeWhile isDigit) : Int) < 10 ^ n := by
    intro n hn
    have hpow := Nat.pow_le_pow_right (show 0 < 10 by decide) (htake.trans hn)
    exact_mod_cast Nat.lt_of_lt_of_le hds hpow
  have hpos : ∀ n : Nat, (0 : Int) < 10 ^ n := fun n => Int.pow_pos (by decide)
  cases hsign : (signed (s.dropWhile isSpace)).1 with
  | false =>
    rw [if_neg Bool.false_ne_true]
    have := hpos n
    exact ⟨hlt _ (by omega), by omega⟩
  | true =>
    rw [if_pos rfl]
    have hless := hneg hsign
    have := hpos (n + 1)
    have := hlt n (by omega)
    exact ⟨by omega, by omega⟩

/-- A text that starts with a digit is not read as a negative number. -/
theorem pyInt_nonneg {c : UInt8} {s : Text} (hc : isDigit c = true) {v : Int}
    (h : pyInt (c :: s) = some v) : 0 ≤ v := by
  unfold pyInt at h
  rw [List.dropWhile_cons, isSpace_of_isDigit hc, if_neg Bool.false_ne_true,
    signed_of_isDigit hc] at h
  dsimp only at h
  split at h
  · cases h
  · cases h
    rw [if_neg Bool.false_ne_true]
    exact Int.natCast_nonneg _

theorem pyInt_digits {ds : Text} (hne : ds ≠ []) (h : ∀ c ∈ ds, isDigit c = true) :
    pyInt ds = some (digitsVal ds : Int) := by
  cases ds with
  | nil => exact absurd rfl hne
  | cons d ds =>
    have htake := @takeWhile_isDigit (d :: ds) [] h (fun c hc => by cases hc)
    rw [List.append_nil] at htake
    have hdrop : (d :: ds).dropWhile isDigit = [] := List.dropWhile_eq_nil_iff.2 h
    have hd := h d List.mem_cons_self
    unfold pyInt
    rw [List.dropWhile_cons, isSpace_of_isDigit hd, if_neg Bool.false_ne_true, signed_of_isDigit hd]
    dsimp only
    rw [htake, hdrop, if_neg, if_neg Bool.false_ne_true]
    rintro (hnil | hall)
    · cases hnil
    · cases hall

theorem toDigit_digit {k : Int} (h0 : 0 ≤ k) (h9 : k ≤ 9) :
    isDigit (itoa.toDigit k) = true ∧ ((itoa.toDigit k).toNat : Int) = 48 + k := by
  have hval : (itoa.toDigit k).toNat = (k + 48).toNat := by
    unfold itoa.toDigit
    rw [UInt8.toNat_ofNat']
    omega
  refine ⟨?_, by omega⟩
  simp only [isDigit, Bool.and_eq_true, decide_eq_true_eq, UInt8.le_iff_toNat_le, hval]
  have h48 : (48 : UInt8).toNat = 48 := rfl
  have h57 : (57 : UInt8).toNat = 57 := rfl
  omega

theorem itoa_small {v : Int} (h0 : -1000 < v) (h1 : v < 1000) : ∃ s, itoa v = 48 :: s := by
  have hfirst : v.tdiv 1000 = 0 := by
    obtain h | h := Int.le_total 0 v
    · exact Int.tdiv_eq_zero_of_lt h h1
    · rw [← Int.neg_neg v, Int.neg_tdiv, Int.tdiv_eq_zero_of_lt (by omega) (by omega)]
      rfl
  unfold itoa
  rw [hfirst]
  exact ⟨_, rfl⟩

theorem range_of_read {v : Int} (h : pyInt (dropEnd2 (cText (itoa v))) = some v) :
    0 ≤ v ∧ v ≤ 9999 := by
  have hlen : (dropEnd2 (cText (itoa v))).length ≤ 4 := by
    have hle : (cText (itoa v)).length ≤ 6 := (List.takeWhile_prefix _).length_le
    unfold dropEnd2
    rw [List.length_take]
    omega
  obtain ⟨hup, hlow⟩ := pyInt_bounds h hlen
  refine ⟨?_, by omega⟩
  by_contra hneg
  obtain ⟨s, hs⟩ := itoa_small (v := v) (by omega) (by omega)
  rw [hs] at h
  have hc : cText (48 :: s) = 48 :: cText s := rfl
  rw [hc, dropEnd2] at h
  cases hn : (48 :: cText s).length - 2 with
  | zero =>
    rw [hn] at h
    cases h
  | succ n =>
    rw [hn, List.take_succ_cons] at h
    exact hneg (pyInt_nonneg (by decide) h)

theorem itoa_digits {v : Int} (h0 : 0 ≤ v) (h1 : v ≤ 9999) :
    ∃ ds, itoa v = ds ++ crlf ∧ ds.length = 4 ∧ (∀ c ∈ ds, isDigit c = true) ∧
      (digitsVal ds : Int) = v := by
  have hthousands : v.tdiv 1000 = v / 1000 := Int.tdiv_eq_ediv_of_nonneg h0
  have hhundreds : (v.tmod 1000).tdiv 100 = v % 1000 / 100 := by
    rw [Int.tmod_eq_emod_of_nonneg h0, Int.tdiv_eq_ediv_of_nonneg (by omega)]
  have htens : (v.tmod 100).tdiv 10 = v % 100 / 10 := by
    rw [Int.tmod_eq_emod_of_nonneg h0, Int.tdiv_eq_ediv_of_nonneg (by omega)]
  have hones : v.tmod 10 = v % 10 := Int.tmod_eq_emod_of_nonneg h0
  obtain ⟨ha, hva⟩ := @toDigit_digit (v / 1000) (by omega) (by omega)
  obtain ⟨hb, hvb⟩ := @toDigit_digit (v % 1000 / 100) (by omega) (by omega)
  obtain ⟨hc, hvc⟩ := @toDigit_digit (v % 100 / 10) (by omega) (by omega)
  obtain ⟨hd, hvd⟩ := @toDigit_digit (v % 10) (by omega) (by omega)
  refine ⟨[itoa.toDigit (v / 1000), itoa.toDigit (v % 1000 / 100), itoa.toDigit (v % 100 / 10),
    itoa.toDigit (v % 10)], ?_, rfl, ?_, ?_⟩
  · rw [itoa, hthousands, hhundreds, htens, hones]
    rfl
  · intro c hmem
    rcases List.mem_cons.1 hmem with rfl | hmem
    · exact ha
    rcases List.mem_cons.1 hmem with rfl | hmem
    · exact hb
    rcases List.mem_cons.1 hmem with rfl | hmem
    · exact hc
    rw [List.mem_singleton.1 hmem]
    exact hd
  · simp only [digitsVal, digitsFrom, List.foldl_cons, List.foldl_nil]
    omega

/-- The round trip is that of the numbers with at most four digits and no sign. -/
theorem roundTrips_iff (string : CArray UInt8 7) (v : Int) :
    RoundTrips string v ↔ 0 ≤ v ∧ v ≤ 9999 := by
  constructor
  · intro h
    have hread := h.read
    rw [itoaStores_text] at hread
    exact range_of_read hread
  · rintro ⟨h0, h1⟩
    obtain ⟨ds, hitoa, hlen, hds, hval⟩ := itoa_digits h0 h1
    have hne : ds ≠ [] := List.ne_nil_of_length_pos (by omega)
    have htext : (itoaStores string v).text = ds ++ crlf := by
      have hnul : ∀ c ∈ ds, (c != 0) = true := by
        intro c hc
        rw [bne_iff_ne]
        rintro rfl
        exact absurd (hds 0 hc) (by decide)
      rw [itoaStores_text, hitoa, cText, List.takeWhile_append_of_pos hnul]
      rfl
    refine ⟨itoaStores_inBounds string v, ⟨ds, htext, ds, .inl rfl, hne, hds⟩, ?_⟩
    have hdrop : dropEnd2 (ds ++ crlf) = ds := by
      unfold dropEnd2
      rw [List.length_append]
      exact List.take_left
    rw [htext, hdrop, pyInt_digits hne hds, hval]

/-- **Numbers come back** if and only if they have at most four digits and no sign: the
accelerometer's bytes below 128, the distances of sums below 80000 and both error codes do. -/
theorem numbers_round_trip_iff (string : CArray UInt8 7) :
    (∀ v, RoundTrips string v ↔ 0 ≤ v ∧ v ≤ 9999) ∧
      (∀ (h : Heading.Vars) (t : I2cTransfer 6) (x y z : UInt8),
        RoundTrips string (h.getHeading t x y z).1 ↔ x.toNat < 128) ∧
      (∀ (buffer : List UInt16) (n : Nat) (s s' : Sonar.Vars),
        Sonar.adccallback buffer n s = some s' →
        (RoundTrips string s'.sonarDistance ↔ Sonar.sampleSum (buffer.take n) < 80000)) ∧
      ∀ err : AdcError, RoundTrips string err.code := by
  refine ⟨roundTrips_iff string, fun h t x y z => ?_, fun buffer n s s' hcb => ?_, fun err => ?_⟩
  · have hx := x.toNat_lt
    rw [roundTrips_iff, Heading.getHeading_eq]
    split <;> omega
  · rw [roundTrips_iff, Sonar.sonarDistance_adccallback hcb]
    omega
  · rw [roundTrips_iff]
    cases err <;> decide

/-- A tilt to the other side: the byte 251 is the value -5, and the reply is no number. -/
theorem number_not_read :
    ¬ ∀ (string : CArray UInt8 7) (v : Int), -2 ^ 31 ≤ v → v < 2 ^ 31 → RoundTrips string v := by
  intro h
  have hrange := (roundTrips_iff _ _).1 (h (.fill 7 0) (-5) (by decide) (by decide))
  exact absurd hrange (by decide)

end RobotPws.Gui
