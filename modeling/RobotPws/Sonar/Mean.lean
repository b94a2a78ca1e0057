import RobotPws.Sonar.Model

/-!
# What `sonarDistance` reports

The driver chooses how many samples the callback gets, half of the buffer, and the callback divides
their sum by `ADC_BUFFER_DEPTH`. This module says for which samples the quotient is their mean.
-/

namespace RobotPws.Sonar

open RobotPws.Lib RobotPws.Hal

/-- The DMA has filled one half of the buffer. -/
inductive Half where
  | first
  | second
  deriving DecidableEq, Repr

/-- An interrupt of the conversion, with what is in the buffer when it comes. -/
structure Transfer where
  half : Half
  samples : List UInt16
  deriving DecidableEq, Repr

namespace Transfer

/-- The samples the driver passes to the callback. -/
def passed (t : Transfer) (depth : Nat) : List UInt16 :=
  match t.half with
  | .first => t.samples.take (depth / 2)
  | .second => t.samples.drop (depth / 2)

/-- What the interrupt handler runs. -/
def serve (t : Transfer) (adcp : AdcDriver Vars) (s : Vars) : Option (AdcDriver Vars × Vars) :=
  match t.half with
  | .first => adcp.isrHalfCode t.samples s
  | .second => adcp.isrFullCode t.samples s

end Transfer

/-- The distance is the mean of these samples, and the LED tells whether it is below `STOP`. -/
def Reported (xs : List UInt16) (s : Vars) : Prop :=
  s.sonarDistance = mean xs ∧ (s.led3 = true ↔ mean xs < stop)

/-- The mean is reported after every callback of a run. -/
def Reports (adcp : AdcDriver Vars) (s : Vars) : List Transfer → Prop
  | [] => True
  | t :: ts => ∃ adcp' s', t.serve adcp s = some (adcp', s') ∧
      Reported (t.passed adcp.depth) s' ∧ Reports adcp' s' ts

/-- The divisor does no harm: the sum `S` of the `n` samples is an `int`, and
`S < min n 8 * (S / max n 8 + 1)`. -/
def Divisible (xs : List UInt16) : Prop :=
  sampleSum xs < 2 ^ 31 ∧
    sampleSum xs < min xs.length adcBufferDepth * (sampleSum xs / max xs.length adcBufferDepth + 1)

instance (xs : List UInt16) : Decidable (Divisible xs) := inferInstanceAs (Decidable (_ ∧ _))

theorem div_eq_div_iff_lt {a b : Nat} (ha : 0 < a) (hb : 0 < b) (s : Nat) :
    s / a = s / b ↔ s < min a b * (s / max a b + 1) := by
  wlog hab : a ≤ b generalizing a b
  · rw [eq_comm, Nat.min_comm, Nat.max_comm]
    exact this hb ha (by omega)
  rw [Nat.min_eq_left hab, Nat.max_eq_right hab, Nat.div_eq_iff ha]
  have hle : a * (s / b) ≤ s := calc
    a * (s / b) ≤ b * (s / b) := Nat.mul_le_mul_right _ hab
    _ ≤ s := Nat.mul_div_le s b
  rw [Nat.mul_comm] at hle
  rw [Nat.mul_add, Nat.mul_one, Nat.mul_comm a]
  omega

theorem reported_iff {xs : List UInt16} (hxs : xs ≠ []) (s : Vars) :
    (∃ s', adccallback xs xs.length s = some s' ∧ Reported xs s') ↔ Divisible xs := by
  have hpos : 0 < xs.length := List.length_pos_iff.2 hxs
  have hquot := div_eq_div_iff_lt hpos (show 0 < adcBufferDepth by decide) (sampleSum xs)
  rw [adccallback_eq (Nat.le_refl _), List.take_length]
  constructor
  · rintro ⟨s', h, hd, -⟩
    split at h
    · next hlt =>
      cases h
      exact ⟨hlt, hquot.1 (Int.ofNat_inj.1 hd).symm⟩
    · cases h
  · rintro ⟨hlt, hmin⟩
    have hmean : sampleSum xs / 8 = mean xs := (hquot.2 hmin).symm
    rw [if_pos hlt]
    refine ⟨_, rfl, congrArg Int.ofNat hmean, ?_⟩
    rw [hmean]
    exact decide_eq_true_iff

theorem serve_eq {adcp : AdcDriver Vars} (hg : adcp.grpp = some adcgrpcfg2)
    (heven : adcp.depth % 2 = 0) (hdepth : 2 ≤ adcp.depth) {t : Transfer}
    (ht : t.samples.length = adcp.depth) (s : Vars) :
    t.serve adcp s =
      (adccallback (t.passed adcp.depth) (t.passed adcp.depth).length s).map (adcp, ·) := by
  obtain ⟨half, samples⟩ := t
  replace ht : samples.length = adcp.depth := ht
  have hhalf : adcp.depth / 2 ≤ samples.length := by omega
  unfold Transfer.serve Transfer.passed
  cases half with
  | first =>
    have hlen : (samples.take (adcp.depth / 2)).length = adcp.depth / 2 := by
      rw [List.length_take, Nat.min_eq_left hhalf]
    unfold AdcDriver.isrHalfCode
    rw [hg, hlen]
    show (adccallback samples (adcp.depth / 2) s).map _ = _
    rw [adccallback_eq hhalf, adccallback_eq (Nat.le_of_eq hlen.symm), List.take_take, Nat.min_self]
  | second =>
    have hlen : (samples.drop (adcp.depth / 2)).length = adcp.depth / 2 := by
      rw [List.length_drop]
      omega
    unfold AdcDriver.isrFullCode
    rw [hg, hlen]
    show (adcp.callSecondHalf adcgrpcfg2 samples s).map _ = _
    unfold AdcDriver.callSecondHalf
    rw [if_pos (by omega)]
    show (adccallback (samples.drop (adcp.depth / 2 * 1)) (adcp.depth / 2) s).map _ = _
    rw [Nat.mul_one]

theorem reports_iff {adcp : AdcDriver Vars} (hg : adcp.grpp = some adcgrpcfg2)
    (heven : adcp.depth % 2 = 0) (hdepth : 2 ≤ adcp.depth) {ts : List Transfer}
    (hts : ∀ t ∈ ts, t.samples.length = adcp.depth) (s : Vars) :
    Reports adcp s ts ↔ ∀ t ∈ ts, Divisible (t.passed adcp.depth) := by
  induction ts generalizing s with
  | nil => exact ⟨fun _ _ h => (List.not_mem_nil h).elim, fun _ => trivial⟩
  | cons t ts ih =>
    have ht : t.samples.length = adcp.depth := hts t List.mem_cons_self
    have hne : t.passed adcp.depth ≠ [] := by
      rw [← List.length_pos_iff]
      unfold Transfer.passed
      cases t.half with
      | first =>
        show 0 < (t.samples.take _).length
        rw [List.length_take]
        omega
      | second =>
        show 0 < (t.samples.drop _).length
        rw [List.length_drop]
        omega
    have hrest := fun s => ih (fun t h => hts t (List.mem_cons_of_mem _ h)) s
    rw [List.forall_mem_cons, ← reported_iff hne s]
    unfold Reports
    rw [serve_eq hg heven hdepth ht]
    constructor
    · rintro ⟨adcp', s', hs, hr, hall⟩
      obtain ⟨s'', hcb, heq⟩ := Option.map_eq_some_iff.1 hs
      cases heq
      exact ⟨⟨s', hcb, hr⟩, (hrest s').1 hall⟩
    · rintro ⟨⟨s', hcb, hr⟩, hall⟩
      exact ⟨adcp, s', by rw [hcb]; rfl, hr, (hrest s').2 hall⟩

/-- **The distance is the mean of what was measured**: at every depth, after every callback of a
run, if and only if the divisor 8 does no harm to the samples of each. -/
theorem distance_is_mean_iff {adcp adcp' : AdcDriver Vars} {depth : Nat} (heven : depth % 2 = 0)
    (hdepth : 2 ≤ depth) (hstart : adcp.adcStartConversionI adcgrpcfg2 depth = some adcp')
    {ts : List Transfer} (hts : ∀ t ∈ ts, t.samples.length = depth) (s : Vars) :
    Reports adcp' s ts ↔ ∀ t ∈ ts, Divisible (t.passed depth) := by
  cases hstart
  exact reports_iff rfl heven hdepth hts s

/-- A buffer of sixteen samples: the callback gets eight. -/
theorem distance_is_mean_sixteen :
    Reports ⟨.active, 16, some adcgrpcfg2⟩ .init
      [⟨.first, List.replicate 16 1000⟩, ⟨.second, List.replicate 16 100⟩] :=
  (@distance_is_mean_iff sonarInit _ 16 (by decide) (by decide) rfl _ (by decide) .init).2
    (by decide)

/-- Eight equal samples of 100, the depth of `sonarStart`: the distance is 50. -/
theorem distance_not_mean :
    ¬ ∀ (depth : Nat) (adcp adcp' : AdcDriver Vars) (s : Vars) (ts : List Transfer),
      depth % 2 = 0 → 2 ≤ depth → adcp.adcStartConversionI adcgrpcfg2 depth = some adcp' →
      (∀ t ∈ ts, t.samples.length = depth) → Reports adcp' s ts := by
  intro h
  obtain ⟨adcp', s', hs, ⟨hd, -⟩, -⟩ := h 8 sonarInit ⟨.active, 8, some adcgrpcfg2⟩ .init
    [⟨.first, List.replicate 8 100⟩] (by decide) (by decide) rfl (by decide)
  have hs50 : s' = ⟨false, 50, [], false⟩ := by
    have hcb : Transfer.serve ⟨.first, List.replicate 8 100⟩ ⟨.active, 8, some adcgrpcfg2⟩ .init =
      some (⟨.active, 8, some adcgrpcfg2⟩, ⟨false, 50, [], false⟩) := rfl
    rw [hcb] at hs
    cases hs
    rfl
  rw [hs50] at hd
  exact absurd hd (by decide)

theorem divisible_of_eight {xs : List UInt16} (h : xs.length = adcBufferDepth) : Divisible xs := by
  have h8 : adcBufferDepth = 8 := rfl
  have hle := sampleSum_le xs
  unfold Divisible
  rw [h, h8, Nat.min_self, Nat.max_self]
  omega

/-- At the depth of `sonarStart` the callback gets four samples, and half their mean is reported. -/
theorem distance_is_half {xs : List UInt16} (h : xs.length = adcBufferDepth / 2) {s s' : Vars}
    (hcb : adccallback xs xs.length s = some s') : s'.sonarDistance = (mean xs / 2 : Nat) := by
  rw [sonarDistance_adccallback hcb, List.take_length, mean, h, Nat.div_div_eq_div_mul]
  rfl

end RobotPws.Sonar
