import Mathlib.Algebra.Order.Ring.Nat
import Mathlib.Data.Finset.Card
import Mathlib.Data.Fintype.Basic
import Mathlib.Logic.Relation
import Mathlib.Order.Bounds.Basic
import Mathlib.Tactic.Common

/-!
# Priority inheritance

Everyone waits for at most one other (`wait`) and has a priority of its own (`real`). `Inherits`
says that the priorities `prio` are those inherited: that of `t` is the greatest of the own
priorities of all who wait for `t`, directly or through others, and of `t` (`Inherits.isGreatest`).
`raise` restores this when one more begins to wait (`Inherits.raise`), and it needs no more steps
than there are threads (`raise_isSome`). `Inherits.release` is what gives it back when one of those
who wait for `c` is let go and the others that waited for the same thing wait for this one.

Nothing here asks that nobody waits for himself through others.
-/

namespace RobotPws.Lib

open Function Relation

variable {α : Type*} {wait wait' : α → Option α} {real prio prio' : α → Nat} {but : α → Prop}
  {c t u w : α} {p fuel : Nat}

/-- `w` waits for `t`, directly or through others, or is `t`. -/
abbrev WaitsFor (wait : α → Option α) : α → α → Prop := ReflTransGen fun w t => wait w = some t

/-- Everyone has the priority inherited; those in `but` may have a greater one. -/
structure Inherits (but : α → Prop) (wait : α → Option α) (real prio : α → Nat) : Prop where
  real_le : ∀ t, real t ≤ prio t
  wait_le : ∀ {w t}, wait w = some t → prio w ≤ prio t
  attained : ∀ t, ¬ but t → ∃ w, WaitsFor wait w t ∧ real w = prio t

namespace Inherits

theorem waitsFor_le (h : Inherits but wait real prio) (hw : WaitsFor wait w t) :
    prio w ≤ prio t := by
  induction hw with
  | refl => exact Nat.le_refl _
  | tail _ ht ih => exact Nat.le_trans ih (h.wait_le ht)

theorem isGreatest (h : Inherits but wait real prio) (ht : ¬ but t) :
    IsGreatest {r | ∃ w, WaitsFor wait w t ∧ real w = r} (prio t) := by
  refine ⟨h.attained t ht, ?_⟩
  rintro _ ⟨w, hw, rfl⟩
  exact Nat.le_trans (h.real_le w) (h.waitsFor_le hw)

theorem mono {but' : α → Prop} (h : Inherits but wait real prio) (hb : ∀ t, but t → but' t) :
    Inherits but' wait real prio :=
  ⟨h.real_le, h.wait_le, fun t ht => h.attained t fun hbt => ht (hb t hbt)⟩

end Inherits

section
variable [DecidableEq α]

/-- From `t` on along those it waits for, until one has priority `p` already. -/
def raise (wait : α → Option α) (p : Nat) : Nat → α → (α → Nat) → Option (α → Nat)
  | 0, _, _ => none
  | fuel + 1, t, prio =>
    if prio t < p then
      match wait t with
      | none => some (update prio t p)
      | some u => raise wait p fuel u (update prio t p)
    else some prio

theorem raise_of_le (h : ¬ prio t < p) : raise wait p (fuel + 1) t prio = some prio := if_neg h

theorem raise_last (h : prio t < p) (hw : wait t = none) :
    raise wait p (fuel + 1) t prio = some (update prio t p) := by
  unfold raise
  rw [if_pos h, hw]

theorem raise_next (h : prio t < p) (hw : wait t = some u) :
    raise wait p (fuel + 1) t prio = raise wait p fuel u (update prio t p) := by
  rw [raise, if_pos h, hw]

theorem raise_isSome [Fintype α] (hf : (Finset.univ.filter fun u => prio u < p).card < fuel)
    (t : α) : (raise wait p fuel t prio).isSome = true := by
  induction fuel generalizing t prio with
  | zero => omega
  | succ fuel ih =>
    unfold raise
    split
    · next hlt =>
      cases wait t with
      | none => rfl
      | some u =>
        refine ih ?_ u
        have hs : (Finset.univ.filter fun u => update prio t p u < p) ⊂
            Finset.univ.filter fun u => prio u < p := by
          refine Finset.ssubset_iff_subset_ne.2 ⟨fun v hv => ?_, fun he => ?_⟩
          · rw [Finset.mem_filter] at hv ⊢
            refine ⟨hv.1, ?_⟩
            by_cases hvt : v = t
            · rw [hvt]; exact hlt
            · rw [← update_of_ne hvt p prio]; exact hv.2
          · have ht : t ∈ Finset.univ.filter fun u => update prio t p u < p := by
              rw [he]
              exact Finset.mem_filter.2 ⟨Finset.mem_univ t, hlt⟩
            rw [Finset.mem_filter, update_self] at ht
            exact Nat.lt_irrefl p ht.2
        have := Finset.card_lt_card hs
        omega
    · rfl

theorem raise_cases (h : raise wait p fuel t prio = some prio') (u : α) :
    prio' u = prio u ∨ prio u < p ∧ prio' u = p ∧ WaitsFor wait t u := by
  induction fuel generalizing t prio with
  | zero => cases h
  | succ fuel ih =>
    unfold raise at h
    split at h
    · next hlt =>
      have hup : update prio t p u = prio u ∨ prio u < p ∧ update prio t p u = p ∧
          WaitsFor wait t u := by
        by_cases hut : u = t
        · rw [hut, update_self]
          exact .inr ⟨hlt, rfl, .refl⟩
        · exact .inl (update_of_ne hut p prio)
      cases hw : wait t with
      | none =>
        rw [hw] at h
        rw [← Option.some.inj h]
        exact hup
      | some v =>
        rw [hw] at h
        rcases ih h with hu | ⟨hlt', hu, hr⟩
        · rw [hu]; exact hup
        · rcases hup with hu' | ⟨hu1, -, hu2⟩
          · exact .inr ⟨hu' ▸ hlt', hu, .head hw hr⟩
          · exact .inr ⟨hu1, hu, hu2⟩
    · rw [Option.some.inj h]
      exact .inl rfl

/-- What a step keeps: only the one it has come to may be below those that wait for it. -/
theorem raise_wait_le (h : raise wait p fuel t prio = some prio')
    (hle : ∀ {w u}, wait w = some u → u ≠ t → prio w ≤ prio u)
    (ht : ∀ {w}, wait w = some t → prio w ≤ max (prio t) p) (hw : wait w = some u) :
    prio' w ≤ prio' u := by
  induction fuel generalizing t prio with
  | zero => cases h
  | succ fuel ih =>
    unfold raise at h
    split at h
    · next hlt =>
      have hle' : ∀ {w u}, wait w = some u → wait t ≠ some u →
          update prio t p w ≤ update prio t p u := by
        intro w u hw hu
        have hwt : w ≠ t := fun he => hu (he ▸ hw)
        rw [update_of_ne hwt]
        by_cases hut : u = t
        · subst hut
          rw [update_self]
          exact Nat.le_trans (ht hw) (by omega)
        · rw [update_of_ne hut]
          exact hle hw hut
      cases hv : wait t with
      | none =>
        rw [hv] at h
        rw [← Option.some.inj h]
        exact hle' hw (by rw [hv]; simp)
      | some v =>
        rw [hv] at h
        refine ih h (fun hw hu => hle' hw ?_) fun {w} hw => ?_
        · rw [hv]; exact fun he => hu (Option.some.inj he).symm
        · by_cases hwt : w = t
          · rw [hwt, update_self]; exact Nat.le_max_right _ _
          · rw [update_of_ne hwt]
            by_cases hvt : v = t
            · subst hvt
              rw [update_self]
              exact Nat.le_trans (ht hw) (by omega)
            · rw [update_of_ne hvt]
              exact Nat.le_trans (hle hw hvt) (Nat.le_max_left _ _)
    · next hlt =>
      rw [← Option.some.inj h]
      by_cases hut : u = t
      · subst hut
        have := ht hw
        omega
      · exact hle hw hut

theorem Inherits.raise (h : Inherits but wait real prio) (hc : wait c = none) (hb : ¬ but c)
    (hr : raise (update wait c (some t)) (prio c) fuel t prio = some prio') :
    Inherits but (update wait c (some t)) real prio' := by
  have hmono : ∀ {w u}, WaitsFor wait w u → WaitsFor (update wait c (some t)) w u := by
    refine fun hw => ReflTransGen.mono (fun a b hab => ?_) _ _ hw
    show update wait c (some t) a = some b
    rw [update_of_ne (fun he => by rw [he, hc] at hab; cases hab)]
    exact hab
  have hge : ∀ u, prio u ≤ prio' u := fun u => by
    rcases raise_cases hr u with hu | ⟨h1, h2, -⟩ <;> omega
  refine ⟨fun u => Nat.le_trans (h.real_le u) (hge u), fun hw => ?_, fun u hu => ?_⟩
  · refine raise_wait_le hr (fun {w u} hw hut => ?_) (fun {w} hw => ?_) hw
    · by_cases hwc : w = c
      · subst hwc
        rw [update_self] at hw
        exact (hut (Option.some.inj hw).symm).elim
      · rw [update_of_ne hwc] at hw
        exact h.wait_le hw
    · by_cases hwc : w = c
      · rw [hwc]; exact Nat.le_max_right _ _
      · rw [update_of_ne hwc] at hw
        exact Nat.le_trans (h.wait_le hw) (Nat.le_max_left _ _)
  · rcases raise_cases hr u with he | ⟨-, he, hw⟩
    · obtain ⟨w, hw, hreal⟩ := h.attained u hu
      exact ⟨w, hmono hw, by rw [he, hreal]⟩
    · obtain ⟨w, hwc, hreal⟩ := h.attained c hb
      exact ⟨w, (hmono hwc).trans (.head (update_self ..) hw), by rw [he, hreal]⟩

/-- `c`, who waits for nobody, lets `t` go and gets priority `p`. Of those who waited for `c`, some
wait for `t` now. -/
theorem Inherits.release (h : Inherits but wait real prio) (hc : wait c = none)
    (hb : ∀ u, but u → u = c) (hsame : ∀ w, wait w ≠ some c → wait' w = wait w)
    (hmoved : ∀ w, wait w = some c →
      wait' w = none ∨ wait' w = some c ∨ wait' w = some t ∧ prio w ≤ prio t) (htc : t ≠ c)
    (hreal : real c ≤ p) (hle : ∀ w, wait' w = some c → prio w ≤ p)
    (hatt : ¬ but c → p = real c ∨ ∃ w, wait' w = some c ∧ prio w = p) :
    Inherits but wait' real (update prio c p) := by
  -- a path that does not end in `c` does not use what has changed
  have hkeep : ∀ {w u}, u ≠ c → WaitsFor wait w u → WaitsFor wait' w u := by
    intro w u hu hw
    induction hw with
    | refl => exact .refl
    | @tail v u _ hvu ih =>
      have hv : v ≠ c := fun he => by rw [he, hc] at hvu; cases hvu
      refine (ih hv).tail ?_
      rw [hsame v (by rw [hvu]; exact fun he => hu (Option.some.inj he)), hvu]
  have hwc : ∀ {w u}, wait' w = some u → w ≠ c := by
    intro w u hw he
    rw [he, hsame c (by rw [hc]; simp), hc] at hw
    cases hw
  refine ⟨fun u => ?_, fun {w u} hw => ?_, fun u hu => ?_⟩
  · by_cases huc : u = c
    · rw [huc, update_self]; exact hreal
    · rw [update_of_ne huc]; exact h.real_le u
  · rw [update_of_ne (hwc hw)]
    by_cases huc : u = c
    · rw [huc, update_self]; exact hle w (huc ▸ hw)
    · rw [update_of_ne huc]
      by_cases hwait : wait w = some c
      · rcases hmoved w hwait with hm | hm | ⟨hm, hp⟩
        · rw [hm] at hw; cases hw
        · rw [hm] at hw; exact (huc (Option.some.inj hw).symm).elim
        · rw [hm] at hw; rw [← Option.some.inj hw]; exact hp
      · rw [hsame w hwait] at hw
        exact h.wait_le hw
  · by_cases huc : u = c
    · subst huc
      rw [update_self]
      rcases hatt hu with he | ⟨w, hw, he⟩
      · exact ⟨u, .refl, he.symm⟩
      · have hwu := hwc hw
        obtain ⟨v, hv, hr⟩ := h.attained w fun hbw => hwu (hb w hbw)
        exact ⟨v, (hkeep hwu hv).tail hw, by rw [hr, he]⟩
    · rw [update_of_ne huc]
      obtain ⟨w, hw, hr⟩ := h.attained u hu
      exact ⟨w, hkeep huc hw, hr⟩

end

end RobotPws.Lib
