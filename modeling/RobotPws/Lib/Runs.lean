import Mathlib.Algebra.Order.Ring.Nat
import Mathlib.Tactic.Common

/-!
# Runs of a labelled machine

A machine is a partial step function `step : S → A → Option S`: the label `a`
says which party moves (and what its environment supplies), `none` that this
move is not possible in the state. `Steps step C s as t` is a run from `s` to
`t` over the labels `as` in which every step meets the side condition `C`,
read at the state before the step. `Steps.inv` is the invariant rule, `observe`
lists what a run shows and `exec` computes runs.
-/

namespace RobotPws.Lib

variable {S A : Type*}

/-- Runs over the labels `as` whose steps all meet `C`. -/
inductive Steps (step : S → A → Option S) (C : S → A → Prop) : S → List A → S → Prop where
  | refl (s : S) : Steps step C s [] s
  | cons {s t u : S} {a : A} {as : List A} : step s a = some t → C s a →
      Steps step C t as u → Steps step C s (a :: as) u

/-- No side condition. -/
abbrev Always : S → A → Prop := fun _ _ => True

variable {step : S → A → Option S} {C D : S → A → Prop}

namespace Steps

theorem single {s t : S} {a : A} (h : step s a = some t) (hc : C s a) : Steps step C s [a] t :=
  .cons h hc (.refl t)

theorem trans {s t u : S} {as bs : List A} (h1 : Steps step C s as t)
    (h2 : Steps step C t bs u) : Steps step C s (as ++ bs) u := by
  induction h1 with
  | refl => exact h2
  | cons hs hc _ ih => exact .cons hs hc (ih h2)

theorem snoc {s t u : S} {as : List A} {a : A} (h : Steps step C s as t)
    (hs : step t a = some u) (hc : C t a) : Steps step C s (as ++ [a]) u :=
  h.trans (single hs hc)

theorem mono (hCD : ∀ s a, C s a → D s a) {s t : S} {as : List A} (h : Steps step C s as t) :
    Steps step D s as t := by
  induction h with
  | refl => exact .refl _
  | cons hs hc _ ih => exact .cons hs (hCD _ _ hc) ih

theorem labels {P : A → Prop} {s t : S} {as : List A} (h : Steps step C s as t)
    (hP : ∀ a ∈ as, P a) : Steps step (fun s a => C s a ∧ P a) s as t := by
  induction h with
  | refl => exact .refl _
  | cons hs hc _ ih =>
    exact .cons hs ⟨hc, hP _ List.mem_cons_self⟩ (ih fun a ha => hP a (List.mem_cons_of_mem _ ha))

theorem map {B : Type*} {step' : S → B → Option S} {D : S → B → Prop} (f : A → B)
    (hstep : ∀ s a t, C s a → step s a = some t → step' s (f a) = some t ∧ D s (f a)) {s t : S}
    {as : List A} (h : Steps step C s as t) : Steps step' D s (as.map f) t := by
  induction h with
  | refl => exact .refl _
  | cons hs hc _ ih =>
    obtain ⟨hs', hd⟩ := hstep _ _ _ hc hs
    exact .cons hs' hd ih

/-- The invariant rule: what every step that meets `C` keeps holds at the end
of every such run. -/
theorem inv {I : S → Prop} (hstep : ∀ s a t, I s → C s a → step s a = some t → I t)
    {s t : S} {as : List A} (h : Steps step C s as t) (h0 : I s) : I t := by
  induction h with
  | refl => exact h0
  | cons hs hc _ ih => exact ih (hstep _ _ _ h0 hc hs)

theorem split {s u : S} {as bs : List A} (h : Steps step C s (as ++ bs) u) :
    ∃ t, Steps step C s as t ∧ Steps step C t bs u := by
  induction as generalizing s with
  | nil => exact ⟨s, .refl s, h⟩
  | cons a as ih =>
    cases h with
    | cons hs hc h' =>
      obtain ⟨t, h1, h2⟩ := ih h'
      exact ⟨t, .cons hs hc h1, h2⟩

theorem inv_weight {I : Nat → S → Prop} (w : A → Nat)
    (hstep : ∀ k s a t, I k s → C s a → step s a = some t → I (k + w a) t) {s t : S} {as : List A}
    (h : Steps step C s as t) {k : Nat} (h0 : I k s) : I (k + (as.map w).sum) t := by
  induction h generalizing k with
  | refl => exact h0
  | cons hs hc _ ih =>
    rw [List.map_cons, List.sum_cons, ← Nat.add_assoc]
    exact ih (hstep _ _ _ _ h0 hc hs)

/-- An invariant that depends on what the labels have added up to. -/
theorem inv_foldl {B : Type*} {I : B → S → Prop} (f : B → A → B)
    (hstep : ∀ b s a t, I b s → C s a → step s a = some t → I (f b a) t) {s t : S} {as : List A}
    (h : Steps step C s as t) {b : B} (h0 : I b s) : I (as.foldl f b) t := by
  induction h generalizing b with
  | refl => exact h0
  | cons hs hc _ ih => exact ih (hstep _ _ _ _ h0 hc hs)

/-- Where every step is possible, one that meets `C` keeps `I` and one that does not leads
from `I` out of `P`, the steps of a run meet `C` exactly when `P` holds all along it. -/
theorem exact_iff {I P : S → Prop} (htotal : ∀ s a, ∃ t, step s a = some t)
    (hstep : ∀ s a t, I s → C s a → step s a = some t → I t) (hP : ∀ s, I s → P s)
    (hfail : ∀ s a t, I s → ¬ C s a → step s a = some t → ¬ P t) {s : S} (h0 : I s)
    (as : List A) :
    (∃ t, Steps step C s as t) ↔ ∀ bs, bs <+: as → ∀ t, Steps step Always s bs t → P t := by
  induction as generalizing s with
  | nil =>
    refine ⟨fun _ bs hb t h => ?_, fun _ => ⟨s, .refl s⟩⟩
    rw [List.prefix_nil.1 hb] at h
    cases h
    exact hP _ h0
  | cons a as ih =>
    obtain ⟨t, ht⟩ := htotal s a
    constructor
    · rintro ⟨u, h⟩ bs hb v hv
      obtain - | ⟨hs, hc, h⟩ := h
      cases hs.symm.trans ht
      cases hv with
      | refl => exact hP _ h0
      | cons hs' _ hv =>
        obtain ⟨rfl, hb'⟩ := List.cons_prefix_cons.1 hb
        cases hs'.symm.trans ht
        exact (ih (hstep _ _ _ h0 hc ht)).1 ⟨u, h⟩ _ hb' v hv
    · intro h
      have hc : C s a := by
        by_contra hc
        exact hfail s a t h0 hc ht (h [a] ⟨as, rfl⟩ t (single ht trivial))
      obtain ⟨u, hu⟩ := (ih (hstep _ _ _ h0 hc ht)).2 fun bs hb v hv =>
        h (a :: bs) (List.cons_prefix_cons.2 ⟨rfl, hb⟩) v (.cons ht trivial hv)
      exact ⟨u, .cons ht hc hu⟩

end Steps

/-- The states runs from `init` reach. -/
def Reach (step : S → A → Option S) (C : S → A → Prop) (init s : S) : Prop :=
  ∃ as, Steps step C init as s

theorem Reach.inv {I : S → Prop} {init s : S} (h : Reach step C init s) (h0 : I init)
    (hstep : ∀ s a t, I s → C s a → step s a = some t → I t) : I s := by
  obtain ⟨as, h⟩ := h
  exact h.inv hstep h0

theorem Reach.steps {init s t : S} {as : List A} (h : Reach step C init s)
    (hs : Steps step C s as t) : Reach step C init t := by
  obtain ⟨bs, hb⟩ := h
  exact ⟨bs ++ as, hb.trans hs⟩

/-! ## What a run shows -/

section
variable {O : Type*}

/-- What the steps over the labels show, one after the other: `obs` is read at the
state before the step and the state after it. -/
def observe (step : S → A → Option S) (obs : S → A → S → List O) : S → List A → List O
  | _, [] => []
  | s, a :: as => (step s a).elim [] fun t => obs s a t ++ observe step obs t as

variable {obs : S → A → S → List O}

theorem observe_cons {s t : S} {a : A} (h : step s a = some t) (as : List A) :
    observe step obs s (a :: as) = obs s a t ++ observe step obs t as := by
  rw [observe, h, Option.elim_some]

theorem Steps.inv_observe {I : S → List O → Prop}
    (hstep : ∀ s l a t, I s l → C s a → step s a = some t → I t (l ++ obs s a t)) {s t : S}
    {as : List A} (h : Steps step C s as t) {l : List O} (h0 : I s l) :
    I t (l ++ observe step obs s as) := by
  induction h generalizing l with
  | refl => rw [observe, List.append_nil]; exact h0
  | cons hs hc _ ih =>
    rw [observe_cons hs, ← List.append_assoc]
    exact ih (hstep _ _ _ _ h0 hc hs)

/-- Two ways to look at a run that agree on every step agree on the run. -/
theorem observe_filterMap {O' P : Type*} {obs' : S → A → S → List O'} (f : O → Option P)
    (g : O' → Option P) (h : ∀ s a t, step s a = some t →
      (obs s a t).filterMap f = (obs' s a t).filterMap g) (s : S) (as : List A) :
    (observe step obs s as).filterMap f = (observe step obs' s as).filterMap g := by
  induction as generalizing s with
  | nil => rfl
  | cons a as ih =>
    unfold observe
    cases hs : step s a with
    | none => rfl
    | some t => simp only [Option.elim_some, List.filterMap_append, h s a t hs, ih]

theorem Steps.observe_map {B : Type*} {step' : S → B → Option S} {obs' : S → B → S → List O}
    (f : A → B) (h : ∀ s a t, C s a → step s a = some t →
      step' s (f a) = some t ∧ obs s a t = obs' s (f a) t) {s t : S} {as : List A}
    (hs : Steps step C s as t) : observe step obs s as = observe step' obs' s (as.map f) := by
  induction hs with
  | refl => rfl
  | cons hs hc _ ih =>
    obtain ⟨hs', ho⟩ := h _ _ _ hc hs
    rw [List.map_cons, observe_cons hs, observe_cons hs', ho, ih]

end

section
variable [∀ s a, Decidable (C s a)]

variable (step C) in
/-- Run the labels, as long as each step is possible and meets `C`. -/
def exec : S → List A → Option S
  | s, [] => some s
  | s, a :: as => if C s a then (step s a).bind fun t => exec t as else none

theorem steps_of_exec {s t : S} {as : List A} (h : exec step C s as = some t) :
    Steps step C s as t := by
  induction as generalizing s with
  | nil => cases h; exact .refl _
  | cons a as ih =>
    rw [exec] at h
    split at h
    · next hc =>
      obtain ⟨u, hu, h⟩ := Option.bind_eq_some_iff.1 h
      exact .cons hu hc (ih h)
    · cases h

/-- A run written as labels with their repetitions. -/
def script (l : List (Nat × A)) : List A := l.flatMap fun p => List.replicate p.1 p.2

variable (step C) in
/-- A property of the state a computed run ends in, as an existential over
runs. -/
theorem reach_of_exec (init : S) (as : List A) (P : S → Bool)
    (h : (exec step C init as).any P = true) : ∃ t, Reach step C init t ∧ P t = true := by
  obtain ⟨t, ht, hp⟩ := (Option.any_eq_true P (exec step C init as)).1 h
  exact ⟨t, ⟨as, steps_of_exec ht⟩, hp⟩

end

end RobotPws.Lib
