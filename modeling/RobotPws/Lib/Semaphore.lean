import Mathlib.Algebra.Order.Ring.Nat
import Mathlib.Data.List.Basic
import Mathlib.Logic.Function.Basic
import Mathlib.Tactic.Common

/-!
# A counting semaphore

What a semaphore is for, without a scheduler: it has tokens or a queue of those who wait for one,
first come, first served. Whoever waits is answered once: he has got a token, his time is up, or the
semaphore has been reset. `forget` drops an answer that is no longer of interest.

No token gets lost and none is made up (`tokens`): those given and those left are those there were
and those signalled.
-/

namespace RobotPws.Lib

open Function

inductive Answer where
  | ok
  | timeout
  | reset
  deriving DecidableEq, Repr

inductive SemEvent (τ : Type*) where
  | wait (t : τ)
  /-- Wait, if there is a token. -/
  | poll (t : τ)
  | signal
  | timeout (t : τ)
  | reset (c : Nat)
  | forget (t : τ)

@[ext] structure Semaphore (τ : Type*) where
  value : Nat
  waiting : List τ
  answer : τ → Option Answer

namespace Semaphore

variable {τ : Type*} [DecidableEq τ] {s : Semaphore τ} {es : List (SemEvent τ)} {t : τ}

def init (c : Nat) : Semaphore τ := ⟨c, [], fun _ => none⟩

/-- All of `l` are answered. -/
def answerAll (l : List τ) (a : Answer) (f : τ → Option Answer) : τ → Option Answer :=
  fun t => if t ∈ l then some a else f t

def step (s : Semaphore τ) : SemEvent τ → Semaphore τ
  | .wait t => match s.value with
    | 0 => { s with waiting := s.waiting ++ [t], answer := update s.answer t none }
    | v + 1 => { s with value := v, answer := update s.answer t (some .ok) }
  | .poll t => match s.value with
    | 0 => { s with answer := update s.answer t (some .timeout) }
    | v + 1 => { s with value := v, answer := update s.answer t (some .ok) }
  | .signal => match s.waiting with
    | [] => { s with value := s.value + 1 }
    | t :: l => { s with waiting := l, answer := update s.answer t (some .ok) }
  | .timeout t =>
    { s with waiting := s.waiting.erase t, answer := update s.answer t (some .timeout) }
  | .reset c => ⟨c, [], answerAll s.waiting .reset s.answer⟩
  | .forget t => { s with answer := update s.answer t none }

def run (s : Semaphore τ) (es : List (SemEvent τ)) : Semaphore τ := es.foldl step s

theorem run_append (s : Semaphore τ) (es fs : List (SemEvent τ)) :
    s.run (es ++ fs) = (s.run es).run fs := List.foldl_append ..

/-- A token is given. -/
def gives (s : Semaphore τ) : SemEvent τ → Nat
  | .wait _ | .poll _ => if s.value = 0 then 0 else 1
  | .signal => if s.waiting = [] then 0 else 1
  | _ => 0

/-- The tokens given in a run. -/
def given : Semaphore τ → List (SemEvent τ) → Nat
  | _, [] => 0
  | s, e :: es => s.gives e + (s.step e).given es

def signals (es : List (SemEvent τ)) : Nat :=
  (es.map fun e => match e with | .signal => 1 | _ => 0).sum

/-- Nobody waits while there is a token. -/
def Fair (s : Semaphore τ) : Prop := s.value = 0 ∨ s.waiting = []

theorem Fair.step (h : s.Fair) (e : SemEvent τ) : (s.step e).Fair := by
  cases e with
  | wait t =>
    unfold Semaphore.step
    cases hv : s.value with
    | zero => exact .inl rfl
    | succ v => exact .inr (h.resolve_left (by omega))
  | poll t =>
    unfold Semaphore.step
    cases hv : s.value with
    | zero => exact .inl rfl
    | succ v => exact .inr (h.resolve_left (by omega))
  | signal =>
    unfold Semaphore.step
    cases hw : s.waiting with
    | nil => exact .inr rfl
    | cons t l => exact .inl (h.resolve_right (by rw [hw]; simp))
  | timeout t =>
    refine h.imp id fun hw => ?_
    show s.waiting.erase t = []
    rw [hw]
    rfl
  | reset c => exact .inr rfl
  | forget t => exact h

theorem Fair.run (h : s.Fair) (es : List (SemEvent τ)) : (s.run es).Fair := by
  induction es generalizing s with
  | nil => exact h
  | cons e es ih => exact ih (h.step e)

theorem tokens_step (s : Semaphore τ) {e : SemEvent τ} (he : ∀ c, e ≠ .reset c) :
    (s.step e).value + s.gives e = s.value + signals [e] := by
  cases e with
  | wait t =>
    unfold step gives
    cases s.value <;> simp [signals]
  | poll t =>
    unfold step gives
    cases s.value <;> simp [signals]
  | signal =>
    unfold step gives
    cases hw : s.waiting <;> simp [signals]
  | timeout t => rfl
  | reset c => exact (he c rfl).elim
  | forget t => rfl

theorem tokens (s : Semaphore τ) (he : ∀ c, .reset c ∉ es) :
    (s.run es).value + s.given es = s.value + signals es := by
  induction es generalizing s with
  | nil => rfl
  | cons e es ih =>
    have h1 := s.tokens_step (e := e) fun c hc => he c (hc ▸ List.mem_cons_self)
    have h2 := ih (s.step e) fun c hc => he c (List.mem_cons_of_mem _ hc)
    have hs : signals (e :: es) = signals [e] + signals es := by
      simp [signals]
    rw [hs, given]
    show ((s.step e).run es).value + _ = _
    omega

end Semaphore

end RobotPws.Lib
