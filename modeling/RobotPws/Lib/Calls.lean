import Mathlib.Tactic.Common

/-!
# Calls that may raise

`Call σ ε α` is a call of an imperative program over the state `σ`: it returns
an `α` or raises an `ε`, and what it has written before it raises stays
written. `bind_ok` and `bind_error` run a sequence of calls one by one; `Keeps`
is an invariant of a call however it ends, with a rule for each way to build
calls.
-/

namespace RobotPws.Lib

/-- A call over the state `σ`. -/
structure Call (σ ε α : Type) where
  run : σ → Except ε α × σ

namespace Call

variable {σ ε α β : Type}

instance : Monad (Call σ ε) where
  pure a := ⟨fun s => (.ok a, s)⟩
  bind c f := ⟨fun s =>
    match c.run s with
    | (.ok a, t) => (f a).run t
    | (.error e, t) => (.error e, t)⟩

/-- Read the state. -/
def get : Call σ ε σ := ⟨fun s => (.ok s, s)⟩

/-- Write the state. -/
def modify (f : σ → σ) : Call σ ε Unit := ⟨fun s => (.ok (), f s)⟩

def raise (e : ε) : Call σ ε α := ⟨fun s => (.error e, s)⟩

/-! ## Running -/

@[simp] theorem run_pure (a : α) (s : σ) : (pure a : Call σ ε α).run s = (.ok a, s) := rfl

@[simp] theorem run_modify (f : σ → σ) (s : σ) :
    (modify f : Call σ ε Unit).run s = (.ok (), f s) := rfl

@[simp] theorem run_raise (e : ε) (s : σ) : (raise e : Call σ ε α).run s = (.error e, s) := rfl

variable {c : Call σ ε α} {f : α → Call σ ε β} {s t : σ}

theorem bind_ok {a : α} (h : c.run s = (.ok a, t)) : (c >>= f).run s = (f a).run t := by
  show (match c.run s with
    | (.ok a, t) => (f a).run t
    | (.error e, t) => (.error e, t)) = _
  rw [h]

theorem bind_error {e : ε} (h : c.run s = (.error e, t)) : (c >>= f).run s = (.error e, t) := by
  show (match c.run s with
    | (.ok a, t) => (f a).run t
    | (.error e, t) => (.error e, t)) = _
  rw [h]

theorem get_bind (f : σ → Call σ ε β) (s : σ) : (get >>= f).run s = (f s).run s := rfl

theorem modify_bind (g : σ → σ) (f : Unit → Call σ ε β) (s : σ) :
    (modify g >>= f).run s = (f ()).run (g s) := rfl

/-! ## Invariants -/

/-- `c` keeps `I`, whether it returns or raises. -/
def Keeps (I : σ → Prop) (c : Call σ ε α) : Prop := ∀ s, I s → I (c.run s).2

namespace Keeps

variable {I : σ → Prop}

theorem pure (a : α) : Keeps I (Pure.pure a : Call σ ε α) := fun _ h => h

theorem get : Keeps I (Call.get : Call σ ε σ) := fun _ h => h

theorem modify {g : σ → σ} (h : ∀ s, I s → I (g s)) : Keeps I (Call.modify g : Call σ ε Unit) := h

theorem bind (hc : Keeps I c) (hf : ∀ a, Keeps I (f a)) : Keeps I (c >>= f) := by
  intro s hs
  have ht := hc s hs
  cases h : c.run s with
  | mk r t =>
    rw [h] at ht
    cases r with
    | ok a => rw [bind_ok h]; exact hf a t ht
    | error e => rw [bind_error h]; exact ht

theorem ite {p : Prop} [Decidable p] {c d : Call σ ε α} (hc : Keeps I c) (hd : Keeps I d) :
    Keeps I (if p then c else d) := by
  split
  · exact hc
  · exact hd

end Keeps

end Call

end RobotPws.Lib
