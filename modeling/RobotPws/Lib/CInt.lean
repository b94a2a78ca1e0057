import Mathlib.Data.List.Basic
import Mathlib.Tactic.Common
import Mathlib.Tactic.Ring
import RobotPws.Lib.Lines

/-!
# 32-bit integers and decimal text

`int` on a 32-bit machine: `wrap32` for arithmetic that wraps around, the
truncated division of C is `Int.tdiv` and `Int.tmod`. `atoi` is the C library's
function: white space, a sign, the leading digits, clamped as `strtol` does.
-/

namespace RobotPws.Lib

/-- The value of a 32-bit `int` after an operation with result `v`, as the machine has it; where `v`
is no `int` it is undefined in C. -/
def wrap32 (v : Int) : Int := Int.bmod v (2 ^ 32)

theorem wrap32_of_lt {v : Int} (h0 : -2 ^ 31 ≤ v) (h1 : v < 2 ^ 31) : wrap32 v = v := by
  unfold wrap32
  rw [Int.bmod_eq_of_le_mul_two] <;> omega

def isSpace (c : UInt8) : Bool := c == 32 || (9 ≤ c && c ≤ 13)

def isDigit (c : UInt8) : Bool := 48 ≤ c && c ≤ 57

/-- The value of a digit string read after `acc`. -/
def digitsFrom (acc : Nat) (ds : List UInt8) : Nat :=
  ds.foldl (fun v d => v * 10 + (d.toNat - 48)) acc

/-- The value of a digit string. -/
def digitsVal (ds : List UInt8) : Nat := digitsFrom 0 ds

/-- An optional sign and what follows it. -/
def signed : List UInt8 → Bool × List UInt8
  | 45 :: s => (true, s)
  | 43 :: s => (false, s)
  | s => (false, s)

/-- `strtol` clamps to the range of a 32-bit `long`. -/
def clamp32 (v : Int) : Int := max (-2 ^ 31) (min (2 ^ 31 - 1) v)

def atoi (s : List UInt8) : Int :=
  let (neg, s) := signed (s.dropWhile isSpace)
  let v : Int := digitsVal (s.takeWhile isDigit)
  clamp32 (if neg then -v else v)

theorem le_digitsFrom (acc : Nat) (ds : List UInt8) : acc * 10 ^ ds.length ≤ digitsFrom acc ds := by
  induction ds generalizing acc with
  | nil => rw [List.length_nil, Nat.pow_zero, Nat.mul_one]; exact Nat.le_refl _
  | cons d ds ih =>
    calc acc * 10 ^ (d :: ds).length
        = acc * 10 * 10 ^ ds.length := by rw [List.length_cons, Nat.pow_succ]; ring
      _ ≤ (acc * 10 + (d.toNat - 48)) * 10 ^ ds.length :=
          Nat.mul_le_mul_right _ (Nat.le_add_right _ _)
      _ ≤ digitsFrom (acc * 10 + (d.toNat - 48)) ds := ih _

theorem isSpace_of_isDigit {d : UInt8} (hd : isDigit d = true) : isSpace d = false := by
  simp only [isDigit, Bool.and_eq_true, decide_eq_true_eq, UInt8.le_iff_toNat_le] at hd
  simp only [isSpace, Bool.or_eq_false_iff, beq_eq_false_iff_ne, Bool.and_eq_false_iff,
    decide_eq_false_iff_not, UInt8.le_iff_toNat_le, ne_eq, ← UInt8.toNat_inj]
  have h48 := hd.1
  have hlit : (48 : UInt8).toNat = 48 := rfl
  have h13 : (13 : UInt8).toNat = 13 := rfl
  have h32 : (32 : UInt8).toNat = 32 := rfl
  exact ⟨by omega, .inr (by omega)⟩

theorem signed_of_isDigit {d : UInt8} (hd : isDigit d = true) (s : List UInt8) :
    signed (d :: s) = (false, d :: s) := by
  unfold signed
  split
  · next h => cases h; exact absurd hd (by decide)
  · next h => cases h; exact absurd hd (by decide)
  · rfl

theorem takeWhile_isDigit {s rest : List UInt8} (hs : ∀ c ∈ s, isDigit c = true)
    (hrest : ∀ c ∈ rest.head?, isDigit c = false) : (s ++ rest).takeWhile isDigit = s := by
  rw [List.takeWhile_append_of_pos hs]
  cases rest with
  | nil => exact List.append_nil s
  | cons c rest => rw [List.takeWhile_cons, hrest c rfl]; exact List.append_nil s

/-- A text that starts with a digit has its leading digits as its value. -/
theorem atoi_digits {d : UInt8} {s rest : List UInt8} (hd : isDigit d = true)
    (hs : ∀ c ∈ s, isDigit c = true) (hrest : ∀ c ∈ rest.head?, isDigit c = false) :
    atoi (d :: s ++ rest) = clamp32 (digitsVal (d :: s)) := by
  have htake : (d :: (s ++ rest)).takeWhile isDigit = d :: s :=
    takeWhile_isDigit (List.forall_mem_cons.2 ⟨hd, hs⟩) hrest
  have hdrop : (d :: (s ++ rest)).dropWhile isSpace = d :: (s ++ rest) := by
    rw [List.dropWhile_cons, isSpace_of_isDigit hd]
    rfl
  unfold atoi
  rw [List.cons_append, hdrop, signed_of_isDigit hd]
  dsimp only
  rw [htake]
  rfl

end RobotPws.Lib
