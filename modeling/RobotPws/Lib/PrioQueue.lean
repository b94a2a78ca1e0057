import Mathlib.Data.List.Sort
import Mathlib.Tactic.Common

/-!
# Queues in falling order of a key

`insertBehind key x l` puts `x` behind every entry whose key is not less than its own,
`insertAhead key x l` ahead of every entry whose key is not greater. Both keep a queue falling
(`Falling`), so that its head has the greatest key. The key of an entry may change: the queue
without that entry stays as it is, and the entry is inserted again (`Falling.reinsert`).
-/

namespace RobotPws.Lib

variable {α : Type*} {key key' : α → Nat} {x y : α} {l : List α}

def insertBehind (key : α → Nat) (x : α) (l : List α) : List α :=
  l.orderedInsert (fun a b => key b < key a) x

def insertAhead (key : α → Nat) (x : α) (l : List α) : List α :=
  l.orderedInsert (fun a b => key b ≤ key a) x

/-- Each entry's key is at least that of every later entry. -/
def Falling (key : α → Nat) (l : List α) : Prop := l.Pairwise fun a b => key b ≤ key a

@[simp] theorem mem_insertBehind : y ∈ insertBehind key x l ↔ y = x ∨ y ∈ l :=
  List.mem_orderedInsert _

@[simp] theorem mem_insertAhead : y ∈ insertAhead key x l ↔ y = x ∨ y ∈ l :=
  List.mem_orderedInsert _

/-- Where a new entry goes: what is ahead of it has no smaller key, what is behind it has a
smaller one. -/
theorem insertBehind_split (h : Falling key l) : ∃ l₁ l₂, l = l₁ ++ l₂ ∧
    insertBehind key x l = l₁ ++ x :: l₂ ∧ (∀ y ∈ l₁, key x ≤ key y) ∧ ∀ y ∈ l₂, key y < key x := by
  induction l with
  | nil => exact ⟨[], [], rfl, rfl, by simp, by simp⟩
  | cons b l ih =>
    obtain ⟨hb, hl⟩ := List.pairwise_cons.1 h
    by_cases hlt : key b < key x
    · refine ⟨[], b :: l, rfl, List.orderedInsert_cons_of_le _ _ hlt, by simp, fun y hy => ?_⟩
      rcases List.mem_cons.1 hy with rfl | hy
      · exact hlt
      · exact Nat.lt_of_le_of_lt (hb y hy) hlt
    · obtain ⟨l₁, l₂, rfl, he, h1, h2⟩ := ih hl
      refine ⟨b :: l₁, l₂, rfl, ?_, fun y hy => ?_, h2⟩
      · show (if key b < key x then _ else _) = _
        rw [if_neg hlt]
        exact congrArg (b :: ·) he
      · rcases List.mem_cons.1 hy with rfl | hy
        · omega
        · exact h1 y hy

theorem insertAhead_split (h : Falling key l) : ∃ l₁ l₂, l = l₁ ++ l₂ ∧
    insertAhead key x l = l₁ ++ x :: l₂ ∧ (∀ y ∈ l₁, key x < key y) ∧ ∀ y ∈ l₂, key y ≤ key x := by
  induction l with
  | nil => exact ⟨[], [], rfl, rfl, by simp, by simp⟩
  | cons b l ih =>
    obtain ⟨hb, hl⟩ := List.pairwise_cons.1 h
    by_cases hle : key b ≤ key x
    · refine ⟨[], b :: l, rfl, List.orderedInsert_cons_of_le _ _ hle, by simp, fun y hy => ?_⟩
      rcases List.mem_cons.1 hy with rfl | hy
      · exact hle
      · exact Nat.le_trans (hb y hy) hle
    · obtain ⟨l₁, l₂, rfl, he, h1, h2⟩ := ih hl
      refine ⟨b :: l₁, l₂, rfl, ?_, fun y hy => ?_, h2⟩
      · show (if key b ≤ key x then _ else _) = _
        rw [if_neg hle]
        exact congrArg (b :: ·) he
      · rcases List.mem_cons.1 hy with rfl | hy
        · omega
        · exact h1 y hy

namespace Falling

/-- An entry between those with no smaller and those with no greater key. -/
theorem insert_between {l₁ l₂ : List α} (h : Falling key (l₁ ++ l₂))
    (h1 : ∀ y ∈ l₁, key x ≤ key y) (h2 : ∀ y ∈ l₂, key y ≤ key x) :
    Falling key (l₁ ++ x :: l₂) := by
  obtain ⟨hl₁, hl₂, hc⟩ := List.pairwise_append.1 h
  refine List.pairwise_append.2 ⟨hl₁, List.pairwise_cons.2 ⟨h2, hl₂⟩, fun a ha b hb => ?_⟩
  rcases List.mem_cons.1 hb with rfl | hb
  · exact h1 a ha
  · exact hc a ha b hb

theorem behind (h : Falling key l) (x : α) : Falling key (insertBehind key x l) := by
  obtain ⟨l₁, l₂, rfl, he, h1, h2⟩ := insertBehind_split (x := x) h
  rw [he]
  exact h.insert_between h1 fun y hy => Nat.le_of_lt (h2 y hy)

theorem ahead (h : Falling key l) (x : α) : Falling key (insertAhead key x l) := by
  obtain ⟨l₁, l₂, rfl, he, h1, h2⟩ := insertAhead_split (x := x) h
  rw [he]
  exact h.insert_between (fun y hy => Nat.le_of_lt (h1 y hy)) h2

theorem head_max {b : α} (h : Falling key (b :: l)) {y : α} (hy : y ∈ b :: l) : key y ≤ key b := by
  rcases List.mem_cons.1 hy with rfl | hy
  · exact Nat.le_refl _
  · exact (List.pairwise_cons.1 h).1 y hy

theorem tail {b : α} (h : Falling key (b :: l)) : Falling key l := (List.pairwise_cons.1 h).2

theorem sublist {l' : List α} (h : Falling key l) (hs : l'.Sublist l) : Falling key l' :=
  List.Pairwise.sublist hs h

theorem congr (h : Falling key l) (he : ∀ y ∈ l, key' y = key y) : Falling key' l :=
  List.Pairwise.imp_of_mem (fun ha hb hab => by rw [he _ ha, he _ hb]; exact hab) h

theorem reinsert [DecidableEq α] (h : Falling key l) (hn : l.Nodup)
    (he : ∀ y ∈ l, y ≠ x → key' y = key y) : Falling key' (insertBehind key' x (l.erase x)) := by
  refine ((h.sublist List.erase_sublist).congr fun y hy => ?_).behind x
  exact he y (List.mem_of_mem_erase hy) (hn.mem_erase_iff.1 hy).1

end Falling

end RobotPws.Lib
