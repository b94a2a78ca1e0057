import RobotPws.Lib.CArray
import RobotPws.Lib.Lines

/-!
# The line parser of `wifly_loop`

The locals `i`, `j`, `read_id`, `id[16]` and `args[1024]` of `wifly_loop` and
what one character read from the serial line does to them, up to the message
or the callback it leads to (`Verdict`).

The cells of the two buffers are of any type with a `char` in it, so that the
parser also runs on characters that carry where they came from; `Parser.map`
forgets that and commutes with every operation.
-/

namespace RobotPws.Wifly

open RobotPws.Lib

def chSpace : Int := 32
def chCr : Int := 13
def chLf : Int := 10

/-- The conversion of an `int` to a `char`. -/
def toChar (inn : Int) : UInt8 := UInt8.ofNat (inn % 256).toNat

theorem toChar_ofNat (b : UInt8) : toChar (b.toNat : Int) = b := by
  have h : ((b.toNat : Int) % 256).toNat = b.toNat := by
    have := b.toNat_lt
    omega
  rw [toChar, h, UInt8.ofNat_toNat]

/-- Buffer cells: a character, and a terminator. -/
class CharCell (α : Type) where
  char : α → UInt8
  nul : α
  char_nul : char nul = 0

instance : CharCell UInt8 := ⟨id, 0, rfl⟩

@[simp] theorem char_uint8 (c : UInt8) : CharCell.char c = c := rfl

open CharCell

variable {α : Type} {n : Nat}

section
variable [CharCell α]

/-- The characters of the C string a buffer holds. -/
def cstring (b : CArray α n) : List UInt8 := (b.cstr fun c => char c == 0).map char

/-- `b[k]`; callers read written cells only. -/
def charAt (b : CArray α n) (k : Nat) : UInt8 := (b.cells[k]?).elim 0 char

end

def helloId : List UInt8 := ascii "*HELLO*"

structure Parser (α : Type) where
  i : Nat
  j : Nat
  readId : Bool
  id : CArray α 16
  args : CArray α 1024

/-- What the loop does after a character. -/
inductive Verdict where
  | more
  | overflow
  | hello
  | badStatus
  | command
  deriving DecidableEq, Repr

namespace Parser

/-- At the start of `wifly_loop`. -/
def init [CharCell α] : Parser α := ⟨0, 0, true, .fill 16 nul, .fill 1024 nul⟩

/-- Store the character in `id` or `args`: `inn` is the value read, `c` the
cell it is stored as. -/
def store (p : Parser α) (inn : Int) (c : α) : Parser α :=
  if p.readId then
    if inn = chSpace then { p with readId := false }
    else if inn ≠ chCr ∧ inn ≠ chLf then { p with id := p.id.store p.i c, i := p.i + 1 }
    else p
  else
    if inn ≠ chCr ∧ inn ≠ chLf then { p with args := p.args.store p.j c, j := p.j + 1 }
    else p

/-- `id[i] = args[j] = 0`. -/
def terminate [CharCell α] (p : Parser α) : Parser α :=
  { p with id := p.id.store p.i nul, args := p.args.store p.j nul }

/-- Read next: `i = 0; j = 0; read_id = TRUE`. -/
def restart (p : Parser α) : Parser α := { p with i := 0, j := 0, readId := true }

/-- The overflow test. -/
def full (p : Parser α) : Bool := p.i == 16 || p.j == 1024

/-- `i > 2 && id[0] == '*' && id[i - 1] == '*'`. -/
def isStatus [CharCell α] (p : Parser α) : Bool :=
  decide (2 < p.i) && charAt p.id 0 == 42 && charAt p.id (p.i - 1) == 42

/-- The branches on a terminated line: a status or a message. -/
def lineVerdict [CharCell α] (p : Parser α) : Verdict :=
  if p.isStatus then if cstring p.id = helloId then .hello else .badStatus
  else .command

/-- One character, up to the messages and the callback. -/
def feed [CharCell α] (p : Parser α) (inn : Int) (c : α) : Parser α × Verdict :=
  let p := p.store inn c
  if p.full then (p, .overflow)
  else if inn = chLf then (p.terminate, p.terminate.lineVerdict)
  else (p, .more)

/-- The locals once the verdict has been acted on. -/
def next (p : Parser α) : Verdict → Parser α
  | .more => p
  | _ => p.restart

/-- The cells of the line read so far. -/
def held (p : Parser α) : List α := p.id.cells.take p.i ++ p.args.cells.take p.j

/-- The value is stored as a character. -/
def keeps (p : Parser α) (inn : Int) : Bool :=
  decide (inn ≠ chCr ∧ inn ≠ chLf) && !(p.readId && decide (inn = chSpace))

/-- The text of the line read so far. -/
def lineText (p : Parser UInt8) : List UInt8 :=
  p.id.cells.take p.i ++ if p.readId then [] else 32 :: p.args.cells.take p.j

/-- The cells of the C strings `id` and `args`. -/
def lineCells [CharCell α] (p : Parser α) : List α :=
  p.id.cstr (fun c => char c == 0) ++ p.args.cstr fun c => char c == 0

/-- The counters stay below the overflow limits. -/
structure Ok (p : Parser α) : Prop where
  i : p.i ≤ 15
  j : p.j ≤ 1023

/-- The id has no space in it, and the arguments come after the space. -/
structure Clean [CharCell α] (p : Parser α) : Prop where
  id : ∀ c ∈ p.id.cells.take p.i, char c ≠ 32
  args : p.readId = true → p.j = 0

/-- A line boundary. -/
structure Boundary (p : Parser α) : Prop where
  i : p.i = 0
  j : p.j = 0
  readId : p.readId = true

theorem Boundary.ok {p : Parser α} (h : p.Boundary) : p.Ok :=
  ⟨by rw [h.i]; omega, by rw [h.j]; omega⟩

theorem restart_boundary (p : Parser α) : p.restart.Boundary := ⟨rfl, rfl, rfl⟩

theorem next_boundary (p : Parser α) {v : Verdict} (hv : v ≠ .more) : (p.next v).Boundary := by
  cases v <;> first | exact absurd rfl hv | exact p.restart_boundary

/-! ## One character -/

/-- The cases of a store: the separating space, a character of the id, a
character of the arguments, or a character that is not kept. -/
theorem store_cases (p : Parser α) (inn : Int) (c : α) :
    (p.readId = true ∧ inn = chSpace ∧ p.store inn c = { p with readId := false }) ∨
    (p.readId = true ∧ inn ≠ chSpace ∧ inn ≠ chCr ∧ inn ≠ chLf ∧
      p.store inn c = { p with id := p.id.store p.i c, i := p.i + 1 }) ∨
    (p.readId = false ∧ inn ≠ chCr ∧ inn ≠ chLf ∧
      p.store inn c = { p with args := p.args.store p.j c, j := p.j + 1 }) ∨
    ((inn = chCr ∨ inn = chLf) ∧ p.store inn c = p) := by
  unfold store
  cases hr : p.readId with
  | true =>
    by_cases hs : inn = chSpace
    · exact .inl ⟨rfl, hs, by simp [hs]⟩
    · by_cases hk : inn ≠ chCr ∧ inn ≠ chLf
      · exact .inr (.inl ⟨rfl, hs, hk.1, hk.2, by simp [hs, hk]⟩)
      · exact .inr (.inr (.inr ⟨by tauto, by simp [hs, hk]⟩))
  | false =>
    by_cases hk : inn ≠ chCr ∧ inn ≠ chLf
    · exact .inr (.inr (.inl ⟨rfl, hk.1, hk.2, by simp [hk]⟩))
    · exact .inr (.inr (.inr ⟨by tauto, by simp [hk]⟩))

theorem store_le (p : Parser α) (inn : Int) (c : α) :
    (p.store inn c).i ≤ p.i + 1 ∧ (p.store inn c).j ≤ p.j + 1 := by
  obtain ⟨-, -, hs⟩ | ⟨-, -, -, -, hs⟩ | ⟨-, -, -, hs⟩ | ⟨-, hs⟩ := store_cases p inn c <;>
    rw [hs] <;> simp

theorem Boundary.held {p : Parser α} (h : p.Boundary) : p.held = [] := by
  simp [Parser.held, h.i, h.j]

theorem mem_held_store {p : Parser α} {inn : Int} {c c' : α} (h : c' ∈ (p.store inn c).held) :
    c' ∈ p.held ∨ (c' = c ∧ p.keeps inn = true) := by
  obtain ⟨-, -, hs⟩ | ⟨-, h1, h2, h3, hs⟩ | ⟨hr, h2, h3, hs⟩ | ⟨-, hs⟩ := store_cases p inn c
  · rw [hs] at h; exact .inl h
  · rw [hs] at h
    have hk : p.keeps inn = true := by simp [keeps, h1, h2, h3]
    rcases List.mem_append.1 h with h | h
    · exact (CArray.mem_take_store_succ h).imp (List.mem_append_left _) fun e => ⟨e, hk⟩
    · exact .inl (List.mem_append_right _ h)
  · rw [hs] at h
    have hk : p.keeps inn = true := by simp [keeps, hr, h2, h3]
    rcases List.mem_append.1 h with h | h
    · exact .inl (List.mem_append_left _ h)
    · exact (CArray.mem_take_store_succ h).imp (List.mem_append_right _) fun e => ⟨e, hk⟩
  · rw [hs] at h; exact .inl h

theorem Ok.store {p : Parser α} (h : p.Ok) {inn : Int} {c : α}
    (hf : (p.store inn c).full = false) : (p.store inn c).Ok := by
  have hi := h.i
  have hj := h.j
  simp only [full, Bool.or_eq_false_iff, beq_eq_false_iff_ne] at hf
  obtain ⟨-, -, hs⟩ | ⟨-, -, -, -, hs⟩ | ⟨-, -, -, hs⟩ | ⟨-, hs⟩ := store_cases p inn c <;>
    rw [hs] at hf ⊢
  · exact ⟨hi, hj⟩
  · exact ⟨by simp only at hf ⊢; omega, hj⟩
  · exact ⟨hi, by simp only at hf ⊢; omega⟩
  · exact h

variable [CharCell α]

theorem lineVerdict_ne_more (p : Parser α) : p.lineVerdict ≠ .more := by
  unfold lineVerdict; repeat' split
  all_goals simp

theorem lineVerdict_ne_overflow (p : Parser α) : p.lineVerdict ≠ .overflow := by
  unfold lineVerdict; repeat' split
  all_goals simp

theorem lineVerdict_hello {p : Parser α} :
    p.lineVerdict = .hello ↔ p.isStatus = true ∧ cstring p.id = helloId := by
  unfold lineVerdict
  cases p.isStatus <;> by_cases h : cstring p.id = helloId <;> simp [h]

theorem lineVerdict_command {p : Parser α} : p.lineVerdict = .command ↔ p.isStatus = false := by
  unfold lineVerdict
  cases p.isStatus <;> by_cases h : cstring p.id = helloId <;> simp [h]

theorem feed_cases (p : Parser α) (inn : Int) (c : α) :
    ((p.store inn c).full = true ∧ p.feed inn c = (p.store inn c, .overflow)) ∨
    ((p.store inn c).full = false ∧ inn = chLf ∧
      p.feed inn c = ((p.store inn c).terminate, (p.store inn c).terminate.lineVerdict)) ∨
    ((p.store inn c).full = false ∧ inn ≠ chLf ∧ p.feed inn c = (p.store inn c, .more)) := by
  unfold feed
  cases hf : (p.store inn c).full with
  | true => exact .inl ⟨rfl, by simp only [hf, ↓reduceIte]⟩
  | false =>
    by_cases hl : inn = chLf
    · exact .inr (.inl ⟨rfl, hl, by simp only [hf, Bool.false_eq_true, ↓reduceIte, if_pos hl]⟩)
    · exact .inr (.inr ⟨rfl, hl, by simp only [hf, Bool.false_eq_true, ↓reduceIte, if_neg hl]⟩)

/-- The counters stay in bounds as long as the line does not overflow. -/
theorem Ok.feed {p : Parser α} (h : p.Ok) {inn : Int} {c : α} (hv : (p.feed inn c).2 ≠ .overflow) :
    (p.feed inn c).1.Ok := by
  obtain ⟨-, he⟩ | ⟨hf, -, he⟩ | ⟨hf, -, he⟩ := feed_cases p inn c <;> rw [he] at hv ⊢
  · exact absurd rfl hv
  · exact ⟨(h.store hf).i, (h.store hf).j⟩
  · exact h.store hf

theorem Boundary.clean {p : Parser α} (h : p.Boundary) : p.Clean :=
  ⟨by simp [h.i], fun _ => h.j⟩

/-- The id stays free of spaces, the character stored being the value read. -/
theorem Clean.store {p : Parser α} (h : p.Clean) {inn : Int} {c : α}
    (hc : char c = 32 → inn = chSpace) : (p.store inn c).Clean := by
  obtain ⟨hr, -, hs⟩ | ⟨hr, h1, -, -, hs⟩ | ⟨hr, -, -, hs⟩ | ⟨-, hs⟩ := store_cases p inn c <;>
    rw [hs]
  · exact ⟨h.id, fun hf => by cases hf⟩
  · refine ⟨fun c' hc' => ?_, fun _ => h.args hr⟩
    rcases CArray.mem_take_store_succ hc' with hm | rfl
    · exact h.id c' hm
    · exact fun h32 => h1 (hc h32)
  · exact ⟨h.id, fun hf => by rw [show p.readId = true from hf] at hr; cases hr⟩
  · exact h

theorem Clean.feed {p : Parser α} (h : p.Clean) {inn : Int} {c : α}
    (hc : char c = 32 → inn = chSpace) : (p.feed inn c).1.Clean := by
  have hst := h.store hc
  obtain ⟨-, he⟩ | ⟨-, -, he⟩ | ⟨-, -, he⟩ := feed_cases p inn c <;> rw [he]
  · exact hst
  · refine ⟨fun c' hc' => hst.id c' ?_, hst.args⟩
    rwa [terminate, CArray.take_store_le _ (Nat.le_refl _)] at hc'
  · exact hst

/-! ## The cells of the line -/

theorem held_terminate (p : Parser α) : p.terminate.held = p.held := by
  simp only [held, terminate, CArray.take_store_le _ (Nat.le_refl _)]

theorem mem_held_feed {p : Parser α} {inn : Int} {c c' : α} (h : c' ∈ (p.feed inn c).1.held) :
    c' ∈ p.held ∨ (c' = c ∧ p.keeps inn = true) := by
  obtain ⟨-, he⟩ | ⟨-, -, he⟩ | ⟨-, -, he⟩ := feed_cases p inn c <;> rw [he] at h
  · exact mem_held_store h
  · rw [held_terminate] at h; exact mem_held_store h
  · exact mem_held_store h

/-- Only a newline leads to the callback. -/
theorem feed_command {p : Parser α} {inn : Int} {c : α} (hv : (p.feed inn c).2 = .command) :
    inn = chLf := by
  obtain ⟨-, he⟩ | ⟨-, hl, -⟩ | ⟨-, -, he⟩ := feed_cases p inn c
  · rw [he] at hv; cases hv
  · exact hl
  · rw [he] at hv; cases hv

/-- The strings handed to the callback are made of cells of the line. -/
theorem mem_held_of_mem_lineCells {p : Parser α} {inn : Int} {c c' : α} (hp : p.Ok)
    (hv : (p.feed inn c).2 = .command) (h : c' ∈ (p.feed inn c).1.lineCells) :
    c' ∈ (p.feed inn c).1.held := by
  have hnul : (char (CharCell.nul : α) == 0) = true := by rw [char_nul]; rfl
  obtain ⟨-, he⟩ | ⟨hf, -, he⟩ | ⟨-, -, he⟩ := feed_cases p inn c <;> rw [he] at hv h ⊢
  · cases hv
  · have hok := hp.store hf
    rw [held_terminate]
    rcases List.mem_append.1 h with h | h
    · exact List.mem_append_left _
        (CArray.mem_take_of_mem_cstr_store (Nat.lt_succ_of_le hok.i) hnul h)
    · exact List.mem_append_right _
        (CArray.mem_take_of_mem_cstr_store (Nat.lt_succ_of_le hok.j) hnul h)
  · cases hv

/-! ## Forgetting what a cell carries -/

/-- The same parser over plain characters. -/
def map (p : Parser α) : Parser UInt8 :=
  ⟨p.i, p.j, p.readId, p.id.map char, p.args.map char⟩

theorem Clean.map {p : Parser α} (h : p.Clean) : p.map.Clean := by
  refine ⟨fun c hc => ?_, h.args⟩
  simp only [Parser.map, CArray.map, ← List.map_take] at hc
  obtain ⟨c', hc', rfl⟩ := List.mem_map.1 hc
  exact h.id c' hc'

theorem map_store (p : Parser α) (inn : Int) (c : α) :
    (p.store inn c).map = p.map.store inn (char c) := by
  obtain ⟨hr, hi, hs⟩ | ⟨hr, h1, h2, h3, hs⟩ | ⟨hr, h2, h3, hs⟩ | ⟨hi, hs⟩ :=
    store_cases p inn c <;> rw [hs]
  · simp [map, store, hr, hi]
  · simp [map, store, hr, h1, h2, h3, CArray.map_store]
  · simp [map, store, hr, h2, h3, CArray.map_store]
  · rcases hi with rfl | rfl <;> simp [map, store, chCr, chLf, chSpace]

theorem cstring_map (b : CArray α n) : cstring (b.map char) = cstring b := by
  simp only [cstring, CArray.cstr, CArray.map, char_uint8, List.takeWhile_map, List.map_map]
  rfl

theorem charAt_map (b : CArray α n) (k : Nat) : charAt (b.map char) k = charAt b k := by
  simp only [charAt, CArray.map, List.getElem?_map, Option.elim_map]
  rfl

theorem map_terminate (p : Parser α) : p.terminate.map = p.map.terminate := by
  simp only [terminate, map, CArray.map_store, char_nul]
  rfl

theorem map_lineVerdict (p : Parser α) : p.map.lineVerdict = p.lineVerdict := by
  have hs : p.map.isStatus = p.isStatus := by
    simp only [isStatus, map, charAt_map]
    rfl
  have hid : cstring p.map.id = cstring p.id := cstring_map _
  simp only [lineVerdict, hs, hid]

theorem map_feed (p : Parser α) (inn : Int) (c : α) :
    p.map.feed inn (char c) = ((p.feed inn c).1.map, (p.feed inn c).2) := by
  have hfull : (p.store inn c).map.full = (p.store inn c).full := rfl
  obtain ⟨hf, -⟩ | ⟨hf, hl, -⟩ | ⟨hf, hl, -⟩ := feed_cases p inn c
  · simp only [feed, hfull, hf, ↓reduceIte, ← map_store]
  · simp only [feed, hfull, hf, Bool.false_eq_true, ↓reduceIte, if_pos hl, ← map_store,
      ← map_terminate, map_lineVerdict]
  · simp only [feed, hfull, hf, Bool.false_eq_true, ↓reduceIte, if_neg hl, ← map_store]

end Parser

end RobotPws.Wifly
