import RobotPws.Gui.Protocol
import RobotPws.Main
import RobotPws.Wifly.Framing

/-!
# The duration of a move

The buttons of `Move` send the value of the time control, a string, where
`send` takes a sequence of arguments: each character of the value becomes an
argument of its own. `duration_iff` says for which values the robot is still
asked to move for as long as the buttons are disabled.
-/

namespace RobotPws.Gui

open RobotPws.Lib RobotPws.Wifly RobotPws.Main

/-! ## The buttons -/

namespace Move

/-- The truth of what `send` returns. -/
def truthy : Value → Bool
  | .bool b => b
  | .str s => s != []

/-- The argument of `after`: for how long the buttons are disabled. -/
def delay (value : Text) : Nat := digitsVal value * 1000

/-- Send the command with the value; `some` is the call of `after`. -/
def press (cmd : Text) (p : Protocol) (value : Text) (rs : List Received) :
    Protocol × Option Nat :=
  let (answer, p) := p.send cmd (value.map fun c => [c]) rs
  (p, if truthy answer then some (delay value) else none)

def up : Protocol → Text → List Received → Protocol × Option Nat := press (ascii "forward")
def down : Protocol → Text → List Received → Protocol × Option Nat := press (ascii "backward")
def left : Protocol → Text → List Received → Protocol × Option Nat := press (ascii "turnLeft")
def right : Protocol → Text → List Received → Protocol × Option Nat := press (ascii "turnRight")

/-- The button for a drive command. -/
def button : Drive → Protocol → Text → List Received → Protocol × Option Nat
  | .forward => up
  | .backward => down
  | .turnLeft => left
  | .turnRight => right

theorem button_eq (d : Drive) : button d = press d.id := by cases d <;> rfl

end Move

namespace Protocol

theorem receive_sent (p : Protocol) (rs : List Received) : (receive p rs).2.sent = p.sent := by
  have hdrop : ∀ p : Protocol, p.drop.sent = p.sent := by
    intro p; unfold drop; split <;> rfl
  induction rs generalizing p with
  | nil => exact hdrop p
  | cons r rs ih =>
    cases r with
    | error => exact hdrop p
    | data d =>
      rw [receive]
      split
      · exact ih _
      · rfl

end Protocol

/-- The bytes a button sends. -/
def emitted (d : Drive) (p : Protocol) (value : Text) (rs : List Received) : Text :=
  (Move.button d p value rs).1.sent.drop p.sent.length

theorem emitted_eq (d : Drive) {p : Protocol} (hp : p.connected = true) (value : Text)
    (rs : List Received) :
    emitted d p value rs = Protocol.line d.id (value.map fun c => [c]) := by
  rw [emitted, Move.button_eq, Move.press, Protocol.send, if_pos hp]
  simp only [Protocol.receive_sent, List.drop_left]

/-- The robot is asked to drive as `d` for the value's seconds, that is for as
many milliseconds as the buttons are disabled. -/
def Agrees (d : Drive) (value : Text) (evs : List Event) : Prop :=
  ∃ id args rest, evs = .call id args :: rest ∧ start id args = .drive d (digitsVal value) ∧
    (Point.drive d (digitsVal value)).result 0 = .act (d.op (Move.delay value)) .ok

/-! ## Decimal strings -/

/-- Digits, the first one not zero. -/
structure Decimal (value : Text) : Prop where
  digits : ∀ c ∈ value, isDigit c = true
  leading : value.head? ≠ some 48

theorem digit_bounds {c : UInt8} (h : isDigit c = true) : 48 ≤ c.toNat ∧ c.toNat ≤ 57 := by
  simp only [isDigit, Bool.and_eq_true, decide_eq_true_eq, UInt8.le_iff_toNat_le] at h
  exact h

namespace Decimal

variable {c : UInt8} {value : Text}

theorem first (h : Decimal (c :: value)) : 49 ≤ c.toNat ∧ c.toNat ≤ 57 := by
  have hc := digit_bounds (h.digits c List.mem_cons_self)
  have hne : c.toNat ≠ 48 := fun e => h.leading (by
    rw [List.head?_cons, show c = 48 from UInt8.toNat_inj.1 e])
  omega

theorem le_val (c : UInt8) (value : Text) :
    (c.toNat - 48) * 10 ^ value.length ≤ digitsVal (c :: value) := by
  rw [digitsVal, digitsFrom, List.foldl_cons, Nat.zero_mul, Nat.zero_add]
  exact le_digitsFrom _ _

theorem length_le (h : Decimal (c :: value)) (hle : digitsVal (c :: value) ≤ 2147) :
    value.length ≤ 3 := by
  by_contra hlen
  have h1 := le_val c value
  have h2 : 10 ^ 4 ≤ 10 ^ value.length := Nat.pow_le_pow_right (by decide) (by omega)
  have h3 : 1 * 10 ^ 4 ≤ (c.toNat - 48) * 10 ^ value.length :=
    Nat.mul_le_mul (by have := h.first; omega) h2
  omega

end Decimal

/-! ## The line and what the robot makes of it -/

/-- The arguments the robot gets: the digits with spaces between them. -/
def spaced (c : UInt8) (value : Text) : Text := c :: value.flatMap fun c => [32, c]

theorem line_eq (d : Drive) (c : UInt8) (value : Text) :
    Protocol.line d.id ((c :: value).map fun c => [c]) =
      (d.id ++ 32 :: spaced c value ++ [13]) ++ [10] := by
  simp [Protocol.line, spaced, crlf, List.flatMap_map]

theorem spaced_bounds {c x : UInt8} {value : Text} (h : Decimal (c :: value))
    (hx : x ∈ spaced c value) : 32 ≤ x.toNat ∧ x.toNat ≤ 57 := by
  rw [spaced, List.mem_cons, List.mem_flatMap] at hx
  rcases hx with rfl | ⟨y, hy, hx⟩
  · have := digit_bounds (h.digits x List.mem_cons_self)
    omega
  · rcases List.mem_cons.1 hx with rfl | hx
    · decide
    · have := digit_bounds (h.digits y (List.mem_cons_of_mem _ hy))
      rw [List.mem_singleton.1 hx]
      omega

theorem length_spaced (c : UInt8) (value : Text) :
    (spaced c value).length = 1 + 2 * value.length := by
  simp [spaced, List.length_flatMap]
  omega

theorem mem_line {d : Drive} {c x : UInt8} {value : Text} (h : Decimal (c :: value))
    (hx : x ∈ d.id ++ 32 :: spaced c value) : x ≠ 0 ∧ x ≠ 10 ∧ x ≠ 13 := by
  have hid : ∀ d : Drive, ∀ x ∈ d.id, x ≠ 0 ∧ x ≠ 10 ∧ x ≠ 13 := by
    intro d x hx
    have hall : (d.id.all fun x => decide (x ≠ 0 ∧ x ≠ 10 ∧ x ≠ 13)) = true := by
      cases d <;> decide
    exact of_decide_eq_true (List.all_eq_true.1 hall x hx)
  rcases List.mem_append.1 hx with hx | hx
  · exact hid d x hx
  · have hb : 32 ≤ x.toNat := by
      rcases List.mem_cons.1 hx with rfl | hx
      · decide
      · exact (spaced_bounds h hx).1
    refine ⟨?_, ?_, ?_⟩ <;> (rintro rfl; exact absurd hb (by decide))

section
variable {d : Drive} {c : UInt8} {value : Text}

theorem text_line (h : Decimal (c :: value)) :
    text (d.id ++ 32 :: spaced c value ++ [13]) = d.id ++ 32 :: spaced c value := by
  rw [text, List.filter_append,
    List.filter_eq_self.2 fun x hx => by simpa using (mem_line h hx).2.2]
  simp

theorem parts_line (d : Drive) (s : Text) :
    idPart (d.id ++ 32 :: s) = d.id ∧ argsPart (d.id ++ 32 :: s) = s := by
  have hid : 32 ∉ d.id := by cases d <;> decide
  rw [idPart, argsPart, before_append_of_not_mem hid, after_append_of_not_mem hid]
  simp [before, after]

theorem lineOk_line (h : Decimal (c :: value)) (hlen : value.length ≤ 3) :
    LineOk (d.id ++ 32 :: spaced c value ++ [13]) := by
  refine ⟨fun hm => ?_, fun hm => ?_, ?_, ?_⟩
  · rcases List.mem_append.1 hm with hm | hm
    · exact (mem_line h hm).2.1 rfl
    · exact absurd (List.mem_singleton.1 hm) (by decide)
  · rcases List.mem_append.1 hm with hm | hm
    · exact (mem_line h hm).1 rfl
    · exact absurd (List.mem_singleton.1 hm) (by decide)
  · rw [text_line h, (parts_line d _).1]
    cases d <;> decide
  · rw [text_line h, (parts_line d _).2, length_spaced]
    omega

theorem start_spaced (h : Decimal (c :: value)) :
    start d.id (spaced c value) = .drive d (c.toNat - 48 : Nat) := by
  have hc := h.first
  have hatoi : atoi (spaced c value) = (c.toNat - 48 : Nat) := by
    have hrest : ∀ x ∈ (value.flatMap fun c => [32, c]).head?, isDigit x = false := by
      cases value with
      | nil => simp
      | cons x value => simp [isDigit]
    have hd := atoi_digits (s := []) (h.digits c List.mem_cons_self) (by simp) hrest
    rw [spaced]
    refine hd.trans ?_
    simp only [digitsVal, digitsFrom, List.foldl_cons, List.foldl_nil, clamp32]
    omega
  rw [start_drive, startDrive, hatoi, if_neg (by omega)]

end

/-! ## Agreement -/

section
variable {σ : Type} (f : Callback σ)

/-- The robot is asked to move for the number of seconds the first digit
stands for. -/
theorem feedAll_emitted (d : Drive) {p : Protocol} (hp : p.connected = true) {c : UInt8}
    {value : Text} (h : Decimal (c :: value)) (hlen : value.length ≤ 3) (rs : List Received)
    {s : LoopState σ} (hs : s.parser.Boundary) (h0 : s.skip = 0) :
    ∃ rest, (feedAll f s (emitted d p (c :: value) rs)).2 =
      .call d.id (spaced c value) :: rest := by
  obtain ⟨q, -, hq⟩ := feedAll_line f hs h0 (lineOk_line (d := d) h hlen)
  have hstatus : isStatusId d.id = false := by cases d <;> decide
  rw [emitted_eq d hp, line_eq, hq, refLine, text_line h, (parts_line d _).1, (parts_line d _).2,
    hstatus]
  exact ⟨_, rfl⟩

/-- **The duration of a move**: the robot moves for as long as the buttons are
disabled exactly when the value has one digit. -/
theorem duration_iff (d : Drive) (p : Protocol) (hp : p.connected = true) (value : Text)
    (hv : Decimal value) (h1 : 1 ≤ digitsVal value) (hmax : digitsVal value ≤ 2147)
    (rs : List Received) (s : LoopState σ) (hs : s.parser.Boundary) (h0 : s.skip = 0) :
    Agrees d value (feedAll f s (emitted d p value rs)).2 ↔ value.length = 1 := by
  obtain ⟨c, value, rfl⟩ : ∃ c v, value = c :: v := by
    cases value with
    | nil => exact absurd h1 (by decide)
    | cons c v => exact ⟨c, v, rfl⟩
  obtain ⟨rest, hevs⟩ := feedAll_emitted f d hp hv (hv.length_le hmax) rs hs h0
  have hc := hv.first
  rw [hevs, Agrees]
  constructor
  · rintro ⟨id, args, rest', he, hstart, -⟩
    obtain ⟨⟨rfl, rfl⟩, -⟩ : (d.id = id ∧ spaced c value = args) ∧ rest = rest' := by
      simpa using he
    rw [start_spaced hv, Point.drive.injEq] at hstart
    by_contra hlen
    -- the first digit alone stands for less than the value
    have hval := Decimal.le_val c value
    have h10 : 10 ^ 1 ≤ 10 ^ value.length :=
      Nat.pow_le_pow_right (by decide) (by rw [List.length_cons] at hlen; omega)
    have hmul := Nat.mul_le_mul_left (c.toNat - 48) h10
    omega
  · intro hlen
    obtain rfl : value = [] := List.length_eq_zero_iff.1 (by simpa using hlen)
    refine ⟨d.id, spaced c [], rest, rfl, ?_, ?_⟩
    · rw [start_spaced hv]
      simp [digitsVal, digitsFrom]
    · rw [Point.result, if_neg (by decide), wrap32_of_lt (by omega) (by omega), Move.delay]
      push_cast
      rfl

end

/-- A connected `Protocol`. -/
def connected : Protocol := { Protocol.new with connected := true }

/-- Seven seconds. -/
theorem duration_seven :
    Agrees .forward (ascii "7") (feedAll (fun (_ : Unit) _ _ => ((), [], .ok))
      ⟨(), .init, 0, []⟩ (emitted .forward connected (ascii "7") [.data okMsg])).2 :=
  (duration_iff _ .forward connected rfl (ascii "7") ⟨List.all_eq_true.1 rfl, by decide⟩
    (by decide) (by decide) [.data okMsg] ⟨(), .init, 0, []⟩ ⟨rfl, rfl, rfl⟩ rfl).2 rfl

/-- Twelve seconds become one, while the buttons are disabled for twelve. -/
theorem duration_twelve :
    (feedAll (fun (_ : Unit) _ _ => ((), [], .ok))
      ⟨(), .init, 0, []⟩ (emitted .forward connected (ascii "12") [.data okMsg])).2 =
      [.call (ascii "forward") (ascii "1 2"), .reply okMsg] ∧
    start (ascii "forward") (ascii "1 2") = .drive .forward 1 ∧
    (Move.up connected (ascii "12") [.data okMsg]).2 = some 12000 ∧
    ¬ Agrees .forward (ascii "12") [.call (ascii "forward") (ascii "1 2"), .reply okMsg] := by
  refine ⟨by decide +kernel, by decide, by decide, ?_⟩
  rintro ⟨id, args, rest, he, hstart, -⟩
  obtain ⟨⟨rfl, rfl⟩, -⟩ : (ascii "forward" = id ∧ ascii "1 2" = args) ∧ [.reply okMsg] = rest := by
    simpa using he
  exact absurd hstart (by decide)

end RobotPws.Gui
