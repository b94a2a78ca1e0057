import RobotPws.Heading.Model

/-!
# The reading after failed transfers

Any sequence of calls of `magSetRegisters` and `magGetRegValues` with any outcome of each transfer.
Neither function looks at how its transfer has ended, so this module says what each failure does to
the reading and to the bus.
-/

namespace RobotPws.Heading

open RobotPws.Lib RobotPws.Hal

/-- A call with the outcome of its transfer. -/
inductive Call where
  | setRegisters (t : I2cTransfer 0)
  | getRegValues (t : I2cTransfer 6)

namespace Call

/-- How the call's transfer ends. -/
def rdymsg : Call → RdyMsg
  | setRegisters t => t.rdymsg
  | getRegValues t => t.rdymsg

def run (v : Vars) : Call → Vars
  | setRegisters t => (v.magSetRegisters t).2
  | getRegValues t => (v.magGetRegValues t).2

/-- The bytes of the last transfer of data that succeeded, `last` before this call. -/
def lastGood (last : List UInt8) : Call → List UInt8
  | setRegisters _ => last
  | getRegValues t => if t.rdymsg = .ok then t.received else last

/-- The transfer succeeds, or it has only overwritten bytes with the same ones. -/
def Keeps (last : List UInt8) : Call → Prop
  | setRegisters _ => True
  | getRegValues t => t.rdymsg = .ok ∨ t.received <+: last

end Call

/-- The three values these six bytes stand for. -/
def decoding (bytes : List UInt8) : Int × Int × Int :=
  (bigEndian (bytes.getD 0 0) (bytes.getD 1 0), bigEndian (bytes.getD 4 0) (bytes.getD 5 0),
    bigEndian (bytes.getD 2 0) (bytes.getD 3 0))

def Vars.reading (v : Vars) : Int × Int × Int := (v.xm, v.ym, v.zm)

/-- Each transfer is made with the driver ready, and after each call the values are those of the
last transfer that succeeded. -/
def Sound (v : Vars) (last : List UInt8) : List Call → Prop
  | [] => True
  | c :: cs =>
    v.driver = .ready ∧ (c.run v).reading = decoding (c.lastGood last) ∧
      Sound (c.run v) (c.lastGood last) cs

/-- No transfer that fails overwrites a byte of the last good ones with another one, and no call
comes after a timeout. -/
def Clean (last : List UInt8) : List Call → Prop
  | [] => True
  | c :: cs => c.Keeps last ∧ (c.rdymsg = .timeout → cs = []) ∧ Clean (c.lastGood last) cs

/-- No bytes have been received yet: six zeros. -/
def noBytes : List UInt8 := List.replicate 6 0

theorem eq_six {l : List UInt8} (h : l.length = 6) :
    l = [l.getD 0 0, l.getD 1 0, l.getD 2 0, l.getD 3 0, l.getD 4 0, l.getD 5 0] := by
  match l, h with
  | [_, _, _, _, _, _], _ => rfl

theorem decoding_inj {a b : List UInt8} (ha : a.length = 6) (hb : b.length = 6)
    (h : decoding a = decoding b) : a = b := by
  have hx := bigEndian_inj (congrArg Prod.fst h)
  have hy := bigEndian_inj (congrArg (·.2.1) h)
  have hz := bigEndian_inj (congrArg (·.2.2) h)
  rw [eq_six ha, eq_six hb, hx.1, hx.2, hy.1, hy.2, hz.1, hz.2]

/-- The values are those of the receive buffer, whatever the transfer's outcome. -/
theorem reading_getRegValues (v : Vars) (t : I2cTransfer 6) :
    (v.magGetRegValues t).2.reading = decoding (t.store v.rxbuf).cells := by
  unfold decoding
  rw [← complement2signed_eq, ← complement2signed_eq, ← complement2signed_eq]
  rfl

theorem reading_setRegisters (v : Vars) (t : I2cTransfer 0) :
    (v.magSetRegisters t).2.reading = v.reading ∧ (v.magSetRegisters t).2.rxbuf = v.rxbuf ∧
      (v.magSetRegisters t).2.driver = t.state := by
  unfold Vars.magSetRegisters
  dsimp only
  split <;> exact ⟨rfl, rfl, rfl⟩

theorem driver_run (v : Vars) (c : Call) :
    (c.run v).driver = if c.rdymsg = .timeout then .locked else .ready := by
  cases c with
  | setRegisters t => exact (reading_setRegisters v t).2.2
  | getRegValues t => rfl

/-- The receive buffer holds the last good bytes, and the values are theirs. -/
structure Holding (v : Vars) (last : List UInt8) : Prop where
  rxbuf : v.rxbuf.cells = last
  reading : v.reading = decoding last

theorem Holding.length {v : Vars} {last : List UInt8} (h : Holding v last) : last.length = 6 := by
  rw [← h.rxbuf]
  exact v.rxbuf.size

/-- A call leaves the right values if and only if it keeps the last good bytes. -/
theorem reading_run_iff {v : Vars} {last : List UInt8} (h : Holding v last) (c : Call) :
    (c.run v).reading = decoding (c.lastGood last) ↔ c.Keeps last := by
  cases c with
  | setRegisters t =>
    exact ⟨fun _ => trivial, fun _ => (reading_setRegisters v t).1.trans h.reading⟩
  | getRegValues t =>
    unfold Call.run Call.lastGood Call.Keeps
    dsimp only
    rw [reading_getRegValues]
    by_cases hok : t.rdymsg = .ok
    · rw [if_pos hok, t.store_ok hok]
      exact ⟨fun _ => .inl hok, fun _ => rfl⟩
    · rw [if_neg hok, ← h.rxbuf, ← t.store_eq_iff v.rxbuf]
      constructor
      · intro hdec
        exact .inr (decoding_inj (t.store v.rxbuf).size v.rxbuf.size hdec)
      · rintro (hok' | hcells)
        · exact absurd hok' hok
        · rw [hcells]

theorem holding_run {v : Vars} {last : List UInt8} (h : Holding v last) {c : Call}
    (hc : c.Keeps last) : Holding (c.run v) (c.lastGood last) := by
  refine ⟨?_, (reading_run_iff h c).2 hc⟩
  cases c with
  | setRegisters t =>
    show (v.magSetRegisters t).2.rxbuf.cells = last
    rw [(reading_setRegisters v t).2.1, h.rxbuf]
  | getRegValues t =>
    unfold Call.lastGood
    show (t.store v.rxbuf).cells = _
    dsimp only
    by_cases hok : t.rdymsg = .ok
    · rw [if_pos hok, t.store_ok hok]
    · rw [if_neg hok, (t.store_eq_iff v.rxbuf).2 (h.rxbuf ▸ hc.resolve_left hok), h.rxbuf]

theorem sound_iff {v : Vars} {last : List UInt8} (h : Holding v last) (hready : v.driver = .ready)
    (cs : List Call) : Sound v last cs ↔ Clean last cs := by
  induction cs generalizing v last with
  | nil => exact Iff.rfl
  | cons c cs ih =>
    unfold Sound Clean
    rw [reading_run_iff h c]
    by_cases hc : c.Keeps last
    · have hnext := holding_run h hc
      by_cases hto : c.rdymsg = .timeout
      · -- the driver is locked now
        cases cs with
        | nil => exact ⟨fun _ => ⟨hc, fun _ => rfl, trivial⟩, fun _ => ⟨hready, hc, trivial⟩⟩
        | cons c' cs =>
          refine ⟨fun hs => ?_, fun hcl => absurd (hcl.2.1 hto) (List.cons_ne_nil _ _)⟩
          have hlocked := hs.2.2.1
          rw [driver_run, if_pos hto] at hlocked
          cases hlocked
      · have hdriver : (c.run v).driver = .ready := by rw [driver_run, if_neg hto]
        rw [ih hnext hdriver]
        exact ⟨fun hs => ⟨hc, fun h => absurd h hto, hs.2.2⟩, fun hcl => ⟨hready, hc, hcl.2.2⟩⟩
    · exact ⟨fun hs => absurd hs.2.1 hc, fun hcl => absurd hcl.1 hc⟩

theorem holding_init : Holding .init noBytes := by
  have hzero : bigEndian 0 0 = 0 := by decide
  refine ⟨rfl, ?_⟩
  show ((0 : Int), (0 : Int), (0 : Int)) = (bigEndian 0 0, bigEndian 0 0, bigEndian 0 0)
  rw [hzero]

/-- **A failed transfer corrupts neither the reading nor the bus** if and only if it has overwritten
nothing with something else and, after a timeout, there is no call. -/
theorem reading_sound_iff (cs : List Call) : Sound .init noBytes cs ↔ Clean noBytes cs :=
  sound_iff holding_init rfl cs

/-- A transfer that succeeds and one that fails. -/
def good : Call := .getRegValues ⟨.ok, [0, 1, 0, 2, 0, 3], by decide, fun _ => rfl⟩
def bad : Call := .getRegValues ⟨.reset, [255], by decide, fun h => by cases h⟩

/-- A lost acknowledge after the first byte: `X_m` is -255 and the last good value is 1. -/
theorem reading_not_sound : ¬ ∀ cs : List Call, Sound .init noBytes cs := by
  intro h
  have hclean := (sound_iff holding_init rfl [good, bad]).1 (h _)
  obtain hok | hprefix := hclean.2.2.1
  · cases hok
  · exact absurd hprefix (by decide)

/-- A call after a timeout finds the driver locked. -/
example : ¬ Sound .init noBytes
    [.setRegisters ⟨.timeout, [], by decide, fun h => by cases h⟩, good] := by
  rintro ⟨-, -, hlocked, -⟩
  cases hlocked

end RobotPws.Heading
