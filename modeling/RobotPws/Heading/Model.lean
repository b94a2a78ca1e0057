import RobotPws.Hal.I2c

/-!
# The heading sensors

`serv_heading.c`: the magnetometer behind the I2C driver, with the static receive buffer of
`magGetRegValues`, and the accelerometer, whose registers are read over SPI. `getHeading` computes a
heading from both, but returns `X_a`; the computation is left out.
-/

namespace RobotPws.Heading

open RobotPws.Lib RobotPws.Hal

/-- `(int8_t)` -/
def int8 (v : Int) : Int := Int.bmod v (2 ^ 8)

/-- `(int16_t)` -/
def int16 (v : Int) : Int := Int.bmod v (2 ^ 16)

/-- `complement2signed`; `~word` is an `int`. -/
def complement2signed (msb lsb : UInt8) : Int :=
  let word : Int := (msb.toNat * 2 ^ 8 + lsb.toNat) % 2 ^ 16
  if 0x7F < msb.toNat then int16 (-1 * int16 (-word - 1 + 1)) else int16 word

structure Vars where
  /-- the state of `driver` -/
  driver : I2cState
  status : RdyMsg
  /-- `rxbuf` of `magGetRegValues` -/
  rxbuf : CArray UInt8 6
  xm : Int
  ym : Int
  zm : Int
  xa : Int
  ya : Int
  za : Int

namespace Vars

/-- After `magSetup` and `memsSetup`. -/
def init : Vars := ⟨.ready, .ok, .fill 6 0, 0, 0, 0, 0, 0, 0⟩

/-- `magSetRegisters`; nothing is received. -/
def magSetRegisters (v : Vars) (t : I2cTransfer 0) : Int × Vars :=
  let v := { v with status := t.rdymsg, driver := t.state }
  if v.status ≠ .ok then (-1, v) else (0, v)

/-- `magGetRegValues` -/
def magGetRegValues (v : Vars) (t : I2cTransfer 6) : Int × Vars :=
  let v := { v with status := t.rdymsg, driver := t.state, rxbuf := t.store v.rxbuf }
  let rxbuf (i : Nat) := v.rxbuf.cells.getD i 0
  (0, { v with
    xm := complement2signed (rxbuf 0) (rxbuf 1)
    ym := complement2signed (rxbuf 4) (rxbuf 5)
    zm := complement2signed (rxbuf 2) (rxbuf 3) })

/-- `memsGetRegValues` on the bytes of the three registers. -/
def memsGetRegValues (v : Vars) (x y z : UInt8) : Int × Vars :=
  (0, { v with xa := int8 x.toNat, ya := int8 y.toNat, za := int8 z.toNat })

/-- `getHeading` -/
def getHeading (v : Vars) (t : I2cTransfer 6) (x y z : UInt8) : Int × Vars :=
  let v := (v.magGetRegValues t).2
  let v := (v.memsGetRegValues x y z).2
  (v.xa, v)

end Vars

/-- Two bytes, the first one more significant, as a number in two's complement. -/
def bigEndian (msb lsb : UInt8) : Int :=
  if msb.toNat * 256 + lsb.toNat < 2 ^ 15 then msb.toNat * 256 + lsb.toNat
  else msb.toNat * 256 + lsb.toNat - 2 ^ 16

theorem int16_eq (v : Int) :
    int16 v = if v % 65536 < 32768 then v % 65536 else v % 65536 - 65536 := Int.bmod_def v _

/-- The two branches are the two signs; `-32768` overflows twice and comes out right. -/
theorem complement2signed_eq (msb lsb : UInt8) : complement2signed msb lsb = bigEndian msb lsb := by
  have hm := msb.toNat_lt
  have hl := lsb.toNat_lt
  unfold complement2signed bigEndian
  dsimp only
  rw [int16_eq, int16_eq, int16_eq]
  by_cases hneg : 0x7F < msb.toNat
  · rw [if_pos hneg, if_neg (by omega : ¬ msb.toNat * 256 + lsb.toNat < 2 ^ 15)]
    by_cases hmin : msb.toNat * 256 + lsb.toNat = 2 ^ 15 <;> split <;> split <;> omega
  · rw [if_neg hneg, if_pos (by omega : msb.toNat * 256 + lsb.toNat < 2 ^ 15)]
    split <;> omega

theorem bigEndian_inj {a b c d : UInt8} (h : bigEndian a b = bigEndian c d) : a = c ∧ b = d := by
  have ha := a.toNat_lt
  have hb := b.toNat_lt
  have hc := c.toNat_lt
  have hd := d.toNat_lt
  rw [← UInt8.toNat_inj, ← UInt8.toNat_inj]
  unfold bigEndian at h
  split at h <;> split at h <;> omega

theorem getHeading_eq (v : Vars) (t : I2cTransfer 6) (x y z : UInt8) :
    (v.getHeading t x y z).1 = if x.toNat < 128 then (x.toNat : Int) else x.toNat - 256 := by
  have hx := x.toNat_lt
  unfold Vars.getHeading Vars.memsGetRegValues
  dsimp only
  rw [int8, Int.bmod_def]
  split <;> split <;> omega

end RobotPws.Heading
