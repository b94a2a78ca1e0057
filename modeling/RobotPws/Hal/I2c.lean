import RobotPws.Lib.CArray

/-!
# The I2C driver

The state of an `I2CDriver` across `i2cMasterTransmitTimeout`. What the bus does is a parameter: how
a transfer ends, and which bytes of the receive buffer it has overwritten by then.
-/

namespace RobotPws.Hal

open RobotPws.Lib

/-- `i2cstate_t` -/
inductive I2cState where
  | uninit
  | stop
  | ready
  | activeTx
  | activeRx
  | locked
  deriving DecidableEq, Repr

/-- The messages a thread is woken up with. -/
inductive RdyMsg where
  | ok
  | timeout
  | reset
  deriving DecidableEq, Repr

/-- How `i2c_lld_master_transmit_timeout` ends: a prefix of the `rxbytes` bytes has been received,
all of them if there was no error. -/
structure I2cTransfer (rxbytes : Nat) where
  rdymsg : RdyMsg
  received : List UInt8
  fits : received.length ≤ rxbytes
  complete : rdymsg = .ok → received.length = rxbytes

namespace I2cTransfer

variable {n : Nat}

/-- The receive buffer after the transfer. -/
def store (t : I2cTransfer n) (rxbuf : CArray UInt8 n) : CArray UInt8 n :=
  ⟨t.received ++ rxbuf.cells.drop t.received.length, by
    have := t.fits
    rw [List.length_append, List.length_drop, rxbuf.size]
    omega⟩

/-- `i2cp->state` when `i2cMasterTransmitTimeout` returns; it was `I2C_ACTIVE_TX` meanwhile. -/
def state (t : I2cTransfer n) : I2cState := if t.rdymsg = .timeout then .locked else .ready

theorem store_ok {t : I2cTransfer n} (h : t.rdymsg = .ok) (rxbuf : CArray UInt8 n) :
    (t.store rxbuf).cells = t.received := by
  show t.received ++ rxbuf.cells.drop t.received.length = _
  rw [List.drop_of_length_le (by rw [rxbuf.size, t.complete h]), List.append_nil]

/-- The buffer stays as it is if it begins with what was received. -/
theorem store_eq_iff (t : I2cTransfer n) (rxbuf : CArray UInt8 n) :
    (t.store rxbuf).cells = rxbuf.cells ↔ t.received <+: rxbuf.cells := by
  show t.received ++ rxbuf.cells.drop t.received.length = _ ↔ _
  constructor
  · intro h
    rw [← h]
    exact List.prefix_append _ _
  · rintro ⟨rest, h⟩
    rw [← h, List.drop_left]

end I2cTransfer

end RobotPws.Hal
