import RobotPws.Kernel.Queues

/-!
# The serial driver SD2 and its interrupt

The driver with its two queues, the two interrupt-enable bits of CR1 that the
driver toggles, and its only event listener: `wifly_el` of the wifly thread,
registered with mask 1 once `wifly_loop` has started. `epending` is bit 1 of
that thread's pending events.

`serveInterrupt` follows `serve_interrupt` on the values read from SR and DR.
No thread runs while it does, so it is one operation.

Three fields are bookkeeping that no operation reads: `tx` (the bytes given to
the transmitter), `wire` (the bytes taken from the receiver, whose positions
number the bytes of the input queue) and `errs` (how many receive errors have
been reported).

The flag values are those of `io_channel.h` and `serial.h`; `hasFlag` is the test
`flags & mask` of the source.
-/

namespace RobotPws.Hal

open RobotPws.Kernel

abbrev FlagsMask := BitVec 32

def chnInputAvailable : FlagsMask := 4
def chnOutputEmpty : FlagsMask := 8
def chnTransmissionEnd : FlagsMask := 16

def sdParityError : FlagsMask := 32
def sdFramingError : FlagsMask := 64
def sdOverrunError : FlagsMask := 128
def sdNoiseError : FlagsMask := 256
def sdBreakDetected : FlagsMask := 512

/-- `flags & mask`, as a condition. -/
def hasFlag (flags mask : FlagsMask) : Bool := flags &&& mask != 0

@[simp] theorem hasFlag_zero (m : FlagsMask) : hasFlag 0#32 m = false := by
  simp [hasFlag]

@[simp] theorem hasFlag_or (f g m : FlagsMask) :
    hasFlag (f ||| g) m = (hasFlag f m || hasFlag g m) := by
  have h : (f ||| g) &&& m = (f &&& m) ||| (g &&& m) := by
    rw [BitVec.and_comm, BitVec.and_or_distrib_left, BitVec.and_comm m f, BitVec.and_comm m g]
  rw [Bool.eq_iff_iff]
  simp only [hasFlag, h, bne_iff_ne, ne_eq, Bool.or_eq_true, BitVec.ofNat_eq_ofNat,
    BitVec.or_eq_zero_iff]
  tauto

def serialBuffersSize : Nat := 1024

/-- A received byte and its number on the wire. -/
structure Rx where
  byte : UInt8
  seq : Nat
  deriving DecidableEq, Repr

/-- The bits of the status register. -/
structure SR where
  ore : Bool := false
  ne : Bool := false
  fe : Bool := false
  pe : Bool := false
  lbd : Bool := false
  rxne : Bool := false
  txe : Bool := false
  tc : Bool := false
  deriving DecidableEq, Repr

/-- No error bit is set. -/
def SR.clean (sr : SR) : Bool := !(sr.ore || sr.ne || sr.fe || sr.pe || sr.lbd)

/-- The bits of CR1 the driver changes. -/
structure CR1 where
  txeie : Bool
  tcie : Bool
  deriving DecidableEq, Repr

structure SerialDriver where
  iqueue : GenericQueue Rx serialBuffersSize
  oqueue : GenericQueue UInt8 serialBuffersSize
  cr1 : CR1
  /-- `wifly_el` is registered on the driver's event source. -/
  registered : Bool
  elFlags : FlagsMask
  epending : Bool
  tx : List UInt8
  wire : List UInt8
  errs : Nat

namespace SerialDriver

/-- After `sdStart`. -/
def start : SerialDriver where
  iqueue := .chIQInit ⟨0, 0⟩
  oqueue := .chOQInit 0
  cr1 := ⟨false, false⟩
  registered := false
  elFlags := 0
  epending := false
  tx := []
  wire := []
  errs := 0

/-- `chEvtRegisterMask(&event, &wifly_el, 1)`. -/
def chEvtRegisterMask (d : SerialDriver) : SerialDriver :=
  { d with registered := true, elFlags := 0 }

/-- `chEvtBroadcastFlagsI` over the driver's listeners. -/
def chnAddFlagsI (d : SerialDriver) (flags : FlagsMask) : SerialDriver :=
  if d.registered then { d with elFlags := d.elFlags ||| flags, epending := true } else d

/-- `chEvtGetAndClearFlags(&wifly_el)`. -/
def chEvtGetAndClearFlags (d : SerialDriver) : FlagsMask × SerialDriver :=
  (d.elFlags, { d with elFlags := 0 })

/-- `chnAddFlagsI` with the flags of a receive error. -/
def addErrorI (d : SerialDriver) (flags : FlagsMask) : SerialDriver :=
  { d.chnAddFlagsI flags with errs := d.errs + 1 }

/-- `set_error`. -/
def setError (d : SerialDriver) (sr : SR) : SerialDriver :=
  d.addErrorI ((if sr.ore then sdOverrunError else 0) ||| (if sr.pe then sdParityError else 0) |||
    (if sr.fe then sdFramingError else 0) ||| (if sr.ne then sdNoiseError else 0))

def sdIncomingDataI (d : SerialDriver) (b : UInt8) : SerialDriver :=
  let rx : Rx := ⟨b, d.wire.length⟩
  let d := { d with wire := d.wire ++ [b] }
  let d := if d.iqueue.chIQIsEmptyI then d.chnAddFlagsI chnInputAvailable else d
  match d.iqueue.chIQPutI rx with
  | some q => { d with iqueue := q }
  | none => d.addErrorI sdOverrunError

/-- The transmit branch: the next byte, or `TXEIE` off and `TCIE` on. -/
def transmitI (d : SerialDriver) : SerialDriver :=
  match d.oqueue.chOQGetI with
  | (some b, q) => { d with oqueue := q, tx := d.tx ++ [b] }
  | (none, _) => { d.chnAddFlagsI chnOutputEmpty with cr1 := ⟨false, true⟩ }

def serveInterrupt (d : SerialDriver) (sr : SR) (dr : UInt8) : SerialDriver :=
  let cr1 := d.cr1
  let d := if sr.ore || sr.ne || sr.fe || sr.pe then d.setError sr else d
  let d := if sr.lbd then d.addErrorI sdBreakDetected else d
  let d := if sr.rxne then d.sdIncomingDataI dr else d
  let d := if cr1.txeie && sr.txe then d.transmitI else d
  -- CR1 is written back from the value read at entry
  if sr.tc then { d.chnAddFlagsI chnTransmissionEnd with cr1 := ⟨cr1.txeie, false⟩ } else d

/-- One locked turn of `chOQWriteTimeout` with `notify2`. -/
def sdWriteByte (d : SerialDriver) (b : UInt8) : Option SerialDriver :=
  (d.oqueue.chOQPut b).map fun q => { d with oqueue := q, cr1 := { d.cr1 with txeie := true } }

/-- `sdGetTimeout(driver, TIME_IMMEDIATE)`. -/
def sdGetTimeout (d : SerialDriver) : Option Rx × SerialDriver :=
  (d.iqueue.chIQGetTimeout.1, { d with iqueue := d.iqueue.chIQGetTimeout.2 })

/-- A store of `chIQResetI(&driver->iqueue)`. -/
def chIQResetI (d : SerialDriver) (k : QReset) : SerialDriver :=
  { d with iqueue := d.iqueue.chIQResetI k }

/-- A store of `chOQResetI(&driver->oqueue)`. -/
def chOQResetI (d : SerialDriver) (k : QReset) : SerialDriver :=
  { d with oqueue := d.oqueue.chOQResetI k }

/-! ## What the operations change -/

@[simp] theorem chnAddFlagsI_iqueue (d : SerialDriver) (f : FlagsMask) :
    (d.chnAddFlagsI f).iqueue = d.iqueue := by
  unfold chnAddFlagsI; split <;> rfl

@[simp] theorem chnAddFlagsI_wire (d : SerialDriver) (f : FlagsMask) :
    (d.chnAddFlagsI f).wire = d.wire := by
  unfold chnAddFlagsI; split <;> rfl

@[simp] theorem chnAddFlagsI_errs (d : SerialDriver) (f : FlagsMask) :
    (d.chnAddFlagsI f).errs = d.errs := by
  unfold chnAddFlagsI; split <;> rfl

@[simp] theorem chnAddFlagsI_registered (d : SerialDriver) (f : FlagsMask) :
    (d.chnAddFlagsI f).registered = d.registered := by
  unfold chnAddFlagsI; split <;> rfl

/-- What a byte does: it is numbered and appended, or lost with an error when
the queue is full; `CHN_INPUT_AVAILABLE` is raised only if the queue was
empty. -/
theorem sdIncomingDataI_cases (d : SerialDriver) (b : UInt8) :
    (∃ q, d.iqueue.chIQPutI ⟨b, d.wire.length⟩ = some q ∧ d.iqueue.qCounter = 0 ∧
      d.sdIncomingDataI b =
        { ({ d with wire := d.wire ++ [b] } : SerialDriver).chnAddFlagsI chnInputAvailable with
          iqueue := q }) ∨
    (∃ q, d.iqueue.chIQPutI ⟨b, d.wire.length⟩ = some q ∧ d.iqueue.qCounter ≠ 0 ∧
      d.sdIncomingDataI b = { d with wire := d.wire ++ [b], iqueue := q }) ∨
    (d.iqueue.chIQPutI ⟨b, d.wire.length⟩ = none ∧ d.iqueue.qCounter ≠ 0 ∧
      d.sdIncomingDataI b =
        ({ d with wire := d.wire ++ [b] } : SerialDriver).addErrorI sdOverrunError) := by
  unfold sdIncomingDataI
  cases hq : d.iqueue.chIQPutI ⟨b, d.wire.length⟩ with
  | none =>
    have hne := GenericQueue.chIQPutI_none hq
    refine .inr (.inr ⟨rfl, hne, ?_⟩)
    simp [GenericQueue.chIQIsEmptyI, hne, hq]
  | some q =>
    by_cases h0 : d.iqueue.qCounter = 0
    · refine .inl ⟨q, rfl, h0, ?_⟩
      simp [GenericQueue.chIQIsEmptyI, h0, hq]
    · refine .inr (.inl ⟨q, rfl, h0, ?_⟩)
      simp [GenericQueue.chIQIsEmptyI, h0, hq]

/-- The interrupt rule: what raising flags other than `CHN_INPUT_AVAILABLE`,
receiving a byte and serving the transmitter each keep, an interrupt keeps. -/
theorem serveInterrupt_keeps (P : SerialDriver → Prop) {sr : SR}
    (hflags : ∀ d f, hasFlag f chnInputAvailable = false → P d → P (d.chnAddFlagsI f))
    (herrs : ∀ d n, P d → P { d with errs := n })
    (hdata : sr.rxne = true → ∀ d b, P d → P (d.sdIncomingDataI b))
    (htx : ∀ d q c t, P d → P { d with oqueue := q, cr1 := c, tx := t })
    {d : SerialDriver} (h : P d) (dr : UInt8) : P (d.serveInterrupt sr dr) := by
  have herr : ∀ d f, hasFlag f chnInputAvailable = false → P d → P (d.addErrorI f) :=
    fun d f hf hd => herrs _ _ (hflags d f hf hd)
  have hset : ∀ d, P d → P (d.setError sr) := by
    intro d hd
    refine herr d _ ?_ hd
    cases sr.ore <;> cases sr.pe <;> cases sr.fe <;> cases sr.ne <;> decide
  have hif : ∀ (c : Bool) (d d' : SerialDriver), (c = true → P d') → P d →
      P (if c then d' else d) := by
    intro c d d' h1 h2; cases c
    · exact h2
    · exact h1 rfl
  have htr : ∀ d, P d → P d.transmitI := by
    intro d hd
    unfold transmitI
    split
    · exact htx d _ d.cr1 _ hd
    · exact htx _ _ _ _ (hflags d _ (by decide) hd)
  have h1 := hif (sr.ore || sr.ne || sr.fe || sr.pe) d (d.setError sr) (fun _ => hset _ h) h
  have h2 := hif sr.lbd _ _ (fun _ => herr _ sdBreakDetected (by decide) h1) h1
  have h3 := hif sr.rxne _ _ (fun hc => hdata hc _ dr h2) h2
  have h4 := hif (d.cr1.txeie && sr.txe) _ _ (fun _ => htr _ h3) h3
  exact hif sr.tc _ _
    (fun _ => htx _ _ ⟨d.cr1.txeie, false⟩ _ (hflags _ chnTransmissionEnd (by decide) h4)) h4

/-- The interrupt rule without errors: at most one byte is received, then at most one is
transmitted. -/
theorem serveInterrupt_clean {P : SerialDriver → Prop} {d : SerialDriver} {sr : SR} {dr : UInt8}
    (hsr : sr.clean = true) (h : P d) (hdata : sr.rxne = true → P (d.sdIncomingDataI dr))
    (htx : ∀ d, P d → P d.transmitI)
    (htc : ∀ d c, P d → P { d.chnAddFlagsI chnTransmissionEnd with cr1 := c }) :
    P (d.serveInterrupt sr dr) := by
  simp only [SR.clean, Bool.not_eq_true', Bool.or_eq_false_iff] at hsr
  obtain ⟨⟨⟨⟨h1, h2⟩, h3⟩, h4⟩, h5⟩ := hsr
  have hif : ∀ (c : Bool) (d d' : SerialDriver), (c = true → P d') → P d →
      P (if c then d' else d) := by
    intro c d d' h1 h2
    cases c
    · exact h2
    · exact h1 rfl
  simp only [SerialDriver.serveInterrupt, h1, h2, h3, h4, h5, Bool.or_self, Bool.false_eq_true,
    ↓reduceIte]
  have hrx := hif sr.rxne d (d.sdIncomingDataI dr) hdata h
  have htr := hif (d.cr1.txeie && sr.txe) _ _ (fun _ => htx _ hrx) hrx
  exact hif sr.tc _ _ (fun _ => htc _ _ htr) htr

end SerialDriver

end RobotPws.Hal
