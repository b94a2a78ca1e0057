import Mathlib.Tactic.Common

/-!
# The ADC driver

`adc.c`, the helper macros of `adc.h` and the interrupt handlers of `adc_lld.c`. A conversion
group's callbacks act on the state `σ` of the firmware. The samples are what the DMA has stored in
the buffer when the interrupt comes, so an interrupt brings them along. The result is `none` where
a null `grpp` is followed. No thread waits for a conversion: `adcConvert` is not used.
-/

namespace RobotPws.Hal

/-- `adcstate_t` -/
inductive AdcState where
  | uninit
  | stop
  | ready
  | active
  | complete
  | error
  deriving DecidableEq, Repr

/-- `adcerror_t` -/
inductive AdcError where
  | dmaFailure
  | overflow
  deriving DecidableEq, Repr

def AdcError.code : AdcError → Int
  | dmaFailure => 0
  | overflow => 1

/-- `ADCConversionGroup`; `end_cb` gets the samples from a pointer on and their number. -/
structure AdcConversionGroup (σ : Type) where
  circular : Bool
  numChannels : Nat
  endCb : Option (List UInt16 → Nat → σ → Option σ)
  errorCb : Option (AdcError → σ → Option σ)

/-- `ADCDriver` -/
structure AdcDriver (σ : Type) where
  state : AdcState
  depth : Nat
  grpp : Option (AdcConversionGroup σ)

namespace AdcDriver

variable {σ : Type}

/-- `adcObjectInit` -/
def adcObjectInit : AdcDriver σ := ⟨.stop, 0, none⟩

/-- `adcStart` -/
def adcStart (adcp : AdcDriver σ) : AdcDriver σ := { adcp with state := .ready }

/-- What `adcStartConversionI` asserts about the state. -/
def Startable (adcp : AdcDriver σ) : Prop :=
  adcp.state = .ready ∨ adcp.state = .complete ∨ adcp.state = .error

instance (adcp : AdcDriver σ) : Decidable adcp.Startable := inferInstanceAs (Decidable (_ ∨ _))

/-- `adc_lld_start_conversion`: it reads the group. -/
def lldStartConversion (adcp : AdcDriver σ) : Option (AdcDriver σ) :=
  match adcp.grpp with
  | none => none
  | some _ => some adcp

/-- `adcStartConversionI` -/
def adcStartConversionI (adcp : AdcDriver σ) (grpp : AdcConversionGroup σ) (depth : Nat) :
    Option (AdcDriver σ) :=
  lldStartConversion { adcp with depth := depth, grpp := some grpp, state := .active }

/-- `adcStopConversionI` -/
def adcStopConversionI (adcp : AdcDriver σ) : AdcDriver σ :=
  if adcp.state ≠ .ready then { adcp with grpp := none, state := .ready } else adcp

/-- `end_cb`, if there is one. -/
def callEnd (g : AdcConversionGroup σ) (buffer : List UInt16) (n : Nat) (s : σ) : Option σ :=
  match g.endCb with
  | none => some s
  | some cb => cb buffer n s

/-- `end_cb` on the second half of the buffer, or on all of it if it has depth 1. -/
def callSecondHalf (adcp : AdcDriver σ) (g : AdcConversionGroup σ) (samples : List UInt16) (s : σ) :
    Option σ :=
  if 1 < adcp.depth then
    let half := adcp.depth / 2
    let halfIndex := half * g.numChannels
    callEnd g (samples.drop halfIndex) half s
  else callEnd g samples adcp.depth s

/-- `_adc_isr_half_code` -/
def isrHalfCode (adcp : AdcDriver σ) (samples : List UInt16) (s : σ) : Option (AdcDriver σ × σ) :=
  match adcp.grpp with
  | none => none
  | some g => (callEnd g samples (adcp.depth / 2) s).map (adcp, ·)

/-- `_adc_isr_full_code` -/
def isrFullCode (adcp : AdcDriver σ) (samples : List UInt16) (s : σ) : Option (AdcDriver σ × σ) :=
  match adcp.grpp with
  | none => none
  | some g =>
    if g.circular then (adcp.callSecondHalf g samples s).map (adcp, ·)
    else
      let adcp := if g.endCb.isSome then { adcp with state := .complete } else adcp
      (adcp.callSecondHalf g samples s).map ({ adcp with state := .ready, grpp := none }, ·)

/-- `_adc_isr_error_code`; without a callback the state stays as it is. -/
def isrErrorCode (adcp : AdcDriver σ) (err : AdcError) (s : σ) : Option (AdcDriver σ × σ) :=
  match adcp.grpp with
  | none => none
  | some g =>
    match g.errorCb with
    | none => some ({ adcp with grpp := none }, s)
    | some cb => (cb err s).map ({ adcp with state := .ready, grpp := none }, ·)

end AdcDriver

/-- The flags of the DMA stream. -/
structure DmaFlags where
  /-- `STM32_DMA_ISR_TEIF | STM32_DMA_ISR_DMEIF` -/
  error : Bool := false
  htif : Bool := false
  tcif : Bool := false
  deriving DecidableEq, Repr

namespace AdcDriver

variable {σ : Type}

/-- `adc_lld_serve_rx_interrupt` -/
def serveRxInterrupt (adcp : AdcDriver σ) (flags : DmaFlags) (samples : List UInt16) (s : σ) :
    Option (AdcDriver σ × σ) :=
  if flags.error then adcp.isrErrorCode .dmaFailure s
  else
    match adcp.grpp with
    | none => some (adcp, s)
    | some _ =>
      (if flags.htif then adcp.isrHalfCode samples s else some (adcp, s)).bind fun (adcp, s) =>
        if flags.tcif then adcp.isrFullCode samples s else some (adcp, s)

/-- The handler of the ADC's own interrupt: `ovr` is `ADC_SR_OVR`, `size` what the DMA stream still
has to transfer. -/
def adcIrqHandler (adcp : AdcDriver σ) (ovr : Bool) (size : Nat) (s : σ) :
    Option (AdcDriver σ × σ) :=
  if ovr ∧ 0 < size then
    match adcp.grpp with
    | none => some (adcp, s)
    | some _ => adcp.isrErrorCode .overflow s
  else some (adcp, s)

end AdcDriver

end RobotPws.Hal
