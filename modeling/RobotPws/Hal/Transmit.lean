import RobotPws.Hal.Serial

/-!
# The transmit side of the serial driver

What an interrupt does to the output queue, to `TXEIE` and to `CHN_OUTPUT_EMPTY`
(`TxStep`): nothing, it takes a byte, or it finds the queue empty. The receive side and
the errors leave all three alone; the transmission end writes `TXEIE` back as it was at entry.
-/

namespace RobotPws.Hal

open RobotPws.Kernel

namespace SerialDriver

/-- What the transmitter sees is the same. -/
structure SameOutput (d d' : SerialDriver) : Prop where
  oqueue : d'.oqueue = d.oqueue
  tx : d'.tx = d.tx
  cr1 : d'.cr1 = d.cr1
  registered : d'.registered = d.registered
  flag : hasFlag d'.elFlags chnOutputEmpty = hasFlag d.elFlags chnOutputEmpty

theorem SameOutput.refl (d : SerialDriver) : SameOutput d d := ⟨rfl, rfl, rfl, rfl, rfl⟩

theorem SameOutput.trans {d d' d'' : SerialDriver} (h : SameOutput d d') (h' : SameOutput d' d'') :
    SameOutput d d'' :=
  ⟨h'.oqueue.trans h.oqueue, h'.tx.trans h.tx, h'.cr1.trans h.cr1,
    h'.registered.trans h.registered, h'.flag.trans h.flag⟩

theorem sameOutput_addFlags (d : SerialDriver) {f : FlagsMask}
    (hf : hasFlag f chnOutputEmpty = false) : SameOutput d (d.chnAddFlagsI f) := by
  unfold chnAddFlagsI
  split
  · exact ⟨rfl, rfl, rfl, rfl, by rw [hasFlag_or, hf, Bool.or_false]⟩
  · exact .refl d

theorem sameOutput_addError (d : SerialDriver) {f : FlagsMask}
    (hf : hasFlag f chnOutputEmpty = false) : SameOutput d (d.addErrorI f) := by
  obtain ⟨h1, h2, h3, h4, h5⟩ := sameOutput_addFlags d hf
  exact ⟨h1, h2, h3, h4, h5⟩

theorem sameOutput_setError (d : SerialDriver) (sr : SR) : SameOutput d (d.setError sr) := by
  refine sameOutput_addError d ?_
  cases sr.ore <;> cases sr.pe <;> cases sr.fe <;> cases sr.ne <;> decide

theorem sameOutput_incoming (d : SerialDriver) (b : UInt8) :
    SameOutput d (d.sdIncomingDataI b) := by
  have hwire : SameOutput d { d with wire := d.wire ++ [b] } := ⟨rfl, rfl, rfl, rfl, rfl⟩
  obtain ⟨q, -, -, he⟩ | ⟨q, -, -, he⟩ | ⟨-, -, he⟩ := d.sdIncomingDataI_cases b <;> rw [he]
  · obtain ⟨h1, h2, h3, h4, h5⟩ := hwire.trans (sameOutput_addFlags _ (f := chnInputAvailable)
      (by decide))
    exact ⟨h1, h2, h3, h4, h5⟩
  · exact ⟨rfl, rfl, rfl, rfl, rfl⟩
  · exact hwire.trans (sameOutput_addError _ (by decide))

/-- What an interrupt does to the output. -/
inductive TxStep (d d' : SerialDriver) : Prop where
  | idle : d'.oqueue = d.oqueue → d'.tx = d.tx → d'.cr1.txeie = d.cr1.txeie →
      hasFlag d'.elFlags chnOutputEmpty = hasFlag d.elFlags chnOutputEmpty → TxStep d d'
  /-- a byte goes to the transmitter -/
  | byte (b : UInt8) (q : GenericQueue UInt8 serialBuffersSize) : d.cr1.txeie = true →
      d.oqueue.chOQGetI = (some b, q) → d'.oqueue = q → d'.tx = d.tx ++ [b] →
      d'.cr1.txeie = true →
      hasFlag d'.elFlags chnOutputEmpty = hasFlag d.elFlags chnOutputEmpty → TxStep d d'
  /-- there is none -/
  | empty : d.oqueue.chOQGetI.1 = none → d'.oqueue = d.oqueue → d'.tx = d.tx →
      (d.registered = true → hasFlag d'.elFlags chnOutputEmpty = true) → TxStep d d'

theorem transmitI_tx {d d' : SerialDriver} (h : SameOutput d d') (he : d.cr1.txeie = true) :
    TxStep d d'.transmitI := by
  have hq : d'.oqueue.chOQGetI = d.oqueue.chOQGetI := by rw [h.oqueue]
  unfold transmitI
  split
  · next b q hg =>
    refine .byte b q he (hq ▸ hg) rfl ?_ ?_ h.flag
    · rw [← h.tx]
    · rw [← he, ← h.cr1]
  · next q hg =>
    refine .empty (by rw [← hq, hg]) ?_ ?_ fun hr => ?_
    · unfold chnAddFlagsI
      split <;> exact h.oqueue
    · unfold chnAddFlagsI
      split <;> exact h.tx
    · rw [← h.registered] at hr
      simp only [chnAddFlagsI, hr, ↓reduceIte, hasFlag_or]
      rw [show hasFlag chnOutputEmpty chnOutputEmpty = true from rfl, Bool.or_true]

theorem TxStep.finish {d d' : SerialDriver} (h : TxStep d d') (tc : Bool) :
    TxStep d (if tc then { d'.chnAddFlagsI chnTransmissionEnd with cr1 := ⟨d.cr1.txeie, false⟩ }
      else d') := by
  have hs := sameOutput_addFlags d' (f := chnTransmissionEnd) (by decide)
  cases tc with
  | false => exact h
  | true =>
    rw [if_pos rfl]
    cases h with
    | idle h1 h2 _ h4 => exact .idle (hs.oqueue.trans h1) (hs.tx.trans h2) rfl (hs.flag.trans h4)
    | byte b q h0 h1 h2 h3 _ h5 =>
      exact .byte b q h0 h1 (hs.oqueue.trans h2) (hs.tx.trans h3) h0 (hs.flag.trans h5)
    | empty h1 h2 h3 h4 =>
      exact .empty h1 (hs.oqueue.trans h2) (hs.tx.trans h3) fun hr => hs.flag.trans (h4 hr)

theorem serveInterrupt_tx (d : SerialDriver) (sr : SR) (dr : UInt8) :
    TxStep d (d.serveInterrupt sr dr) := by
  have hif : ∀ (c : Bool) (d1 d2 : SerialDriver), SameOutput d d1 →
      (SameOutput d d1 → SameOutput d d2) → SameOutput d (if c then d2 else d1) := by
    intro c d1 d2 h1 h2
    cases c with
    | false => exact h1
    | true => exact h2 h1
  have h1 := hif (sr.ore || sr.ne || sr.fe || sr.pe) d (d.setError sr) (.refl d)
    fun h => h.trans (sameOutput_setError ..)
  have h2 := hif sr.lbd _ _ h1 fun h => h.trans (sameOutput_addError _ (f := sdBreakDetected)
    (by decide))
  have h3 := hif sr.rxne _ _ h2 fun h => h.trans (sameOutput_incoming _ dr)
  refine TxStep.finish ?_ sr.tc
  by_cases hc : (d.cr1.txeie && sr.txe) = true
  · rw [if_pos hc]
    exact transmitI_tx h3 (Bool.and_eq_true _ _ ▸ hc).1
  · rw [if_neg hc]
    exact .idle h3.oqueue h3.tx (by rw [h3.cr1]) h3.flag

/-- An interrupt while the queue holds `Q`: what is transmitted comes from its front. -/
theorem serveInterrupt_holds {d : SerialDriver} {Q : List UInt8} (h : d.oqueue.OQHolds Q) (sr : SR)
    (dr : UInt8) : ∃ Q', (d.serveInterrupt sr dr).oqueue.OQHolds Q' ∧
      (d.serveInterrupt sr dr).tx ++ Q' = d.tx ++ Q ∧ Q'.length ≤ Q.length ∧
      ((hasFlag d.elFlags chnOutputEmpty = true → Q = []) →
        hasFlag (d.serveInterrupt sr dr).elFlags chnOutputEmpty = true → Q' = []) := by
  cases d.serveInterrupt_tx sr dr with
  | idle hq ht _ hf => exact ⟨Q, hq ▸ h, by rw [ht], Nat.le_refl _, fun hi hf' => hi (hf ▸ hf')⟩
  | byte b q _ hg hq ht _ hf =>
    cases Q with
    | nil =>
      rw [h.get_nil] at hg
      cases hg
    | cons c Q =>
      obtain ⟨q', hg', hQ⟩ := h.get_cons
      rw [hg'] at hg
      cases hg
      refine ⟨Q, hq ▸ hQ, ?_, Nat.le_succ _, fun hi hf' => ?_⟩
      · rw [ht, List.append_assoc, List.singleton_append]
      · exact absurd (hi (hf ▸ hf')) (List.cons_ne_nil _ _)
  | empty hg hq ht _ =>
    cases Q with
    | nil => exact ⟨[], hq ▸ h, by rw [ht], Nat.le_refl _, fun _ _ => rfl⟩
    | cons c Q =>
      obtain ⟨q', hg', -⟩ := h.get_cons
      rw [hg'] at hg
      cases hg

/-- The write pointer is the thread's; an interrupt only counts free cells up. -/
theorem serveInterrupt_pointers (d : SerialDriver) (sr : SR) (dr : UInt8) :
    (d.serveInterrupt sr dr).oqueue.qWrptr = d.oqueue.qWrptr ∧
      (d.oqueue.qCounter ≠ 0 → (d.serveInterrupt sr dr).oqueue.qCounter ≠ 0 ∧
        (d.oqueue.qWrptr = d.oqueue.qRdptr →
          (d.serveInterrupt sr dr).oqueue.qRdptr = d.oqueue.qRdptr)) := by
  cases d.serveInterrupt_tx sr dr with
  | idle hq => rw [hq]; exact ⟨rfl, fun h => ⟨h, fun _ => rfl⟩⟩
  | empty _ hq => rw [hq]; exact ⟨rfl, fun h => ⟨h, fun _ => rfl⟩⟩
  | byte b q _ hg hq =>
    rw [hq]
    unfold GenericQueue.chOQGetI at hg
    split at hg
    · cases hg
    · next he =>
      obtain ⟨-, rfl⟩ := Prod.mk.inj hg
      refine ⟨rfl, fun h => ⟨Nat.succ_ne_zero _, fun hw => absurd ?_ he⟩⟩
      simp only [GenericQueue.chOQIsEmptyI, hw, beq_self_eq_true, bne_iff_ne, Bool.true_and]
      exact h

end SerialDriver

end RobotPws.Hal
