import RobotPws.Wifly.Overflow

/-!
# Lines across receive errors

After a receive error the loop resets the driver's queues, if no other flag hides the error, but
it keeps `i`, `j` and `read_id`: a line that it holds goes on with the bytes that come next. In
the steps that meet `ErrorOk` an error is reported only while the loop holds no part of a line
that it still reads, and the flags of an error are read with nothing queued or by the branch that
resets the queues. In the runs of such steps no string given to the callback is of bytes read
before and after an error (`OneEpoch`), and the line the loop reads after an error is a new one,
of bytes received since (`Discarded`).
-/

namespace RobotPws.Wifly

open RobotPws.Lib RobotPws.Kernel RobotPws.Hal

variable {ω σ : Type} {cb : ProtocolCallback ω σ}

/-! ## The interrupt -/

/-- The flags of a receive error. -/
def sdErrors : FlagsMask :=
  sdParityError ||| sdFramingError ||| sdOverrunError ||| sdNoiseError ||| sdBreakDetected

/-- The interrupt reports a receive error: an error bit is set, or a byte is lost. -/
def reportsError (d : SerialDriver) (sr : SR) : Bool :=
  !sr.clean || (sr.rxne && d.iqueue.chIQIsFullI)

theorem serveInterrupt_errs {d : SerialDriver} {sr : SR} (h : reportsError d sr = false)
    (dr : UInt8) : (d.serveInterrupt sr dr).errs = d.errs := by
  simp only [reportsError, Bool.or_eq_false_iff, Bool.not_eq_false', Bool.and_eq_false_imp] at h
  refine SerialDriver.serveInterrupt_clean (P := fun d' => d'.errs = d.errs) h.1 rfl
    (fun hr => ?_) (fun d' hd => ?_) (fun d' c hd => ?_)
  · obtain ⟨q, -, -, he⟩ | ⟨q, -, -, he⟩ | ⟨hq, -⟩ := d.sdIncomingDataI_cases dr
    · rw [he]
      simp
    · rw [he]
    · simp [GenericQueue.chIQPutI, h.2 hr] at hq
  · unfold SerialDriver.transmitI
    split
    · exact hd
    · simpa using hd
  · simpa using hd

theorem chnAddFlagsI_flag {d : SerialDriver} {m : FlagsMask} (h : hasFlag d.elFlags m = true)
    (f : FlagsMask) : hasFlag (d.chnAddFlagsI f).elFlags m = true := by
  unfold SerialDriver.chnAddFlagsI
  split
  · rw [hasFlag_or, h, Bool.true_or]
  · exact h

theorem sdIncomingDataI_flag {d : SerialDriver} {m : FlagsMask} (h : hasFlag d.elFlags m = true)
    (b : UInt8) : hasFlag (d.sdIncomingDataI b).elFlags m = true := by
  obtain ⟨q, -, -, he⟩ | ⟨q, -, -, he⟩ | ⟨-, -, he⟩ := d.sdIncomingDataI_cases b <;> rw [he]
  · exact chnAddFlagsI_flag (d := { d with wire := d.wire ++ [b] }) h _
  · exact h
  · exact chnAddFlagsI_flag (d := { d with wire := d.wire ++ [b] }) h _

theorem serveInterrupt_flag {d : SerialDriver} {m : FlagsMask} (h : hasFlag d.elFlags m = true)
    (sr : SR) (dr : UInt8) : hasFlag (d.serveInterrupt sr dr).elFlags m = true :=
  SerialDriver.serveInterrupt_keeps (fun d => hasFlag d.elFlags m = true)
    (fun _ f _ hd => chnAddFlagsI_flag hd f) (fun _ _ hd => hd)
    (fun _ _ b hd => sdIncomingDataI_flag hd b) (fun _ _ _ _ hd => hd) h dr

theorem chnAddFlagsI_raise {d : SerialDriver} (hr : d.registered = true) {f m : FlagsMask}
    (hf : hasFlag f m = true) : hasFlag (d.chnAddFlagsI f).elFlags m = true := by
  rw [SerialDriver.chnAddFlagsI, if_pos hr, hasFlag_or, hf, Bool.or_true]

theorem serveInterrupt_error {d : SerialDriver} (hr : d.registered = true) {sr : SR}
    (h : reportsError d sr = true) (dr : UInt8) :
    hasFlag (d.serveInterrupt sr dr).elFlags sdErrors = true := by
  have hif : ∀ (c : Bool) (d d' : SerialDriver), hasFlag d.elFlags sdErrors = true →
      (hasFlag d.elFlags sdErrors = true → hasFlag d'.elFlags sdErrors = true) →
      hasFlag (if c then d' else d).elFlags sdErrors = true := by
    intro c d d' hd hd'
    cases c
    · exact hd
    · exact hd' hd
  -- the flags are set once the byte has been taken; nothing after it clears them
  have htail : ∀ d' : SerialDriver, hasFlag d'.elFlags sdErrors = true →
      hasFlag d'.transmitI.elFlags sdErrors = true := by
    intro d' hd
    unfold SerialDriver.transmitI
    split
    · exact hd
    · exact chnAddFlagsI_flag hd _
  unfold SerialDriver.serveInterrupt
  refine hif _ _ _ (hif _ _ _ ?_ (htail _)) fun hd => chnAddFlagsI_flag hd _
  cases he : sr.ore || sr.ne || sr.fe || sr.pe with
  | true =>
    have hset : hasFlag (d.setError sr).elFlags sdErrors = true := by
      refine chnAddFlagsI_raise hr ?_
      revert he
      cases sr.ore <;> cases sr.pe <;> cases sr.fe <;> cases sr.ne <;> decide
    exact hif _ _ _ (hif _ _ _ hset fun hd => chnAddFlagsI_flag hd _) fun hd =>
      sdIncomingDataI_flag hd dr
  | false =>
    cases hl : sr.lbd with
    | true =>
      exact hif _ _ _ (chnAddFlagsI_raise hr (f := sdBreakDetected) rfl) fun hd =>
        sdIncomingDataI_flag hd dr
    | false =>
      obtain ⟨hrx, hfull⟩ : sr.rxne = true ∧ d.iqueue.chIQIsFullI = true := by
        simpa [reportsError, SR.clean, he, hl] using h
      obtain ⟨q, hq, -⟩ | ⟨q, hq, -⟩ | ⟨-, -, hd⟩ := d.sdIncomingDataI_cases dr
      · simp [GenericQueue.chIQPutI, hfull] at hq
      · simp [GenericQueue.chIQPutI, hfull] at hq
      · rw [hrx]
        simp only [↓reduceIte, Bool.false_eq_true]
        rw [hd]
        exact chnAddFlagsI_raise (d := { d with wire := d.wire ++ [dr] }) hr
          (f := sdOverrunError) rfl

/-! ## The machine -/

/-- The line is not read any more: it is executed, answered or discarded. -/
def Pc.lineOver : Pc σ → Bool
  | .call => true
  | pc => pc.answering || pc.overflowing

/-- Flags that are set do not come before the next byte: there is no listener yet, or the byte
is about to be taken. -/
def Pc.reading : Pc σ → Bool
  | .register | .getByte => true
  | _ => false

instance (p : Parser Cell) : Decidable p.Boundary :=
  decidable_of_iff (p.i = 0 ∧ p.j = 0 ∧ p.readId = true)
    ⟨fun h => ⟨h.1, h.2.1, h.2.2⟩, fun h => ⟨h.i, h.j, h.readId⟩⟩

namespace Sys

/-- The cells were stored with no receive error reported in between. -/
def OneEpoch (cells : List Cell) : Prop := ∀ c ∈ cells, ∀ c' ∈ cells, c.epoch = c'.epoch

/-- No byte is received between the stores of a reset of the input queue; an error is reported
while the loop holds no part of a line that it still reads, and not where the bytes queued
would be read before its flags; and the flags of an error are read with nothing queued, or in
the loop by the branch that resets the queues. -/
def ErrorOk (s : Sys σ) : Act → Prop
  | .usart sr _ => (stores s.pc ≠ 0 → sr.rxne = false) ∧
      (reportsError s.sd sr = true → (s.pc.lineOver = true ∨ s.parser.Boundary) ∧
        (s.sd.iqueue.chIQIsEmptyI = true ∨ s.pc.reading = false))
  | .thread =>
    match s.pc with
    | .getFlags => hasFlag s.sd.elFlags sdErrors = true → s.sd.iqueue.chIQIsEmptyI = true ∨
        (hasFlag s.sd.elFlags chnInputAvailable = false ∧ s.sd.elFlags > 32)
    | .sendFlags _ | .recvFlags _ _ => hasFlag s.sd.elFlags sdErrors = true →
        s.sd.iqueue.chIQIsEmptyI = true
    | _ => True
  | _ => True

instance (s : Sys σ) (a : Act) : Decidable (ErrorOk s a) :=
  match a with
  | .thread =>
    match s with
    | { pc, .. } =>
      match pc with
      | .getFlags | .sendFlags _ | .recvFlags _ _ => by dsimp only [ErrorOk]; infer_instance
      | .register | .top | .msgWait | .evtWait | .getByte | .call | .callback _ | .send _ _
      | .sendWait _ | .drain _ _ | .recvWait _ _ | .recvSleep _ _ | .recvGet _ _ | .release _ _ _
      | .iqReset _ _ | .oqReset _ => .isTrue trivial
  | .usart _ _ => by dsimp only [ErrorOk]; infer_instance
  | .timeout | .result _ | .client _ _ => .isTrue trivial

/-- From `s` to `t` the line was forgotten, and of the bytes received so far none with a number
below `m` is in the line of `t` or read next. -/
structure Discarded (cb : ProtocolCallback ω σ) (s t : Sys σ) (m : Nat) : Prop where
  line : ∃ u, Reach (step cb) ErrorOk s u ∧ Reach (step cb) ErrorOk u t ∧ u.parser.Boundary
  held : ∀ k ∈ srcs t.parser.held, m ≤ k
  next : ∀ x ∈ t.sd.sdGetTimeout.1, m ≤ x.seq

variable {s t : Sys σ} {a : Act} {Q : List Rx} {m : Nat}

/-! ## The line -/

/-- A line that is not read any more stays so until it is forgotten. -/
theorem step_lineOver (hs : s.step cb a = some t) (h : s.pc.lineOver = true) :
    t.pc.lineOver = true ∨ t.parser.Boundary := by
  cases step_line hs with
  | same he =>
    left
    by_cases hpc : s.pc = .call
    · obtain ⟨-, hm⟩ | ⟨r, ret, -, hpc', -⟩ | ⟨x, v, -, hpc', -⟩ | ⟨sr, dr, -, rfl⟩ |
        ⟨thd, str, -, rfl⟩ := step_cases hs
      · have ha := he.answering
        cases hm <;> simp_all [Pc.answering]
      · rw [hpc] at hpc'; cases hpc'
      · rw [hpc] at hpc'; cases hpc'
      · exact h
      · exact h
    · have hor : s.pc.answering = true ∨ s.pc.overflowing = true := by
        unfold Pc.lineOver at h
        split at h
        · next hc => exact absurd hc hpc
        · simpa using h
      unfold Pc.lineOver
      split
      · rfl
      · rw [he.answering, he.overflowing]
        simpa using hor
  | new he => exact .inr he.boundary
  | byte _ hpc => rw [hpc] at h; cases h
  | call => exact .inl rfl
  | discard => exact .inr (Parser.restart_boundary _)

/-- The cells of a line that is read: they were there before, or one has just been read. -/
theorem step_held (hs : s.step cb a = some t) (h : t.pc.lineOver = false) {c : Cell}
    (hc : c ∈ t.parser.held) : s.pc.lineOver = false ∧ (c ∈ s.parser.held ∨
      (a = .thread ∧ s.pc = .getByte ∧ c = cellOf s.sd.sdGetTimeout.1 s.sd.errs)) := by
  have hopen : s.pc.lineOver = false := by
    by_contra ho
    rcases step_lineOver hs (Bool.eq_true_of_not_eq_false ho) with ho | hb
    · rw [h] at ho; cases ho
    · rw [hb.held] at hc; cases hc
  refine ⟨hopen, ?_⟩
  cases step_line hs with
  | same he => exact .inl (he.parser ▸ hc)
  | new he => rw [he.boundary.held] at hc; cases hc
  | byte ha hpc =>
    rcases Parser.mem_held_feed hc with hc | ⟨rfl, -⟩
    · exact .inl hc
    · exact .inr ⟨ha, hpc, rfl⟩
  | call x _ hpc => cases h
  | discard => cases hc

theorem Move.errs (hm : Move cb s t) : t.sd.errs = s.sd.errs := by
  cases hm with
  | put b bs ret d hpc hd =>
    obtain ⟨q, -, rfl⟩ := Option.map_eq_some_iff.1 hd
    rfl
  | sendDone ret => rw [sent_sd]; rfl
  | drainByte | recvByte => rw [recvByte_sd]; rfl
  | recvError | recvNothing => rw [received_sd]; rfl
  | iqResetCounter => rw [iqWasReset_sd]; rfl
  | register | takeMessage | listen | readRequest | sendRequest | event | noEvent | inputFlag
  | errorFlags | otherFlags | byte | call | returnAnswer | returnMessage | callbackSendEmpty
  | callbackSend | callbackRead | sendEvent | sendMore | drained | recvEvent | recvSleep
  | recvInput | recvOther | release | iqResetWrptr | iqResetRdptr | oqReset => rfl

theorem step_errs (hs : s.step cb a = some t)
    (h : ∀ sr dr, a = .usart sr dr → reportsError s.sd sr = false) : t.sd.errs = s.sd.errs := by
  obtain ⟨-, hm⟩ | ⟨r, ret, -, -, -, rfl⟩ | ⟨x, v, -, -, rfl⟩ | ⟨sr, dr, ha, rfl⟩ |
    ⟨thd, str, -, rfl⟩ := step_cases hs
  · exact hm.errs
  · rw [received_sd]
  · rfl
  · exact serveInterrupt_errs (h sr dr ha) dr
  · rfl

structure Unmixed (s : Sys σ) : Prop where
  callHeld : s.CallHeld
  /-- The line that is read has been read since the last error. -/
  fresh : s.pc.lineOver = false → ∀ c ∈ s.parser.held, c.epoch = s.sd.errs
  held : OneEpoch s.parser.held
  calls : ∀ call ∈ s.calls, OneEpoch call

theorem init_unmixed : (init : Sys σ).Unmixed where
  callHeld := init_callHeld
  fresh := by simp [init, Parser.held, Parser.init]
  held := by simp [init, Parser.held, Parser.init, OneEpoch]
  calls := by simp [init]

theorem step_fresh (h : s.Unmixed) (hok : ErrorOk s a) (hs : s.step cb a = some t)
    (ho : t.pc.lineOver = false) : ∀ c ∈ t.parser.held, c.epoch = t.sd.errs := by
  intro c hc
  obtain ⟨ho', hc'⟩ := step_held hs ho hc
  have herrs : t.sd.errs = s.sd.errs := by
    refine step_errs hs fun sr dr ha => ?_
    subst ha
    cases hr : reportsError s.sd sr with
    | false => rfl
    | true =>
      rcases (hok.2 hr).1 with hover | hb
      · rw [ho'] at hover; cases hover
      · rcases hc' with hc' | ⟨ha, -⟩
        · rw [hb.held] at hc'; cases hc'
        · cases ha
  rw [herrs]
  rcases hc' with hc' | ⟨-, -, rfl⟩
  · exact h.fresh ho' c hc'
  · rfl

theorem step_unmixed (h : s.Unmixed) (hok : ErrorOk s a) (hs : s.step cb a = some t) :
    t.Unmixed := by
  have hb := step_callHeld h.callHeld hs
  have hf := step_fresh h hok hs
  cases step_line hs with
  | same he => exact ⟨hb, hf, he.parser ▸ h.held, he.calls ▸ h.calls⟩
  | new he =>
    refine ⟨hb, hf, ?_, he.calls ▸ h.calls⟩
    rw [he.boundary.held]
    exact fun _ hc => nomatch hc
  | byte _ hpc =>
    refine ⟨hb, hf, ?_, h.calls⟩
    have hepoch : ∀ c ∈ s.fed.1.held, c.epoch = s.sd.errs := by
      intro c hc
      rcases Parser.mem_held_feed hc with hc | ⟨rfl, -⟩
      · exact h.fresh (by rw [hpc]; rfl) c hc
      · rfl
    exact fun c hc c' hc' => (hepoch c hc).trans (hepoch c' hc').symm
  | call x _ hpc =>
    refine ⟨hb, hf, h.held, fun call hcall => ?_⟩
    rcases List.mem_append.1 hcall with hcall | hcall
    · exact h.calls call hcall
    · rw [List.mem_singleton.1 hcall]
      have hheld := h.callHeld.2 hpc
      exact fun c hc c' hc' => h.held c (hheld c hc) c' (hheld c' hc')
  | discard => exact ⟨hb, hf, (fun _ hc => nomatch hc), h.calls⟩

/-! ## The queue -/

/-- What is queued will not be read: the queue is being reset, or the flags of an error come
first. -/
def ResetDue (s : Sys σ) : Prop :=
  (∃ k ret, s.pc = .iqReset k ret) ∨
    (s.pc.reading = false ∧ hasFlag s.sd.elFlags sdErrors = true)

theorem Move.not_register (hm : Move cb s t) : t.pc ≠ .register := by
  have hrecv : ∀ (st : State) (r : Recv) (ret : RecvRet σ) (s : Sys σ),
      (s.received cb st r ret).pc ≠ .register := by
    intro st r ret s
    cases ret <;> simp [received]
  have hbyte : ∀ (s : Sys σ) (r : Recv) (inn : Int) (ret : RecvRet σ)
      (again : Recv → RecvRet σ → Pc σ), (∀ r, again r ret ≠ .register) →
      (Sys.recvByte cb s r inn ret again).pc ≠ .register := by
    intro s r inn ret again hag
    obtain ⟨-, he⟩ | ⟨-, -, he⟩ | ⟨-, -, he⟩ := recvByte_cases cb s r inn ret again <;> rw [he]
    · simp
    · exact hrecv _ _ _ _
    · exact hag _
  cases hm with
  | byte => cases s.fed.2 <;> simp [Pc.after]
  | put b bs => by_cases hbs : bs = [] <;> simp [hbs]
  | sendDone ret => cases ret <;> simp [sent]
  | drainByte | recvByte => exact hbyte _ _ _ _ _ fun _ => by simp
  | recvError | recvNothing => exact hrecv _ _ _ _
  | iqResetCounter ret =>
    cases ret with
    | receive r ret => exact hrecv _ _ _ _
    | overflow | error => simp [iqWasReset]
  | oqReset k pc _ hn => rcases hn with ⟨k', rfl⟩ | rfl <;> simp
  | register | takeMessage | listen | readRequest | sendRequest | event | noEvent | inputFlag
  | errorFlags | otherFlags | call | returnAnswer | returnMessage | callbackSendEmpty
  | callbackSend | callbackRead | sendEvent | sendMore | drained | recvEvent | recvSleep
  | recvInput | recvOther | release | iqResetWrptr | iqResetRdptr => simp

theorem Move.reading (hm : Move cb s t) (hg : s.pc.gap = false) : t.pc.reading = false := by
  unfold Pc.reading
  split
  · next h => exact absurd h hm.not_register
  · next h =>
    rw [(hm.to_getByte h).1] at hg
    cases hg
  · rfl

theorem Move.elFlags (hm : Move cb s t) (hr : s.pc ≠ .register) (hg : s.pc.gap = false) :
    t.sd.elFlags = s.sd.elFlags := by
  cases hm with
  | register hpc => exact absurd hpc hr
  | inputFlag hpc | errorFlags hpc | otherFlags hpc | sendDone _ hpc | sendMore _ hpc
  | recvInput _ _ hpc | recvError _ _ hpc | recvOther _ _ hpc => rw [hpc] at hg; cases hg
  | put b bs ret d hpc hd =>
    obtain ⟨q, -, rfl⟩ := Option.map_eq_some_iff.1 hd
    rfl
  | drainByte | recvByte => rw [recvByte_sd]; rfl
  | recvNothing => rw [received_sd]; rfl
  | iqResetCounter => rw [iqWasReset_sd]; rfl
  | takeMessage | listen | readRequest | sendRequest | event | noEvent | byte | call
  | returnAnswer | returnMessage | callbackSendEmpty | callbackSend | callbackRead | sendEvent
  | drained | recvEvent | recvSleep | release | iqResetWrptr | iqResetRdptr | oqReset => rfl

theorem Move.of_iqReset (hm : Move cb s t) {k : QReset} {ret : ResetRet σ}
    (hpc : s.pc = .iqReset k ret) :
    (∃ k ret, t.pc = .iqReset k ret) ∨ t.sd.iqueue.chIQIsEmptyI = true := by
  cases hm with
  | iqResetWrptr | iqResetRdptr => exact .inl ⟨_, _, rfl⟩
  | iqResetCounter =>
    right
    rw [iqWasReset_sd]
    rfl
  | register h | takeMessage h | listen h | readRequest _ _ h | sendRequest _ _ _ h | event h
  | noEvent h | inputFlag h | errorFlags h | otherFlags h | byte h | call h | returnAnswer _ _ h
  | returnMessage _ h | callbackSendEmpty _ h | callbackSend _ _ h | callbackRead _ h
  | put _ _ _ _ h | sendEvent _ h | sendDone _ h | sendMore _ h | drained _ _ h
  | drainByte _ _ _ h | recvSleep _ _ h | recvInput _ _ h | recvError _ _ h | recvOther _ _ h
  | recvNothing _ _ h | recvByte _ _ _ h | release _ _ _ h | oqReset _ _ h =>
    rw [hpc] at h
    cases h
  | recvEvent _ _ h => rcases h with h | h <;> rw [hpc] at h <;> cases h

/-- The flags of an error lead to the reset, unless nothing is queued. -/
theorem Move.resetDue (hm : Move cb s t) (h : s.ResetDue) (hok : ErrorOk s .thread) :
    t.ResetDue ∨ t.sd.iqueue.chIQIsEmptyI = true := by
  obtain ⟨k, ret, hpc⟩ | ⟨hrd, hf⟩ := h
  · exact (hm.of_iqReset hpc).imp (fun h => .inl h) id
  · cases hg : s.pc.gap with
    | false =>
      have hr : s.pc ≠ .register := by
        intro hpc
        rw [hpc] at hrd
        cases hrd
      exact .inl (.inr ⟨hm.reading hg, (hm.elFlags hr hg).symm ▸ hf⟩)
    | true =>
      unfold ErrorOk at hok
      cases hm with
      | inputFlag hpc hin =>
        rw [hpc] at hok
        rcases hok hf with he | ⟨hin', -⟩
        · exact .inr he
        · rw [hin] at hin'; cases hin'
      | errorFlags => exact .inl (.inl ⟨_, _, rfl⟩)
      | otherFlags hpc _ h32 =>
        rw [hpc] at hok
        rcases hok hf with he | ⟨-, h32'⟩
        · exact .inr he
        · exact absurd h32' h32
      | sendDone _ hpc =>
        rw [hpc] at hok
        rw [sent_sd]
        exact .inr (hok hf)
      | recvError _ _ hpc =>
        rw [hpc] at hok
        rw [received_sd]
        exact .inr (hok hf)
      | sendMore _ hpc | recvInput _ _ hpc | recvOther _ _ hpc =>
        rw [hpc] at hok
        exact .inr (hok hf)
      | register hpc | takeMessage hpc | listen hpc | readRequest _ _ hpc | sendRequest _ _ _ hpc
      | event hpc | noEvent hpc | byte hpc | call hpc | returnAnswer _ _ hpc
      | returnMessage _ hpc | callbackSendEmpty _ hpc | callbackSend _ _ hpc
      | callbackRead _ hpc | put _ _ _ _ hpc | sendEvent _ hpc | drained _ _ hpc
      | drainByte _ _ _ hpc | recvSleep _ _ hpc | recvNothing _ _ hpc | recvByte _ _ _ hpc
      | release _ _ _ hpc | iqResetWrptr _ hpc | iqResetRdptr _ hpc | iqResetCounter _ hpc
      | oqReset _ _ hpc => rw [hpc] at hg; cases hg
      | recvEvent _ _ hpc => rcases hpc with hpc | hpc <;> rw [hpc] at hg <;> cases hg

/-- The bytes queued have numbers from `m` on, or will not be read. -/
def Since (s : Sys σ) (m : Nat) (Q : List Rx) : Prop := (∀ x ∈ Q, m ≤ x.seq) ∨ s.ResetDue

theorem Queued.since_of_empty (h : s.Queued Q) (he : s.sd.iqueue.chIQIsEmptyI = true) :
    s.Since m Q := by
  by_cases h0 : stores s.pc = 0
  · left
    rw [(h.holds h0).empty_iff.1 he]
    simp
  · refine .inr (.inl ?_)
    unfold stores at h0
    split at h0
    · next hpc => exact ⟨_, _, hpc⟩
    · next hpc => exact ⟨_, _, hpc⟩
    · exact absurd rfl h0

theorem step_resetDue (h : s.ResetDue) (hok : ErrorOk s a) (hs : s.step cb a = some t) :
    t.ResetDue ∨ t.sd.iqueue.chIQIsEmptyI = true := by
  obtain ⟨rfl, hm⟩ | ⟨r, ret, -, hpc, -, rfl⟩ | ⟨x, v, -, hpc, rfl⟩ | ⟨sr, dr, -, rfl⟩ |
    ⟨thd, str, -, rfl⟩ := step_cases hs
  · exact hm.resetDue h hok
  · obtain ⟨k, ret', hpc'⟩ | ⟨-, hf⟩ := h
    · rw [hpc] at hpc'; cases hpc'
    · exact .inl (.inr ⟨by cases ret <;> rfl, by rw [received_sd]; exact hf⟩)
  · obtain ⟨k, ret', hpc'⟩ | ⟨-, hf⟩ := h
    · rw [hpc] at hpc'; cases hpc'
    · exact .inl (.inr ⟨rfl, hf⟩)
  · exact .inl (h.imp id fun h => ⟨h.1, serveInterrupt_flag h.2 sr dr⟩)
  · exact .inl h

theorem rx_stores (hok : ErrorOk s a) (sr : SR) (b : UInt8) (ha : a = .usart sr b)
    (hr : sr.rxne = true) : stores s.pc = 0 := by
  subst ha
  by_contra h0
  rw [hok.1 h0] at hr
  cases hr

theorem Queued.next (h : s.Queued Q) (hQ : s.Since m Q) (hpc : s.pc = .getByte) :
    ∀ x ∈ s.sd.sdGetTimeout.1, m ≤ x.seq := by
  have hholds := h.holds (by rw [hpc]; rfl)
  rcases hQ with hQ | ⟨k, ret, hpc'⟩ | ⟨hrd, -⟩
  · intro x hx
    cases Q with
    | nil => rw [SerialDriver.sdGetTimeout, hholds.get_nil] at hx; cases hx
    | cons y Q =>
      obtain ⟨q', hget, -⟩ := hholds.get_cons
      rw [SerialDriver.sdGetTimeout, hget] at hx
      cases hx
      exact hQ _ List.mem_cons_self
  · rw [hpc] at hpc'
    cases hpc'
  · rw [hpc] at hrd
    cases hrd

/-- What is queued stays so, bytes received later have higher numbers. -/
theorem step_since (hw : m ≤ s.sd.wire.length) (h : s.Since m Q) (hok : ErrorOk s a)
    (hs : s.step cb a = some t) {Q' : List Rx} (hq' : t.Queued Q') (hm : QueueMove s a t Q Q') :
    t.Since m Q' := by
  rcases h with h | h
  · left
    cases hm with
    | same | lost => exact h
    | got x Q' _ _ hQ =>
      subst hQ
      exact fun y hy => h y (List.mem_cons_of_mem _ hy)
    | emptied => simp
    | arrived sr b =>
      intro x hx
      rcases List.mem_append.1 hx with hx | hx
      · exact h x hx
      · rw [List.mem_singleton.1 hx]
        exact hw
  · rcases step_resetDue h hok hs with h | h
    · exact .inr h
    · exact hq'.since_of_empty h

/-- After an error reported when `m` bytes had been received. -/
structure Renewed (m : Nat) (s : Sys σ) : Prop where
  wire : m ≤ s.sd.wire.length
  queue : ∃ Q, s.Queued Q ∧ s.Since m Q
  line : s.pc.lineOver = false → ∀ k ∈ srcs s.parser.held, m ≤ k

theorem step_renewed (h : s.Renewed m) (hok : ErrorOk s a) (hs : s.step cb a = some t) :
    t.Renewed m := by
  obtain ⟨Q, hq, hQ⟩ := h.queue
  obtain ⟨Q', hq', hm⟩ := queue_move hq (rx_stores hok) hs
  refine ⟨h.wire.trans hm.wire_le, ⟨Q', hq', step_since h.wire hQ hok hs hq' hm⟩,
    fun ho k hk => ?_⟩
  · obtain ⟨c, hc, hsrc⟩ := mem_srcs.1 hk
    obtain ⟨ho', hc' | ⟨-, hpc, rfl⟩⟩ := step_held hs ho hc
    · exact h.line ho' k (mem_srcs.2 ⟨c, hc', hsrc⟩)
    · obtain ⟨x, hx, rfl⟩ := Option.map_eq_some_iff.1 hsrc
      exact hq.next hQ hpc x hx

theorem run_renewed (h : Reach (step cb) ErrorOk s t) (h0 : s.Renewed m) : t.Renewed m :=
  h.inv h0 fun _ _ _ hi hok hs => step_renewed hi hok hs

/-- The error: what is queued will not be read, and the line is over or there is none. -/
theorem renewed_of_error (hq : s.Queued Q) (hsig : s.Signalled) {sr : SR} {b : UInt8}
    (hok : ErrorOk s (.usart sr b)) (he : reportsError s.sd sr = true)
    (hs : s.step cb (.usart sr b) = some t) : t.Renewed s.sd.wire.length := by
  obtain ⟨hline, hqueue⟩ := hok.2 he
  obtain ⟨Q', hq', hm⟩ := queue_move hq (rx_stores hok) hs
  refine ⟨hm.wire_le, ⟨Q', hq', ?_⟩, fun ho k hk => ?_⟩
  · rcases hqueue with hempty | hrd
    · exact step_since (Nat.le_refl _) (hq.since_of_empty hempty) hok hs hq' hm
    · have hr : s.pc ≠ .register := by
        intro hpc
        rw [hpc] at hrd
        cases hrd
      cases hs
      exact .inr (.inr ⟨hrd, serveInterrupt_error (hsig.registered hr) he b⟩)
  · cases hs
    rcases hline with hover | hb
    · exact absurd (hover.symm.trans ho) (by decide)
    · have hk : k ∈ srcs s.parser.held := hk
      rw [hb.held] at hk
      cases hk

/-- A line that is over is forgotten before the loop reads again. -/
theorem run_boundary (h : Reach (step cb) ErrorOk s t)
    (h0 : s.pc.lineOver = true ∨ s.parser.Boundary) (ht : t.pc.lineOver = false) :
    ∃ u, Reach (step cb) ErrorOk s u ∧ Reach (step cb) ErrorOk u t ∧ u.parser.Boundary := by
  obtain ⟨as, h⟩ := h
  induction h with
  | refl s =>
    rcases h0 with h0 | h0
    · rw [ht] at h0
      cases h0
    · exact ⟨s, ⟨[], .refl s⟩, ⟨[], .refl s⟩, h0⟩
  | cons hs hc hrun ih =>
    rcases h0 with h0 | h0
    · obtain ⟨u, ⟨bs, hb⟩, hu, hp⟩ := ih (step_lineOver hs h0) ht
      exact ⟨u, ⟨_, .cons hs hc hb⟩, hu, hp⟩
    · exact ⟨_, ⟨[], .refl _⟩, ⟨_, .cons hs hc hrun⟩, h0⟩

theorem reach_queued (h : Reach (step cb) ErrorOk init s) : ∃ Q, s.Queued Q := by
  refine Reach.inv (I := fun s => ∃ Q, s.Queued Q) h ⟨[], init_queued⟩ ?_
  rintro s a t ⟨Q, hq⟩ hok hs
  exact (queue_move hq (rx_stores hok) hs).imp fun _ h => h.1

/-- **No command is assembled across a receive error**, in every run whose steps meet `ErrorOk`:
no call of the callback is given bytes read before and after an error, and after an error the
loop reads again only when it has forgotten the line and the bytes that were queued. -/
theorem error_discards_line (h : Reach (step cb) ErrorOk init s) :
    (∀ call ∈ s.calls, OneEpoch call) ∧
    ∀ sr b s' t, ErrorOk s (.usart sr b) → reportsError s.sd sr = true →
      s.step cb (.usart sr b) = some s' → Reach (step cb) ErrorOk s' t → t.pc = .getByte →
      Discarded cb s' t s.sd.wire.length := by
  refine ⟨(h.inv init_unmixed fun _ _ _ hi hok hs => step_unmixed hi hok hs).calls,
    fun sr b s' t hok he hs ht hpc => ?_⟩
  obtain ⟨Q, hq⟩ := reach_queued h
  have h' := run_renewed ht (renewed_of_error hq (reach_signalled h) hok he hs)
  obtain ⟨Q', hq', hQ'⟩ := h'.queue
  cases hs
  exact ⟨run_boundary ht (hok.2 he).1 (by rw [hpc]; rfl), h'.line (by rw [hpc]; rfl),
    hq'.next hQ' hpc⟩

/-- A carriage return is read, the `x` after it is queued. The loop discards it for a framing
error and then reads the `l` received next. -/
theorem error_discards_line_queued :
    ∃ s s' t : Sys Main.Point, Reach (step Main.callback) ErrorOk init s ∧
      s.sd.sdGetTimeout.1 = some ⟨120, 1⟩ ∧ t.sd.sdGetTimeout.1 = some ⟨108, 2⟩ ∧
      Discarded Main.callback s' t s.sd.wire.length := by
  obtain ⟨s, hr, hp⟩ := reach_of_exec (step Main.callback) ErrorOk init
    (script [(2, .thread), (1, .rx 13), (1, .rx 120), (4, .thread)])
    (fun s => decide (ErrorOk s (.usart { fe := true } 0)) &&
      decide (s.sd.sdGetTimeout.1 = some ⟨120, 1⟩) &&
      (exec (step Main.callback) ErrorOk { s with sd := s.sd.serveInterrupt { fe := true } 0 }
        (script [(9, .thread), (1, .rx 108), (2, .thread)])).any fun t : Sys Main.Point =>
          decide (t.pc = .getByte) && decide (t.sd.sdGetTimeout.1 = some ⟨108, 2⟩))
    (by decide +kernel)
  simp only [Bool.and_eq_true, decide_eq_true_eq] at hp
  obtain ⟨⟨hok, hx⟩, ht⟩ := hp
  obtain ⟨t, ht, hp⟩ := reach_of_exec _ _ _ _ _ ht
  simp only [Bool.and_eq_true, decide_eq_true_eq] at hp
  exact ⟨s, _, t, hr, hx, hp.2,
    (error_discards_line hr).2 { fe := true } 0 _ t hok rfl rfl ht hp.1⟩

/-- A framing error inside `forward 12`: the loop resets the queues, keeps
`forward 1` and appends the `2` received after it. -/
theorem calls_across_error :
    ¬ ∀ s, Reach (step Main.callback) Always init s → ∀ call ∈ s.calls, OneEpoch call := by
  intro h
  obtain ⟨s, hr, hp⟩ := reach_of_exec (step Main.callback) Always init
    (script [(2, .thread)] ++ Act.feed (ascii "forward 1") ++
      script [(1, .usart { fe := true } 0), (9, .thread)] ++ Act.feed (ascii "2\n"))
    (fun s => s.calls.any fun call => decide (call.map Cell.char = ascii "forward12") &&
      call.any fun c => call.any fun c' => c.epoch != c'.epoch) (by decide +kernel)
  simp only [List.any_eq_true, Bool.and_eq_true, bne_iff_ne] at hp
  obtain ⟨call, hcall, -, c, hc, c', hc', hne⟩ := hp
  exact hne (h s hr call hcall c hc c' hc')

end Sys

end RobotPws.Wifly
