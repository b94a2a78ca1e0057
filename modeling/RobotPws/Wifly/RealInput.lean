import RobotPws.Wifly.WakeUp

/-!
# The parser reads queued bytes

`sdGetTimeout` is called with the flag just read and its result is used as it
comes, so the flag must not be set while the queue is empty. Interrupts keep
that (`FlagTrue`); what breaks it is a byte taken, or a reset, with the flag
left set. `Real` holds in the runs without such a step (`RealOk`).
-/

namespace RobotPws.Wifly

open RobotPws.Lib RobotPws.Kernel RobotPws.Hal

variable {ω σ : Type} {cb : ProtocolCallback ω σ}

/-! ## The driver -/

/-- `CHN_INPUT_AVAILABLE` is set for a queued byte only. -/
def FlagTrue (d : SerialDriver) : Prop :=
  hasFlag d.elFlags chnInputAvailable = true → d.iqueue.qCounter ≠ 0

/-- A byte is queued and its flag has been read. -/
def ByteReady (d : SerialDriver) : Prop :=
  d.iqueue.qCounter ≠ 0 ∧ hasFlag d.elFlags chnInputAvailable = false

theorem chnAddFlagsI_input (d : SerialDriver) {f : FlagsMask}
    (hf : hasFlag f chnInputAvailable = false) :
    hasFlag (d.chnAddFlagsI f).elFlags chnInputAvailable = hasFlag d.elFlags chnInputAvailable := by
  unfold SerialDriver.chnAddFlagsI
  split
  · rw [hasFlag_or, hf, Bool.or_false]
  · rfl

theorem serveInterrupt_flagTrue {d : SerialDriver} (h : FlagTrue d) (sr : SR) (dr : UInt8) :
    FlagTrue (d.serveInterrupt sr dr) := by
  refine SerialDriver.serveInterrupt_keeps FlagTrue ?_ (fun _ _ hd => hd) ?_
    (fun _ _ _ _ hd => hd) h dr
  · intro d f hf hd
    unfold FlagTrue
    rw [chnAddFlagsI_input d hf, SerialDriver.chnAddFlagsI_iqueue]
    exact hd
  · intro _ d b hd
    obtain ⟨q, hq, -, he⟩ | ⟨q, hq, -, he⟩ | ⟨-, hne, he⟩ := d.sdIncomingDataI_cases b <;> rw [he]
    · exact fun _ => by rw [GenericQueue.chIQPutI_counter hq]; omega
    · exact fun _ => by rw [GenericQueue.chIQPutI_counter hq]; omega
    · exact fun _ => by simpa [SerialDriver.addErrorI] using hne

theorem serveInterrupt_byteReady {d : SerialDriver} (h : ByteReady d) (sr : SR) (dr : UInt8) :
    ByteReady (d.serveInterrupt sr dr) := by
  refine SerialDriver.serveInterrupt_keeps ByteReady ?_ (fun _ _ hd => hd) ?_
    (fun _ _ _ _ hd => hd) h dr
  · intro d f hf hd
    unfold ByteReady
    rw [chnAddFlagsI_input d hf, SerialDriver.chnAddFlagsI_iqueue]
    exact hd
  · rintro - d b ⟨hc, hd⟩
    obtain ⟨q, -, h0, -⟩ | ⟨q, hq, -, he⟩ | ⟨-, -, he⟩ := d.sdIncomingDataI_cases b
    · exact absurd h0 hc
    · rw [he]
      exact ⟨by rw [GenericQueue.chIQPutI_counter hq]; omega, hd⟩
    · rw [he]
      unfold ByteReady SerialDriver.addErrorI
      simp only [SerialDriver.chnAddFlagsI_iqueue]
      rw [chnAddFlagsI_input _ (by decide)]
      exact ⟨hc, hd⟩

/-! ## The machine -/

/-- The points where the flag may outlive the queued bytes: inside
`wifly_receive` and the reset of the queue. -/
def Pc.stale : Pc σ → Bool
  | .drain _ _ | .recvWait _ _ | .recvSleep _ _ | .recvFlags _ _ | .iqReset _ _ => true
  | _ => false

namespace Sys

/-- Where a byte is taken that ends `wifly_receive`, or the queue is emptied,
the flag is not left set for an empty queue. -/
def RealOk (s : Sys σ) : Act → Prop
  | .thread =>
    match s.pc with
    | .drain _ _ | .recvGet _ _ =>
      (s.sd.sdGetTimeout.1.any fun rx => rx.byte == 10) = true →
        2 ≤ s.sd.iqueue.qCounter ∨ hasFlag s.sd.elFlags chnInputAvailable = false
    | .iqReset .counter _ => hasFlag s.sd.elFlags chnInputAvailable = false
    | _ => True
  | _ => True

instance (s : Sys σ) (a : Act) : Decidable (RealOk s a) :=
  match a with
  | .thread =>
    match s with
    | { pc, .. } =>
      match pc with
      | .drain _ _ | .recvGet _ _ | .iqReset .counter _ => by dsimp only [RealOk]; infer_instance
      | .register | .top | .msgWait | .evtWait | .getFlags | .getByte | .call | .callback _
      | .send _ _ | .sendWait _ | .sendFlags _ | .recvWait _ _ | .recvSleep _ _ | .recvFlags _ _
      | .release _ _ _ | .iqReset .wrptr _ | .iqReset .rdptr _ | .oqReset _ => .isTrue trivial
  | .timeout | .result _ | .usart _ _ | .client _ _ => .isTrue trivial

structure Real (s : Sys σ) : Prop extends s.Signalled where
  rdptr : s.RdptrOk
  reading : s.pc = .getByte → ByteReady s.sd
  flag : s.pc.stale = false → FlagTrue s.sd
  cells : ∀ c ∈ s.parser.held, c.src ≠ none

theorem init_real : (init : Sys σ).Real where
  toSignalled := init_signalled
  rdptr := Nat.zero_lt_succ _
  reading h := nomatch h
  flag _ h := by simp [init, SerialDriver.start] at h
  cells := by simp [init, Parser.held, Parser.init]

theorem flagTrue_of_clear {d : SerialDriver}
    (h : hasFlag d.elFlags chnInputAvailable = false) : FlagTrue d := by
  intro hf
  rw [h] at hf
  cases hf

theorem dequeued_flagTrue {s : Sys σ} (h : 2 ≤ s.sd.iqueue.qCounter ∨
    hasFlag s.sd.elFlags chnInputAvailable = false) : FlagTrue s.dequeued.sd := by
  rcases h with h | h
  · intro _
    have hcount : s.dequeued.sd.iqueue.qCounter = s.sd.iqueue.qCounter - 1 :=
      s.sd.iqueue.chIQGetTimeout_counter
    omega
  · exact flagTrue_of_clear (d := s.dequeued.sd) h

theorem received_flagTrue {s : Sys σ} {r : Recv} {rx : Rx} {ret : RecvRet σ}
    {again : Recv → RecvRet σ → Pc σ} (hg : s.sd.sdGetTimeout.1 = some rx)
    (hok : (s.sd.sdGetTimeout.1.any fun rx => rx.byte == 10) = true →
      2 ≤ s.sd.iqueue.qCounter ∨ hasFlag s.sd.elFlags chnInputAvailable = false)
    (hag : ∀ r, (again r ret).stale = true)
    (hx : (recvByte cb s.dequeued r (inOf (some rx)) ret again).pc.stale = false) :
    FlagTrue (recvByte cb s.dequeued r (inOf (some rx)) ret again).sd := by
  rw [recvByte_sd]
  obtain ⟨-, he⟩ | ⟨-, hl, -⟩ | ⟨-, -, he⟩ :=
    recvByte_cases cb s.dequeued r (inOf (some rx)) ret again
  · rw [he] at hx; cases hx
  · exact dequeued_flagTrue (hok (by simp [hg, inOf_lf hl]))
  · rw [he, hag] at hx; cases hx

theorem move_flagTrue {s t : Sys σ} (h : s.Real) (hok : RealOk s .thread) (hm : Move cb s t)
    (hx : t.pc.stale = false) : FlagTrue t.sd := by
  unfold RealOk at hok
  cases hm with
  | register | inputFlag | errorFlags | otherFlags | sendMore | recvInput | recvOther =>
    exact flagTrue_of_clear (hasFlag_zero _)
  | sendDone | recvError => exact flagTrue_of_clear (by simp [flagsRead])
  | takeMessage hpc | listen hpc | noEvent hpc | call hpc | event hpc | sendRequest _ _ _ hpc
  | returnAnswer _ _ hpc | returnMessage _ hpc | callbackSendEmpty _ hpc | callbackSend _ _ hpc
  | sendEvent _ hpc | release _ _ _ hpc | oqReset _ _ hpc =>
    exact h.flag (by rw [hpc]; rfl)
  | readRequest | callbackRead | drained | recvEvent | recvSleep | iqResetWrptr | iqResetRdptr =>
    cases hx
  | byte hpc => exact flagTrue_of_clear (h.reading hpc).2
  | put b bs ret d hpc hd =>
    obtain ⟨q, -, rfl⟩ := Option.map_eq_some_iff.1 hd
    exact h.flag (by rw [hpc]; rfl)
  | drainByte r ret rx hpc hg | recvByte r ret rx hpc hg =>
    rw [hpc] at hok
    exact received_flagTrue hg hok (fun _ => rfl) hx
  | recvNothing r ret hpc hg =>
    rw [received_sd]
    have hc := GenericQueue.chIQGetTimeout_none h.rdptr hg
    refine flagTrue_of_clear ?_
    by_contra hf
    exact h.flag (by rw [hpc]; rfl) (by simpa [dequeued, SerialDriver.sdGetTimeout] using hf) hc
  | iqResetCounter ret hpc =>
    rw [hpc] at hok
    rw [iqWasReset_sd]
    exact flagTrue_of_clear hok

theorem step_flagTrue {s t : Sys σ} {a : Act} (h : s.Real) (hok : RealOk s a)
    (hs : s.step cb a = some t) (hx : t.pc.stale = false) : FlagTrue t.sd := by
  obtain ⟨rfl, hm⟩ | ⟨r, ret, -, hpc, he, rfl⟩ | ⟨x, v, -, hpc, rfl⟩ | ⟨sr, dr, -, rfl⟩ |
    ⟨thd, str, -, rfl⟩ := step_cases hs
  · exact move_flagTrue h hok hm hx
  · -- nothing is pending, so no flag is set
    rw [received_sd]
    refine flagTrue_of_clear ?_
    by_contra hf
    have hp := h.pending (by rw [hpc]; rfl) fun h0 => hf (by rw [h0]; exact hasFlag_zero _)
    rw [he] at hp
    cases hp
  · exact h.flag (by rw [hpc]; rfl)
  · exact serveInterrupt_flagTrue (h.flag hx) sr dr
  · exact h.flag hx

theorem step_reading {s t : Sys σ} {a : Act} (h : s.Real) (hs : s.step cb a = some t)
    (hpc' : t.pc = .getByte) : ByteReady t.sd := by
  obtain ⟨rfl, hm⟩ | ⟨r, ret, -, hpc, -, rfl⟩ | ⟨x, v, -, hpc, rfl⟩ | ⟨sr, dr, -, rfl⟩ |
    ⟨thd, str, -, rfl⟩ := step_cases hs
  · obtain ⟨hpc, hf, rfl⟩ := hm.to_getByte hpc'
    exact ⟨h.flag (by rw [hpc]; rfl) hf, hasFlag_zero _⟩
  · cases ret <;> simp [received] at hpc'
  · cases hpc'
  · exact serveInterrupt_byteReady (h.reading hpc') sr dr
  · exact h.reading hpc'

theorem Real.found {s : Sys σ} (h : s.Real) (hpc : s.pc = .getByte) :
    ∃ rx, s.sd.sdGetTimeout.1 = some rx := by
  cases hg : s.sd.sdGetTimeout.1 with
  | some rx => exact ⟨rx, rfl⟩
  | none => exact absurd (GenericQueue.chIQGetTimeout_none h.rdptr hg) (h.reading hpc).1

theorem step_cells {s t : Sys σ} {a : Act} (h : s.Real) (hs : s.step cb a = some t) :
    ∀ c ∈ t.parser.held, c.src ≠ none := by
  intro c hc
  cases step_line hs with
  | same he => exact h.cells c (he.parser ▸ hc)
  | new he => rw [he.boundary.held] at hc; cases hc
  | byte _ hpc =>
    obtain ⟨rx, hrx⟩ := h.found hpc
    rcases Parser.mem_held_feed hc with hc | ⟨rfl, -⟩
    · exact h.cells c hc
    · rw [hrx]; simp [cellOf]
  | call => exact h.cells c hc
  | discard => cases hc

theorem step_real {s t : Sys σ} {a : Act} (h : s.Real) (hok : RealOk s a)
    (hs : s.step cb a = some t) : t.Real where
  toSignalled := step_signalled h.toSignalled hs
  rdptr := step_rdptr h.rdptr hs
  reading := step_reading h hs
  flag := step_flagTrue h hok hs
  cells := step_cells h hs

/-- **The parser only reads queued bytes**, in every run that never leaves the
flag set for an empty queue: the read of the loop finds a byte, and every
character stored came from one. -/
theorem reads_real_input {s : Sys σ} (h : Reach (step cb) RealOk init s) :
    (s.pc = .getByte → s.sd.iqueue.chIQIsEmptyI = false) ∧
    ∀ c ∈ s.parser.held, ∃ k, c.src = some k := by
  have hr : s.Real := h.inv init_real fun _ _ _ hi hok hs => step_real hi hok hs
  refine ⟨fun hpc => ?_, fun c hc => Option.ne_none_iff_exists'.1 (hr.cells c hc)⟩
  simpa [GenericQueue.chIQIsEmptyI] using (hr.reading hpc).1

/-- A client reads a line that arrives while it waits, then a command starts. -/
theorem reads_real_input_after_read :
    ∃ s, Reach (step Main.callback) RealOk init s ∧ s.answers = [⟨7, .ok, [97]⟩] ∧
      (s.pc = .getByte ∧ s.sd.iqueue.chIQIsEmptyI = false) := by
  obtain ⟨s, hr, hp⟩ := reach_of_exec (step Main.callback) RealOk init
    (script [(1, .thread), (1, .client 7 []), (4, .thread), (1, .rx 97), (3, .thread),
      (1, .rx 10), (4, .thread), (1, .rx 98), (2, .thread)])
    (fun s => decide (s.answers = [⟨7, .ok, [97]⟩]) && decide (s.pc = .getByte)) (by decide +kernel)
  simp only [Bool.and_eq_true, decide_eq_true_eq] at hp
  exact ⟨s, hr, hp.1, hp.2, (reads_real_input hr).1 hp.2⟩

/-- A client reads a line that is already queued: the flag stays set, and the
loop stores `Q_TIMEOUT` as a character. -/
theorem status_code_stored :
    ¬ ∀ s, Reach (step Main.callback) Always init s →
      (s.pc = .getByte → s.sd.iqueue.chIQIsEmptyI = false) ∧
      ∀ c ∈ s.parser.held, ∃ k, c.src = some k := by
  intro h
  obtain ⟨s, hr, hp⟩ := reach_of_exec (step Main.callback) Always init
    (script [(1, .thread), (1, .client 7 []), (1, .rx 10), (8, .thread)])
    (fun s => decide (s.parser.held = [⟨255, none, 0⟩])) (by decide +kernel)
  simp only [decide_eq_true_eq] at hp
  obtain ⟨k, hk⟩ := (h s hr).2 ⟨255, none, 0⟩ (by simp [hp])
  cases hk

end Sys

end RobotPws.Wifly
