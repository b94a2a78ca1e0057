import RobotPws.Main
import RobotPws.Wifly.Moves

/-!
# Wake-ups on the receive side

The driver raises `CHN_INPUT_AVAILABLE` when the input queue was empty, so a
byte that stays behind in the queue is announced only by a flag that is still
set. `Signalled` holds in every run: outside the gap between taking the event
and reading its flags, flags that are set are pending. `Armed` adds that a
non-empty queue has its flag set; it needs runs that leave no byte behind
without the flag (`WakeOk`).
-/

namespace RobotPws.Wifly

open RobotPws.Lib RobotPws.Kernel RobotPws.Hal

variable {ω σ : Type} {cb : ProtocolCallback ω σ}

/-! ## The driver -/

/-- Flags that are set are pending. -/
def FlagsPending (d : SerialDriver) : Prop := d.elFlags ≠ 0 → d.epending = true

/-- A non-empty queue has its flag set. -/
def InputRaised (d : SerialDriver) : Prop :=
  d.iqueue.qCounter ≠ 0 → hasFlag d.elFlags chnInputAvailable = true

theorem chnAddFlagsI_pending {d : SerialDriver} (h : FlagsPending d) (f : FlagsMask) :
    FlagsPending (d.chnAddFlagsI f) := by
  unfold SerialDriver.chnAddFlagsI
  split
  · exact fun _ => rfl
  · exact h

theorem serveInterrupt_pending {d : SerialDriver} (h : FlagsPending d) (sr : SR) (dr : UInt8) :
    FlagsPending (d.serveInterrupt sr dr) := by
  refine SerialDriver.serveInterrupt_keeps FlagsPending
    (fun d f _ hd => chnAddFlagsI_pending hd f) (fun _ _ hd => hd) ?_ (fun _ _ _ _ hd => hd) h dr
  intro _ d b hd
  obtain ⟨q, -, -, he⟩ | ⟨q, -, -, he⟩ | ⟨-, -, he⟩ := d.sdIncomingDataI_cases b
  · rw [he]; exact chnAddFlagsI_pending (d := { d with wire := d.wire ++ [b] }) hd _
  · rw [he]; exact hd
  · rw [he]; exact chnAddFlagsI_pending (d := { d with wire := d.wire ++ [b] }) hd _

theorem serveInterrupt_registered (d : SerialDriver) (sr : SR) (dr : UInt8) :
    (d.serveInterrupt sr dr).registered = d.registered := by
  refine SerialDriver.serveInterrupt_keeps (fun d' => d'.registered = d.registered)
    (fun d' f _ hd => (d'.chnAddFlagsI_registered f).trans hd) (fun _ _ hd => hd) ?_
    (fun _ _ _ _ hd => hd) rfl dr
  intro _ d b hd
  obtain ⟨q, -, -, he⟩ | ⟨q, -, -, he⟩ | ⟨-, -, he⟩ := d.sdIncomingDataI_cases b <;> rw [he]
  · exact (SerialDriver.chnAddFlagsI_registered _ _).trans hd
  · exact hd
  · exact (SerialDriver.chnAddFlagsI_registered _ _).trans hd

theorem chnAddFlagsI_raised {d : SerialDriver} (h : InputRaised d) (f : FlagsMask) :
    InputRaised (d.chnAddFlagsI f) := by
  unfold SerialDriver.chnAddFlagsI
  split
  · intro hc
    rw [hasFlag_or, h hc, Bool.true_or]
  · exact h

theorem serveInterrupt_raised {d : SerialDriver} (hr : d.registered = true) (h : InputRaised d)
    (sr : SR) (dr : UInt8) : InputRaised (d.serveInterrupt sr dr) := by
  refine (SerialDriver.serveInterrupt_keeps (fun d => d.registered = true ∧ InputRaised d)
    (fun d f _ hd => ⟨(d.chnAddFlagsI_registered f).trans hd.1, chnAddFlagsI_raised hd.2 f⟩)
    (fun _ _ hd => hd) ?_ (fun _ _ _ _ hd => hd) ⟨hr, h⟩ dr).2
  rintro - d b ⟨hr, hd⟩
  obtain ⟨q, -, -, he⟩ | ⟨q, -, hne, he⟩ | ⟨-, hne, he⟩ := d.sdIncomingDataI_cases b <;> rw [he]
  · -- the queue was empty: the flag is raised
    simp [SerialDriver.chnAddFlagsI, hr, InputRaised,
      show hasFlag chnInputAvailable chnInputAvailable = true from rfl]
  · exact ⟨hr, fun _ => hd hne⟩
  · exact ⟨(SerialDriver.chnAddFlagsI_registered _ _).trans hr,
      chnAddFlagsI_raised (d := { d with wire := d.wire ++ [b] }) hd _⟩

/-! ## Flags that are set are pending -/

/-- Between taking the event and reading its flags. -/
def Pc.gap : Pc σ → Bool
  | .getFlags | .sendFlags _ | .recvFlags _ _ => true
  | _ => false

namespace Sys

structure Signalled (s : Sys σ) : Prop where
  registered : s.pc ≠ .register → s.sd.registered = true
  pending : s.pc.gap = false → FlagsPending s.sd

theorem init_signalled : (init : Sys σ).Signalled :=
  ⟨fun h => absurd rfl h, fun _ h => absurd rfl h⟩

theorem Signalled.keep {s t : Sys σ} (h : s.Signalled) (hr : s.pc ≠ .register)
    (hg : s.pc.gap = false) (he : t.sd.registered = s.sd.registered ∧
      t.sd.elFlags = s.sd.elFlags ∧ t.sd.epending = s.sd.epending) : t.Signalled := by
  refine ⟨fun _ => he.1.trans (h.registered hr), fun _ hf => ?_⟩
  rw [he.2.2]
  exact h.pending hg (he.2.1 ▸ hf)

/-- A move that clears the flags, or takes the event and goes on to read them. -/
theorem Signalled.clear {s t : Sys σ} (h : s.Signalled) (hr : s.pc ≠ .register)
    (he : t.sd.registered = s.sd.registered) (hc : t.pc.gap = true ∨ t.sd.elFlags = 0) :
    t.Signalled := by
  refine ⟨fun _ => he.trans (h.registered hr), fun hg hf => ?_⟩
  rcases hc with hc | hc
  · rw [hg] at hc; cases hc
  · exact absurd hc hf

theorem move_signalled {s t : Sys σ} (h : s.Signalled) (hm : Move cb s t) : t.Signalled := by
  cases hm with
  | register => exact ⟨fun _ => rfl, fun _ hf => absurd rfl hf⟩
  | takeMessage hpc | listen hpc | noEvent hpc | byte hpc | call hpc
  | readRequest _ _ hpc | sendRequest _ _ _ hpc
  | returnAnswer _ _ hpc | returnMessage _ hpc
  | callbackSendEmpty _ hpc | callbackSend _ _ hpc | callbackRead _ hpc
  | drained _ _ hpc | recvSleep _ _ hpc | release _ _ _ hpc
  | iqResetWrptr _ hpc | iqResetRdptr _ hpc | oqReset _ _ hpc =>
    exact h.keep (by simp [hpc]) (by simp [hpc, Pc.gap]) ⟨rfl, rfl, rfl⟩
  | drainByte _ _ _ hpc | recvNothing _ _ hpc | recvByte _ _ _ hpc | iqResetCounter _ hpc =>
    refine h.keep (by simp [hpc]) (by simp [hpc, Pc.gap]) ?_
    simp [dequeued, SerialDriver.sdGetTimeout, SerialDriver.chIQResetI]
  | put b bs ret d hpc hd =>
    obtain ⟨q, -, rfl⟩ := Option.map_eq_some_iff.1 hd
    exact h.keep (by simp [hpc]) (by simp [hpc, Pc.gap]) ⟨rfl, rfl, rfl⟩
  | event hpc | sendEvent _ hpc => exact h.clear (by simp [hpc]) rfl (.inl rfl)
  | recvEvent _ _ hpc => exact h.clear (by rcases hpc with hpc | hpc <;> simp [hpc]) rfl (.inl rfl)
  | inputFlag hpc | errorFlags hpc | otherFlags hpc | sendMore _ hpc
  | recvInput _ _ hpc | recvOther _ _ hpc => exact h.clear (by simp [hpc]) rfl (.inr rfl)
  | sendDone _ hpc | recvError _ _ hpc =>
    exact h.clear (by simp [hpc]) (by simp [flagsRead]) (.inr (by simp [flagsRead]))

theorem step_signalled {s t : Sys σ} {a : Act} (h : s.Signalled) (hs : s.step cb a = some t) :
    t.Signalled := by
  obtain ⟨-, hm⟩ | ⟨r, ret, -, hpc, -, rfl⟩ | ⟨x, v, -, hpc, rfl⟩ | ⟨sr, dr, -, rfl⟩ |
    ⟨thd, str, -, rfl⟩ := step_cases hs
  · exact move_signalled h hm
  · exact h.keep (by simp [hpc]) (by simp [hpc, Pc.gap]) (by simp)
  · exact h.keep (by simp [hpc]) (by simp [hpc, Pc.gap]) ⟨rfl, rfl, rfl⟩
  · exact ⟨fun hr => (serveInterrupt_registered ..).trans (h.registered hr),
      fun hg => serveInterrupt_pending (h.pending hg) sr dr⟩
  · exact ⟨h.registered, h.pending⟩

theorem reach_signalled {s : Sys σ} {C : Sys σ → Act → Prop}
    (h : Reach (step cb) C init s) : s.Signalled :=
  h.inv init_signalled fun _ _ _ hi _ hs => step_signalled hi hs

/-! ## A queued byte has its flag -/

end Sys

/-- The points that may hold a queued byte without its flag: its flag has just
been read, or the queue is going to be reset. -/
def Pc.exempt : Pc σ → Bool
  | .register | .getByte | .recvGet _ _ | .iqReset _ _ => true
  | .send _ ret | .sendWait ret | .sendFlags ret => ret.isOverflow
  | _ => false

namespace Sys

/-- The steps that read flags or take a byte leave no byte queued without its
flag, unless the queue is reset next: the buffer of the loop or of
`wifly_receive` overflows, or that overflow is being answered. -/
def WakeOk (s : Sys σ) : Act → Prop
  | .thread =>
    match s.pc with
    | .register => s.sd.iqueue.qCounter = 0
    | .getByte => s.sd.iqueue.qCounter ≤ 1 ∨ hasFlag s.sd.elFlags chnInputAvailable = true ∨
        (s.parser.store (inOf s.sd.sdGetTimeout.1) (cellOf s.sd.sdGetTimeout.1 s.sd.errs)).full = true
    | .sendFlags ret => s.sd.iqueue.qCounter = 0 ∨ ret.isOverflow = true
    | .recvGet r _ => s.sd.iqueue.qCounter ≤ 1 ∨ hasFlag s.sd.elFlags chnInputAvailable = true ∨
        (s.sd.sdGetTimeout.1.any fun rx => (r.store (inOf (some rx))).full) = true
    | _ => True
  | _ => True

instance (s : Sys σ) (a : Act) : Decidable (WakeOk s a) :=
  match a with
  | .thread =>
    match s with
    | { pc, .. } =>
      match pc with
      | .register | .getByte | .sendFlags _ | .recvGet _ _ => by dsimp only [WakeOk]; infer_instance
      | .top | .msgWait | .evtWait | .getFlags | .call | .callback _ | .send _ _ | .sendWait _
      | .drain _ _ | .recvWait _ _ | .recvSleep _ _ | .recvFlags _ _ | .release _ _ _
      | .iqReset _ _ | .oqReset _ => .isTrue trivial
  | .timeout | .result _ | .usart _ _ | .client _ _ => .isTrue trivial

structure Armed (s : Sys σ) : Prop extends s.Signalled where
  input : s.pc.exempt = false → InputRaised s.sd

theorem init_armed : (init : Sys σ).Armed := ⟨init_signalled, fun h => by cases h⟩

theorem dequeued_raised {s : Sys σ} (h : s.sd.iqueue.qCounter ≤ 1 ∨
    hasFlag s.sd.elFlags chnInputAvailable = true) : InputRaised s.dequeued.sd := by
  intro hc
  have hcount : s.dequeued.sd.iqueue.qCounter = s.sd.iqueue.qCounter - 1 :=
    s.sd.iqueue.chIQGetTimeout_counter
  rw [hcount] at hc
  rcases h with h | h
  · omega
  · exact h

theorem raised_dequeued {s : Sys σ} (h : InputRaised s.sd) : InputRaised s.dequeued.sd := by
  refine dequeued_raised ?_
  by_cases hc : s.sd.iqueue.qCounter = 0
  · exact .inl (by omega)
  · exact .inr (h hc)

/-- Flags read without `CHN_INPUT_AVAILABLE` mean that the queue is empty. -/
theorem raised_flagsRead {s : Sys σ} (h : InputRaised s.sd)
    (hf : hasFlag s.sd.elFlags chnInputAvailable = false) : InputRaised s.flagsRead.sd := by
  intro hc
  rw [h hc] at hf
  cases hf

theorem sent_exempt (s : Sys σ) {ret : SendRet σ} (h : ret.isOverflow = true) :
    (s.sent ret).pc.exempt = true := by
  cases ret <;> first | rfl | cases h

theorem after_exempt {v : Verdict} (h : (Pc.after v : Pc σ).exempt = false) : v ≠ .overflow := by
  rintro rfl; cases h

theorem move_armed {s t : Sys σ} (h : s.Armed) (hok : WakeOk s .thread) (hm : Move cb s t) :
    t.Armed := by
  refine ⟨move_signalled h.toSignalled hm, fun hx => ?_⟩
  unfold WakeOk at hok
  cases hm with
  | register hpc =>
    rw [hpc] at hok
    exact fun hc => absurd hok hc
  | takeMessage hpc | listen hpc | noEvent hpc | event hpc | call hpc
  | readRequest _ _ hpc | sendRequest _ _ _ hpc
  | returnAnswer _ _ hpc | returnMessage _ hpc
  | callbackSendEmpty _ hpc | callbackSend _ _ hpc | callbackRead _ hpc
  | recvSleep _ _ hpc | release _ _ _ hpc | oqReset _ _ hpc =>
    exact h.input (by simp [hpc, Pc.exempt])
  | recvEvent _ _ hpc => exact h.input (by rcases hpc with hpc | hpc <;> simp [hpc, Pc.exempt])
  | inputFlag hpc | errorFlags hpc | recvInput _ _ hpc | iqResetWrptr _ hpc | iqResetRdptr _ hpc =>
    cases hx
  | otherFlags hpc hf | recvOther _ _ hpc hf =>
    exact raised_flagsRead (h.input (by simp [hpc, Pc.exempt])) hf
  | recvError _ _ hpc hf =>
    rw [received_sd]
    exact raised_flagsRead (h.input (by simp [hpc, Pc.exempt])) hf
  | byte hpc =>
    rw [hpc] at hok
    refine dequeued_raised (hok.imp_right fun hok => hok.resolve_right fun hfull => ?_)
    refine after_exempt hx ?_
    simp only [fed, Parser.feed, hfull, ↓reduceIte]
  | put b bs ret d hpc hd =>
    obtain ⟨q, -, rfl⟩ := Option.map_eq_some_iff.1 hd
    refine h.input ?_
    rw [hpc]
    by_cases hbs : bs = [] <;> simpa [hbs, Pc.exempt] using hx
  | sendEvent ret hpc =>
    refine h.input ?_
    rw [hpc]
    exact hx
  | sendDone ret hpc =>
    rw [hpc] at hok
    rw [sent_sd]
    refine fun hne => absurd (hok.resolve_right fun ho => ?_) hne
    rw [sent_exempt _ ho] at hx; cases hx
  | sendMore ret hpc =>
    rw [hpc] at hok
    refine fun hne => absurd (hok.resolve_right fun ho => ?_) hne
    rw [show ret.isOverflow = false from hx] at ho; cases ho
  | drained _ _ hpc => exact raised_dequeued (h.input (by simp [hpc, Pc.exempt]))
  | drainByte _ _ _ hpc =>
    rw [recvByte_sd]
    exact raised_dequeued (h.input (by simp [hpc, Pc.exempt]))
  | recvNothing r ret hpc hg =>
    rw [hpc] at hok
    rw [received_sd]
    refine dequeued_raised (hok.imp_right fun hok => hok.resolve_right ?_)
    rw [hg]; simp
  | recvByte r ret rx hpc hg =>
    rw [hpc] at hok
    rw [recvByte_sd]
    refine dequeued_raised (hok.imp_right fun hok => hok.resolve_right ?_)
    rw [hg]
    obtain ⟨-, he⟩ | ⟨hf, -⟩ | ⟨hf, -⟩ :=
      recvByte_cases cb s.dequeued r (inOf (some rx)) ret .recvWait
    · rw [he] at hx; cases hx
    · simpa using hf
    · simpa using hf
  | iqResetCounter ret hpc =>
    rw [iqWasReset_sd]
    exact fun hne => absurd rfl hne

theorem step_armed {s t : Sys σ} {a : Act} (h : s.Armed) (hok : WakeOk s a)
    (hs : s.step cb a = some t) : t.Armed := by
  have hsig := step_signalled h.toSignalled hs
  obtain ⟨rfl, hm⟩ | ⟨r, ret, -, hpc, -, rfl⟩ | ⟨x, v, -, hpc, rfl⟩ | ⟨sr, dr, -, rfl⟩ |
    ⟨thd, str, -, rfl⟩ := step_cases hs
  · exact move_armed h hok hm
  · exact ⟨hsig, fun _ => by rw [received_sd]; exact h.input (by simp [hpc, Pc.exempt])⟩
  · exact ⟨hsig, fun _ => h.input (by simp [hpc, Pc.exempt])⟩
  · refine ⟨hsig, fun hx => serveInterrupt_raised (h.registered ?_) (h.input hx) sr dr⟩
    intro hpc
    rw [show s.pc = .register from hpc] at hx
    cases hx
  · exact ⟨hsig, h.input⟩

/-- **No lost wake-up**, in every run that leaves no byte behind without its
flag: about to wait, the loop has the event pending and the flag set whenever
a byte is queued. -/
theorem no_lost_wake_up {s : Sys σ} (h : Reach (step cb) WakeOk init s) (hpc : s.pc = .evtWait)
    (hne : s.sd.iqueue.chIQIsEmptyI = false) :
    s.sd.epending = true ∧ hasFlag s.sd.elFlags chnInputAvailable = true := by
  have ha : s.Armed := h.inv init_armed fun _ _ _ hi hok hs => step_armed hi hok hs
  have hf : hasFlag s.sd.elFlags chnInputAvailable = true :=
    ha.input (by simp [hpc, Pc.exempt]) (by simpa [GenericQueue.chIQIsEmptyI] using hne)
  refine ⟨ha.pending (by simp [hpc, Pc.gap]) ?_, hf⟩
  intro h0
  simp [h0] at hf

/-- A byte read, then another received. -/
theorem no_lost_wake_up_second_byte :
    ∃ s, Reach (step Main.callback) WakeOk init s ∧ s.sd.iqueue.chIQIsEmptyI = false ∧
      s.sd.epending = true ∧ hasFlag s.sd.elFlags chnInputAvailable = true := by
  obtain ⟨s, hr, hp⟩ := reach_of_exec (step Main.callback) WakeOk init
    (script [(2, .thread), (1, .rx 97), (4, .thread), (1, .rx 98)])
    (fun s => decide (s.pc = .evtWait) && !s.sd.iqueue.chIQIsEmptyI) (by decide +kernel)
  simp only [Bool.and_eq_true, decide_eq_true_eq, Bool.not_eq_true'] at hp
  exact ⟨s, hr, hp.2, no_lost_wake_up hr hp.1 hp.2⟩

/-- Two bytes received before the loop reads the first: the second stays
queued and nothing announces it. -/
theorem wake_up_lost :
    ¬ ∀ s, Reach (step Main.callback) Always init s → s.pc = .evtWait →
      s.sd.iqueue.chIQIsEmptyI = false →
      s.sd.epending = true ∧ hasFlag s.sd.elFlags chnInputAvailable = true := by
  intro h
  obtain ⟨s, hr, hp⟩ := reach_of_exec (step Main.callback) Always init
    (script [(2, .thread), (1, .rx 97), (1, .rx 98), (4, .thread)])
    (fun s => decide (s.pc = .evtWait) && !s.sd.iqueue.chIQIsEmptyI && !s.sd.epending)
    (by decide +kernel)
  simp only [Bool.and_eq_true, decide_eq_true_eq, Bool.not_eq_true'] at hp
  have he := (h s hr hp.1.1 hp.1.2).1
  rw [hp.2] at he
  cases he

end Sys

end RobotPws.Wifly
