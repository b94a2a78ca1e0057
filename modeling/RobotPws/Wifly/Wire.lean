import RobotPws.Wifly.Completion
import RobotPws.Wifly.Outgoing
import RobotPws.Wifly.Refinement
import RobotPws.Wifly.Timing

/-!
# From wire to wire

What goes in and out of the two wires of SD2 in a run whose interrupts report no
receive error (`ErrorFree`). No flag but the three of data and transmission is set
then, the error branch of the loop is never taken and neither queue is reset by it,
so what is put into the output queue is transmitted as it is. While nobody but the loop
reads (`Undivided`), what it reads is the wire, and for lines that fit it does on it what
the reference of the framing does.
-/

namespace RobotPws.Wifly

open RobotPws.Lib RobotPws.Kernel RobotPws.Hal

/-! ## Interrupts without an error -/

/-- Only the flags of data and of transmission are set. -/
def DataFlags (f : FlagsMask) : Prop := f ||| 28 = 28

theorem dataFlags_zero : DataFlags 0 := rfl

theorem DataFlags.or {f g : FlagsMask} (hf : DataFlags f) (hg : DataFlags g) :
    DataFlags (f ||| g) := by
  unfold DataFlags at *
  rw [BitVec.or_assoc, hg, hf]

theorem DataFlags.le {f : FlagsMask} (h : DataFlags f) : ¬ f > 32 := by
  have hle : f.toNat ≤ (f ||| 28).toNat := by
    rw [BitVec.toNat_or]
    exact Nat.left_le_or
  rw [h] at hle
  have h28 : (28 : FlagsMask).toNat = 28 := rfl
  rw [gt_iff_lt, BitVec.lt_def, show (32 : FlagsMask).toNat = 32 from rfl]
  omega

theorem dataFlags_add {d : SerialDriver} (h : DataFlags d.elFlags) {f : FlagsMask}
    (hf : DataFlags f) : DataFlags (d.chnAddFlagsI f).elFlags := by
  unfold SerialDriver.chnAddFlagsI
  split
  · exact h.or hf
  · exact h

theorem incoming_room {d : SerialDriver} (hroom : d.iqueue.chIQIsFullI = false) (b : UInt8) :
    ∃ q, d.iqueue.chIQPutI ⟨b, d.wire.length⟩ = some q ∧
      (d.sdIncomingDataI b).iqueue = q ∧ (d.sdIncomingDataI b).wire = d.wire ++ [b] ∧
      (DataFlags d.elFlags → DataFlags (d.sdIncomingDataI b).elFlags) := by
  obtain ⟨q, hq, -, he⟩ | ⟨q, hq, -, he⟩ | ⟨hq, -, -⟩ := d.sdIncomingDataI_cases b
  · exact ⟨q, hq, by rw [he], by rw [he]; simp, fun hf => by
      rw [he]; exact dataFlags_add (d := { d with wire := d.wire ++ [b] }) hf rfl⟩
  · exact ⟨q, hq, by rw [he], by rw [he], fun hf => by rw [he]; exact hf⟩
  · simp [GenericQueue.chIQPutI, hroom] at hq

theorem transmitI_input (d : SerialDriver) :
    d.transmitI.iqueue = d.iqueue ∧ d.transmitI.wire = d.wire ∧
      (DataFlags d.elFlags → DataFlags d.transmitI.elFlags) := by
  unfold SerialDriver.transmitI
  split
  · exact ⟨rfl, rfl, id⟩
  · exact ⟨by simp, by simp, fun h => dataFlags_add h rfl⟩

namespace Sys

variable {ω σ : Type} {cb : ProtocolCallback ω σ}

/-- The interrupt reports no error, and a byte it receives finds room. -/
def ErrorFree (s : Sys σ) : Act → Prop
  | .usart sr _ => sr.clean = true ∧ (sr.rxne = true → s.sd.iqueue.chIQIsFullI = false)
  | _ => True

instance (s : Sys σ) (a : Act) : Decidable (ErrorFree s a) :=
  match a with
  | .usart _ _ => inferInstanceAs (Decidable (_ ∧ _))
  | .thread | .timeout | .result _ | .client _ _ => .isTrue trivial

theorem serveInterrupt_input {s : Sys σ} {sr : SR} {dr : UInt8} (h : ErrorFree s (.usart sr dr)) :
    ((s.sd.serveInterrupt sr dr).iqueue = s.sd.iqueue ∧
      (s.sd.serveInterrupt sr dr).wire = s.sd.wire) ∨
    ∃ q, s.sd.iqueue.chIQPutI ⟨dr, s.sd.wire.length⟩ = some q ∧
      (s.sd.serveInterrupt sr dr).iqueue = q ∧
      (s.sd.serveInterrupt sr dr).wire = s.sd.wire ++ [dr] := by
  refine SerialDriver.serveInterrupt_clean (P := fun d => (d.iqueue = s.sd.iqueue ∧ d.wire = s.sd.wire) ∨
    ∃ q, s.sd.iqueue.chIQPutI ⟨dr, s.sd.wire.length⟩ = some q ∧ d.iqueue = q ∧
      d.wire = s.sd.wire ++ [dr]) h.1 (.inl ⟨rfl, rfl⟩) (fun hr => ?_) ?_ ?_
  · obtain ⟨q, hq, h1, h2, -⟩ := incoming_room (h.2 hr) dr
    exact .inr ⟨q, hq, h1, h2⟩
  · intro d hd
    obtain ⟨h1, h2, -⟩ := transmitI_input d
    rw [h1, h2]
    exact hd
  · intro d c hd
    simpa using hd

theorem serveInterrupt_dataFlags {s : Sys σ} {sr : SR} {dr : UInt8}
    (h : ErrorFree s (.usart sr dr)) (hf : DataFlags s.sd.elFlags) :
    DataFlags (s.sd.serveInterrupt sr dr).elFlags := by
  refine SerialDriver.serveInterrupt_clean (P := fun d => DataFlags d.elFlags) h.1 hf (fun hr => ?_) ?_ ?_
  · obtain ⟨q, -, -, -, h3⟩ := incoming_room (h.2 hr) dr
    exact h3 hf
  · intro d hd
    exact (transmitI_input d).2.2 hd
  · intro d c hd
    exact dataFlags_add hd rfl

/-! ## The error branch is not taken -/

/-- The loop resets the queues after an error. -/
def resetting : Pc σ → Bool
  | .iqReset _ .error | .oqReset _ => true
  | _ => false

/-- No error has been flagged. -/
structure Calm (s : Sys σ) : Prop where
  flags : DataFlags s.sd.elFlags
  pc : resetting s.pc = false

theorem init_calm : (init : Sys σ).Calm := ⟨dataFlags_zero, rfl⟩

theorem resetting_received (s : Sys σ) (st : State) (r : Recv) (ret : RecvRet σ) :
    resetting (s.received cb st r ret).pc = false := by
  cases ret <;> rfl

theorem move_calm {s t : Sys σ} (h : s.Calm) (hm : Move cb s t) : t.Calm := by
  cases hm with
  | register | inputFlag | otherFlags | sendMore | recvInput | recvOther =>
    exact ⟨dataFlags_zero, rfl⟩
  | sendDone ret => exact ⟨by rw [sent_sd]; exact dataFlags_zero, by cases ret <;> rfl⟩
  | recvError => exact ⟨by rw [received_sd]; exact dataFlags_zero, resetting_received ..⟩
  | errorFlags hpc hf h32 => exact absurd h32 h.flags.le
  | takeMessage | listen | readRequest | sendRequest | event | noEvent | call | returnAnswer
  | returnMessage | callbackSendEmpty | callbackSend | callbackRead | sendEvent | drained | recvEvent
  | recvSleep | release => exact ⟨h.flags, rfl⟩
  | byte =>
    refine ⟨h.flags, ?_⟩
    show resetting (Pc.after s.fed.2) = false
    cases s.fed.2 <;> rfl
  | put b bs ret d hpc hd =>
    obtain ⟨q, -, rfl⟩ := Option.map_eq_some_iff.1 hd
    exact ⟨h.flags, by by_cases hbs : bs = [] <;> simp [hbs, resetting]⟩
  | drainByte r ret rx | recvByte r ret rx =>
    refine ⟨by rw [recvByte_sd]; exact h.flags, ?_⟩
    obtain ⟨-, he⟩ | ⟨-, -, he⟩ | ⟨-, -, he⟩ := recvByte_cases cb s.dequeued r (inOf (some rx)) ret _
    all_goals rw [he]
    · rfl
    · exact resetting_received ..
    · rfl
  | recvNothing => exact ⟨by rw [received_sd]; exact h.flags, resetting_received ..⟩
  | iqResetWrptr ret hpc | iqResetRdptr ret hpc =>
    have hno := h.pc
    rw [hpc] at hno
    cases ret with
    | error => cases hno
    | overflow | receive => exact ⟨h.flags, rfl⟩
  | iqResetCounter ret hpc =>
    have hno := h.pc
    rw [hpc] at hno
    refine ⟨by rw [iqWasReset_sd]; exact h.flags, ?_⟩
    cases ret with
    | error => cases hno
    | overflow => rfl
    | receive => exact resetting_received ..
  | oqReset k pc hpc =>
    have hno := h.pc
    rw [hpc] at hno
    cases hno

theorem step_calm {s t : Sys σ} {a : Act} (h : s.Calm) (hok : ErrorFree s a)
    (hs : s.step cb a = some t) : t.Calm := by
  obtain ⟨-, hm⟩ | ⟨r, ret, -, hpc, -, rfl⟩ | ⟨x, v, -, hpc, rfl⟩ | ⟨sr, dr, rfl, rfl⟩ |
    ⟨thd, str, -, rfl⟩ := step_cases hs
  · exact move_calm h hm
  · exact ⟨by rw [received_sd]; exact h.flags, resetting_received ..⟩
  · exact ⟨h.flags, rfl⟩
  · exact ⟨serveInterrupt_dataFlags hok h.flags, h.pc⟩
  · exact ⟨h.flags, h.pc⟩

/-! ## Out -/

/-- What has been put is what has been transmitted and what is queued. -/
def Carried (s : Sys σ) (puts : List UInt8) : Prop :=
  ∃ Q, s.sd.oqueue.OQHolds Q ∧ s.sd.tx ++ Q = puts

theorem step_carried {s t : Sys σ} {a : Act} {puts : List UInt8} (h : s.Carried puts)
    (hc : s.Calm) (hs : s.step cb a = some t) :
    t.Carried (puts ++ s.sd.oqueue.written t.sd.oqueue) := by
  obtain ⟨Q, hQ, htx⟩ := h
  have hr : ∀ k, s.pc ≠ .oqReset k := by
    intro k hpc
    have hno := hc.pc
    rw [hpc] at hno
    cases hno
  obtain ⟨Q', hQ', htx'⟩ := step_queued hs hr hQ
  exact ⟨Q', hQ', by rw [htx', htx]⟩

/-- **Messages go out whole, in order and unmixed**, in every run without receive errors: what
has been transmitted and what is still queued are the messages put so far, one after the
other, with the first part of the one being put. -/
theorem transmitted_whole {as : List Label} {t : Sys σ}
    (h : Steps (apiStep cb) (LabelOk ErrorFree) init as t) :
    ∃ whole part Q, Outgoing t (observe (apiStep cb) (outEvents cb) init as) whole part ∧
      t.sd.oqueue.OQHolds Q ∧ t.sd.tx ++ Q = (whole.map Prod.fst).flatten ++ part := by
  have hstep : ∀ (s : Sys σ) (l : List (OutEvent σ)) (a : Label) (t : Sys σ),
      s.Calm ∧ s.Carried (l.filterMap OutEvent.toPut) → LabelOk ErrorFree s a →
      s.apiStep cb a = some t →
      t.Calm ∧ t.Carried ((l ++ s.outEvents cb a t).filterMap OutEvent.toPut) := by
    rintro s l a t ⟨hc, hq⟩ hok hst
    have hact := apiStep_act hst
    refine ⟨step_calm hc (labelOk_act hst hok) hact, ?_⟩
    rw [List.filterMap_append, outEvents_puts]
    exact step_carried hq hc hact
  obtain ⟨whole, part, hout⟩ := run_outgoing h
  obtain ⟨-, Q, hQ, htx⟩ := h.inv_observe hstep (l := [])
    ⟨init_calm, [], .init (by decide) 0, rfl⟩
  exact ⟨whole, part, Q, hout, hQ, htx.trans hout.bytes⟩

end Sys

/-! ## In -/

section
variable {ρ : Type} (f : Callback ρ)

/-- The bytes of these lines. -/
def lineStream (lines : List (List UInt8)) : List UInt8 := lines.flatMap (· ++ [10])

/-- A stream of lines from a boundary, with the state it leads to. -/
theorem feedAll_lines {s : LoopState ρ} {lines : List (List UInt8)} (hs : s.parser.Boundary)
    (h0 : s.skip = 0) (hl : ∀ line ∈ lines, LineOk line) :
    ∃ p : Parser UInt8, p.Boundary ∧ feedAll f s (lineStream lines) =
      ({ s with env := (refLines f s.env lines).1, parser := p }, (refLines f s.env lines).2) := by
  induction lines generalizing s with
  | nil => exact ⟨s.parser, hs, rfl⟩
  | cons line lines ih =>
    obtain ⟨p, hp, he⟩ := feedAll_line f hs h0 (hl line List.mem_cons_self)
    obtain ⟨p', hp', he'⟩ := ih (s := { s with env := (refLine f s.env line).1, parser := p }) hp h0
      fun l hm => hl l (List.mem_cons_of_mem _ hm)
    refine ⟨p', hp', ?_⟩
    rw [lineStream, List.flatMap_cons, feedAll_append, he]
    rw [lineStream] at he'
    simp only [he', refLines]

/-- No line that fits is answered with an overflow. -/
theorem overflow_not_mem_refLines (env : ρ) (lines : List (List UInt8)) :
    Event.reply overflowMsg ∉ (refLines f env lines).2 := by
  induction lines generalizing env with
  | nil => exact List.not_mem_nil
  | cons line lines ih =>
    have hline : Event.reply overflowMsg ∉ (refLine f env line).2 := by
      unfold refLine
      dsimp only
      split
      · split <;> · rw [List.mem_singleton, Event.reply.injEq]; decide
      · generalize f env _ _ = r
        obtain ⟨env', sent, ret⟩ := r
        cases ret <;> simp [okMsg, errorMsg, overflowMsg] <;> decide
    simp only [refLines, List.mem_append, not_or]
    exact ⟨hline, ih _⟩

end

namespace Sys

variable {ω σ : Type} {cb : ProtocolCallback ω σ}

theorem matched_lines {s : Sys σ} {l : List Shown} {lines : List (List UInt8)}
    {bytes : List UInt8} (hm : Matches s l) (hl : ∀ line ∈ lines, LineOk line)
    (hr : loopReads l = bytes.map fun b => (b.toNat : Int)) (hb : bytes <+: lineStream lines) :
    ∃ turns, loopEvents l <+: (refLines playback turns lines).2 ∧
      (s.pc.phase = .idle → bytes = lineStream lines →
        loopEvents l = (refLines playback turns lines).2) := by
  obtain ⟨turns, hpre, hidle⟩ := hm.refines
  have hfeed : (played turns l).2 = (feedAll playback ⟨turns, .init, 0, []⟩ bytes).2 := by
    rw [loopValues_bytes playback ⟨turns, .init, 0, []⟩ rfl rfl bytes, played, hr]
  obtain ⟨p, -, he⟩ := feedAll_lines playback (s := ⟨turns, .init, 0, []⟩) ⟨rfl, rfl, rfl⟩ rfl hl
  refine ⟨turns, ?_, fun hph hall => ?_⟩
  · obtain ⟨rest, hrest⟩ := hb
    rw [← hrest, feedAll_append] at he
    have hevents : (refLines playback turns lines).2 = (played turns l).2 ++ _ :=
      (congrArg Prod.snd he).symm.trans (by rw [hfeed])
    rw [hevents]
    exact hpre.trans (List.prefix_append _ _)
  · rw [hidle hph] at hfeed
    rw [hall, he] at hfeed
    exact hfeed

/-- The callback is about to call `wiflyRead`. -/
def asksRead (cb : ProtocolCallback ω σ) (s : Sys σ) : Bool :=
  match s.pc with
  | .callback x =>
    match cb.req x with
    | .read => true
    | _ => false
  | _ => false

/-- No receive error, and nobody but the loop reads. -/
def Undivided (cb : ProtocolCallback ω σ) (s : Sys σ) (a : Act) : Prop :=
  ErrorFree s a ∧
    match a with
    | .client _ str => str ≠ []
    | .thread => s.asksRead cb = false
    | _ => True

instance (s : Sys σ) (a : Act) : Decidable (Undivided cb s a) :=
  match a with
  | .client _ str => inferInstanceAs (Decidable (_ ∧ str ≠ []))
  | .thread => inferInstanceAs (Decidable (_ ∧ s.asksRead cb = false))
  | .usart _ _ | .timeout | .result _ => inferInstanceAs (Decidable (_ ∧ True))

/-- In `wifly_receive`, or the queue is being reset, or will be. -/
def elsewhere : Pc σ → Bool
  | .drain _ _ | .recvWait _ _ | .recvSleep _ _ | .recvFlags _ _ | .recvGet _ _ | .iqReset _ _
  | .oqReset _ => true
  | .send _ ret | .sendWait ret | .sendFlags ret => ret.isOverflow
  | _ => false

/-- Nothing but the loop and the interrupt touches the input queue. -/
structure Untouched (s t : Sys σ) : Prop where
  pc : elsewhere t.pc = false
  iqueue : t.sd.iqueue = s.sd.iqueue
  wire : t.sd.wire = s.sd.wire
  requests : ∀ m ∈ t.msgQueue, m.2 ≠ []

/-- What a step does to the input, with the values the loop reads. -/
inductive InputStep (s : Sys σ) : Act → Sys σ → Prop where
  | byte : s.pc = .getByte → InputStep s .thread s.readByte
  | usart (sr : SR) (dr : UInt8) : InputStep s (.usart sr dr)
      { s with sd := s.sd.serveInterrupt sr dr }
  | other {a : Act} {t : Sys σ} : a ≠ .thread ∨ s.pc ≠ .getByte → Untouched s t → InputStep s a t

theorem step_input {s t : Sys σ} {a : Act} (hc : s.Calm) (hpc : elsewhere s.pc = false)
    (hq : ∀ m ∈ s.msgQueue, m.2 ≠ []) (hok : Undivided cb s a) (hs : s.step cb a = some t) :
    InputStep s a t := by
  obtain ⟨rfl, hm⟩ | ⟨r, ret, -, hp, -, rfl⟩ | ⟨x, v, -, hp, rfl⟩ | ⟨sr, dr, rfl, rfl⟩ |
    ⟨thd, str, rfl, rfl⟩ := step_cases hs
  · cases hm with
    | byte hp => exact .byte hp
    | register hp | takeMessage hp | listen hp | event hp | noEvent hp | inputFlag hp
    | otherFlags hp | call hp | returnMessage _ hp | callbackSendEmpty _ hp | callbackSend _ _ hp
    | returnAnswer _ _ hp | release _ _ _ hp =>
      exact .other (.inr (by rw [hp]; simp)) ⟨rfl, rfl, rfl, hq⟩
    | sendEvent _ hp | sendMore _ hp =>
      rw [hp] at hpc
      exact .other (.inr (by rw [hp]; simp)) ⟨hpc, rfl, rfl, hq⟩
    | errorFlags hp hf h32 => exact absurd h32 hc.flags.le
    | readRequest thd q hp hq' => exact absurd rfl (hq (thd, []) (by rw [hq']; simp))
    | sendRequest thd str q hp hq' =>
      refine .other (.inr (by rw [hp]; simp)) ⟨rfl, rfl, rfl, fun m hm => hq m ?_⟩
      rw [hq']
      exact List.mem_cons_of_mem _ hm
    | callbackRead x hp hr =>
      have hno := hok.2
      simp only [asksRead, hp, hr] at hno
      cases hno
    | put b bs ret d hp hd =>
      obtain ⟨q, -, rfl⟩ := Option.map_eq_some_iff.1 hd
      rw [hp] at hpc
      refine .other (.inr (by rw [hp]; simp)) ⟨?_, rfl, rfl, hq⟩
      by_cases hbs : bs = [] <;> simp only [hbs, ↓reduceIte] <;> exact hpc
    | sendDone ret hp =>
      rw [hp] at hpc
      cases ret with
      | overflow => cases hpc
      | release | reply | callback =>
        exact .other (.inr (by rw [hp]; simp)) ⟨rfl, rfl, rfl, hq⟩
    | drained _ _ hp | drainByte _ _ _ hp | recvSleep _ _ hp | recvInput _ _ hp | recvError _ _ hp
    | recvOther _ _ hp | recvNothing _ _ hp | recvByte _ _ _ hp | iqResetWrptr _ hp
    | iqResetRdptr _ hp | iqResetCounter _ hp | oqReset _ _ hp => rw [hp] at hpc; cases hpc
    | recvEvent _ _ hp => rcases hp with hp | hp <;> rw [hp] at hpc <;> cases hpc
  · rw [hp] at hpc
    cases hpc
  · exact .other (.inr (by rw [hp]; simp)) ⟨rfl, rfl, rfl, hq⟩
  · exact .usart sr dr
  · refine .other (.inl (by simp)) ⟨hpc, rfl, rfl, fun m hm => ?_⟩
    rcases List.mem_append.1 hm with hm | hm
    · exact hq m hm
    · rw [List.mem_singleton.1 hm]
      exact hok.2

theorem shown_value {s : Sys σ} (hpc : s.pc = .getByte) (t : Sys σ) :
    loopReads (s.shown cb .thread t) = [inOf s.sd.sdGetTimeout.1] := by
  simp only [shown, hpc]
  exact congrArg (_ :: ·) (loopReads_events _)

theorem shown_other {s : Sys σ} {a : Act} (h : a ≠ .thread ∨ s.pc ≠ .getByte) (t : Sys σ) :
    loopReads (s.shown cb a t) = [] := by
  unfold shown
  split
  · next hpc => exact absurd hpc (h.resolve_left fun hne => hne rfl)
  · rfl
  · split
    · exact loopReads_events _
    · split <;> rfl
    · rfl
    · rfl
  · rfl

theorem realOk_of_elsewhere {s : Sys σ} (h : elsewhere s.pc = false) (a : Act) : RealOk s a := by
  unfold RealOk
  split
  · split
    · next hpc => rw [hpc] at h; cases h
    · next hpc => rw [hpc] at h; cases h
    · next hpc => rw [hpc] at h; cases h
    · trivial
  · trivial

/-- The run so far, while the wire has carried a part of these lines: the bytes read and those
queued are the wire. -/
structure Flowing (s : Sys σ) (l : List Shown) : Prop where
  real : s.Real
  calm : s.Calm
  matched : Matches s l
  requests : ∀ m ∈ s.msgQueue, m.2 ≠ []
  pc : elsewhere s.pc = false
  queue : ∃ bytes Q, s.sd.iqueue.IQHolds Q ∧ loopReads l = bytes.map (fun b => (b.toNat : Int)) ∧
    bytes ++ Q.map Rx.byte = s.sd.wire

theorem init_flowing : Flowing (init : Sys σ) [] where
  real := init_real
  calm := init_calm
  matched := .starting rfl rfl
  requests := by simp [init]
  pc := rfl
  queue := ⟨[], [], .init (by decide) _, rfl, rfl⟩

theorem Flowing.byte {lines : List (List UInt8)} {s : Sys σ} {l : List Shown}
    (hl : ∀ line ∈ lines, LineOk line) (h : Flowing s l) (hw : s.sd.wire <+: lineStream lines)
    (hpc : s.pc = .getByte) (hm : Matches s.readByte (l ++ s.shown cb .thread s.readByte)) :
    elsewhere s.readByte.pc = false ∧ ∃ bytes Q, s.readByte.sd.iqueue.IQHolds Q ∧
      loopReads (l ++ s.shown cb .thread s.readByte) = bytes.map (fun b => (b.toNat : Int)) ∧
      bytes ++ Q.map Rx.byte = s.sd.wire := by
  obtain ⟨bytes, Q, hQ, hr, hwire⟩ := h.queue
  obtain ⟨hQ', hhead⟩ := dequeued_holds hQ
  obtain ⟨rx, hrx⟩ := h.real.found hpc
  obtain ⟨Q, rfl⟩ : ∃ Q', Q = rx :: Q' := by
    rw [hrx] at hhead
    exact List.head?_eq_some_iff.1 hhead.symm
  have hreads : loopReads (l ++ s.shown cb .thread s.readByte) =
      (bytes ++ [rx.byte]).map fun b => (b.toNat : Int) := by
    rw [loopReads_append, shown_value hpc, hrx, hr, List.map_append]
    rfl
  have hsplit : bytes ++ [rx.byte] ++ Q.map Rx.byte = s.sd.wire := by
    rw [← hwire, List.append_assoc]
    rfl
  refine ⟨?_, bytes ++ [rx.byte], Q, hQ', hreads, hsplit⟩
  -- an overflow would have been answered, and no part of these lines is
  have hno : s.fed.2 ≠ .overflow := by
    intro hv
    obtain ⟨turns, hpre, -⟩ := matched_lines hm hl hreads
      (hsplit ▸ List.prefix_append _ _ |>.trans hw)
    refine overflow_not_mem_refLines playback turns lines (hpre.subset ?_)
    rw [loopEvents_append]
    refine List.mem_append_right _ ?_
    simp only [shown, hpc, hv]
    exact List.mem_singleton_self _
  show elsewhere (Pc.after s.fed.2) = false
  cases hv : s.fed.2 <;> first | rfl | exact absurd hv hno

theorem step_flowing {lines : List (List UInt8)} (hl : ∀ line ∈ lines, LineOk line) {s t : Sys σ}
    {l : List Shown} {a : Act} (h : Flowing s l) (hok : Undivided cb s a)
    (hs : s.step cb a = some t) (hw : s.sd.wire <+: lineStream lines) :
    Flowing t (l ++ s.shown cb a t) := by
  have hreal := step_real h.real (realOk_of_elsewhere h.pc a) hs
  have hcalm := step_calm h.calm hok.1 hs
  have hm := step_matches h.matched hs
  have hkeep : ∀ {bytes : List UInt8}, loopReads l = bytes.map (fun b => (b.toNat : Int)) →
      (a ≠ .thread ∨ s.pc ≠ .getByte) →
      loopReads (l ++ s.shown cb a t) = bytes.map fun b => (b.toNat : Int) := by
    intro bytes hr hne
    rw [loopReads_append, shown_other hne, List.append_nil, hr]
  cases step_input h.calm h.pc h.requests hok hs with
  | byte hpc =>
    obtain ⟨hpc', hqueue⟩ := h.byte hl hw hpc hm
    exact ⟨hreal, hcalm, hm, h.requests, hpc', hqueue⟩
  | usart sr dr =>
    obtain ⟨bytes, Q, hQ, hr, hwire⟩ := h.queue
    refine ⟨hreal, hcalm, hm, h.requests, h.pc, ?_⟩
    obtain ⟨h1, h2⟩ | ⟨q, hput, h1, h2⟩ := serveInterrupt_input hok.1
    · exact ⟨bytes, Q, h1 ▸ hQ, hkeep hr (.inl (by simp)), hwire.trans h2.symm⟩
    · refine ⟨bytes, Q ++ [⟨dr, s.sd.wire.length⟩], h1 ▸ hQ.put hput, hkeep hr (.inl (by simp)), ?_⟩
      rw [List.map_append, ← List.append_assoc, hwire]
      exact h2.symm
  | other hne hu =>
    obtain ⟨bytes, Q, hQ, hr, hwire⟩ := h.queue
    exact ⟨hreal, hcalm, hm, hu.requests, hu.pc, bytes, Q, hu.iqueue ▸ hQ, hkeep hr hne,
      hwire.trans hu.wire.symm⟩

theorem step_wire {s t : Sys σ} {a : Act} (h : ErrorFree s a) (hs : s.step cb a = some t) :
    s.sd.wire <+: t.sd.wire := by
  cases step_queue hs with
  | same _ hw | get _ hw => exact hw ▸ List.prefix_rfl
  | reset k ret _ _ _ hw => exact hw ▸ List.prefix_rfl
  | usart sr dr ha ht =>
    subst ha
    rw [ht]
    obtain ⟨-, hw⟩ | ⟨q, -, -, hw⟩ := serveInterrupt_input h
    · exact hw ▸ List.prefix_rfl
    · exact hw ▸ List.prefix_append _ _

theorem run_flowing {lines : List (List UInt8)} (hl : ∀ line ∈ lines, LineOk line) {s : Sys σ}
    {as : List Act} (h : Steps (step cb) (Undivided cb) init as s)
    (hw : s.sd.wire <+: lineStream lines) :
    Flowing s (observe (step cb) (shown cb) init as) := by
  have hstep : ∀ (s : Sys σ) (l : List Shown) (a : Act) (t : Sys σ),
      (s.sd.wire <+: lineStream lines → Flowing s l) → Undivided cb s a → s.step cb a = some t →
      t.sd.wire <+: lineStream lines → Flowing t (l ++ s.shown cb a t) := by
    intro s l a t hi hok hs hw
    have hw' := (step_wire hok.1 hs).trans hw
    exact step_flowing hl (hi hw') hok hs hw'
  exact h.inv_observe hstep (fun _ => init_flowing) hw

theorem Flowing.commands {lines : List (List UInt8)} {s : Sys σ} {l : List Shown}
    (hl : ∀ line ∈ lines, LineOk line) (h : Flowing s l) (hw : s.sd.wire <+: lineStream lines) :
    ∃ turns, loopEvents l <+: (refLines playback turns lines).2 ∧
      (s.pc.phase = .idle → s.sd.wire = lineStream lines → s.sd.iqueue.chIQIsEmptyI = true →
        loopEvents l = (refLines playback turns lines).2) := by
  obtain ⟨bytes, Q, hQ, hr, hwire⟩ := h.queue
  obtain ⟨turns, hpre, hall⟩ := matched_lines h.matched hl hr
    (hwire ▸ List.prefix_append _ _ |>.trans hw)
  refine ⟨turns, hpre, fun hph hfull hempty => hall hph ?_⟩
  have hnil : Q = [] := by
    have hc := hQ.counter
    rw [GenericQueue.chIQIsEmptyI, beq_iff_eq] at hempty
    exact List.eq_nil_of_length_eq_zero (hc.symm.trans hempty)
  rw [hnil] at hwire
  rw [← hfull, ← hwire]
  exact (List.append_nil _).symm

/-- **The commands done are those on the wire**: while the wire carries lines that fit, no
receive error is reported and nobody but the loop reads, the loop does what the lines say, each
once and in their order, with exactly its own id and arguments; what it has not done yet is what
it has not read. -/
theorem wire_commands {lines : List (List UInt8)} (hl : ∀ line ∈ lines, LineOk line) {s : Sys σ}
    {as : List Act} (h : Steps (step cb) (Undivided cb) init as s)
    (hw : s.sd.wire <+: lineStream lines) :
    ∃ turns, loopEvents (observe (step cb) (shown cb) init as) <+:
        (refLines playback turns lines).2 ∧
      (s.pc.phase = .idle → s.sd.wire = lineStream lines → s.sd.iqueue.chIQIsEmptyI = true →
        loopEvents (observe (step cb) (shown cb) init as) = (refLines playback turns lines).2) :=
  (run_flowing hl h hw).commands hl hw

/-- A command with a client's message in the middle of its line. -/
theorem wire_commands_light :
    ∃ turns, [.call (ascii "light") (ascii "1"), .reply okMsg] =
      (refLines playback turns [ascii "light 1"]).2 := by
  let as : List Act := .thread :: Act.feed (ascii "li") ++ .client 7 (ascii "hi") ::
    Act.feed (ascii "ght 1\n") ++ [.thread, .result 0, .thread]
  have hrun : (exec (step Main.callback) (Undivided Main.callback) init as).any
      (fun s => decide (s.pc = .send okMsg .reply) &&
        (decide (s.sd.wire = lineStream [ascii "light 1"]) && s.sd.iqueue.chIQIsEmptyI)) = true := by
    decide +kernel
  obtain ⟨s, hs, hp⟩ := (Option.any_eq_true _ _).1 hrun
  simp only [Bool.and_eq_true, decide_eq_true_eq] at hp
  obtain ⟨hpc, hw, hempty⟩ := hp
  have hevents : loopEvents (observe (step Main.callback) (shown Main.callback) init as) =
      [.call (ascii "light") (ascii "1"), .reply okMsg] := by decide +kernel
  obtain ⟨turns, -, hall⟩ := wire_commands
    (by decide : ∀ line ∈ [ascii "light 1"], LineOk line) (steps_of_exec hs) (hw ▸ List.prefix_rfl)
  rw [hevents] at hall
  exact ⟨turns, hall (by rw [hpc]; rfl) hw hempty⟩

/-! ## In and out -/

/-- The text of a message. -/
def eventText : Event → Option (List UInt8)
  | .call _ _ => none
  | .message msg | .reply msg => some msg

/-- The message of a call of `wifly_send` that no client made. -/
def loopMessage : List UInt8 × SendRet σ → Option (List UInt8)
  | (_, .release _) => none
  | (msg, .overflow) | (msg, .reply) | (msg, .callback _) => some msg

/-- What a step behind a label shows of the loop. -/
def labelShown (cb : ProtocolCallback ω σ) (s : Sys σ) : Label → Sys σ → List Shown
  | .act a, t => s.shown cb a t
  | .call _ _, _ => []

/-- The messages of the loop and its calls of `wifly_send` are the same. -/
theorem move_texts {s t : Sys σ} (hm : Move cb s t) :
    ((s.called cb (.act .thread) t).filterMap OutEvent.toStart).filterMap loopMessage =
      (loopEvents (s.shown cb .thread t)).filterMap eventText := by
  have hown := ownCalls_starts cb s
  cases hm with
  | register hpc | takeMessage hpc | listen hpc | readRequest _ _ hpc | sendRequest _ _ _ hpc
  | event hpc | noEvent hpc | inputFlag hpc | errorFlags hpc | otherFlags hpc | call hpc
  | sendEvent _ hpc | sendMore _ hpc | drained _ _ hpc | recvSleep _ _ hpc | recvInput _ _ hpc
  | recvOther _ _ hpc | release _ _ _ hpc | iqResetWrptr _ hpc | iqResetRdptr _ hpc
  | put _ _ _ _ hpc =>
    simp only [called, shown, hpc, List.filterMap_append, hown]
    rfl
  | byte hpc =>
    simp only [called, shown, hpc, List.filterMap_append, hown, List.nil_append]
    cases s.fed.2 <;> rfl
  | returnAnswer x m hpc hr hne =>
    simp only [called, shown, hpc, hr, List.filterMap_append, hown, List.nil_append,
      loopEvents_events]
    cases m <;> first | rfl | exact absurd rfl hne
  | returnMessage x hpc hr | callbackRead x hpc hr | callbackSendEmpty x hpc hr =>
    simp only [called, shown, hpc, hr, List.filterMap_append, hown]
    rfl
  | callbackSend x msg hpc hr hne =>
    simp only [called, shown, hpc, hr, List.filterMap_append, hown, if_neg hne]
    rfl
  | sendDone ret hpc =>
    simp only [called, shown, hpc, List.filterMap_append, hown]
    cases ret <;> rfl
  | drainByte r ret rx hpc =>
    simp only [called, shown, hpc]
    rfl
  | recvByte r ret rx hpc =>
    simp only [called, shown, hpc, List.filterMap_append, hown]
    rw [recvByte_starts _ _ _ _ fun _ => rfl]
    rfl
  | recvEvent r ret hpc =>
    rcases hpc with hpc | hpc <;> simp only [called, shown, hpc, List.filterMap_append, hown] <;>
      rfl
  | recvError r ret hpc | recvNothing r ret hpc =>
    simp only [called, shown, hpc, List.filterMap_append, hown, received_starts]
    rfl
  | iqResetCounter ret hpc =>
    simp only [called, shown, hpc, List.filterMap_append, hown]
    rcases ret with _ | _ | ⟨r, _ | _⟩ <;> rfl
  | oqReset k pc hpc hn =>
    simp only [called, shown, hpc, List.filterMap_append, hown]
    rcases hn with ⟨k', rfl⟩ | rfl <;> rfl

theorem label_texts {s t : Sys σ} {lab : Label} (hs : s.apiStep cb lab = some t) :
    (s.outEvents cb lab t).filterMap (fun e => e.toStart.bind loopMessage) =
      (s.labelShown cb lab t).filterMap fun e => e.toEvent.bind eventText := by
  rw [← List.filterMap_filterMap, ← List.filterMap_filterMap, outEvents_starts]
  cases lab with
  | act a =>
    cases a with
    | thread => exact move_texts (threadStep_move hs)
    | timeout | result | usart => rfl
    | client => cases hs
  | call => rfl

theorem labelShown_run {s t : Sys σ} {labs : List Label}
    (h : Steps (apiStep cb) (LabelOk (Undivided cb)) s labs t) :
    observe (apiStep cb) (labelShown cb) s labs =
      observe (step cb) (shown cb) s (labs.map labelAct) := by
  refine h.observe_map _ fun s lab t _ hs => ⟨apiStep_act hs, ?_⟩
  cases lab <;> rfl

/-- **The answers on the wire are those to the lines on the wire**: while the received wire
carries lines that fit, no receive error is reported and nobody but the loop reads, what is
transmitted and queued is whole messages, one after the other, and a part of the next. Those
that no client sent are in their order the messages of the commands on the wire and the answers
to them, up to what is still to be read or sent. -/
theorem wire_answers {lines : List (List UInt8)} (hl : ∀ line ∈ lines, LineOk line) {s : Sys σ}
    {labs : List Label} (h : Steps (apiStep cb) (LabelOk (Undivided cb)) init labs s)
    (hw : s.sd.wire <+: lineStream lines) :
    ∃ turns whole part Q, s.sd.oqueue.OQHolds Q ∧
      s.sd.tx ++ Q = (whole.map Prod.fst).flatten ++ part ∧
      Outgoing s (observe (apiStep cb) (outEvents cb) init labs) whole part ∧
      (whole ++ s.pc.current part).filterMap loopMessage <+:
        (refLines playback turns lines).2.filterMap eventText ∧
      (s.pc.phase = .idle → s.sd.wire = lineStream lines → s.sd.iqueue.chIQIsEmptyI = true →
        (whole ++ s.pc.current part).filterMap loopMessage =
          (refLines playback turns lines).2.filterMap eventText) := by
  obtain ⟨whole, part, Q, hout, hQ, htx⟩ := transmitted_whole (h.mono fun s lab hok => by
    cases lab with
    | act a => exact hok.1
    | call thd r => exact fun str hstr => (hok str hstr).1)
  have hacts := steps_act h
  have hshown := labelShown_run h
  obtain ⟨turns, hpre, hall⟩ := (run_flowing hl hacts hw).commands hl hw
  have htexts : (whole ++ s.pc.current part).filterMap loopMessage =
      (loopEvents (observe (step cb) (shown cb) init (labs.map labelAct))).filterMap eventText := by
    have htext : ∀ (s : Sys σ) (lab : Label) (t : Sys σ), s.apiStep cb lab = some t →
        (s.outEvents cb lab t).filterMap (fun e => e.toStart.bind loopMessage) =
          (s.labelShown cb lab t).filterMap fun e => e.toEvent.bind eventText :=
      fun _ _ _ hs => label_texts hs
    have hboth := observe_filterMap _ _ htext init labs
    rw [← hout.starts, loopEvents, List.filterMap_filterMap, List.filterMap_filterMap, hboth,
      hshown]
  refine ⟨turns, whole, part, Q, hQ, htx, hout, ?_, fun h1 h2 h3 => ?_⟩
  · rw [htexts]
    exact hpre.filterMap _
  · rw [htexts, hall h1 h2 h3]

/-- A client's message goes out before the line arrives. -/
theorem wire_answers_light :
    ∃ (turns : List Turn) (whole : List (List UInt8 × SendRet Main.Point)) (part Q : List UInt8),
      ascii "hi*OK*\r\n" ++ Q = (whole.map Prod.fst).flatten ++ part ∧
      whole.filterMap loopMessage =
        (refLines playback turns [ascii "light 1"]).2.filterMap eventText := by
  let labs : List Label := script [(1, .act .thread), (1, .call 7 (.wiflySend (ascii "hi"))),
      (4, .act .thread), (3, .act .tx), (3, .act .thread)] ++
    (Act.feed (ascii "light 1\n")).map .act ++
    script [(1, .act (.result 0)), (7, .act .thread), (7, .act .tx)]
  have hrun : (exec (apiStep Main.callback) (LabelOk (Undivided Main.callback)) init labs).any
      (fun s => decide (s.sd.tx = ascii "hi*OK*\r\n") && decide (s.pc = .sendWait .reply) &&
        (decide (s.sd.wire = lineStream [ascii "light 1"]) && s.sd.iqueue.chIQIsEmptyI)) = true := by
    decide +kernel
  obtain ⟨s, hs, hp⟩ := (Option.any_eq_true _ _).1 hrun
  simp only [Bool.and_eq_true, decide_eq_true_eq] at hp
  obtain ⟨⟨htx, hpc⟩, hw, hempty⟩ := hp
  obtain ⟨turns, whole, part, Q, -, hout, -, -, hall⟩ :=
    wire_answers (by decide : ∀ line ∈ [ascii "light 1"], LineOk line) (steps_of_exec hs)
      (hw ▸ List.prefix_rfl)
  rw [htx] at hout
  have hcur : s.pc.current part = [] := by rw [hpc]; rfl
  rw [hcur, List.append_nil] at hall
  exact ⟨turns, whole, part, Q, hout, hall (by rw [hpc]; rfl) hw hempty⟩

end Sys

end RobotPws.Wifly
