import RobotPws.Hal.Transmit
import RobotPws.Wifly.WakeUp

/-!
# The end of `wifly_send`

`wifly_send` puts its message into the output queue and waits for `CHN_OUTPUT_EMPTY`. The
flag is always still to come when it waits (`Awaited`): the transmit interrupt is on, or the
flag is set. But a flag from before the last byte ends the wait as well; in the runs in which
none is set when the last byte is put (`SendOk`) the message has left the queue when
`wifly_send` returns.
-/

namespace RobotPws.Wifly

open RobotPws.Lib RobotPws.Kernel RobotPws.Hal

variable {ω σ : Type} {cb : ProtocolCallback ω σ}

/-- In `wifly_send`. -/
def Pc.sending : Pc σ → Bool
  | .send _ _ | .sendWait _ | .sendFlags _ => true
  | _ => false

/-- Neither in `wifly_send` nor between two stores of `chOQResetI`. -/
def Pc.outputIdle : Pc σ → Bool
  | .send _ _ | .sendWait _ | .sendFlags _ | .oqReset .rdptr | .oqReset .counter => false
  | _ => true

/-- After a store of `chOQResetI`. -/
def Pc.afterOqReset : QReset → Pc σ
  | .wrptr => .oqReset .rdptr
  | .rdptr => .oqReset .counter
  | .counter => .top

namespace Sys

/-! ## What happens to the output queue -/

/-- The branches of the machine that concern the output queue. -/
inductive OutputStep (s : Sys σ) : Act → Sys σ → Prop where
  | put (b : UInt8) (bs : List UInt8) (ret : SendRet σ) (q : GenericQueue UInt8 serialBuffersSize) :
      s.pc = .send (b :: bs) ret → s.sd.oqueue.chOQPut b = some q →
      OutputStep s .thread { s with
        sd := { s.sd with oqueue := q, cr1 := { s.sd.cr1 with txeie := true } }
        pc := if bs = [] then .sendWait ret else .send bs ret }
  | wake (ret : SendRet σ) : s.pc = .sendWait ret →
      OutputStep s .thread { s with pc := .sendFlags ret, sd := { s.sd with epending := false } }
  | more (ret : SendRet σ) : s.pc = .sendFlags ret →
      hasFlag s.sd.elFlags chnOutputEmpty = false →
      OutputStep s .thread { s.flagsRead with pc := .sendWait ret }
  | done (ret : SendRet σ) : s.pc = .sendFlags ret →
      hasFlag s.sd.elFlags chnOutputEmpty = true → OutputStep s .thread (s.flagsRead.sent ret)
  | reset (k : QReset) : s.pc = .oqReset k →
      OutputStep s .thread { s with pc := .afterOqReset k, sd := s.sd.chOQResetI k }
  | usart (sr : SR) (dr : UInt8) :
      OutputStep s (.usart sr dr) { s with sd := s.sd.serveInterrupt sr dr }
  | other {a : Act} {t : Sys σ} : s.pc.outputIdle = true →
      t.pc.outputIdle = true ∨ (∃ msg ret, t.pc = .send msg ret) →
      t.sd.oqueue = s.sd.oqueue → t.sd.tx = s.sd.tx → OutputStep s a t
  | beside {a : Act} {t : Sys σ} : t.pc = s.pc → t.sd = s.sd → OutputStep s a t

theorem sent_outputIdle (s : Sys σ) (ret : SendRet σ) : (s.sent ret).pc.outputIdle = true := by
  cases ret <;> rfl

theorem received_outputIdle (s : Sys σ) (st : State) (r : Recv) (ret : RecvRet σ) :
    (s.received cb st r ret).pc.outputIdle = true := by
  cases ret <;> rfl

theorem recvByte_outputIdle (s : Sys σ) (r : Recv) (inn : Int) (ret : RecvRet σ)
    {again : Recv → RecvRet σ → Pc σ} (h : ∀ r, (again r ret).outputIdle = true) :
    (s.recvByte cb r inn ret again).pc.outputIdle = true := by
  obtain ⟨-, he⟩ | ⟨-, -, he⟩ | ⟨-, -, he⟩ := recvByte_cases cb s r inn ret again <;> rw [he]
  · rfl
  · exact received_outputIdle ..
  · exact h _

theorem threadStep_oqReset {s : Sys σ} {k : QReset} (h : s.pc = .oqReset k) :
    s.threadStep cb = some { s with pc := .afterOqReset k, sd := s.sd.chOQResetI k } := by
  simp only [threadStep, h]
  cases k <;> rfl

theorem threadStep_output {s t : Sys σ} (hs : s.threadStep cb = some t) :
    OutputStep s .thread t := by
  have hm := threadStep_move hs
  cases hm with
  | put b bs ret d hpc hd =>
    obtain ⟨q, hq, rfl⟩ := Option.map_eq_some_iff.1 hd
    exact .put b bs ret q hpc hq
  | sendEvent ret hpc => exact .wake ret hpc
  | sendMore ret hpc hf => exact .more ret hpc hf
  | sendDone ret hpc hf => exact .done ret hpc hf
  | oqReset k pc hpc =>
    rw [threadStep_oqReset hpc] at hs
    cases hs
    exact .reset k hpc
  | register hpc | takeMessage hpc | listen hpc | noEvent hpc | event hpc | inputFlag hpc
  | errorFlags hpc | otherFlags hpc | readRequest _ _ hpc | call hpc | returnMessage _ hpc
  | callbackSendEmpty _ hpc | callbackRead _ hpc | drained _ _ hpc | recvSleep _ _ hpc
  | recvInput _ _ hpc | recvOther _ _ hpc | release _ _ _ hpc | iqResetWrptr _ hpc
  | iqResetRdptr _ hpc =>
    exact .other (by rw [hpc]; rfl) (.inl rfl) rfl rfl
  | sendRequest _ _ _ hpc | returnAnswer _ _ hpc | callbackSend _ _ hpc =>
    exact .other (by rw [hpc]; rfl) (.inr ⟨_, _, rfl⟩) rfl rfl
  | byte hpc =>
    refine .other (by rw [hpc]; rfl) ?_ rfl rfl
    generalize s.fed.2 = v
    cases v with
    | more | command => exact .inl rfl
    | overflow | hello | badStatus => exact .inr ⟨_, _, rfl⟩
  | recvEvent _ _ hpc =>
    refine .other ?_ (.inl rfl) rfl rfl
    obtain hpc | hpc := hpc <;> rw [hpc] <;> rfl
  | drainByte r ret rx hpc | recvByte r ret rx hpc =>
    refine .other (by rw [hpc]; rfl) (.inl (recvByte_outputIdle _ _ _ _ fun _ => rfl)) ?_ ?_ <;>
      rw [recvByte_sd] <;> rfl
  | recvError _ _ hpc | recvNothing _ _ hpc =>
    refine .other (by rw [hpc]; rfl) (.inl (received_outputIdle ..)) ?_ ?_ <;>
      rw [received_sd] <;> rfl
  | iqResetCounter ret hpc =>
    refine .other (by rw [hpc]; rfl) (.inl ?_) ?_ ?_
    · rcases ret with _ | _ | ⟨r, _ | _⟩ <;> rfl
    · rw [iqWasReset_sd]; rfl
    · rw [iqWasReset_sd]; rfl

theorem step_output {s t : Sys σ} {a : Act} (hs : s.step cb a = some t) : OutputStep s a t := by
  obtain ⟨rfl, -⟩ | ⟨r, ret, -, hpc, -, rfl⟩ | ⟨x, v, -, hpc, rfl⟩ | ⟨sr, dr, rfl, rfl⟩ |
    ⟨thd, str, -, rfl⟩ := step_cases hs
  · exact threadStep_output hs
  · refine .other (by rw [hpc]; rfl) (.inl (received_outputIdle ..)) ?_ ?_ <;> rw [received_sd]
  · exact .other (by rw [hpc]; rfl) (.inl rfl) rfl rfl
  · exact .usart sr dr
  · exact .beside rfl rfl

/-! ## The flag is still to come -/

end Sys

/-- `CHN_OUTPUT_EMPTY` is set, or the transmit interrupt is on, which raises it when the queue
is empty. -/
def OutputDue (d : SerialDriver) : Prop :=
  d.cr1.txeie = true ∨ hasFlag d.elFlags chnOutputEmpty = true

theorem serveInterrupt_due {d : SerialDriver} (hr : d.registered = true) (h : OutputDue d) (sr : SR)
    (dr : UInt8) : OutputDue (d.serveInterrupt sr dr) := by
  cases d.serveInterrupt_tx sr dr with
  | idle _ _ he hf => exact h.imp he.trans hf.trans
  | byte b q _ _ _ _ he => exact .inl he
  | empty _ _ _ hf => exact .inr (hf hr)

/-- Between the last byte and the return of `wifly_send`. -/
def Pc.awaiting : Pc σ → Bool
  | .sendWait _ | .sendFlags _ => true
  | _ => false

theorem not_awaiting_of_idle {pc : Pc σ} (h : pc.outputIdle = true) : pc.awaiting = false := by
  cases pc with
  | sendWait | sendFlags => cases h
  | _ => rfl

namespace Sys

structure Awaited (s : Sys σ) : Prop extends s.Signalled where
  due : s.pc.awaiting = true → OutputDue s.sd

theorem init_awaited : (init : Sys σ).Awaited := ⟨init_signalled, fun h => by cases h⟩

theorem step_awaited {s t : Sys σ} {a : Act} (h : s.Awaited) (hs : s.step cb a = some t) :
    t.Awaited := by
  refine ⟨step_signalled h.toSignalled hs, fun hw => ?_⟩
  cases step_output hs with
  | put => exact .inl rfl
  | wake ret hpc => exact h.due (by rw [hpc]; rfl)
  | more ret hpc hf =>
    -- the flag was not set, so the interrupt is on
    have hd : OutputDue s.sd := h.due (by rw [hpc]; rfl)
    rw [OutputDue, hf] at hd
    exact .inl (hd.resolve_right (by simp))
  | done ret =>
    rw [not_awaiting_of_idle (sent_outputIdle ..)] at hw
    cases hw
  | reset k => cases k <;> cases hw
  | usart sr dr =>
    refine serveInterrupt_due (h.registered fun hpc => ?_) (h.due hw) sr dr
    rw [show s.pc = .register from hpc] at hw
    cases hw
  | other _ hidle =>
    obtain hidle | ⟨msg, ret, hpc⟩ := hidle
    · rw [not_awaiting_of_idle hidle] at hw
      cases hw
    · rw [hpc] at hw
      cases hw
  | beside hpc hsd =>
    rw [hsd]
    exact h.due (hpc ▸ hw)

/-- **`wifly_send` never waits for a completion that is gone**, in every run: suspended in it,
the transmit interrupt is on or the flag is set. Outside the gap between taking the event and
reading its flags, flags that are set are pending. -/
theorem completion_not_lost {s : Sys σ} (h : Reach (step cb) Always init s) :
    (∀ ret, s.pc = .sendWait ret →
      s.sd.cr1.txeie = true ∨ hasFlag s.sd.elFlags chnOutputEmpty = true) ∧
    (s.pc.gap = false → s.sd.elFlags ≠ 0 → s.sd.epending = true) := by
  have ha : s.Awaited := h.inv init_awaited fun _ _ _ hi _ hs => step_awaited hi hs
  exact ⟨fun ret hpc => ha.due (by rw [hpc]; rfl), ha.pending⟩

/-- The last byte has left the queue and the flag is not set yet. -/
theorem completion_not_lost_last_byte :
    ∃ s, Reach (step Main.callback) Always init s ∧ s.pc = .sendWait (.release 7) ∧
      s.sd.tx = [97] ∧ (s.sd.cr1.txeie = true ∨ hasFlag s.sd.elFlags chnOutputEmpty = true) := by
  obtain ⟨s, hr, hp⟩ := reach_of_exec (step Main.callback) Always init
    (script [(1, .thread), (1, .client 7 [97]), (3, .thread), (1, .tx)])
    (fun s => decide (s.pc = .sendWait (.release 7)) && decide (s.sd.tx = [97])) (by decide +kernel)
  simp only [Bool.and_eq_true, decide_eq_true_eq] at hp
  exact ⟨s, hr, hp.1, hp.2, (completion_not_lost hr).1 _ hp.1⟩

/-! ## The message has left the queue -/

/-- `CHN_OUTPUT_EMPTY` is not set yet when `wifly_send` puts its last byte. -/
def SendOk (s : Sys σ) : Act → Prop
  | .thread =>
    match s.pc with
    | .send [_] _ => hasFlag s.sd.elFlags chnOutputEmpty = false
    | _ => True
  | _ => True

instance (s : Sys σ) (a : Act) : Decidable (SendOk s a) :=
  match a with
  | .thread =>
    match s with
    | { pc, .. } =>
      match pc with
      | .send [_] _ => by dsimp only [SendOk]; infer_instance
      | .send [] _ | .send (_ :: _ :: _) _ | .register | .top | .msgWait | .evtWait | .getFlags
      | .getByte | .call | .callback _ | .sendWait _ | .sendFlags _ | .drain _ _ | .recvWait _ _
      | .recvSleep _ _ | .recvFlags _ _ | .recvGet _ _ | .release _ _ _ | .iqReset _ _
      | .oqReset _ => .isTrue trivial
  | .timeout | .result _ | .usart _ _ | .client _ _ => .isTrue trivial

/-- What has been transmitted, what is queued and what is still to be put make up `total`. Once
all is put, the flag is set for an empty queue only. -/
def Sending (total : List UInt8) (pc : Pc σ) (d : SerialDriver) : Prop :=
  match pc with
  | .send rest _ => ∃ Q, d.oqueue.OQHolds Q ∧ d.tx ++ Q ++ rest = total
  | .sendWait _ | .sendFlags _ => ∃ Q, d.oqueue.OQHolds Q ∧ d.tx ++ Q = total ∧
      (hasFlag d.elFlags chnOutputEmpty = true → Q = [])
  | .oqReset .rdptr => d.oqueue.qWrptr = 0 ∧ d.oqueue.qCounter ≠ 0
  | .oqReset .counter => d.oqueue.qWrptr = 0 ∧ d.oqueue.qRdptr = 0 ∧ d.oqueue.qCounter ≠ 0
  | _ => d.oqueue.OQHolds [] ∧ d.tx = total

theorem sending_idle {total : List UInt8} {pc : Pc σ} {d : SerialDriver}
    (h : pc.outputIdle = true) : Sending total pc d ↔ d.oqueue.OQHolds [] ∧ d.tx = total := by
  cases pc with
  | send | sendWait | sendFlags => cases h
  | oqReset k =>
    cases k with
    | wrptr => exact .rfl
    | rdptr | counter => cases h
  | _ => exact .rfl

theorem serveInterrupt_sending {total : List UInt8} {pc : Pc σ} {d : SerialDriver}
    (h : Sending total pc d) (sr : SR) (dr : UInt8) :
    Sending total pc (d.serveInterrupt sr dr) := by
  have hidle : d.oqueue.OQHolds [] ∧ d.tx = total →
      (d.serveInterrupt sr dr).oqueue.OQHolds [] ∧ (d.serveInterrupt sr dr).tx = total := by
    rintro ⟨hq, ht⟩
    obtain ⟨Q, hQ, htx, hlen, -⟩ := SerialDriver.serveInterrupt_holds hq sr dr
    obtain rfl := List.eq_nil_of_length_eq_zero (Nat.le_zero.1 hlen)
    rw [List.append_nil, List.append_nil] at htx
    exact ⟨hQ, htx.trans ht⟩
  obtain ⟨hwr, hcount⟩ := d.serveInterrupt_pointers sr dr
  cases pc with
  | send rest ret =>
    obtain ⟨Q, hq, ht⟩ := h
    obtain ⟨Q', hQ', htx, -, -⟩ := SerialDriver.serveInterrupt_holds hq sr dr
    exact ⟨Q', hQ', by rw [htx]; exact ht⟩
  | sendWait ret | sendFlags ret =>
    obtain ⟨Q, hq, ht, hf⟩ := h
    obtain ⟨Q', hQ', htx, -, hf'⟩ := SerialDriver.serveInterrupt_holds hq sr dr
    exact ⟨Q', hQ', htx.trans ht, hf' hf⟩
  | oqReset k =>
    cases k with
    | wrptr => exact hidle h
    | rdptr => exact ⟨hwr.trans h.1, (hcount h.2).1⟩
    | counter =>
      obtain ⟨h1, h2, h3⟩ := h
      exact ⟨hwr.trans h1, ((hcount h3).2 (h1.trans h2.symm)).trans h2, (hcount h3).1⟩
  | _ => exact hidle h

theorem step_sending {s t : Sys σ} {a : Act} {total : List UInt8} (h : Sending total s.pc s.sd)
    (hok : SendOk s a) (hs : s.step cb a = some t) :
    ∃ total', Sending total' t.pc t.sd ∧ (s.pc.sending = true →
      total' = total ∧ (t.pc.sending = true ∨ t.pc.outputIdle = true)) := by
  cases step_output hs with
  | put b bs ret q hpc hq =>
    rw [hpc] at h
    obtain ⟨Q, hQ, ht⟩ := h
    by_cases hbs : bs = []
    · subst hbs
      simp only [SendOk, hpc] at hok
      refine ⟨total, ⟨Q ++ [b], hQ.put hq, ?_, fun hf => ?_⟩, fun _ => ⟨rfl, .inl rfl⟩⟩
      · rw [← ht, List.append_assoc]
      · rw [show hasFlag s.sd.elFlags chnOutputEmpty = true from hf] at hok
        cases hok
    · simp only [if_neg hbs]
      exact ⟨total, ⟨Q ++ [b], hQ.put hq, by rw [← ht]; simp⟩, fun _ => ⟨rfl, .inl rfl⟩⟩
  | wake ret hpc =>
    rw [hpc] at h
    exact ⟨total, h, fun _ => ⟨rfl, .inl rfl⟩⟩
  | more ret hpc =>
    rw [hpc] at h
    obtain ⟨Q, hQ, ht, -⟩ := h
    refine ⟨total, ⟨Q, hQ, ht, fun hf => ?_⟩, fun _ => ⟨rfl, .inl rfl⟩⟩
    simp [flagsRead] at hf
  | done ret hpc hf =>
    rw [hpc] at h
    obtain ⟨Q, hQ, ht, hempty⟩ := h
    obtain rfl := hempty hf
    rw [List.append_nil] at ht
    have hidle := sent_outputIdle s.flagsRead ret
    refine ⟨total, (sending_idle hidle).2 ?_, fun _ => ⟨rfl, .inr hidle⟩⟩
    rw [sent_sd]
    exact ⟨hQ, ht⟩
  | reset k hpc =>
    rw [hpc] at h
    refine ⟨(s.sd.chOQResetI k).tx, ?_, fun hsend => by rw [hpc] at hsend; cases hsend⟩
    cases k with
    | wrptr =>
      have hc := h.1.counter
      rw [List.length_nil, Nat.add_zero] at hc
      refine ⟨rfl, ?_⟩
      show s.sd.oqueue.qCounter ≠ 0
      rw [hc]
      decide
    | rdptr => exact ⟨h.1, rfl, h.2⟩
    | counter => exact ⟨.reset (by decide) h.1 h.2.1, rfl⟩
  | usart sr dr => exact ⟨total, serveInterrupt_sending h sr dr, fun hsend => ⟨rfl, .inl hsend⟩⟩
  | other hidle hnext hq ht =>
    obtain ⟨h1, h2⟩ := (sending_idle hidle).1 h
    have hsend : ¬ s.pc.sending = true := by
      intro hsend
      cases hpc : s.pc <;> simp [hpc, Pc.sending, Pc.outputIdle] at hsend hidle
    rw [← hq] at h1
    obtain hnext | ⟨msg, ret, hpc⟩ := hnext
    · exact ⟨total, (sending_idle hnext).2 ⟨h1, ht.trans h2⟩, fun hs => absurd hs hsend⟩
    · refine ⟨total ++ msg, ?_, fun hs => absurd hs hsend⟩
      rw [hpc]
      exact ⟨[], h1, by rw [ht, h2, List.append_nil]⟩
  | beside hpc hsd =>
    rw [hpc, hsd]
    exact ⟨total, h, fun hsend => ⟨rfl, .inl hsend⟩⟩

/-- Between two bytes of the message, the flag raised: `wifly_send` returns too early. -/
theorem send_early {s : Sys σ} {b : UInt8} {ret : SendRet σ} {Q : List UInt8} (h : s.Signalled)
    (hpc : s.pc = .send [b] ret) (hQ : s.sd.oqueue.OQHolds Q) (hroom : s.sd.oqueue.qCounter ≠ 0)
    (hf : hasFlag s.sd.elFlags chnOutputEmpty = true) :
    ∃ t, Steps (step cb) (fun s _ => s.pc.sending = true) s [.thread, .thread, .thread] t ∧
      t.pc.sending = false ∧ t.sd.oqueue.OQHolds (Q ++ [b]) := by
  have hpending : s.sd.epending = true := by
    refine h.pending (by rw [hpc]; rfl) fun h0 => ?_
    rw [h0] at hf
    simp at hf
  have hfull : ¬ s.sd.oqueue.chOQIsFullI = true := by simpa [GenericQueue.chOQIsFullI] using hroom
  obtain ⟨q, hq⟩ : ∃ q, s.sd.oqueue.chOQPut b = some q :=
    ⟨_, by rw [GenericQueue.chOQPut, if_neg hfull]⟩
  let s1 : Sys σ := { s with
    sd := { s.sd with oqueue := q, cr1 := { s.sd.cr1 with txeie := true } }, pc := .sendWait ret }
  let s2 : Sys σ := { s1 with pc := .sendFlags ret, sd := { s1.sd with epending := false } }
  have h1 : s.step cb .thread = some s1 := by
    simp only [step, threadStep, hpc, SerialDriver.sdWriteByte, hq, Option.map_some, if_pos, s1]
  have h2 : s1.step cb .thread = some s2 := if_pos hpending
  have h3 : s2.step cb .thread = some (s2.flagsRead.sent ret) := if_pos hf
  refine ⟨s2.flagsRead.sent ret,
    .cons h1 (by rw [hpc]; rfl) (.cons h2 rfl (.single h3 rfl)), ?_, ?_⟩
  · cases ret <;> rfl
  · rw [sent_sd]
    exact hQ.put hq

/-- **`wifly_send` returns when its message has left the queue**, in every run in which
`CHN_OUTPUT_EMPTY` is not set when a last byte is put: the transmit interrupt has then taken what
was queued before, the whole message and nothing else. Where the flag is set, a schedule without
an interrupt makes `wifly_send` return with the last byte queued. -/
theorem send_complete {s : Sys σ} (h : Reach (step cb) SendOk init s) {msg : List UInt8}
    {ret : SendRet σ} (hpc : s.pc = .send msg ret) :
    ∃ Q, s.sd.oqueue.OQHolds Q ∧
      (∀ as t, Steps (step cb) (fun s a => SendOk s a ∧ s.pc.sending = true) s as t →
        t.pc.sending = false → t.sd.oqueue.OQHolds [] ∧ t.sd.tx = s.sd.tx ++ Q ++ msg) ∧
      (∀ b, msg = [b] → s.sd.oqueue.qCounter ≠ 0 → ¬ SendOk s .thread →
        ∃ as t, Steps (step cb) (fun s _ => s.pc.sending = true) s as t ∧ t.pc.sending = false ∧
          t.sd.oqueue.OQHolds (Q ++ [b])) := by
  have hinit : Sending [] (init : Sys σ).pc (init : Sys σ).sd := ⟨.init (by decide) 0, rfl⟩
  have hinv : ∃ total, Sending total s.pc s.sd := by
    refine h.inv (I := fun s => ∃ total, Sending total s.pc s.sd) ⟨[], hinit⟩ ?_
    rintro s a t ⟨total, hi⟩ hok hs
    obtain ⟨total', ht, -⟩ := step_sending hi hok hs
    exact ⟨total', ht⟩
  obtain ⟨total, hsend⟩ := hinv
  have hstart := hsend
  rw [hpc] at hstart
  obtain ⟨Q, hQ, htotal⟩ := hstart
  refine ⟨Q, hQ, fun as t hrun hret => ?_, fun b hb hroom hf => ?_⟩
  · have ht : Sending total t.pc t.sd ∧ (t.pc.sending = true ∨ t.pc.outputIdle = true) := by
      refine hrun.inv (I := fun s => Sending total s.pc s.sd ∧
        (s.pc.sending = true ∨ s.pc.outputIdle = true)) ?_ ⟨hsend, .inl (by rw [hpc]; rfl)⟩
      rintro s a t ⟨hi, -⟩ ⟨hok, hs⟩ hst
      obtain ⟨total', ht, heq⟩ := step_sending hi hok hst
      obtain ⟨rfl, hidle⟩ := heq hs
      exact ⟨ht, hidle⟩
    have hidle : t.pc.outputIdle = true := ht.2.resolve_left (by rw [hret]; simp)
    obtain ⟨h1, h2⟩ := (sending_idle hidle).1 ht.1
    exact ⟨h1, h2.trans htotal.symm⟩
  · subst hb
    have hsig : s.Signalled := reach_signalled h
    simp only [SendOk, hpc, Bool.not_eq_false] at hf
    exact ⟨_, send_early hsig hpc hQ hroom hf⟩

/-- A message of two bytes, written before the transmitter runs. -/
theorem send_complete_two_bytes :
    ∃ s t Q, s.pc = .send [97, 98] (.release 7) ∧ t.pc.sending = false ∧
      (∃ as, Steps (step Main.callback) (fun s a => SendOk s a ∧ s.pc.sending = true) s as t) ∧
      t.sd.oqueue.OQHolds [] ∧ t.sd.tx = s.sd.tx ++ Q ++ [97, 98] := by
  let as : List Act := script [(2, .thread), (3, .tx), (2, .thread)]
  obtain ⟨s, hr, hp⟩ := reach_of_exec (step Main.callback) SendOk init
    (script [(1, .thread), (1, .client 7 [97, 98]), (2, .thread)])
    (fun s => decide (s.pc = .send [97, 98] (.release 7)) &&
      (exec (step Main.callback) (fun s a => SendOk s a ∧ s.pc.sending = true) s as).any
        fun t => !t.pc.sending) (by decide +kernel)
  rw [Bool.and_eq_true, decide_eq_true_eq] at hp
  obtain ⟨t, ht, hret⟩ := (Option.any_eq_true _ _).1 hp.2
  rw [Bool.not_eq_true'] at hret
  obtain ⟨Q, -, hdone, -⟩ := send_complete hr hp.1
  exact ⟨s, t, Q, hp.1, hret, ⟨as, steps_of_exec ht⟩, hdone as t (steps_of_exec ht) hret⟩

/-- The transmitter finds the queue empty between the two bytes of a message: `wifly_send` returns
with the second one queued. -/
theorem send_incomplete :
    ¬ ∀ (s t : Sys Main.Point) (msg : List UInt8) (ret : SendRet Main.Point) (as : List Act),
      Reach (step Main.callback) Always init s → s.pc = .send msg ret →
      Steps (step Main.callback) (fun s _ => s.pc.sending = true) s as t →
      t.pc.sending = false → t.sd.oqueue.chOQIsEmptyI = true := by
  intro h
  let as : List Act := script [(1, .thread), (2, .tx), (3, .thread)]
  obtain ⟨s, hr, hp⟩ := reach_of_exec (step Main.callback) Always init
    (script [(1, .thread), (1, .client 7 [97, 98]), (2, .thread)])
    (fun s => decide (s.pc = .send [97, 98] (.release 7)) &&
      (exec (step Main.callback) (fun s _ => s.pc.sending = true) s as).any
        fun t => !t.pc.sending && !t.sd.oqueue.chOQIsEmptyI) (by decide +kernel)
  rw [Bool.and_eq_true, decide_eq_true_eq] at hp
  obtain ⟨t, ht, hret⟩ := (Option.any_eq_true _ _).1 hp.2
  simp only [Bool.and_eq_true, Bool.not_eq_true'] at hret
  have he := h s t _ _ as hr hp.1 (steps_of_exec ht) hret.1
  rw [hret.2] at he
  cases he

end Sys

end RobotPws.Wifly
