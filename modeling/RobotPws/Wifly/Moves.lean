import RobotPws.Wifly.System

/-!
# The moves of the wifly thread

`Move cb s t` lists what a step of the thread can do, one constructor for each
branch, with the guard it took; `threadStep_move` reads a step as one of them
and `step_cases` a step of the whole machine. Invariants of the machine are
proved by cases on these.
-/

namespace RobotPws.Wifly

open RobotPws.Lib RobotPws.Kernel RobotPws.Hal

variable {ω σ : Type} {cb : ProtocolCallback ω σ}

/-- `wifly_send` answers an overflow. -/
def SendRet.isOverflow : SendRet σ → Bool
  | .overflow => true
  | _ => false

/-- The loop is answering an overflow, up to the reset of the queue. -/
def Pc.overflowing : Pc σ → Bool
  | .send _ ret | .sendWait ret | .sendFlags ret => ret.isOverflow
  | .iqReset _ .overflow => true
  | _ => false

/-- `wifly_send` was called for a line: by the callback or to answer it. -/
def SendRet.isAnswer : SendRet σ → Bool
  | .reply | .callback _ => true
  | _ => false

/-- `wifly_receive` was called by the callback. -/
def RecvRet.isAnswer : RecvRet σ → Bool
  | .callback _ => true
  | _ => false

/-- A line that has ended is being answered, after the callback was called. -/
def Pc.answering : Pc σ → Bool
  | .callback _ => true
  | .send _ ret | .sendWait ret | .sendFlags ret => ret.isAnswer
  | .drain _ ret | .recvWait _ ret | .recvSleep _ ret | .recvFlags _ ret | .recvGet _ ret
  | .iqReset _ (.receive _ ret) => ret.isAnswer
  | _ => false

/-- Where the loop goes after a character. -/
def Pc.after : Verdict → Pc σ
  | .more => .top
  | .overflow => .send overflowMsg .overflow
  | .hello => .send helloMsg .reply
  | .badStatus => .send errorMsg .reply
  | .command => .call

theorem after_call {v : Verdict} (h : (Pc.after v : Pc σ) = .call) : v = .command := by
  cases v <;> first | rfl | cases h

namespace Sys

theorem wifly_send_of_ne (s : Sys σ) {msg : List UInt8} (h : msg ≠ []) (ret : SendRet σ) :
    s.wifly_send msg ret = { s with pc := .send msg ret } := if_neg h

theorem act_eq (s : Sys σ) (v : Verdict) : s.act v = { s with pc := .after v } := by
  cases v <;> rfl

/-- What the parser makes of the next value of `sdGetTimeout`. -/
def fed (s : Sys σ) : Parser Cell × Verdict :=
  s.parser.feed (inOf s.sd.sdGetTimeout.1) (cellOf s.sd.sdGetTimeout.1 s.sd.errs)

/-- The flags read and cleared. -/
def flagsRead (s : Sys σ) : Sys σ := { s with sd := { s.sd with elFlags := 0 } }

/-- One value taken from the input queue. -/
def dequeued (s : Sys σ) : Sys σ := { s with sd := s.sd.sdGetTimeout.2 }

/-- One branch of the thread's code, with its guard. -/
inductive Move (cb : ProtocolCallback ω σ) (s : Sys σ) : Sys σ → Prop where
  | register : s.pc = .register →
      Move cb s { s with pc := .top, parser := .init, sd := s.sd.chEvtRegisterMask }
  | takeMessage : s.pc = .top → s.parser.i = 0 → s.parser.j = 0 → s.msgQueue ≠ [] →
      Move cb s { s with pc := .msgWait }
  | listen : s.pc = .top → ¬ (s.parser.i = 0 ∧ s.parser.j = 0 ∧ s.msgQueue ≠ []) →
      Move cb s { s with pc := .evtWait }
  | readRequest (thd : Nat) (q : List (Nat × List UInt8)) :
      s.pc = .msgWait → s.msgQueue = (thd, []) :: q →
      Move cb s { s with msgQueue := q, pc := .drain ⟨[], wiflyElSize⟩ (.release thd) }
  | sendRequest (thd : Nat) (str : List UInt8) (q : List (Nat × List UInt8)) :
      s.pc = .msgWait → s.msgQueue = (thd, str) :: q → str ≠ [] →
      Move cb s { s with msgQueue := q, pc := .send str (.release thd) }
  | event : s.pc = .evtWait → s.sd.epending = true →
      Move cb s { s with pc := .getFlags, sd := { s.sd with epending := false } }
  | noEvent : s.pc = .evtWait → s.sd.epending = false → Move cb s { s with pc := .top }
  | inputFlag : s.pc = .getFlags → hasFlag s.sd.elFlags chnInputAvailable = true →
      Move cb s { s.flagsRead with pc := .getByte }
  | errorFlags : s.pc = .getFlags → hasFlag s.sd.elFlags chnInputAvailable = false →
      s.sd.elFlags > 32 → Move cb s { s.flagsRead with pc := .iqReset .wrptr .error }
  | otherFlags : s.pc = .getFlags → hasFlag s.sd.elFlags chnInputAvailable = false →
      ¬ s.sd.elFlags > 32 → Move cb s { s.flagsRead with pc := .top }
  | byte : s.pc = .getByte →
      Move cb s { s.dequeued with parser := s.fed.1, pc := .after s.fed.2 }
  | call : s.pc = .call → Move cb s { s with
      pc := .callback (cb.start (cstring s.parser.id) (cstring s.parser.args))
      calls := s.calls ++ [s.parser.lineCells] }
  | returnAnswer (x : σ) (m : Message) : s.pc = .callback x → cb.req x = .ret m → m ≠ .message →
      Move cb s { s with pc := .send (if m = .ok then okMsg else errorMsg) .reply }
  | returnMessage (x : σ) : s.pc = .callback x → cb.req x = .ret .message →
      Move cb s { s with pc := .top, parser := s.parser.restart }
  | callbackSendEmpty (x : σ) : s.pc = .callback x → cb.req x = .send [] →
      Move cb s { s with pc := .callback (cb.sent x .overflow) }
  | callbackSend (x : σ) (msg : List UInt8) : s.pc = .callback x → cb.req x = .send msg →
      msg ≠ [] → Move cb s { s with pc := .send msg (.callback (cb.sent x .ok)) }
  | callbackRead (x : σ) : s.pc = .callback x → cb.req x = .read →
      Move cb s { s with pc := .drain ⟨[], wiflyElSize⟩ (.callback x) }
  | put (b : UInt8) (bs : List UInt8) (ret : SendRet σ) (d : SerialDriver) :
      s.pc = .send (b :: bs) ret → s.sd.sdWriteByte b = some d →
      Move cb s { s with sd := d, pc := if bs = [] then .sendWait ret else .send bs ret }
  | sendEvent (ret : SendRet σ) : s.pc = .sendWait ret → s.sd.epending = true →
      Move cb s { s with pc := .sendFlags ret, sd := { s.sd with epending := false } }
  | sendDone (ret : SendRet σ) : s.pc = .sendFlags ret →
      hasFlag s.sd.elFlags chnOutputEmpty = true → Move cb s (s.flagsRead.sent ret)
  | sendMore (ret : SendRet σ) : s.pc = .sendFlags ret →
      hasFlag s.sd.elFlags chnOutputEmpty = false →
      Move cb s { s.flagsRead with pc := .sendWait ret }
  | drained (r : Recv) (ret : RecvRet σ) : s.pc = .drain r ret → s.sd.sdGetTimeout.1 = none →
      Move cb s { s.dequeued with pc := .recvWait r ret }
  | drainByte (r : Recv) (ret : RecvRet σ) (rx : Rx) :
      s.pc = .drain r ret → s.sd.sdGetTimeout.1 = some rx →
      Move cb s (recvByte cb s.dequeued r (inOf (some rx)) ret .drain)
  | recvEvent (r : Recv) (ret : RecvRet σ) : s.pc = .recvWait r ret ∨ s.pc = .recvSleep r ret →
      s.sd.epending = true →
      Move cb s { s with pc := .recvFlags r ret, sd := { s.sd with epending := false } }
  | recvSleep (r : Recv) (ret : RecvRet σ) : s.pc = .recvWait r ret → s.sd.epending = false →
      Move cb s { s with pc := .recvSleep r ret }
  | recvInput (r : Recv) (ret : RecvRet σ) : s.pc = .recvFlags r ret →
      hasFlag s.sd.elFlags chnInputAvailable = true →
      Move cb s { s.flagsRead with pc := .recvGet r ret }
  | recvError (r : Recv) (ret : RecvRet σ) : s.pc = .recvFlags r ret →
      hasFlag s.sd.elFlags chnInputAvailable = false → s.sd.elFlags > 32 →
      Move cb s (s.flagsRead.received cb .error r ret)
  | recvOther (r : Recv) (ret : RecvRet σ) : s.pc = .recvFlags r ret →
      hasFlag s.sd.elFlags chnInputAvailable = false → ¬ s.sd.elFlags > 32 →
      Move cb s { s.flagsRead with pc := .recvWait r ret }
  | recvNothing (r : Recv) (ret : RecvRet σ) :
      s.pc = .recvGet r ret → s.sd.sdGetTimeout.1 = none →
      Move cb s (s.dequeued.received cb .reset r ret)
  | recvByte (r : Recv) (ret : RecvRet σ) (rx : Rx) :
      s.pc = .recvGet r ret → s.sd.sdGetTimeout.1 = some rx →
      Move cb s (recvByte cb s.dequeued r (inOf (some rx)) ret .recvWait)
  | release (thd : Nat) (st : State) (buf : List UInt8) : s.pc = .release thd st buf →
      Move cb s { s with pc := .evtWait, answers := s.answers ++ [⟨thd, st, buf⟩] }
  | iqResetWrptr (ret : ResetRet σ) : s.pc = .iqReset .wrptr ret →
      Move cb s { s with pc := .iqReset .rdptr ret, sd := s.sd.chIQResetI .wrptr }
  | iqResetRdptr (ret : ResetRet σ) : s.pc = .iqReset .rdptr ret →
      Move cb s { s with pc := .iqReset .counter ret, sd := s.sd.chIQResetI .rdptr }
  | iqResetCounter (ret : ResetRet σ) : s.pc = .iqReset .counter ret →
      Move cb s (iqWasReset cb { s with sd := s.sd.chIQResetI .counter } ret)
  | oqReset (k : QReset) (pc : Pc σ) : s.pc = .oqReset k → (∃ k', pc = .oqReset k') ∨ pc = .top →
      Move cb s { s with pc := pc, sd := s.sd.chOQResetI k }

theorem threadStep_move {s t : Sys σ} (h : s.threadStep cb = some t) : Move cb s t := by
  unfold threadStep at h
  split at h
  case h_1 hpc => cases h; exact .register hpc
  case h_2 hpc =>
    split at h
    · next hg => cases h; exact .takeMessage hpc hg.1 hg.2.1 hg.2.2
    · next hg => cases h; exact .listen hpc hg
  case h_3 hpc =>
    split at h
    · cases h
    · next thd str q hq =>
      split at h
      · next hs => subst hs; cases h; exact .readRequest thd q hpc hq
      · next hs =>
        simp only [wifly_send_of_ne _ hs] at h
        cases h; exact .sendRequest thd str q hpc hq hs
  case h_4 hpc =>
    split at h
    · next he => cases h; exact .event hpc he
    · next he => cases h; exact .noEvent hpc (by simpa using he)
  case h_5 hpc =>
    dsimp only at h
    by_cases hf : hasFlag s.sd.chEvtGetAndClearFlags.1 chnInputAvailable = true
    · rw [if_pos hf] at h
      cases h; exact .inputFlag hpc hf
    · rw [if_neg hf] at h
      rw [Bool.not_eq_true] at hf
      by_cases h32 : s.sd.chEvtGetAndClearFlags.1 > 32
      · rw [if_pos h32] at h
        cases h; exact .errorFlags hpc hf h32
      · rw [if_neg h32] at h
        cases h; exact .otherFlags hpc hf h32
  case h_6 hpc =>
    simp only [act_eq] at h
    cases h; exact .byte hpc
  case h_7 hpc => cases h; exact .call hpc
  case h_8 x hpc =>
    split at h
    · next m hr =>
      simp only [finish] at h
      cases m with
      | ok =>
        cases h
        rw [if_pos rfl, wifly_send_of_ne _ (by decide)]
        exact .returnAnswer x .ok hpc hr (by simp)
      | error =>
        cases h
        rw [if_neg (by simp), if_pos (by simp), wifly_send_of_ne _ (by decide)]
        exact .returnAnswer x .error hpc hr (by simp)
      | message => cases h; exact .returnMessage x hpc hr
    · next msg hr =>
      split at h
      · next hm => subst hm; cases h; exact .callbackSendEmpty x hpc hr
      · next hm =>
        rw [wifly_send_of_ne _ hm] at h
        cases h; exact .callbackSend x msg hpc hr hm
    · next hr => cases h; exact .callbackRead x hpc hr
    · cases h
  case h_9 msg ret hpc =>
    split at h
    · cases h
    · next b bs =>
      obtain ⟨d, hd, rfl⟩ := Option.map_eq_some_iff.1 h
      exact .put b bs ret d hpc hd
  case h_10 ret hpc =>
    split at h
    · next he => cases h; exact .sendEvent ret hpc he
    · cases h
  case h_11 ret hpc =>
    dsimp only at h
    by_cases hf : hasFlag s.sd.chEvtGetAndClearFlags.1 chnOutputEmpty = true
    · rw [if_pos hf] at h
      cases h; exact .sendDone ret hpc hf
    · rw [if_neg hf] at h
      cases h; exact .sendMore ret hpc (Bool.not_eq_true _ ▸ hf)
  case h_12 r ret hpc =>
    split at h
    · next d hg =>
      cases h
      rw [show d = s.sd.sdGetTimeout.2 by rw [hg]]
      exact .drained r ret hpc (by rw [hg])
    · next rx d hg =>
      cases h
      rw [show d = s.sd.sdGetTimeout.2 by rw [hg]]
      exact .drainByte r ret rx hpc (by rw [hg])
  case h_13 r ret hpc =>
    split at h
    · next he => cases h; exact .recvEvent r ret (.inl hpc) he
    · next he => cases h; exact .recvSleep r ret hpc (by simpa using he)
  case h_14 r ret hpc =>
    split at h
    · next he => cases h; exact .recvEvent r ret (.inr hpc) he
    · cases h
  case h_15 r ret hpc =>
    dsimp only at h
    by_cases hf : hasFlag s.sd.chEvtGetAndClearFlags.1 chnInputAvailable = true
    · rw [if_pos hf] at h
      cases h; exact .recvInput r ret hpc hf
    · rw [if_neg hf] at h
      rw [Bool.not_eq_true] at hf
      by_cases h32 : s.sd.chEvtGetAndClearFlags.1 > 32
      · rw [if_pos h32] at h
        cases h; exact .recvError r ret hpc hf h32
      · rw [if_neg h32] at h
        cases h; exact .recvOther r ret hpc hf h32
  case h_16 r ret hpc =>
    split at h
    · next d hg =>
      cases h
      rw [show d = s.sd.sdGetTimeout.2 by rw [hg]]
      exact .recvNothing r ret hpc (by rw [hg])
    · next rx d hg =>
      cases h
      rw [show d = s.sd.sdGetTimeout.2 by rw [hg]]
      exact .recvByte r ret rx hpc (by rw [hg])
  case h_17 thd st buf hpc => cases h; exact .release thd st buf hpc
  case h_18 k ret hpc =>
    cases k with
    | wrptr => cases h; exact .iqResetWrptr ret hpc
    | rdptr => cases h; exact .iqResetRdptr ret hpc
    | counter => cases h; exact .iqResetCounter ret hpc
  case h_19 k hpc =>
    cases k with
    | wrptr => cases h; exact .oqReset .wrptr _ hpc (.inl ⟨_, rfl⟩)
    | rdptr => cases h; exact .oqReset .rdptr _ hpc (.inl ⟨_, rfl⟩)
    | counter => cases h; exact .oqReset .counter _ hpc (.inr rfl)

/-! ## What returning changes -/

@[simp] theorem sent_sd (s : Sys σ) (ret : SendRet σ) : (s.sent ret).sd = s.sd := by
  cases ret <;> rfl

@[simp] theorem received_sd (s : Sys σ) (st : State) (r : Recv) (ret : RecvRet σ) :
    (s.received cb st r ret).sd = s.sd := by
  cases ret <;> rfl

@[simp] theorem parser_received (s : Sys σ) (st : State) (r : Recv) (ret : RecvRet σ) :
    (s.received cb st r ret).parser = s.parser := by
  cases ret <;> rfl

@[simp] theorem iqWasReset_sd (s : Sys σ) (ret : ResetRet σ) : (s.iqWasReset cb ret).sd = s.sd := by
  cases ret <;> first | rfl | exact received_sd ..

/-- After a character `wifly_receive` resets the queue, returns or goes on. -/
theorem recvByte_cases (cb : ProtocolCallback ω σ) (s : Sys σ) (r : Recv) (inn : Int)
    (ret : RecvRet σ) (again : Recv → RecvRet σ → Pc σ) :
    ((r.store inn).full = true ∧ recvByte cb s r inn ret again =
      { s with pc := .iqReset .wrptr (.receive (r.store inn) ret) }) ∨
    ((r.store inn).full = false ∧ inn = chLf ∧
      recvByte cb s r inn ret again = s.received cb .ok (r.store inn) ret) ∨
    ((r.store inn).full = false ∧ inn ≠ chLf ∧
      recvByte cb s r inn ret again = { s with pc := again (r.store inn) ret }) := by
  unfold recvByte
  cases hf : (r.store inn).full with
  | true => exact .inl ⟨rfl, by simp [hf]⟩
  | false =>
    by_cases hl : inn = chLf
    · exact .inr (.inl ⟨rfl, hl, by simp [hf, if_pos hl]⟩)
    · exact .inr (.inr ⟨rfl, hl, by simp [hf, if_neg hl]⟩)

@[simp] theorem recvByte_sd (s : Sys σ) (r : Recv) (inn : Int) (ret : RecvRet σ)
    (again : Recv → RecvRet σ → Pc σ) : (recvByte cb s r inn ret again).sd = s.sd := by
  obtain ⟨-, h⟩ | ⟨-, -, h⟩ | ⟨-, -, h⟩ := recvByte_cases cb s r inn ret again <;> simp [h]

/-! ## Steps -/

/-- What a step of the machine can be. -/
theorem step_cases {s t : Sys σ} {a : Act} (h : s.step cb a = some t) :
    (a = .thread ∧ Move cb s t) ∨
    (∃ r ret, a = .timeout ∧ s.pc = .recvSleep r ret ∧ s.sd.epending = false ∧
      t = s.received cb .timeout r ret) ∨
    (∃ x v, a = .result v ∧ s.pc = .callback x ∧
      t = { s with pc := .callback (cb.result x v) }) ∨
    (∃ sr dr, a = .usart sr dr ∧ t = { s with sd := s.sd.serveInterrupt sr dr }) ∨
    (∃ thd str, a = .client thd str ∧ t = { s with msgQueue := s.msgQueue ++ [(thd, str)] }) := by
  cases a with
  | thread => exact .inl ⟨rfl, threadStep_move h⟩
  | timeout =>
    simp only [step] at h
    split at h
    · next r ret hpc =>
      split at h
      · cases h
      · next he => exact .inr (.inl ⟨r, ret, rfl, hpc, by simpa using he, by cases h; rfl⟩)
    · cases h
  | result v =>
    simp only [step] at h
    split at h
    · next x hpc =>
      split at h
      · exact .inr (.inr (.inl ⟨x, v, rfl, hpc, by cases h; rfl⟩))
      · cases h
    · cases h
  | usart sr dr => exact .inr (.inr (.inr (.inl ⟨sr, dr, rfl, by cases h; rfl⟩)))
  | client thd str =>
    simp only [step] at h
    split at h
    · cases h
    · exact .inr (.inr (.inr (.inr ⟨thd, str, rfl, by cases h; rfl⟩)))

@[simp] theorem received_answers (s : Sys σ) (st : State) (r : Recv) (ret : RecvRet σ) :
    (s.received cb st r ret).answers = s.answers := by
  cases ret <;> rfl

@[simp] theorem recvByte_answers (s : Sys σ) (r : Recv) (inn : Int) (ret : RecvRet σ)
    (again : Recv → RecvRet σ → Pc σ) : (recvByte cb s r inn ret again).answers = s.answers := by
  obtain ⟨-, h⟩ | ⟨-, -, h⟩ | ⟨-, -, h⟩ := recvByte_cases cb s r inn ret again <;> simp [h]

/-- Only `chMsgRelease` gives something back. -/
theorem Move.answers {s t : Sys σ} (hm : Move cb s t) :
    t.answers = s.answers ∨ ∃ thd st buf, s.pc = .release thd st buf ∧
      t = { s with pc := .evtWait, answers := s.answers ++ [⟨thd, st, buf⟩] } := by
  cases hm with
  | release thd st buf hpc => exact .inr ⟨thd, st, buf, hpc, rfl⟩
  | sendDone ret => cases ret <;> exact .inl rfl
  | drainByte | recvByte => exact .inl (recvByte_answers ..)
  | recvError | recvNothing => exact .inl (received_answers ..)
  | iqResetCounter ret =>
    cases ret with
    | overflow | error => exact .inl rfl
    | receive r ret => exact .inl (received_answers ..)
  | _ => exact .inl rfl

theorem step_answers {s t : Sys σ} {a : Act} (hs : s.step cb a = some t) :
    t.answers = s.answers ∨ ∃ thd st buf, a = .thread ∧ s.pc = .release thd st buf ∧
      t = { s with pc := .evtWait, answers := s.answers ++ [⟨thd, st, buf⟩] } := by
  obtain ⟨rfl, hm⟩ | ⟨r, ret, -, -, -, rfl⟩ | ⟨x, v, -, -, rfl⟩ | ⟨sr, dr, -, rfl⟩ |
    ⟨thd, str, -, rfl⟩ := step_cases hs
  · obtain he | ⟨thd, st, buf, hpc, he⟩ := hm.answers
    · exact .inl he
    · exact .inr ⟨thd, st, buf, rfl, hpc, he⟩
  · exact .inl (received_answers ..)
  · exact .inl rfl
  · exact .inl rfl
  · exact .inl rfl

/-- Only the flag leads to the read in the loop. -/
theorem Move.to_getByte {s t : Sys σ} (hm : Move cb s t) (h : t.pc = .getByte) :
    s.pc = .getFlags ∧ hasFlag s.sd.elFlags chnInputAvailable = true ∧
      t = { s.flagsRead with pc := .getByte } := by
  have hrecv : ∀ (st : State) (r : Recv) (ret : RecvRet σ) (s : Sys σ),
      (s.received cb st r ret).pc ≠ .getByte := by
    intro st r ret s; cases ret <;> simp [received]
  cases hm with
  | inputFlag hpc hf => exact ⟨hpc, hf, rfl⟩
  | byte => revert h; cases s.fed.2 <;> simp [Pc.after]
  | put b bs ret d => by_cases hbs : bs = [] <;> simp [hbs] at h
  | sendDone ret => cases ret <;> simp [sent] at h
  | drainByte r ret rx =>
    obtain ⟨-, he⟩ | ⟨-, -, he⟩ | ⟨-, -, he⟩ :=
      recvByte_cases cb s.dequeued r (inOf (some rx)) ret .drain <;> rw [he] at h
    · cases h
    · exact (hrecv _ _ _ _ h).elim
    · cases h
  | recvByte r ret rx =>
    obtain ⟨-, he⟩ | ⟨-, -, he⟩ | ⟨-, -, he⟩ :=
      recvByte_cases cb s.dequeued r (inOf (some rx)) ret .recvWait <;> rw [he] at h
    · cases h
    · exact (hrecv _ _ _ _ h).elim
    · cases h
  | recvError | recvNothing => exact (hrecv _ _ _ _ h).elim
  | iqResetCounter ret =>
    cases ret with
    | receive r ret => exact (hrecv _ _ _ _ h).elim
    | overflow | error => cases h
  | oqReset k pc hpc hn => rcases hn with ⟨k', rfl⟩ | rfl <;> cases h
  | _ => cases h

/-! ## What happens to the input queue -/

/-- How many stores of `chIQResetI` have been made. -/
def stores : Pc σ → Nat
  | .iqReset .rdptr _ => 1
  | .iqReset .counter _ => 2
  | _ => 0

/-- The branches of the machine that concern the input queue: it is left
alone, a byte is taken, a store of its reset is made or the interrupt runs. -/
inductive QueueStep (s : Sys σ) (a : Act) (t : Sys σ) : Prop where
  | same : t.sd.iqueue = s.sd.iqueue → t.sd.wire = s.sd.wire → stores t.pc = stores s.pc →
      QueueStep s a t
  | get : t.sd.iqueue = s.sd.iqueue.chIQGetTimeout.2 → t.sd.wire = s.sd.wire → stores s.pc = 0 →
      stores t.pc = 0 → QueueStep s a t
  | reset (k : QReset) (ret : ResetRet σ) : a = .thread → s.pc = .iqReset k ret →
      t.sd.iqueue = s.sd.iqueue.chIQResetI k → t.sd.wire = s.sd.wire →
      stores t.pc = (stores s.pc + 1) % 3 → QueueStep s a t
  | usart (sr : SR) (dr : UInt8) : a = .usart sr dr →
      t = { s with sd := s.sd.serveInterrupt sr dr } → QueueStep s a t

theorem stores_received (s : Sys σ) (st : State) (r : Recv) (ret : RecvRet σ) :
    stores (s.received cb st r ret).pc = 0 := by
  cases ret <;> rfl

theorem stores_recvByte (s : Sys σ) (r : Recv) (inn : Int) (ret : RecvRet σ)
    (again : Recv → RecvRet σ → Pc σ) (h : ∀ r, stores (again r ret) = 0) :
    stores (recvByte cb s r inn ret again).pc = 0 := by
  obtain ⟨-, he⟩ | ⟨-, -, he⟩ | ⟨-, -, he⟩ := recvByte_cases cb s r inn ret again <;> rw [he]
  · rfl
  · exact stores_received ..
  · exact h _

theorem Move.queue {s t : Sys σ} (hm : Move cb s t) : QueueStep s .thread t := by
  cases hm with
  | register hpc | takeMessage hpc | listen hpc | noEvent hpc | event hpc | inputFlag hpc
  | errorFlags hpc | otherFlags hpc | readRequest _ _ hpc | sendRequest _ _ _ hpc | call hpc
  | returnAnswer _ _ hpc | returnMessage _ hpc | callbackSendEmpty _ hpc | callbackSend _ _ hpc
  | callbackRead _ hpc | sendEvent _ hpc | sendMore _ hpc | recvSleep _ _ hpc | recvInput _ _ hpc
  | recvOther _ _ hpc | release _ _ _ hpc => exact .same rfl rfl (by rw [hpc]; rfl)
  | recvEvent _ _ hpc => exact .same rfl rfl (by rcases hpc with hpc | hpc <;> rw [hpc] <;> rfl)
  | put b bs ret d hpc hd =>
    obtain ⟨q, -, rfl⟩ := Option.map_eq_some_iff.1 hd
    exact .same rfl rfl (by by_cases hbs : bs = [] <;> simp [hbs, hpc, stores])
  | sendDone ret hpc =>
    cases ret <;> exact .same rfl rfl (by rw [hpc]; rfl)
  | recvError r ret hpc =>
    exact .same (by rw [received_sd]; rfl) (by rw [received_sd]; rfl)
      (by rw [hpc, stores_received]; rfl)
  | byte hpc =>
    exact .get rfl rfl (by rw [hpc]; rfl) (by cases s.fed.2 <;> rfl)
  | drained _ _ hpc => exact .get rfl rfl (by rw [hpc]; rfl) rfl
  | drainByte _ _ _ hpc | recvByte _ _ _ hpc =>
    exact .get (by rw [recvByte_sd]; rfl) (by rw [recvByte_sd]; rfl) (by rw [hpc]; rfl)
      (stores_recvByte _ _ _ _ _ fun _ => rfl)
  | recvNothing _ _ hpc =>
    exact .get (by rw [received_sd]; rfl) (by rw [received_sd]; rfl) (by rw [hpc]; rfl)
      (stores_received ..)
  | iqResetWrptr _ hpc | iqResetRdptr _ hpc =>
    exact .reset _ _ rfl hpc rfl rfl (by rw [hpc]; rfl)
  | iqResetCounter ret hpc =>
    refine .reset _ _ rfl hpc (by rw [iqWasReset_sd]; rfl) (by rw [iqWasReset_sd]; rfl) ?_
    cases ret with
    | overflow | error => simp [hpc, stores, iqWasReset]
    | receive r ret =>
      rw [show stores s.pc = 2 by rw [hpc]; rfl]
      exact stores_received { s with sd := s.sd.chIQResetI .counter } .overflow r ret
  | oqReset k pc hpc hn =>
    exact .same rfl rfl (by rcases hn with ⟨k', rfl⟩ | rfl <;> rw [hpc] <;> rfl)

theorem step_queue {s t : Sys σ} {a : Act} (hs : s.step cb a = some t) : QueueStep s a t := by
  obtain ⟨rfl, hm⟩ | ⟨r, ret, -, hpc, -, rfl⟩ | ⟨x, v, -, hpc, rfl⟩ | ⟨sr, dr, rfl, rfl⟩ |
    ⟨thd, str, -, rfl⟩ := step_cases hs
  · exact hm.queue
  · exact .same (by simp) (by simp) (by rw [hpc, stores_received]; rfl)
  · exact .same rfl rfl (by rw [hpc]; rfl)
  · exact .usart sr dr rfl rfl
  · exact .same rfl rfl rfl

/-- The read pointer stays inside the buffer. -/
def RdptrOk (s : Sys σ) : Prop := s.sd.iqueue.qRdptr < serialBuffersSize

theorem serveInterrupt_rdptr (d : SerialDriver) (sr : SR) (dr : UInt8) :
    (d.serveInterrupt sr dr).iqueue.qRdptr = d.iqueue.qRdptr := by
  refine SerialDriver.serveInterrupt_keeps
    (fun d' => d'.iqueue.qRdptr = d.iqueue.qRdptr) ?_ (fun _ _ h => h) ?_
    (fun _ _ _ _ h => h) rfl dr
  · intro d' f _ h; simpa using h
  · intro _ d' b h
    obtain ⟨q, hq, -, he⟩ | ⟨q, hq, -, he⟩ | ⟨-, -, he⟩ := d'.sdIncomingDataI_cases b <;> rw [he]
    · exact (GenericQueue.chIQPutI_rdptr hq).trans h
    · exact (GenericQueue.chIQPutI_rdptr hq).trans h
    · simpa [SerialDriver.addErrorI] using h

theorem step_rdptr {s t : Sys σ} {a : Act} (h : s.RdptrOk) (hs : s.step cb a = some t) :
    t.RdptrOk := by
  unfold RdptrOk at h ⊢
  cases step_queue hs with
  | same he => rw [he]; exact h
  | get he => rw [he]; exact GenericQueue.chIQGetTimeout_rdptr h
  | reset k ret _ _ he =>
    rw [he]
    cases k
    · exact h
    · exact Nat.zero_lt_succ _
    · exact h
  | usart sr dr _ he => rw [he]; exact (serveInterrupt_rdptr ..).symm ▸ h

/-! ## What happens to the line -/

/-- The line stays as it is. -/
structure SameLine (s t : Sys σ) : Prop where
  parser : t.parser = s.parser
  calls : t.calls = s.calls
  overflows : t.overflows = s.overflows
  call : t.pc = .call → s.pc = .call
  overflowing : t.pc.overflowing = s.pc.overflowing
  answering : t.pc.answering = s.pc.answering

/-- The line is forgotten. -/
structure NewLine (s t : Sys σ) : Prop where
  boundary : t.parser.Boundary
  calls : t.calls = s.calls
  overflows : t.overflows = s.overflows
  call : t.pc ≠ .call
  overflowing : t.pc.overflowing = false

theorem received_logs (cb : ProtocolCallback ω σ) (s : Sys σ) (st : State) (r : Recv)
    (ret : RecvRet σ) :
    (s.received cb st r ret).calls = s.calls ∧
      (s.received cb st r ret).overflows = s.overflows := by
  cases ret <;> exact ⟨rfl, rfl⟩

theorem received_sameLine (s s' : Sys σ) (hp : s'.parser = s.parser) (hc : s'.calls = s.calls)
    (hl : s'.overflows = s.overflows) (st : State) (r : Recv) (ret : RecvRet σ)
    (ho : s.pc.overflowing = false) (ha : s.pc.answering = ret.isAnswer) :
    SameLine s (s'.received cb st r ret) := by
  obtain ⟨h1, h2⟩ := received_logs cb s' st r ret
  refine ⟨by simp [hp], h1.trans hc, h2.trans hl, ?_, ?_, ?_⟩ <;> cases ret
  all_goals simp_all [received, Pc.overflowing, Pc.answering, RecvRet.isAnswer]

theorem recvByte_sameLine (s s' : Sys σ) (hp : s'.parser = s.parser) (hc : s'.calls = s.calls)
    (hl : s'.overflows = s.overflows) (r : Recv) (inn : Int) (ret : RecvRet σ)
    (again : Recv → RecvRet σ → Pc σ) (ho : s.pc.overflowing = false)
    (ha : s.pc.answering = ret.isAnswer)
    (hag : ∀ r, again r ret ≠ .call ∧ (again r ret).overflowing = false ∧
      (again r ret).answering = ret.isAnswer) :
    SameLine s (recvByte cb s' r inn ret again) := by
  obtain ⟨-, h⟩ | ⟨-, -, h⟩ | ⟨-, -, h⟩ := recvByte_cases cb s' r inn ret again <;> rw [h]
  · exact ⟨hp, hc, hl, by simp, ho.symm, ha.symm⟩
  · exact received_sameLine s s' hp hc hl _ _ ret ho ha
  · obtain ⟨h1, h2, h3⟩ := hag (r.store inn)
    exact ⟨hp, hc, hl, fun h => absurd h h1, h2.trans ho.symm, h3.trans ha.symm⟩

/-- The character read goes to the parser. -/
def readByte (s : Sys σ) : Sys σ :=
  { s.dequeued with parser := s.fed.1, pc := .after s.fed.2 }

/-- The line is discarded. -/
def discard (s : Sys σ) : Sys σ :=
  { s with
    sd := s.sd.chIQResetI .counter
    pc := .top
    parser := s.parser.restart
    overflows := s.overflows ++ [s.parser.held] }

/-- The branches of the machine that concern the line: it stays, it is
forgotten after an answer, it gets a character, it is given to the callback or
it is discarded. -/
inductive LineStep (s : Sys σ) (a : Act) : Sys σ → Prop where
  | same {t : Sys σ} : SameLine s t → LineStep s a t
  | new {t : Sys σ} : NewLine s t → LineStep s a t
  | byte : a = .thread → s.pc = .getByte → LineStep s a s.readByte
  | call (x : σ) : a = .thread → s.pc = .call →
      LineStep s a { s with pc := .callback x, calls := s.calls ++ [s.parser.lineCells] }
  | discard : a = .thread → s.pc = .iqReset .counter .overflow → LineStep s a s.discard

theorem Move.line {s t : Sys σ} (hm : Move cb s t) : LineStep s .thread t := by
  cases hm with
  | byte hpc => exact .byte rfl hpc
  | call hpc => exact .call _ rfl hpc
  | register | returnMessage => exact .new ⟨⟨rfl, rfl, rfl⟩, rfl, rfl, by simp, rfl⟩
  | takeMessage hpc | listen hpc | noEvent hpc | event hpc | inputFlag hpc
  | errorFlags hpc | otherFlags hpc | readRequest _ _ hpc | sendRequest _ _ _ hpc
  | returnAnswer _ _ hpc | callbackSendEmpty _ hpc | callbackSend _ _ hpc | callbackRead _ hpc
  | sendEvent _ hpc | sendMore _ hpc | drained _ _ hpc | recvSleep _ _ hpc | recvInput _ _ hpc
  | recvOther _ _ hpc | release _ _ _ hpc =>
    exact .same ⟨rfl, rfl, rfl, by simp, by rw [hpc]; rfl, by rw [hpc]; rfl⟩
  | iqResetWrptr ret hpc | iqResetRdptr ret hpc =>
    cases ret <;> exact .same ⟨rfl, rfl, rfl, by simp, by rw [hpc]; rfl, by rw [hpc]; rfl⟩
  | recvEvent _ _ hpc =>
    rcases hpc with hpc | hpc <;>
      exact .same ⟨rfl, rfl, rfl, by simp, by rw [hpc]; rfl, by rw [hpc]; rfl⟩
  | put b bs ret d hpc hd =>
    by_cases hbs : bs = [] <;> simp only [hbs, ↓reduceIte] <;>
      exact .same ⟨rfl, rfl, rfl, by simp, by rw [hpc]; rfl, by rw [hpc]; rfl⟩
  | sendDone ret hpc =>
    cases ret with
    | reply => exact .new ⟨⟨rfl, rfl, rfl⟩, rfl, rfl, by simp [sent], rfl⟩
    | release | overflow | callback =>
      exact .same ⟨rfl, rfl, rfl, by simp [sent], by rw [hpc]; rfl, by rw [hpc]; rfl⟩
  | drainByte r ret rx hpc | recvByte r ret rx hpc =>
    exact .same (recvByte_sameLine s s.dequeued rfl rfl rfl _ _ ret _ (by rw [hpc]; rfl)
      (by rw [hpc]; rfl) fun _ => ⟨by simp, rfl, rfl⟩)
  | recvError r ret hpc =>
    exact .same (received_sameLine s s.flagsRead rfl rfl rfl _ _ ret (by rw [hpc]; rfl)
      (by rw [hpc]; rfl))
  | recvNothing r ret hpc =>
    exact .same (received_sameLine s s.dequeued rfl rfl rfl _ _ ret (by rw [hpc]; rfl)
      (by rw [hpc]; rfl))
  | iqResetCounter ret hpc =>
    cases ret with
    | overflow => exact .discard rfl hpc
    | error =>
      exact .same ⟨rfl, rfl, rfl, by simp [iqWasReset], by rw [hpc]; rfl, by rw [hpc]; rfl⟩
    | receive r ret =>
      exact .same (received_sameLine s { s with sd := s.sd.chIQResetI .counter } rfl rfl rfl _ _ ret
        (by rw [hpc]; rfl) (by rw [hpc]; rfl))
  | oqReset k pc hpc hn =>
    rcases hn with ⟨k', rfl⟩ | rfl <;>
      exact .same ⟨rfl, rfl, rfl, by simp, by rw [hpc]; rfl, by rw [hpc]; rfl⟩

theorem step_line {s t : Sys σ} {a : Act} (hs : s.step cb a = some t) : LineStep s a t := by
  obtain ⟨rfl, hm⟩ | ⟨r, ret, -, hpc, -, rfl⟩ | ⟨x, v, -, hpc, rfl⟩ | ⟨sr, dr, -, rfl⟩ |
    ⟨thd, str, -, rfl⟩ := step_cases hs
  · exact hm.line
  · exact .same (received_sameLine s s rfl rfl rfl _ _ ret (by rw [hpc]; rfl) (by rw [hpc]; rfl))
  · exact .same ⟨rfl, rfl, rfl, by simp, by rw [hpc]; rfl, by rw [hpc]; rfl⟩
  · exact .same ⟨rfl, rfl, rfl, id, rfl, rfl⟩
  · exact .same ⟨rfl, rfl, rfl, id, rfl, rfl⟩

/-- The counters of the line are in bounds, except while an overflow is being
answered. -/
def Bounded (s : Sys σ) : Prop := s.pc.overflowing = false → s.parser.Ok

theorem fed_ok {p : Parser Cell} {inn : Int} {c : Cell} (h : p.Ok)
    (hf : (Pc.after (p.feed inn c).2 : Pc σ).overflowing = false) : (p.feed inn c).1.Ok := by
  refine h.feed fun hv => ?_
  rw [hv] at hf
  cases hf

theorem step_bounded {s t : Sys σ} {a : Act} (h : s.Bounded) (hs : s.step cb a = some t) :
    t.Bounded := by
  cases step_line hs with
  | same he =>
    intro hf
    rw [he.parser]
    exact h (he.overflowing ▸ hf)
  | new he => exact fun _ => he.boundary.ok
  | byte _ hpc => exact fun hf => fed_ok (h (by rw [hpc]; rfl)) hf
  | call x _ hpc => exact fun _ => h (by rw [hpc]; rfl)
  | discard => exact fun _ => (Parser.restart_boundary _).ok

theorem cellOf_space {r : Option Rx} {n : Nat} (h : (cellOf r n).char = 32) : inOf r = chSpace := by
  cases r with
  | none => exact absurd h (by simp [cellOf, inOf, toChar])
  | some rx =>
    have hb : rx.byte = 32 := (toChar_ofNat rx.byte).symm.trans h
    rw [inOf, hb]
    rfl

theorem step_clean {s t : Sys σ} {a : Act} (h : s.parser.Clean) (hs : s.step cb a = some t) :
    t.parser.Clean := by
  cases step_line hs with
  | same he => exact he.parser ▸ h
  | new he => exact he.boundary.clean
  | byte => exact h.feed cellOf_space
  | call => exact h
  | discard => exact (Parser.restart_boundary _).clean

theorem reach_clean {s : Sys σ} {C : Sys σ → Act → Prop} (h : Reach (step cb) C init s) :
    s.parser.Clean :=
  h.inv (Parser.Boundary.clean ⟨rfl, rfl, rfl⟩) fun _ _ _ hi _ hs => step_clean hi hs

/-- What the callback is about to be given is made of cells of the line. -/
def CallHeld (s : Sys σ) : Prop :=
  s.Bounded ∧ (s.pc = .call → ∀ c ∈ s.parser.lineCells, c ∈ s.parser.held)

theorem init_callHeld : (init : Sys σ).CallHeld :=
  ⟨fun _ => ⟨Nat.zero_le _, Nat.zero_le _⟩, fun h => nomatch h⟩

theorem step_callHeld {s t : Sys σ} {a : Act} (h : s.CallHeld) (hs : s.step cb a = some t) :
    t.CallHeld := by
  refine ⟨step_bounded h.1 hs, fun hc => ?_⟩
  cases step_line hs with
  | same he => exact he.parser ▸ h.2 (he.call hc)
  | new he => exact absurd hc he.call
  | byte _ hpc =>
    exact fun c hcell => Parser.mem_held_of_mem_lineCells (h.1 (by rw [hpc]; rfl))
      (after_call hc) hcell
  | call => cases hc
  | discard => cases hc

theorem reach_bounded {s : Sys σ} {C : Sys σ → Act → Prop} (h : Reach (step cb) C init s) :
    s.Bounded :=
  h.inv (fun _ => ⟨Nat.zero_le _, Nat.zero_le _⟩) fun _ _ _ hi _ hs => step_bounded hi hs

end Sys

end RobotPws.Wifly
