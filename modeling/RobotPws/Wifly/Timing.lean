import RobotPws.Wifly.ReadCommand
import RobotPws.Wifly.RealInput
import RobotPws.Wifly.Receive

/-!
# When the bytes of a line arrive

One call of `wifly_receive` while the bytes of one line arrive, in any bursts, without a
receive error. Its first loop takes what is queued. Its second loop takes one byte for each
`CHN_INPUT_AVAILABLE` it reads, and the driver raises that for an empty queue only: the call
returns the line exactly in the runs in which no byte stays behind without its flag and no
flag was left over without its byte (`TimingOk`).
-/

namespace RobotPws.Wifly

open RobotPws.Lib RobotPws.Kernel RobotPws.Hal

/-! ## The line arrives -/

/-- A receive error or a break. -/
def faulty (sr : SR) : Bool := sr.ore || sr.ne || sr.fe || sr.pe || sr.lbd

/-- What is left of a line of which `rest` is still to arrive. The timer of
`wifly_receive` is started after the call, so it does not fire before the last byte. -/
def Act.arrives (rest : List UInt8) : Act → Option (List UInt8)
  | .usart sr dr =>
    if faulty sr then none
    else if sr.rxne then (if rest.head? = some dr then some rest.tail else none)
    else some rest
  | .timeout => if rest = [] then some rest else none
  | _ => some rest

theorem arrives_usart {rest rest' : List UInt8} {sr : SR} {dr : UInt8}
    (h : (Act.usart sr dr).arrives rest = some rest') :
    (sr.rxne = false ∧ rest' = rest) ∨ (sr.rxne = true ∧ rest = dr :: rest') := by
  dsimp only [Act.arrives] at h
  by_cases hf : faulty sr = true
  · rw [if_pos hf] at h
    cases h
  · rw [if_neg hf] at h
    cases hr : sr.rxne with
    | false =>
      rw [hr] at h
      exact .inl ⟨rfl, (Option.some.inj h).symm⟩
    | true =>
      rw [hr, if_pos rfl] at h
      cases rest with
      | nil => cases h
      | cons b rest =>
        by_cases hb : (b :: rest).head? = some dr
        · rw [if_pos hb] at h
          cases h
          cases hb
          exact .inr ⟨rfl, rfl⟩
        · rw [if_neg hb] at h
          cases h

theorem arrives_timeout {rest rest' : List UInt8} (h : Act.timeout.arrives rest = some rest') :
    rest = [] ∧ rest' = [] := by
  by_cases hr : rest = []
  · subst hr
    cases h
    exact ⟨rfl, rfl⟩
  · rw [Act.arrives, if_neg hr] at h
    cases h

/-- What is left after these labels. -/
def leftAfter (rest : List UInt8) : List Act → Option (List UInt8)
  | [] => some rest
  | a :: as => (a.arrives rest).bind fun rest => leftAfter rest as

section
variable {ω σ : Type} {cb : ProtocolCallback ω σ}

/-- The second loop of `wifly_receive`, up to the read of the flags. -/
def Pc.recvLoop : Pc σ → Bool
  | .recvWait _ _ | .recvSleep _ _ | .recvFlags _ _ => true
  | _ => false

namespace Sys

/-- In the call, and no byte finds the input queue full. -/
def Listening (s : Sys σ) (a : Act) : Prop :=
  Receiving s a ∧ match a with
    | .usart sr _ => sr.rxne = true → s.sd.iqueue.chIQIsFullI = false
    | _ => True

instance (s : Sys σ) (a : Act) : Decidable (Listening s a) :=
  match a with
  | .usart _ _ => by dsimp only [Listening]; infer_instance
  | .thread | .timeout | .result _ | .client _ _ => by dsimp only [Listening]; infer_instance

/-- Reading flags without `CHN_INPUT_AVAILABLE`, the second loop finds no error flag that was
left over; with it, it finds a byte, and this is the only one queued, or the flag has been raised
again, or it ends the line. -/
def TimingOk (s : Sys σ) : Act → Prop
  | .thread =>
    match s.pc with
    | .recvFlags _ _ => hasFlag s.sd.elFlags chnInputAvailable = true ∨ ¬ s.sd.elFlags > 32
    | .recvGet _ _ => (s.sd.sdGetTimeout.1.any fun rx => s.sd.iqueue.qCounter == 1 ||
        (hasFlag s.sd.elFlags chnInputAvailable || rx.byte == 10)) = true
    | _ => True
  | _ => True

instance (s : Sys σ) (a : Act) : Decidable (TimingOk s a) :=
  match a with
  | .thread =>
    match s with
    | { pc, .. } =>
      match pc with
      | .recvFlags _ _ | .recvGet _ _ => by dsimp only [TimingOk]; infer_instance
      | .register | .top | .msgWait | .evtWait | .getFlags | .getByte | .call | .callback _
      | .send _ _ | .sendWait _ | .sendFlags _ | .drain _ _ | .recvWait _ _ | .recvSleep _ _
      | .release _ _ _ | .iqReset _ _ | .oqReset _ => .isTrue trivial
  | .timeout | .result _ | .usart _ _ | .client _ _ => .isTrue trivial

end Sys

/-! ## Bytes are conserved -/

variable {s t : Sys σ} {r : Recv} {ret : RecvRet σ} {maxL : Nat} {l : List RecvEvent}
  {line rest rest' : List UInt8} {Q : List Rx}

theorem gets_byteEvents (r : Recv) (rx : Rx) : gets (r.byteEvents rx) = [rx.byte] := by
  unfold Recv.byteEvents Recv.writesByte
  split <;> split <;> rfl

theorem gets_returns (r : Recv) (st : State) : gets (r.returns st) = [] := rfl

theorem dequeued_holds (h : s.sd.iqueue.IQHolds Q) :
    s.dequeued.sd.iqueue.IQHolds Q.tail ∧ s.sd.sdGetTimeout.1 = Q.head? := by
  cases Q with
  | nil =>
    have hg := h.get_nil
    refine ⟨?_, congrArg Prod.fst hg⟩
    show GenericQueue.IQHolds s.sd.iqueue.chIQGetTimeout.2 _
    rw [hg]
    exact h
  | cons rx Q =>
    obtain ⟨q', hg, hq⟩ := h.get_cons
    refine ⟨?_, congrArg Prod.fst hg⟩
    show GenericQueue.IQHolds s.sd.iqueue.chIQGetTimeout.2 _
    rw [hg]
    exact hq

/-- In the call nothing is lost between the arrival and the loops. -/
theorem receive_conserves {a : Act} (hpc : s.pc.recv = some (r, ret))
    (hno : ∀ k x, s.pc ≠ .iqReset k x) (hQ : s.sd.iqueue.IQHolds Q) (hc : s.Listening a)
    (ha : a.arrives rest = some rest') (hst : s.step cb a = some t) :
    ∃ Q', t.sd.iqueue.IQHolds Q' ∧
      Q.map Rx.byte ++ rest = gets (s.recvEvents a t) ++ Q'.map Rx.byte ++ rest' := by
  -- nothing is taken
  have hsame : ∀ (u : Sys σ) (e : List RecvEvent), rest = rest' → u.sd.iqueue = s.sd.iqueue →
      gets e = [] → ∃ Q', u.sd.iqueue.IQHolds Q' ∧
        Q.map Rx.byte ++ rest = gets e ++ Q'.map Rx.byte ++ rest' := by
    intro u e hr hu hg
    exact ⟨Q, hu ▸ hQ, by rw [hg, hr, List.nil_append]⟩
  -- a byte is taken
  obtain ⟨hdeq, hhead⟩ := dequeued_holds (s := s) hQ
  have htake : ∀ (u : Sys σ) (r : Recv) (rx : Rx), rest = rest' →
      s.sd.sdGetTimeout.1 = some rx → u.sd = s.dequeued.sd → ∃ Q', u.sd.iqueue.IQHolds Q' ∧
        Q.map Rx.byte ++ rest = gets (r.byteEvents rx) ++ Q'.map Rx.byte ++ rest' := by
    intro u r rx hr hrx hu
    rw [hhead] at hrx
    refine ⟨Q.tail, hu ▸ hdeq, ?_⟩
    cases Q with
    | nil => cases hrx
    | cons q Q =>
      cases hrx
      rw [gets_byteEvents, hr]
      rfl
  have hnone : s.sd.sdGetTimeout.1 = none → s.sd.sdGetTimeout.2.iqueue = s.sd.iqueue := by
    intro hn
    cases Q with
    | nil => exact congrArg Prod.snd hQ.get_nil
    | cons q Q => rw [hn] at hhead; cases hhead
  obtain ⟨e, he, hm⟩ := recv_step hpc hst
  rw [he]
  cases hm with
  | drained _ hn => exact hsame _ _ (Option.some.inj ha) (hnone hn) rfl
  | drainByte rx _ hrx => exact htake _ _ rx (Option.some.inj ha) hrx (Sys.recvByte_sd ..)
  | byte rx _ hrx => exact htake _ _ rx (Option.some.inj ha) hrx (Sys.recvByte_sd ..)
  | nothing _ hn =>
    exact hsame _ _ (Option.some.inj ha) (by rw [Sys.received_sd]; exact hnone hn)
      (gets_returns ..)
  | event | sleep | input | other => exact hsame _ _ (Option.some.inj ha) rfl rfl
  | error =>
    exact hsame _ _ (Option.some.inj ha) (by rw [Sys.received_sd]; rfl) (gets_returns ..)
  | resetWrptr hpc' | resetRdptr hpc' | resetCounter hpc' => exact absurd hpc' (hno _ _)
  | timeout =>
    obtain ⟨rfl, rfl⟩ := arrives_timeout ha
    exact hsame _ _ rfl (by rw [Sys.received_sd]) (gets_returns ..)
  | usart sr dr =>
    obtain ⟨hrx, rfl⟩ | ⟨hrx, rfl⟩ := arrives_usart ha
    · exact hsame _ _ rfl (serveInterrupt_no_rx s.sd hrx dr).1 rfl
    · -- a byte arrives; there is room
      obtain ⟨-, hi⟩ := serveInterrupt_rx s.sd hrx dr
      have hroom : s.sd.iqueue.chIQIsFullI = false := hc.2 hrx
      obtain ⟨q, hq⟩ : ∃ q, s.sd.iqueue.chIQPutI ⟨dr, s.sd.wire.length⟩ = some q :=
        ⟨_, by rw [GenericQueue.chIQPutI, if_neg (by rw [hroom]; simp)]⟩
      rw [hq, Option.getD_some] at hi
      refine ⟨Q ++ [⟨dr, s.sd.wire.length⟩], ?_, ?_⟩
      · show (s.sd.serveInterrupt sr dr).iqueue.IQHolds _
        rw [hi]
        exact hQ.put hq
      · rw [List.map_append, show gets [] = [] from rfl, List.nil_append, List.append_assoc]
        rfl
  | client => exact hsame _ _ (Option.some.inj ha) rfl rfl

/-! ## The line so far -/

theorem newline_ends {line xs ys : List UInt8} (hline : 10 ∉ line)
    (h : xs ++ [10] ++ ys = line ++ [10]) : xs = line ∧ ys = [] := by
  rw [List.append_assoc] at h
  obtain ⟨zs, rfl, hz⟩ | ⟨zs, rfl, hz⟩ := List.append_eq_append_iff.1 h
  · cases zs with
    | nil => exact ⟨(List.append_nil _).symm, by simpa using hz⟩
    | cons z zs =>
      cases hz
      exact absurd (by simp) hline
  · cases zs with
    | nil => exact ⟨List.append_nil _, by simpa using hz⟩
    | cons z zs => simp at hz

/-- The call has taken part of the line and the rest is queued or still to arrive. -/
structure OnLine (line rest : List UInt8) (l : List RecvEvent) (s : Sys σ) : Prop where
  signalled : s.Signalled
  queue : ∃ Q, s.sd.iqueue.IQHolds Q ∧ gets l ++ Q.map Rx.byte ++ rest = line ++ [10]

/-- `OnLine` in the second loop: a byte that is queued has its flag. -/
structure Flagged (line rest : List UInt8) (l : List RecvEvent) (s : Sys σ) : Prop
    extends OnLine line rest l s where
  raised : s.pc.recvLoop = true → InputRaised s.sd

theorem OnLine.short (h : OnLine line rest l s) (hp : Progress maxL r l)
    (hlen : line.length < maxL - 1) : r.got.length < maxL - 1 := by
  obtain ⟨Q, -, hQ⟩ := h.queue
  have hpre : gets l <+: line ++ [10] := by
    rw [← hQ, List.append_assoc]
    exact List.prefix_append _ _
  have hpre' : gets l <+: line := by
    obtain he | he := List.prefix_concat_iff.1 hpre
    · exact absurd (by rw [he]; simp) hp.newline
    · exact he
  calc r.got.length = (kept (gets l)).length := by rw [hp.got]
    _ ≤ (gets l).length := List.length_filter_le ..
    _ ≤ line.length := hpre'.length_le
    _ < maxL - 1 := hlen

theorem OnLine.not_resetting (h : OnLine line rest l s) (hp : Progress maxL r l)
    (hin : Inside maxL r l s.pc) (hlen : line.length < maxL - 1) :
    ∀ k x, s.pc ≠ .iqReset k x := by
  intro k x hpc
  rw [hpc] at hin
  have := h.short hp hlen
  have := hin.1
  omega

theorem OnLine.step {a : Act} (h : OnLine line rest l s) (hp : Progress maxL r l)
    (hin : Inside maxL r l s.pc) (hlen : line.length < maxL - 1) (hpc : s.pc.recv = some (r, ret))
    (hc : s.Listening a) (ha : a.arrives rest = some rest') (hst : s.step cb a = some t) :
    OnLine line rest' (l ++ s.recvEvents a t) t := by
  obtain ⟨Q, hQ, hl⟩ := h.queue
  obtain ⟨Q', hQ', hb⟩ := receive_conserves hpc (h.not_resetting hp hin hlen) hQ hc ha hst
  refine ⟨Sys.step_signalled h.signalled hst, Q', hQ', ?_⟩
  rw [← hl, gets_append]
  simp only [List.append_assoc] at hb ⊢
  rw [hb]

theorem recvByte_drain_recvLoop (u : Sys σ) (r : Recv) (inn : Int) (ret : RecvRet σ) :
    (u.recvByte cb r inn ret .drain).pc.recvLoop = false := by
  obtain ⟨-, he⟩ | ⟨-, -, he⟩ | ⟨-, -, he⟩ := Sys.recvByte_cases cb u r inn ret .drain <;> rw [he]
  · rfl
  · cases ret <;> rfl
  · rfl

theorem Flagged.raised_step {a : Act} (h : Flagged line rest l s) (hp : Progress maxL r l)
    (hin : Inside maxL r l s.pc) (hlen : line.length < maxL - 1) (hpc : s.pc.recv = some (r, ret))
    (hok : s.TimingOk a) (hst : s.step cb a = some t) (hx : t.pc.recvLoop = true) :
    InputRaised t.sd := by
  obtain ⟨Q, hQ, -⟩ := h.queue
  obtain ⟨e, -, hm⟩ := recv_step hpc hst
  cases hm with
  | drained _ hn =>
    have hc := GenericQueue.chIQGetTimeout_none hQ.rdptr hn
    exact Sys.raised_dequeued fun hne => absurd hc hne
  | drainByte rx =>
    rw [recvByte_drain_recvLoop] at hx
    cases hx
  | byte rx hpc' hrx =>
    rw [Sys.recvByte_sd]
    refine Sys.dequeued_raised ?_
    simp only [Sys.TimingOk, hpc', hrx, Option.any_some, Bool.or_eq_true, beq_iff_eq] at hok
    obtain hc | hf | hb := hok
    · exact .inl hc.le
    · exact .inr hf
    · -- the newline ends the call
      obtain ⟨-, he⟩ | ⟨-, -, he⟩ | ⟨-, hl, -⟩ :=
        Sys.recvByte_cases cb s.dequeued r (inOf (some rx)) ret .recvWait
      · rw [he] at hx
        cases hx
      · rw [he] at hx
        cases ret <;> cases hx
      · exact absurd (by rw [inOf, hb]; rfl) hl
  | event hpc' => exact h.raised (by rcases hpc' with hpc' | hpc' <;> rw [hpc'] <;> rfl)
  | sleep hpc' => exact h.raised (by rw [hpc']; rfl)
  | input => cases hx
  | other hpc' hf => exact Sys.raised_flagsRead (h.raised (by rw [hpc']; rfl)) hf
  | error | nothing | timeout => cases ret <;> cases hx
  | resetWrptr hpc' | resetRdptr hpc' | resetCounter hpc' =>
    exact absurd hpc' (h.not_resetting hp hin hlen _ _)
  | usart sr dr =>
    refine serveInterrupt_raised (h.signalled.registered fun hreg => ?_) (h.raised hx) sr dr
    rw [show s.pc = .register from hreg] at hpc
    cases hpc
  | client => exact h.raised hx

theorem Flagged.newline_read {a : Act} (h : Flagged line rest l s) (hp : Progress maxL r l)
    (hin : Inside maxL r l s.pc) (hlen : line.length < maxL - 1) (hpc : s.pc.recv = some (r, ret))
    (hok : s.TimingOk a) (ha : a.arrives rest = some rest') (hst : s.step cb a = some t)
    (ht : t.pc.recv = none) : gets (s.recvEvents a t) = [10] := by
  have hbyte : ∀ (rx : Rx) (again : Recv → RecvRet σ → Pc σ),
      (∀ r, (again r ret).recv.isSome = true) →
      (s.dequeued.recvByte cb r (inOf (some rx)) ret again).pc.recv = none →
      gets (r.byteEvents rx) = [10] := by
    intro rx again hag hnone
    rw [gets_byteEvents]
    obtain ⟨-, he⟩ | ⟨-, hl, -⟩ | ⟨-, -, he⟩ :=
      Sys.recvByte_cases cb s.dequeued r (inOf (some rx)) ret again
    · rw [he] at hnone
      cases hnone
    · rw [inOf_lf hl]
    · rw [he] at hnone
      have hsome := hag (r.store (inOf (some rx)))
      rw [show (again (r.store (inOf (some rx))) ret).recv = none from hnone] at hsome
      cases hsome
  obtain ⟨e, he, hm⟩ := recv_step hpc hst
  rw [he]
  cases hm with
  | drainByte rx => exact hbyte rx _ (fun _ => rfl) ht
  | byte rx => exact hbyte rx _ (fun _ => rfl) ht
  | error hpc' hf h32 =>
    simp only [Sys.TimingOk, hpc', hf] at hok
    exact absurd h32 (by simpa using hok)
  | nothing hpc' hn =>
    simp only [Sys.TimingOk, hpc', hn] at hok
    cases hok
  | resetWrptr hpc' | resetRdptr hpc' | resetCounter hpc' =>
    exact absurd hpc' (h.not_resetting hp hin hlen _ _)
  | drained | event | sleep | input | other => cases ht
  | timeout hpc' hpend =>
    -- the newline is queued with its flag, so the event is pending
    obtain ⟨rfl, rfl⟩ := arrives_timeout ha
    obtain ⟨Q, hQ, hl⟩ := h.queue
    rw [List.append_nil] at hl
    have hne : s.sd.iqueue.qCounter ≠ 0 := by
      intro h0
      obtain rfl := List.eq_nil_of_length_eq_zero (hQ.counter.symm.trans h0)
      refine hp.newline ?_
      rw [List.map_nil, List.append_nil] at hl
      rw [hl]
      simp
    have hf := h.raised (by rw [hpc']; rfl) hne
    have hpending := h.signalled.pending (by rw [hpc']; rfl) fun h0 => by
      rw [h0] at hf
      simp at hf
    rw [hpend] at hpending
    cases hpending
  | usart | client =>
    rw [show s.pc.recv = none from ht] at hpc
    cases hpc

/-- What a run in time has done: it is in the call, or it has returned the line. -/
def InTime (maxL : Nat) (ret : RecvRet σ) (line rest : List UInt8) (l : List RecvEvent)
    (s : Sys σ) : Prop :=
  (∃ r, s.pc.recv = some (r, ret) ∧ Progress maxL r l ∧ Inside maxL r l s.pc ∧
    Flagged line rest l s) ∨
  (s.pc.recv = none ∧ results l = [.ok] ∧ gets l = line ++ [10])

theorem inTime_step {a : Act} (hline : 10 ∉ line) (hlen : line.length < maxL - 1)
    (h : InTime maxL ret line rest l s) (hc : s.Listening a) (hok : s.TimingOk a)
    (ha : a.arrives rest = some rest') (hst : s.step cb a = some t) :
    InTime maxL ret line rest' (l ++ s.recvEvents a t) t := by
  obtain ⟨r, hpc, hp, hin, hf⟩ | ⟨hpc, -⟩ := h
  · have hon := hf.toOnLine.step hp hin hlen hpc hc ha hst
    obtain ⟨r', hpc', hp', hin'⟩ | hret := receive_step (by omega) hpc hp hin hst
    · exact .inl ⟨r', hpc', hp', hin', hon, hf.raised_step hp hin hlen hpc hok hst⟩
    · obtain ⟨st, hres, ⟨u, ht⟩, hstok, -⟩ := hret.result
      have hnone : t.pc.recv = none := by
        rw [ht]
        cases ret <;> rfl
      have hnew := hf.newline_read hp hin hlen hpc hok ha hst hnone
      obtain rfl : st = .ok := hstok.2 (by rw [gets_append, hnew, List.getLast?_concat])
      refine .inr ⟨hnone, hres, ?_⟩
      obtain ⟨Q, -, hQ⟩ := hon.queue
      rw [gets_append, hnew, List.append_assoc] at hQ
      rw [gets_append, hnew, (newline_ends hline hQ).1]
  · exact absurd (hpc ▸ hc.1 : (none : Option (Recv × RecvRet σ)).isSome = true) (by simp)

/-- A byte has been missed, or the call has given up. -/
def Missed (l : List RecvEvent) (s : Sys σ) : Prop :=
  (s.pc.recvLoop = true ∧ ByteReady s.sd ∧ .ok ∉ results l) ∨
  (s.pc.recv = none ∧ .ok ∉ results l)

theorem missed_received (u : Sys σ) {st : State} (r : Recv) (hst : st ≠ .ok)
    (hl : .ok ∉ results l) : Missed (l ++ r.returns st) (u.received cb st r ret) := by
  refine .inr ⟨by cases ret <;> rfl, ?_⟩
  rw [results_append, List.mem_append, not_or]
  refine ⟨hl, fun hm => hst ?_⟩
  exact (List.mem_singleton.1 hm).symm

theorem late_step {a : Act} (hlen : line.length < maxL - 1)
    (h : InTime maxL ret line rest l s) (hc : s.Listening a) (hbad : ¬ s.TimingOk a)
    (ha : a.arrives rest = some rest') (hst : s.step cb a = some t) :
    Missed (l ++ s.recvEvents a t) t := by
  obtain ⟨r, hpc, hp, hin, hf⟩ | ⟨hpc, -⟩ := h
  · have hon := hf.toOnLine.step hp hin hlen hpc hc ha hst
    have hrun : State.ok ∉ results l := by rw [hp.running]; simp
    obtain ⟨e, he, hm⟩ := recv_step hpc hst
    rw [he]
    cases hm with
    | input hpc' hf' => exact absurd (by simp [Sys.TimingOk, hpc', hf']) hbad
    | other hpc' _ h32 =>
      refine absurd ?_ hbad
      simp only [Sys.TimingOk, hpc']
      exact .inr h32
    | error => exact missed_received s.flagsRead r (by simp) hrun
    | nothing => exact missed_received s.dequeued r (by simp) hrun
    | byte rx hpc' hrx =>
      simp only [Sys.TimingOk, hpc', hrx, Option.any_some, Bool.or_eq_true, beq_iff_eq,
        not_or, Bool.not_eq_true] at hbad
      obtain ⟨hcount, hflag, hbyte⟩ := hbad
      have hsub : s.dequeued.sd.iqueue.qCounter = s.sd.iqueue.qCounter - 1 :=
        s.sd.iqueue.chIQGetTimeout_counter
      obtain ⟨-, he⟩ | ⟨-, hl, -⟩ | ⟨-, -, he'⟩ :=
        Sys.recvByte_cases cb s.dequeued r (inOf (some rx)) ret .recvWait
      · obtain ⟨r', -, hp', hin'⟩ | hret := receive_step (by omega) hpc hp hin hst
        · exact absurd (congrArg Sys.pc he) (hon.not_resetting hp' hin' hlen _ _)
        · obtain ⟨st, -, ⟨u, ht⟩, -⟩ := hret.result
          rw [he] at ht
          cases ret <;> cases ht
      · exact absurd (inOf_lf hl) hbyte
      · -- a byte is left behind
        refine .inl ⟨by rw [he']; rfl, ?_, ?_⟩
        · rw [Sys.recvByte_sd]
          have hpos : s.sd.iqueue.qCounter ≠ 0 := by
            intro h0
            rw [show s.sd.sdGetTimeout.1 = none from
              congrArg Prod.fst (GenericQueue.chIQGetTimeout_empty h0)] at hrx
            cases hrx
          exact ⟨by omega, hflag⟩
        · obtain ⟨r', -, hp', -⟩ | hret := receive_step (by omega) hpc hp hin hst
          · rw [← he, hp'.running]
            simp
          · obtain ⟨st, -, ⟨u, ht⟩, -⟩ := hret.result
            rw [he'] at ht
            cases ret <;> cases ht
    | resetWrptr hpc' | resetRdptr hpc' | resetCounter hpc' =>
      exact absurd hpc' (hf.not_resetting hp hin hlen _ _)
    | drained hpc' | drainByte _ hpc' | sleep hpc' =>
      exact absurd (by simp only [Sys.TimingOk, hpc']) hbad
    | event hpc' =>
      refine absurd ?_ hbad
      rcases hpc' with hpc' | hpc' <;> simp only [Sys.TimingOk, hpc']
    | timeout | usart | client => exact absurd trivial hbad
  · exact absurd (hpc ▸ hc.1 : (none : Option (Recv × RecvRet σ)).isSome = true) (by simp)

theorem missed_step {a : Act} (h : Missed l s) (hc : s.Listening a) (hst : s.step cb a = some t) :
    Missed (l ++ s.recvEvents a t) t := by
  obtain ⟨hx, hb, hl⟩ | ⟨hpc, -⟩ := h
  · have hkeep : ∀ u : Sys σ, u.pc.recvLoop = true → ByteReady u.sd → Missed (l ++ []) u := by
      intro u hu hub
      rw [List.append_nil]
      exact .inl ⟨hu, hub, hl⟩
    obtain ⟨⟨r, ret⟩, hpc⟩ := Option.isSome_iff_exists.1 hc.1
    obtain ⟨e, he, hm⟩ := recv_step hpc hst
    rw [he]
    cases hm with
    | event | sleep => exact hkeep _ rfl hb
    | input _ hf =>
      rw [hb.2] at hf
      cases hf
    | other => exact hkeep _ rfl ⟨hb.1, hasFlag_zero _⟩
    | error => exact missed_received s.flagsRead r (by simp) hl
    | timeout => exact missed_received s r (by simp) hl
    | usart sr dr => exact hkeep _ hx (serveInterrupt_byteReady hb sr dr)
    | client => exact hkeep _ hx hb
    | drained hpc' | drainByte _ hpc' | nothing hpc' | byte _ hpc' | resetWrptr hpc'
    | resetRdptr hpc' | resetCounter hpc' =>
      rw [hpc'] at hx
      cases hx
  · exact absurd (hpc ▸ hc.1 : (none : Option (Recv × RecvRet σ)).isSome = true) (by simp)

/-- Along a run of the call: in time so far, or a byte has been missed. -/
theorem timing_run {as : List Act} (hline : 10 ∉ line) (hlen : line.length < maxL - 1)
    (h : Steps (Sys.step cb) Sys.Listening s as t) (hleft : leftAfter rest as = some rest')
    (h0 : InTime maxL ret line rest l s) :
    (Steps (Sys.step cb) Sys.TimingOk s as t ∧
      InTime maxL ret line rest' (l ++ observe (Sys.step cb) Sys.recvEvents s as) t) ∨
    (¬ Steps (Sys.step cb) Sys.TimingOk s as t ∧
      Missed (l ++ observe (Sys.step cb) Sys.recvEvents s as) t) := by
  induction h generalizing rest l with
  | refl =>
    cases hleft
    rw [observe, List.append_nil]
    exact .inl ⟨.refl _, h0⟩
  | @cons s u t a as hs hc hrun ih =>
    obtain ⟨rest1, ha, hleft⟩ := Option.bind_eq_some_iff.1 hleft
    have hfirst : Steps (Sys.step cb) Sys.TimingOk s (a :: as) t →
        s.TimingOk a ∧ Steps (Sys.step cb) Sys.TimingOk u as t := by
      intro hsteps
      cases hsteps with
      | cons hs' hok hsteps =>
        cases hs.symm.trans hs'
        exact ⟨hok, hsteps⟩
    rw [observe_cons hs, ← List.append_assoc]
    by_cases hok : s.TimingOk a
    · obtain ⟨hsteps, hin⟩ | ⟨hsteps, hm⟩ := ih hleft (inTime_step hline hlen h0 hc hok ha hs)
      · exact .inl ⟨.cons hs hok hsteps, hin⟩
      · exact .inr ⟨fun hall => hsteps (hfirst hall).2, hm⟩
    · refine .inr ⟨fun hall => hok (hfirst hall).1, ?_⟩
      have hstep : ∀ (s : Sys σ) (l : List RecvEvent) (a : Act) (t : Sys σ), Missed l s →
          s.Listening a → s.step cb a = some t → Missed (l ++ s.recvEvents a t) t :=
        fun _ _ _ _ hm hc hs => missed_step hm hc hs
      exact hrun.inv_observe hstep (late_step hlen h0 hc hok ha hs)

/-- **`wifly_receive` returns the line exactly when it keeps up with its bytes**: for every line
that fits, every state of the flags at the call, every part of the line that is queued by then and
every schedule in which the rest arrives before the timer fires. -/
theorem receive_in_time_iff (hline : ∀ b ∈ line, b ≠ 13 ∧ b ≠ 10) (hlen : line.length < maxL - 1)
    (hs : s.pc = .drain ⟨[], maxL⟩ ret) (hsig : s.Signalled) (hQ : s.sd.iqueue.IQHolds Q)
    (hrest : Q.map Rx.byte ++ rest = line ++ [10]) {as : List Act}
    (hleft : leftAfter rest as = some rest') (h : Steps (Sys.step cb) Sys.Listening s as t)
    (ht : t.pc.recv = none) :
    (results (observe (Sys.step cb) Sys.recvEvents s as) = [.ok] ∧
      ∀ m, storeAll m (writes (observe (Sys.step cb) Sys.recvEvents s as)) =
        overlay m (line ++ [0])) ↔
    Steps (Sys.step cb) Sys.TimingOk s as t := by
  have hline' : 10 ∉ line := fun hm => (hline 10 hm).2 rfl
  have h0 : InTime maxL ret line rest [] s := by
    refine .inl ⟨⟨[], maxL⟩, by rw [hs]; rfl, ?_, ?_, ⟨hsig, Q, hQ, hrest⟩, ?_⟩
    · exact ⟨rfl, rfl, by simp [gets], fun m => rfl, by simp [writes], rfl⟩
    · rw [hs]
      exact ⟨Nat.zero_lt_of_lt hlen, rfl⟩
    · rw [hs]
      exact fun hx => by cases hx
  have hrun := timing_run hline' hlen h hleft h0
  rw [List.nil_append] at hrun
  obtain ⟨hsteps, ⟨r, hpc, -⟩ | ⟨-, hres, hgets⟩⟩ | ⟨hsteps, ⟨hx, -⟩ | ⟨-, hres⟩⟩ := hrun
  · rw [ht] at hpc
    cases hpc
  · refine ⟨fun _ => hsteps, fun _ => ⟨hres, fun m => ?_⟩⟩
    have hexact : Returned cb maxL ret t (observe (Sys.step cb) Sys.recvEvents s as) :=
      receive_exact (by omega) hs (h.mono fun _ _ hc => hc.1) ht
    have hkept : kept (line ++ [10]) = line := by
      rw [kept_append, kept, List.filter_eq_self.2 fun b hb => by simpa using hline b hb]
      exact List.append_nil _
    rw [hexact.mem, hgets, hkept]
  · cases hpc : t.pc <;> simp [hpc, Pc.recvLoop, Pc.recv] at hx ht
  · refine ⟨fun hok => absurd ?_ hres, fun hall => absurd hall hsteps⟩
    rw [hok.1]
    exact List.mem_singleton_self _

/-! ## The call returns -/

/-- How many steps of the thread a call takes at most, without an interrupt. -/
def Sys.remaining (s : Sys σ) : Nat :=
  match s.pc with
  | .drain _ _ => s.sd.iqueue.qCounter + 14
  | .recvFlags _ _ => (if s.sd.epending then 8 else 0) + 7
  | .recvGet _ _ => (if s.sd.epending then 8 else 0) + 6
  | .recvWait _ _ => (if s.sd.epending then 8 else 0) + 5
  | .recvSleep _ _ => (if s.sd.epending then 8 else 0) + 4
  | .iqReset .wrptr _ => 3
  | .iqReset .rdptr _ => 2
  | _ => 1

theorem recvByte_remaining (u : Sys σ) (r : Recv) (inn : Int) {ret : RecvRet σ} {n : Nat}
    {again : Recv → RecvRet σ → Pc σ} (hn : 3 < n)
    (h : ∀ r, Sys.remaining { u with pc := again r ret } < n) :
    (u.recvByte cb r inn ret again).pc.recv = none ∨
      (u.recvByte cb r inn ret again).remaining < n := by
  obtain ⟨-, he⟩ | ⟨-, -, he⟩ | ⟨-, -, he⟩ := Sys.recvByte_cases cb u r inn ret again <;> rw [he]
  · exact .inr hn
  · exact .inl (by cases ret <;> rfl)
  · exact .inr (h _)

theorem remaining_recvWait (u : Sys σ) (r : Recv) (ret : RecvRet σ) :
    Sys.remaining { u with pc := .recvWait r ret } ≤ 13 ∧
      (u.sd.epending = false → Sys.remaining { u with pc := .recvWait r ret } = 5) := by
  simp only [Sys.remaining]
  split
  · next he => exact ⟨Nat.le_refl _, fun hf => by rw [hf] at he; cases he⟩
  · exact ⟨by omega, fun _ => rfl⟩

/-- The thread goes on, or it sleeps and the timer can fire. -/
def Sys.Advances (cb : ProtocolCallback ω σ) (s : Sys σ) : Prop :=
  ∃ a t, (a = .thread ∨ a = .timeout) ∧ s.step cb a = some t ∧
    (t.pc.recv = none ∨ t.remaining < s.remaining)

theorem drain_advances (hs : s.pc = .drain r ret) : s.Advances cb := by
  have hrem : s.remaining = s.sd.iqueue.qCounter + 14 := by simp only [Sys.remaining, hs]
  cases hg : s.sd.sdGetTimeout with
  | mk rx d =>
    cases rx with
    | none =>
      refine ⟨.thread, { s with sd := d, pc := .recvWait r ret }, .inl rfl, ?_, .inr ?_⟩
      · simp only [Sys.step, Sys.threadStep, hs, hg]
      · have := (remaining_recvWait { s with sd := d } r ret).1
        dsimp only at this ⊢
        omega
    | some rx =>
      refine ⟨.thread, _, .inl rfl, by simp only [Sys.step, Sys.threadStep, hs, hg]; rfl, ?_⟩
      refine recvByte_remaining _ _ _ (by omega) fun r => ?_
      have hpos : s.sd.iqueue.qCounter ≠ 0 := by
        intro h0
        rw [show s.sd.sdGetTimeout = (none, s.sd) from
          congrArg (fun x => (x.1, { s.sd with iqueue := x.2 }))
            (GenericQueue.chIQGetTimeout_empty h0)] at hg
        cases hg
      have hd : d.iqueue.qCounter = s.sd.iqueue.qCounter - 1 := by
        rw [show d = s.sd.sdGetTimeout.2 by rw [hg]]
        exact s.sd.iqueue.chIQGetTimeout_counter
      show d.iqueue.qCounter + 14 < s.remaining
      omega

theorem event_advances (hs : s.pc = .recvWait r ret ∨ s.pc = .recvSleep r ret)
    (he : s.sd.epending = true) : s.Advances cb := by
  have hrem : 12 ≤ s.remaining := by
    rcases hs with hs | hs <;> simp only [Sys.remaining, hs, he, if_pos] <;> omega
  refine ⟨.thread, { s with pc := .recvFlags r ret, sd := { s.sd with epending := false } },
    .inl rfl, ?_, .inr ?_⟩
  · rcases hs with hs | hs <;> simp only [Sys.step, Sys.threadStep, hs, he, if_pos]
  · show 7 < s.remaining
    omega

theorem flags_advances (hs : s.pc = .recvFlags r ret) : s.Advances cb := by
  have hrem : s.remaining = (if s.sd.epending then 8 else 0) + 7 := by
    simp only [Sys.remaining, hs]
  by_cases hf : hasFlag s.sd.elFlags chnInputAvailable = true
  · refine ⟨.thread, { s.flagsRead with pc := .recvGet r ret }, .inl rfl, ?_, .inr ?_⟩
    · simp only [Sys.step, Sys.threadStep, hs, SerialDriver.chEvtGetAndClearFlags, if_pos hf]
      rfl
    · rw [hrem]
      exact Nat.lt_succ_self _
  · by_cases h32 : s.sd.elFlags > 32
    · refine ⟨.thread, s.flagsRead.received cb .error r ret, .inl rfl, ?_, .inl ?_⟩
      · simp only [Sys.step, Sys.threadStep, hs, SerialDriver.chEvtGetAndClearFlags, if_neg hf,
          if_pos h32]
        rfl
      · cases ret <;> rfl
    · refine ⟨.thread, { s.flagsRead with pc := .recvWait r ret }, .inl rfl, ?_, .inr ?_⟩
      · simp only [Sys.step, Sys.threadStep, hs, SerialDriver.chEvtGetAndClearFlags, if_neg hf,
          if_neg h32]
        rfl
      · rw [hrem]
        exact Nat.add_lt_add_left (by decide) _

theorem get_advances (hs : s.pc = .recvGet r ret) : s.Advances cb := by
  have hrem : s.remaining = (if s.sd.epending then 8 else 0) + 6 := by
    simp only [Sys.remaining, hs]
  cases hg : s.sd.sdGetTimeout with
  | mk rx d =>
    cases rx with
    | none =>
      refine ⟨.thread, _, .inl rfl, by simp only [Sys.step, Sys.threadStep, hs, hg]; rfl, .inl ?_⟩
      cases ret <;> rfl
    | some rx =>
      refine ⟨.thread, _, .inl rfl, by simp only [Sys.step, Sys.threadStep, hs, hg]; rfl, ?_⟩
      refine recvByte_remaining _ _ _ (by omega) fun r => ?_
      have hd : d.epending = s.sd.epending := by
        rw [show d = s.sd.sdGetTimeout.2 by rw [hg]]
        rfl
      rw [hrem]
      show (if d.epending then 8 else 0) + 5 < _
      rw [hd]
      omega

theorem recv_advances (hpc : s.pc.recv = some (r, ret)) : s.Advances cb := by
  cases hs : s.pc with
  | drain r' ret' => exact drain_advances hs
  | recvWait r' ret' =>
    cases he : s.sd.epending with
    | true => exact event_advances (.inl hs) he
    | false =>
      refine ⟨.thread, { s with pc := .recvSleep r' ret' }, .inl rfl, ?_, .inr ?_⟩
      · simp [Sys.step, Sys.threadStep, hs, he]
      · simp [Sys.remaining, hs, he]
  | recvSleep r' ret' =>
    cases he : s.sd.epending with
    | true => exact event_advances (.inr hs) he
    | false =>
      refine ⟨.timeout, s.received cb .timeout r' ret', .inr rfl, ?_, .inl ?_⟩
      · simp [Sys.step, hs, he]
      · cases ret' <;> rfl
  | recvFlags r' ret' => exact flags_advances hs
  | recvGet r' ret' => exact get_advances hs
  | iqReset k x =>
    cases x with
    | receive r' ret' =>
      cases k with
      | wrptr | rdptr =>
        refine ⟨.thread, _, .inl rfl, by simp only [Sys.step, Sys.threadStep, hs]; rfl, .inr ?_⟩
        simp only [Sys.remaining, hs]
        omega
      | counter =>
        refine ⟨.thread, _, .inl rfl, by simp only [Sys.step, Sys.threadStep, hs]; rfl, .inl ?_⟩
        cases ret' <;> rfl
    | overflow | error => rw [hs] at hpc; cases hpc
  | _ => rw [hs] at hpc; cases hpc

/-- Without an interrupt the call returns, at the latest when its timer fires. -/
theorem receive_returns (hpc : s.pc.recv = some (r, ret)) :
    ∃ as t, (∀ a ∈ as, a = .thread ∨ a = .timeout) ∧ Steps (Sys.step cb) Receiving s as t ∧
      t.pc.recv = none := by
  induction hn : s.remaining using Nat.strong_induction_on generalizing s r ret with
  | _ n ih =>
    obtain ⟨a, t, ha, hst, ht⟩ : s.Advances cb := recv_advances hpc
    have hrecv : Receiving s a := by rw [Receiving, hpc]; rfl
    cases hrt : t.pc.recv with
    | none =>
      exact ⟨[a], t, fun b hb => List.mem_singleton.1 hb ▸ ha, .single hst hrecv, hrt⟩
    | some x =>
      have hlt : t.remaining < n := hn ▸ ht.resolve_left (by rw [hrt]; simp)
      have hx : t.pc.recv = some (x.1, x.2) := hrt
      obtain ⟨as, u, has, hsteps, hu⟩ := ih _ hlt hx rfl
      refine ⟨a :: as, u, fun b hb => ?_, .cons hst hrecv hsteps, hu⟩
      obtain rfl | hb := List.mem_cons.1 hb
      · exact ha
      · exact has b hb

end

/-- Each byte arrives after the thread has asked for it. -/
theorem receive_in_time_two_bytes :
    ∃ (s t : Sys Main.Point) (as : List Act), s.pc = .drain ⟨[], wiflyElSize⟩ (.release 7) ∧
      Steps (Sys.step Main.callback) Sys.Listening s as t ∧ t.pc = .release 7 .ok [97] ∧
      results (observe (Sys.step Main.callback) Sys.recvEvents s as) = [.ok] ∧
      ∀ m, storeAll m (writes (observe (Sys.step Main.callback) Sys.recvEvents s as)) =
        overlay m ([97] ++ [0]) := by
  let s : Sys Main.Point :=
    ⟨.drain ⟨[], wiflyElSize⟩ (.release 7), .init, SerialDriver.start.chEvtRegisterMask,
      [], [], [], []⟩
  let as : List Act := script [(2, .thread), (1, .rx 97), (4, .thread), (1, .rx 10), (3, .thread)]
  have hrun : (exec (Sys.step Main.callback) (fun s a => s.Listening a ∧ s.TimingOk a) s as).any
      (fun t => decide (t.pc = .release 7 .ok [97])) = true := by decide +kernel
  obtain ⟨t, ht, hp⟩ := (Option.any_eq_true _ _).1 hrun
  have hsteps := steps_of_exec ht
  have hlisten := hsteps.mono (D := Sys.Listening) fun _ _ h => h.1
  have hpc : t.pc = .release 7 .ok [97] := of_decide_eq_true hp
  refine ⟨s, t, as, rfl, hlisten, hpc, ?_⟩
  have hline : ∀ b ∈ ([97] : List UInt8), b ≠ 13 ∧ b ≠ 10 := by simp
  have hlen : ([97] : List UInt8).length < wiflyElSize - 1 := show 1 < 1024 - 1 by omega
  have hleft : leftAfter [97, 10] as = some [] := rfl
  exact (receive_in_time_iff hline hlen rfl ⟨fun _ => rfl, fun _ h => absurd rfl h⟩
    (.init (by decide) _) rfl hleft hlisten (by rw [hpc]; rfl)).2 (hsteps.mono fun _ _ h => h.2)

/-- The two bytes of the line arrive in one burst, while the thread waits: it takes the first and
times out. -/
theorem receive_depends_on_timing :
    ¬ ∀ (s t : Sys Main.Point) (line rest rest' : List UInt8) (Q : List Rx)
      (ret : RecvRet Main.Point) (as : List Act), (∀ b ∈ line, b ≠ 13 ∧ b ≠ 10) →
      line.length < wiflyElSize - 1 → s.pc = .drain ⟨[], wiflyElSize⟩ ret → s.Signalled →
      s.sd.iqueue.IQHolds Q → Q.map Rx.byte ++ rest = line ++ [10] →
      leftAfter rest as = some rest' → Steps (Sys.step Main.callback) Sys.Listening s as t →
      t.pc.recv = none →
      results (observe (Sys.step Main.callback) Sys.recvEvents s as) = [.ok] := by
  intro h
  let s : Sys Main.Point :=
    ⟨.drain ⟨[], wiflyElSize⟩ (.release 7), .init, SerialDriver.start.chEvtRegisterMask,
      [], [], [], []⟩
  let as : List Act := script [(2, .thread), (1, .rx 97), (1, .rx 10), (4, .thread), (1, .timeout)]
  have hrun : (exec (Sys.step Main.callback) Sys.Listening s as).any
      (fun t => decide (t.pc.recv = none)) = true := by decide +kernel
  obtain ⟨t, ht, hp⟩ := (Option.any_eq_true _ _).1 hrun
  have hshown : results (observe (Sys.step Main.callback) Sys.recvEvents s as) = [.timeout] := by
    decide +kernel
  have hok := h s t [97] [97, 10] [] [] (.release 7) as (by simp)
    (show 1 < 1024 - 1 by omega) rfl
    ⟨fun _ => rfl, fun _ h => absurd rfl h⟩ (.init (by decide) _) rfl rfl (steps_of_exec ht)
    (of_decide_eq_true hp)
  rw [hshown] at hok
  cases hok

end RobotPws.Wifly
