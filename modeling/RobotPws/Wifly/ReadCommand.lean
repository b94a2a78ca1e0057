import RobotPws.Wifly.InputQueue
import RobotPws.Wifly.WakeUp

/-!
# Who gets the answer to a command

`wiflyReadCommand` on a thread of its own, next to the wifly thread. Its call is a series of
messages to the wifly thread, and between two of them `wifly_loop` polls the same queue. `phase`
says which bytes the module has sent since `$$$` and which messages have been answered since,
`parsed` which bytes the loop has dequeued, itself or for the callback. In the runs in which a
byte of the answer is received only while `wifly_receive` runs for the client and has read the
one before (`OwnOk`), the buffers the client is given are the text of these bytes, piece by
piece, and nobody else gets one (`Owned`).
-/

namespace RobotPws.Wifly

open RobotPws.Lib RobotPws.Kernel RobotPws.Hal RobotPws.Main

/-- How far the client is, with numbers of bytes on the wire and of messages answered. -/
inductive Phase where
  | before
  /-- `$$$` was sent before byte `W` and answer `n`. -/
  | during (W n : Nat)
  /-- The last `wiflyRead` returned before byte `W'` and answer `n'`. -/
  | after (W W' n n' : Nat)
  deriving DecidableEq, Repr

/-- Byte `k` is not of the answer. -/
def Phase.Outside : Phase → Nat → Prop
  | .before, _ => True
  | .during W _, k => k < W
  | .after W W' _ _, k => k < W ∨ W' ≤ k

/-- The module answers. -/
def Phase.answering : Phase → Bool
  | .during _ _ => true
  | _ => false

/-- The characters that `wifly_receive` keeps. -/
def textOf (bs : List UInt8) : List UInt8 := bs.filter fun b => decide (b ≠ 13 ∧ b ≠ 10)

namespace Pc

variable {σ : Type}

/-- `wifly_receive` runs for a client, up to its return or the reset of the queue. -/
def receiving : Pc σ → Bool
  | .drain _ (.release _) | .recvWait _ (.release _) | .recvSleep _ (.release _)
  | .recvFlags _ (.release _) | .recvGet _ (.release _) => true
  | _ => false

/-- What the client will be given, as far as it has been read. -/
def got : Pc σ → Option (List UInt8)
  | .drain r (.release _) | .recvWait r (.release _) | .recvSleep r (.release _)
  | .recvFlags r (.release _) | .recvGet r (.release _)
  | .iqReset _ (.receive r (.release _)) => some r.got
  | .release _ _ buf => some buf
  | _ => none

/-- That is the text of these bytes. -/
def Holds (pc : Pc σ) (piece : List UInt8) : Prop :=
  pc.got.elim (piece = []) fun g => g = textOf piece

end Pc

/-- What `wiflyReadCommand` does from `wiflySend("$$$")` on, up to its loop. -/
def modeStart (cmd : List UInt8) : List (Req Op) := (commandStart cmd).drop 4

structure Session (σ : Type) where
  sys : Sys σ
  /-- What is left of `wiflyReadCommand`. -/
  client : Point
  /-- The client is suspended in `chMsgSend`. -/
  waiting : Bool
  phase : Phase
  parsed : List Rx

namespace Session

/-- A step of the firmware or of the client. -/
inductive Label where
  | act (a : Act)
  | client

section
variable {ω σ : Type} (cb : ProtocolCallback ω σ) (thd : Nat) (cmd : List UInt8)

def init : Session σ := ⟨.init, .command (commandStart cmd), false, .before, []⟩

/-- `chMsgRelease` makes the client go on. -/
def clientAfter (s : Session σ) : Act → Point
  | .thread =>
    match s.sys.pc with
    | .release _ st buf =>
      match s.client.req with
      | .send _ => s.client.sent .ok
      | _ => s.client.read st buf
    | _ => s.client
  | _ => s.client

def waitingAfter (s : Session σ) : Act → Bool
  | .thread =>
    match s.sys.pc with
    | .release _ _ _ => false
    | _ => s.waiting
  | _ => s.waiting

/-- The last byte of `$$$` is about to be put into the output queue. -/
def asks (s : Session σ) : Bool :=
  match s.phase, s.sys.pc with
  | .before, .send [_] (.release _) => decide (s.client = .command (modeStart cmd))
  | _, _ => false

/-- The last `wiflyRead` is about to return. -/
def returns (s : Session σ) : Bool :=
  match s.sys.pc with
  | .release _ _ _ => decide (s.client = .exit [.read])
  | _ => false

def phaseAfter (s : Session σ) : Act → Phase
  | .thread =>
    match s.phase with
    | .before =>
      if s.asks cmd then .during s.sys.sd.wire.length s.sys.answers.length else .before
    | .during W n =>
      if s.returns then .after W s.sys.sd.wire.length n (s.sys.answers.length + 1)
      else .during W n
    | p => p
  | _ => s.phase

def parsedAfter (s : Session σ) : Act → List Rx
  | .thread =>
    if s.sys.pc.reader = some .loop then s.parsed ++ s.sys.sd.sdGetTimeout.1.toList else s.parsed
  | _ => s.parsed

/-- The client runs up to its next call of the wifly thread. -/
def clientStep (s : Session σ) : Option (Session σ) :=
  if s.waiting then none
  else
    match s.client.req with
    | .send msg =>
      if msg = [] then some { s with client := s.client.sent .overflow }
      else (s.sys.step cb (.client thd msg)).map fun t => { s with sys := t, waiting := true }
    | .read => (s.sys.step cb (.client thd [])).map fun t => { s with sys := t, waiting := true }
    | .call _ => some { s with client := s.client.result 0 }
    | .ret _ => none

def step (s : Session σ) : Label → Option (Session σ)
  | .act (.client _ _) => none
  | .act a => (s.sys.step cb a).map fun t =>
      ⟨t, s.clientAfter a, s.waitingAfter a, s.phaseAfter cmd a, s.parsedAfter a⟩
  | .client => s.clientStep cb thd

/-- No byte is received between the stores of a reset; a byte of the answer is received while
`wifly_receive` runs for the client and nothing is queued; and nothing is queued when `$$$` is
sent. -/
def OwnOk (s : Session σ) : Label → Prop
  | .act (.usart sr _) => sr.rxne = true → Sys.stores s.sys.pc = 0 ∧
      (s.phase.answering = true → s.sys.pc.receiving = true ∧
        s.sys.sd.iqueue.chIQIsEmptyI = true)
  | .act .thread => s.asks cmd = true → s.sys.sd.iqueue.chIQIsEmptyI = true
  | _ => True

instance (s : Session σ) (a : Label) : Decidable (OwnOk cmd s a) :=
  match a with
  | .act .thread | .act (.usart _ _) => by dsimp only [OwnOk]; infer_instance
  | .act .timeout | .act (.result _) | .act (.client _ _) | .client => .isTrue trivial

/-- The bytes of the answer are the client's. While it comes, what has been received is the
pieces whose text is in the buffers given to the client, the piece it is being given and the
byte that is queued; when the last `wiflyRead` has returned it is these pieces. -/
structure Owned (s : Session σ) : Prop where
  during : ∀ W n, s.phase = .during W n →
    ∃ (pieces : List (List UInt8)) (piece queued : List UInt8),
    pieces.flatten ++ piece ++ queued = s.sys.sd.wire.drop W ∧
    (s.sys.answers.drop n).map Answer.buf = pieces.map textOf ∧ s.sys.pc.Holds piece ∧
    queued.length ≤ 1 ∧ (queued ≠ [] → s.sys.pc.receiving = true)
  after : ∀ W W' n n', s.phase = .after W W' n n' → ∃ pieces : List (List UInt8),
    pieces.flatten = (s.sys.sd.wire.take W').drop W ∧
    ((s.sys.answers.take n').drop n).map Answer.buf = pieces.map textOf
  client : ∀ a ∈ s.sys.answers, a.thd = thd
  parsed : ∀ x ∈ s.parsed, s.phase.Outside x.seq
  calls : ∀ call ∈ s.sys.calls, ∀ c ∈ call, ∀ k, c.src = some k → s.phase.Outside k

end

end Session

/-! ## What the client is given -/

theorem store_textOf (r : Recv) (x : Rx) :
    (r.store (inOf (some x))).got = r.got ++ textOf [x.byte] := by
  have hcr : inOf (some x) = chCr ↔ x.byte = 13 := by
    rw [inOf, chCr, ← UInt8.toNat_inj]
    exact Int.ofNat_inj
  have hlf : inOf (some x) = chLf ↔ x.byte = 10 := by
    rw [inOf, chLf, ← UInt8.toNat_inj]
    exact Int.ofNat_inj
  have hchar : toChar (inOf (some x)) = x.byte := toChar_ofNat x.byte
  have hkept : (inOf (some x) ≠ chCr ∧ inOf (some x) ≠ chLf) ↔ (x.byte ≠ 13 ∧ x.byte ≠ 10) :=
    and_congr (not_congr hcr) (not_congr hlf)
  unfold Recv.store textOf
  by_cases h : x.byte ≠ 13 ∧ x.byte ≠ 10
  · rw [if_pos (hkept.2 h), hchar, List.filter_cons, if_pos (decide_eq_true h), List.filter_nil]
  · rw [if_neg (mt hkept.1 h), List.filter_cons, if_neg (by rwa [decide_eq_true_eq]),
      List.filter_nil, List.append_nil]

theorem textOf_append (l l' : List UInt8) : textOf (l ++ l') = textOf l ++ textOf l' :=
  List.filter_append ..

namespace Sys

variable {ω σ : Type} {cb : ProtocolCallback ω σ} {s t : Sys σ} {a : Act}

/-- What becomes of the buffers of the clients. -/
inductive GotMove (s : Sys σ) (a : Act) (t : Sys σ) : Prop where
  | same : t.answers = s.answers →
      (t.pc.got = s.pc.got ∨ (s.pc.got = none ∧ t.pc.got = some [])) →
      (a = .thread → s.pc.reader = some .client → s.sd.sdGetTimeout.1 = none) → GotMove s a t
  | byte (g : List UInt8) (x : Rx) : a = .thread → s.pc.reader = some .client →
      s.sd.sdGetTimeout.1 = some x → t.answers = s.answers → s.pc.got = some g →
      t.pc.got = some (g ++ textOf [x.byte]) → GotMove s a t
  | release (thd : Nat) (st : State) (buf : List UInt8) : s.pc = .release thd st buf →
      t.answers = s.answers ++ [⟨thd, st, buf⟩] → t.pc.got = none → GotMove s a t

theorem got_received (s : Sys σ) (st : State) (r : Recv) (ret : RecvRet σ) :
    (s.received cb st r ret).pc.got = (Pc.recvWait r ret : Pc σ).got := by
  cases ret <;> rfl

theorem got_recvByte (s : Sys σ) (r : Recv) (x : Rx) (ret : RecvRet σ)
    {again : Recv → RecvRet σ → Pc σ}
    (hag : ∀ r, (again r ret).got = (Pc.recvWait r ret : Pc σ).got) :
    (s.recvByte cb r (inOf (some x)) ret again).pc.got =
      (Pc.recvWait (r.store (inOf (some x))) ret : Pc σ).got := by
  obtain ⟨-, he⟩ | ⟨-, -, he⟩ | ⟨-, -, he⟩ := recvByte_cases cb s r (inOf (some x)) ret again <;>
    rw [he]
  · cases ret <;> rfl
  · exact got_received ..
  · exact hag _

theorem GotMove.of_got (ha : t.answers = s.answers) (hg : t.pc.got = s.pc.got)
    (hr : s.pc.reader ≠ some .client) : GotMove s a t :=
  .same ha (.inl hg) fun _ h => absurd h hr

theorem GotMove.of_byte {r : Recv} {ret : RecvRet σ} {x : Rx} (ha : t.answers = s.answers)
    (hx : s.sd.sdGetTimeout.1 = some x) (hs : s.pc = .drain r ret ∨ s.pc = .recvGet r ret)
    (ht : t.pc.got = (Pc.recvWait (r.store (inOf (some x))) ret : Pc σ).got) :
    GotMove s .thread t := by
  cases ret with
  | release thd =>
    have hr : s.pc.reader = some .client := by rcases hs with hs | hs <;> rw [hs] <;> rfl
    have hg : s.pc.got = some r.got := by rcases hs with hs | hs <;> rw [hs] <;> rfl
    refine .byte r.got x rfl hr hx ha hg ?_
    rw [ht, ← store_textOf]
    rfl
  | callback x =>
    have hr : s.pc.reader ≠ some .client := by rcases hs with hs | hs <;> simp [hs, Pc.reader]
    have hg : s.pc.got = none := by rcases hs with hs | hs <;> rw [hs] <;> rfl
    exact .of_got ha (ht.trans hg.symm) hr

theorem Move.got (hm : Move cb s t) : GotMove s .thread t := by
  cases hm with
  | release thd st buf hpc => exact .release thd st buf hpc rfl rfl
  | readRequest _ _ hpc =>
    exact .same rfl (.inr ⟨by rw [hpc]; rfl, rfl⟩) fun _ h => absurd h (by simp [hpc, Pc.reader])
  | sendDone ret hpc =>
    have hr : s.pc.reader ≠ some .client := by simp [hpc, Pc.reader]
    cases ret with
    | release => exact .same rfl (.inr ⟨by rw [hpc]; rfl, rfl⟩) fun _ h => absurd h hr
    | overflow | reply | callback => exact .of_got rfl (by rw [hpc]; rfl) hr
  | drained _ ret hpc hn =>
    exact .same rfl (.inl (by rw [hpc]; cases ret <;> rfl)) fun _ _ => hn
  | recvNothing r ret hpc hn =>
    refine .same (received_answers ..) (.inl ?_) fun _ _ => hn
    rw [got_received, hpc]
    cases ret <;> rfl
  | recvError r ret hpc =>
    refine .of_got (received_answers ..) ?_ (by simp [hpc, Pc.reader])
    rw [got_received, hpc]
    cases ret <;> rfl
  | drainByte r ret x hpc hx =>
    exact .of_byte (recvByte_answers ..) hx (.inl hpc) (got_recvByte _ _ _ _ fun _ => by
      cases ret <;> rfl)
  | recvByte r ret x hpc hx =>
    exact .of_byte (recvByte_answers ..) hx (.inr hpc) (got_recvByte _ _ _ _ fun _ => rfl)
  | iqResetWrptr ret hpc | iqResetRdptr ret hpc =>
    refine .of_got rfl ?_ (by simp [hpc, Pc.reader])
    rw [hpc]
    cases ret with
    | receive r ret => cases ret <;> rfl
    | overflow | error => rfl
  | iqResetCounter ret hpc =>
    have hr : s.pc.reader ≠ some .client := by simp [hpc, Pc.reader]
    cases ret with
    | overflow | error => exact .of_got rfl (by rw [hpc]; rfl) hr
    | receive r ret =>
      refine .of_got (received_answers ..) ?_ hr
      rw [iqWasReset, got_received, hpc]
      cases ret <;> rfl
  | byte hpc =>
    refine .of_got rfl ?_ (by simp [hpc, Pc.reader])
    rw [hpc]
    cases s.fed.2 <;> rfl
  | put b bs ret d hpc hd =>
    refine .of_got rfl ?_ (by simp [hpc, Pc.reader])
    rw [hpc]
    by_cases hbs : bs = [] <;> simp only [hbs, ↓reduceIte] <;> rfl
  | oqReset k pc hpc hn =>
    refine .of_got rfl ?_ (by simp [hpc, Pc.reader])
    rw [hpc]
    obtain ⟨k', rfl⟩ | rfl := hn <;> rfl
  | recvEvent r ret hpc =>
    have hg : s.pc.got = (Pc.recvWait r ret : Pc σ).got := by
      rcases hpc with hpc | hpc
      · rw [hpc]
      · rw [hpc]
        cases ret <;> rfl
    refine .of_got rfl ?_ (by rcases hpc with hpc | hpc <;> simp [hpc, Pc.reader])
    rw [hg]
    cases ret <;> rfl
  | recvSleep r ret hpc | recvInput r ret hpc | recvOther r ret hpc =>
    exact .of_got rfl (by rw [hpc]; cases ret <;> rfl) (by simp [hpc, Pc.reader])
  | register hpc | takeMessage hpc | listen hpc | sendRequest _ _ _ hpc | event hpc | noEvent hpc
  | inputFlag hpc | errorFlags hpc | otherFlags hpc | call hpc | returnAnswer _ _ hpc
  | returnMessage _ hpc | callbackSendEmpty _ hpc | callbackSend _ _ hpc | callbackRead _ hpc
  | sendEvent _ hpc | sendMore _ hpc =>
    exact .of_got rfl (by rw [hpc]; rfl) (by simp [hpc, Pc.reader])

theorem step_got (hs : s.step cb a = some t) : GotMove s a t := by
  obtain ⟨rfl, hm⟩ | ⟨r, ret, -, hpc, -, rfl⟩ | ⟨x, v, -, hpc, rfl⟩ | ⟨sr, dr, rfl, rfl⟩ |
    ⟨thd, str, rfl, rfl⟩ := step_cases hs
  · exact hm.got
  · refine .of_got (received_answers ..) ?_ (by simp [hpc, Pc.reader])
    rw [got_received, hpc]
    cases ret <;> rfl
  · exact .of_got rfl (by rw [hpc]; rfl) (by simp [hpc, Pc.reader])
  · exact .same rfl (.inl rfl) fun h => by cases h
  · exact .same rfl (.inl rfl) fun h => by cases h

/-! ## The byte that is queued -/

/-- The byte that is queued will be read for the client: it is read next, or its flag is set. -/
def Ready (s : Sys σ) : Prop :=
  s.pc.receiving = true ∧ (s.pc.reader = some .client ∨ InputRaised s.sd)

theorem Signalled.ready_pending (hsig : s.Signalled) (h : InputRaised s.sd)
    (hc : s.sd.iqueue.qCounter ≠ 0) (hg : s.pc.gap = false) : s.sd.epending = true := by
  refine hsig.pending hg fun h0 => ?_
  have hf := h hc
  rw [h0] at hf
  simp at hf

theorem Move.ready (hm : Move cb s t) (hsig : s.Signalled) (h : s.Ready)
    (hc : s.sd.iqueue.qCounter ≠ 0) (hr : s.pc.reader ≠ some .client) : t.Ready := by
  have hraised := h.2.resolve_left hr
  obtain ⟨hrec, -⟩ := h
  cases hm with
  | recvEvent r ret hpc =>
    refine ⟨?_, .inr hraised⟩
    rcases hpc with hpc | hpc <;> rw [hpc] at hrec <;> cases ret <;> first | rfl | cases hrec
  | recvSleep r ret hpc he =>
    have hp := hsig.ready_pending hraised hc (by rw [hpc]; rfl)
    rw [he] at hp
    cases hp
  | recvInput r ret hpc =>
    rw [hpc] at hrec
    cases ret with
    | release => exact ⟨rfl, .inl rfl⟩
    | callback => cases hrec
  | recvError r ret hpc hf | recvOther r ret hpc hf =>
    rw [hraised hc] at hf
    cases hf
  | drained r ret hpc | drainByte r ret _ hpc | recvNothing r ret hpc | recvByte r ret _ hpc =>
    rw [hpc] at hrec hr
    cases ret with
    | release => exact absurd rfl hr
    | callback => cases hrec
  | register hpc | takeMessage hpc | listen hpc | readRequest _ _ hpc | sendRequest _ _ _ hpc
  | event hpc | noEvent hpc | inputFlag hpc | errorFlags hpc | otherFlags hpc | byte hpc
  | call hpc | returnAnswer _ _ hpc | returnMessage _ hpc | callbackSendEmpty _ hpc
  | callbackSend _ _ hpc | callbackRead _ hpc | put _ _ _ _ hpc | sendEvent _ hpc
  | sendDone _ hpc | sendMore _ hpc | release _ _ _ hpc | iqResetWrptr _ hpc
  | iqResetRdptr _ hpc | iqResetCounter _ hpc | oqReset _ _ hpc => rw [hpc] at hrec; cases hrec

theorem step_ready (hsig : s.Signalled) (h : s.Ready) (hc : s.sd.iqueue.qCounter ≠ 0)
    (hr : a = .thread → s.pc.reader ≠ some .client) (hs : s.step cb a = some t) : t.Ready := by
  obtain ⟨rfl, hm⟩ | ⟨r, ret, -, hpc, he, rfl⟩ | ⟨x, v, -, hpc, rfl⟩ | ⟨sr, dr, -, rfl⟩ |
    ⟨thd, str, -, rfl⟩ := step_cases hs
  · exact hm.ready hsig h hc (hr rfl)
  · have hraised := h.2.resolve_left (by simp [hpc, Pc.reader])
    have hp := hsig.ready_pending hraised hc (by rw [hpc]; rfl)
    rw [he] at hp
    cases hp
  · have hrec := h.1
    rw [hpc] at hrec
    cases hrec
  · have hreg : s.pc ≠ .register := by
      intro hpc
      have hrec := h.1
      rw [hpc] at hrec
      cases hrec
    exact ⟨h.1, h.2.imp id fun h => serveInterrupt_raised (hsig.registered hreg) h sr dr⟩
  · exact h

/-- A byte is received while `wifly_receive` runs and nothing is queued. -/
theorem receive_ready (hsig : s.Signalled) (hrec : s.pc.receiving = true)
    (he : s.sd.iqueue.chIQIsEmptyI = true) (sr : SR) (dr : UInt8) :
    Ready { s with sd := s.sd.serveInterrupt sr dr } := by
  have hreg : s.pc ≠ .register := by
    intro hpc
    rw [hpc] at hrec
    cases hrec
  have hraised : InputRaised s.sd := fun hc =>
    absurd (by simpa [GenericQueue.chIQIsEmptyI] using he) hc
  exact ⟨hrec, .inr (serveInterrupt_raised (hsig.registered hreg) hraised sr dr)⟩

/-! ## Whose messages are answered -/

/-- Every message is of the thread `thd`. -/
structure Only (thd : Nat) (s : Sys σ) : Prop where
  queue : ∀ m ∈ s.msgQueue, m.1 = thd
  serving : ∀ k ∈ s.pc.serving, k = thd
  answers : ∀ a ∈ s.answers, a.thd = thd

theorem Only.of_serving {thd : Nat} (h : s.Only thd) (hq : t.msgQueue = s.msgQueue)
    (ha : t.answers = s.answers) (hv : t.pc.serving = s.pc.serving ∨ t.pc.serving = none) :
    t.Only thd := by
  refine ⟨hq ▸ h.queue, fun k hk => ?_, ha ▸ h.answers⟩
  rcases hv with hv | hv
  · exact h.serving k (hv ▸ hk)
  · rw [hv] at hk
    cases hk

theorem serving_received (cb : ProtocolCallback ω σ) (s : Sys σ) (st : State) (r : Recv)
    (ret : RecvRet σ) :
    (s.received cb st r ret).pc.serving = (Pc.recvWait r ret : Pc σ).serving ∧
      (s.received cb st r ret).msgQueue = s.msgQueue := by
  cases ret <;> exact ⟨rfl, rfl⟩

theorem serving_recvByte (cb : ProtocolCallback ω σ) (s : Sys σ) (r : Recv) (inn : Int)
    (ret : RecvRet σ) (again : Recv → RecvRet σ → Pc σ)
    (hag : ∀ r', (again r' ret).serving = (Pc.recvWait r ret : Pc σ).serving) :
    (s.recvByte cb r inn ret again).pc.serving = (Pc.recvWait r ret : Pc σ).serving ∧
      (s.recvByte cb r inn ret again).msgQueue = s.msgQueue := by
  obtain ⟨-, he⟩ | ⟨-, -, he⟩ | ⟨-, -, he⟩ := recvByte_cases cb s r inn ret again <;> rw [he]
  · exact ⟨by cases ret <;> rfl, rfl⟩
  · obtain ⟨hv, hq⟩ := serving_received cb s .ok (r.store inn) ret
    exact ⟨hv.trans (by cases ret <;> rfl), hq⟩
  · exact ⟨hag _, rfl⟩

theorem Move.only {thd : Nat} (hm : Move cb s t) (h : s.Only thd) : t.Only thd := by
  cases hm with
  | readRequest k q hpc hq =>
    refine ⟨fun m hm => h.queue m (hq ▸ List.mem_cons_of_mem _ hm), fun k' hk => ?_, h.answers⟩
    cases hk
    exact h.queue (k, []) (hq ▸ List.mem_cons_self)
  | sendRequest k str q hpc hq =>
    refine ⟨fun m hm => h.queue m (hq ▸ List.mem_cons_of_mem _ hm), fun k' hk => ?_, h.answers⟩
    cases hk
    exact h.queue (k, str) (hq ▸ List.mem_cons_self)
  | release k st buf hpc =>
    refine ⟨h.queue, fun k' hk => (by cases hk), fun a ha => ?_⟩
    rcases List.mem_append.1 ha with ha | ha
    · exact h.answers a ha
    · rw [List.mem_singleton.1 ha]
      exact h.serving k (by rw [hpc]; rfl)
  | sendDone ret hpc =>
    cases ret with
    | release => exact h.of_serving rfl rfl (.inl (by rw [hpc]; rfl))
    | overflow | reply | callback => exact h.of_serving rfl rfl (.inr rfl)
  | recvNothing r ret hpc | recvError r ret hpc =>
    refine h.of_serving (serving_received ..).2 (received_answers ..) (.inl ?_)
    rw [(serving_received ..).1, hpc]
    cases ret <;> rfl
  | drainByte r ret x hpc =>
    obtain ⟨hv, hq⟩ := serving_recvByte cb s.dequeued r (inOf (some x)) ret .drain fun _ => by
      cases ret <;> rfl
    exact h.of_serving hq (recvByte_answers ..) (.inl (by rw [hv, hpc]; cases ret <;> rfl))
  | recvByte r ret x hpc =>
    obtain ⟨hv, hq⟩ := serving_recvByte cb s.dequeued r (inOf (some x)) ret .recvWait fun _ => by
      cases ret <;> rfl
    exact h.of_serving hq (recvByte_answers ..) (.inl (by rw [hv, hpc]; cases ret <;> rfl))
  | iqResetWrptr ret hpc | iqResetRdptr ret hpc =>
    refine h.of_serving rfl rfl (.inl ?_)
    rw [hpc]
    cases ret with
    | receive r ret => cases ret <;> rfl
    | overflow | error => rfl
  | iqResetCounter ret hpc =>
    cases ret with
    | overflow | error => exact h.of_serving rfl rfl (.inr rfl)
    | receive r ret =>
      refine h.of_serving (serving_received ..).2 (received_answers ..) (.inl ?_)
      rw [iqWasReset, (serving_received ..).1, hpc]
      cases ret <;> rfl
  | byte hpc =>
    refine h.of_serving rfl rfl (.inr ?_)
    cases s.fed.2 <;> rfl
  | put b bs ret d hpc hd =>
    obtain ⟨q, -, rfl⟩ := Option.map_eq_some_iff.1 hd
    refine h.of_serving rfl rfl (.inl ?_)
    rw [hpc]
    by_cases hbs : bs = [] <;> simp only [hbs, ↓reduceIte] <;> cases ret <;> rfl
  | sendEvent ret hpc | sendMore ret hpc =>
    exact h.of_serving rfl rfl (.inl (by rw [hpc]; cases ret <;> rfl))
  | oqReset k pc hpc hn =>
    refine h.of_serving rfl rfl (.inr ?_)
    rcases hn with ⟨k', rfl⟩ | rfl <;> rfl
  | recvEvent r ret hpc =>
    refine h.of_serving rfl rfl (.inl ?_)
    rcases hpc with hpc | hpc <;> rw [hpc] <;> cases ret <;> rfl
  | drained r ret hpc | recvSleep r ret hpc | recvInput r ret hpc | recvOther r ret hpc =>
    exact h.of_serving rfl rfl (.inl (by rw [hpc]; cases ret <;> rfl))
  | register | takeMessage | listen | event | noEvent | inputFlag | errorFlags | otherFlags | call
  | returnAnswer | returnMessage | callbackSendEmpty | callbackSend | callbackRead =>
    exact h.of_serving rfl rfl (.inr rfl)

theorem step_only {thd : Nat} (ha : ∀ k str, a ≠ .client k str) (h : s.Only thd)
    (hs : s.step cb a = some t) : t.Only thd := by
  obtain ⟨-, hm⟩ | ⟨r, ret, -, hpc, -, rfl⟩ | ⟨x, v, -, hpc, rfl⟩ | ⟨sr, dr, -, rfl⟩ |
    ⟨k, str, hk, -⟩ := step_cases hs
  · exact hm.only h
  · refine h.of_serving (serving_received ..).2 (received_answers ..) (.inl ?_)
    rw [(serving_received ..).1, hpc]
    cases ret <;> rfl
  · exact h.of_serving rfl rfl (.inr rfl)
  · exact ⟨h.queue, h.serving, h.answers⟩
  · exact absurd hk (ha k str)

end Sys

/-! ## The answer -/

namespace Session

variable {ω σ : Type} {cb : ProtocolCallback ω σ} {thd : Nat} {cmd : List UInt8}
  {s t : Session σ} {a : Act} {Q : List Rx}

/-- The answer while it comes. -/
structure Coming (s : Sys σ) (W n : Nat) (Q : List Rx) : Prop where
  wire : W ≤ s.sd.wire.length
  answers : n ≤ s.answers.length
  one : Q.length ≤ 1
  ready : Q ≠ [] → s.Ready
  pieces : ∃ (pieces : List (List UInt8)) (piece : List UInt8),
    pieces.flatten ++ piece ++ Q.map Rx.byte = s.sd.wire.drop W ∧
    (s.answers.drop n).map Answer.buf = pieces.map textOf ∧ s.pc.Holds piece

/-- The answer when it has been read. -/
structure Come (s : Sys σ) (W W' n n' : Nat) (Q : List Rx) : Prop where
  wire : W' ≤ s.sd.wire.length
  answers : n' ≤ s.answers.length
  later : ∀ x ∈ Q, W' ≤ x.seq
  pieces : ∃ pieces : List (List UInt8), pieces.flatten = (s.sd.wire.take W').drop W ∧
    ((s.answers.take n').drop n).map Answer.buf = pieces.map textOf

/-- What the client has of the answer, with `Q` queued. -/
def AnswerAt (s : Sys σ) (Q : List Rx) : Phase → Prop
  | .before => True
  | .during W n => Coming s W n Q
  | .after W W' n n' => Come s W W' n n' Q

structure Inv (thd : Nat) (s : Session σ) (Q : List Rx) : Prop where
  callHeld : s.sys.CallHeld
  signalled : s.sys.Signalled
  only : s.sys.Only thd
  queued : s.sys.Queued Q
  seqs : ∀ x ∈ Q ++ s.parsed, x.seq < s.sys.sd.wire.length
  cells : ∀ c ∈ s.sys.parser.held ++ s.sys.calls.flatten, ∀ k, c.src = some k →
    ∃ x ∈ s.parsed, x.seq = k
  outside : ∀ x ∈ s.parsed, s.phase.Outside x.seq
  answer : AnswerAt s.sys Q s.phase

theorem init_inv (thd : Nat) (cmd : List UInt8) : (init cmd : Session σ).Inv thd [] where
  callHeld := Sys.init_callHeld
  signalled := Sys.init_signalled
  only := ⟨by simp [init, Sys.init], by simp [init, Sys.init, Pc.serving], by simp [init, Sys.init]⟩
  queued := Sys.init_queued
  seqs := by simp [init]
  cells := by simp [init, Sys.init, Parser.held, Parser.init]
  outside := by simp [init]
  answer := trivial

theorem mem_parsedAfter {x : Rx} (h : x ∈ s.parsedAfter a) : x ∈ s.parsed ∨
    (a = .thread ∧ s.sys.pc.reader = some .loop ∧ s.sys.sd.sdGetTimeout.1 = some x) := by
  cases a with
  | thread =>
    by_cases hk : s.sys.pc.reader = some .loop
    · rw [parsedAfter, if_pos hk] at h
      exact (List.mem_append.1 h).imp id fun h => ⟨rfl, hk, Option.mem_toList.1 h⟩
    · rw [parsedAfter, if_neg hk] at h
      exact .inl h
  | timeout | result | usart | client => exact .inl h

theorem mem_parsedAfter_of_mem {x : Rx} (h : x ∈ s.parsed) : x ∈ s.parsedAfter a := by
  cases a with
  | thread =>
    unfold parsedAfter
    dsimp only
    split
    · exact List.mem_append_left _ h
    · exact h
  | timeout | result | usart | client => exact h

theorem counter_ne (hq : s.sys.Queued Q) (h0 : Sys.stores s.sys.pc = 0) (hQ : Q ≠ []) :
    s.sys.sd.iqueue.qCounter ≠ 0 := by
  rw [(hq.holds h0).counter]
  exact fun h => hQ (List.length_eq_zero_iff.1 h)

theorem queue_nil (hq : s.sys.Queued Q) (h0 : Sys.stores s.sys.pc = 0)
    (he : s.sys.sd.iqueue.chIQIsEmptyI = true) : Q = [] :=
  (hq.holds h0).empty_iff.1 he

/-- `wifly_receive` makes no store of a reset where it waits or reads. -/
theorem receiving_stores {pc : Pc σ} (h : pc.receiving = true) : Sys.stores pc = 0 := by
  unfold Sys.stores
  split
  · cases h
  · cases h
  · rfl

theorem receiving_reader {pc : Pc σ} (h : pc.receiving = true) : pc.reader ≠ some .loop := by
  unfold Pc.reader
  split
  · cases h
  · cases h
  · cases h
  · simp
  · simp
  · simp

/-- A byte of the answer that is queued is not read by the loop, nor thrown away. -/
theorem Inv.receiving (h : s.Inv thd Q) {W n : Nat} (hp : s.phase = .during W n) (hQ : Q ≠ []) :
    s.sys.pc.receiving = true := by
  have hans := h.answer
  rw [hp] at hans
  exact (hans.ready hQ).1

theorem Coming.pieces_step {u t : Sys σ} {W n : Nat} (h : Coming u W n Q)
    (hg : Sys.GotMove u a t) (hw : t.sd.wire = u.sd.wire)
    (hn : a = .thread → u.pc.reader = some .client → u.sd.sdGetTimeout.1 = none) :
    ∃ (pieces : List (List UInt8)) (piece : List UInt8),
      pieces.flatten ++ piece ++ Q.map Rx.byte = t.sd.wire.drop W ∧
      (t.answers.drop n).map Answer.buf = pieces.map textOf ∧ t.pc.Holds piece := by
  obtain ⟨pieces, piece, hwire, hbuf, hheld⟩ := h.pieces
  rw [hw]
  cases hg with
  | same ha hgot =>
    refine ⟨pieces, piece, hwire, ha ▸ hbuf, ?_⟩
    rcases hgot with hgot | ⟨hgot, hgot'⟩
    · unfold Pc.Holds
      rw [hgot]
      exact hheld
    · unfold Pc.Holds at hheld ⊢
      rw [hgot] at hheld
      rw [hgot', show piece = [] from hheld]
      rfl
  | byte g x ha hr hx =>
    rw [hn ha hr] at hx
    cases hx
  | release thd st buf hpc ha hgot =>
    refine ⟨pieces ++ [piece], [], ?_, ?_, ?_⟩
    · rw [List.flatten_append, List.flatten_singleton, List.append_nil]
      exact hwire
    · unfold Pc.Holds at hheld
      rw [hpc] at hheld
      rw [ha, List.drop_append_of_le_length h.answers, List.map_append, hbuf, List.map_append]
      exact congrArg (fun l => pieces.map textOf ++ [l]) hheld
    · unfold Pc.Holds
      rw [hgot]
      rfl

theorem answers_le {u t : Sys σ} (hs : u.step cb a = some t) :
    u.answers.length ≤ t.answers.length := by
  obtain he | ⟨k, st, buf, -, -, rfl⟩ := Sys.step_answers hs
  · rw [he]
  · rw [List.length_append]
    exact Nat.le_add_right ..

/-- The byte that is queued is read for the client. -/
theorem Coming.read {u t : Sys σ} {W n : Nat} {x : Rx} (h : Coming u W n [x])
    (hg : Sys.GotMove u .thread t) (hr : u.pc.reader = some .client)
    (hx : u.sd.sdGetTimeout.1 = some x) (hw : t.sd.wire = u.sd.wire)
    (hn : n ≤ t.answers.length) : Coming t W n [] := by
  obtain ⟨pieces, piece, hbytes, hbuf, hheld⟩ := h.pieces
  refine ⟨hw ▸ h.wire, hn, Nat.zero_le _, fun hne => absurd rfl hne, ?_⟩
  cases hg with
  | same _ _ hnone =>
    rw [hnone rfl hr] at hx
    cases hx
  | byte g y _ _ hy ha hgot hgot' =>
    cases hy.symm.trans hx
    refine ⟨pieces, piece ++ [x.byte], ?_, ha ▸ hbuf, ?_⟩
    · rw [hw, ← hbytes]
      simp
    · unfold Pc.Holds at hheld ⊢
      rw [hgot] at hheld
      rw [hgot', textOf_append]
      exact congrArg (fun l => l ++ textOf [x.byte]) hheld
  | release k st buf hpc =>
    rw [hpc] at hr
    cases hr

/-- A byte is received while `wifly_receive` runs for the client and nothing is queued. -/
theorem Coming.receive {u : Sys σ} {W n : Nat} (h : Coming u W n []) (hsig : u.Signalled)
    (hrec : u.pc.receiving = true) (he : u.sd.iqueue.chIQIsEmptyI = true) (sr : SR) (b : UInt8)
    {k : Nat} (hw : (u.sd.serveInterrupt sr b).wire = u.sd.wire ++ [b]) :
    Coming { u with sd := u.sd.serveInterrupt sr b } W n [⟨b, k⟩] := by
  obtain ⟨pieces, piece, hbytes, hbuf, hheld⟩ := h.pieces
  have hwire : W ≤ (u.sd.serveInterrupt sr b).wire.length := by
    rw [hw, List.length_append]
    exact h.wire.trans (Nat.le_add_right ..)
  refine ⟨hwire, h.answers, Nat.le_refl _, fun _ => Sys.receive_ready hsig hrec he sr b,
    pieces, piece, ?_, hbuf, hheld⟩
  rw [List.map_nil, List.append_nil] at hbytes
  rw [hw, List.drop_append_of_le_length h.wire, ← hbytes]
  rfl

theorem during_step {W n : Nat} (h : s.Inv thd Q) (hp : s.phase = .during W n) {t : Sys σ}
    {Q' : List Rx} (hok : OwnOk cmd s (.act a)) (hs : s.sys.step cb a = some t)
    (hm : Sys.QueueMove s.sys a t Q Q') : Coming t W n Q' := by
  have hc : Coming s.sys W n Q := by
    have hans := h.answer
    rwa [hp] at hans
  have hwire : W ≤ t.sd.wire.length := hc.wire.trans hm.wire_le
  have hans : n ≤ t.answers.length := hc.answers.trans (answers_le hs)
  have hg := Sys.step_got hs
  cases hm with
  | same hw hnone =>
    refine ⟨hwire, hans, hc.one, fun hQ => ?_, hc.pieces_step hg hw fun ha hr => hnone ha (by
      rw [hr]; simp)⟩
    have h0 := receiving_stores (h.receiving hp hQ)
    apply Sys.step_ready h.signalled (hc.ready hQ) (counter_ne h.queued h0 hQ) _ hs
    intro ha hr
    obtain ⟨x, Q₁, rfl⟩ := List.exists_cons_of_ne_nil hQ
    obtain ⟨q, hget, -⟩ := (h.queued.holds h0).get_cons
    have hx := hnone ha (by rw [hr]; simp)
    rw [SerialDriver.sdGetTimeout, hget] at hx
    cases hx
  | got x Q' ha hr hQ hx hw h0 =>
    subst ha hQ
    have hone := hc.one
    rw [List.length_cons] at hone
    obtain rfl : Q' = [] := List.length_eq_zero_iff.1 (by omega)
    have hrec := h.receiving hp (List.cons_ne_nil _ _)
    have hclient : s.sys.pc.reader = some .client := by
      obtain ⟨k, hk⟩ := Option.ne_none_iff_exists'.1 hr
      cases k with
      | client => exact hk
      | loop => exact absurd hk (receiving_reader hrec)
    exact hc.read hg hclient hx hw hans
  | emptied hr h2 h0 hw =>
    have hQ : Q = [] := by
      by_contra hQ
      have h0 := receiving_stores (h.receiving hp hQ)
      omega
    subst hQ
    exact ⟨hwire, hans, Nat.zero_le _, fun hQ => absurd rfl hQ,
      hc.pieces_step hg hw fun _ hr' => by rw [hr] at hr'; cases hr'⟩
  | arrived sr b ha hw h0 =>
    subst ha
    cases hs
    have hrx : sr.rxne = true := by
      by_contra hrx
      have hsame := (serveInterrupt_no_rx s.sys.sd (Bool.not_eq_true _ ▸ hrx) b).2
      rw [hw] at hsame
      simp at hsame
    obtain ⟨hrec, hempty⟩ := (hok hrx).2 (by rw [hp]; rfl)
    obtain rfl := queue_nil h.queued (receiving_stores hrec) hempty
    exact hc.receive h.signalled hrec hempty sr b hw
  | lost sr b ha hr hfull =>
    subst ha
    obtain ⟨-, hempty⟩ := (hok hr).2 (by rw [hp]; rfl)
    rw [GenericQueue.chIQIsEmptyI, beq_iff_eq] at hempty
    simp [GenericQueue.chIQIsFullI, hempty] at hfull

theorem later_step {W W' n n' : Nat} (h : s.Inv thd Q) (hp : s.phase = .after W W' n n')
    {t : Sys σ} {Q' : List Rx} (hs : s.sys.step cb a = some t)
    (hm : Sys.QueueMove s.sys a t Q Q') : Come t W W' n n' Q' := by
  obtain ⟨hW, hn, hQ, pieces, hbytes, hbuf⟩ : Come s.sys W W' n n' Q := by
    have hans := h.answer
    rwa [hp] at hans
  refine ⟨hW.trans hm.wire_le, hn.trans (answers_le hs), fun x hx => ?_, pieces, ?_, ?_⟩
  · rcases hm.mem hx with hx | ⟨hx, -⟩
    · exact hQ x hx
    · rw [hx]
      exact hW
  · have htake : t.sd.wire.take W' = s.sys.sd.wire.take W' := by
      cases hm with
      | same hw | got _ _ _ _ _ _ hw | emptied _ _ _ hw => rw [hw]
      | arrived _ _ _ hw | lost _ _ _ _ _ hw => rw [hw, List.take_append_of_le_length hW]
    rw [htake, hbytes]
  · have htake : t.answers.take n' = s.sys.answers.take n' := by
      obtain he | ⟨k, st, buf, -, -, rfl⟩ := Sys.step_answers hs
      · rw [he]
      · exact List.take_append_of_le_length hn
    rw [htake, hbuf]

theorem outside_step (h : s.Inv thd Q) {t : Sys σ} {Q' : List Rx}
    (hm : Sys.QueueMove s.sys a t Q Q') : ∀ x ∈ s.parsedAfter a, s.phase.Outside x.seq := by
  intro x hx
  obtain hx | ⟨rfl, hr, hx⟩ := mem_parsedAfter hx
  · exact h.outside x hx
  · have hmem := hm.mem_of_read (by rw [hr]; simp) hx
    cases hp : s.phase with
    | before => trivial
    | during W n =>
      have hrec := h.receiving hp (List.ne_nil_of_mem hmem)
      exact absurd hr (receiving_reader hrec)
    | after W W' n n' =>
      have hans := h.answer
      rw [hp] at hans
      exact .inr (hans.later x hmem)

theorem seqs_step (h : s.Inv thd Q) {t : Sys σ} {Q' : List Rx}
    (hm : Sys.QueueMove s.sys a t Q Q') :
    ∀ x ∈ Q' ++ s.parsedAfter a, x.seq < t.sd.wire.length := by
  have hold : ∀ x ∈ Q ++ s.parsed, x.seq < t.sd.wire.length := fun x hx =>
    Nat.lt_of_lt_of_le (h.seqs x hx) hm.wire_le
  intro x hx
  rcases List.mem_append.1 hx with hx | hx
  · rcases hm.mem hx with hx | ⟨hx, hlt⟩
    · exact hold x (List.mem_append_left _ hx)
    · rw [hx]
      exact hlt
  · obtain hx | ⟨rfl, hr, hx⟩ := mem_parsedAfter hx
    · exact hold x (List.mem_append_right _ hx)
    · exact hold x (List.mem_append_left _ (hm.mem_of_read (by rw [hr]; simp) hx))

/-- The cells of the line come from the bytes the loop has dequeued. -/
theorem cells_step (h : s.Inv thd Q) {t : Sys σ} (hs : s.sys.step cb a = some t) :
    ∀ c ∈ t.parser.held ++ t.calls.flatten, ∀ k, c.src = some k →
      ∃ x ∈ s.parsedAfter a, x.seq = k := by
  have hold : ∀ c ∈ s.sys.parser.held ++ s.sys.calls.flatten, ∀ k, c.src = some k →
      ∃ x ∈ s.parsedAfter a, x.seq = k := by
    intro c hc k hk
    obtain ⟨x, hx, he⟩ := h.cells c hc k hk
    exact ⟨x, mem_parsedAfter_of_mem hx, he⟩
  cases Sys.step_line hs with
  | same he => rw [he.parser, he.calls]; exact hold
  | new he =>
    rw [he.boundary.held, he.calls]
    exact fun c hc => hold c (List.mem_append_right _ hc)
  | byte ha hpc =>
    subst ha
    intro c hc k hk
    rcases List.mem_append.1 hc with hc | hc
    · rcases Parser.mem_held_feed hc with hc | ⟨rfl, -⟩
      · exact hold c (List.mem_append_left _ hc) k hk
      · obtain ⟨x, hx, rfl⟩ := Option.map_eq_some_iff.1 hk
        refine ⟨x, ?_, rfl⟩
        rw [parsedAfter, hpc, if_pos (show (Pc.getByte : Pc σ).reader = some .loop from rfl), hx]
        exact List.mem_append_right _ (List.mem_singleton_self x)
    · exact hold c (List.mem_append_right _ hc) k hk
  | call x _ hpc =>
    intro c hc
    rcases List.mem_append.1 hc with hc | hc
    · exact hold c (List.mem_append_left _ hc)
    · rw [List.flatten_append, List.flatten_singleton] at hc
      rcases List.mem_append.1 hc with hc | hc
      · exact hold c (List.mem_append_right _ hc)
      · exact hold c (List.mem_append_left _ (h.callHeld.2 hpc c hc))
  | discard =>
    rintro c hc
    rcases List.mem_append.1 hc with hc | hc
    · cases hc
    · exact hold c (List.mem_append_right _ hc)

/-! ## Runs -/

theorem asks_iff (s : Session σ) (cmd : List UInt8) : s.asks cmd = true →
    s.phase = .before ∧ ∃ b k, s.sys.pc = .send [b] (.release k) := by
  unfold asks
  split
  · next b k hp hpc => exact fun _ => ⟨hp, b, k, hpc⟩
  · exact fun h => by cases h

theorem returns_release (h : s.returns = true) : ∃ k st buf, s.sys.pc = .release k st buf := by
  unfold returns at h
  split at h
  · next k st buf hpc => exact ⟨k, st, buf, hpc⟩
  · cases h

theorem phaseAfter_cases (s : Session σ) (cmd : List UInt8) (a : Act) :
    s.phaseAfter cmd a = s.phase ∨
    (a = .thread ∧ s.asks cmd = true ∧
      s.phaseAfter cmd a = .during s.sys.sd.wire.length s.sys.answers.length) ∨
    (a = .thread ∧ s.returns = true ∧ ∃ W n, s.phase = .during W n ∧
      s.phaseAfter cmd a = .after W s.sys.sd.wire.length n (s.sys.answers.length + 1)) := by
  cases a with
  | thread =>
    unfold phaseAfter
    dsimp only
    split
    · next hp =>
      split
      · next h => exact .inr (.inl ⟨rfl, h, rfl⟩)
      · exact .inl hp.symm
    · next W n hp =>
      split
      · next h => exact .inr (.inr ⟨rfl, h, W, n, hp, rfl⟩)
      · exact .inl hp.symm
    · exact .inl rfl
  | timeout | result | usart | client => exact .inl rfl

/-- A step of the thread that reads nothing and resets nothing, with nothing queued. -/
theorem still_queue {t : Sys σ} {Q' : List Rx} (hm : Sys.QueueMove s.sys .thread t [] Q') :
    Q' = [] ∧ t.sd.wire = s.sys.sd.wire := by
  cases hm with
  | same hw => exact ⟨rfl, hw⟩
  | got x Q' _ _ hQ => cases hQ
  | emptied _ _ _ hw => exact ⟨rfl, hw⟩
  | arrived sr b ha | lost sr b ha => cases ha

theorem asks_step (h : s.Inv thd Q) (hok : OwnOk cmd s (.act .thread)) (ha : s.asks cmd = true)
    {t : Sys σ} {Q' : List Rx} (hs : s.sys.step cb .thread = some t)
    (hm : Sys.QueueMove s.sys .thread t Q Q') :
    Coming t s.sys.sd.wire.length s.sys.answers.length Q' := by
  obtain ⟨-, b, k, hpc⟩ := asks_iff s cmd ha
  have hnil := queue_nil h.queued (by rw [hpc]; rfl) (hok ha)
  subst hnil
  obtain ⟨rfl, hw⟩ := still_queue hm
  have hc : Coming s.sys s.sys.sd.wire.length s.sys.answers.length [] :=
    ⟨Nat.le_refl _, Nat.le_refl _, Nat.zero_le _, fun hne => absurd rfl hne, [], [], by simp,
      by simp, by rw [hpc]; rfl⟩
  exact ⟨hm.wire_le, answers_le hs, Nat.zero_le _, fun hne => absurd rfl hne,
    hc.pieces_step (Sys.step_got hs) hw fun _ hr => by rw [hpc] at hr; cases hr⟩

theorem returns_step {W n : Nat} (h : s.Inv thd Q) (hp : s.phase = .during W n)
    (hret : s.returns = true) {t : Sys σ} {Q' : List Rx} (hs : s.sys.step cb .thread = some t)
    (hm : Sys.QueueMove s.sys .thread t Q Q') :
    Come t W s.sys.sd.wire.length n (s.sys.answers.length + 1) Q' := by
  obtain ⟨k, st, buf, hpc⟩ := returns_release hret
  have hc : Coming s.sys W n Q := by
    have hans := h.answer
    rwa [hp] at hans
  have hnil : Q = [] := by
    by_contra hQ
    have hrec := h.receiving hp hQ
    rw [hpc] at hrec
    cases hrec
  subst hnil
  obtain ⟨rfl, hw⟩ := still_queue hm
  have ht : t = { s.sys with
      pc := .evtWait, answers := s.sys.answers ++ [⟨k, st, buf⟩] } := by
    simpa [Sys.step, Sys.threadStep, hpc] using hs.symm
  obtain ⟨pieces, piece, hbytes, hbuf, hheld⟩ := hc.pieces_step (Sys.step_got hs) hw fun _ hr => by
    rw [hpc] at hr; cases hr
  have hlen : t.answers.length = s.sys.answers.length + 1 := by
    rw [ht, List.length_append, List.length_singleton]
  have hpiece : piece = [] := by
    unfold Pc.Holds at hheld
    rw [ht] at hheld
    exact hheld
  refine ⟨hw ▸ Nat.le_refl _, hlen ▸ Nat.le_refl _, (fun x hx => by cases hx), pieces, ?_, ?_⟩
  · rw [hpiece, List.append_nil, List.map_nil, List.append_nil] at hbytes
    rw [hbytes, ← hw, List.take_length]
  · rw [← hlen, List.take_length]
    exact hbuf

theorem act_inv (h : s.Inv thd Q) (hok : OwnOk cmd s (.act a)) {t : Sys σ}
    (ha : ∀ k str, a ≠ .client k str) (hs : s.sys.step cb a = some t) :
    ∃ Q', Inv thd ⟨t, s.clientAfter a, s.waitingAfter a, s.phaseAfter cmd a, s.parsedAfter a⟩
      Q' := by
  have hrx : ∀ sr b, a = .usart sr b → sr.rxne = true → Sys.stores s.sys.pc = 0 := by
    rintro sr b rfl hr
    exact (hok hr).1
  obtain ⟨Q', hq, hm⟩ := Sys.queue_move h.queued hrx hs
  have hseqs := seqs_step h hm
  have hout := outside_step h hm
  refine ⟨Q', Sys.step_callHeld h.callHeld hs, Sys.step_signalled h.signalled hs,
    Sys.step_only ha h.only hs, hq, hseqs, cells_step h hs, ?_, ?_⟩
  all_goals dsimp only
  all_goals
    obtain hp | ⟨rfl, hask, hp'⟩ | ⟨rfl, hret, W, n, hp, hp'⟩ := s.phaseAfter_cases cmd a
  · rw [hp]
    exact hout
  · obtain ⟨-, b, k, hpc⟩ := asks_iff s cmd hask
    rw [hp']
    intro x hx
    obtain hx | ⟨-, hr, -⟩ := mem_parsedAfter hx
    · exact h.seqs x (List.mem_append_right _ hx)
    · rw [hpc] at hr
      cases hr
  · rw [hp']
    rw [hp] at hout
    exact fun x hx => .inl (hout x hx)
  · rw [hp]
    cases hph : s.phase with
    | before => trivial
    | during W n => exact during_step h hph hok hs hm
    | after W W' n n' => exact later_step h hph hs hm
  · rw [hp']
    exact asks_step h hok hask hs hm
  · rw [hp']
    exact returns_step h hp hret hs hm

theorem step_act (ha : ∀ k str, a ≠ .client k str) :
    s.step cb thd cmd (.act a) = (s.sys.step cb a).map fun t => ⟨t, s.clientAfter a,
      s.waitingAfter a, s.phaseAfter cmd a, s.parsedAfter a⟩ := by
  cases a with
  | client k str => exact absurd rfl (ha k str)
  | thread | timeout | result | usart => rfl

/-- A step of the client leaves all but the queue of messages alone. -/
theorem clientStep_same (hs : s.clientStep cb thd = some t) :
    ∃ q, t.sys = { s.sys with msgQueue := q } ∧ t.phase = s.phase ∧ t.parsed = s.parsed ∧
      ∀ m ∈ q, m ∈ s.sys.msgQueue ∨ m.1 = thd := by
  have hcall : ∀ str, ((s.sys.step cb (.client thd str)).map fun t =>
      { s with sys := t, waiting := true }) = some t →
      ∃ q, t.sys = { s.sys with msgQueue := q } ∧ t.phase = s.phase ∧ t.parsed = s.parsed ∧
        ∀ m ∈ q, m ∈ s.sys.msgQueue ∨ m.1 = thd := by
    intro str hs
    obtain ⟨t', ht, rfl⟩ := Option.map_eq_some_iff.1 hs
    dsimp only [Sys.step] at ht
    split at ht
    · cases ht
    · cases ht
      refine ⟨_, rfl, rfl, rfl, fun m hm => (List.mem_append.1 hm).imp id fun hm => ?_⟩
      rw [List.mem_singleton.1 hm]
  unfold clientStep at hs
  split at hs
  · cases hs
  · split at hs
    · split at hs
      · cases hs
        exact ⟨_, rfl, rfl, rfl, fun m hm => .inl hm⟩
      · exact hcall _ hs
    · exact hcall _ hs
    · cases hs
      exact ⟨_, rfl, rfl, rfl, fun m hm => .inl hm⟩
    · cases hs

theorem AnswerAt.client (h : AnswerAt s.sys Q s.phase) (q : List (Nat × List UInt8)) :
    AnswerAt { s.sys with msgQueue := q } Q s.phase := by
  unfold AnswerAt at h ⊢
  split
  · trivial
  · next hp =>
    rw [hp] at h
    exact ⟨h.wire, h.answers, h.one, h.ready, h.pieces⟩
  · next hp =>
    rw [hp] at h
    exact ⟨h.wire, h.answers, h.later, h.pieces⟩

theorem inv_step {l : Label} (h : s.Inv thd Q) (hok : OwnOk cmd s l)
    (hs : s.step cb thd cmd l = some t) : ∃ Q', t.Inv thd Q' := by
  cases l with
  | act a =>
    by_cases ha : ∃ k str, a = .client k str
    · obtain ⟨k, str, rfl⟩ := ha
      cases hs
    · have ha' : ∀ k str, a ≠ .client k str := fun k str he => ha ⟨k, str, he⟩
      rw [step_act ha'] at hs
      obtain ⟨t', ht, rfl⟩ := Option.map_eq_some_iff.1 hs
      exact act_inv h hok ha' ht
  | client =>
    obtain ⟨q, hsys, hp, hpar, hq⟩ := clientStep_same hs
    refine ⟨Q, ?_, ?_, ?_, ?_, ?_, ?_, ?_, ?_⟩
    · rw [hsys]; exact h.callHeld
    · rw [hsys]; exact ⟨h.signalled.registered, h.signalled.pending⟩
    · rw [hsys]
      exact ⟨fun m hm => (hq m hm).elim (h.only.queue m) id, h.only.serving, h.only.answers⟩
    · rw [hsys]; exact ⟨h.queued.holds, h.queued.wrptr, h.queued.rdptr⟩
    · rw [hsys, hpar]; exact h.seqs
    · rw [hsys, hpar]; exact h.cells
    · rw [hp, hpar]; exact h.outside
    · rw [hsys, hp]; exact h.answer.client q

theorem Inv.owned (h : s.Inv thd Q) : s.Owned thd := by
  have hans := h.answer
  refine ⟨fun W n hp => ?_, fun W W' n n' hp => ?_, h.only.answers, h.outside,
    fun call hcall c hc k hk => ?_⟩
  · rw [hp] at hans
    obtain ⟨pieces, piece, hbytes, hbuf, hheld⟩ := hans.pieces
    refine ⟨pieces, piece, Q.map Rx.byte, hbytes, hbuf, hheld, ?_, fun hne => (hans.ready ?_).1⟩
    · rw [List.length_map]
      exact hans.one
    · exact fun hQ => hne (by rw [hQ]; rfl)
  · rw [hp] at hans
    exact hans.pieces
  · have hmem : c ∈ s.sys.parser.held ++ s.sys.calls.flatten :=
      List.mem_append_right _ (List.mem_flatten_of_mem hcall hc)
    obtain ⟨x, hx, rfl⟩ := h.cells c hmem k hk
    exact h.outside x hx

/-- **The answer to a command is the client's**, in every run in which a byte of it is received
only while `wifly_receive` runs for the client and has read the one before. -/
theorem answer_owned (h : Reach (step cb thd cmd) (OwnOk cmd) (init cmd) s) : s.Owned thd := by
  have hstep : ∀ (s : Session σ) l t, (∃ Q, s.Inv thd Q) → OwnOk cmd s l →
      s.step cb thd cmd l = some t → ∃ Q, t.Inv thd Q := by
    rintro s l t ⟨Q, hi⟩ hok hs
    exact inv_step hi hok hs
  obtain ⟨Q, hi⟩ := h.inv ⟨[], init_inv thd cmd⟩ hstep
  exact hi.owned

/-- The call up to the return of `wiflySend("$$$")`. -/
def upToMode : List Label :=
  script [(1, .client), (16, .act .thread), (14, .act .tx), (3, .act .thread), (1, .client),
    (6, .act .thread), (4, .act .tx), (3, .act .thread), (1, .client), (11, .act .thread),
    (9, .act .tx), (3, .act .thread), (2, .client), (6, .act .thread), (4, .act .tx),
    (3, .act .thread)]

/-- The module answers `C` and a newline while the client is in its first `wiflyRead`. -/
theorem answer_owned_while_reading :
    ∃ s, Reach (step Main.callback 7 (ascii "ver")) (OwnOk (ascii "ver")) (init (ascii "ver")) s ∧
      s.phase = .after 0 2 3 13 ∧ s.sys.sd.wire = ascii "C\n" ∧
      (s.sys.answers.drop 3).flatMap Answer.buf = ascii "C" ∧ s.Owned 7 := by
  obtain ⟨s, hr, hp⟩ := reach_of_exec (step Main.callback 7 (ascii "ver")) (OwnOk (ascii "ver"))
    (init (ascii "ver"))
    (upToMode ++ script [(1, .client), (5, .act .thread), (1, .act (.rx 67)), (4, .act .thread),
      (1, .act (.rx 10)), (4, .act .thread), (1, .client), (5, .act .thread), (1, .act .timeout),
      (1, .act .thread), (1, .client), (6, .act .thread), (4, .act .tx), (3, .act .thread),
      (1, .client), (5, .act .thread), (3, .act .tx), (3, .act .thread), (1, .client),
      (5, .act .thread), (1, .act .timeout), (1, .act .thread), (1, .client), (5, .act .thread),
      (1, .act .timeout), (1, .act .thread), (1, .client), (9, .act .thread), (7, .act .tx),
      (3, .act .thread), (1, .client), (5, .act .thread), (1, .act .timeout), (1, .act .thread),
      (1, .client), (5, .act .thread), (1, .act .timeout), (1, .act .thread)])
    (fun s => decide (s.phase = .after 0 2 3 13 ∧ s.sys.sd.wire = ascii "C\n" ∧
      (s.sys.answers.drop 3).flatMap Answer.buf = ascii "C")) (by decide +kernel)
  rw [decide_eq_true_eq] at hp
  exact ⟨s, hr, hp.1, hp.2.1, hp.2.2, answer_owned hr⟩

/-- The module answers before the client's first `wiflyRead`: the loop reads the byte. -/
theorem answer_parsed :
    ¬ ∀ s, Reach (step Main.callback 7 (ascii "ver")) Always (init (ascii "ver")) s → s.Owned 7 := by
  intro h
  obtain ⟨s, hr, hp⟩ := reach_of_exec (step Main.callback 7 (ascii "ver")) Always
    (init (ascii "ver")) (upToMode ++ script [(1, .act (.rx 67)), (3, .act .thread)])
    (fun s => decide (s.phase = .during 0 3 ∧ s.parsed = [⟨67, 0⟩])) (by decide +kernel)
  rw [decide_eq_true_eq] at hp
  have hout := (h s hr).parsed ⟨67, 0⟩ (by rw [hp.2]; exact List.mem_singleton_self _)
  rw [hp.1] at hout
  exact absurd hout (Nat.lt_irrefl 0)

end Session

end RobotPws.Wifly
