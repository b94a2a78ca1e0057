import RobotPws.Main
import RobotPws.Wifly.InputQueue

/-!
# Clients are served between lines

`wifly_loop` takes a message when its two counters are zero. They are zero at the start of a
line, but also after a leading space or `'\r'`, and they say nothing of what `wifly_receive` or
a reset of the queue has left of a line. `position` is how many bytes of the wire have left the
input queue, read from it or thrown away. In the runs without these (`BetweenOk`) a message is
taken only where a line starts on the wire, the client is released where one starts, and what
has left the queue in between is whole lines.
-/

namespace RobotPws.Wifly

open RobotPws.Lib RobotPws.Kernel RobotPws.Hal

/-! ## Lines on the wire -/

/-- A line starts at byte `p`. -/
def LineStart (wire : List UInt8) (p : Nat) : Prop := p = 0 ∨ wire[p - 1]? = some 10

instance (wire : List UInt8) (p : Nat) : Decidable (LineStart wire p) :=
  inferInstanceAs (Decidable (_ ∨ _))

/-- Lines, each with its end. -/
def WholeLines (l : List UInt8) : Prop := ∀ b ∈ l.getLast?, b = 10

theorem LineStart.append {wire : List UInt8} {p : Nat} (h : LineStart wire p) (l : List UInt8) :
    LineStart (wire ++ l) p := by
  refine h.imp id fun h => ?_
  rw [List.getElem?_append_left (List.getElem?_eq_some_iff.1 h).1, h]

theorem LineStart.whole {wire : List UInt8} {p : Nat} (h : LineStart wire p) (q : Nat) :
    WholeLines ((wire.take p).drop q) := by
  intro b hb
  rw [List.getLast?_drop] at hb
  split at hb
  · cases hb
  · next hlt =>
    rw [List.length_take] at hlt
    rcases h with rfl | h
    · omega
    · rw [List.getLast?_take, if_neg (by omega), h] at hb
      cases hb
      rfl

/-- How many bytes of the wire have left the input queue. -/
def position (d : SerialDriver) : Nat := d.wire.length - d.iqueue.qCounter

/-- The byte that comes next starts a line. -/
def LineNext (d : SerialDriver) : Prop := LineStart d.wire (position d)

instance (d : SerialDriver) : Decidable (LineNext d) := inferInstanceAs (Decidable (LineStart _ _))

/-! ## The gate -/

namespace Sys

variable {ω σ : Type} {cb : ProtocolCallback ω σ} {s t : Sys σ} {a : Act}

/-- The counters of the loop are zero. -/
def Zero (s : Sys σ) : Prop := s.parser.i = 0 ∧ s.parser.j = 0

instance (s : Sys σ) : Decidable s.Zero := inferInstanceAs (Decidable (_ ∧ _))

/-- No line starts with a space or a `'\r'`; `wifly_receive` gives up on a line only when it
has taken none of it; the input queue is emptied only after the end of a line; and no byte is
lost in a full queue or between the stores of a reset. -/
def BetweenOk (s : Sys σ) : Act → Prop
  | .thread =>
    match s.pc with
    | .getByte => s.Zero → ∀ rx ∈ s.sd.sdGetTimeout.1, rx.byte ≠ 32 ∧ rx.byte ≠ 13
    | .recvFlags _ _ =>
      hasFlag s.sd.elFlags chnInputAvailable = false → s.sd.elFlags > 32 → LineNext s.sd
    | .recvGet _ _ => s.sd.sdGetTimeout.1 = none → LineNext s.sd
    | .iqReset .counter _ => LineStart s.sd.wire s.sd.wire.length
    | _ => True
  | .timeout => LineNext s.sd
  | .usart sr _ => sr.rxne = true → stores s.pc = 0 ∧ s.sd.iqueue.chIQIsFullI = false
  | _ => True

instance (s : Sys σ) (a : Act) : Decidable (BetweenOk s a) :=
  match a with
  | .thread =>
    match s with
    | { pc, .. } =>
      match pc with
      | .getByte | .recvFlags _ _ | .recvGet _ _ | .iqReset .counter _ => by
        dsimp only [BetweenOk]; infer_instance
      | .register | .top | .msgWait | .evtWait | .getFlags | .call | .callback _
      | .send _ _ | .sendWait _ | .sendFlags _ | .drain _ _ | .recvWait _ _ | .recvSleep _ _
      | .release _ _ _ | .iqReset .wrptr _ | .iqReset .rdptr _ | .oqReset _ => .isTrue trivial
  | .timeout => inferInstanceAs (Decidable (LineNext s.sd))
  | .usart _ _ => by dsimp only [BetweenOk]; infer_instance
  | .result _ | .client _ _ => .isTrue trivial

/-! ## The position -/

/-- The queue has all that was received from the position on. -/
def Unlost (s : Sys σ) : Prop := s.Queued (numbered s.sd.wire (position s.sd))

theorem Queued.position {p : Nat} (h : s.Queued (numbered s.sd.wire p)) (h0 : stores s.pc = 0)
    (hp : p ≤ s.sd.wire.length) : position s.sd = p := by
  have hc := (h.holds h0).counter
  rw [show (numbered s.sd.wire p).length = s.sd.wire.length - p by simp [numbered]] at hc
  unfold Wifly.position
  omega

theorem Unlost.of_queued {p : Nat} (h : s.Queued (numbered s.sd.wire p)) (h0 : stores s.pc = 0)
    (hp : p ≤ s.sd.wire.length) : s.Unlost := by
  unfold Unlost
  rw [h.position h0 hp]
  exact h

theorem step_counter (hok : BetweenOk s a) (hs : s.step cb a = some t) (h : stores t.pc ≠ 0) :
    t.sd.iqueue.qCounter = s.sd.iqueue.qCounter := by
  cases step_queue hs with
  | same hq => rw [hq]
  | get _ _ _ h0 => exact absurd h0 h
  | reset k ret _ hpc hq _ hst =>
    rw [hq]
    cases k with
    | wrptr | rdptr => rfl
    | counter =>
      rw [show stores s.pc = 2 by rw [hpc]; rfl] at hst
      exact absurd hst h
  | usart sr dr ha ht =>
    subst ha ht
    cases hr : sr.rxne with
    | false => rw [(serveInterrupt_no_rx s.sd hr dr).1]
    | true => exact absurd (hok hr).1 h

theorem step_unlost (h : s.Unlost) (hok : BetweenOk s a) (hs : s.step cb a = some t) :
    t.Unlost := by
  have hrx : ∀ sr b, a = .usart sr b → sr.rxne = true → stores s.pc = 0 := by
    intro sr b ha hr
    subst ha
    exact (hok hr).1
  have hle : position s.sd ≤ s.sd.wire.length := Nat.sub_le ..
  obtain ⟨Q', hq', hm⟩ := queue_move h hrx hs
  cases hm with
  | same hw =>
    rw [← hw] at hq' hle
    by_cases h0 : stores t.pc = 0
    · exact .of_queued hq' h0 hle
    · rw [Unlost, show position t.sd = position s.sd by
        rw [position, position, hw, step_counter hok hs h0]]
      exact hq'
  | got x Q' _ _ hQ _ hw h0 =>
    obtain ⟨-, hlt, rfl⟩ := numbered_cons hQ
    rw [← hw] at hq' hlt
    exact .of_queued hq' h0 hlt
  | emptied _ _ h0 hw =>
    rw [← numbered_length t.sd.wire] at hq'
    exact .of_queued hq' h0 (Nat.le_refl _)
  | arrived sr b _ hw h0 =>
    rw [← numbered_snoc hle, ← hw] at hq'
    exact .of_queued hq' h0 (by rw [hw, List.length_append]; omega)
  | lost sr b ha hr hf =>
    subst ha
    rw [(hok hr).2] at hf
    cases hf

theorem Unlost.read (h : s.Unlost) (h0 : stores s.pc = 0) {x : Rx}
    (hx : s.sd.sdGetTimeout.1 = some x) :
    s.sd.wire[position s.sd]? = some x.byte ∧
      position s.dequeued.sd = position s.sd + 1 := by
  have hholds := h.holds h0
  cases hn : numbered s.sd.wire (position s.sd) with
  | nil =>
    rw [hn] at hholds
    rw [SerialDriver.sdGetTimeout, hholds.get_nil] at hx
    cases hx
  | cons y Q =>
    obtain ⟨hb, hlt, -⟩ := numbered_cons hn
    rw [hn] at hholds
    obtain ⟨q', hget, -⟩ := hholds.get_cons
    have hc : s.dequeued.sd.iqueue.qCounter = s.sd.iqueue.qCounter - 1 :=
      s.sd.iqueue.chIQGetTimeout_counter
    have hlen : s.sd.iqueue.qCounter = s.sd.wire.length - position s.sd := by
      rw [hholds.counter, ← hn, numbered, List.length_map, List.length_drop, List.length_zipIdx]
    rw [SerialDriver.sdGetTimeout, hget] at hx
    cases hx
    refine ⟨hb, ?_⟩
    have hw : s.dequeued.sd.wire = s.sd.wire := rfl
    unfold position at hlt hlen ⊢
    rw [hc, hw]
    omega

theorem Unlost.newline (h : s.Unlost) (h0 : stores s.pc = 0) {x : Rx}
    (hx : s.sd.sdGetTimeout.1 = some x) (hb : x.byte = 10) : LineNext s.dequeued.sd := by
  obtain ⟨hw, hp⟩ := h.read h0 hx
  rw [LineNext, hp]
  right
  rw [Nat.add_sub_cancel, ← hb]
  exact hw

theorem lineNext_dequeued (h : LineNext s.sd) (h0 : s.sd.iqueue.qCounter = 0) :
    LineNext s.dequeued.sd := by
  have hc : s.dequeued.sd.iqueue.qCounter = s.sd.iqueue.qCounter - 1 :=
    s.sd.iqueue.chIQGetTimeout_counter
  have hp : position s.dequeued.sd = position s.sd := by
    have hw : s.dequeued.sd.wire = s.sd.wire := rfl
    rw [position, position, hc, hw, h0]
  rw [LineNext, hp]
  exact h

theorem serveInterrupt_lineNext {sr : SR} {dr : UInt8} (hok : BetweenOk s (.usart sr dr))
    (h : LineNext s.sd) : LineNext (s.sd.serveInterrupt sr dr) := by
  cases hr : sr.rxne with
  | false =>
    obtain ⟨hi, hw⟩ := serveInterrupt_no_rx s.sd hr dr
    rw [LineNext, position, hi, hw]
    exact h
  | true =>
    obtain ⟨hw, hi⟩ := serveInterrupt_rx s.sd hr dr
    cases hp : s.sd.iqueue.chIQPutI ⟨dr, s.sd.wire.length⟩ with
    | none => simp [GenericQueue.chIQPutI, (hok hr).2] at hp
    | some q =>
      rw [hp, Option.getD_some] at hi
      have hpos : position (s.sd.serveInterrupt sr dr) = position s.sd := by
        rw [position, position, hw, hi, GenericQueue.chIQPutI_counter hp, List.length_append,
          List.length_singleton, Nat.add_sub_add_right]
      rw [LineNext, hpos, hw]
      exact h.append _

/-! ## The invariant -/

/-- What holds at each point, `L` saying that a line starts at the position: a message is
served at the start of a line, and a line that has ended is answered. -/
def At (L : Prop) (p : Parser Cell) : Pc σ → Prop
  | .register => L
  | .top | .evtWait | .getFlags | .getByte | .iqReset _ .error | .oqReset _ =>
    p.i = 0 ∧ p.j = 0 → p.Boundary ∧ L
  | .msgWait | .send _ (.release _) | .sendWait (.release _) | .sendFlags (.release _)
  | .release _ _ _ => p.Boundary ∧ L
  | .drain _ ret | .recvWait _ ret | .recvSleep _ ret | .recvFlags _ ret | .recvGet _ ret
  | .iqReset _ (.receive _ ret) => ret.isAnswer = false → p.Boundary
  | .call | .callback _ | .send _ .reply | .sendWait .reply | .sendFlags .reply
  | .send _ (.callback _) | .sendWait (.callback _) | .sendFlags (.callback _) => L
  | .send _ .overflow | .sendWait .overflow | .sendFlags .overflow | .iqReset _ .overflow => True

theorem At.mono {L L' : Prop} (hL : L → L') {p : Parser Cell} {pc : Pc σ} (h : At L p pc) :
    At L' p pc := by
  revert h
  unfold At
  split <;> tauto

def AtPc (s : Sys σ) : Prop := At (LineNext s.sd) s.parser s.pc

theorem atPc_received {st : State} {r : Recv} {ret : RecvRet σ}
    (hb : ret.isAnswer = false → s.parser.Boundary) (hl : LineNext s.sd) :
    (s.received cb st r ret).AtPc := by
  cases ret with
  | release thd => exact ⟨hb rfl, hl⟩
  | callback x => exact hl

theorem atPc_recvByte {r : Recv} {rx : Rx} {ret : RecvRet σ} {again : Recv → RecvRet σ → Pc σ}
    (hb : ret.isAnswer = false → s.parser.Boundary) (hl : rx.byte = 10 → LineNext s.sd)
    (ha : ∀ r, ({ s with pc := again r ret } : Sys σ).AtPc) :
    (s.recvByte cb r (inOf (some rx)) ret again).AtPc := by
  obtain ⟨-, he⟩ | ⟨-, hlf, he⟩ | ⟨-, -, he⟩ :=
      Sys.recvByte_cases cb s r (inOf (some rx)) ret again <;>
    rw [he]
  · exact hb
  · exact atPc_received hb (hl (inOf_lf hlf))
  · exact ha _

/-- A character that is more of a line leaves the counters zero only if it is a space or
not kept. -/
theorem zero_feed {p : Parser Cell} {inn : Int} {c : Cell} (hv : (p.feed inn c).2 = .more)
    (h : (p.feed inn c).1.i = 0 ∧ (p.feed inn c).1.j = 0) :
    (p.i = 0 ∧ p.j = 0) ∧ (inn = chSpace ∨ inn = chCr) := by
  obtain ⟨-, he⟩ | ⟨-, -, he⟩ | ⟨-, hlf, he⟩ := p.feed_cases inn c
  · rw [he] at hv; cases hv
  · rw [he] at hv; exact absurd hv (Parser.lineVerdict_ne_more _)
  · rw [he] at h
    obtain ⟨-, hs, hst⟩ | ⟨-, -, -, -, hst⟩ | ⟨-, -, -, hst⟩ | ⟨hc, hst⟩ := p.store_cases inn c <;>
      rw [hst] at h
    · exact ⟨h, .inl hs⟩
    · exact absurd h.1 (Nat.succ_ne_zero _)
    · exact absurd h.2 (Nat.succ_ne_zero _)
    · exact ⟨h, .inr (hc.resolve_right hlf)⟩

/-- Only a newline ends a line that fits. -/
theorem newline_of_verdict {p : Parser Cell} {inn : Int} {c : Cell} (hm : (p.feed inn c).2 ≠ .more)
    (ho : (p.feed inn c).2 ≠ .overflow) : inn = chLf := by
  obtain ⟨-, he⟩ | ⟨-, hlf, -⟩ | ⟨-, -, he⟩ := p.feed_cases inn c
  · rw [he] at ho; exact absurd rfl ho
  · exact hlf
  · rw [he] at hm; exact absurd rfl hm

theorem atPc_byte (hu : s.Unlost) (hpc : s.pc = .getByte) (hok : BetweenOk s .thread) :
    s.readByte.AtPc := by
  simp only [BetweenOk, hpc] at hok
  have h0 : stores s.pc = 0 := by rw [hpc]; rfl
  -- a value that is one of the characters comes from a byte
  have hbyte : ∀ b : UInt8, inOf s.sd.sdGetTimeout.1 = b.toNat →
      ∃ rx, s.sd.sdGetTimeout.1 = some rx ∧ rx.byte = b := by
    intro b hin
    cases hg : s.sd.sdGetTimeout.1 with
    | none => rw [hg, inOf] at hin; omega
    | some rx =>
      rw [hg, inOf] at hin
      exact ⟨rx, rfl, UInt8.toNat_inj.1 (Int.ofNat.inj hin)⟩
  have hpc' : s.readByte.pc = .after s.fed.2 := rfl
  unfold AtPc
  rw [hpc']
  cases hv : s.fed.2 with
  | more =>
    intro hz
    obtain ⟨hz', hin⟩ := zero_feed hv hz
    exfalso
    rcases hin with hin | hin
    · obtain ⟨rx, hrx, hb⟩ := hbyte 32 hin
      exact (hok hz' rx hrx).1 hb
    · obtain ⟨rx, hrx, hb⟩ := hbyte 13 hin
      exact (hok hz' rx hrx).2 hb
  | overflow => trivial
  | hello | badStatus | command =>
    have hlf : s.fed.2 ≠ .more → s.fed.2 ≠ .overflow → inOf s.sd.sdGetTimeout.1 = chLf :=
      newline_of_verdict
    obtain ⟨rx, hrx, hb⟩ := hbyte 10 (hlf (by simp [hv]) (by simp [hv]))
    exact hu.newline h0 hrx hb

theorem atPc_move (h : s.AtPc) (hu : s.Unlost) (hok : BetweenOk s .thread) (hm : Move cb s t) :
    t.AtPc := by
  cases hm with
  | byte hpc => exact atPc_byte hu hpc hok
  | register hpc =>
    rw [AtPc, hpc] at h
    exact fun _ => ⟨⟨rfl, rfl, rfl⟩, h⟩
  | takeMessage hpc hi hj =>
    rw [AtPc, hpc] at h
    exact h ⟨hi, hj⟩
  | listen hpc | noEvent hpc | event hpc | inputFlag hpc | errorFlags hpc | otherFlags hpc
  | sendRequest _ _ _ hpc | call hpc | returnAnswer _ _ hpc | callbackSendEmpty _ hpc
  | callbackSend _ _ hpc | recvSleep _ _ hpc | recvInput _ _ hpc | recvOther _ _ hpc
  | drained _ _ hpc =>
    rw [AtPc, hpc] at h
    exact h
  | readRequest _ _ hpc =>
    rw [AtPc, hpc] at h
    exact fun _ => h.1
  | callbackRead _ hpc => exact fun h => nomatch h
  | returnMessage _ hpc =>
    rw [AtPc, hpc] at h
    exact fun _ => ⟨⟨rfl, rfl, rfl⟩, h⟩
  | put b bs ret d hpc hd =>
    obtain ⟨q, -, rfl⟩ := Option.map_eq_some_iff.1 hd
    rw [AtPc, hpc] at h
    unfold AtPc
    by_cases hbs : bs = [] <;> simp only [hbs, ↓reduceIte] <;> cases ret <;> exact h
  | sendEvent ret hpc | sendMore ret hpc =>
    rw [AtPc, hpc] at h
    cases ret <;> exact h
  | sendDone ret hpc =>
    rw [AtPc, hpc] at h
    cases ret with
    | reply => exact fun _ => ⟨⟨rfl, rfl, rfl⟩, h⟩
    | release | overflow | callback => exact h
  | recvEvent r ret hpc => rcases hpc with hpc | hpc <;> rw [AtPc, hpc] at h <;> exact h
  | recvError r ret hpc hf h32 =>
    rw [AtPc, hpc] at h
    simp only [BetweenOk, hpc] at hok
    exact atPc_received h (hok hf h32)
  | recvNothing r ret hpc hn =>
    rw [AtPc, hpc] at h
    simp only [BetweenOk, hpc] at hok
    have hc : s.sd.iqueue.qCounter = 0 :=
      GenericQueue.chIQGetTimeout_none (hu.holds (by rw [hpc]; rfl)).rdptr hn
    exact atPc_received (s := s.dequeued) h (lineNext_dequeued (hok hn) hc)
  | drainByte r ret rx hpc hrx | recvByte r ret rx hpc hrx =>
    rw [AtPc, hpc] at h
    exact atPc_recvByte h (hu.newline (by rw [hpc]; rfl) hrx) fun _ => h
  | release _ _ _ hpc =>
    rw [AtPc, hpc] at h
    exact fun _ => h
  | iqResetWrptr ret hpc | iqResetRdptr ret hpc =>
    rw [AtPc, hpc] at h
    cases ret <;> exact h
  | iqResetCounter ret hpc =>
    rw [AtPc, hpc] at h
    simp only [BetweenOk, hpc] at hok
    have hl : LineNext (s.sd.chIQResetI .counter) := hok
    cases ret with
    | overflow => exact fun _ => ⟨⟨rfl, rfl, rfl⟩, hl⟩
    | error => exact fun hz => ⟨(h hz).1, hl⟩
    | receive r ret => exact atPc_received h hl
  | oqReset k pc hpc hn =>
    rw [AtPc, hpc] at h
    rcases hn with ⟨k', rfl⟩ | rfl <;> exact h

theorem atPc_step (h : s.AtPc) (hu : s.Unlost) (hok : BetweenOk s a) (hs : s.step cb a = some t) :
    t.AtPc := by
  obtain ⟨rfl, hm⟩ | ⟨r, ret, rfl, hpc, -, rfl⟩ | ⟨x, v, rfl, hpc, rfl⟩ | ⟨sr, dr, rfl, rfl⟩ |
    ⟨thd, str, rfl, rfl⟩ := step_cases hs
  · exact atPc_move h hu hok hm
  · rw [AtPc, hpc] at h
    exact atPc_received h hok
  · rw [AtPc, hpc] at h
    exact h
  · exact h.mono (serveInterrupt_lineNext hok)
  · exact h

/-- The parser stays at the start of a line while a client is served. -/
theorem AtPc.serving (h : s.AtPc) {thd : Nat} (hs : s.pc.serving = some thd) :
    s.parser.Boundary := by
  unfold AtPc At at h
  unfold Pc.serving at hs
  split at hs
  · next hpc => rw [hpc] at h; exact h.1
  · next hpc => rw [hpc] at h; exact h.1
  · next hpc => rw [hpc] at h; exact h.1
  · next hpc => rw [hpc] at h; exact h rfl
  · next hpc => rw [hpc] at h; exact h rfl
  · next hpc => rw [hpc] at h; exact h rfl
  · next hpc => rw [hpc] at h; exact h rfl
  · next hpc => rw [hpc] at h; exact h rfl
  · next hpc => rw [hpc] at h; exact h rfl
  · next hpc => rw [hpc] at h; exact h.1
  · cases hs

theorem run_atPc (h : Reach (step cb) BetweenOk init s) : s.Unlost ∧ s.AtPc :=
  Reach.inv (I := fun s => s.Unlost ∧ s.AtPc) h ⟨init_queued, .inl rfl⟩ fun _ _ _ hi hok hs =>
    ⟨step_unlost hi.1 hok hs, atPc_step hi.2 hi.1 hok hs⟩

/-- **Clients are served between lines**, in every run whose steps meet `BetweenOk`: a message
is taken where a line starts and the parser is at a line boundary, where it stays while the
message is served; a line starts where the client is released, and what has left the input
queue in between is whole lines. -/
theorem served_whole_lines (h : Reach (step cb) BetweenOk init s) :
    (∀ thd, s.pc.serving = some thd → s.parser.Boundary) ∧
    (s.pc = .msgWait → s.parser.Boundary ∧ LineNext s.sd ∧
      ∀ t thd st buf, Reach (step cb) BetweenOk s t → t.pc = .release thd st buf →
        LineNext t.sd ∧ WholeLines ((t.sd.wire.take (position t.sd)).drop (position s.sd))) := by
  obtain ⟨-, hinv⟩ := run_atPc h
  refine ⟨fun thd => hinv.serving, fun hpc => ?_⟩
  rw [AtPc, hpc] at hinv
  refine ⟨hinv.1, hinv.2, fun t thd st buf ht hpc' => ?_⟩
  obtain ⟨as, ht⟩ := ht
  obtain ⟨-, hinv'⟩ := run_atPc (h.steps ht)
  rw [AtPc, hpc'] at hinv'
  exact ⟨hinv'.2, hinv'.2.whole _⟩

/-- The line `a` is answered, then a client reads the line `b`. -/
theorem served_whole_lines_after_line :
    ∃ s t : Sys Main.Point, Reach (step Main.callback) BetweenOk init s ∧ s.sd.wire = ascii "a\n" ∧
      s.parser.Boundary ∧ t.pc = .release 7 .ok (ascii "b") ∧ LineNext t.sd ∧
      WholeLines ((t.sd.wire.take (position t.sd)).drop (position s.sd)) := by
  obtain ⟨s, hr, hp⟩ := reach_of_exec (step Main.callback) BetweenOk init
    (script [(1, .thread), (1, .rx 97), (4, .thread), (1, .client 7 []), (1, .rx 10), (15, .thread),
      (10, .tx), (3, .thread)])
    (fun s => decide (s.pc = .msgWait) && decide (s.sd.wire = ascii "a\n") &&
      (exec (step Main.callback) BetweenOk s
        (script [(1, .thread), (1, .rx 98), (1, .rx 10), (2, .thread)])).any fun t : Sys Main.Point =>
          decide (t.pc = .release 7 .ok (ascii "b"))) (by decide +kernel)
  simp only [Bool.and_eq_true, decide_eq_true_eq] at hp
  obtain ⟨⟨hpc, hw⟩, ht⟩ := hp
  obtain ⟨t, ht, hp⟩ := reach_of_exec _ _ _ _ _ ht
  rw [decide_eq_true_eq] at hp
  obtain ⟨hb, -, hrel⟩ := (served_whole_lines hr).2 hpc
  exact ⟨s, t, hr, hw, hb, hp, hrel t _ _ _ ht hp⟩

/-- A line starts with a space: the loop takes a message inside it. -/
theorem served_inside_line :
    ∃ s, Reach (step Main.callback) Always init s ∧ s.pc = .msgWait ∧
      s.parser.readId = false ∧ ¬ LineNext s.sd := by
  obtain ⟨s, hr, hp⟩ := reach_of_exec (step Main.callback) Always init
    (script [(1, .thread), (1, .rx 32), (3, .thread), (1, .client 7 []), (2, .thread)])
    (fun s => decide (s.pc = .msgWait ∧ s.parser.readId = false ∧ ¬ LineNext s.sd))
    (by decide +kernel)
  exact ⟨s, hr, of_decide_eq_true hp⟩

end Sys

end RobotPws.Wifly
