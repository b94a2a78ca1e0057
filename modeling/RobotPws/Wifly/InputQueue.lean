import RobotPws.Wifly.Moves

/-!
# The input queue of the wifly thread

`Queued s Q` says that the bytes `Q`, with their numbers on the wire, are in the input
queue, also while it is being reset, and `QueueMove` what a step does to them: nothing, one is
dequeued, the queue is emptied, a byte arrives or one is lost. `queue_move` reads every step as
one of these, as long as no byte is received between the stores of a reset.
-/

namespace RobotPws.Wifly

open RobotPws.Lib RobotPws.Kernel RobotPws.Hal

/-- Who dequeues a byte. -/
inductive Reader where
  | client
  | loop
  deriving DecidableEq, Repr

namespace Pc

variable {σ : Type}

/-- For whom a byte is dequeued at this point; the callback runs in the loop. -/
def reader : Pc σ → Option Reader
  | .getByte | .drain _ (.callback _) | .recvGet _ (.callback _) => some .loop
  | .drain _ (.release _) | .recvGet _ (.release _) => some .client
  | _ => none

/-- The input queue is about to be reset. -/
def resets : Pc σ → Bool
  | .iqReset .wrptr _ => true
  | _ => false

end Pc

/-! ## The wire -/

/-- The bytes on the wire from number `W` on. -/
def numbered (wire : List UInt8) (W : Nat) : List Rx :=
  (wire.zipIdx.drop W).map fun p => ⟨p.1, p.2⟩

theorem numbered_snoc {wire : List UInt8} {W : Nat} (h : W ≤ wire.length) (b : UInt8) :
    numbered (wire ++ [b]) W = numbered wire W ++ [⟨b, wire.length⟩] := by
  rw [numbered, List.zipIdx_append, List.drop_append_of_le_length (by simpa using h),
    List.map_append, numbered]
  simp

theorem numbered_length (wire : List UInt8) : numbered wire wire.length = [] := by
  rw [numbered, List.drop_of_length_le (by simp)]
  rfl

theorem numbered_cons {wire : List UInt8} {W : Nat} {x : Rx} {Q : List Rx}
    (h : numbered wire W = x :: Q) :
    wire[W]? = some x.byte ∧ W < wire.length ∧ Q = numbered wire (W + 1) := by
  have hlt : W < wire.length := by
    by_contra hge
    rw [numbered, List.drop_of_length_le (by rw [List.length_zipIdx]; omega)] at h
    cases h
  rw [numbered, List.drop_eq_getElem_cons (by rw [List.length_zipIdx]; exact hlt),
    List.map_cons] at h
  obtain ⟨rfl, rfl⟩ := List.cons.inj h
  exact ⟨by simp [hlt], hlt, rfl⟩

/-! ## The interrupt -/

/-- The input queue and the wire stay as they are. -/
def SameInput (d d' : SerialDriver) : Prop := d'.iqueue = d.iqueue ∧ d'.wire = d.wire

theorem SameInput.trans {d d' d'' : SerialDriver} (h : SameInput d d') (h' : SameInput d' d'') :
    SameInput d d'' := ⟨h'.1.trans h.1, h'.2.trans h.2⟩

theorem SameInput.ite {d d' : SerialDriver} (h : SameInput d d') (c : Bool) :
    SameInput d (if c then d' else d) := by
  cases c
  · exact ⟨rfl, rfl⟩
  · exact h

theorem sameInput_addErrorI (d : SerialDriver) (f : FlagsMask) : SameInput d (d.addErrorI f) := by
  simp [SameInput, SerialDriver.addErrorI]

theorem sameInput_transmitI (d : SerialDriver) : SameInput d d.transmitI := by
  unfold SerialDriver.transmitI
  split
  · exact ⟨rfl, rfl⟩
  · simp [SameInput]

/-- An interrupt that finds no byte leaves the input queue alone. -/
theorem serveInterrupt_no_rx (d : SerialDriver) {sr : SR} (h : sr.rxne = false) (dr : UInt8) :
    (d.serveInterrupt sr dr).iqueue = d.iqueue ∧ (d.serveInterrupt sr dr).wire = d.wire := by
  refine SerialDriver.serveInterrupt_keeps
    (fun d' => d'.iqueue = d.iqueue ∧ d'.wire = d.wire) ?_ (fun _ _ hd => hd) ?_
    (fun _ _ _ _ hd => hd) ⟨rfl, rfl⟩ dr
  · intro d' f _ hd
    simpa using hd
  · intro hr
    rw [h] at hr; cases hr

theorem serveInterrupt_rx (d : SerialDriver) {sr : SR} (h : sr.rxne = true) (dr : UInt8) :
    (d.serveInterrupt sr dr).wire = d.wire ++ [dr] ∧
      (d.serveInterrupt sr dr).iqueue =
        (d.iqueue.chIQPutI ⟨dr, d.wire.length⟩).getD d.iqueue := by
  obtain ⟨d', hd, he⟩ : ∃ d', SameInput d d' ∧
      SameInput (d'.sdIncomingDataI dr) (d.serveInterrupt sr dr) := by
    unfold SerialDriver.serveInterrupt
    rw [h]
    refine ⟨_, ?_, ((sameInput_transmitI _).ite _).trans (SameInput.ite ?_ _)⟩
    · exact ((sameInput_addErrorI _ _).ite _).trans ((sameInput_addErrorI _ _).ite _)
    · simp [SameInput]
  rw [he.1, he.2, ← hd.1, ← hd.2]
  obtain ⟨q, hq, -, he⟩ | ⟨q, hq, -, he⟩ | ⟨hq, -, he⟩ := d'.sdIncomingDataI_cases dr <;>
    rw [he, hq] <;> simp [SerialDriver.addErrorI]

/-! ## The queue -/

namespace Sys

variable {ω σ : Type} {cb : ProtocolCallback ω σ} {s t : Sys σ} {Q : List Rx}

/-- `Q` is queued, also while it is being reset. -/
structure Queued (s : Sys σ) (Q : List Rx) : Prop where
  holds : stores s.pc = 0 → GenericQueue.IQHolds s.sd.iqueue Q
  wrptr : stores s.pc ≠ 0 → s.sd.iqueue.qWrptr = 0
  rdptr : stores s.pc = 2 → s.sd.iqueue.qRdptr = 0

theorem init_queued : (init : Sys σ).Queued [] :=
  ⟨fun _ => GenericQueue.IQHolds.init (by decide) _, fun h => absurd rfl h, fun _ => rfl⟩

theorem Move.of_reader (hm : Move cb s t) (h : s.pc.reader ≠ none) :
    t.sd = s.dequeued.sd ∧ stores s.pc = 0 ∧ stores t.pc = 0 := by
  cases hm with
  | byte hpc => exact ⟨rfl, by rw [hpc]; rfl, by cases s.fed.2 <;> rfl⟩
  | drained r ret hpc => exact ⟨rfl, by rw [hpc]; rfl, rfl⟩
  | drainByte r ret rx hpc | recvByte r ret rx hpc =>
    exact ⟨recvByte_sd .., by rw [hpc]; rfl, stores_recvByte _ _ _ _ _ fun _ => rfl⟩
  | recvNothing r ret hpc => exact ⟨received_sd .., by rw [hpc]; rfl, stores_received ..⟩
  | recvEvent r ret hpc => rcases hpc with hpc | hpc <;> rw [hpc] at h <;> exact absurd rfl h
  | register hpc | takeMessage hpc | listen hpc | readRequest _ _ hpc | sendRequest _ _ _ hpc
  | event hpc | noEvent hpc | inputFlag hpc | errorFlags hpc | otherFlags hpc | call hpc
  | returnAnswer _ _ hpc | returnMessage _ hpc | callbackSendEmpty _ hpc | callbackSend _ _ hpc
  | callbackRead _ hpc | put _ _ _ _ hpc | sendEvent _ hpc | sendDone _ hpc | sendMore _ hpc
  | recvSleep _ _ hpc | recvInput _ _ hpc | recvError _ _ hpc | recvOther _ _ hpc
  | release _ _ _ hpc | iqResetWrptr _ hpc | iqResetRdptr _ hpc | iqResetCounter _ hpc
  | oqReset _ _ hpc => rw [hpc] at h; exact absurd rfl h

theorem Move.of_no_reader (hm : Move cb s t) (h : s.pc.reader = none) :
    (t.sd.iqueue = s.sd.iqueue ∧ t.sd.wire = s.sd.wire ∧ stores t.pc = stores s.pc) ∨
    ∃ k ret, s.pc = .iqReset k ret ∧ t.sd.iqueue = s.sd.iqueue.chIQResetI k ∧
      t.sd.wire = s.sd.wire ∧ stores t.pc = (stores s.pc + 1) % 3 := by
  cases hm.queue with
  | same h1 h2 h3 => exact .inl ⟨h1, h2, h3⟩
  | reset k ret _ hpc h1 h2 h3 => exact .inr ⟨k, ret, hpc, h1, h2, h3⟩
  | usart _ _ ha => cases ha
  | get _ hw h0 h0' =>
    refine .inl ⟨?_, hw, by omega⟩
    cases hm with
    | byte hpc => rw [hpc] at h; cases h
    | drained _ ret hpc | drainByte _ ret _ hpc | recvByte _ ret _ hpc | recvNothing _ ret hpc =>
      rw [hpc] at h
      cases ret <;> cases h
    | iqResetWrptr | iqResetRdptr => cases h0'
    | iqResetCounter ret hpc => rw [hpc] at h0; cases h0
    | put b bs ret d hpc hd =>
      obtain ⟨q, -, rfl⟩ := Option.map_eq_some_iff.1 hd
      rfl
    | sendDone ret => rw [sent_sd]; rfl
    | recvError r ret => rw [received_sd]; rfl
    | register | takeMessage | listen | readRequest | sendRequest | event | noEvent | inputFlag
    | errorFlags | otherFlags | call | returnAnswer | returnMessage | callbackSendEmpty
    | callbackSend | callbackRead | sendEvent | sendMore | recvEvent | recvSleep | recvInput
    | recvOther | release | oqReset => rfl

/-- What becomes of the queued bytes. -/
inductive QueueMove (s : Sys σ) (a : Act) (t : Sys σ) (Q : List Rx) : List Rx → Prop where
  | same : t.sd.wire = s.sd.wire →
      (a = .thread → s.pc.reader ≠ none → s.sd.sdGetTimeout.1 = none) →
      (stores t.pc ≠ 0 → stores s.pc ≠ 0 ∨ ∃ ret, a = .thread ∧ s.pc = .iqReset .wrptr ret) →
      QueueMove s a t Q Q
  | got (x : Rx) (Q' : List Rx) : a = .thread → s.pc.reader ≠ none → Q = x :: Q' →
      s.sd.sdGetTimeout.1 = some x → t.sd.wire = s.sd.wire → stores t.pc = 0 →
      QueueMove s a t Q Q'
  | emptied : s.pc.reader = none → stores s.pc = 2 → stores t.pc = 0 → t.sd.wire = s.sd.wire →
      QueueMove s a t Q []
  | arrived (sr : SR) (b : UInt8) : a = .usart sr b → t.sd.wire = s.sd.wire ++ [b] →
      stores t.pc = 0 → QueueMove s a t Q (Q ++ [⟨b, s.sd.wire.length⟩])
  | lost (sr : SR) (b : UInt8) : a = .usart sr b → sr.rxne = true →
      s.sd.iqueue.chIQIsFullI = true → t.sd.wire = s.sd.wire ++ [b] → QueueMove s a t Q Q

theorem QueueMove.wire_le {a : Act} {Q' : List Rx} (h : QueueMove s a t Q Q') :
    s.sd.wire.length ≤ t.sd.wire.length := by
  cases h with
  | same hw | got _ _ _ _ _ _ hw | emptied _ _ _ hw => rw [hw]
  | arrived _ _ _ hw | lost _ _ _ _ _ hw =>
    rw [hw, List.length_append]
    omega

theorem QueueMove.mem_of_read {Q' : List Rx} (h : QueueMove s .thread t Q Q')
    (hr : s.pc.reader ≠ none) {x : Rx} (hx : s.sd.sdGetTimeout.1 = some x) : x ∈ Q := by
  cases h with
  | same _ hn =>
    rw [hn rfl hr] at hx
    cases hx
  | got y Q' _ _ hQ hy =>
    rw [hQ, ← Option.some.inj (hy.symm.trans hx)]
    exact List.mem_cons_self
  | emptied hg => exact absurd hg hr
  | arrived sr b ha | lost sr b ha => cases ha

theorem QueueMove.mem {a : Act} {Q' : List Rx} (h : QueueMove s a t Q Q') {x : Rx} (hx : x ∈ Q') :
    x ∈ Q ∨ (x.seq = s.sd.wire.length ∧ s.sd.wire.length < t.sd.wire.length) := by
  cases h with
  | same | lost => exact .inl hx
  | got y Q' _ _ hQ => exact .inl (hQ ▸ List.mem_cons_of_mem _ hx)
  | emptied => cases hx
  | arrived sr b _ hw =>
    refine (List.mem_append.1 hx).imp id fun hx => ?_
    rw [List.mem_singleton.1 hx, hw, List.length_append]
    exact ⟨rfl, by simp⟩

theorem Queued.same {a : Act} (h : s.Queued Q) (hq : t.sd.iqueue = s.sd.iqueue)
    (hw : t.sd.wire = s.sd.wire) (hst : stores t.pc = stores s.pc)
    (hg : a = .thread → s.pc.reader = none) : ∃ Q', t.Queued Q' ∧ QueueMove s a t Q Q' := by
  refine ⟨Q, ⟨?_, ?_, ?_⟩, .same hw (fun ha hg' => ?_) fun h0 => .inl (hst ▸ h0)⟩
  · rw [hst, hq]; exact h.holds
  · rw [hst, hq]; exact h.wrptr
  · rw [hst, hq]; exact h.rdptr
  · exact absurd (hg ha) hg'

theorem Queued.read (h : s.Queued Q) (hm : Move cb s t) (hg : s.pc.reader ≠ none) :
    ∃ Q', t.Queued Q' ∧ QueueMove s .thread t Q Q' := by
  obtain ⟨hsd, h0, h0'⟩ := hm.of_reader hg
  have hholds := h.holds h0
  cases Q with
  | nil =>
    have hget := hholds.get_nil
    refine ⟨[], ⟨fun _ => ?_, fun hne => absurd h0' hne, fun h2 => by omega⟩,
      .same (by rw [hsd]; rfl) (fun _ _ => by rw [SerialDriver.sdGetTimeout, hget])
        fun hne => absurd h0' hne⟩
    rw [hsd, dequeued, SerialDriver.sdGetTimeout, hget]
    exact hholds
  | cons x Q =>
    obtain ⟨q', hget, hq'⟩ := hholds.get_cons
    refine ⟨Q, ⟨fun _ => ?_, fun hne => absurd h0' hne, fun h2 => by omega⟩,
      .got x Q rfl hg rfl (by rw [SerialDriver.sdGetTimeout, hget]) (by rw [hsd]; rfl) h0'⟩
    rw [hsd, dequeued, SerialDriver.sdGetTimeout, hget]
    exact hq'

/-- A store of the reset: the queue is empty after the last of the three. -/
theorem Queued.reset (h : s.Queued Q) {k : QReset} {ret : ResetRet σ} (hpc : s.pc = .iqReset k ret)
    (hg : s.pc.reader = none) (hq : t.sd.iqueue = s.sd.iqueue.chIQResetI k)
    (hw : t.sd.wire = s.sd.wire) (hst : stores t.pc = (stores s.pc + 1) % 3) :
    ∃ Q', t.Queued Q' ∧ QueueMove s .thread t Q Q' := by
  cases k with
  | wrptr =>
    have hs0 : stores s.pc = 0 := by rw [hpc]; rfl
    rw [hs0] at hst
    exact ⟨Q, ⟨fun h0 => by omega, fun _ => by rw [hq]; rfl, fun h2 => by omega⟩,
      .same hw (fun _ hg' => absurd hg hg') fun _ => .inr ⟨ret, rfl, hpc⟩⟩
  | rdptr =>
    have hs1 : stores s.pc = 1 := by rw [hpc]; rfl
    rw [hs1] at hst
    refine ⟨Q, ⟨fun h0 => by omega, fun _ => ?_, fun _ => by rw [hq]; rfl⟩,
      .same hw (fun _ hg' => absurd hg hg') fun _ => .inl (by omega)⟩
    rw [hq]
    exact h.wrptr (by omega)
  | counter =>
    have hs2 : stores s.pc = 2 := by rw [hpc]; rfl
    rw [hs2] at hst
    refine ⟨[], ⟨fun _ => ?_, fun hne => absurd hst hne, fun h2 => by omega⟩,
      .emptied hg hs2 hst hw⟩
    rw [hq]
    exact GenericQueue.IQHolds.reset (by decide) (h.wrptr (by omega)) (h.rdptr hs2)

/-- An interrupt with a received byte: it is queued, or lost where the queue is full. -/
theorem Queued.receive (h : s.Queued Q) {sr : SR} (hr : sr.rxne = true) (dr : UInt8)
    (h0 : stores s.pc = 0) :
    ∃ Q', Queued { s with sd := s.sd.serveInterrupt sr dr } Q' ∧
      QueueMove s (.usart sr dr) { s with sd := s.sd.serveInterrupt sr dr } Q Q' := by
  obtain ⟨hw, hi⟩ := serveInterrupt_rx s.sd hr dr
  have hrest : ∀ Q', GenericQueue.IQHolds (s.sd.serveInterrupt sr dr).iqueue Q' →
      Queued { s with sd := s.sd.serveInterrupt sr dr } Q' := fun Q' hq =>
    ⟨fun _ => hq, fun hne => absurd h0 hne, fun h2 => by
      have h2 : stores s.pc = 2 := h2
      omega⟩
  cases hp : s.sd.iqueue.chIQPutI ⟨dr, s.sd.wire.length⟩ with
  | none =>
    rw [hp, Option.getD_none] at hi
    refine ⟨Q, hrest Q (hi ▸ h.holds h0), .lost sr dr rfl hr ?_ hw⟩
    exact (h.holds h0).full_iff.2 ((h.holds h0).put_full hp)
  | some q =>
    rw [hp, Option.getD_some] at hi
    exact ⟨_, hrest _ (hi ▸ (h.holds h0).put hp), .arrived sr dr rfl hw h0⟩

theorem queue_move {a : Act} (h : s.Queued Q)
    (hrx : ∀ sr b, a = .usart sr b → sr.rxne = true → stores s.pc = 0)
    (hs : s.step cb a = some t) : ∃ Q', t.Queued Q' ∧ QueueMove s a t Q Q' := by
  obtain ⟨rfl, hm⟩ | ⟨r, ret, rfl, hpc, -, rfl⟩ | ⟨x, v, rfl, hpc, rfl⟩ | ⟨sr, dr, rfl, rfl⟩ |
    ⟨thd, str, rfl, rfl⟩ := step_cases hs
  · by_cases hg : s.pc.reader = none
    · obtain ⟨hq, hw, hst⟩ | ⟨k, ret, hpc, hq, hw, hst⟩ := hm.of_no_reader hg
      · exact h.same hq hw hst fun _ => hg
      · exact h.reset hpc hg hq hw hst
    · exact h.read hm hg
  · exact h.same (by rw [received_sd]) (by rw [received_sd])
      (by rw [hpc, stores_received]; rfl) fun ha => by cases ha
  · exact h.same rfl rfl (by rw [hpc]; rfl) fun ha => by cases ha
  · cases hr : sr.rxne with
    | false =>
      obtain ⟨hi, hw⟩ := serveInterrupt_no_rx s.sd hr dr
      exact h.same hi hw rfl fun ha => by cases ha
    | true => exact h.receive hr dr (hrx sr dr rfl hr)
  · exact h.same rfl rfl rfl fun ha => by cases ha

end Sys

end RobotPws.Wifly
