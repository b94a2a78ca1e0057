import RobotPws.Wifly.InputQueue
import RobotPws.Wifly.Outgoing

/-!
# Over-long lines

A line that overflows a buffer is discarded, with the bytes queued at that
moment. Two bytes are of different lines when a newline was received between
them (`Between`). `Ordered` follows the numbers of the bytes through the queue
and the parser: whatever can still be read comes after a newline that follows
everything called or discarded so far. It holds in the runs in which the end
of an over-long line is received before the reset that discards it, and no
byte is received between the stores of a reset (`DiscardOk`). Each line discarded has been
answered by one `*OVERFLOW*`, which has been put as a whole.
-/

namespace RobotPws.Wifly

open RobotPws.Lib RobotPws.Kernel RobotPws.Hal

variable {ω σ : Type} {cb : ProtocolCallback ω σ}

/-! ## Lines on the wire -/

/-- A newline was received at or after byte `k` and before byte `k'`. -/
def Between (wire : List UInt8) (k k' : Nat) : Prop := ∃ n, k ≤ n ∧ n < k' ∧ wire[n]? = some 10

theorem Between.mono {wire wire' : List UInt8} {k m m' : Nat} (h : Between wire k m)
    (hw : wire <+: wire') (hm : m ≤ m') : Between wire' k m' := by
  obtain ⟨n, h1, h2, h3⟩ := h
  refine ⟨n, h1, by omega, ?_⟩
  obtain ⟨v, rfl⟩ := hw
  rw [List.getElem?_append_left (List.getElem?_eq_some_iff.1 h3).1, h3]

theorem between_of_mem_drop {wire : List UInt8} {k : Nat} (h : 10 ∈ wire.drop k) :
    Between wire k wire.length := by
  obtain ⟨n, hn, he⟩ := List.mem_iff_getElem.1 h
  rw [List.length_drop] at hn
  refine ⟨k + n, Nat.le_add_right .., by omega, ?_⟩
  rw [List.getElem_drop] at he
  rw [List.getElem?_eq_getElem (by omega), he]

/-- The numbers of the bytes that can still be read: those queued and the next
one to be received. -/
def coming (wire : List UInt8) (Q : List Rx) : List Nat := Q.map Rx.seq ++ [wire.length]

/-- The queued bytes `Q` are in order, all of them come after the bytes in
`H`, and on later lines than those in `D`. -/
structure Coming (H D : Nat → Prop) (wire : List UInt8) (Q : List Rx) : Prop where
  bytes : ∀ x ∈ Q, wire[x.seq]? = some x.byte
  sorted : (coming wire Q).Pairwise (· < ·)
  after : ∀ k, H k → ∀ m ∈ coming wire Q, k < m
  later : ∀ k, D k → ∀ m ∈ coming wire Q, Between wire k m

namespace Coming

variable {H D H' D' : Nat → Prop} {wire : List UInt8} {Q : List Rx} {x : Rx} {b : UInt8}

theorem length_mem : wire.length ∈ coming wire Q := by simp [coming]

theorem mono (h : Coming H D wire Q) (hH : ∀ k, H' k → H k) (hD : ∀ k, D' k → D k) :
    Coming H' D' wire Q :=
  ⟨h.bytes, h.sorted, fun k hk => h.after k (hH k hk), fun k hk => h.later k (hD k hk)⟩

theorem tail (h : Coming H D wire (x :: Q)) : Coming H D wire Q := by
  have hmem : ∀ m ∈ coming wire Q, m ∈ coming wire (x :: Q) := fun m hm => List.mem_cons_of_mem _ hm
  exact ⟨fun y hy => h.bytes y (List.mem_cons_of_mem _ hy), (List.pairwise_cons.1 h.sorted).2,
    fun k hk m hm => h.after k hk m (hmem m hm), fun k hk m hm => h.later k hk m (hmem m hm)⟩

theorem reset (h : Coming H D wire Q) : Coming H D wire [] := by
  have hmem : ∀ m ∈ coming wire [], m ∈ coming wire Q := by
    intro m hm
    rw [show m = wire.length by simpa [coming] using hm]
    exact length_mem
  exact ⟨by simp, by simp [coming], fun k hk m hm => h.after k hk m (hmem m hm),
    fun k hk m hm => h.later k hk m (hmem m hm)⟩

theorem receive (h : Coming H D wire Q) : Coming H D (wire ++ [b]) (Q ++ [⟨b, wire.length⟩]) := by
  have hpre : wire <+: wire ++ [b] := List.prefix_append ..
  have hc : coming (wire ++ [b]) (Q ++ [⟨b, wire.length⟩]) =
      coming wire Q ++ [wire.length + 1] := by
    simp [coming]
  refine ⟨?_, ?_, ?_, ?_⟩
  · intro y hy
    rcases List.mem_append.1 hy with hy | hy
    · obtain ⟨hlt, -⟩ := List.getElem?_eq_some_iff.1 (h.bytes y hy)
      rw [List.getElem?_append_left hlt, h.bytes y hy]
    · rw [List.mem_singleton.1 hy]; simp
  · rw [hc, List.pairwise_append]
    refine ⟨h.sorted, by simp, ?_⟩
    intro m hm m' hm'
    rw [List.mem_singleton.1 hm']
    rcases List.mem_append.1 hm with hm | hm
    · have hs := List.pairwise_append.1 h.sorted
      have := hs.2.2 m hm wire.length (by simp)
      omega
    · rw [List.mem_singleton.1 hm]; omega
  · intro k hk m hm
    rw [hc] at hm
    rcases List.mem_append.1 hm with hm | hm
    · exact h.after k hk m hm
    · have := h.after k hk wire.length length_mem
      rw [List.mem_singleton.1 hm]; omega
  · intro k hk m hm
    rw [hc] at hm
    rcases List.mem_append.1 hm with hm | hm
    · exact (h.later k hk m hm).mono hpre (Nat.le_refl _)
    · rw [List.mem_singleton.1 hm]
      exact (h.later k hk _ length_mem).mono hpre (Nat.le_succ _)

theorem lose (h : Coming H D wire Q) : Coming H D (wire ++ [b]) Q := by
  have hr := h.receive (b := b)
  have hmem : ∀ m ∈ coming (wire ++ [b]) Q,
      m ∈ coming (wire ++ [b]) (Q ++ [⟨b, wire.length⟩]) := by
    intro m hm
    simp only [coming, List.map_append, List.mem_append] at hm ⊢
    tauto
  refine ⟨fun y hy => hr.bytes y (List.mem_append_left _ hy), ?_,
    fun k hk m hm => hr.after k hk m (hmem m hm), fun k hk m hm => hr.later k hk m (hmem m hm)⟩
  refine hr.sorted.sublist ?_
  simp [coming]

theorem read (h : Coming H D wire (x :: Q)) :
    Coming (fun k => H k ∨ k = x.seq) D wire Q := by
  refine ⟨h.tail.bytes, h.tail.sorted, ?_, h.tail.later⟩
  rintro k (hk | rfl) m hm
  · exact h.tail.after k hk m hm
  · exact (List.pairwise_cons.1 h.sorted).1 m hm

/-- A newline is read: what was held ends before everything that comes. -/
theorem newline (h : Coming H D wire (x :: Q)) (hx : x.byte = 10) :
    Coming H (fun k => D k ∨ H k) wire Q := by
  refine ⟨h.tail.bytes, h.tail.sorted, h.tail.after, ?_⟩
  rintro k (hk | hk) m hm
  · exact h.tail.later k hk m hm
  · exact ⟨x.seq, Nat.le_of_lt (h.after k hk x.seq (List.mem_cons_self ..)),
      (List.pairwise_cons.1 h.sorted).1 m hm, by rw [h.bytes x (List.mem_cons_self ..), hx]⟩

end Coming

/-! ## The interrupt -/

theorem serveInterrupt_coming {H D : Nat → Prop} {d : SerialDriver} {Q : List Rx}
    (hq : GenericQueue.IQHolds d.iqueue Q) (h : Coming H D d.wire Q) (sr : SR) (dr : UInt8) :
    ∃ Q', GenericQueue.IQHolds (d.serveInterrupt sr dr).iqueue Q' ∧
      Coming H D (d.serveInterrupt sr dr).wire Q' ∧ d.wire <+: (d.serveInterrupt sr dr).wire := by
  refine SerialDriver.serveInterrupt_keeps
    (fun d' => ∃ Q', GenericQueue.IQHolds d'.iqueue Q' ∧ Coming H D d'.wire Q' ∧
      d.wire <+: d'.wire) ?_ (fun _ _ hd => hd) ?_ (fun _ _ _ _ hd => hd)
    ⟨Q, hq, h, List.prefix_refl _⟩ dr
  · intro d' f _ hd
    simpa using hd
  · rintro - d' b ⟨Q', hq', h', hw⟩
    have hw' : d.wire <+: d'.wire ++ [b] := hw.trans (List.prefix_append ..)
    obtain ⟨q, hq, -, he⟩ | ⟨q, hq, -, he⟩ | ⟨-, -, he⟩ := d'.sdIncomingDataI_cases b <;> rw [he]
    · exact ⟨_, hq'.put hq, by simpa using h'.receive, by simpa using hw'⟩
    · exact ⟨_, hq'.put hq, h'.receive, hw'⟩
    · exact ⟨_, by simpa [SerialDriver.addErrorI] using hq',
        by simpa [SerialDriver.addErrorI] using h'.lose,
        by simpa [SerialDriver.addErrorI] using hw'⟩

/-! ## The machine -/

/-- The numbers of the bytes some cells came from. -/
def srcs (cells : List Cell) : List Nat := cells.filterMap Cell.src

theorem mem_srcs {cells : List Cell} {k : Nat} : k ∈ srcs cells ↔ ∃ c ∈ cells, c.src = some k := by
  simp [srcs]

theorem srcs_mono {cells cells' : List Cell} (h : ∀ c ∈ cells, c ∈ cells') {k : Nat}
    (hk : k ∈ srcs cells) : k ∈ srcs cells' := by
  obtain ⟨c, hc, hs⟩ := mem_srcs.1 hk
  exact mem_srcs.2 ⟨c, h c hc, hs⟩

namespace Sys

/-- No byte is received between the stores of a reset of the input queue, and
when the reset for an overflow empties the queue the end of that line has been
received. -/
def DiscardOk (s : Sys σ) : Act → Prop
  | .usart sr _ => stores s.pc ≠ 0 → sr.rxne = false
  | .thread =>
    match s.pc with
    | .iqReset .counter .overflow => ∀ k ∈ srcs s.parser.held, 10 ∈ s.sd.wire.drop k
    | _ => True
  | _ => True

instance (s : Sys σ) (a : Act) : Decidable (DiscardOk s a) :=
  match a with
  | .thread =>
    match s with
    | { pc, .. } =>
      match pc with
      | .iqReset .counter .overflow => by dsimp only [DiscardOk]; infer_instance
      | .register | .top | .msgWait | .evtWait | .getFlags | .getByte | .call | .callback _
      | .send _ _ | .sendWait _ | .sendFlags _ | .drain _ _ | .recvWait _ _ | .recvSleep _ _
      | .recvFlags _ _ | .recvGet _ _ | .release _ _ _ | .iqReset .wrptr _ | .iqReset .rdptr _
      | .iqReset .counter .error | .iqReset .counter (.receive _ _) | .oqReset _ => .isTrue trivial
  | .usart _ _ => by dsimp only [DiscardOk]; infer_instance
  | .timeout | .result _ | .client _ _ => .isTrue trivial

/-- Byte `k` was given to the callback or discarded. -/
def Recorded (s : Sys σ) (k : Nat) : Prop := ∃ r ∈ s.calls ++ s.overflows, k ∈ srcs r

/-- Byte `k` is of a line that has ended. -/
def Done (s : Sys σ) (k : Nat) : Prop :=
  s.Recorded k ∨ (s.pc = .call ∧ k ∈ srcs s.parser.held)

structure Ordered (s : Sys σ) : Prop where
  callHeld : s.CallHeld
  queue : ∃ Q, (stores s.pc = 0 → GenericQueue.IQHolds s.sd.iqueue Q) ∧
    Coming (· ∈ srcs s.parser.held) s.Done s.sd.wire Q
  wrptr : stores s.pc ≠ 0 → s.sd.iqueue.qWrptr = 0
  rdptr : stores s.pc = 2 → s.sd.iqueue.qRdptr = 0
  /-- The line held, unless it is being answered, comes after everything
  recorded. -/
  fresh : s.pc.answering = false → ∀ k, s.Recorded k → ∀ k' ∈ srcs s.parser.held,
    Between s.sd.wire k k'
  apart : ∀ call ∈ s.calls, ∀ o ∈ s.overflows, ∀ k ∈ srcs call, ∀ k' ∈ srcs o,
    Between s.sd.wire k k' ∨ Between s.sd.wire k' k
  once : s.overflows.Pairwise fun o o' => ∀ k ∈ srcs o, ∀ k' ∈ srcs o', Between s.sd.wire k k'

theorem init_ordered : (init : Sys σ).Ordered where
  callHeld := init_callHeld
  queue := by
    refine ⟨[], fun _ => GenericQueue.IQHolds.init (by decide) _, ?_⟩
    refine ⟨by simp, by simp [coming], ?_, ?_⟩
    · simp [init, Parser.held, Parser.init, srcs]
    · rintro k (⟨r, hr, -⟩ | ⟨hc, -⟩)
      · cases hr
      · cases hc
  wrptr h := absurd rfl h
  rdptr _ := rfl
  fresh _ k hk := by obtain ⟨r, hr, -⟩ := hk; cases hr
  apart := by simp [init]
  once := by simp [init]

/-- What a step does to the queue, seen from the bytes held and done before
it. -/
structure QueueAfter (s t : Sys σ) (Q : List Rx) : Prop where
  holds : stores t.pc = 0 → GenericQueue.IQHolds t.sd.iqueue Q
  coming : Coming (· ∈ srcs s.parser.held) s.Done t.sd.wire Q
  wrptr : stores t.pc ≠ 0 → t.sd.iqueue.qWrptr = 0
  rdptr : stores t.pc = 2 → t.sd.iqueue.qRdptr = 0
  wire : s.sd.wire <+: t.sd.wire

theorem step_queueAfter {s t : Sys σ} {a : Act} (h : s.Ordered) (hok : DiscardOk s a)
    (hs : s.step cb a = some t) : ∃ Q, QueueAfter s t Q := by
  obtain ⟨Q, hq, hc⟩ := h.queue
  cases step_queue hs with
  | same he hw hst =>
    exact ⟨Q, fun h0 => he ▸ hq (hst ▸ h0), hw ▸ hc, fun h0 => he ▸ h.wrptr (hst ▸ h0),
      fun h0 => he ▸ h.rdptr (hst ▸ h0), hw ▸ List.prefix_refl _⟩
  | get he hw hst hst' =>
    have hq := hq hst
    cases Q with
    | nil =>
      refine ⟨[], fun _ => ?_, hw ▸ hc, fun h0 => absurd hst' h0, (fun h0 => by omega),
        hw ▸ List.prefix_refl _⟩
      rw [he, hq.get_nil]; exact hq
    | cons x Q =>
      obtain ⟨q', hg, hq'⟩ := hq.get_cons
      refine ⟨Q, fun _ => ?_, hw ▸ hc.tail, fun h0 => absurd hst' h0, (fun h0 => by omega),
        hw ▸ List.prefix_refl _⟩
      rw [he, hg]; exact hq'
  | reset k ret _ hpc he hw hst =>
    cases k with
    | wrptr =>
      rw [show stores s.pc = 0 by rw [hpc]; rfl] at hst
      exact ⟨Q, fun h0 => by omega, hw ▸ hc, fun _ => he ▸ rfl, fun h0 => by omega,
        hw ▸ List.prefix_refl _⟩
    | rdptr =>
      rw [show stores s.pc = 1 by rw [hpc]; rfl] at hst
      exact ⟨Q, fun h0 => by omega, hw ▸ hc,
        fun _ => he ▸ h.wrptr (by rw [hpc]; simp [stores]), fun _ => he ▸ rfl,
        hw ▸ List.prefix_refl _⟩
    | counter =>
      have hw0 := h.wrptr (by rw [hpc]; simp [stores])
      have hr0 := h.rdptr (by rw [hpc]; rfl)
      rw [show stores s.pc = 2 by rw [hpc]; rfl] at hst
      refine ⟨[], fun _ => ?_, hw ▸ hc.reset, fun h0 => absurd hst h0, fun h0 => by omega,
        hw ▸ List.prefix_refl _⟩
      rw [he]
      exact GenericQueue.IQHolds.reset (by decide) hw0 hr0
  | usart sr dr ha he =>
    subst he ha
    by_cases h0 : stores s.pc = 0
    · obtain ⟨Q', hq', hc', hw⟩ := serveInterrupt_coming (hq h0) hc sr dr
      exact ⟨Q', fun _ => hq', hc', fun h1 => absurd h0 h1, (fun h1 => by
        have h1 : stores s.pc = 2 := h1
        omega), hw⟩
    · obtain ⟨hi, hw⟩ := serveInterrupt_no_rx s.sd (hok h0) dr
      exact ⟨Q, fun h1 => absurd h1 h0, by simpa only [hw] using hc,
        fun _ => by simpa only [hi] using h.wrptr h0,
        fun h1 => by simpa only [hi] using h.rdptr h1, by simpa only [hw] using List.prefix_refl _⟩

theorem fed_srcs {s : Sys σ} {k : Nat} (hk : k ∈ srcs s.fed.1.held) :
    k ∈ srcs s.parser.held ∨ ∃ x, s.sd.sdGetTimeout.1 = some x ∧ k = x.seq := by
  obtain ⟨c, hc, hsrc⟩ := mem_srcs.1 hk
  rcases Parser.mem_held_feed hc with hc | ⟨rfl, -⟩
  · exact .inl (mem_srcs.2 ⟨c, hc, hsrc⟩)
  · obtain ⟨x, hx, rfl⟩ := Option.map_eq_some_iff.1 hsrc
    exact .inr ⟨x, hx, rfl⟩

/-- A call is due when the byte read is a newline, which does not join the
line. -/
theorem fed_command {s : Sys σ} (hv : s.fed.2 = .command) :
    (∃ x, s.sd.sdGetTimeout.1 = some x ∧ x.byte = 10) ∧
      ∀ k ∈ srcs s.fed.1.held, k ∈ srcs s.parser.held := by
  have hl := Parser.feed_command hv
  constructor
  · cases hg : s.sd.sdGetTimeout.1 with
    | none => rw [hg] at hl; cases hl
    | some x => rw [hg] at hl; exact ⟨x, rfl, inOf_lf hl⟩
  · intro k hk
    obtain ⟨c, hc, hsrc⟩ := mem_srcs.1 hk
    rcases Parser.mem_held_feed hc with hc | ⟨-, hkeep⟩
    · exact mem_srcs.2 ⟨c, hc, hsrc⟩
    · rw [hl] at hkeep; simp [Parser.keeps] at hkeep

theorem byte_ordered {s : Sys σ} (h : s.Ordered) (hcall : s.readByte.CallHeld)
    (hpc : s.pc = .getByte) : s.readByte.Ordered := by
  have hst' : stores s.readByte.pc = 0 := by
    simp only [readByte]; cases s.fed.2 <;> rfl
  obtain ⟨Q, hq, hc⟩ := h.queue
  have hq := hq (by rw [hpc]; rfl)
  have hfresh := h.fresh (by rw [hpc]; rfl)
  -- the queue afterwards, and the line with the byte taken from it
  have hread : ∃ Q', GenericQueue.IQHolds s.readByte.sd.iqueue Q' ∧
      Coming (· ∈ srcs s.fed.1.held) s.readByte.Done s.sd.wire Q' ∧
      ∀ k, s.Recorded k → ∀ x, s.sd.sdGetTimeout.1 = some x → Between s.sd.wire k x.seq := by
    cases Q with
    | nil =>
      have hg : s.sd.sdGetTimeout.1 = none := by
        simp only [SerialDriver.sdGetTimeout, hq.get_nil]
      refine ⟨[], ?_, hc.mono (fun k hk => ?_) (fun k hk => ?_), fun k _ x hx => ?_⟩
      · simp only [readByte, dequeued, SerialDriver.sdGetTimeout, hq.get_nil]
        exact hq
      · rcases fed_srcs hk with hk | ⟨x, hx, -⟩
        · exact hk
        · rw [hg] at hx; cases hx
      · rcases hk with hk | ⟨hc, -⟩
        · exact .inl hk
        · obtain ⟨x, hx, -⟩ := (fed_command (after_call hc)).1
          rw [hg] at hx; cases hx
      · rw [hg] at hx; cases hx
    | cons x Q =>
      obtain ⟨q', hget, hq'⟩ := hq.get_cons
      have hg : s.sd.sdGetTimeout.1 = some x := by
        simp only [SerialDriver.sdGetTimeout, hget]
      refine ⟨Q, ?_, ?_, fun k hk y hy => ?_⟩
      · simp only [readByte, dequeued, SerialDriver.sdGetTimeout, hget]
        exact hq'
      · by_cases hv : s.fed.2 = .command
        · obtain ⟨⟨y, hy, h10⟩, hsub⟩ := fed_command hv
          rw [hg] at hy; cases hy
          refine (hc.newline h10).mono hsub fun k hk => ?_
          exact hk.imp .inl fun hk => hsub k hk.2
        · refine hc.read.mono (fun k hk => (fed_srcs hk).imp_right ?_) fun k hk => ?_
          · rintro ⟨y, hy, rfl⟩
            rw [hg] at hy; cases hy; rfl
          · exact .inl (hk.resolve_right fun hk => hv (after_call hk.1))
      · rw [hg] at hy; cases hy
        exact hc.later k (.inl hk) x.seq (List.mem_cons_self ..)
  obtain ⟨Q', hq', hc', hnew⟩ := hread
  refine ⟨hcall, ⟨Q', fun _ => hq', hc'⟩, fun h0 => absurd hst' h0, (fun h0 => by omega), ?_,
    h.apart, h.once⟩
  intro _ k hk k' hk'
  rcases fed_srcs hk' with hk' | ⟨x, hx, rfl⟩
  · exact hfresh k hk k' hk'
  · exact hnew k hk x hx

/-- The reset for an overflow: the line held has ended, and nothing of it is
left to be read. -/
theorem discard_ordered {s : Sys σ} (h : s.Ordered) (hcall : s.discard.CallHeld) {Q : List Rx}
    (hQ : QueueAfter s s.discard Q) (hend : ∀ k ∈ srcs s.parser.held, 10 ∈ s.sd.wire.drop k)
    (hpc : s.pc = .iqReset .counter .overflow) : s.discard.Ordered := by
  have hfresh := h.fresh (by rw [hpc]; rfl)
  have hnil : Q = [] := List.length_eq_zero_iff.1 (hQ.holds rfl).counter.symm
  subst hnil
  have hdone : ∀ k, s.discard.Done k → s.Done k ∨ k ∈ srcs s.parser.held := by
    rintro k (⟨r, hr, hk⟩ | ⟨hc, -⟩)
    · rcases List.mem_append.1 hr with hr | hr
      · exact .inl (.inl ⟨r, List.mem_append_left _ hr, hk⟩)
      · rcases List.mem_append.1 hr with hr | hr
        · exact .inl (.inl ⟨r, List.mem_append_right _ hr, hk⟩)
        · rw [List.mem_singleton.1 hr] at hk
          exact .inr hk
    · cases hc
  refine ⟨hcall, ⟨[], hQ.holds, hQ.coming.bytes, hQ.coming.sorted, ?_, ?_⟩, hQ.wrptr, hQ.rdptr,
    (fun _ _ _ k' hk' => nomatch hk'), ?_, ?_⟩
  · exact fun k hk => nomatch hk
  · intro k hk m hm
    rcases hdone k hk with hk | hk
    · exact hQ.coming.later k hk m hm
    · rw [List.mem_singleton.1 hm]
      exact between_of_mem_drop (hend k hk)
  · intro call hcall o ho k hk k' hk'
    rcases List.mem_append.1 ho with ho | ho
    · exact h.apart call hcall o ho k hk k' hk'
    · rw [List.mem_singleton.1 ho] at hk'
      exact .inl (hfresh k ⟨call, List.mem_append_left _ hcall, hk⟩ k' hk')
  · refine List.pairwise_append.2 ⟨h.once, List.pairwise_singleton ..,
      fun o ho o' ho' k hk k' hk' => ?_⟩
    rw [List.mem_singleton.1 ho'] at hk'
    exact hfresh k ⟨o, List.mem_append_right _ ho, hk⟩ k' hk'

theorem step_ordered {s t : Sys σ} {a : Act} (h : s.Ordered) (hok : DiscardOk s a)
    (hs : s.step cb a = some t) : t.Ordered := by
  have hcall := step_callHeld h.callHeld hs
  obtain ⟨Q, hQ⟩ := step_queueAfter h hok hs
  have hmono : ∀ {k k'}, Between s.sd.wire k k' → Between t.sd.wire k k' :=
    fun hb => hb.mono hQ.wire (Nat.le_refl _)
  cases step_line hs with
  | same he =>
    have hrec : ∀ k, t.Recorded k → s.Recorded k := by
      rintro k ⟨r, hr, hk⟩
      rw [he.calls, he.overflows] at hr
      exact ⟨r, hr, hk⟩
    have hdone : ∀ k, t.Done k → s.Done k := by
      rintro k (hk | ⟨hc, hk⟩)
      · exact .inl (hrec k hk)
      · exact .inr ⟨he.call hc, he.parser ▸ hk⟩
    refine ⟨hcall, ⟨Q, hQ.holds, he.parser ▸ hQ.coming.mono (fun _ hk => hk) hdone⟩, hQ.wrptr,
      hQ.rdptr, fun ha k hk k' hk' => ?_, ?_, ?_⟩
    · exact hmono (h.fresh (he.answering ▸ ha) k (hrec k hk) k' (he.parser ▸ hk'))
    · rw [he.calls, he.overflows]
      exact fun call hc o ho k hk k' hk' => (h.apart call hc o ho k hk k' hk').imp hmono hmono
    · rw [he.overflows]
      exact h.once.imp fun hb k hk k' hk' => hmono (hb k hk k' hk')
  | new he =>
    have hheld : srcs t.parser.held = [] := by rw [he.boundary.held]; rfl
    have hdone : ∀ k, t.Done k → s.Done k := by
      rintro k (⟨r, hr, hk⟩ | ⟨hc, -⟩)
      · rw [he.calls, he.overflows] at hr
        exact .inl ⟨r, hr, hk⟩
      · exact absurd hc he.call
    refine ⟨hcall, ⟨Q, hQ.holds, hQ.coming.mono (fun k hk => ?_) hdone⟩, hQ.wrptr, hQ.rdptr,
      fun _ _ _ k' hk' => ?_, ?_, ?_⟩
    · rw [hheld] at hk; cases hk
    · rw [hheld] at hk'; cases hk'
    · rw [he.calls, he.overflows]
      exact fun call hc o ho k hk k' hk' => (h.apart call hc o ho k hk k' hk').imp hmono hmono
    · rw [he.overflows]
      exact h.once.imp fun hb k hk k' hk' => hmono (hb k hk k' hk')
  | byte _ hpc => exact byte_ordered h hcall hpc
  | call x _ hpc =>
    have hheld : ∀ {k}, k ∈ srcs s.parser.lineCells → k ∈ srcs s.parser.held :=
      srcs_mono (h.callHeld.2 hpc)
    refine ⟨hcall, ⟨Q, hQ.holds, hQ.coming.mono (fun _ hk => hk) ?_⟩, hQ.wrptr, hQ.rdptr,
      (fun ha => nomatch ha), ?_, h.once⟩
    · rintro k (⟨r, hr, hk⟩ | ⟨hc, -⟩)
      · simp only [List.append_assoc, List.mem_append, List.mem_singleton] at hr
        rcases hr with hr | rfl | hr
        · exact .inl ⟨r, List.mem_append_left _ hr, hk⟩
        · exact .inr ⟨hpc, hheld hk⟩
        · exact .inl ⟨r, List.mem_append_right _ hr, hk⟩
      · cases hc
    · intro call hc o ho k hk k' hk'
      rcases List.mem_append.1 hc with hc | hc
      · exact h.apart call hc o ho k hk k' hk'
      · rw [List.mem_singleton.1 hc] at hk
        exact .inr (h.fresh (by rw [hpc]; rfl) k' ⟨o, List.mem_append_right _ ho, hk'⟩ k (hheld hk))
  | discard ha hpc =>
    subst ha
    simp only [DiscardOk, hpc] at hok
    exact discard_ordered h hcall hQ hok hpc

/-! ## The main result -/

/-- No byte of the one is on a line of the other. -/
def Apart (wire : List UInt8) (cells cells' : List Cell) : Prop :=
  ∀ k ∈ srcs cells, ∀ k' ∈ srcs cells', Between wire k k' ∨ Between wire k' k

/-- Over-long lines are discarded as a whole. -/
structure OverlongDiscarded (s : Sys σ) : Prop where
  /-- No byte of such a line is given to the callback. -/
  uncalled : ∀ o ∈ s.overflows, ∀ call ∈ s.calls, Apart s.sd.wire o call
  /-- Each is answered once. -/
  once : s.overflows.Pairwise (Apart s.sd.wire)
  /-- While it is answered, nothing of it has been called or answered. -/
  answered : s.pc.overflowing = true → ∀ r ∈ s.calls ++ s.overflows, Apart s.sd.wire r s.parser.held
  /-- The parser goes on after its newline. -/
  resumed : s.pc = .getByte → ∀ x, s.sd.sdGetTimeout.1 = some x →
    ∀ o ∈ s.overflows, ∀ k ∈ srcs o, Between s.sd.wire k x.seq

theorem overflowing_not_answering {pc : Pc σ} (h : pc.overflowing = true) :
    pc.answering = false := by
  unfold Pc.overflowing at h
  split at h
  · next ret => cases ret <;> first | rfl | cases h
  · next ret => cases ret <;> first | rfl | cases h
  · next ret => cases ret <;> first | rfl | cases h
  · rfl
  · cases h

theorem Ordered.resumed {s : Sys σ} (h : s.Ordered) (hpc : s.pc = .getByte) {x : Rx}
    (hx : s.sd.sdGetTimeout.1 = some x) {k : Nat} (hk : s.Recorded k) :
    Between s.sd.wire k x.seq := by
  obtain ⟨Q, hq, hc⟩ := h.queue
  have hq := hq (by rw [hpc]; rfl)
  cases Q with
  | nil => simp [SerialDriver.sdGetTimeout, hq.get_nil] at hx
  | cons y Q =>
    obtain ⟨q', hget, -⟩ := hq.get_cons
    simp only [SerialDriver.sdGetTimeout, hget, Option.some.injEq] at hx
    subst hx
    exact hc.later k (.inl hk) y.seq (List.mem_cons_self ..)

/-! ## The answer to an over-long line -/

/-- `*OVERFLOW*`, sent by `wifly_loop` itself. -/
def overflowAnswer : List UInt8 × SendRet σ → Bool
  | (msg, .overflow) | (msg, .reply) => msg == ascii "*OVERFLOW*\r\n"
  | (_, .release _) | (_, .callback _) => false

/-- The lines answered so far: those discarded, and the one that will be. -/
def answeredLines (s : Sys σ) : Nat := s.overflows.length + s.pc.overflowing.toNat

theorem received_answered (s : Sys σ) (st : State) (r : Recv) (ret : RecvRet σ) :
    (s.received cb st r ret).answeredLines = s.overflows.length := by
  cases ret <;> rfl

theorem recvByte_answered (s : Sys σ) (r : Recv) (inn : Int) (ret : RecvRet σ)
    {again : Recv → RecvRet σ → Pc σ} (h : ∀ r, (again r ret).overflowing = false) :
    (recvByte cb s r inn ret again).answeredLines = s.overflows.length := by
  obtain ⟨-, he⟩ | ⟨-, -, he⟩ | ⟨-, -, he⟩ := recvByte_cases cb s r inn ret again <;> rw [he]
  · rfl
  · exact received_answered ..
  · simp only [answeredLines, h, Bool.toNat_false, Nat.add_zero]

/-- A step sends `*OVERFLOW*` exactly when it finds a line too long. -/
theorem move_answered {s t : Sys σ} (hm : Move cb s t) :
    t.answeredLines = s.answeredLines +
      ((s.called cb (.act .thread) t).filterMap OutEvent.toStart).countP overflowAnswer := by
  have hown := ownCalls_starts cb s
  cases hm with
  | register hpc | takeMessage hpc | listen hpc | readRequest _ _ hpc | sendRequest _ _ _ hpc
  | event hpc | noEvent hpc | inputFlag hpc | errorFlags hpc | otherFlags hpc | call hpc
  | returnMessage _ hpc | callbackSendEmpty _ hpc | callbackSend _ _ hpc | callbackRead _ hpc
  | sendEvent _ hpc | sendMore _ hpc | drained _ _ hpc | recvSleep _ _ hpc | recvInput _ _ hpc
  | recvOther _ _ hpc | release _ _ _ hpc =>
    simp only [called, answeredLines, hpc, List.filterMap_append, hown]
    rfl
  | iqResetWrptr ret hpc | iqResetRdptr ret hpc =>
    simp only [called, answeredLines, hpc, List.filterMap_append, hown]
    cases ret <;> rfl
  | put b bs ret d hpc =>
    simp only [called, answeredLines, hpc]
    by_cases hbs : bs = [] <;> simp only [hbs, ↓reduceIte] <;> rfl
  | byte hpc =>
    simp only [called, answeredLines, hpc, List.filterMap_append, hown, List.nil_append]
    cases s.fed.2 <;> rfl
  | returnAnswer x m hpc hr hne =>
    simp only [called, answeredLines, hpc, List.filterMap_append, hown, List.nil_append]
    cases m <;> rfl
  | sendDone ret hpc =>
    simp only [called, answeredLines, hpc, List.filterMap_append, hown, List.nil_append]
    cases ret <;> rfl
  | drainByte r ret rx hpc =>
    rw [recvByte_answered _ _ _ _ fun _ => rfl]
    simp only [called, answeredLines, hpc]
    rfl
  | recvByte r ret rx hpc =>
    rw [recvByte_answered _ _ _ _ fun _ => rfl]
    simp only [called, answeredLines, hpc, List.filterMap_append, hown, List.nil_append]
    rw [recvByte_starts _ _ _ _ fun _ => rfl]
    rfl
  | recvEvent r ret hpc =>
    rcases hpc with hpc | hpc <;>
      simp only [called, answeredLines, hpc, List.filterMap_append, hown] <;> rfl
  | recvError r ret hpc | recvNothing r ret hpc =>
    rw [received_answered]
    simp only [called, answeredLines, hpc, List.filterMap_append, hown, received_starts]
    rfl
  | iqResetCounter ret hpc =>
    simp only [called, answeredLines, hpc, List.filterMap_append, hown]
    rcases ret with _ | _ | ⟨r, _ | _⟩
    · simp [iqWasReset, Pc.entered, Pc.overflowing]
    all_goals rfl
  | oqReset k pc hpc hn =>
    simp only [called, answeredLines, hpc, List.filterMap_append, hown]
    rcases hn with ⟨k', rfl⟩ | rfl <;> rfl

theorem step_answered {s t : Sys σ} {lab : Label} (hs : s.apiStep cb lab = some t) :
    t.answeredLines = s.answeredLines +
      ((s.outEvents cb lab t).filterMap OutEvent.toStart).countP overflowAnswer := by
  rw [outEvents_starts]
  have hact := apiStep_act hs
  cases lab with
  | act a =>
    cases a with
    | thread => exact move_answered (threadStep_move hs)
    | timeout =>
      obtain ⟨h, -⟩ | ⟨r, ret, -, hpc, -, rfl⟩ | ⟨x, v, h, -⟩ | ⟨sr, dr, h, -⟩ | ⟨thd, str, h, -⟩ :=
        step_cases hact
      · cases h
      · rw [received_answered, answeredLines, hpc]
        rfl
      all_goals cases h
    | result =>
      obtain ⟨h, -⟩ | ⟨r, ret, h, -⟩ | ⟨x, v, -, hpc, rfl⟩ | ⟨sr, dr, h, -⟩ | ⟨thd, str, h, -⟩ :=
        step_cases hact
      · cases h
      · cases h
      · rw [answeredLines, answeredLines, hpc]
        rfl
      all_goals cases h
    | usart => cases hact; rfl
    | client => cases hs
  | call thd r =>
    obtain ⟨h, -⟩ | ⟨r, ret, h, -⟩ | ⟨x, v, h, -⟩ | ⟨sr, dr, h, -⟩ | ⟨thd, str, -, rfl⟩ :=
      step_cases hact
    all_goals first | rfl | cases h

/-- **An over-long line never becomes a command**, in every run in which its
end has been received when the queue is reset and no byte arrives inside a
reset. The loop has sent `*OVERFLOW*` once for each line discarded, and once for
the one it is answering. -/
theorem overlong_discarded {labs : List Label} {s : Sys σ}
    (h : Steps (apiStep cb) (LabelOk DiscardOk) init labs s) :
    s.OverlongDiscarded ∧ ∃ whole part,
      Outgoing s (observe (apiStep cb) (outEvents cb) init labs) whole part ∧
      (whole ++ s.pc.current part).countP overflowAnswer =
        s.overflows.length + s.pc.overflowing.toNat := by
  have ho : s.Ordered :=
    (steps_act h).inv (fun _ _ _ hi hok hs => step_ordered hi hok hs) init_ordered
  obtain ⟨whole, part, hout⟩ := run_outgoing h
  refine ⟨⟨?_, ?_, ?_, ?_⟩, whole, part, hout, ?_⟩
  · exact fun o hm call hc k hk k' hk' => (ho.apart call hc o hm k' hk' k hk).symm
  · exact ho.once.imp fun hb k hk k' hk' => .inl (hb k hk k' hk')
  · exact fun hpc r hr k hk k' hk' =>
      .inl (ho.fresh (overflowing_not_answering hpc) k ⟨r, hr, hk⟩ k' hk')
  · exact fun hpc x hx o hm k hk => ho.resumed hpc hx ⟨o, List.mem_append_right _ hm, hk⟩
  · rw [← hout.starts]
    have hstep : ∀ (s : Sys σ) (l : List (OutEvent σ)) (lab : Label) (t : Sys σ),
        (l.filterMap OutEvent.toStart).countP overflowAnswer = s.answeredLines →
        LabelOk DiscardOk s lab → s.apiStep cb lab = some t →
        ((l ++ s.outEvents cb lab t).filterMap OutEvent.toStart).countP overflowAnswer =
          t.answeredLines := by
      intro s l lab t hl _ hst
      rw [List.filterMap_append, List.countP_append, hl, ← step_answered hst]
    exact h.inv_observe hstep (l := []) rfl

/-- A line of seventeen characters, its end received while `*OVERFLOW*` is being
sent, and the line after it. -/
theorem overlong_discarded_seventeen :
    ∃ (s : Sys Main.Point) (whole : List (List UInt8 × SendRet Main.Point)),
      s.overflows.length = 1 ∧ s.calls.map (fun call => call.map Cell.char) = [ascii "light"] ∧
      s.sd.tx = ascii "*OVERFLOW*\r\n" ∧ s.OverlongDiscarded ∧ whole.countP overflowAnswer = 1 := by
  let acts : List Act := script [(2, .thread)] ++ Act.feed (ascii "aaaaaaaaaaaaaaaa") ++
    script [(1, .rx 98), (1, .rx 10), (11, .thread), (13, .tx), (6, .thread)] ++
    Act.feed (ascii "light\n")
  have hrun : (exec (apiStep Main.callback) (LabelOk DiscardOk) init (acts.map .act)).any
      (fun s => decide (s.overflows.length = 1 ∧
        s.calls.map (fun call => call.map Cell.char) = [ascii "light"]) &&
        (decide (s.sd.tx = ascii "*OVERFLOW*\r\n") && !s.pc.overflowing)) = true := by
    decide +kernel
  obtain ⟨s, hs, hp⟩ := (Option.any_eq_true _ _).1 hrun
  simp only [Bool.and_eq_true, decide_eq_true_eq, Bool.not_eq_true'] at hp
  obtain ⟨⟨hlen, hcalls⟩, htx, hpc⟩ := hp
  obtain ⟨hd, whole, part, -, hcount⟩ := overlong_discarded (steps_of_exec hs)
  rw [hlen, hpc] at hcount
  exact ⟨s, whole ++ s.pc.current part, hlen, hcalls, htx, hd, hcount⟩

/-- The same with the end of the line received after the reset: it is run as a
command. -/
theorem overlong_tail_called :
    ¬ ∀ s, Reach (step Main.callback) Always init s → s.OverlongDiscarded := by
  intro h
  obtain ⟨s, hr, hp⟩ := reach_of_exec (step Main.callback) Always init
    (script [(2, .thread)] ++ Act.feed (ascii "aaaaaaaaaaaaaaaa") ++
      script [(11, .thread), (13, .tx), (6, .thread)] ++ Act.feed (ascii "forward 3\n"))
    (fun s => s.overflows.any (fun o => decide (15 ∈ srcs o)) &&
      s.calls.any (fun call => decide (call.map Cell.char = ascii "forward3" ∧ 16 ∈ srcs call)) &&
      decide (s.sd.wire = ascii "aaaaaaaaaaaaaaaaforward 3\n")) (by decide +kernel)
  simp only [Bool.and_eq_true, List.any_eq_true, decide_eq_true_eq] at hp
  obtain ⟨⟨⟨o, ho, h15⟩, call, hcall, -, h16⟩, hw⟩ := hp
  rcases (h s hr).uncalled o ho call hcall 15 h15 16 h16 with ⟨n, h1, h2, h3⟩ | ⟨n, h1, h2, -⟩
  · rw [hw, show n = 15 by omega] at h3
    exact absurd h3 (by decide)
  · omega

end Sys

end RobotPws.Wifly
