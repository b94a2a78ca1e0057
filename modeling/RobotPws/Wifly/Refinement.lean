import RobotPws.Main
import RobotPws.Wifly.Framing
import RobotPws.Wifly.Moves

/-!
# The interleaved loop refines the sequential one

`feedAll` runs the loop alone, with a callback that is a function. Here the loop
is the thread of `Sys`, with the interrupt, the clients and a callback of many
steps between any two of its own. `Shown` lists what its steps read and do, and
every such list is one of the sequential loop on the values read, for a callback
that plays back what the calls of this run did (`playback`). `Matches` is the
invariant: the run so far against the sequential loop, by the phase the thread
is in.
-/

namespace RobotPws.Wifly

open RobotPws.Lib RobotPws.Kernel RobotPws.Hal

/-! ## The sequential loop on values -/

/-- What a call of the callback does as others see it: the messages it sends and its result. -/
abbrev Turn := List (List UInt8) × Message

/-- The callback that plays these turns. -/
def playback : Callback (List Turn)
  | [], _, _ => ([], [], .message)
  | turn :: turns, _, _ => (turns, turn.1, turn.2)

section
variable {ρ : Type} (f : Callback ρ)

/-- One value of `sdGetTimeout`, a character or a status. -/
def loopValue (s : ρ × Parser UInt8) (inn : Int) : (ρ × Parser UInt8) × List Event :=
  let (p, v) := s.2.feed inn (toChar inn)
  let (env, evs) := serve f s.1 p v
  ((env, p.next v), evs)

def loopValues (s : ρ × Parser UInt8) : List Int → (ρ × Parser UInt8) × List Event
  | [] => (s, [])
  | inn :: inns =>
    let (s, evs) := loopValue f s inn
    let (t, evs') := loopValues s inns
    (t, evs ++ evs')

theorem loopValues_append (s : ρ × Parser UInt8) (as bs : List Int) :
    loopValues f s (as ++ bs) =
      ((loopValues f (loopValues f s as).1 bs).1,
        (loopValues f s as).2 ++ (loopValues f (loopValues f s as).1 bs).2) := by
  induction as generalizing s with
  | nil => simp [loopValues]
  | cons a as ih => simp [loopValues, ih, List.append_assoc]

theorem loopValues_snoc {s t : ρ × Parser UInt8} {as : List Int} {evs : List Event}
    (h : loopValues f s as = (t, evs)) (inn : Int) :
    loopValues f s (as ++ [inn]) = ((loopValue f t inn).1, evs ++ (loopValue f t inn).2) := by
  rw [loopValues_append, h]
  simp only [loopValues, List.append_nil]

/-- On bytes it is the loop of `feedAll`, as long as no line overflows. -/
theorem loopValues_bytes (s : LoopState ρ) (h0 : s.skip = 0) (hq : s.queued = [])
    (bs : List UInt8) :
    (feedAll f s bs).2 = (loopValues f (s.env, s.parser) (bs.map fun b => (b.toNat : Int))).2 := by
  induction bs generalizing s with
  | nil => rfl
  | cons b bs ih =>
    obtain ⟨env, p, skip, queued⟩ := s
    subst h0
    subst hq
    rcases hv : p.feed b.toNat b with ⟨p', v⟩
    have hbyte : (feedByte f ⟨env, p, 0, []⟩ b) =
        (⟨(serve f env p' v).1, p'.next v, 0, []⟩, (serve f env p' v).2) := by
      simp only [feedByte, hv]
      by_cases ho : v = .overflow <;> simp [ho]
    simp only [feedAll, hbyte, List.map_cons, loopValues, loopValue, toChar_ofNat, hv]
    rw [ih _ rfl rfl]

end

/-! ## What the thread shows -/

inductive Shown where
  /-- a value of `sdGetTimeout` in the loop -/
  | read (inn : Int)
  | event (e : Event)
  deriving DecidableEq, Repr

namespace Shown

def toRead : Shown → Option Int
  | read inn => some inn
  | _ => none

def toEvent : Shown → Option Event
  | event e => some e
  | _ => none

end Shown

/-- The values the loop has read. -/
def loopReads (l : List Shown) : List Int := l.filterMap Shown.toRead

/-- What the loop has done. -/
def loopEvents (l : List Shown) : List Event := l.filterMap Shown.toEvent

@[simp] theorem loopReads_append (l l' : List Shown) :
    loopReads (l ++ l') = loopReads l ++ loopReads l' := List.filterMap_append

@[simp] theorem loopEvents_append (l l' : List Shown) :
    loopEvents (l ++ l') = loopEvents l ++ loopEvents l' := List.filterMap_append

@[simp] theorem loopReads_event (e : Event) : loopReads [.event e] = [] := rfl

@[simp] theorem loopEvents_event (e : Event) : loopEvents [.event e] = [e] := rfl

@[simp] theorem loopReads_events (es : List Event) : loopReads (es.map .event) = [] := by
  induction es with
  | nil => rfl
  | cons e es ih => exact ih

@[simp] theorem loopEvents_events (es : List Event) : loopEvents (es.map .event) = es := by
  induction es with
  | nil => rfl
  | cons e es ih => exact congrArg (e :: ·) ih

/-- The message the loop sends at once for a verdict. -/
def verdictReply : Verdict → List Event
  | .overflow => [.reply overflowMsg]
  | .hello => [.reply helloMsg]
  | .badStatus => [.reply errorMsg]
  | .more | .command => []

/-- What the loop is doing: not started, reading or replying, about to call the callback, or in
the callback. -/
inductive LoopPhase where
  | starting
  | idle
  | called
  | running
  deriving DecidableEq, Repr

def SendRet.phase {σ : Type} : SendRet σ → LoopPhase
  | .callback _ => .running
  | .release _ | .overflow | .reply => .idle

def RecvRet.phase {σ : Type} : RecvRet σ → LoopPhase
  | .callback _ => .running
  | .release _ => .idle

def Pc.phase {σ : Type} : Pc σ → LoopPhase
  | .register => .starting
  | .call => .called
  | .callback _ => .running
  | .send _ ret | .sendWait ret | .sendFlags ret => ret.phase
  | .drain _ ret | .recvWait _ ret | .recvSleep _ ret | .recvFlags _ ret | .recvGet _ ret
  | .iqReset _ (.receive _ ret) => ret.phase
  | _ => .idle

/-- The line held has ended or overflowed and is being answered. -/
def Pc.pending {σ : Type} (pc : Pc σ) : Bool :=
  pc.overflowing || pc.answering || pc.phase == .called

namespace Sys

variable {ω σ : Type} (cb : ProtocolCallback ω σ)

/-- What a step of the machine shows of the loop. -/
def shown (s : Sys σ) (a : Act) (_ : Sys σ) : List Shown :=
  match a, s.pc with
  | .thread, .getByte =>
    .read (inOf s.sd.sdGetTimeout.1) :: (verdictReply s.fed.2).map .event
  | .thread, .call => [.event (.call (cstring s.parser.id) (cstring s.parser.args))]
  | .thread, .callback x =>
    match cb.req x with
    | .ret m => (answer m).map .event
    | .send msg => if msg = [] then [] else [.event (.message msg)]
    | .read | .call _ => []
  | _, _ => []

/-- The parser, over plain characters, as it will be when the line held is done with. -/
def settled (s : Sys σ) : Parser UInt8 :=
  if s.pc.pending then s.parser.map.restart else s.parser.map

theorem map_init : (Parser.init : Parser Cell).map = .init := by
  have hfill : ∀ n, (CArray.fill n (CharCell.nul : Cell)).map CharCell.char = .fill n 0 := by
    intro n
    simp only [CArray.map, CArray.fill, List.map_replicate, CharCell.char_nul]
  simp only [Parser.map, Parser.init, hfill]
  rfl

/-- A step that shows nothing of the loop. -/
structure Quiet (s t : Sys σ) : Prop where
  phase : t.pc.phase = s.pc.phase
  settled : t.settled = s.settled
  line : s.pc.phase = .called → t.parser = s.parser

/-- The branches of the machine as steps of the loop: a value is read, the callback is called,
sends a message or returns, or nothing of this. -/
inductive LoopStep (s : Sys σ) (a : Act) : Sys σ → List Shown → Prop where
  | start {t : Sys σ} : s.pc = .register → t.pc.phase = .idle → t.settled = .init →
      LoopStep s a t []
  | quiet {t : Sys σ} : Quiet s t → LoopStep s a t []
  | value : s.pc = .getByte → LoopStep s a s.readByte
      (.read (inOf s.sd.sdGetTimeout.1) :: (verdictReply s.fed.2).map .event)
  | call {t : Sys σ} : s.pc = .call → t.pc.phase = .running → t.settled = s.settled →
      LoopStep s a t [.event (.call (cstring s.parser.id) (cstring s.parser.args))]
  | message {t : Sys σ} (msg : List UInt8) : s.pc.phase = .running → Quiet s t →
      LoopStep s a t [.event (.message msg)]
  | ret {t : Sys σ} (m : Message) : s.pc.phase = .running → t.pc.phase = .idle →
      t.settled = s.settled → LoopStep s a t ((answer m).map .event)

variable {cb}

theorem received_quiet (s s' : Sys σ) (hp : s'.parser = s.parser) (st : State) (r : Recv)
    (ret : RecvRet σ) (hph : s.pc.phase = ret.phase) (hpe : s.pc.pending = ret.isAnswer) :
    Quiet s (s'.received cb st r ret) := by
  refine ⟨?_, ?_, fun _ => by rw [parser_received, hp]⟩
  · rw [hph]
    cases ret <;> rfl
  · unfold settled
    rw [parser_received, hp, hpe]
    cases ret <;> rfl

theorem recvByte_quiet (s s' : Sys σ) (hp : s'.parser = s.parser) (r : Recv) (inn : Int)
    (ret : RecvRet σ) (again : Recv → RecvRet σ → Pc σ) (hph : s.pc.phase = ret.phase)
    (hpe : s.pc.pending = ret.isAnswer)
    (hag : ∀ r, (again r ret).phase = ret.phase ∧ (again r ret).pending = ret.isAnswer) :
    Quiet s (recvByte cb s' r inn ret again) := by
  obtain ⟨-, he⟩ | ⟨-, -, he⟩ | ⟨-, -, he⟩ := recvByte_cases cb s' r inn ret again <;> rw [he]
  · refine ⟨hph.symm, ?_, fun _ => hp⟩
    unfold settled
    rw [hp, hpe]
    cases ret <;> rfl
  · exact received_quiet s s' hp _ _ ret hph hpe
  · obtain ⟨h1, h2⟩ := hag (r.store inn)
    refine ⟨h1.trans hph.symm, ?_, fun _ => hp⟩
    unfold settled
    simp only [hp, hpe, h2]

theorem quiet_of {s t : Sys σ} (hp : t.parser = s.parser) (hph : t.pc.phase = s.pc.phase)
    (hpe : t.pc.pending = s.pc.pending) : Quiet s t :=
  ⟨hph, by unfold settled; rw [hp, hpe], fun _ => hp⟩

theorem move_loop {s t : Sys σ} (hm : Move cb s t) :
    ∃ es, s.shown cb .thread t = es ∧ LoopStep s .thread t es := by
  have hshown : ∀ pc, s.pc = pc → (∀ x, pc ≠ .callback x) → pc ≠ .getByte → pc ≠ .call →
      s.shown cb .thread t = [] := by
    intro pc hpc h1 h2 h3
    unfold shown
    rw [hpc]
    cases pc <;> first | rfl | exact absurd rfl (h1 _) | exact absurd rfl h2 | exact absurd rfl h3
  cases hm with
  | register hpc =>
    exact ⟨_, hshown _ hpc (by simp) (by simp) (by simp), .start hpc rfl map_init⟩
  | takeMessage hpc | listen hpc | readRequest _ _ hpc | sendRequest _ _ _ hpc | event hpc
  | noEvent hpc | inputFlag hpc | errorFlags hpc | otherFlags hpc | sendEvent _ hpc
  | sendMore _ hpc | drained _ _ hpc | recvSleep _ _ hpc | recvInput _ _ hpc | recvOther _ _ hpc
  | release _ _ _ hpc =>
    exact ⟨_, hshown _ hpc (by simp) (by simp) (by simp),
      .quiet (quiet_of rfl (by rw [hpc]; rfl) (by rw [hpc]; rfl))⟩
  | byte hpc => exact ⟨_, by simp only [shown, hpc], .value hpc⟩
  | call hpc =>
    refine ⟨_, by simp only [shown, hpc], .call hpc rfl ?_⟩
    simp only [settled, hpc]
    rfl
  | returnAnswer x m hpc hr hm =>
    refine ⟨_, by simp only [shown, hpc, hr], .ret m (by rw [hpc]; rfl) rfl ?_⟩
    simp only [settled, hpc]
    rfl
  | returnMessage x hpc hr =>
    refine ⟨_, by simp only [shown, hpc, hr], .ret .message (by rw [hpc]; rfl) rfl ?_⟩
    simp only [settled, hpc]
    rfl
  | callbackSendEmpty x hpc hr =>
    refine ⟨_, ?_, .quiet (quiet_of rfl (by rw [hpc]; rfl) (by rw [hpc]; rfl))⟩
    simp only [shown, hpc, hr, ↓reduceIte]
  | callbackSend x msg hpc hr hne =>
    refine ⟨_, ?_, .message msg (by rw [hpc]; rfl)
      (quiet_of rfl (by rw [hpc]; rfl) (by rw [hpc]; rfl))⟩
    simp only [shown, hpc, hr, if_neg hne]
  | callbackRead x hpc hr =>
    refine ⟨_, ?_, .quiet (quiet_of rfl (by rw [hpc]; rfl) (by rw [hpc]; rfl))⟩
    simp only [shown, hpc, hr]
  | put b bs ret d hpc hd =>
    refine ⟨_, hshown _ hpc (by simp) (by simp) (by simp), .quiet (quiet_of rfl ?_ ?_)⟩ <;>
      by_cases hbs : bs = [] <;> simp only [hbs, ↓reduceIte, hpc] <;> rfl
  | sendDone ret hpc =>
    refine ⟨_, hshown _ hpc (by simp) (by simp) (by simp), .quiet ?_⟩
    cases ret <;> refine ⟨by rw [hpc]; rfl, ?_, fun h => ?_⟩ <;>
      first | (simp only [settled, hpc]; rfl) | (rw [hpc] at h; cases h)
  | drainByte r ret rx hpc | recvByte r ret rx hpc =>
    exact ⟨_, hshown _ hpc (by simp) (by simp) (by simp), .quiet (recvByte_quiet s s.dequeued rfl
      _ _ ret _ (by rw [hpc]; rfl) (by rw [hpc]; cases ret <;> rfl)
      fun _ => ⟨rfl, by cases ret <;> rfl⟩)⟩
  | recvEvent r ret hpc =>
    rcases hpc with hpc | hpc <;>
      exact ⟨_, hshown _ hpc (by simp) (by simp) (by simp),
        .quiet (quiet_of rfl (by rw [hpc]; rfl) (by rw [hpc]; rfl))⟩
  | recvError r ret hpc =>
    exact ⟨_, hshown _ hpc (by simp) (by simp) (by simp), .quiet (received_quiet s s.flagsRead rfl
      _ _ ret (by rw [hpc]; rfl) (by rw [hpc]; cases ret <;> rfl))⟩
  | recvNothing r ret hpc =>
    exact ⟨_, hshown _ hpc (by simp) (by simp) (by simp), .quiet (received_quiet s s.dequeued rfl
      _ _ ret (by rw [hpc]; rfl) (by rw [hpc]; cases ret <;> rfl))⟩
  | iqResetWrptr ret hpc | iqResetRdptr ret hpc =>
    refine ⟨_, hshown _ hpc (by simp) (by simp) (by simp), .quiet (quiet_of rfl ?_ ?_)⟩ <;>
      rw [hpc] <;> cases ret <;> rfl
  | iqResetCounter ret hpc =>
    refine ⟨_, hshown _ hpc (by simp) (by simp) (by simp), .quiet ?_⟩
    cases ret with
    | overflow | error =>
      refine ⟨by rw [hpc]; rfl, ?_, fun h => by rw [hpc] at h; cases h⟩
      simp only [settled, hpc]
      rfl
    | receive r ret =>
      exact received_quiet s { s with sd := s.sd.chIQResetI .counter } rfl _ _ ret (by rw [hpc]; rfl)
        (by rw [hpc]; cases ret <;> rfl)
  | oqReset k pc hpc hn =>
    refine ⟨_, hshown _ hpc (by simp) (by simp) (by simp), .quiet ?_⟩
    rcases hn with ⟨k', rfl⟩ | rfl <;>
      exact quiet_of rfl (by rw [hpc]; rfl) (by rw [hpc]; rfl)

theorem step_loop {s t : Sys σ} {a : Act} (hs : s.step cb a = some t) :
    ∃ es, s.shown cb a t = es ∧ LoopStep s a t es := by
  obtain ⟨rfl, hm⟩ | ⟨r, ret, rfl, hpc, -, rfl⟩ | ⟨x, v, rfl, hpc, rfl⟩ | ⟨sr, dr, rfl, rfl⟩ |
    ⟨thd, str, rfl, rfl⟩ := step_cases hs
  · exact move_loop hm
  · exact ⟨_, rfl, .quiet (received_quiet s s rfl _ _ ret (by rw [hpc]; rfl)
      (by rw [hpc]; cases ret <;> rfl))⟩
  · exact ⟨_, rfl, .quiet (quiet_of rfl (by rw [hpc]; rfl) (by rw [hpc]; rfl))⟩
  · exact ⟨_, rfl, .quiet ⟨rfl, rfl, fun _ => rfl⟩⟩
  · exact ⟨_, rfl, .quiet ⟨rfl, rfl, fun _ => rfl⟩⟩

/-! ## The run against the sequential loop -/

/-- The sequential loop on the values read, from the start, with these turns of the callback. -/
abbrev played (turns : List Turn) (l : List Shown) : (List Turn × Parser UInt8) × List Event :=
  loopValues playback (turns, .init) (loopReads l)

/-- The run so far. Turns not yet begun are played by no prefix of the values, so they are
arbitrary; in the callback so is what is still to come of its turn. -/
inductive Matches (s : Sys σ) (l : List Shown) : Prop where
  | starting : s.pc.phase = .starting → l = [] → Matches s l
  | idle (turns : List Turn) : s.pc.phase = .idle →
      (∀ more, played (turns ++ more) l = ((more, s.settled), loopEvents l)) → Matches s l
  | called (turns : List Turn) : s.pc.phase = .called →
      (∀ turn more, played (turns ++ turn :: more) l = ((more, s.settled), loopEvents l ++
        .call (cstring s.parser.id) (cstring s.parser.args) :: turn.1.map .message ++
          answer turn.2)) → Matches s l
  | running (turns : List Turn) (sent : List (List UInt8)) : s.pc.phase = .running →
      (∀ msgs m more, played (turns ++ (sent ++ msgs, m) :: more) l =
        ((more, s.settled), loopEvents l ++ msgs.map .message ++ answer m)) → Matches s l

theorem Matches.quiet {s t : Sys σ} {l : List Shown} (h : Matches s l) (hq : Quiet s t) :
    Matches t l := by
  cases h with
  | starting hp hl => exact .starting (hq.phase.trans hp) hl
  | idle turns hp he => exact .idle turns (hq.phase.trans hp) (by rw [hq.settled]; exact he)
  | called turns hp he =>
    exact .called turns (hq.phase.trans hp) (by rw [hq.settled, hq.line hp]; exact he)
  | running turns sent hp he =>
    exact .running turns sent (hq.phase.trans hp) (by rw [hq.settled]; exact he)

theorem loopValue_settled (s : Sys σ) (hpc : s.pc = .getByte) (turns : List Turn) :
    loopValue playback (turns, s.settled) (inOf s.sd.sdGetTimeout.1) =
      (((serve playback turns s.fed.1.map s.fed.2).1, s.fed.1.map.next s.fed.2),
        (serve playback turns s.fed.1.map s.fed.2).2) := by
  have hset : s.settled = s.parser.map := by
    unfold settled
    rw [hpc]
    rfl
  have hfeed : s.parser.map.feed (inOf s.sd.sdGetTimeout.1)
      (toChar (inOf s.sd.sdGetTimeout.1)) = (s.fed.1.map, s.fed.2) :=
    Parser.map_feed s.parser _ (cellOf s.sd.sdGetTimeout.1 s.sd.errs)
  rw [hset]
  unfold loopValue
  simp only [hfeed]

theorem Matches.value {s : Sys σ} {l : List Shown} (h : Matches s l) (hpc : s.pc = .getByte) :
    Matches s.readByte
      (l ++ .read (inOf s.sd.sdGetTimeout.1) :: (verdictReply s.fed.2).map .event) := by
  obtain ⟨turns, he⟩ : ∃ turns, ∀ more,
      played (turns ++ more) l = ((more, s.settled), loopEvents l) := by
    cases h with
    | idle turns _ he => exact ⟨turns, he⟩
    | starting hp | called _ hp | running _ _ hp => rw [hpc] at hp; cases hp
  have hreads : loopReads (l ++ .read (inOf s.sd.sdGetTimeout.1) ::
      (verdictReply s.fed.2).map .event) = loopReads l ++ [inOf s.sd.sdGetTimeout.1] := by
    rw [loopReads_append]
    exact congrArg (loopReads l ++ _ :: ·) (loopReads_events _)
  have hevents : loopEvents (l ++ .read (inOf s.sd.sdGetTimeout.1) ::
      (verdictReply s.fed.2).map .event) = loopEvents l ++ verdictReply s.fed.2 := by
    rw [loopEvents_append]
    exact congrArg (loopEvents l ++ ·) (loopEvents_events _)
  -- the loop goes on from the state the run so far has left it in
  have hnext : ∀ more, played (turns ++ more) (l ++ .read (inOf s.sd.sdGetTimeout.1) ::
      (verdictReply s.fed.2).map .event) =
      (((serve playback more s.fed.1.map s.fed.2).1, s.fed.1.map.next s.fed.2),
        loopEvents l ++ (serve playback more s.fed.1.map s.fed.2).2) := by
    intro more
    rw [played, hreads, loopValues_snoc _ (he more), loopValue_settled s hpc]
  have hsettled : s.readByte.settled = s.fed.1.map.next s.fed.2 := by
    unfold settled readByte
    cases s.fed.2 <;> rfl
  obtain ⟨v, hv⟩ : ∃ v, s.fed.2 = v := ⟨_, rfl⟩
  cases v with
  | more | overflow | hello | badStatus =>
    refine .idle turns (by unfold readByte; rw [hv]; rfl) fun more => ?_
    rw [hnext, hsettled, hevents, hv]
    rfl
  | command =>
    refine .called turns (by unfold readByte; rw [hv]; rfl) fun turn more => ?_
    rw [hnext, hsettled, hevents, hv]
    simp only [serve, playback, verdictReply, List.append_nil, List.append_assoc, readByte,
      show s.fed.1.map.id = s.fed.1.id.map CharCell.char from rfl,
      show s.fed.1.map.args = s.fed.1.args.map CharCell.char from rfl, Parser.cstring_map]

theorem step_matches {s t : Sys σ} {a : Act} {l : List Shown} (h : Matches s l)
    (hs : s.step cb a = some t) : Matches t (l ++ s.shown cb a t) := by
  obtain ⟨es, he, hl⟩ := step_loop hs
  rw [he]
  cases hl with
  | start hpc hph hset =>
    cases h with
    | starting _ hl =>
      subst hl
      refine .idle [] hph fun more => ?_
      rw [hset]
      rfl
    | idle _ hp | called _ hp | running _ _ hp => rw [hpc] at hp; cases hp
  | quiet hq => rw [List.append_nil]; exact h.quiet hq
  | value hpc => exact h.value hpc
  | call hpc hph hset =>
    cases h with
    | called turns _ he =>
      refine .running turns [] hph fun msgs m more => ?_
      have hplay := he (msgs, m) more
      simpa [played, hset] using hplay
    | starting hp | idle _ hp | running _ _ hp => rw [hpc] at hp; cases hp
  | message msg hph hq =>
    cases h with
    | running turns sent _ he =>
      refine .running turns (sent ++ [msg]) (hq.phase.trans hph) fun msgs m more => ?_
      have hplay := he (msg :: msgs) m more
      simpa [played, hq.settled] using hplay
    | starting hp | idle _ hp | called _ hp => rw [hph] at hp; cases hp
  | ret m hph hph' hset =>
    cases h with
    | running turns sent _ he =>
      refine .idle (turns ++ [(sent, m)]) hph' fun more => ?_
      have hplay := he [] m more
      simpa [played, hset] using hplay
    | starting hp | idle _ hp | called _ hp => rw [hph] at hp; cases hp

theorem run_matches {C : Sys σ → Act → Prop} {s : Sys σ} {as : List Act}
    (h : Steps (step cb) C init as s) : Matches s (observe (step cb) (shown cb) init as) := by
  have hstep : ∀ (s : Sys σ) (l : List Shown) (a : Act) (t : Sys σ), Matches s l → C s a →
      s.step cb a = some t → Matches t (l ++ s.shown cb a t) :=
    fun s l a t hi _ hs => step_matches hi hs
  exact h.inv_observe hstep (.starting rfl rfl)

theorem Matches.refines {s : Sys σ} {l : List Shown} (h : Matches s l) :
    ∃ turns, loopEvents l <+: (played turns l).2 ∧
      (s.pc.phase = .idle → played turns l = (([], s.settled), loopEvents l)) := by
  cases h with
  | starting hp hl =>
    rw [hl, hp]
    exact ⟨[], List.nil_prefix, fun h => nomatch h⟩
  | idle turns hp he =>
    have hplay := he []
    rw [List.append_nil] at hplay
    exact ⟨turns, by simp [hplay], fun _ => hplay⟩
  | called turns hp he =>
    refine ⟨turns ++ [([], .message)], ?_, fun h => by rw [hp] at h; cases h⟩
    rw [he ([], .message) [], List.append_assoc]
    exact List.prefix_append ..
  | running turns sent hp he =>
    refine ⟨turns ++ [(sent ++ [], .message)], ?_, fun h => by rw [hp] at h; cases h⟩
    rw [he [] .message [], List.append_assoc]
    exact List.prefix_append ..

/-- **The interleaved loop refines the sequential one**: in every run, with whatever the
interrupt, the clients and the callback do between its steps, the loop does what the sequential
loop does on the values read so far, up to the rest of the call that is going on. -/
theorem loop_refines {s : Sys σ} {as : List Act} (h : Steps (step cb) Always init as s) :
    ∃ turns, loopEvents (observe (step cb) (shown cb) init as) <+:
        (played turns (observe (step cb) (shown cb) init as)).2 ∧
      (s.pc.phase = .idle → played turns (observe (step cb) (shown cb) init as) =
        (([], s.settled), loopEvents (observe (step cb) (shown cb) init as))) :=
  (run_matches h).refines

/-- A command of `main.c` while a client's message waits, up to its answer. -/
theorem loop_refines_light :
    ∃ turns, [.call (ascii "light") (ascii "1"), .reply okMsg] <+:
      (loopValues playback (turns, .init)
        ((ascii "light 1\n").map fun b => (b.toNat : Int))).2 := by
  let as : List Act := .thread :: Act.feed [108] ++ .client 7 [97] :: Act.feed (ascii "ight 1\n") ++
    [.thread, .result 0, .thread]
  have hrun : (exec (step Main.callback) Always init as).isSome = true := by decide +kernel
  obtain ⟨s, hs⟩ := Option.isSome_iff_exists.1 hrun
  have hshown : (loopReads (observe (step Main.callback) (shown Main.callback) init as),
      loopEvents (observe (step Main.callback) (shown Main.callback) init as)) =
      ((ascii "light 1\n").map fun b => (b.toNat : Int),
        [.call (ascii "light") (ascii "1"), .reply okMsg]) := by decide +kernel
  obtain ⟨hreads, hevents⟩ := Prod.mk.inj hshown
  obtain ⟨turns, hpre, -⟩ := loop_refines (steps_of_exec hs)
  rw [played, hreads, hevents] at hpre
  exact ⟨turns, hpre⟩

end Sys

end RobotPws.Wifly
