import RobotPws.Wifly.Completion

/-!
# What the calls of `wiflySend` and `wiflyRead` become

Both hand a string to the wifly thread, which tells a read from a message by its first
character; the callback runs on that thread and bypasses the channel. `OutEvent` lists the
calls, the calls of `wifly_send` and `wifly_receive` they lead to, the bytes put into the
output queue, read off the queue itself, and the returns. `Kept` is the invariant: what has
been put is the messages of the finished calls of `wifly_send` and the first part of the
current one. `step_queued` follows what is put through the queue to the transmitter.
-/

namespace RobotPws.Wifly

open RobotPws.Lib RobotPws.Kernel RobotPws.Hal

/-- A call another part of the firmware makes. -/
inductive Request where
  | wiflySend (msg : List UInt8)
  | wiflyRead
  deriving DecidableEq, Repr

/-- The string the call hands over: `wiflySend("")` returns at once, and `wiflyRead` empties
its buffer. -/
def Request.str : Request → Option (List UInt8)
  | .wiflySend msg => if msg = [] then none else some msg
  | .wiflyRead => some []

/-- The message of a `wiflySend`. -/
def Request.message : Request → Option (List UInt8)
  | .wiflySend msg => some msg
  | .wiflyRead => none

/-- The call that hands over this string. -/
def Request.ofStr (str : List UInt8) : Request := if str = [] then .wiflyRead else .wiflySend str

theorem Request.ofStr_str {r : Request} {str : List UInt8} (h : r.str = some str) :
    Request.ofStr str = r := by
  cases r with
  | wiflySend msg =>
    rw [Request.str] at h
    split at h
    · cases h
    · next hne => cases h; rw [Request.ofStr, if_neg hne]
  | wiflyRead => cases h; rfl

/-- A step of the firmware, or another thread calls. -/
inductive Label where
  | act (a : Act)
  | call (thd : Nat) (r : Request)

inductive OutEvent (σ : Type) where
  /-- another thread calls -/
  | call (thd : Nat) (r : Request)
  /-- the callback calls -/
  | own (r : Request)
  /-- `wifly_send(msg)` -/
  | send (msg : List UInt8) (ret : SendRet σ)
  /-- `wifly_receive` -/
  | receive (ret : RecvRet σ)
  /-- the byte is put into the output queue -/
  | put (b : UInt8)
  /-- the call of the thread returns -/
  | released (thd : Nat)
  deriving DecidableEq, Repr

section
variable {σ : Type}

namespace OutEvent

def toPut : OutEvent σ → Option UInt8
  | put b => some b
  | _ => none

def toStart : OutEvent σ → Option (List UInt8 × SendRet σ)
  | send msg ret => some (msg, ret)
  | _ => none

def toCall : OutEvent σ → Option (Nat × Request)
  | call thd r => some (thd, r)
  | _ => none

def toOwn : OutEvent σ → Option Request
  | own r => some r
  | _ => none

/-- What is done for a client. -/
def toServed : OutEvent σ → Option (Nat × Request)
  | send msg (.release thd) => some (thd, .wiflySend msg)
  | receive (.release thd) => some (thd, .wiflyRead)
  | _ => none

/-- What is done for the callback. -/
def toOwnServed : OutEvent σ → Option Request
  | send msg (.callback _) => some (.wiflySend msg)
  | receive (.callback _) => some .wiflyRead
  | _ => none

def toReleased : OutEvent σ → Option Nat
  | released thd => some thd
  | _ => none

end OutEvent

/-- The client of a call of `wifly_send`, with its message. -/
def clientMessage : List UInt8 × SendRet σ → Option (Nat × List UInt8)
  | (msg, .release thd) => some (thd, msg)
  | _ => none

/-- The message of a call the callback made. -/
def ownMessage : List UInt8 × SendRet σ → Option (List UInt8)
  | (msg, .callback _) => some msg
  | _ => none

/-- The message of a client's call. -/
def sendMessage (c : Nat × Request) : Option (Nat × List UInt8) := c.2.message.map (Prod.mk c.1)

def Pc.entered : Pc σ → List (OutEvent σ)
  | .send msg ret => [.send msg ret]
  | .drain _ ret => [.receive ret]
  | _ => []

/-- The call of `wifly_send` that puts its bytes, this many of them put already. -/
def Pc.current (part : List UInt8) : Pc σ → List (List UInt8 × SendRet σ)
  | .send rest ret => [(part ++ rest, ret)]
  | _ => []

end

namespace Sys

variable {ω σ : Type} (cb : ProtocolCallback ω σ)

/-- The machine with the calls of other threads; `wiflySend("")` touches nothing. -/
def apiStep (s : Sys σ) : Label → Option (Sys σ)
  | .act (.client _ _) => none
  | .act a => s.step cb a
  | .call thd r => r.str.bind fun str => s.step cb (.client thd str)

/-- What the callback calls. -/
def ownCalls (s : Sys σ) : List (OutEvent σ) :=
  match s.pc with
  | .callback x =>
    match cb.req x with
    | .send msg => if msg = [] then [] else [.own (.wiflySend msg)]
    | .read => [.own .wiflyRead]
    | _ => []
  | _ => []

/-- The calls made in a step. -/
def called (s : Sys σ) : Label → Sys σ → List (OutEvent σ)
  | .call thd r, _ => [.call thd r]
  | .act .thread, t =>
    match s.pc with
    | .send _ _ | .drain _ _ => []
    | _ => s.ownCalls cb ++ t.pc.entered
  | .act _, _ => []

/-- What a step shows: the bytes that have got into the output queue, the clients that have
got an answer and the calls. -/
def outEvents (s : Sys σ) (l : Label) (t : Sys σ) : List (OutEvent σ) :=
  (s.sd.oqueue.written t.sd.oqueue).map .put ++
    ((t.answers.drop s.answers.length).map fun a => .released a.thd) ++ s.called cb l t

end Sys

/-! ## Into the output queue -/

namespace Sys

variable {ω σ : Type} {cb : ProtocolCallback ω σ} {s t : Sys σ}

/-- The write pointer stays inside the buffer. -/
def WrptrOk (s : Sys σ) : Prop := s.sd.oqueue.qWrptr < serialBuffersSize

theorem init_wrptr : (init : Sys σ).WrptrOk := Nat.zero_lt_succ _

theorem step_wrptr {a : Act} (h : s.WrptrOk) (hs : s.step cb a = some t) : t.WrptrOk := by
  unfold WrptrOk at *
  cases step_output hs with
  | put b bs ret q _ hq => exact GenericQueue.chOQPut_wrptr h hq
  | wake | more => exact h
  | done => rw [sent_sd]; exact h
  | reset k =>
    cases k with
    | wrptr => exact Nat.zero_lt_succ _
    | rdptr | counter => exact h
  | usart sr dr => rw [(s.sd.serveInterrupt_pointers sr dr).1]; exact h
  | other _ _ hq => rw [hq]; exact h
  | beside _ hsd => rw [hsd]; exact h

/-- Only `sdWrite` puts bytes into the queue, one in a step. -/
theorem step_written {a : Act} (h : s.WrptrOk) (hs : s.step cb a = some t) :
    (∃ b bs ret, a = .thread ∧ s.pc = .send (b :: bs) ret ∧
      s.sd.oqueue.written t.sd.oqueue = [b]) ∨ s.sd.oqueue.written t.sd.oqueue = [] := by
  cases step_output hs with
  | put b bs ret q hpc hq =>
    exact .inl ⟨b, bs, ret, rfl, hpc, GenericQueue.chOQPut_written (by decide) h hq⟩
  | wake | more => exact .inr (GenericQueue.written_of_wrptr rfl)
  | done => exact .inr (GenericQueue.written_of_wrptr (by rw [sent_sd]; rfl))
  | reset k => exact .inr (GenericQueue.chOQResetI_written ..)
  | usart sr dr => exact .inr (GenericQueue.written_of_wrptr (s.sd.serveInterrupt_pointers sr dr).1)
  | other _ _ hq => exact .inr (GenericQueue.written_of_wrptr (by rw [hq]))
  | beside _ hsd => exact .inr (GenericQueue.written_of_wrptr (by rw [hsd]))

/-- What is put is queued behind what the queue holds, and leaves it in that order, except
where the queue is reset. -/
theorem step_queued {a : Act} {Q : List UInt8} (hs : s.step cb a = some t)
    (hr : ∀ k, s.pc ≠ .oqReset k) (hQ : s.sd.oqueue.OQHolds Q) :
    ∃ Q', t.sd.oqueue.OQHolds Q' ∧
      t.sd.tx ++ Q' = s.sd.tx ++ Q ++ s.sd.oqueue.written t.sd.oqueue := by
  have hsame : ∀ {q : GenericQueue UInt8 serialBuffersSize} {tx : List UInt8}, q = s.sd.oqueue →
      tx = s.sd.tx → ∃ Q', q.OQHolds Q' ∧ tx ++ Q' = s.sd.tx ++ Q ++ s.sd.oqueue.written q := by
    rintro q tx rfl rfl
    exact ⟨Q, hQ, by rw [GenericQueue.written_of_wrptr rfl, List.append_nil]⟩
  cases step_output hs with
  | put b bs ret q hpc hq =>
    refine ⟨Q ++ [b], hQ.put hq, ?_⟩
    rw [GenericQueue.chOQPut_written (by decide) hQ.wrptr_lt hq, List.append_assoc]
  | wake | more => exact hsame rfl rfl
  | done => exact hsame (by rw [sent_sd]; rfl) (by rw [sent_sd]; rfl)
  | reset k hpc => exact absurd hpc (hr k)
  | usart sr dr =>
    obtain ⟨Q', hQ', htx, -, -⟩ := SerialDriver.serveInterrupt_holds hQ sr dr
    refine ⟨Q', hQ', ?_⟩
    rw [GenericQueue.written_of_wrptr (s.sd.serveInterrupt_pointers sr dr).1, List.append_nil]
    exact htx
  | other _ _ hq ht => exact hsame hq ht
  | beside _ hsd => exact hsame (by rw [hsd]) (by rw [hsd])

/-- The step behind a label. -/
def labelAct : Label → Act
  | .act a => a
  | .call thd r => .client thd (r.str.getD [])

theorem apiStep_act {lab : Label} (hs : s.apiStep cb lab = some t) :
    s.step cb (labelAct lab) = some t := by
  cases lab with
  | act a =>
    cases a with
    | client => cases hs
    | thread | timeout | result | usart => exact hs
  | call thd r =>
    obtain ⟨str, hstr, hs⟩ := Option.bind_eq_some_iff.1 hs
    rw [labelAct, hstr, Option.getD_some]
    exact hs

/-- The condition on the step behind a label. -/
def LabelOk (C : Sys σ → Act → Prop) (s : Sys σ) : Label → Prop
  | .act a => C s a
  | .call thd r => ∀ str, r.str = some str → C s (.client thd str)

instance (C : Sys σ → Act → Prop) [∀ s a, Decidable (C s a)] (s : Sys σ) (l : Label) :
    Decidable (LabelOk C s l) :=
  match l with
  | .act a => inferInstanceAs (Decidable (C s a))
  | .call thd r =>
    match h : r.str with
    | none => .isTrue fun str hs => by rw [h] at hs; cases hs
    | some str => decidable_of_iff (C s (.client thd str))
        ⟨fun hc str' hs => by rw [h] at hs; cases hs; exact hc, fun hc => hc str h⟩

theorem labelOk_act {C : Sys σ → Act → Prop} {lab : Label} (hs : s.apiStep cb lab = some t)
    (h : LabelOk C s lab) : C s (labelAct lab) := by
  cases lab with
  | act a => exact h
  | call thd r =>
    obtain ⟨str, hstr, -⟩ := Option.bind_eq_some_iff.1 hs
    rw [labelAct, hstr]
    exact h str hstr

variable (cb) in
theorem ownCalls_starts (s : Sys σ) : (s.ownCalls cb).filterMap OutEvent.toStart = [] := by
  unfold ownCalls
  split
  · split
    · split <;> rfl
    · rfl
    · rfl
  · rfl

theorem received_starts (s : Sys σ) (st : State) (r : Recv) (ret : RecvRet σ) :
    (s.received cb st r ret).pc.entered = [] := by
  cases ret <;> rfl

theorem recvByte_starts (s : Sys σ) (r : Recv) (inn : Int) (ret : RecvRet σ)
    {again : Recv → RecvRet σ → Pc σ}
    (h : ∀ r, (again r ret).entered.filterMap OutEvent.toStart = []) :
    (recvByte cb s r inn ret again).pc.entered.filterMap OutEvent.toStart = [] := by
  obtain ⟨-, he⟩ | ⟨-, -, he⟩ | ⟨-, -, he⟩ := recvByte_cases cb s r inn ret again <;> rw [he]
  · rfl
  · rw [received_starts]; rfl
  · exact h _

theorem steps_act {C : Sys σ → Act → Prop} {labs : List Label}
    (h : Steps (apiStep cb) (LabelOk C) s labs t) :
    Steps (step cb) C s (labs.map labelAct) t :=
  h.map labelAct fun _ _ _ hok hs => ⟨apiStep_act hs, labelOk_act hs hok⟩

theorem outEvents_called {lab : Label} (hq : s.sd.oqueue.written t.sd.oqueue = [])
    (ha : t.answers = s.answers) : s.outEvents cb lab t = s.called cb lab t := by
  rw [outEvents, hq, ha, List.drop_length]
  rfl

theorem outEvents_beside {lab : Label} (hw : s.WrptrOk) (hs : s.apiStep cb lab = some t)
    (hlab : labelAct lab ≠ .thread) : s.outEvents cb lab t = s.called cb lab t := by
  have hact := Sys.apiStep_act hs
  apply outEvents_called
  · obtain ⟨b, bs, ret, ha, -⟩ | hq := step_written hw hact
    · exact absurd ha hlab
    · exact hq
  · obtain ha | ⟨thd, st, buf, ha, -⟩ := step_answers hact
    · exact ha
    · exact absurd ha hlab

end Sys

section
variable {ω σ : Type} {cb : ProtocolCallback ω σ} {s t : Sys σ} {l : List (OutEvent σ)}
  {whole : List (List UInt8 × SendRet σ)} {part : List UInt8}

/-- The calls waiting in the channel. -/
def Sys.waiting (s : Sys σ) : List (Nat × Request) :=
  s.msgQueue.map fun m => (m.1, Request.ofStr m.2)

/-- What has been done so far: the calls of `wifly_send` in `whole` have put all their bytes,
the current one has put `part`. -/
structure Kept (s : Sys σ) (l : List (OutEvent σ)) (whole : List (List UInt8 × SendRet σ))
    (part : List UInt8) : Prop where
  bytes : l.filterMap OutEvent.toPut = (whole.map Prod.fst).flatten ++ part
  starts : l.filterMap OutEvent.toStart = whole ++ s.pc.current part
  idle : s.pc.current part = [] → part = []
  clients : l.filterMap OutEvent.toCall = l.filterMap OutEvent.toServed ++ s.waiting
  returned : (l.filterMap OutEvent.toServed).map Prod.fst =
    l.filterMap OutEvent.toReleased ++ s.pc.serving.toList
  serving : ∀ rest thd, s.pc = .send rest (.release thd) →
    (l.filterMap OutEvent.toServed).getLast? = some (thd, .wiflySend (part ++ rest))
  own : l.filterMap OutEvent.toOwn = l.filterMap OutEvent.toOwnServed

theorem Kept.move (h : Kept s l whole part) (hs : s.pc.current part = []) {es : List (OutEvent σ)}
    (hput : es.filterMap OutEvent.toPut = [] ∧ es.filterMap OutEvent.toCall = [])
    (hstart : es.filterMap OutEvent.toStart = t.pc.current [])
    (hq : es.filterMap OutEvent.toServed ++ t.waiting = s.waiting)
    (hret : s.pc.serving.toList ++ (es.filterMap OutEvent.toServed).map Prod.fst =
      es.filterMap OutEvent.toReleased ++ t.pc.serving.toList)
    (hserve : ∀ rest thd, t.pc = .send rest (.release thd) →
      es.filterMap OutEvent.toServed = [(thd, .wiflySend rest)])
    (hown : es.filterMap OutEvent.toOwn = es.filterMap OutEvent.toOwnServed) :
    Kept t (l ++ es) whole part := by
  obtain rfl := h.idle hs
  refine ⟨?_, ?_, fun _ => rfl, ?_, ?_, fun rest thd hpc => ?_, ?_⟩
  · rw [List.filterMap_append, hput.1, List.append_nil]
    exact h.bytes
  · rw [List.filterMap_append, h.starts, hs, hstart, List.append_nil]
  · rw [List.filterMap_append, List.filterMap_append, hput.2, List.append_nil, List.append_assoc,
      hq]
    exact h.clients
  · rw [List.filterMap_append, List.filterMap_append, List.map_append, h.returned,
      List.append_assoc, List.append_assoc, hret]
  · rw [List.filterMap_append, hserve rest thd hpc, List.getLast?_concat, List.nil_append]
  · rw [List.filterMap_append, List.filterMap_append, h.own, hown]

theorem Kept.same (h : Kept s l whole part) (hs : s.pc.current part = [])
    (ht : ∀ p, t.pc.current p = []) (hq : t.msgQueue = s.msgQueue)
    (hv : t.pc.serving = s.pc.serving) : Kept t (l ++ []) whole part := by
  refine h.move hs ⟨rfl, rfl⟩ (ht []).symm (by simp only [Sys.waiting, hq]; rfl) ?_
    (fun rest thd hpc => ?_) rfl
  · rw [hv]
    exact List.append_nil _
  · have hc := ht []
    rw [hpc] at hc
    cases hc

theorem Kept.put (h : Kept s l whole part) {b : UInt8} {bs : List UInt8} {ret : SendRet σ}
    (hs : s.pc = .send (b :: bs) ret) (hq : t.msgQueue = s.msgQueue)
    (ht : t.pc = if bs = [] then .sendWait ret else .send bs ret) :
    ∃ whole' part', Kept t (l ++ [.put b]) whole' part' := by
  have hbytes : (l ++ [OutEvent.put b]).filterMap OutEvent.toPut =
      (whole.map Prod.fst).flatten ++ (part ++ [b]) := by
    rw [List.filterMap_append, h.bytes, List.append_assoc]
    rfl
  have hstarts := h.starts
  rw [hs, Pc.current] at hstarts
  have hret : s.pc.serving = t.pc.serving := by
    rw [hs, ht]
    split <;> cases ret <;> rfl
  have hreturned : (l.filterMap OutEvent.toServed).map Prod.fst =
      l.filterMap OutEvent.toReleased ++ t.pc.serving.toList := hret ▸ h.returned
  have hclients : l.filterMap OutEvent.toCall = l.filterMap OutEvent.toServed ++ t.waiting := by
    rw [Sys.waiting, hq]
    exact h.clients
  by_cases hbs : bs = []
  · rw [if_pos hbs] at ht
    refine ⟨whole ++ [(part ++ [b], ret)], [], ?_, ?_, fun _ => rfl, ?_, ?_, ?_, ?_⟩
    · rw [hbytes]
      simp
    · rw [List.filterMap_append, hstarts, ht, hbs]
      rfl
    all_goals simp only [List.filterMap_append, OutEvent.toCall, OutEvent.toServed,
      OutEvent.toReleased, OutEvent.toOwn, OutEvent.toOwnServed, List.filterMap_cons,
      List.filterMap_nil, List.append_nil]
    · exact hclients
    · exact hreturned
    · intro rest thd hpc
      rw [ht] at hpc
      cases hpc
    · exact h.own
  · rw [if_neg hbs] at ht
    refine ⟨whole, part ++ [b], hbytes, ?_, fun hc => ?_, ?_, ?_, ?_, ?_⟩
    · rw [List.filterMap_append, hstarts, ht, Pc.current, List.append_assoc part [b] bs]
      exact List.append_nil _
    · rw [ht] at hc
      cases hc
    all_goals simp only [List.filterMap_append, OutEvent.toCall, OutEvent.toServed,
      OutEvent.toReleased, OutEvent.toOwn, OutEvent.toOwnServed, List.filterMap_cons,
      List.filterMap_nil, List.append_nil]
    · exact hclients
    · exact hreturned
    · intro rest thd hpc
      rw [ht] at hpc
      cases hpc
      rw [h.serving _ _ hs, List.append_assoc]
      rfl
    · exact h.own

theorem Kept.frame (h : Kept s l whole part) (hpc : t.pc = s.pc) {es : List (OutEvent σ)}
    (hq : t.waiting = s.waiting ++ es.filterMap OutEvent.toCall)
    (hes : es.filterMap OutEvent.toPut = [] ∧ es.filterMap OutEvent.toStart = [] ∧
      es.filterMap OutEvent.toServed = [] ∧ es.filterMap OutEvent.toReleased = [] ∧
      es.filterMap OutEvent.toOwn = [] ∧ es.filterMap OutEvent.toOwnServed = []) :
    Kept t (l ++ es) whole part := by
  obtain ⟨h1, h2, h3, h4, h5, h6⟩ := hes
  refine ⟨?_, ?_, ?_, ?_, ?_, fun rest thd ht => ?_, ?_⟩
  all_goals try simp only [List.filterMap_append, h1, h2, h3, h4, h5, h6, List.append_nil]
  · exact h.bytes
  · rw [hpc]
    exact h.starts
  · rw [hpc]
    exact h.idle
  · rw [h.clients, hq, List.append_assoc]
  · rw [hpc]
    exact h.returned
  · exact h.serving rest thd (hpc ▸ ht)
  · exact h.own

theorem Kept.received (h : Kept s l whole part) (hs : s.pc.current part = []) {u : Sys σ}
    (hq : u.msgQueue = s.msgQueue) {st : State} {r : Recv} {ret : RecvRet σ}
    (hv : (Pc.recvWait r ret : Pc σ).serving = s.pc.serving) :
    Kept (u.received cb st r ret) (l ++ []) whole part := by
  cases ret with
  | release thd => exact h.same hs (fun _ => rfl) hq hv
  | callback x => exact h.same hs (fun _ => rfl) hq hv

theorem Kept.recvByte (h : Kept s l whole part) (hs : s.pc.current part = []) {u : Sys σ}
    (hq : u.msgQueue = s.msgQueue) {r : Recv} {inn : Int} {ret : RecvRet σ}
    {again : Recv → RecvRet σ → Pc σ} (hagain : ∀ r p, (again r ret).current p = [])
    (hv : ∀ r, (again r ret).serving = s.pc.serving ∧
      (Pc.recvWait r ret : Pc σ).serving = s.pc.serving) :
    Kept (u.recvByte cb r inn ret again) (l ++ []) whole part := by
  obtain ⟨-, he⟩ | ⟨-, -, he⟩ | ⟨-, -, he⟩ := Sys.recvByte_cases cb u r inn ret again
  · rw [he]
    refine h.same hs (fun _ => rfl) hq ?_
    rw [← (hv r).2]
    cases ret <;> rfl
  · rw [he]
    exact h.received hs hq (hv _).2
  · rw [he]
    exact h.same hs (hagain _) hq (hv _).1

/-- At this point the thread puts no byte, answers no client and does not run the callback. -/
def Pc.quiet : Pc σ → Bool
  | .send _ _ | .release _ _ _ | .drain _ _ | .callback _ => false
  | _ => true

/-- A step that shows no more than the call it enters, here none. -/
theorem Kept.quiet (h : Kept s l whole part) (hs : s.pc.quiet = true) (ht : t.pc.entered = [])
    (hq : t.msgQueue = s.msgQueue) (hv : t.pc.serving = s.pc.serving) :
    ∃ whole' part', Kept t (l ++ s.called cb (.act .thread) t) whole' part' := by
  have hcurrent : ∀ p, s.pc.current p = [] ∧ t.pc.current p = [] := by
    intro p
    constructor
    · cases hpc : s.pc <;> first | rfl | (rw [hpc] at hs; cases hs)
    · cases hpc : t.pc <;> first | rfl | (rw [hpc] at ht; cases ht)
  have hevents : s.called cb (.act .thread) t = [] := by
    cases hpc : s.pc with
    | send | release | drain | callback => rw [hpc] at hs; cases hs
    | _ => simp only [Sys.called, Sys.ownCalls, hpc, ht, List.append_nil]
  rw [hevents]
  exact ⟨whole, part, h.same (hcurrent part).1 (fun p => (hcurrent p).2) hq hv⟩

/-- A step of the thread that puts no byte and answers no client. -/
theorem kept_called (h : Kept s l whole part) (hm : Sys.Move cb s t)
    (hput : ∀ msg ret, s.pc ≠ .send msg ret) (hrelease : ∀ thd st buf, s.pc ≠ .release thd st buf) :
    ∃ whole' part', Kept t (l ++ s.called cb (.act .thread) t) whole' part' := by
  cases hm with
  | put b bs ret d hpc => exact absurd hpc (hput _ _)
  | readRequest thd q hpc hq =>
    have he : ∀ q, s.called cb (.act .thread)
        { s with msgQueue := q, pc := .drain ⟨[], wiflyElSize⟩ (.release thd) } =
        [.receive (.release thd)] := fun q => by
      simp only [Sys.called, Sys.ownCalls, hpc, Pc.entered, List.nil_append]
    rw [he]
    refine ⟨_, _, h.move (by rw [hpc]; rfl) ⟨rfl, rfl⟩ rfl ?_ ?_ (fun _ _ hc => by cases hc) rfl⟩
    · simp only [Sys.waiting, hq]
      rfl
    · rw [hpc]
      rfl
  | sendRequest thd str q hpc hq hne =>
    have he : ∀ q, s.called cb (.act .thread)
        { s with msgQueue := q, pc := .send str (.release thd) } = [.send str (.release thd)] :=
      fun q => by simp only [Sys.called, Sys.ownCalls, hpc, Pc.entered, List.nil_append]
    rw [he]
    refine ⟨_, _, h.move (by rw [hpc]; rfl) ⟨rfl, rfl⟩ rfl ?_ ?_ (fun _ _ hc => ?_) rfl⟩
    · simp only [Sys.waiting, hq, List.map_cons, Request.ofStr, if_neg hne]
      rfl
    · rw [hpc]
      rfl
    · cases hc
      rfl
  | release thd st buf hpc => exact absurd hpc (hrelease _ _ _)
  | register hpc | takeMessage hpc | listen hpc | event hpc | noEvent hpc | inputFlag hpc
  | errorFlags hpc | otherFlags hpc | call hpc =>
    exact h.quiet (by rw [hpc]; rfl) rfl rfl (by rw [hpc]; rfl)
  | byte hpc =>
    have he : ∀ t, s.called cb (.act .thread) t = t.pc.entered := fun t => by
      simp only [Sys.called, Sys.ownCalls, hpc, List.nil_append]
    rw [he]
    refine ⟨_, _, h.move (by rw [hpc]; rfl) ?_ ?_ ?_ ?_ (fun rest thd hc => ?_) ?_⟩
    all_goals dsimp only at *
    all_goals generalize s.fed.2 = v at *
    · cases v <;> exact ⟨rfl, rfl⟩
    · cases v <;> rfl
    · cases v <;> rfl
    · rw [hpc]
      cases v <;> rfl
    · cases v <;> cases hc
    · cases v <;> rfl
  | returnAnswer x m hpc hr =>
    have he : ∀ t, s.called cb (.act .thread) t = t.pc.entered := fun t => by
      simp only [Sys.called, Sys.ownCalls, hpc, hr, List.nil_append]
    rw [he]
    exact ⟨_, _, h.move (by rw [hpc]; rfl) ⟨rfl, rfl⟩ rfl rfl (by rw [hpc]; rfl)
      (fun rest thd hc => by cases hc) rfl⟩
  | returnMessage x hpc hr =>
    have he : ∀ t, s.called cb (.act .thread) t = t.pc.entered := fun t => by
      simp only [Sys.called, Sys.ownCalls, hpc, hr, List.nil_append]
    rw [he]
    exact ⟨_, _, h.same (by rw [hpc]; rfl) (fun _ => rfl) rfl (by rw [hpc]; rfl)⟩
  | callbackSendEmpty x hpc hr =>
    have he : ∀ t, s.called cb (.act .thread) t = t.pc.entered := fun t => by
      simp only [Sys.called, Sys.ownCalls, hpc, hr, if_pos, List.nil_append]
    rw [he]
    exact ⟨_, _, h.same (by rw [hpc]; rfl) (fun _ => rfl) rfl (by rw [hpc]; rfl)⟩
  | callbackSend x msg hpc hr hne =>
    have he : ∀ t, s.called cb (.act .thread) t = .own (.wiflySend msg) :: t.pc.entered :=
      fun t => by
        simp only [Sys.called, Sys.ownCalls, hpc, hr, if_neg hne, List.singleton_append]
    rw [he]
    exact ⟨_, _, h.move (by rw [hpc]; rfl) ⟨rfl, rfl⟩ rfl rfl (by rw [hpc]; rfl)
      (fun rest thd hc => by cases hc) rfl⟩
  | callbackRead x hpc hr =>
    have he : ∀ t, s.called cb (.act .thread) t = .own .wiflyRead :: t.pc.entered :=
      fun t => by simp only [Sys.called, Sys.ownCalls, hpc, hr, List.singleton_append]
    rw [he]
    exact ⟨_, _, h.move (by rw [hpc]; rfl) ⟨rfl, rfl⟩ rfl rfl (by rw [hpc]; rfl)
      (fun rest thd hc => by cases hc) rfl⟩
  | sendEvent ret hpc | sendMore ret hpc =>
    exact h.quiet (by rw [hpc]; rfl) rfl rfl (by rw [hpc]; cases ret <;> rfl)
  | sendDone ret hpc =>
    refine h.quiet (by rw [hpc]; rfl) ?_ ?_ ?_
    · cases ret <;> rfl
    · cases ret <;> rfl
    · rw [hpc]
      cases ret <;> rfl
  | drained r ret hpc =>
    have he : ∀ t, s.called cb (.act .thread) t = [] := fun t => by
      simp only [Sys.called, hpc]
    rw [he]
    refine ⟨_, _, h.same (by rw [hpc]; rfl) (fun _ => rfl) rfl ?_⟩
    rw [hpc]
    cases ret <;> rfl
  | drainByte r ret rx hpc =>
    have he : ∀ t, s.called cb (.act .thread) t = [] := fun t => by
      simp only [Sys.called, hpc]
    rw [he]
    refine ⟨_, _, h.recvByte (by rw [hpc]; rfl) ?_ (fun _ _ => rfl) fun _ => ?_⟩
    · rfl
    · rw [hpc]
      cases ret <;> exact ⟨rfl, rfl⟩
  | recvEvent r ret hpc =>
    have hquiet : s.pc.quiet = true := by rcases hpc with hpc | hpc <;> rw [hpc] <;> rfl
    refine h.quiet hquiet rfl rfl ?_
    rcases hpc with hpc | hpc <;> rw [hpc] <;> cases ret <;> rfl
  | recvSleep r ret hpc | recvInput r ret hpc | recvOther r ret hpc =>
    exact h.quiet (by rw [hpc]; rfl) rfl rfl (by rw [hpc]; cases ret <;> rfl)
  | recvError r ret hpc | recvNothing r ret hpc =>
    refine h.quiet (by rw [hpc]; rfl) ?_ ?_ ?_
    · cases ret <;> rfl
    · cases ret <;> rfl
    · rw [hpc]
      cases ret <;> rfl
  | recvByte r ret rx hpc =>
    have hquiet : s.pc.quiet = true := by rw [hpc]; rfl
    obtain ⟨-, he⟩ | ⟨-, -, he⟩ | ⟨-, -, he⟩ :=
      Sys.recvByte_cases cb s.dequeued r (inOf (some rx)) ret .recvWait <;> rw [he]
    · exact h.quiet hquiet rfl rfl (by rw [hpc]; cases ret <;> rfl)
    · apply h.quiet hquiet
      · cases ret <;> rfl
      · cases ret <;> rfl
      · rw [hpc]
        cases ret <;> rfl
    · exact h.quiet hquiet rfl rfl (by rw [hpc]; cases ret <;> rfl)
  | iqResetWrptr ret hpc | iqResetRdptr ret hpc =>
    refine h.quiet (by rw [hpc]; rfl) rfl rfl ?_
    rw [hpc]
    rcases ret with _ | _ | ⟨r, _ | _⟩ <;> rfl
  | iqResetCounter ret hpc =>
    refine h.quiet (by rw [hpc]; rfl) ?_ ?_ ?_
    · rcases ret with _ | _ | ⟨r, _ | _⟩ <;> rfl
    · rcases ret with _ | _ | ⟨r, _ | _⟩ <;> rfl
    · rw [hpc]
      rcases ret with _ | _ | ⟨r, _ | _⟩ <;> rfl
  | oqReset k pc hpc hk =>
    refine h.quiet (by rw [hpc]; rfl) ?_ rfl ?_
    · obtain ⟨k', rfl⟩ | rfl := hk <;> rfl
    · rw [hpc]
      obtain ⟨k', rfl⟩ | rfl := hk <;> rfl

theorem kept_move (h : Kept s l whole part) (hw : s.WrptrOk) (hs : s.threadStep cb = some t) :
    ∃ whole' part', Kept t (l ++ s.outEvents cb (.act .thread) t) whole' part' := by
  have hm := Sys.threadStep_move hs
  by_cases hput : ∃ msg ret, s.pc = .send msg ret
  · obtain ⟨msg, ret, hpc⟩ := hput
    simp only [Sys.threadStep, hpc] at hs
    cases msg with
    | nil => cases hs
    | cons b bs =>
      obtain ⟨d, hd, rfl⟩ := Option.map_eq_some_iff.1 hs
      obtain ⟨q, hq, rfl⟩ := Option.map_eq_some_iff.1 hd
      have hwritten : s.sd.oqueue.written q = [b] :=
        GenericQueue.chOQPut_written (by decide) hw hq
      have he : s.outEvents cb (.act .thread) { s with
          sd := { s.sd with oqueue := q, cr1 := { s.sd.cr1 with txeie := true } }
          pc := if bs = [] then .sendWait ret else .send bs ret } = [.put b] := by
        simp only [Sys.outEvents, Sys.called, hwritten, hpc, List.drop_length]
        rfl
      rw [he]
      exact h.put hpc rfl rfl
  · have hwritten : s.sd.oqueue.written t.sd.oqueue = [] := by
      obtain ⟨b, bs, ret, -, hpc, -⟩ | hq := Sys.step_written (a := .thread) hw hs
      · exact absurd ⟨_, _, hpc⟩ hput
      · exact hq
    by_cases hrelease : ∃ thd st buf, s.pc = .release thd st buf
    · obtain ⟨thd, st, buf, hpc⟩ := hrelease
      simp only [Sys.threadStep, hpc] at hs
      cases hs
      have he : s.outEvents cb (.act .thread)
          { s with pc := .evtWait, answers := s.answers ++ [⟨thd, st, buf⟩] } =
          [.released thd] := by
        simp only [Sys.outEvents, Sys.called, Sys.ownCalls, hwritten, hpc, List.drop_left]
        rfl
      rw [he]
      refine ⟨_, _, h.move (by rw [hpc]; rfl) ⟨rfl, rfl⟩ rfl rfl ?_ (fun _ _ hc => by cases hc) rfl⟩
      rw [hpc]
      rfl
    · have hanswers : t.answers = s.answers := by
        obtain ha | ⟨thd, st, buf, hpc, -⟩ := hm.answers
        · exact ha
        · exact absurd ⟨_, _, _, hpc⟩ hrelease
      rw [Sys.outEvents_called hwritten hanswers]
      exact kept_called h hm (fun msg ret hpc => hput ⟨msg, ret, hpc⟩)
        fun thd st buf hpc => hrelease ⟨thd, st, buf, hpc⟩

theorem kept_step {a : Label} (h : Kept s l whole part) (hw : s.WrptrOk)
    (hst : s.apiStep cb a = some t) :
    ∃ whole' part', Kept t (l ++ s.outEvents cb a t) whole' part' := by
  cases a with
  | call thd r =>
    rw [Sys.outEvents_beside hw hst (by simp [Sys.labelAct])]
    obtain ⟨str, hstr, hst⟩ := Option.bind_eq_some_iff.1 hst
    dsimp only [Sys.step] at hst
    split at hst
    · cases hst
    · cases hst
      refine ⟨whole, part, h.frame ?_ ?_ ⟨rfl, rfl, rfl, rfl, rfl, rfl⟩⟩
      · rfl
      · show List.map _ _ = List.map _ _ ++ _
        rw [List.map_append, List.map_singleton, Request.ofStr_str hstr]
        rfl
  | act a =>
    have hst' : s.step cb a = some t := by
      cases a with
      | client thd str => cases hst
      | thread | timeout | result | usart => exact hst
    obtain ⟨rfl, -⟩ | ⟨r, ret, rfl, hpc, -, rfl⟩ | ⟨x, v, rfl, hpc, rfl⟩ | ⟨sr, dr, rfl, rfl⟩ |
      ⟨thd, str, rfl, -⟩ := Sys.step_cases hst'
    · exact kept_move h hw hst'
    · rw [Sys.outEvents_beside hw hst (by simp [Sys.labelAct])]
      refine ⟨whole, part, h.received (by rw [hpc]; rfl) rfl ?_⟩
      rw [hpc]
      cases ret <;> rfl
    · rw [Sys.outEvents_beside hw hst (by simp [Sys.labelAct])]
      exact ⟨whole, part, h.same (by rw [hpc]; rfl) (fun _ => rfl) rfl (by rw [hpc]; rfl)⟩
    · rw [Sys.outEvents_beside hw hst (by simp [Sys.labelAct])]
      refine ⟨whole, part, h.frame ?_ ?_ ⟨rfl, rfl, rfl, rfl, rfl, rfl⟩⟩
      · rfl
      · exact (List.append_nil _).symm
    · cases hst

/-- The messages served are those of the calls of `wifly_send` for clients. -/
theorem sends_served (l : List (OutEvent σ)) :
    (l.filterMap OutEvent.toServed).filterMap sendMessage =
      (l.filterMap OutEvent.toStart).filterMap clientMessage := by
  rw [List.filterMap_filterMap, List.filterMap_filterMap]
  refine List.filterMap_congr fun e _ => ?_
  cases e with
  | send msg ret => cases ret <;> rfl
  | receive ret => cases ret <;> rfl
  | call | own | put | released => rfl

/-- The messages sent for the callback are those of its calls of `wifly_send`. -/
theorem own_served (l : List (OutEvent σ)) :
    (l.filterMap OutEvent.toOwnServed).filterMap Request.message =
      (l.filterMap OutEvent.toStart).filterMap ownMessage := by
  rw [List.filterMap_filterMap, List.filterMap_filterMap]
  refine List.filterMap_congr fun e _ => ?_
  cases e with
  | send msg ret => cases ret <;> rfl
  | receive ret => cases ret <;> rfl
  | call | own | put | released => rfl

/-- `Kept`, and what it says of the messages. Those of the clients' calls that have returned
are the first of those put as a whole, and these are put in the order of the calls. Those of
the callback's calls are put as a whole, except for a call that has not returned. -/
structure Outgoing (t : Sys σ) (l : List (OutEvent σ)) (whole : List (List UInt8 × SendRet σ))
    (part : List UInt8) : Prop extends Kept t l whole part where
  sent : ((l.filterMap OutEvent.toCall).take (l.filterMap OutEvent.toReleased).length).filterMap
    sendMessage <+: whole.filterMap clientMessage
  order : whole.filterMap clientMessage <+: (l.filterMap OutEvent.toCall).filterMap sendMessage
  ownSent : (l.filterMap OutEvent.toOwn).filterMap Request.message =
    whole.filterMap ownMessage ++ (t.pc.current part).filterMap ownMessage

theorem Kept.outgoing (h : Kept s l whole part) : Outgoing s l whole part := by
  have hserved := sends_served l
  rw [h.starts, List.filterMap_append] at hserved
  refine ⟨h, ?_, ?_, ?_⟩
  · have hlen := congrArg List.length h.returned
    rw [List.length_map, List.length_append] at hlen
    rw [h.clients, List.take_append_of_le_length (by omega)]
    by_cases hc : ∃ rest thd, s.pc = .send rest (.release thd)
    · obtain ⟨rest, thd, hpc⟩ := hc
      obtain ⟨done, hdone⟩ := List.getLast?_eq_some_iff.1 (h.serving rest thd hpc)
      rw [hpc] at hlen hserved
      rw [hdone, List.length_append] at hlen
      rw [hdone, List.filterMap_append] at hserved
      have hn : done.length = (l.filterMap OutEvent.toReleased).length := Nat.add_right_cancel hlen
      rw [hdone, ← hn, List.take_left]
      exact List.append_cancel_right hserved ▸ List.prefix_rfl
    · have hcur : (s.pc.current part).filterMap clientMessage = [] := by
        unfold Pc.current
        split
        · next rest ret hpc =>
          cases ret with
          | release thd => exact absurd ⟨rest, thd, hpc⟩ hc
          | overflow | reply | callback => rfl
        · rfl
      rw [hcur, List.append_nil] at hserved
      rw [← hserved]
      exact (List.take_prefix _ _).filterMap _
  · rw [h.clients, List.filterMap_append, hserved, List.append_assoc]
    exact List.prefix_append _ _
  · rw [h.own, own_served, h.starts, List.filterMap_append]

theorem outEvents_starts (lab : Label) :
    (s.outEvents cb lab t).filterMap OutEvent.toStart =
      (s.called cb lab t).filterMap OutEvent.toStart := by
  have hput : ∀ bs : List UInt8,
      (bs.map (.put : UInt8 → OutEvent σ)).filterMap OutEvent.toStart = [] := by
    intro bs
    rw [List.filterMap_map, List.filterMap_eq_nil_iff]
    exact fun _ _ => rfl
  have hreleased : ∀ as : List Answer,
      (as.map fun a => (.released a.thd : OutEvent σ)).filterMap OutEvent.toStart = [] := by
    intro as
    rw [List.filterMap_map, List.filterMap_eq_nil_iff]
    exact fun _ _ => rfl
  rw [Sys.outEvents, List.filterMap_append, List.filterMap_append, hput, hreleased]
  rfl

theorem outEvents_puts (lab : Label) :
    (s.outEvents cb lab t).filterMap OutEvent.toPut = s.sd.oqueue.written t.sd.oqueue := by
  have hown : (s.ownCalls cb).filterMap OutEvent.toPut = [] := by
    unfold Sys.ownCalls
    split
    · split
      · split <;> rfl
      · rfl
      · rfl
    · rfl
  have hentered : t.pc.entered.filterMap OutEvent.toPut = [] := by
    cases t.pc <;> rfl
  have hcalled : (s.called cb lab t).filterMap OutEvent.toPut = [] := by
    unfold Sys.called
    split
    · rfl
    · split
      · rfl
      · rfl
      · rw [List.filterMap_append, hown, hentered, List.append_nil]
    · rfl
  have hreleased : ∀ as : List Answer,
      (as.map fun a => (.released a.thd : OutEvent σ)).filterMap OutEvent.toPut = [] := by
    intro as
    rw [List.filterMap_map, List.filterMap_eq_nil_iff]
    exact fun _ _ => rfl
  rw [Sys.outEvents, List.filterMap_append, List.filterMap_append, hcalled, hreleased,
    List.append_nil, List.append_nil, List.filterMap_map]
  exact List.filterMap_some

theorem run_outgoing {C : Sys σ → Label → Prop} {as : List Label}
    (h : Steps (Sys.apiStep cb) C Sys.init as t) : ∃ whole part,
      Outgoing t (observe (Sys.apiStep cb) (Sys.outEvents cb) Sys.init as) whole part := by
  have h0 : Kept (Sys.init : Sys σ) [] [] [] :=
    ⟨rfl, rfl, fun _ => rfl, rfl, rfl, fun _ _ hc => (by cases hc), rfl⟩
  have hstep : ∀ (s : Sys σ) (l : List (OutEvent σ)) (a : Label) (t : Sys σ),
      (∃ whole part, Kept s l whole part) ∧ s.WrptrOk → C s a → s.apiStep cb a = some t →
      (∃ whole part, Kept t (l ++ s.outEvents cb a t) whole part) ∧ t.WrptrOk := by
    rintro s l a t ⟨⟨whole, part, hk⟩, hw⟩ - hst
    exact ⟨kept_step hk hw hst, Sys.step_wrptr hw (Sys.apiStep_act hst)⟩
  obtain ⟨⟨whole, part, hk⟩, -⟩ := h.inv_observe hstep ⟨⟨[], [], h0⟩, Sys.init_wrptr⟩
  exact ⟨whole, part, hk.outgoing⟩

/-- **Outgoing messages are whole, in order and sent once**, whatever is called, received and
scheduled. What a step puts is queued behind what the queue holds, and leaves it for the
transmitter in that order; only a reset drops what is queued. -/
theorem outgoing_whole {as : List Label} (h : Steps (Sys.apiStep cb) Always Sys.init as t) :
    (∃ whole part,
      Outgoing t (observe (Sys.apiStep cb) (Sys.outEvents cb) Sys.init as) whole part) ∧
    ∀ lab u Q, t.apiStep cb lab = some u → (∀ k, t.pc ≠ .oqReset k) → t.sd.oqueue.OQHolds Q →
      ∃ Q', u.sd.oqueue.OQHolds Q' ∧
        u.sd.tx ++ Q' = t.sd.tx ++ Q ++ (t.outEvents cb lab u).filterMap OutEvent.toPut := by
  refine ⟨run_outgoing h, fun lab u Q hst hr hQ => ?_⟩
  rw [outEvents_puts]
  exact Sys.step_queued (Sys.apiStep_act hst) hr hQ

end

/-- A read is served after the message that was queued before it. -/
theorem outgoing_whole_before_read :
    ∃ t whole part, Outgoing (σ := Main.Point) t
      [.call 7 (.wiflySend [97, 98]), .call 8 .wiflyRead, .send [97, 98] (.release 7), .put 97,
        .put 98, .released 7, .receive (.release 8)] whole part := by
  let as : List Label := script [(1, .act .thread), (1, .call 7 (.wiflySend [97, 98])),
    (1, .call 8 .wiflyRead), (4, .act .thread), (3, .act .tx), (7, .act .thread)]
  have hrun : (exec (Sys.apiStep Main.callback) Always Sys.init as).isSome = true := by
    decide +kernel
  obtain ⟨t, ht⟩ := Option.isSome_iff_exists.1 hrun
  have hshown : observe (Sys.apiStep Main.callback) (Sys.outEvents Main.callback) Sys.init as =
      [.call 7 (.wiflySend [97, 98]), .call 8 .wiflyRead, .send [97, 98] (.release 7), .put 97,
        .put 98, .released 7, .receive (.release 8)] := by decide +kernel
  rw [← hshown]
  exact ⟨t, (outgoing_whole (steps_of_exec ht)).1⟩

end RobotPws.Wifly
