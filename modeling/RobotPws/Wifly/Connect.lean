import Mathlib.Tactic.IntervalCases
import RobotPws.Wifly.Answer

/-!
# Connecting to the network

`wiflyConnect` among the other threads: which commands it sends to the module, what it accepts as
their answers, and what it returns. The text of a command and the answer it is compared with are in
blocks of the pool, so the first part says whose strings a step can change.
-/

namespace RobotPws.Wifly.Buffers

open RobotPws.Lib RobotPws.Kernel RobotPws.Main

/-! ## The strings of other blocks -/

/-- Only the strings in these blocks change. -/
def Heap.Keeps (S : Multiset Nat) (h h' : Heap) : Prop := ∀ b, b ∉ S → h'.chars b = h.chars b

section
variable {word : Option Nat → List UInt8 → Option Nat} {h h' : Heap} {S : Multiset Nat}

theorem Heap.Keeps.trans {h'' : Heap} (h1 : Heap.Keeps S h h') (h2 : Heap.Keeps S h' h'') :
    Heap.Keeps S h h'' := fun b hb => (h2 b hb).trans (h1 b hb)

theorem store_chars {a : Nat} {str : List UInt8} (hs : h.store word a str = some h') :
    h'.chars = Function.update h.chars a (cText str) := by
  unfold Heap.store at hs
  split at hs
  · cases hs
    rfl
  · cases hs

theorem store_length {a : Nat} {str : List UInt8} (hs : h.store word a str = some h') :
    str.length < wiflyElSize := by
  unfold Heap.store at hs
  split at hs
  · assumption
  · cases hs

theorem store_keeps {a : Nat} {str : List UInt8} (ha : a ∈ S) (hs : h.store word a str = some h') :
    Heap.Keeps S h h' := by
  intro b hb
  rw [store_chars hs]
  refine Function.update_of_ne ?_ _ _
  rintro rfl
  exact hb ha

theorem storeTotal_keeps {total : Option Nat} {f : List UInt8 → Option (List UInt8)}
    (ht : ∀ a ∈ total, a ∈ S) (hs : h.storeTotal word total f = some h') : Heap.Keeps S h h' := by
  cases total with
  | none => cases hs; exact fun _ _ => rfl
  | some a =>
    obtain ⟨str, -, hs⟩ := Option.bind_eq_some_iff.1 hs
    exact store_keeps (ht a rfl) hs

theorem request_keeps {buf : Nat} {q : Req Op} {inp : Input} (hb : buf ∈ S)
    (hs : request word h buf q inp = some h') : Heap.Keeps S h h' := by
  unfold request at hs
  split at hs
  · exact store_keeps hb hs
  · cases hs; exact fun _ _ => rfl
  · cases hs; exact fun _ _ => rfl
  · cases hs

theorem alloc_keeps {r : Nat × Heap} (hr : r.1 ∈ S) (hs : h.alloc word = some r) :
    Heap.Keeps S h r.2 := by
  obtain ⟨buf, -, hs⟩ := Option.bind_eq_some_iff.1 hs
  obtain ⟨h', hh, rfl⟩ := Option.map_eq_some_iff.1 hs
  exact store_keeps (h := ⟨h.pool.chPoolAllocI.2, h.chars⟩) hr hh

/-- The strings `wiflyReadCommand` changes are in its own block and in that of `total`. -/
theorem readCommand_keeps {cmd : List UInt8} {total : Option Nat} {pc : ReadPc} {inp : Input}
    {r : Heap × Next ReadPc} (hs : pc.step word cmd total h inp = some r) (hpc : pc.held ⊆ S)
    (hnext : r.2.held ReadPc.held ⊆ S) (htotal : ∀ a ∈ total, a ∈ S) : Heap.Keeps S h r.1 := by
  have hbuf : ∀ {buf : Nat}, ({buf} : Multiset Nat) ⊆ S → buf ∈ S := fun hsub =>
    hsub (Multiset.mem_singleton_self _)
  cases readCommand_move hs with
  | alloc hr => exact alloc_keeps (hbuf hnext) hr
  | clear hh => exact storeTotal_keeps htotal hh
  | start hq hh => exact request_keeps (hbuf hpc) hh
  | loop => exact fun _ _ => rfl
  | line hh hok hh' => exact (store_keeps (hbuf hpc) hh).trans (storeTotal_keeps htotal hh')
  | last hh hend => exact store_keeps (hbuf hpc) hh
  | exit hh => exact request_keeps (hbuf hpc) hh
  | skip hh => exact storeTotal_keeps htotal hh
  | free => exact fun _ _ => rfl

theorem sendCommand_keeps {cmd ans : List UInt8} {pc : SendPc} {inp : Input}
    {r : Heap × Next SendPc} (hs : pc.step word cmd ans h inp = some r) (hpc : pc.held ⊆ S)
    (hnext : r.2.held SendPc.held ⊆ S) : Heap.Keeps S h r.1 := by
  cases sendCommand_move hs with
  | alloc hr =>
    exact alloc_keeps (hnext (Multiset.mem_add.2 (.inl (Multiset.mem_singleton_self _)))) hr
  | @read buf pc _ r hr =>
    have hbuf : buf ∈ S := hpc (Multiset.mem_add.2 (.inl (Multiset.mem_singleton_self _)))
    refine readCommand_keeps hr (fun b hb => hpc (Multiset.mem_add.2 (.inr hb))) ?_ ?_
    · cases hr2 : r.2 with
      | cont pc =>
        rw [hr2] at hnext
        exact fun b hb => hnext (Multiset.mem_add.2 (.inr hb))
      | ret s => exact fun b hb => (Multiset.notMem_zero b hb).elim
    · rintro a ⟨rfl⟩
      exact hbuf
  | free => exact fun _ _ => rfl

theorem connect_keeps {ssid phrase : List UInt8} {pc : ConnectPc} {inp : Input}
    {r : Heap × Next ConnectPc} (hs : pc.step word ssid phrase h inp = some r) (hpc : pc.held ⊆ S)
    (hnext : r.2.held ConnectPc.held ⊆ S) : Heap.Keeps S h r.1 := by
  cases connect_move hs with
  | @first c rest pc _ r hr =>
    refine sendCommand_keeps hr hpc ?_
    cases hr2 : r.2 with
    | cont pc =>
      rw [hr2] at hnext
      exact hnext
    | ret s => exact fun b hb => (Multiset.notMem_zero b hb).elim
  | alloc hr => exact alloc_keeps (hnext (Multiset.mem_singleton_self _)) hr
  | build hh =>
    split at hh
    · exact store_keeps (hpc (Multiset.mem_singleton_self _)) hh
    · cases hh
      exact fun _ _ => rfl
  | built => exact fun _ _ => rfl
  | @last buf c rest pc _ r hr =>
    refine sendCommand_keeps hr (fun b hb => hpc (Multiset.mem_add.2 (.inr hb))) ?_
    cases hr2 : r.2 with
    | cont pc =>
      rw [hr2] at hnext
      exact fun b hb => hnext (Multiset.mem_add.2 (.inr hb))
    | ret s => exact fun b hb => (Multiset.notMem_zero b hb).elim
  | free => exact fun _ _ => rfl

/-- A step of a thread changes the strings in its own blocks only. -/
theorem call_keeps {c : Call} {inp : Input} {r : Heap × Option Call}
    (hs : c.step word h inp = some r) : Heap.Keeps (c.held + heldBy r.2) h r.1 := by
  cases c with
  | readCommand cmd pc =>
    obtain ⟨r, hr, rfl⟩ := Option.map_eq_some_iff.1 hs
    rw [heldBy_call fun _ => rfl]
    exact readCommand_keeps hr (Multiset.subset_of_le (Multiset.le_add_right _ _))
      (Multiset.subset_of_le (Multiset.le_add_left _ _)) (fun a ha => by cases ha)
  | sendCommand cmd ans pc =>
    obtain ⟨r, hr, rfl⟩ := Option.map_eq_some_iff.1 hs
    rw [heldBy_call fun _ => rfl]
    exact sendCommand_keeps hr (Multiset.subset_of_le (Multiset.le_add_right _ _))
      (Multiset.subset_of_le (Multiset.le_add_left _ _))
  | connect ssid phrase pc =>
    obtain ⟨r, hr, rfl⟩ := Option.map_eq_some_iff.1 hs
    rw [heldBy_call fun _ => rfl]
    exact connect_keeps hr (Multiset.subset_of_le (Multiset.le_add_right _ _))
      (Multiset.subset_of_le (Multiset.le_add_left _ _))

end

/-! ## What is exchanged with the module -/

/-- A command sent to the module, and the lines accepted as its answer. -/
structure Exchange where
  cmd : List UInt8
  lines : List (List UInt8)
  deriving DecidableEq, Repr

/-- One more line for the last command. -/
def addLine : List Exchange → List UInt8 → List Exchange
  | [], _ => []
  | [e], line => [{ e with lines := e.lines ++ [line] }]
  | e :: es, line => e :: addLine es line

/-- What a thread has exchanged with the module. -/
structure Talk where
  exchanges : List Exchange
  /-- in command mode, the text sent since the last newline -/
  typed : Option (List UInt8)
  deriving DecidableEq, Repr

namespace Talk

/-- `wiflySend(msg)`: `$$$` enters the command mode, a newline ends a command and the line
`exit` leaves the mode; text sent outside it is for the other side of the network. -/
def send (t : Talk) (msg : List UInt8) : Talk :=
  if msg = ascii "$$$" then { t with typed := some [] }
  else
    match t.typed with
    | none => t
    | some text =>
      if msg = ascii "exit\r\n" then { t with typed := none }
      else if msg = ascii "\r\n" then ⟨t.exchanges ++ [⟨text, []⟩], some []⟩
      else { t with typed := some (text ++ msg) }

def request (t : Talk) : Req Op → Talk
  | .send msg => t.send msg
  | _ => t

/-- The commands whose text has been sent. -/
def texts (t : Talk) : List (List UInt8) :=
  t.exchanges.map Exchange.cmd ++ if t.typed.getD [] = [] then [] else [t.typed.getD []]

end Talk

/-- The request a step of `wiflyReadCommand` makes; `cmd` is the string it sends. -/
def ReadPc.req (cmd : List UInt8) : ReadPc → Option (Req Op)
  | start _ n => (commandStart cmd)[n]?
  | answer _ => some .read
  | exit _ todo => todo.head?
  | _ => none

/-- What this step of `wiflyReadCommand` exchanges. -/
def ReadPc.exchange (cmd : List UInt8) (t : Talk) : ReadPc → Input → Talk
  | answer _, .line st line =>
    let r : Reading := ⟨st, line⟩
    if r.accepted then { t with exchanges := addLine t.exchanges r.buf } else t
  | pc, _ => (pc.req cmd).elim t t.request

def SendPc.exchange (cmd : List UInt8) (t : Talk) : SendPc → Input → Talk
  | read _ pc, inp => pc.exchange cmd t inp
  | _, _ => t

/-- The string `wiflySendCommand` gets as a command may be in a block. -/
def ConnectPc.exchange (h : Heap) (t : Talk) : ConnectPc → Input → Talk
  | first c _ pc, inp => pc.exchange c.cmd t inp
  | last buf c _ pc, inp => pc.exchange (c.text h buf) t inp
  | _, _ => t

/-- What `wiflyConnect(ssid, phrase)` has returned. -/
structure Returned where
  ssid : List UInt8
  phrase : List UInt8
  st : State
  deriving DecidableEq, Repr

/-- The threads, one of them watched. -/
structure Watched (n : Nat) where
  threads : Threads n
  /-- the exchanges of its last call, if this is one of `wiflyConnect` -/
  talk : Talk
  result : Option Returned

namespace Watched

variable {n : Nat}

def init (mem : Nat → Option Nat) (chars : Nat → List UInt8) (charMem : Nat) : Watched n :=
  ⟨.init mem chars charMem, ⟨[], none⟩, none⟩

section
variable (word : Option Nat → List UInt8 → Option Nat) (thd : Fin n)

/-- The watched thread takes a step in `wiflyConnect`. -/
def connectStep (s : Watched n) (ssid phrase : List UInt8) (pc : ConnectPc) (inp : Input) :
    Talk × Option Returned :=
  (pc.exchange s.threads.heap s.talk inp,
    match pc.step word ssid phrase s.threads.heap inp with
    | some (_, .ret st) => some ⟨ssid, phrase, st⟩
    | _ => none)

/-- What is seen of a step. -/
def see (s : Watched n) : Act n → Talk × Option Returned
  | .call i _ => if i = thd then (⟨[], none⟩, none) else (s.talk, s.result)
  | .run i inp =>
    if i = thd then
      match s.threads.calls thd with
      | some (.connect ssid phrase pc) => s.connectStep word ssid phrase pc inp
      | _ => (s.talk, s.result)
    else (s.talk, s.result)

def step (s : Watched n) (a : Act n) : Option (Watched n) :=
  (s.threads.step word a).map fun t => ⟨t, (s.see word thd a).1, (s.see word thd a).2⟩

end

end Watched

/-- The commands of `wiflyConnect`, in their order. -/
def commands (ssid phrase : List UInt8) : List Command := connectFirst ++ connectLast ssid phrase

/-- The command, answered by exactly the line it asks for. -/
def Command.matched (c : Command) : Exchange := ⟨c.cmd, [c.ans]⟩

/-- The commands sent are the first ones of these, and all before the last one have been
answered. -/
def Issued (cs : List Command) (t : Talk) : Prop :=
  t.texts <+: cs.map Command.cmd ∧
    t.exchanges.take (t.texts.length - 1) = (cs.take (t.texts.length - 1)).map Command.matched

/-! ## The exchange at each point -/

theorem addLine_append (es : List Exchange) (e : Exchange) (line : List UInt8) :
    addLine (es ++ [e]) line = es ++ [⟨e.cmd, e.lines ++ [line]⟩] := by
  induction es with
  | nil => rfl
  | cons e' es ih =>
    rw [List.cons_append, List.cons_append, ← ih]
    cases es <;> rfl

namespace Talk

/-- Not one of the messages that stand for themselves. -/
structure Plain (cmd : List UInt8) : Prop where
  enter : cmd ≠ ascii "$$$"
  leave : cmd ≠ ascii "exit\r\n"
  newline : cmd ≠ ascii "\r\n"

/-- After the first `n` requests of `wiflyReadCommand(cmd, total)`. -/
def started (cmd : List UInt8) (es : List Exchange) (n : Nat) : Talk :=
  ((commandStart cmd).take n).foldl request ⟨es, none⟩

theorem started_succ {cmd : List UInt8} (es : List Exchange) {n : Nat} {q : Req Op}
    (hq : (commandStart cmd)[n]? = some q) :
    started cmd es (n + 1) = (started cmd es n).request q := by
  rw [started, List.take_add_one, hq, Option.toList_some, List.foldl_append]
  rfl

theorem Plain.started_eq {cmd : List UInt8} (h : Plain cmd) (es : List Exchange) :
    (∀ n, n ≤ 4 → started cmd es n = ⟨es, none⟩) ∧
      (∀ n, 5 ≤ n → n ≤ 7 → started cmd es n = ⟨es, some []⟩) ∧
      started cmd es 8 = ⟨es, some cmd⟩ ∧
      ∀ n, 9 ≤ n → started cmd es n = ⟨es ++ [⟨cmd, []⟩], some []⟩ := by
  -- the messages before `$$$`
  have h1 : started cmd es 1 = ⟨es, none⟩ := by
    rw [started_succ es (q := .send (ascii "***COMMAND - ")) rfl]
    rfl
  have h2 : started cmd es 2 = ⟨es, none⟩ := by
    rw [started_succ es (q := .send cmd) rfl, h1]
    exact if_neg h.enter
  have h3 : started cmd es 3 = ⟨es, none⟩ := by
    rw [started_succ es (q := .send (ascii " - ***\r\n")) rfl, h2]
    rfl
  have h4 : started cmd es 4 = ⟨es, none⟩ := h3
  -- in command mode
  have h5 : started cmd es 5 = ⟨es, some []⟩ := by
    rw [started_succ es (q := .send (ascii "$$$")) rfl, h4]
    rfl
  have h8 : started cmd es 8 = ⟨es, some cmd⟩ := by
    rw [started_succ es (q := .send cmd) rfl, show started cmd es 7 = _ from h5, request, send,
      if_neg h.enter]
    dsimp only
    rw [if_neg h.leave, if_neg h.newline, List.nil_append]
  have h9 : started cmd es 9 = ⟨es ++ [⟨cmd, []⟩], some []⟩ := by
    rw [started_succ es (q := .send (ascii "\r\n")) rfl, h8]
    rfl
  refine ⟨fun n hn => ?_, fun n hn hn' => ?_, h8, fun n hn => ?_⟩
  · interval_cases n
    · rfl
    · exact h1
    · exact h2
    · exact h3
    · exact h4
  · interval_cases n <;> exact h5
  · obtain rfl | hlt := Nat.eq_or_lt_of_le hn
    · exact h9
    · rw [started, List.take_of_length_le (by simp [commandStart]; omega)]
      exact h9

end Talk

/-- The string in `total` is the answer to the last command so far. -/
def Collected (total : Nat) (cmd : List UInt8) (es : List Exchange) (h : Heap)
    (now : List Exchange) : Prop :=
  ∃ lines, now = es ++ [⟨cmd, lines⟩] ∧ h.chars total = withNewlines lines ∧
    0 ∉ withNewlines lines ∧ (withNewlines lines).length < wiflyElSize

/-- Calls of `wiflySend`, `wiflyRead` and `chThdSleepMilliseconds` only. -/
def NoReturn (todo : List (Req Op)) : Prop := ∀ m, Req.ret m ∉ todo

/-- The command mode is left by the first request after the loop. -/
def Leaving (todo : List (Req Op)) (typed : Option (List UInt8)) : Prop :=
  (todo = commandEnd ∧ typed = some []) ∨ ((∀ msg, Req.send msg ∉ todo) ∧ typed = none)

/-- `wiflyReadCommand` after the exchanges `es`. -/
def ReadPc.Answers (total : Nat) (cmd : List UInt8) (es : List Exchange) (h : Heap) :
    ReadPc → Talk → Prop
  | alloc, now | clear _, now => now = ⟨es, none⟩
  | start _ n, now => h.chars total = [] ∧ now = Talk.started cmd es n
  | answer _, now => Collected total cmd es h now.exchanges ∧ now.typed = some []
  | exit _ todo, now =>
    NoReturn todo ∧ Collected total cmd es h now.exchanges ∧ Leaving todo now.typed
  | free _, now =>
    ∃ lines, now = ⟨es ++ [⟨cmd, lines⟩], none⟩ ∧ lines ≠ [] ∧
      h.chars total = (ascii "\r\n").intercalate lines

/-- `wiflySendCommand` has found out whether the answer is the right one. -/
def Judged (cmd ans : List UInt8) (es : List Exchange) (s : State) (now : Talk) : Prop :=
  ∃ lines, now = ⟨es ++ [⟨cmd, lines⟩], none⟩ ∧
    (s = .ok ∧ lines = [ans] ∨ s = .error ∧ lines ≠ [ans])

def SendPc.Answers (cmd ans : List UInt8) (es : List Exchange) (h : Heap) : SendPc → Talk → Prop
  | alloc, now => now = ⟨es, none⟩
  | read total pc, now => pc.Answers total cmd es h now
  | free _ s, now => Judged cmd ans es s now

/-- `wiflyConnect` has its result. -/
def Finished (cs : List Command) (s : State) (now : Talk) : Prop :=
  (s = .ok ∧ now = ⟨cs.map Command.matched, none⟩) ∨
    ∃ done c rest lines, s = .error ∧ cs = done ++ c :: rest ∧ lines ≠ [c.ans] ∧
      now = ⟨done.map Command.matched ++ [⟨c.cmd, lines⟩], none⟩

def ConnectPc.Answers (ssid phrase : List UInt8) (h : Heap) : ConnectPc → Talk → Prop
  | first c rest pc, now => ∃ done, connectFirst = done ++ c :: rest ∧
      pc.Answers c.cmd c.ans (done.map Command.matched) h now
  | alloc, now => now = ⟨connectFirst.map Command.matched, none⟩
  | build _ todo, now => ∃ done, commands ssid phrase = done ++ todo ∧
      now = ⟨done.map Command.matched, none⟩
  | last buf c rest pc, now => ∃ done, commands ssid phrase = done ++ c :: rest ∧
      (c.inBuf = true → h.chars buf = c.cmd) ∧
      pc.Answers c.cmd c.ans (done.map Command.matched) h now
  | free _ s, now => Finished (commands ssid phrase) s now

/-- What holds after a step: of the point the call is at, or of its result. -/
def Next.Sat {π : Type} (P : π → Prop) (Q : State → Prop) : Next π → Prop
  | .cont pc => P pc
  | .ret s => Q s

section
variable {word : Option Nat → List UInt8 → Option Nat} {h h' : Heap} {es : List Exchange}
  {now : Talk}

theorem cText_of_not_mem {s : List UInt8} (hs : 0 ∉ s) : cText s = s := by
  refine List.takeWhile_eq_self_iff.2 fun c hc => ?_
  rw [bne_iff_ne]
  rintro rfl
  exact hs hc

theorem store_self {a : Nat} {str : List UInt8} (hs : h.store word a str = some h')
    (hstr : 0 ∉ str) : h'.chars a = str := by
  rw [store_chars hs, Function.update_self, cText_of_not_mem hstr]

theorem Heap.Keeps.chars_eq {a b : Nat} (hk : Heap.Keeps {a} h h') (hb : b ≠ a) :
    h'.chars b = h.chars b :=
  hk b fun hm => hb (Multiset.mem_singleton.1 hm)

theorem NoReturn.tail {q : Req Op} {todo : List (Req Op)} (h : NoReturn (q :: todo)) :
    NoReturn todo := fun m hm => h m (List.mem_cons_of_mem q hm)

theorem noReturn_commandStart (cmd : List UInt8) : NoReturn (commandStart cmd) := by
  intro m hm
  simp [commandStart] at hm

theorem commandStart_done {cmd : List UInt8} {n : Nat} (hn : (commandStart cmd)[n]? = none) :
    10 ≤ n := List.getElem?_eq_none_iff.1 hn

theorem noReturn_commandEnd : NoReturn commandEnd := by
  intro m hm
  simp [commandEnd] at hm

theorem Collected.congr {total : Nat} {cmd : List UInt8} {now : List Exchange}
    (hc : Collected total cmd es h now) (ht : h'.chars total = h.chars total) :
    Collected total cmd es h' now := by
  obtain ⟨lines, hnow, hl, hnul⟩ := hc
  exact ⟨lines, hnow, ht.trans hl, hnul⟩

theorem chars_buf {buf : Nat} {st : State} {line : List UInt8}
    (hs : h.store word buf line = some h') : h'.chars buf = (⟨st, line⟩ : Reading).buf := by
  rw [store_chars hs, Function.update_self]
  rfl

theorem accepted_iff {buf : Nat} {st : State} {line : List UInt8}
    (hs : h.store word buf line = some h') :
    (st = .ok ∧ (h'.chars buf).headD 0 ≠ 60) ↔ (⟨st, line⟩ : Reading).accepted = true := by
  rw [@chars_buf word h h' buf st line hs, Reading.accepted, Bool.and_eq_true, beq_iff_eq,
    bne_iff_ne]

theorem Collected.line {total : Nat} {cmd : List UInt8} {now : List Exchange}
    (hc : Collected total cmd es h now) {r : Reading} (hs : h.storeTotal word (some total)
      (fun t => some (t ++ r.buf ++ ascii "\r\n")) = some h') :
    Collected total cmd es h' (addLine now r.buf) := by
  obtain ⟨lines, hnow, htotal, hnul, -⟩ := hc
  replace hs : h.store word total (h.chars total ++ r.buf ++ ascii "\r\n") = some h' := hs
  have hmore : h.chars total ++ r.buf ++ ascii "\r\n" = withNewlines (lines ++ [r.buf]) := by
    rw [htotal]
    simp [withNewlines]
  have hnul' : 0 ∉ withNewlines (lines ++ [r.buf]) := by
    rw [← hmore, htotal, List.append_assoc, List.mem_append, List.mem_append]
    exact fun hm => hm.elim hnul fun hm => hm.elim (not_mem_buf r) (by decide)
  rw [hmore] at hs
  refine ⟨lines ++ [r.buf], ?_, store_self hs hnul', hnul', store_length hs⟩
  rw [hnow, addLine_append]

theorem Collected.skip {total : Nat} {cmd : List UInt8} {now : List Exchange}
    (hc : Collected total cmd es h now) (hs : h.storeTotal word (some total) (fun t =>
      if 2 ≤ t.length then some (t.take (t.length - 2)) else none) = some h') :
    ∃ lines, now = es ++ [⟨cmd, lines⟩] ∧ lines ≠ [] ∧
      h'.chars total = (ascii "\r\n").intercalate lines := by
  obtain ⟨lines, hnow, htotal, hnul, -⟩ := hc
  obtain ⟨str, hstr, hs⟩ := Option.bind_eq_some_iff.1 hs
  rw [htotal] at hstr
  dsimp only at hstr
  split at hstr
  · next hlen =>
    cases hstr
    have hlines : lines ≠ [] := by
      rintro rfl
      exact absurd hlen (by decide)
    have htake : (withNewlines lines).take ((withNewlines lines).length - 2) =
        (ascii "\r\n").intercalate lines := by
      rw [withNewlines_eq hlines, List.length_append]
      exact List.take_left
    rw [htake] at hs
    refine ⟨lines, hnow, hlines, store_self hs ?_⟩
    rw [withNewlines_eq hlines, List.mem_append] at hnul
    exact fun hm => hnul (.inl hm)
  · cases hstr

theorem Leaving.request {q : Req Op} {todo : List (Req Op)} (hl : Leaving (q :: todo) now.typed) :
    (now.request q).exchanges = now.exchanges ∧ Leaving todo (now.request q).typed := by
  obtain ⟨htodo, htyped⟩ | ⟨hno, htyped⟩ := hl
  · obtain ⟨rfl, rfl⟩ := List.cons_eq_cons.1 htodo
    have hsend : now.request (.send (ascii "exit\r\n")) = { now with typed := none } := by
      rw [Talk.request, Talk.send, if_neg (by decide), htyped]
      rfl
    rw [hsend]
    exact ⟨rfl, .inr ⟨by simp, rfl⟩⟩
  · have hsame : now.request q = now := by
      cases q with
      | send msg => exact absurd List.mem_cons_self (hno msg)
      | _ => rfl
    rw [hsame]
    exact ⟨rfl, .inr ⟨fun msg hm => hno msg (List.mem_cons_of_mem q hm), htyped⟩⟩

theorem readCommand_answers {total : Nat} {cmd : List UInt8} (hcmd : Talk.Plain cmd) {pc : ReadPc}
    {inp : Input} {r : Heap × Next ReadPc} (hs : pc.step word cmd (some total) h inp = some r)
    (ha : pc.Answers total cmd es h now) (hpc : total ∉ pc.held) :
    r.2.Sat (fun pc' => pc'.Answers total cmd es r.1 (pc.exchange cmd now inp)) fun s =>
      s = .ok ∧ ∃ lines, pc.exchange cmd now inp = ⟨es ++ [⟨cmd, lines⟩], none⟩ ∧ lines ≠ [] ∧
        r.1.chars total = (ascii "\r\n").intercalate lines := by
  have hne : ∀ buf : Nat, total ∉ ({buf} : Multiset Nat) → total ≠ buf := fun buf hm he =>
    hm (Multiset.mem_singleton.2 he)
  cases readCommand_move hs with
  | alloc hr => exact ha
  | clear hh =>
    replace hh : h.store word total [] = some _ := hh
    exact ⟨store_self hh List.not_mem_nil, ha⟩
  | @start buf n q _ h' hq hh =>
    obtain ⟨htotal, hnow⟩ := ha
    have hkeep := (request_keeps (Multiset.mem_singleton_self _) hh).chars_eq (hne buf hpc)
    have he : (ReadPc.start buf n).exchange cmd now inp = now.request q := by
      simp only [ReadPc.exchange, ReadPc.req, hq, Option.elim_some]
    refine ⟨hkeep.trans htotal, ?_⟩
    rw [he, hnow, Talk.started_succ es hq]
  | @loop buf n hn =>
    obtain ⟨htotal, hnow⟩ := ha
    have he : (ReadPc.start buf n).exchange cmd now .go = now := by
      simp only [ReadPc.exchange, ReadPc.req, hn, Option.elim_none]
    have hten := commandStart_done hn
    rw [(hcmd.started_eq es).2.2.2 n (by omega)] at hnow
    refine ⟨⟨[], ?_, htotal, List.not_mem_nil, by decide⟩, ?_⟩
    · rw [he, hnow]
    · rw [he, hnow]
  | @line buf st line h1 h2 hh hok hh2 =>
    obtain ⟨hc, htyped⟩ := ha
    have hkeep := (store_keeps (Multiset.mem_singleton_self _) hh).chars_eq (hne buf hpc)
    have hacc := (accepted_iff hh).1 hok
    rw [chars_buf hh] at hh2
    have he : (ReadPc.answer buf).exchange cmd now (.line st line) =
        { now with exchanges := addLine now.exchanges (⟨st, line⟩ : Reading).buf } := if_pos hacc
    rw [he]
    exact ⟨(Collected.congr hc hkeep).line hh2, htyped⟩
  | @last buf st line h1 hh hend =>
    obtain ⟨hc, htyped⟩ := ha
    have hkeep := (store_keeps (Multiset.mem_singleton_self _) hh).chars_eq (hne buf hpc)
    have he : (ReadPc.answer buf).exchange cmd now (.line st line) = now :=
      if_neg fun hacc => hend ((accepted_iff hh).2 hacc)
    rw [he]
    exact ⟨noReturn_commandEnd, Collected.congr hc hkeep, .inl ⟨rfl, htyped⟩⟩
  | @exit buf q todo _ h' hh =>
    obtain ⟨htodo, hc, hleave⟩ := ha
    have hkeep := (request_keeps (Multiset.mem_singleton_self _) hh).chars_eq (hne buf hpc)
    obtain ⟨hsame, hleave⟩ := hleave.request
    have he : (ReadPc.exit buf (q :: todo)).exchange cmd now inp = now.request q := rfl
    rw [he]
    exact ⟨htodo.tail, hsame ▸ hc.congr hkeep, hleave⟩
  | skip hh =>
    obtain ⟨-, hc, hleave⟩ := ha
    obtain ⟨lines, hnow, hlines, htotal⟩ := hc.skip hh
    obtain ⟨htodo, -⟩ | ⟨-, htyped⟩ := hleave
    · cases htodo
    · refine ⟨lines, ?_, hlines, htotal⟩
      show now = _
      rw [← hnow, ← htyped]
  | free => exact ⟨rfl, ha⟩

/-- The answer is the expected one if it is one line and this line is. -/
theorem answer_eq_iff {ans : List UInt8} (hans : 13 ∉ ans) {lines : List (List UInt8)}
    (hne : lines ≠ []) : ans = (ascii "\r\n").intercalate lines ↔ lines = [ans] := by
  cases lines with
  | nil => exact absurd rfl hne
  | cons line lines =>
    cases lines with
    | nil =>
      rw [show (ascii "\r\n").intercalate [line] = line from List.append_nil line]
      exact ⟨fun he => by rw [he], fun he => (List.head_eq_of_cons_eq he).symm⟩
    | cons line' lines =>
      refine ⟨fun he => ?_, fun he => by cases he⟩
      have h13 : (13 : UInt8) ∈ (ascii "\r\n").intercalate (line :: line' :: lines) := by
        rw [List.intercalate, List.intersperse_cons_cons, List.flatten_cons, List.flatten_cons]
        exact List.mem_append_right _ (List.mem_append_left _ (by decide))
      rw [← he] at h13
      exact absurd h13 hans

theorem sendCommand_answers {cmd ans : List UInt8} (hcmd : Talk.Plain cmd) {pc : SendPc}
    {inp : Input} {r : Heap × Next SendPc} (hs : pc.step word cmd ans h inp = some r)
    (ha : pc.Answers cmd ans es h now) (hnodup : pc.held.Nodup) (hans : 13 ∉ ans) :
    r.2.Sat (fun pc' => pc'.Answers cmd ans es r.1 (pc.exchange cmd now inp)) fun s =>
      Judged cmd ans es s (pc.exchange cmd now inp) := by
  cases sendCommand_move hs with
  | alloc hr => exact ha
  | @read total pc _ r hr =>
    have hpc : total ∉ pc.held := by
      rw [SendPc.held, Multiset.singleton_add, Multiset.nodup_cons] at hnodup
      exact hnodup.1
    have hread := readCommand_answers hcmd hr ha hpc
    cases hr2 : r.2 with
    | cont pc' =>
      rw [hr2] at hread
      exact hread
    | ret s =>
      rw [hr2] at hread
      obtain ⟨rfl, lines, hnow, hne, htotal⟩ := hread
      refine ⟨lines, hnow, ?_⟩
      rw [htotal]
      split
      · next he => exact .inl ⟨rfl, (answer_eq_iff hans hne).1 he⟩
      · next he => exact .inr ⟨rfl, fun hl => he ((answer_eq_iff hans hne).2 hl)⟩
  | free => exact ha

theorem not_mem_cmd {ssid phrase : List UInt8} (hssid : 0 ∉ ssid) (hphrase : 0 ∉ phrase) :
    ∀ c ∈ commands ssid phrase, 0 ∉ c.cmd := by
  have hfirst : ∀ c ∈ connectFirst, 0 ∉ c.cmd := by decide
  have hphraseCmd : 0 ∉ ascii "set wlan phrase " ++ phrase := by
    rw [List.mem_append]
    exact fun hm => hm.elim (by decide) hphrase
  have hssidCmd : 0 ∉ ascii "set wlan ssid " ++ ssid := by
    rw [List.mem_append]
    exact fun hm => hm.elim (by decide) hssid
  intro c hc
  obtain hc | hc := List.mem_append.1 hc
  · exact hfirst c hc
  · rcases List.mem_cons.1 hc with rfl | hc
    · exact hphraseCmd
    rcases List.mem_cons.1 hc with rfl | hc
    · exact hssidCmd
    rcases List.mem_cons.1 hc with rfl | hc
    · decide
    rw [List.mem_singleton.1 hc]
    decide

theorem plain_cmd (ssid phrase : List UInt8) :
    ∀ c ∈ commands ssid phrase, Talk.Plain c.cmd := by
  have hall : ∀ first ∈ (commands ssid phrase).map fun c => c.cmd.head?,
      first = some 115 ∨ first = some 114 := by
    have hcs : (commands ssid phrase).map (fun c => c.cmd.head?) =
        (commands [] []).map fun c => c.cmd.head? := rfl
    rw [hcs]
    decide +kernel
  intro c hc
  have hfirst := hall _ (List.mem_map_of_mem hc)
  refine ⟨?_, ?_, ?_⟩ <;> intro he <;> rw [he] at hfirst <;> revert hfirst <;> decide

theorem not_mem_ans (ssid phrase : List UInt8) : ∀ c ∈ commands ssid phrase, 13 ∉ c.ans := by
  have hall : ∀ ans ∈ (commands ssid phrase).map Command.ans, (13 : UInt8) ∉ ans := by
    have hcs : (commands ssid phrase).map Command.ans = (commands [] []).map Command.ans := rfl
    rw [hcs]
    decide
  exact fun c hc => hall _ (List.mem_map_of_mem hc)

theorem matched_snoc (done : List Command) (c : Command) :
    (⟨done.map Command.matched ++ [⟨c.cmd, [c.ans]⟩], none⟩ : Talk) =
      ⟨(done ++ [c]).map Command.matched, none⟩ := by
  rw [List.map_append]
  rfl

theorem Judged.cases {cs done rest : List Command} {c : Command} {s : State}
    (hj : Judged c.cmd c.ans (done.map Command.matched) s now) (hcs : cs = done ++ c :: rest) :
    (s = .ok ∧ now = ⟨(done ++ [c]).map Command.matched, none⟩) ∨
      (s ≠ .ok ∧ Finished cs .error now) := by
  obtain ⟨lines, hnow, ⟨hs, rfl⟩ | ⟨hs, hne⟩⟩ := hj
  · exact .inl ⟨hs, hnow.trans (matched_snoc done c)⟩
  · exact .inr ⟨by rw [hs]; decide, .inr ⟨done, c, rest, lines, rfl, hcs, hne, hnow⟩⟩

theorem commands_of_first (ssid phrase : List UInt8) {done rest : List Command} {c : Command}
    (hdone : connectFirst = done ++ c :: rest) :
    commands ssid phrase = done ++ c :: (rest ++ connectLast ssid phrase) := by
  rw [commands, hdone, List.append_assoc, List.cons_append]

theorem snoc_append (done rest : List Command) (c : Command) :
    done ++ c :: rest = (done ++ [c]) ++ rest := by
  rw [List.append_assoc, List.singleton_append]

theorem firstDone_answers {ssid phrase : List UInt8} {done rest : List Command} {c : Command}
    {n : Next SendPc} (hdone : connectFirst = done ++ c :: rest)
    (hn : n.Sat (fun pc => pc.Answers c.cmd c.ans (done.map Command.matched) h now)
      fun s => Judged c.cmd c.ans (done.map Command.matched) s now) :
    (ConnectPc.firstDone c rest n).Sat (fun pc => pc.Answers ssid phrase h now) fun s =>
      Finished (commands ssid phrase) s now := by
  cases n with
  | cont pc => exact ⟨done, hdone, hn⟩
  | ret s =>
    obtain ⟨rfl, hnow⟩ | ⟨hne, hfin⟩ := Judged.cases hn (commands_of_first ssid phrase hdone)
    · -- the next command
      rw [snoc_append] at hdone
      cases rest with
      | nil =>
        rw [List.append_nil] at hdone
        exact hnow.trans (by rw [hdone])
      | cons c' rest => exact ⟨done ++ [c], hdone, hnow⟩
    · dsimp only [ConnectPc.firstDone]
      rw [if_pos hne]
      exact hfin

/-- After a step of one of the others, which has kept the text of its command. -/
theorem lastDone_answers {ssid phrase : List UInt8} {done rest : List Command} {c : Command}
    {buf : Nat} {n : Next SendPc} (hdone : commands ssid phrase = done ++ c :: rest)
    (hbuf : ∀ pc, n = .cont pc → c.inBuf = true → h.chars buf = c.cmd)
    (hn : n.Sat (fun pc => pc.Answers c.cmd c.ans (done.map Command.matched) h now)
      fun s => Judged c.cmd c.ans (done.map Command.matched) s now) :
    (ConnectPc.lastDone buf c rest n).Sat (fun pc => pc.Answers ssid phrase h now) fun s =>
      Finished (commands ssid phrase) s now := by
  cases n with
  | cont pc => exact ⟨done, hdone, hbuf pc rfl, hn⟩
  | ret s =>
    obtain ⟨rfl, hnow⟩ | ⟨hne, hfin⟩ := Judged.cases hn hdone
    · exact ⟨done ++ [c], hdone.trans (snoc_append done rest c), hnow⟩
    · dsimp only [ConnectPc.lastDone]
      rw [if_pos hne]
      exact hfin

theorem Command.text_eq (c : Command) {buf : Nat} (hbuf : c.inBuf = true → h.chars buf = c.cmd) :
    c.text h buf = c.cmd := by
  unfold Command.text
  split
  · next hin => exact hbuf hin
  · rfl

theorem connect_answers {ssid phrase : List UInt8} (hssid : 0 ∉ ssid) (hphrase : 0 ∉ phrase)
    {pc : ConnectPc} {inp : Input} {r : Heap × Next ConnectPc}
    (hs : pc.step word ssid phrase h inp = some r) (ha : pc.Answers ssid phrase h now)
    (hnodup : pc.held.Nodup) (hnodup' : (r.2.held ConnectPc.held).Nodup) :
    r.2.Sat (fun pc' => pc'.Answers ssid phrase r.1 (pc.exchange h now inp)) fun s =>
      Finished (commands ssid phrase) s (pc.exchange h now inp) := by
  cases connect_move hs with
  | @first c rest pc _ r hr =>
    obtain ⟨done, hdone, ha⟩ := ha
    have hcs := commands_of_first ssid phrase hdone
    have hans : 13 ∉ c.ans := not_mem_ans ssid phrase c (by rw [hcs]; simp)
    have hcmd := plain_cmd ssid phrase c (by rw [hcs]; simp)
    exact firstDone_answers hdone (sendCommand_answers hcmd hr ha hnodup hans)
  | alloc hr => exact ⟨connectFirst, rfl, ha⟩
  | @build buf c rest h' hh =>
    obtain ⟨done, hdone, hnow⟩ := ha
    refine ⟨done, hdone, fun hin => ?_, hnow⟩
    rw [if_pos hin] at hh
    exact store_self hh (not_mem_cmd hssid hphrase c (by rw [hdone]; simp))
  | built =>
    obtain ⟨done, hdone, hnow⟩ := ha
    rw [List.append_nil] at hdone
    exact .inl ⟨rfl, by rw [hdone]; exact hnow⟩
  | @last buf c rest pc _ r hr =>
    obtain ⟨done, hdone, hbuf, ha⟩ := ha
    have hans : 13 ∉ c.ans := not_mem_ans ssid phrase c (by rw [hdone]; simp)
    rw [ConnectPc.held, Multiset.singleton_add, Multiset.nodup_cons] at hnodup
    have hcmd := plain_cmd ssid phrase c (by rw [hdone]; simp)
    have htext := c.text_eq hbuf
    have hnow : (ConnectPc.last buf c rest pc).exchange h now inp = pc.exchange c.cmd now inp := by
      dsimp only [ConnectPc.exchange]
      rw [htext]
    rw [hnow]
    rw [htext] at hr
    refine lastDone_answers hdone (fun pc' hr2 hin => ?_)
      (sendCommand_answers hcmd hr ha hnodup.2 hans)
    rw [hr2] at hnodup'
    replace hnodup' : ({buf} + pc'.held).Nodup := hnodup'
    rw [Multiset.singleton_add, Multiset.nodup_cons] at hnodup'
    -- the block of the command is neither of those `wiflySendCommand` uses
    have hkeep : Heap.Keeps (pc.held + pc'.held) h r.1 :=
      sendCommand_keeps hr (Multiset.subset_of_le (Multiset.le_add_right _ _))
        (by rw [hr2]; exact Multiset.subset_of_le (Multiset.le_add_left _ _))
    refine (hkeep buf fun hm => ?_).trans (hbuf hin)
    exact (Multiset.mem_add.1 hm).elim hnodup.1 hnodup'.1
  | free => exact ha

/-! ## What the points have in common -/

theorem ReadPc.Answers.congr {total : Nat} {cmd : List UInt8} {pc : ReadPc}
    (ha : pc.Answers total cmd es h now) (ht : h'.chars total = h.chars total) :
    pc.Answers total cmd es h' now := by
  cases pc with
  | alloc => exact ha
  | clear => exact ha
  | start buf n => exact ⟨ht.trans ha.1, ha.2⟩
  | answer buf => exact ⟨ha.1.congr ht, ha.2⟩
  | exit buf todo => exact ⟨ha.1, ha.2.1.congr ht, ha.2.2⟩
  | free buf =>
    obtain ⟨lines, hnow, hne, hl⟩ := ha
    exact ⟨lines, hnow, hne, ht.trans hl⟩

theorem SendPc.Answers.congr {cmd ans : List UInt8} {pc : SendPc}
    (ha : pc.Answers cmd ans es h now) (hk : ∀ b ∈ pc.held, h'.chars b = h.chars b) :
    pc.Answers cmd ans es h' now := by
  cases pc with
  | alloc => exact ha
  | read total pc =>
    exact ReadPc.Answers.congr ha (hk total (Multiset.mem_add.2
      (.inl (Multiset.mem_singleton_self _))))
  | free buf s => exact ha

/-- Other threads do not disturb the call as long as they keep to their blocks. -/
theorem ConnectPc.Answers.congr {ssid phrase : List UInt8} {pc : ConnectPc}
    (ha : pc.Answers ssid phrase h now) (hk : ∀ b ∈ pc.held, h'.chars b = h.chars b) :
    pc.Answers ssid phrase h' now := by
  cases pc with
  | first c rest pc =>
    obtain ⟨done, hdone, ha⟩ := ha
    exact ⟨done, hdone, ha.congr hk⟩
  | alloc => exact ha
  | build buf todo => exact ha
  | last buf c rest pc =>
    obtain ⟨done, hdone, hbuf, ha⟩ := ha
    refine ⟨done, hdone, fun hin => ?_, ha.congr fun b hb => hk b (Multiset.mem_add.2 (.inr hb))⟩
    exact (hk buf (Multiset.mem_add.2 (.inl (Multiset.mem_singleton_self _)))).trans (hbuf hin)
  | free buf s => exact ha

/-- What has been exchanged in `wiflySendCommand`: its command has not been sent, has been
sent without its newline, or has been answered by these lines. -/
inductive Talk.Shape (cmd : List UInt8) (es : List Exchange) (now : Talk) : Prop where
  | before : now.exchanges = es → now.typed.getD [] = [] → Shape cmd es now
  | typing : now.exchanges = es → now.typed = some cmd → Shape cmd es now
  | answered (lines : List (List UInt8)) : now.exchanges = es ++ [⟨cmd, lines⟩] →
      now.typed.getD [] = [] → Shape cmd es now

theorem Leaving.typed {todo : List (Req Op)} {typed : Option (List UInt8)}
    (hl : Leaving todo typed) : typed.getD [] = [] := by
  obtain ⟨-, rfl⟩ | ⟨-, rfl⟩ := hl <;> rfl

theorem Talk.Plain.shape {cmd : List UInt8} (hcmd : Talk.Plain cmd) (n : Nat) :
    (Talk.started cmd es n).Shape cmd es := by
  obtain ⟨h4, h7, h8, h9⟩ := hcmd.started_eq es
  by_cases hn : n ≤ 4
  · rw [h4 n hn]
    exact .before rfl rfl
  by_cases hn' : n ≤ 7
  · rw [h7 n (by omega) hn']
    exact .before rfl rfl
  by_cases hn8 : n = 8
  · rw [hn8, h8]
    exact .typing rfl rfl
  · rw [h9 n (by omega)]
    exact .answered [] rfl rfl

theorem ReadPc.Answers.shape {total : Nat} {cmd : List UInt8} (hcmd : Talk.Plain cmd) {pc : ReadPc}
    (ha : pc.Answers total cmd es h now) : now.Shape cmd es := by
  cases pc with
  | alloc | clear =>
    rw [show now = _ from ha]
    exact .before rfl rfl
  | start buf n =>
    rw [ha.2]
    exact hcmd.shape n
  | answer buf =>
    obtain ⟨lines, hnow, -⟩ := ha.1
    exact .answered lines hnow (by rw [ha.2]; rfl)
  | exit buf todo =>
    obtain ⟨lines, hnow, -⟩ := ha.2.1
    exact .answered lines hnow ha.2.2.typed
  | free buf =>
    obtain ⟨lines, rfl, -⟩ := ha
    exact .answered lines rfl rfl

theorem SendPc.Answers.shape {cmd ans : List UInt8} (hcmd : Talk.Plain cmd) {pc : SendPc}
    (ha : pc.Answers cmd ans es h now) : now.Shape cmd es := by
  cases pc with
  | alloc =>
    rw [show now = _ from ha]
    exact .before rfl rfl
  | read total pc => exact ReadPc.Answers.shape hcmd ha
  | free buf s =>
    obtain ⟨lines, rfl, -⟩ := ha
    exact .answered lines rfl rfl

theorem matched_cmds (done : List Command) :
    (done.map Command.matched).map Exchange.cmd = done.map Command.cmd := List.map_map

theorem issued_done {cs done todo : List Command} (hcs : cs = done ++ todo)
    (he : now.exchanges = done.map Command.matched) (ht : now.typed.getD [] = []) :
    Issued cs now := by
  have htexts : now.texts = done.map Command.cmd := by
    rw [Talk.texts, if_pos ht, he, matched_cmds, List.append_nil]
  rw [Issued, htexts, he, hcs, List.length_map, List.take_append_of_le_length (by omega),
    List.map_append, List.map_take]
  exact ⟨List.prefix_append _ _, rfl⟩

theorem issued_typing {cs done rest : List Command} {c : Command} (hcs : cs = done ++ c :: rest)
    (he : now.exchanges = done.map Command.matched) (ht : now.typed = some c.cmd) :
    Issued cs now := by
  by_cases hc : c.cmd = []
  · exact issued_done hcs he (by rw [ht]; exact hc)
  · have htexts : now.texts = done.map Command.cmd ++ [c.cmd] := by
      rw [Talk.texts, ht, Option.getD_some, if_neg hc, he, matched_cmds]
    have hlen : (done.map Command.cmd ++ [c.cmd]).length - 1 = done.length := by simp
    rw [Issued, htexts, hlen, he, hcs, List.take_left, List.map_append, List.map_cons]
    refine ⟨(List.prefix_append_right_inj _).2 (List.prefix_append [c.cmd] _), ?_⟩
    rw [List.take_of_length_le (by rw [List.length_map])]

theorem issued_answered {cs done rest : List Command} {c : Command} (hcs : cs = done ++ c :: rest)
    {lines : List (List UInt8)} (he : now.exchanges = done.map Command.matched ++ [⟨c.cmd, lines⟩])
    (ht : now.typed.getD [] = []) : Issued cs now := by
  have htexts : now.texts = done.map Command.cmd ++ [c.cmd] := by
    rw [Talk.texts, if_pos ht, he, List.map_append, matched_cmds, List.append_nil]
    rfl
  have hlen : (done.map Command.cmd ++ [c.cmd]).length - 1 = (done.map Command.matched).length := by
    simp
  rw [Issued, htexts, hlen, he, hcs, List.take_left, List.length_map, List.take_left,
    List.map_append, List.map_cons]
  exact ⟨(List.prefix_append_right_inj _).2 (List.prefix_append [c.cmd] _), rfl⟩

theorem Talk.Shape.issued {cs done rest : List Command} {c : Command}
    (hs : now.Shape c.cmd (done.map Command.matched)) (hcs : cs = done ++ c :: rest) :
    Issued cs now := by
  cases hs with
  | before he ht => exact issued_done hcs he ht
  | typing he ht => exact issued_typing hcs he ht
  | answered lines he ht => exact issued_answered hcs he ht

theorem Finished.issued {cs : List Command} {s : State} (hf : Finished cs s now) :
    Issued cs now := by
  obtain ⟨-, rfl⟩ | ⟨done, c, rest, lines, -, hcs, -, rfl⟩ := hf
  · exact issued_done (List.append_nil cs).symm rfl rfl
  · exact issued_answered hcs rfl rfl

theorem ConnectPc.Answers.issued {ssid phrase : List UInt8} {pc : ConnectPc}
    (ha : pc.Answers ssid phrase h now) : Issued (commands ssid phrase) now := by
  cases pc with
  | first c rest pc =>
    obtain ⟨done, hdone, ha⟩ := ha
    have hcs := commands_of_first ssid phrase hdone
    exact (SendPc.Answers.shape (plain_cmd ssid phrase c (by rw [hcs]; simp)) ha).issued hcs
  | alloc =>
    rw [show now = _ from ha]
    have hcs : commands ssid phrase = connectFirst ++ connectLast ssid phrase := rfl
    exact issued_done hcs rfl rfl
  | build buf todo =>
    obtain ⟨done, hdone, rfl⟩ := ha
    exact issued_done hdone rfl rfl
  | last buf c rest pc =>
    obtain ⟨done, hdone, -, ha⟩ := ha
    exact (SendPc.Answers.shape (plain_cmd ssid phrase c (by rw [hdone]; simp)) ha).issued hdone
  | free buf s => exact Finished.issued ha

/-- The result is `S_OK` if all commands have been answered as they should be. -/
theorem Finished.ok_iff {cs : List Command} {s : State} (hf : Finished cs s now) :
    now.typed = none ∧ (s = .ok ↔ now.exchanges = cs.map Command.matched) ∧
      (s = .ok ∨ s = .error) := by
  obtain ⟨rfl, rfl⟩ | ⟨done, c, rest, lines, rfl, rfl, hne, rfl⟩ := hf
  · exact ⟨rfl, ⟨fun _ => rfl, fun _ => rfl⟩, .inl rfl⟩
  · refine ⟨rfl, ⟨fun he => (by cases he), fun he => ?_⟩, .inr rfl⟩
    dsimp only at he
    rw [List.map_append, List.map_cons] at he
    have hhead := List.head_eq_of_cons_eq (List.append_cancel_left he)
    exact absurd (congrArg Exchange.lines hhead) hne

end

/-! ## Among the other threads -/

namespace Threads

variable {n : Nat} {s : Threads n} {charMem : Nat} {l : List Nat}

theorem Conserved.disjoint (h : Conserved charMem s l) {i j : Fin n} (hij : i ≠ j) :
    Disjoint (heldBy (s.calls i)) (heldBy (s.calls j)) := by
  have hle : heldBy (s.calls i) + heldBy (s.calls j) ≤ s.held := by
    rw [← Finset.sum_pair (f := fun k => heldBy (s.calls k)) hij]
    exact Finset.sum_le_sum_of_subset (Finset.subset_univ _)
  have hnodup : s.held.Nodup :=
    (Multiset.nodup_add.1 (h.2 ▸ Multiset.coe_nodup.2 (blocks_nodup charMem))).2.1
  exact (Multiset.nodup_add.1 (Multiset.nodup_of_le hle hnodup)).2.2

theorem Conserved.nodup (h : Conserved charMem s l) (i : Fin n) :
    (heldBy (s.calls i)).Nodup := by
  have hle : heldBy (s.calls i) ≤ s.held :=
    Finset.single_le_sum (f := fun k => heldBy (s.calls k)) (fun _ _ => Multiset.zero_le _)
      (Finset.mem_univ i)
  exact Multiset.nodup_of_le hle
    (Multiset.nodup_add.1 (h.2 ▸ Multiset.coe_nodup.2 (blocks_nodup charMem))).2.1

end Threads

/-! ## Going on -/

/-- The call of `wiflyReadCommand` in progress. -/
def SendPc.reading : SendPc → Option ReadPc
  | read _ pc => some pc
  | _ => none

def ConnectPc.reading : ConnectPc → Option ReadPc
  | first _ _ pc | last _ _ _ pc => pc.reading
  | _ => none

/-- The answer to the last command is over, and no line of it has been read. -/
def Unanswered (now : List Exchange) (pc : Option ReadPc) : Prop :=
  (∃ es cmd, now = es ++ [⟨cmd, []⟩]) ∧ ∃ buf, pc = some (.exit buf [])

section
variable {word : Option Nat → List UInt8 → Option Nat} {h : Heap} {es : List Exchange}
  {now : Talk}

theorem store_isSome {a : Nat} {str : List UInt8} (hlen : str.length < wiflyElSize) :
    ∃ h', h.store word a str = some h' := ⟨_, if_pos hlen⟩

theorem alloc_isSome (hn : h.pool.mp_next ≠ none) : ∃ r, h.alloc word = some r := by
  obtain ⟨a, ha⟩ := Option.ne_none_iff_exists'.1 hn
  rw [Heap.alloc, MemoryPool.chPoolAllocI_of_mp_next ha, Option.bind_some, Heap.store,
    if_pos (by decide)]
  exact ⟨_, rfl⟩

theorem request_isSome (buf : Nat) {q : Req Op} (hq : ∀ m, q ≠ .ret m) :
    ∃ inp h', request word h buf q inp = some h' := by
  cases q with
  | ret m => exact absurd rfl (hq m)
  | send msg => exact ⟨.go, h, rfl⟩
  | read =>
    obtain ⟨h', hh⟩ := @store_isSome word h buf [] (by decide)
    exact ⟨.line .ok [], h', hh⟩
  | call op => exact ⟨.go, h, rfl⟩

theorem readCommand_goes_on {total : Nat} {cmd : List UInt8} {pc : ReadPc}
    (hn : h.pool.mp_next ≠ none) (ha : pc.Answers total cmd es h now) :
    (∃ inp r, pc.step word cmd (some total) h inp = some r) ∨
      Unanswered now.exchanges (some pc) := by
  cases pc with
  | alloc =>
    obtain ⟨r, hr⟩ := @alloc_isSome word h hn
    exact .inl ⟨.go, _, congrArg (Option.map _) hr⟩
  | clear buf =>
    obtain ⟨h', hh⟩ := @store_isSome word h total [] (by decide)
    refine .inl ⟨.go, (h', .cont (.start buf 0)), ?_⟩
    dsimp only [ReadPc.step, Heap.storeTotal]
    rw [Option.bind_some, hh]
    rfl
  | start buf n =>
    cases hq : (commandStart cmd)[n]? with
    | none => exact .inl ⟨.go, (h, .cont (.answer buf)), by simp only [ReadPc.step, hq, ↓reduceIte]⟩
    | some q =>
      obtain ⟨inp, h', hh⟩ := @request_isSome word h buf q (fun m hm => by
        rw [hm] at hq
        exact noReturn_commandStart cmd m (List.mem_of_getElem? hq))
      exact .inl ⟨inp, (h', .cont (.start buf (n + 1))), by
        simp only [ReadPc.step, hq, hh, Option.map_some]⟩
  | answer buf =>
    obtain ⟨h', hh⟩ := @store_isSome word h buf [] (by decide)
    refine .inl ⟨.line .timeout [], (h', .cont (.exit buf commandEnd)), ?_⟩
    dsimp only [ReadPc.step]
    rw [hh]
    rfl
  | exit buf todo =>
    obtain ⟨htodo, ⟨lines, hnow, htotal, hnul, hfit⟩, -⟩ := ha
    cases todo with
    | nil =>
      by_cases hlines : lines = []
      · rw [hlines] at hnow
        exact .inr ⟨⟨es, cmd, hnow⟩, buf, rfl⟩
      · -- the two characters of the last newline go
        have hlen : 2 ≤ (withNewlines lines).length := by
          rw [withNewlines_eq hlines, List.length_append]
          exact Nat.le_add_left 2 _
        obtain ⟨h', hh⟩ := @store_isSome word h total
          ((withNewlines lines).take ((withNewlines lines).length - 2))
          (by rw [List.length_take]; omega)
        refine .inl ⟨.go, (h', .cont (.free buf)), ?_⟩
        dsimp only [ReadPc.step, Heap.storeTotal]
        rw [htotal, if_pos hlen, Option.bind_some, hh]
        rfl
    | cons q todo =>
      obtain ⟨inp, h', hh⟩ := @request_isSome word h buf q fun m hm =>
        htodo m (hm ▸ List.mem_cons_self)
      exact .inl ⟨inp, _, congrArg (Option.map _) hh⟩
  | free buf => exact .inl ⟨.go, _, rfl⟩

theorem sendCommand_goes_on {cmd ans : List UInt8} {pc : SendPc} (hn : h.pool.mp_next ≠ none)
    (ha : pc.Answers cmd ans es h now) :
    (∃ inp r, pc.step word cmd ans h inp = some r) ∨ Unanswered now.exchanges pc.reading := by
  cases pc with
  | alloc =>
    obtain ⟨r, hr⟩ := @alloc_isSome word h hn
    exact .inl ⟨.go, _, congrArg (Option.map _) hr⟩
  | read total pc =>
    obtain ⟨inp, r, hr⟩ | hu := readCommand_goes_on hn ha
    · exact .inl ⟨inp, _, congrArg (Option.map _) hr⟩
    · exact .inr hu
  | free buf s => exact .inl ⟨.go, _, rfl⟩

theorem length_cmd {ssid phrase : List UInt8} (hssid : ssid.length ≤ 1000)
    (hphrase : phrase.length ≤ 1000) : ∀ c ∈ commands ssid phrase, c.cmd.length < wiflyElSize := by
  have hfirst : ∀ c ∈ connectFirst, c.cmd.length < wiflyElSize := by decide
  intro c hc
  obtain hc | hc := List.mem_append.1 hc
  · exact hfirst c hc
  rcases List.mem_cons.1 hc with rfl | hc
  · show (ascii "set wlan phrase " ++ phrase).length < 1024
    rw [List.length_append, show (ascii "set wlan phrase ").length = 16 from rfl]
    omega
  rcases List.mem_cons.1 hc with rfl | hc
  · show (ascii "set wlan ssid " ++ ssid).length < 1024
    rw [List.length_append, show (ascii "set wlan ssid ").length = 14 from rfl]
    omega
  rcases List.mem_cons.1 hc with rfl | hc
  · decide
  rw [List.mem_singleton.1 hc]
  decide

/-- `wiflyConnect` can go on until it returns, if every answer has a line. -/
theorem connect_goes_on {ssid phrase : List UInt8} {pc : ConnectPc} (hn : h.pool.mp_next ≠ none)
    (hssid : ssid.length ≤ 1000) (hphrase : phrase.length ≤ 1000)
    (ha : pc.Answers ssid phrase h now) :
    (∃ inp r, pc.step word ssid phrase h inp = some r) ∨ Unanswered now.exchanges pc.reading := by
  cases pc with
  | first c rest pc =>
    obtain ⟨done, -, ha⟩ := ha
    obtain ⟨inp, r, hr⟩ | hu := sendCommand_goes_on hn ha
    · exact .inl ⟨inp, _, congrArg (Option.map _) hr⟩
    · exact .inr hu
  | alloc =>
    obtain ⟨r, hr⟩ := @alloc_isSome word h hn
    exact .inl ⟨.go, _, congrArg (Option.map _) hr⟩
  | build buf todo =>
    obtain ⟨done, hdone, -⟩ := ha
    cases todo with
    | nil => exact .inl ⟨.go, _, rfl⟩
    | cons c rest =>
      have hlen := length_cmd hssid hphrase c (by rw [hdone]; simp)
      by_cases hin : c.inBuf = true
      · obtain ⟨h', hh⟩ := @store_isSome word h buf c.cmd hlen
        exact .inl ⟨.go, _, congrArg (Option.map _) ((if_pos hin).trans hh)⟩
      · exact .inl ⟨.go, _, congrArg (Option.map _) (if_neg hin)⟩
  | last buf c rest pc =>
    obtain ⟨done, -, hbuf, ha⟩ := ha
    obtain ⟨inp, r, hr⟩ | hu := sendCommand_goes_on hn ha
    · rw [← c.text_eq hbuf] at hr
      exact .inl ⟨inp, _, congrArg (Option.map _) hr⟩
    · exact .inr hu
  | free buf s => exact .inl ⟨.go, _, rfl⟩

end

namespace Watched

open Threads (Conserved conserved_init conserved_step)

variable {word : Option Nat → List UInt8 → Option Nat} {n : Nat} {thd : Fin n} {charMem : Nat}

/-- The call in progress, and what the last one has returned. -/
structure Inv (thd : Fin n) (charMem : Nat) (s : Watched n) : Prop where
  pool : ∃ l, Conserved charMem s.threads l
  connect : ∀ ssid phrase pc, s.threads.calls thd = some (.connect ssid phrase pc) → 0 ∉ ssid →
    0 ∉ phrase → pc.Answers ssid phrase s.threads.heap s.talk
  result : ∀ r ∈ s.result, 0 ∉ r.ssid → 0 ∉ r.phrase →
    Finished (commands r.ssid r.phrase) r.st s.talk

theorem inv_init (mem : Nat → Option Nat) (chars : Nat → List UInt8) :
    Inv thd charMem (init mem chars charMem) where
  pool := ⟨_, conserved_init mem chars charMem⟩
  connect _ _ _ hc := by cases hc
  result r hr := by cases hr

theorem Inv.call {s : Watched n} (h : Inv thd charMem s) {t : Threads n} {i : Fin n} {f : Function}
    (hpool : ∃ l, Conserved charMem t l) (hs : s.threads.step word (.call i f) = some t) :
    Inv thd charMem ⟨t, (s.see word thd (.call i f)).1, (s.see word thd (.call i f)).2⟩ := by
  dsimp only [Threads.step] at hs
  split at hs
  · cases hs
  cases hs
  by_cases hi : i = thd
  · dsimp only [see]
    rw [if_pos hi]
    refine ⟨hpool, fun ssid phrase pc hc _ _ => ?_, fun r hr => by cases hr⟩
    rw [hi] at hc
    dsimp only at hc
    rw [Function.update_self] at hc
    have hf := Option.some.inj hc
    cases f with
    | wiflyConnect ssid phrase =>
      cases hf
      exact ⟨[], rfl, rfl⟩
    | _ => cases hf
  · dsimp only [see]
    rw [if_neg hi]
    refine ⟨hpool, fun ssid phrase pc hc => h.connect ssid phrase pc ?_, h.result⟩
    exact (Function.update_of_ne (Ne.symm hi) ..).symm.trans hc

theorem Inv.other {s : Watched n} (h : Inv thd charMem s) {t : Threads n} {i : Fin n} {inp : Input}
    (hi : i ≠ thd) (hpool : ∃ l, Conserved charMem t l)
    (hs : s.threads.step word (.run i inp) = some t) :
    Inv thd charMem ⟨t, s.talk, s.result⟩ := by
  obtain ⟨c, hc, hs⟩ := Option.bind_eq_some_iff.1 hs
  obtain ⟨r, hr, rfl⟩ := Option.map_eq_some_iff.1 hs
  refine ⟨hpool, fun ssid phrase pc hcall hssid hphrase => ?_, h.result⟩
  have hcall' : s.threads.calls thd = some (.connect ssid phrase pc) :=
    (Function.update_of_ne (Ne.symm hi) ..).symm.trans hcall
  obtain ⟨l, hl⟩ := h.pool
  obtain ⟨l', hl'⟩ := hpool
  have hbefore := hl.disjoint hi
  have hafter := hl'.disjoint hi
  rw [hc, hcall'] at hbefore
  dsimp only at hafter hcall
  rw [Function.update_self, hcall] at hafter
  refine (h.connect ssid phrase pc hcall' hssid hphrase).congr fun b hb => ?_
  refine call_keeps hr b fun hm => ?_
  obtain hm | hm := Multiset.mem_add.1 hm
  · exact Multiset.disjoint_right.1 hbefore hb hm
  · exact Multiset.disjoint_right.1 hafter hb hm

theorem Inv.run {s : Watched n} (h : Inv thd charMem s) {t : Threads n} {inp : Input}
    (hpool : ∃ l, Conserved charMem t l) (hs : s.threads.step word (.run thd inp) = some t) :
    Inv thd charMem ⟨t, (s.see word thd (.run thd inp)).1, (s.see word thd (.run thd inp)).2⟩ := by
  obtain ⟨c, hc, hs⟩ := Option.bind_eq_some_iff.1 hs
  obtain ⟨r, hr, rfl⟩ := Option.map_eq_some_iff.1 hs
  have hnext : Function.update s.threads.calls thd r.2 thd = r.2 := Function.update_self ..
  dsimp only [see]
  rw [if_pos rfl, hc]
  cases c with
  | connect ssid phrase pc =>
    obtain ⟨l, hl⟩ := h.pool
    obtain ⟨l', hl'⟩ := hpool
    have hnodup := hl.nodup thd
    have hnodup' := hl'.nodup thd
    rw [hc] at hnodup
    dsimp only at hnodup'
    rw [hnext] at hnodup'
    obtain ⟨r, hcon, rfl⟩ := Option.map_eq_some_iff.1 hr
    rw [heldBy_call fun _ => rfl] at hnodup'
    have hstep := fun hssid hphrase => connect_answers hssid hphrase hcon
      (h.connect ssid phrase pc hc hssid hphrase) hnodup hnodup'
    refine ⟨⟨l', hl'⟩, fun ssid' phrase' pc' hcall hssid hphrase => ?_, fun r' hr' => ?_⟩
    · replace hcall : r.2.call (.connect ssid phrase) = some (.connect ssid' phrase' pc') :=
        hnext.symm.trans hcall
      cases hr2 : r.2 with
      | cont pc'' =>
        rw [hr2] at hcall
        cases hcall
        have hans := hstep hssid hphrase
        rw [hr2] at hans
        exact hans
      | ret st =>
        rw [hr2] at hcall
        cases hcall
    · dsimp only [connectStep] at hr'
      rw [hcon] at hr'
      intro hssid hphrase
      cases hr2 : r.2 with
      | cont pc'' =>
        rw [show r = (r.1, r.2) from rfl, hr2] at hr'
        cases hr'
      | ret st =>
        rw [show r = (r.1, r.2) from rfl, hr2] at hr'
        cases hr'
        have hfin := hstep hssid hphrase
        rw [hr2] at hfin
        exact hfin
  | readCommand cmd pc =>
    obtain ⟨r, -, rfl⟩ := Option.map_eq_some_iff.1 hr
    refine ⟨hpool, fun ssid phrase pc' hcall => ?_, h.result⟩
    replace hcall : r.2.call (.readCommand cmd) = some (.connect ssid phrase pc') :=
      hnext.symm.trans hcall
    cases hr2 : r.2 <;> rw [hr2] at hcall <;> cases hcall
  | sendCommand cmd ans pc =>
    obtain ⟨r, -, rfl⟩ := Option.map_eq_some_iff.1 hr
    refine ⟨hpool, fun ssid phrase pc' hcall => ?_, h.result⟩
    replace hcall : r.2.call (.sendCommand cmd ans) = some (.connect ssid phrase pc') :=
      hnext.symm.trans hcall
    cases hr2 : r.2 <;> rw [hr2] at hcall <;> cases hcall

theorem Inv.step (hn : n ≤ 3) {s t : Watched n} {a : Act n} (h : Inv thd charMem s)
    (hs : s.step word thd a = some t) : Inv thd charMem t := by
  obtain ⟨u, hu, rfl⟩ := Option.map_eq_some_iff.1 hs
  obtain ⟨l, hl⟩ := h.pool
  have hpool := conserved_step hn hl hu
  cases a with
  | call i f => exact h.call hpool hu
  | run i inp =>
    by_cases hi : i = thd
    · subst hi
      exact h.run hpool hu
    · have hother := h.other hi hpool hu
      dsimp only [see]
      rw [if_neg hi]
      exact hother

theorem step_isSome {s : Watched n} {ssid phrase : List UInt8} {pc : ConnectPc}
    (hc : s.threads.calls thd = some (.connect ssid phrase pc)) :
    (∃ inp r, pc.step word ssid phrase s.threads.heap inp = some r) →
      ∃ inp t, s.step word thd (.run thd inp) = some t := by
  rintro ⟨inp, r, hr⟩
  refine ⟨inp, ?_⟩
  unfold step Threads.step
  dsimp only
  rw [hc, Option.bind_some, Call.step, hr]
  exact ⟨_, rfl⟩

/-- **`wiflyConnect` never goes on after a wrong answer**, whatever the other threads call and
whatever the module answers: the texts it sends in command mode are the first ones of the eight
commands, and when one is sent those before it have been answered by exactly the line they ask
for. It returns `S_OK` if all of them are answered so and `S_ERROR` otherwise, the command mode
left. It goes on until it returns if its strings fit in a block and every answer has a line. -/
theorem connect_exact (hn : n ≤ 3) {mem : Nat → Option Nat} {chars : Nat → List UInt8}
    {s : Watched n} (h : Reach (step word thd) Always (init mem chars charMem) s) :
    (∀ ssid phrase pc, s.threads.calls thd = some (.connect ssid phrase pc) → 0 ∉ ssid →
      0 ∉ phrase → Issued (commands ssid phrase) s.talk ∧
      (ssid.length ≤ 1000 → phrase.length ≤ 1000 →
        (∃ inp t, s.step word thd (.run thd inp) = some t) ∨
          Unanswered s.talk.exchanges pc.reading)) ∧
    ∀ ssid phrase st, s.result = some ⟨ssid, phrase, st⟩ → 0 ∉ ssid → 0 ∉ phrase →
      Issued (commands ssid phrase) s.talk ∧ s.talk.typed = none ∧
      (st = .ok ↔ s.talk.exchanges = (commands ssid phrase).map Command.matched) ∧
      (st = .ok ∨ st = .error) := by
  have hinv : Inv thd charMem s := h.inv (inv_init mem chars) fun s a t hi _ hs => hi.step hn hs
  refine ⟨fun ssid phrase pc hc hssid hphrase => ?_, fun ssid phrase st hr hssid hphrase => ?_⟩
  · have hans := hinv.connect ssid phrase pc hc hssid hphrase
    obtain ⟨l, hl⟩ := hinv.pool
    refine ⟨hans.issued, fun hlen hlen' => ?_⟩
    exact (connect_goes_on (hl.mp_next_ne hn) hlen hlen' hans).imp_left
      (step_isSome hc)
  · have hfin := hinv.result _ hr hssid hphrase
    exact ⟨hfin.issued, hfin.ok_iff⟩

/-- All eight commands are answered as they should be. -/
theorem connect_exact_robot :
    ∃ s : Watched 3, s.result = some ⟨ascii "robot", ascii "secret", .ok⟩ ∧
      s.talk = ⟨(commands (ascii "robot") (ascii "secret")).map Command.matched, none⟩ := by
  let word : Option Nat → List UInt8 → Option Nat := fun old _ => old
  -- one command, answered by this line
  let command : List UInt8 → List Input := fun ans =>
    List.replicate 8 .go ++ [.line .ok [], .line .ok [], .go, .go, .line .ok [], .go,
      .line .ok ans, .line .timeout [], .go, .line .ok [], .line .timeout [], .go, .go, .go]
  let ok := command (ascii "AOK")
  let inputs : List Input := ok ++ ok ++ ok ++ ok ++ .go :: .go :: ok ++ .go :: ok ++
    .go :: command (ascii "Storing in config") ++ .go :: ok ++ [.go, .go]
  obtain ⟨s, hr, hp⟩ := reach_of_exec (step word (0 : Fin 3)) Always
    (init (fun _ => none) (fun _ => []) 4096)
    (.call 0 (.wiflyConnect (ascii "robot") (ascii "secret")) :: inputs.map (.run 0))
    (fun s => s.result == some ⟨ascii "robot", ascii "secret", .ok⟩) (by decide +kernel)
  have hres := beq_iff_eq.1 hp
  have hall := (connect_exact (by decide) hr).2 _ _ _ hres (by decide) (by decide)
  refine ⟨s, hres, ?_⟩
  rw [← hall.2.2.1.1 rfl, ← hall.2.1]

end Watched

end RobotPws.Wifly.Buffers
