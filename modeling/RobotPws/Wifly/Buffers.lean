import Mathlib.Algebra.Order.BigOperators.Group.Finset
import Mathlib.Data.Fintype.Card
import RobotPws.Lib.Runs
import RobotPws.Kernel.MemPools
import RobotPws.Main
import RobotPws.Wifly.System

/-!
# The message buffers

`wiflyReadCommand`, `wiflySendCommand` and `wiflyConnect` on several threads, with the blocks
of `wifly_pool` they take and give back. A step of a thread runs up to its next call of the
pool, of `wiflySend` or of `wiflyRead`; the line and the state a `wiflyRead` gives are part of the
label. A write that would leave its block is no step. The calls nest: a program point of
`wiflyConnect` holds one of `wiflySendCommand`, and this one of `wiflyReadCommand`.
-/

namespace RobotPws.Wifly.Buffers

open RobotPws.Lib RobotPws.Kernel RobotPws.Main

/-! ## Blocks -/

/-- The pool and the strings in its blocks. -/
structure Heap where
  pool : MemoryPool
  chars : Nat → List UInt8

/-- What a step of a thread is given. -/
inductive Input where
  | go
  /-- `wiflyRead` returns `st` with `line` in the buffer -/
  | line (st : State) (line : List UInt8)
  deriving DecidableEq, Repr

/-- A call goes on or returns. -/
inductive Next (π : Type) where
  | cont (pc : π)
  | ret (s : State)

section
-- the first word of a block, read as a pointer, after a string has been written over it
variable (word : Option Nat → List UInt8 → Option Nat)

namespace Heap

/-- The string is written to the block. -/
def store (h : Heap) (a : Nat) (str : List UInt8) : Option Heap :=
  if str.length < wiflyElSize then
    some ⟨h.pool.store a (word (h.pool.ph_next a) str), Function.update h.chars a (cText str)⟩
  else none

/-- `char *buf = chPoolAlloc(&wifly_pool); buf[0] = '\0'` -/
def alloc (h : Heap) : Option (Nat × Heap) :=
  h.pool.chPoolAllocI.1.bind fun buf =>
    (store word ⟨h.pool.chPoolAllocI.2, h.chars⟩ buf []).map (Prod.mk buf)

/-- `chPoolFree(&wifly_pool, buf)` -/
def free (h : Heap) (buf : Nat) : Heap := ⟨h.pool.chPoolFreeI buf, h.chars⟩

/-- A string is written to `total`, which may be the caller's own memory. -/
def storeTotal (h : Heap) (total : Option Nat) (f : List UInt8 → Option (List UInt8)) :
    Option Heap :=
  match total with
  | none => some h
  | some a => (f (h.chars a)).bind (h.store word a)

end Heap

/-! ## `wiflyReadCommand` -/

inductive ReadPc where
  /-- `chPoolAlloc` -/
  | alloc
  /-- `total[0] = '\0'` -/
  | clear (buf : Nat)
  /-- up to the loop, this many requests made -/
  | start (buf : Nat) (n : Nat)
  /-- the loop over the answer -/
  | answer (buf : Nat)
  /-- after the loop -/
  | exit (buf : Nat) (todo : List (Req Op))
  /-- `chPoolFree` -/
  | free (buf : Nat)

/-- `wiflySend`, `wiflyRead(buf)` or `chThdSleepMilliseconds`. -/
def request (h : Heap) (buf : Nat) : Req Op → Input → Option Heap
  | .read, .line _ line => h.store word buf line
  | .send _, .go => some h
  | .call _, .go => some h
  | _, _ => none

/-- The loop looks at the line in `buf`. -/
def ReadPc.line (total : Option Nat) (buf : Nat) (st : State) (h : Heap) :
    Option (Heap × Next ReadPc) :=
  -- `buf[0]` is the terminator when the line is empty
  if st = .ok ∧ (h.chars buf).headD 0 ≠ 60 then
    (h.storeTotal word total fun t => some (t ++ h.chars buf ++ ascii "\r\n")).map fun h =>
      (h, .cont (.answer buf))
  else some (h, .cont (.exit buf commandEnd))

/-- `wiflyReadCommand(cmd, total)`, where `cmd` is the string now; it writes two characters
before the end of `total`. -/
def ReadPc.step (cmd : List UInt8) (total : Option Nat) (h : Heap) :
    ReadPc → Input → Option (Heap × Next ReadPc)
  | alloc, .go => (h.alloc word).map fun r => (r.2, .cont (.clear r.1))
  | clear buf, .go => (h.storeTotal word total fun _ => some []).map fun h =>
      (h, .cont (.start buf 0))
  | start buf n, inp =>
    match (commandStart cmd)[n]? with
    | some r => (request word h buf r inp).map fun h => (h, .cont (.start buf (n + 1)))
    | none => if inp = .go then some (h, .cont (.answer buf)) else none
  | answer buf, .line st line => (h.store word buf line).bind (ReadPc.line word total buf st)
  | exit buf (r :: todo), inp => (request word h buf r inp).map fun h =>
      (h, .cont (.exit buf todo))
  | exit buf [], .go =>
    (h.storeTotal word total fun t =>
      if 2 ≤ t.length then some (t.take (t.length - 2)) else none).map fun h =>
        (h, .cont (.free buf))
  | free buf, .go => some (h.free buf, .ret .ok)
  | _, _ => none

/-! ## `wiflySendCommand` -/

inductive SendPc where
  /-- `chPoolAlloc` -/
  | alloc
  /-- `wiflyReadCommand(cmd, buf)` -/
  | read (buf : Nat) (pc : ReadPc)
  /-- `chPoolFree`, then `return s` -/
  | free (buf : Nat) (s : State)

/-- `strcmp(ans, buf) == 0` -/
def SendPc.compare (ans : List UInt8) (buf : Nat) (h : Heap) : Next ReadPc → Next SendPc
  | .cont pc => .cont (.read buf pc)
  | .ret s => .cont (.free buf (if ans = h.chars buf then s else .error))

/-- `wiflySendCommand(cmd, ans)` -/
def SendPc.step (cmd ans : List UInt8) (h : Heap) : SendPc → Input → Option (Heap × Next SendPc)
  | alloc, .go => (h.alloc word).map fun r => (r.2, .cont (.read r.1 .alloc))
  | read buf pc, inp => (pc.step word cmd (some buf) h inp).map fun r =>
      (r.1, SendPc.compare ans buf r.1 r.2)
  | free buf s, .go => some (h.free buf, .ret s)
  | _, _ => none

/-! ## `wiflyConnect` -/

/-- A command of `wiflyConnect` and its answer. -/
structure Command where
  cmd : List UInt8
  ans : List UInt8
  /-- The command is put together in `buf`. -/
  inBuf : Bool

/-- The string `wiflySendCommand` gets, as it stands in its memory. -/
def Command.text (c : Command) (h : Heap) (buf : Nat) : List UInt8 :=
  if c.inBuf then h.chars buf else c.cmd

def connectFirst : List Command :=
  [⟨ascii "set wlan auth 3", ascii "AOK", false⟩, ⟨ascii "set ip dhcp 1", ascii "AOK", false⟩,
    ⟨ascii "set wlan join 1", ascii "AOK", false⟩, ⟨ascii "set wlan channel 0", ascii "AOK", false⟩]

def connectLast (ssid phrase : List UInt8) : List Command :=
  [⟨ascii "set wlan phrase " ++ phrase, ascii "AOK", true⟩,
    ⟨ascii "set wlan ssid " ++ ssid, ascii "AOK", true⟩,
    ⟨ascii "save", ascii "Storing in config", false⟩, ⟨ascii "reboot", ascii "AOK", false⟩]

inductive ConnectPc where
  /-- `wiflySendCommand` without `buf` -/
  | first (c : Command) (rest : List Command) (pc : SendPc)
  /-- `chPoolAlloc` -/
  | alloc
  /-- `strcpy` and `strcat` of the next command -/
  | build (buf : Nat) (todo : List Command)
  /-- `wiflySendCommand` with `buf` -/
  | last (buf : Nat) (c : Command) (rest : List Command) (pc : SendPc)
  /-- `chPoolFree`, then `return s` -/
  | free (buf : Nat) (s : State)

def ConnectPc.start : List Command → ConnectPc
  | [] => .alloc
  | c :: rest => .first c rest .alloc

/-- The result of one of the first commands. -/
def ConnectPc.firstDone (c : Command) (rest : List Command) : Next SendPc → Next ConnectPc
  | .cont pc => .cont (.first c rest pc)
  | .ret s => if s ≠ .ok then .ret .error else .cont (.start rest)

/-- The result of one of the others. -/
def ConnectPc.lastDone (buf : Nat) (c : Command) (rest : List Command) :
    Next SendPc → Next ConnectPc
  | .cont pc => .cont (.last buf c rest pc)
  | .ret s => if s ≠ .ok then .cont (.free buf .error) else .cont (.build buf rest)

/-- `wiflyConnect(ssid, phrase)` -/
def ConnectPc.step (ssid phrase : List UInt8) (h : Heap) :
    ConnectPc → Input → Option (Heap × Next ConnectPc)
  | first c rest pc, inp => (pc.step word c.cmd c.ans h inp).map fun r =>
      (r.1, ConnectPc.firstDone c rest r.2)
  | alloc, .go => (h.alloc word).map fun r => (r.2, .cont (.build r.1 (connectLast ssid phrase)))
  | build buf (c :: rest), .go =>
    (if c.inBuf then h.store word buf c.cmd else some h).map fun h =>
      (h, .cont (.last buf c rest .alloc))
  | build buf [], .go => some (h, .cont (.free buf .ok))
  | last buf c rest pc, inp => (pc.step word (c.text h buf) c.ans h inp).map fun r =>
      (r.1, ConnectPc.lastDone buf c rest r.2)
  | free buf s, .go => some (h.free buf, .ret s)
  | _, _ => none

/-! ## Threads -/

/-- The call a thread is in. -/
inductive Call where
  | readCommand (cmd : List UInt8) (pc : ReadPc)
  | sendCommand (cmd ans : List UInt8) (pc : SendPc)
  | connect (ssid phrase : List UInt8) (pc : ConnectPc)

/-- What a thread calls; `wiflyReadCommand` with a `total` of its own. -/
inductive Function where
  | wiflyReadCommand (cmd : List UInt8)
  | wiflySendCommand (cmd ans : List UInt8)
  | wiflySendCommandOK (cmd : List UInt8)
  | wiflyConnect (ssid phrase : List UInt8)

def Function.start : Function → Call
  | wiflyReadCommand cmd => .readCommand cmd .alloc
  | wiflySendCommand cmd ans => .sendCommand cmd ans .alloc
  | wiflySendCommandOK cmd => .sendCommand cmd (ascii "AOK") .alloc
  | wiflyConnect ssid phrase => .connect ssid phrase (.start connectFirst)

def Next.call {π : Type} (f : π → Call) : Next π → Option Call
  | .cont pc => some (f pc)
  | .ret _ => none

/-- A step of a call; it has returned if there is no call after it. -/
def Call.step (h : Heap) : Call → Input → Option (Heap × Option Call)
  | readCommand cmd pc, inp => (pc.step word cmd none h inp).map fun r =>
      (r.1, r.2.call (.readCommand cmd))
  | sendCommand cmd ans pc, inp => (pc.step word cmd ans h inp).map fun r =>
      (r.1, r.2.call (.sendCommand cmd ans))
  | connect ssid phrase pc, inp => (pc.step word ssid phrase h inp).map fun r =>
      (r.1, r.2.call (.connect ssid phrase))

/-- `n` threads. -/
structure Threads (n : Nat) where
  heap : Heap
  calls : Fin n → Option Call

inductive Act (n : Nat) where
  | call (thd : Fin n) (f : Function)
  | run (thd : Fin n) (inp : Input)

namespace Threads

variable {n : Nat}

/-- After `wiflyInit`: `chPoolInit`, `chPoolLoadArray`. -/
def init (mem : Nat → Option Nat) (chars : Nat → List UInt8) (charMem : Nat) : Threads n :=
  ⟨⟨(MemoryPool.chPoolInit wiflyElSize none mem).chPoolLoadArray charMem 10, chars⟩, fun _ => none⟩

def step (s : Threads n) : Act n → Option (Threads n)
  | .call thd f =>
    if (s.calls thd).isSome then none
    else some ⟨s.heap, Function.update s.calls thd (some f.start)⟩
  | .run thd inp => (s.calls thd).bind fun c => (c.step word s.heap inp).map fun r =>
      ⟨r.1, Function.update s.calls thd r.2⟩

end Threads

/-! ## What a step does -/

/-- The steps of `wiflyReadCommand`. -/
inductive ReadPc.Moves (cmd : List UInt8) (total : Option Nat) (h : Heap) :
    ReadPc → Input → Heap × Next ReadPc → Prop where
  | alloc {r : Nat × Heap} (hr : h.alloc word = some r) :
    Moves cmd total h .alloc .go (r.2, .cont (.clear r.1))
  | clear {buf : Nat} {h' : Heap} (hh : h.storeTotal word total (fun _ => some []) = some h') :
    Moves cmd total h (.clear buf) .go (h', .cont (.start buf 0))
  | start {buf n : Nat} {q : Req Op} {inp : Input} {h' : Heap}
    (hq : (commandStart cmd)[n]? = some q) (hh : request word h buf q inp = some h') :
    Moves cmd total h (.start buf n) inp (h', .cont (.start buf (n + 1)))
  | loop {buf n : Nat} (hn : (commandStart cmd)[n]? = none) :
    Moves cmd total h (.start buf n) .go (h, .cont (.answer buf))
  | line {buf : Nat} {st : State} {line : List UInt8} {h' h'' : Heap}
    (hh : h.store word buf line = some h') (hok : st = .ok ∧ (h'.chars buf).headD 0 ≠ 60)
    (hh' : h'.storeTotal word total (fun t => some (t ++ h'.chars buf ++ ascii "\r\n")) =
      some h'') :
    Moves cmd total h (.answer buf) (.line st line) (h'', .cont (.answer buf))
  | last {buf : Nat} {st : State} {line : List UInt8} {h' : Heap}
    (hh : h.store word buf line = some h') (hend : ¬ (st = .ok ∧ (h'.chars buf).headD 0 ≠ 60)) :
    Moves cmd total h (.answer buf) (.line st line) (h', .cont (.exit buf commandEnd))
  | exit {buf : Nat} {q : Req Op} {todo : List (Req Op)} {inp : Input} {h' : Heap}
    (hh : request word h buf q inp = some h') :
    Moves cmd total h (.exit buf (q :: todo)) inp (h', .cont (.exit buf todo))
  | skip {buf : Nat} {h' : Heap} (hh : h.storeTotal word total (fun t =>
      if 2 ≤ t.length then some (t.take (t.length - 2)) else none) = some h') :
    Moves cmd total h (.exit buf []) .go (h', .cont (.free buf))
  | free {buf : Nat} : Moves cmd total h (.free buf) .go (h.free buf, .ret .ok)

/-- The steps of `wiflySendCommand`. -/
inductive SendPc.Moves (cmd ans : List UInt8) (h : Heap) :
    SendPc → Input → Heap × Next SendPc → Prop where
  | alloc {r : Nat × Heap} (hr : h.alloc word = some r) :
    Moves cmd ans h .alloc .go (r.2, .cont (.read r.1 .alloc))
  | read {buf : Nat} {pc : ReadPc} {inp : Input} {r : Heap × Next ReadPc}
    (hr : pc.step word cmd (some buf) h inp = some r) :
    Moves cmd ans h (.read buf pc) inp (r.1, SendPc.compare ans buf r.1 r.2)
  | free {buf : Nat} {s : State} : Moves cmd ans h (.free buf s) .go (h.free buf, .ret s)

/-- The steps of `wiflyConnect`. -/
inductive ConnectPc.Moves (ssid phrase : List UInt8) (h : Heap) :
    ConnectPc → Input → Heap × Next ConnectPc → Prop where
  | first {c : Command} {rest : List Command} {pc : SendPc} {inp : Input} {r : Heap × Next SendPc}
    (hr : pc.step word c.cmd c.ans h inp = some r) :
    Moves ssid phrase h (.first c rest pc) inp (r.1, ConnectPc.firstDone c rest r.2)
  | alloc {r : Nat × Heap} (hr : h.alloc word = some r) :
    Moves ssid phrase h .alloc .go (r.2, .cont (.build r.1 (connectLast ssid phrase)))
  | build {buf : Nat} {c : Command} {rest : List Command} {h' : Heap}
    (hh : (if c.inBuf then h.store word buf c.cmd else some h) = some h') :
    Moves ssid phrase h (.build buf (c :: rest)) .go (h', .cont (.last buf c rest .alloc))
  | built {buf : Nat} : Moves ssid phrase h (.build buf []) .go (h, .cont (.free buf .ok))
  | last {buf : Nat} {c : Command} {rest : List Command} {pc : SendPc} {inp : Input}
    {r : Heap × Next SendPc} (hr : pc.step word (c.text h buf) c.ans h inp = some r) :
    Moves ssid phrase h (.last buf c rest pc) inp (r.1, ConnectPc.lastDone buf c rest r.2)
  | free {buf : Nat} {s : State} : Moves ssid phrase h (.free buf s) .go (h.free buf, .ret s)

end

section
variable {word : Option Nat → List UInt8 → Option Nat} {h : Heap} {inp : Input}

theorem readCommand_move {cmd : List UInt8} {total : Option Nat} {pc : ReadPc}
    {r : Heap × Next ReadPc} (hs : pc.step word cmd total h inp = some r) :
    pc.Moves word cmd total h inp r := by
  unfold ReadPc.step at hs
  split at hs
  · obtain ⟨r, hr, rfl⟩ := Option.map_eq_some_iff.1 hs
    exact .alloc hr
  · obtain ⟨h', hh, rfl⟩ := Option.map_eq_some_iff.1 hs
    exact .clear hh
  · split at hs
    · next q hq =>
      obtain ⟨h', hh, rfl⟩ := Option.map_eq_some_iff.1 hs
      exact .start hq hh
    · next hn =>
      split at hs
      · next hgo =>
        cases hs
        rw [hgo]
        exact .loop hn
      · cases hs
  · obtain ⟨h', hh, hs⟩ := Option.bind_eq_some_iff.1 hs
    unfold ReadPc.line at hs
    split at hs
    · next hok =>
      obtain ⟨h'', hh', rfl⟩ := Option.map_eq_some_iff.1 hs
      exact .line hh hok hh'
    · next hend =>
      cases hs
      exact .last hh hend
  · obtain ⟨h', hh, rfl⟩ := Option.map_eq_some_iff.1 hs
    exact .exit hh
  · obtain ⟨h', hh, rfl⟩ := Option.map_eq_some_iff.1 hs
    exact .skip hh
  · cases hs
    exact .free
  · cases hs

theorem sendCommand_move {cmd ans : List UInt8} {pc : SendPc} {r : Heap × Next SendPc}
    (hs : pc.step word cmd ans h inp = some r) : pc.Moves word cmd ans h inp r := by
  unfold SendPc.step at hs
  split at hs
  · obtain ⟨r, hr, rfl⟩ := Option.map_eq_some_iff.1 hs
    exact .alloc hr
  · obtain ⟨r, hr, rfl⟩ := Option.map_eq_some_iff.1 hs
    exact .read hr
  · cases hs
    exact .free
  · cases hs

theorem connect_move {ssid phrase : List UInt8} {pc : ConnectPc} {r : Heap × Next ConnectPc}
    (hs : pc.step word ssid phrase h inp = some r) : pc.Moves word ssid phrase h inp r := by
  unfold ConnectPc.step at hs
  split at hs
  · obtain ⟨r, hr, rfl⟩ := Option.map_eq_some_iff.1 hs
    exact .first hr
  · obtain ⟨r, hr, rfl⟩ := Option.map_eq_some_iff.1 hs
    exact .alloc hr
  · obtain ⟨h', hh, rfl⟩ := Option.map_eq_some_iff.1 hs
    exact .build hh
  · cases hs
    exact .built
  · obtain ⟨r, hr, rfl⟩ := Option.map_eq_some_iff.1 hs
    exact .last hr
  · cases hs
    exact .free
  · cases hs

end

/-! ## What a step does to the pool -/

/-- The blocks a call holds. -/
def ReadPc.held : ReadPc → Multiset Nat
  | alloc => 0
  | clear buf | start buf _ | answer buf | exit buf _ | free buf => {buf}

def SendPc.held : SendPc → Multiset Nat
  | alloc => 0
  | read buf pc => {buf} + pc.held
  | free buf _ => {buf}

def ConnectPc.held : ConnectPc → Multiset Nat
  | first _ _ pc => pc.held
  | alloc => 0
  | build buf _ => {buf}
  | last buf _ _ pc => {buf} + pc.held
  | free buf _ => {buf}

def Call.held : Call → Multiset Nat
  | readCommand _ pc => pc.held
  | sendCommand _ _ pc => pc.held
  | connect _ _ pc => pc.held

def Next.held {π : Type} (f : π → Multiset Nat) : Next π → Multiset Nat
  | .cont pc => f pc
  | .ret _ => 0

section
variable {word : Option Nat → List UInt8 → Option Nat} {h h' : Heap} {held : Multiset Nat}

open MemoryPool (Uses Writes)

theorem store_writes {a : Nat} {str : List UInt8} (ha : a ∈ held)
    (hs : h.store word a str = some h') : Writes held h.pool h'.pool := by
  unfold Heap.store at hs
  split at hs
  · cases hs
    exact MemoryPool.writes_store ha ..
  · cases hs

theorem storeTotal_writes {total : Option Nat} {f : List UInt8 → Option (List UInt8)}
    (ht : ∀ a ∈ total, a ∈ held) (hs : h.storeTotal word total f = some h') :
    Writes held h.pool h'.pool := by
  cases total with
  | none => cases hs; exact .refl ..
  | some a =>
    obtain ⟨str, -, hs⟩ := Option.bind_eq_some_iff.1 hs
    exact store_writes (ht a rfl) hs

theorem request_writes {buf : Nat} {q : Req Op} {inp : Input} (hb : buf ∈ held)
    (hs : request word h buf q inp = some h') : Writes held h.pool h'.pool := by
  unfold request at hs
  split at hs
  · exact store_writes hb hs
  · cases hs; exact .refl ..
  · cases hs; exact .refl ..
  · cases hs

theorem alloc_uses {r : Nat × Heap} (hn : h.pool.mp_next ≠ none) (hs : h.alloc word = some r)
    (held : Multiset Nat) : Uses held h.pool r.2.pool (r.1 ::ₘ held) := by
  obtain ⟨a, ha⟩ := Option.ne_none_iff_exists'.1 hn
  rw [Heap.alloc, MemoryPool.chPoolAllocI_of_mp_next ha, Option.bind_some, Heap.store,
    if_pos (by decide)] at hs
  cases hs
  refine .alloc a ha rfl fun b hb => Function.update_of_ne ?_ _ _
  rintro rfl
  exact hb (Multiset.mem_cons_self _ _)

theorem free_uses (h : Heap) (buf : Nat) (held : Multiset Nat) :
    Uses (buf ::ₘ held) h.pool (h.free buf).pool held := by
  refine .free buf held rfl rfl (Function.update_self ..) fun b hb => Function.update_of_ne ?_ _ _
  rintro rfl
  exact hb (Multiset.mem_cons_self _ _)

/-- The block `total` points to, if any. -/
def blockOf (total : Option Nat) : Multiset Nat := total.elim 0 fun a => {a}

theorem readCommand_uses {cmd : List UInt8} {total : Option Nat} {pc : ReadPc} {inp : Input}
    {r : Heap × Next ReadPc} (hn : h.pool.mp_next ≠ none)
    (hs : pc.step word cmd total h inp = some r) :
    Uses (pc.held + blockOf total) h.pool r.1.pool (r.2.held ReadPc.held + blockOf total) := by
  have htotal : ∀ a ∈ total, ∀ held : Multiset Nat, a ∈ held + blockOf total := by
    intro a ha held
    rw [Option.mem_def.1 ha]
    exact Multiset.mem_add.2 (.inr (Multiset.mem_singleton_self a))
  have hbuf : ∀ buf : Nat, buf ∈ {buf} + blockOf total := fun buf =>
    Multiset.mem_add.2 (.inl (Multiset.mem_singleton_self buf))
  cases readCommand_move hs with
  | alloc hr => exact (alloc_uses hn hr 0).frame _
  | clear hh => exact .write (storeTotal_writes (fun a ha => htotal a ha _) hh)
  | start hq hh => exact .write (request_writes (hbuf _) hh)
  | loop => exact .write (.refl ..)
  | line hh hok hh' =>
    have hw := store_writes (hbuf _) hh
    exact .write (hw.trans (storeTotal_writes (fun a ha => htotal a ha _) hh'))
  | last hh hend => exact .write (store_writes (hbuf _) hh)
  | exit hh => exact .write (request_writes (hbuf _) hh)
  | skip hh => exact .write (storeTotal_writes (fun a ha => htotal a ha _) hh)
  | free => exact (free_uses h _ 0).frame _

theorem sendCommand_uses {cmd ans : List UInt8} {pc : SendPc} {inp : Input}
    {r : Heap × Next SendPc} (hn : h.pool.mp_next ≠ none)
    (hs : pc.step word cmd ans h inp = some r) :
    Uses pc.held h.pool r.1.pool (r.2.held SendPc.held) := by
  cases sendCommand_move hs with
  | alloc hr => exact alloc_uses hn hr 0
  | @read buf pc _ r hr =>
    have hu := readCommand_uses hn hr
    rw [Multiset.add_comm, Multiset.add_comm _ (blockOf _)] at hu
    cases hr2 : r.2 with
    | cont pc =>
      rw [hr2] at hu
      exact hu
    | ret s =>
      rw [hr2] at hu
      exact hu
  | free => exact free_uses h _ 0

theorem connect_uses {ssid phrase : List UInt8} {pc : ConnectPc} {inp : Input}
    {r : Heap × Next ConnectPc} (hn : h.pool.mp_next ≠ none)
    (hs : pc.step word ssid phrase h inp = some r) :
    Uses pc.held h.pool r.1.pool (r.2.held ConnectPc.held) := by
  cases connect_move hs with
  | @first c rest pc _ r hr =>
    have hu := sendCommand_uses hn hr
    cases hr2 : r.2 with
    | cont pc =>
      rw [hr2] at hu
      exact hu
    | ret s =>
      rw [hr2] at hu
      dsimp only [ConnectPc.firstDone]
      split
      · exact hu
      · cases rest <;> exact hu
  | alloc hr => exact alloc_uses hn hr 0
  | build hh =>
    refine .write ?_
    split at hh
    · exact store_writes (Multiset.mem_singleton_self _) hh
    · cases hh
      exact .refl ..
  | built => exact .write (.refl ..)
  | @last buf c rest pc _ r hr =>
    have hu := (sendCommand_uses hn hr).frame {buf}
    rw [Multiset.add_comm, Multiset.add_comm _ {buf}] at hu
    cases hr2 : r.2 with
    | cont pc =>
      rw [hr2] at hu
      exact hu
    | ret s =>
      rw [hr2] at hu
      dsimp only [ConnectPc.lastDone]
      split <;> exact hu
  | free => exact free_uses h _ 0

/-- The blocks of a call, if there is one. -/
def heldBy (c : Option Call) : Multiset Nat := c.elim 0 Call.held

theorem heldBy_call {π : Type} {f : π → Call} {g : π → Multiset Nat} (hf : ∀ pc, (f pc).held = g pc)
    (n : Next π) : heldBy (n.call f) = n.held g := by
  cases n with
  | cont pc => exact hf pc
  | ret s => rfl

theorem call_uses {c : Call} {inp : Input} {r : Heap × Option Call} (hn : h.pool.mp_next ≠ none)
    (hs : c.step word h inp = some r) : Uses c.held h.pool r.1.pool (heldBy r.2) := by
  cases c with
  | readCommand cmd pc =>
    obtain ⟨r, hr, rfl⟩ := Option.map_eq_some_iff.1 hs
    have hu := readCommand_uses hn hr
    rw [blockOf, Option.elim_none, add_zero, add_zero] at hu
    rw [heldBy_call fun _ => rfl]
    exact hu
  | sendCommand cmd ans pc =>
    obtain ⟨r, hr, rfl⟩ := Option.map_eq_some_iff.1 hs
    rw [heldBy_call fun _ => rfl]
    exact sendCommand_uses hn hr
  | connect ssid phrase pc =>
    obtain ⟨r, hr, rfl⟩ := Option.map_eq_some_iff.1 hs
    rw [heldBy_call fun _ => rfl]
    exact connect_uses hn hr

theorem ReadPc.card_held (pc : ReadPc) : pc.held.card ≤ 1 := by
  cases pc with
  | alloc => exact Nat.zero_le _
  | clear | start | answer | exit | free => exact (Multiset.card_singleton _).le

theorem SendPc.card_held (pc : SendPc) : pc.held.card ≤ 2 := by
  cases pc with
  | read buf pc =>
    rw [SendPc.held, Multiset.card_add, Multiset.card_singleton]
    have := pc.card_held
    omega
  | alloc => exact Nat.zero_le _
  | free => exact (Multiset.card_singleton _).le.trans (by omega)

theorem ConnectPc.card_held (pc : ConnectPc) : pc.held.card ≤ 3 := by
  cases pc with
  | last buf c rest pc =>
    rw [ConnectPc.held, Multiset.card_add, Multiset.card_singleton]
    have := pc.card_held
    omega
  | first c rest pc => exact pc.card_held.trans (by omega)
  | alloc => exact Nat.zero_le _
  | build | free => exact (Multiset.card_singleton _).le.trans (by omega)

theorem card_heldBy (c : Option Call) : (heldBy c).card ≤ 3 := by
  cases c with
  | none => exact Nat.zero_le _
  | some c =>
    cases c with
    | readCommand cmd pc => exact pc.card_held.trans (by omega)
    | sendCommand cmd ans pc => exact pc.card_held.trans (by omega)
    | connect ssid phrase pc => exact pc.card_held

end

/-! ## Conservation -/

namespace Threads

variable {word : Option Nat → List UInt8 → Option Nat} {n : Nat} {s t : Threads n} {charMem : Nat}

/-- The blocks held by the calls in progress. -/
def held (s : Threads n) : Multiset Nat := ∑ thd, heldBy (s.calls thd)

/-- The blocks of `char_mem`. -/
def blocks (charMem : Nat) : List Nat := MemoryPool.objects wiflyElSize charMem 10

theorem blocks_nodup (charMem : Nat) : (blocks charMem).Nodup :=
  MemoryPool.objects_nodup (by decide) charMem 10

/-- Each block is free or held by one call. -/
def Conserved (charMem : Nat) (s : Threads n) (l : List Nat) : Prop :=
  s.heap.pool.Free l ∧ (l : Multiset Nat) + s.held = blocks charMem

theorem held_update (s : Threads n) (thd : Fin n) (heap : Heap) (c : Option Call) :
    ∃ others : Multiset Nat, s.held = heldBy (s.calls thd) + others ∧
      held ⟨heap, Function.update s.calls thd c⟩ = heldBy c + others := by
  refine ⟨∑ i ∈ Finset.univ.erase thd, heldBy (s.calls i), ?_, ?_⟩
  · exact (Finset.add_sum_erase _ _ (Finset.mem_univ thd)).symm
  · refine (Finset.add_sum_erase _ _ (Finset.mem_univ thd)).symm.trans (congrArg₂ _ ?_ ?_)
    · exact congrArg heldBy (Function.update_self ..)
    · refine Finset.sum_congr rfl fun i hi => congrArg heldBy ?_
      exact Function.update_of_ne (Finset.ne_of_mem_erase hi) ..

theorem card_held (s : Threads n) : s.held.card ≤ n * 3 := by
  rw [held, Multiset.card_sum]
  refine (Finset.sum_le_card_nsmul _ _ 3 fun i _ => card_heldBy _).trans ?_
  rw [Finset.card_univ, Fintype.card_fin, nsmul_eq_mul, Nat.cast_id]

theorem Conserved.mp_next_ne (hn : n ≤ 3) {l : List Nat} (h : Conserved charMem s l) :
    s.heap.pool.mp_next ≠ none := by
  have hcard := congrArg Multiset.card h.2
  have hlen : (blocks charMem).length = 10 := rfl
  rw [Multiset.card_add, Multiset.coe_card, Multiset.coe_card, hlen] at hcard
  have hheld := s.card_held
  intro hnone
  have hhead := h.1.head_eq
  rw [hnone] at hhead
  rw [List.head?_eq_none_iff.1 hhead.symm, List.length_nil] at hcard
  omega

theorem conserved_init (mem : Nat → Option Nat) (chars : Nat → List UInt8) (charMem : Nat) :
    Conserved charMem (init mem chars charMem : Threads n) (blocks charMem).reverse := by
  refine ⟨?_, ?_⟩
  · have hl := (MemoryPool.free_chPoolInit wiflyElSize none mem).chPoolLoadArray (p := charMem)
      (n := 10) (by rw [List.append_nil]; exact blocks_nodup charMem)
    rw [List.append_nil] at hl
    exact hl
  · have hheld : (init mem chars charMem : Threads n).held = 0 := Finset.sum_const_zero
    rw [hheld, add_zero]
    exact Multiset.coe_reverse _

theorem conserved_step (hn : n ≤ 3) {a : Act n} {l : List Nat} (h : Conserved charMem s l)
    (hs : s.step word a = some t) : ∃ l', Conserved charMem t l' := by
  cases a with
  | call thd f =>
    dsimp only [step] at hs
    split at hs
    · cases hs
    · next hnone =>
      cases hs
      obtain ⟨others, h1, h2⟩ := s.held_update thd s.heap (some f.start)
      rw [Option.not_isSome_iff_eq_none] at hnone
      refine ⟨l, h.1, ?_⟩
      have hstart : heldBy (some f.start) = 0 := by cases f <;> rfl
      rw [h2, hstart, ← h.2, h1, hnone]
      rfl
  | run thd inp =>
    obtain ⟨c, hc, hs⟩ := Option.bind_eq_some_iff.1 hs
    obtain ⟨r, hr, rfl⟩ := Option.map_eq_some_iff.1 hs
    obtain ⟨others, h1, h2⟩ := s.held_update thd r.1 r.2
    have hu := (call_uses (h.mp_next_ne hn) hr).frame others
    rw [hc] at h1
    have hnodup : ((l : Multiset Nat) + (c.held + others)).Nodup := by
      have hb := h.2
      rw [h1] at hb
      exact hb ▸ Multiset.coe_nodup.2 (blocks_nodup charMem)
    obtain ⟨l', hl', he⟩ := hu.conserves h.1 hnodup
    refine ⟨l', hl', ?_⟩
    rw [h2, he, ← h.2, h1]
    rfl

/-- **The pool is conserved**, whatever three threads call, in every order, and whatever the
module answers: no allocation fails, no block is held twice or held and free, and without a
call in progress all blocks are free. -/
theorem pool_conserved (hn : n ≤ 3) {mem : Nat → Option Nat} {chars : Nat → List UInt8}
    (h : Reach (step word) Always (init mem chars charMem) s) :
    s.heap.pool.chPoolAllocI.1 ≠ none ∧ ∃ l : List Nat, s.heap.pool.Free l ∧
      ((l : Multiset Nat) + s.held).Nodup ∧
      ((∀ thd, s.calls thd = none) → l.Perm (blocks charMem)) := by
  have hstep : ∀ (s : Threads n) a t, (∃ l, Conserved charMem s l) → Always s a →
      s.step word a = some t → ∃ l, Conserved charMem t l := by
    rintro s a t ⟨l, hl⟩ - hs
    exact conserved_step hn hl hs
  obtain ⟨l, hl⟩ := h.inv ⟨_, conserved_init mem chars charMem⟩ hstep
  refine ⟨?_, l, hl.1, ?_, fun hidle => ?_⟩
  · obtain ⟨a, ha⟩ := Option.ne_none_iff_exists'.1 (hl.mp_next_ne hn)
    rw [MemoryPool.chPoolAllocI_of_mp_next ha]
    exact Option.some_ne_none a
  · rw [hl.2]
    exact Multiset.coe_nodup.2 (blocks_nodup charMem)
  · have hheld : s.held = 0 := Finset.sum_eq_zero fun thd _ => by rw [hidle thd]; rfl
    have hb := hl.2
    rw [hheld, add_zero] at hb
    exact Multiset.coe_eq_coe.1 hb

/-- One thread is in `wiflyConnect`, another one in `wiflyReadCommand`. -/
theorem pool_conserved_while_connecting :
    ∃ s : Threads 3, (s.calls 0).isSome = true ∧ (s.calls 1).isSome = true ∧
      s.heap.pool.chPoolAllocI.1 ≠ none ∧ ∃ l : List Nat, s.heap.pool.Free l ∧
      ((l : Multiset Nat) + s.held).Nodup ∧
      ((∀ thd, s.calls thd = none) → l.Perm (blocks 4096)) := by
  let word : Option Nat → List UInt8 → Option Nat := fun old _ => old
  obtain ⟨s, hr, hp⟩ := reach_of_exec (step word) Always
    (init (fun _ => none) (fun _ => []) 4096 : Threads 3)
    [.call 0 (.wiflyConnect (ascii "robot") (ascii "secret")), .run 0 .go, .run 0 .go,
      .call 1 (.wiflyReadCommand (ascii "get ip")), .run 1 .go, .run 0 .go, .run 1 .go, .run 1 .go]
    (fun s => (s.calls 0).isSome && (s.calls 1).isSome) (by decide +kernel)
  rw [Bool.and_eq_true] at hp
  exact ⟨s, hp.1, hp.2, pool_conserved (by decide) hr⟩

end Threads

end RobotPws.Wifly.Buffers
