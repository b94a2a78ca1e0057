import Mathlib.Logic.Function.Basic
import RobotPws.Kernel.VirtualTimers
import RobotPws.Lib.PrioQueue

/-!
# Threads

The threads with the queues they are linked into (`chlists.c`), the scheduler (`chschd.c`), the
start of a thread (`chthreads.c`) and the tick (`chsys.c`), as `chconf.h` configures them but for
two options that are `TRUE` there: condition variables (`CH_USE_CONDVARS`: the state `WTCOND` with
its cases in `chMtxLockS` and `wakeup`) and the end of a thread (`CH_USE_WAITEXIT`: `chThdExit` and
`chThdWait`) are not modelled.

A thread that has gone to sleep inside a kernel function has the rest of that function before it,
its `cont`. It runs that first when it is switched in, with the kernel still locked.

A function is `none` where the source follows a pointer that leads to no thread: the first thread
of an empty queue, the owner of a free mutex.
-/

namespace RobotPws.Kernel

open RobotPws.Lib Function

abbrev EventMask := BitVec 32

def RDY_OK : Int := 0
def RDY_TIMEOUT : Int := -1
def RDY_RESET : Int := -2

def TIME_IMMEDIATE : UInt32 := 0
def TIME_INFINITE : UInt32 := 4294967295

def IDLEPRIO : Nat := 1
def NORMALPRIO : Nat := 64
def HIGHPRIO : Nat := 127

def CH_TIME_QUANTUM : Nat := 20

variable {n : Nat}

/-- The queues of threads: the ready list, the one of each semaphore, mutex and I/O queue, and the
messages sent to each thread. -/
inductive QId (n : Nat) where
  | ready
  | sem (sp : Nat)
  | mtx (mp : Nat)
  | io (qp : Nat)
  | msg (tp : Fin n)
  deriving DecidableEq, Repr

/-- `tstate_t`, with the object or the events waited for. `final` also stands for a thread that
has not been created. -/
inductive TState (n : Nat) where
  | ready
  | current
  | suspended
  | wtsem (sp : Nat)
  | wtmtx (mp : Nat)
  | sleeping
  | wtorevt (ewmask : EventMask)
  | wtandevt (ewmask : EventMask)
  | sndmsgq (tp : Fin n)
  | sndmsg
  | wtmsg
  | wtqueue (qp : Nat)
  | final
  deriving DecidableEq, Repr

/-- The queue a thread in this state is linked into. -/
def TState.queue : TState n → Option (QId n)
  | .ready => some .ready
  | .wtsem sp => some (.sem sp)
  | .wtmtx mp => some (.mtx mp)
  | .wtqueue qp => some (.io qp)
  | .sndmsgq tp => some (.msg tp)
  | _ => none

/-- The three ways to wait for events. -/
inductive EvtMode where
  | one
  | any
  | all
  deriving DecidableEq, Repr

/-- What is left of a kernel function after the switch back to the thread: return the message it
was woken up with, take the next message sent, or take events, after a look at that message or
not. -/
inductive Rest where
  | message
  | take
  | events (mode : EvtMode) (mask : EventMask) (check : Bool)
  deriving DecidableEq, Repr

/-- The rest of the function; `timed` if it went to sleep with a virtual timer set. -/
structure Cont where
  rest : Rest
  timed : Bool
  deriving DecidableEq, Repr

/-- What a kernel function has returned. -/
inductive Ret (n : Nat) where
  | void
  | msg (m : Int)
  | events (m : EventMask)
  | thread (tp : Fin n)
  | bool (b : Bool)
  | mutex (ump : Nat)
  deriving DecidableEq, Repr

/-- The timer on the stack of a thread in `chSchGoSleepTimeoutS`, and any other one. -/
inductive Timer (n : Nat) where
  | thread (tp : Fin n)
  | user (vtp : Nat)
  deriving DecidableEq, Repr

/-- The threads, with one map for each field of `Thread`, and the objects of the kernel. -/
structure Kern (n : Nat) where
  prio : Fin n → Nat
  realprio : Fin n → Nat
  state : Fin n → TState n
  preempt : Fin n → Nat
  rdymsg : Fin n → Int
  epending : Fin n → EventMask
  /-- The mutexes a thread owns, the one locked last first. -/
  mtxlist : Fin n → List Nat
  msg : Fin n → Int
  cont : Fin n → Option Cont
  /-- What the thread's last call has returned. -/
  ret : Fin n → Ret n
  currp : Fin n
  queue : QId n → List (Fin n)
  /-- `s_cnt` of each semaphore. -/
  cnt : Nat → Int
  /-- `m_owner` of each mutex. -/
  owner : Nat → Option (Fin n)
  vtlist : VTList (Timer n)
  /-- An interrupt handler has not been left yet. -/
  inIsr : Bool

namespace Kern

def setState (tp : Fin n) (st : TState n) (k : Kern n) : Kern n :=
  { k with state := update k.state tp st }

def setPrio (tp : Fin n) (p : Nat) (k : Kern n) : Kern n := { k with prio := update k.prio tp p }

def setPreempt (tp : Fin n) (p : Nat) (k : Kern n) : Kern n :=
  { k with preempt := update k.preempt tp p }

def setRdymsg (tp : Fin n) (msg : Int) (k : Kern n) : Kern n :=
  { k with rdymsg := update k.rdymsg tp msg }

def setEpending (tp : Fin n) (m : EventMask) (k : Kern n) : Kern n :=
  { k with epending := update k.epending tp m }

def setMtxlist (tp : Fin n) (l : List Nat) (k : Kern n) : Kern n :=
  { k with mtxlist := update k.mtxlist tp l }

def setMsg (tp : Fin n) (msg : Int) (k : Kern n) : Kern n := { k with msg := update k.msg tp msg }

def setCont (tp : Fin n) (c : Option Cont) (k : Kern n) : Kern n :=
  { k with cont := update k.cont tp c }

/-- The function called by the running thread returns `r`. -/
def setRet (r : Ret n) (k : Kern n) : Kern n := { k with ret := update k.ret k.currp r }

def setQueue (q : QId n) (l : List (Fin n)) (k : Kern n) : Kern n :=
  { k with queue := update k.queue q l }

@[simp] theorem queue_setQueue_self (q : QId n) (l : List (Fin n)) (k : Kern n) :
    (k.setQueue q l).queue q = l := update_self ..

theorem queue_setQueue_of_ne {q q' : QId n} (h : q' ≠ q) (l : List (Fin n)) (k : Kern n) :
    (k.setQueue q l).queue q' = k.queue q' := update_of_ne h ..

def setCnt (sp : Nat) (c : Int) (k : Kern n) : Kern n := { k with cnt := update k.cnt sp c }

def setOwner (mp : Nat) (o : Option (Fin n)) (k : Kern n) : Kern n :=
  { k with owner := update k.owner mp o }

/-! ## Thread queues -/

def prio_insert (tp : Fin n) (q : QId n) (k : Kern n) : Kern n :=
  k.setQueue q (insertBehind k.prio tp (k.queue q))

def queue_insert (tp : Fin n) (q : QId n) (k : Kern n) : Kern n := k.setQueue q (k.queue q ++ [tp])

def fifo_remove (q : QId n) (k : Kern n) : Option (Fin n × Kern n) :=
  match k.queue q with
  | [] => none
  | tp :: l => some (tp, k.setQueue q l)

def lifo_remove (q : QId n) (k : Kern n) : Option (Fin n × Kern n) :=
  match (k.queue q).getLast? with
  | none => none
  | some tp => some (tp, k.setQueue q (k.queue q).dropLast)

theorem fifo_remove_eq_some {q : QId n} {k k' : Kern n} {tp : Fin n} :
    k.fifo_remove q = some (tp, k') ↔ ∃ l, k.queue q = tp :: l ∧ k' = k.setQueue q l := by
  unfold fifo_remove
  cases k.queue q with
  | nil => simp
  | cons t l => simp [and_comm, eq_comm]

theorem lifo_remove_eq_some {q : QId n} {k k' : Kern n} {tp : Fin n} :
    k.lifo_remove q = some (tp, k') ↔ ∃ l, k.queue q = l ++ [tp] ∧ k' = k.setQueue q l := by
  unfold lifo_remove
  rcases List.eq_nil_or_concat (k.queue q) with h | ⟨l, t, h⟩
  · simp [h]
  · simp [h, and_comm, eq_comm]

/-- The links of the thread are those into the queue of its state. -/
def dequeue (tp : Fin n) (k : Kern n) : Kern n :=
  match (k.state tp).queue with
  | none => k
  | some q => k.setQueue q ((k.queue q).erase tp)

/-! ## The scheduler -/

def chSchReadyI (tp : Fin n) (k : Kern n) : Kern n :=
  (k.setState tp .ready).prio_insert tp .ready

/-- `chSchReadyI(tp)->p_u.rdymsg = msg` -/
def readyMsgI (tp : Fin n) (msg : Int) (k : Kern n) : Kern n := (k.chSchReadyI tp).setRdymsg tp msg

def setcurrp (tp : Fin n) (k : Kern n) : Kern n := { k.setState tp .current with currp := tp }

/-- `setcurrp(fifo_remove(&rlist.r_queue))` -/
def pick (k : Kern n) : Option (Kern n) := (k.fifo_remove .ready).map fun p => p.2.setcurrp p.1

theorem pick_eq_some {k k' : Kern n} :
    k.pick = some k' ↔
      ∃ tp l, k.queue .ready = tp :: l ∧ k' = (k.setQueue .ready l).setcurrp tp := by
  unfold pick
  constructor
  · intro h
    obtain ⟨⟨tp, k₁⟩, h1, rfl⟩ := Option.map_eq_some_iff.1 h
    obtain ⟨l, hq, rfl⟩ := fifo_remove_eq_some.1 h1
    exact ⟨tp, l, hq, rfl⟩
  · rintro ⟨tp, l, hq, rfl⟩
    rw [fifo_remove_eq_some.2 ⟨l, hq, rfl⟩, Option.map_some]

def chSchGoSleepS (newstate : TState n) (k : Kern n) : Option (Kern n) :=
  ((k.setState k.currp newstate).setPreempt k.currp CH_TIME_QUANTUM).pick

/-- The callback of the timer of `chSchGoSleepTimeoutS`. -/
def wakeup (tp : Fin n) (k : Kern n) : Kern n :=
  match k.state tp with
  | .ready => k
  | .wtsem sp => (((k.setCnt sp (k.cnt sp + 1)).dequeue tp).setRdymsg tp RDY_TIMEOUT).chSchReadyI tp
  | .wtqueue _ => ((k.dequeue tp).setRdymsg tp RDY_TIMEOUT).chSchReadyI tp
  | _ => (k.setRdymsg tp RDY_TIMEOUT).chSchReadyI tp

/-- With what follows it in the calling function. -/
def chSchGoSleepTimeoutS (newstate : TState n) (time : UInt32) (rest : Rest) (k : Kern n) :
    Option (Kern n) :=
  if time ≠ TIME_INFINITE then
    ({ k with vtlist := k.vtlist.chVTSetI (.thread k.currp) time }.setCont k.currp
      (some ⟨rest, true⟩)).chSchGoSleepS newstate
  else (k.setCont k.currp (some ⟨rest, false⟩)).chSchGoSleepS newstate

def chSchWakeupS (ntp : Fin n) (msg : Int) (k : Kern n) : Kern n :=
  if k.prio ntp ≤ k.prio k.currp then (k.setRdymsg ntp msg).chSchReadyI ntp
  else ((k.setRdymsg ntp msg).chSchReadyI k.currp).setcurrp ntp

/-- The priority of the header is `NOPRIO`. -/
def firstprio (k : Kern n) : Nat := (k.queue .ready).head?.elim 0 k.prio

def chSchDoRescheduleBehind (k : Kern n) : Option (Kern n) :=
  k.pick.map fun k' => (k'.setPreempt k.currp CH_TIME_QUANTUM).chSchReadyI k.currp

def chSchDoRescheduleAhead (k : Kern n) : Option (Kern n) :=
  k.pick.map fun k' =>
    let k' := k'.setState k.currp .ready
    k'.setQueue .ready (insertAhead k'.prio k.currp (k'.queue .ready))

def chSchRescheduleS (k : Kern n) : Option (Kern n) :=
  if k.firstprio > k.prio k.currp then k.chSchDoRescheduleAhead else some k

def chSchIsPreemptionRequired (k : Kern n) : Bool :=
  if 0 < k.preempt k.currp then decide (k.firstprio > k.prio k.currp)
  else decide (k.firstprio ≥ k.prio k.currp)

def chSchDoReschedule (k : Kern n) : Option (Kern n) :=
  if k.preempt k.currp = 0 then k.chSchDoRescheduleBehind else k.chSchDoRescheduleAhead

def chSchDoYieldS (k : Kern n) : Option (Kern n) :=
  if k.firstprio ≥ k.prio k.currp then k.chSchDoRescheduleBehind else some k

/-- `_port_irq_epilogue` of the last interrupt handler to be left. -/
def irqEpilogue (k : Kern n) : Option (Kern n) :=
  (if k.chSchIsPreemptionRequired then k.chSchDoReschedule else some k).map
    fun k => { k with inIsr := false }

/-! ## Threads and the tick -/

/-- `_thread_init` -/
def threadInit (tp : Fin n) (prio : Nat) (k : Kern n) : Kern n :=
  { k with
    prio := update k.prio tp prio
    state := update k.state tp .suspended
    preempt := update k.preempt tp CH_TIME_QUANTUM
    realprio := update k.realprio tp prio
    mtxlist := update k.mtxlist tp []
    epending := update k.epending tp 0
    queue := update k.queue (.msg tp) []
    cont := update k.cont tp none }

def chThdCreateStatic (tp : Fin n) (prio : Nat) (k : Kern n) : Option (Kern n) :=
  some (((k.threadInit tp prio).setRet (.thread tp)).chSchWakeupS tp RDY_OK)

def chThdSleep (time : UInt32) (k : Kern n) : Option (Kern n) :=
  k.chSchGoSleepTimeoutS .sleeping time .message

def chThdYield (k : Kern n) : Option (Kern n) := (k.setRet .void).chSchDoYieldS

/-- A driver waits for its interrupt: `chSchGoSleepS(THD_STATE_SUSPENDED)`. -/
def suspend (k : Kern n) : Option (Kern n) :=
  (k.setCont k.currp (some ⟨.message, false⟩)).chSchGoSleepS .suspended

/-- A driver's interrupt handler wakes the thread up. -/
def resumeI (tp : Fin n) (msg : Int) (k : Kern n) : Kern n := (k.setRdymsg tp msg).chSchReadyI tp

/-- `qwait` of `chqueues.c` -/
def qwait (qp : Nat) (time : UInt32) (k : Kern n) : Option (Kern n) :=
  if time = TIME_IMMEDIATE then some (k.setRet (.msg RDY_TIMEOUT))
  else (k.queue_insert k.currp (.io qp)).chSchGoSleepTimeoutS (.wtqueue qp) time .message

/-- What is done for the first thread waiting at an I/O queue, if there is one. -/
def wakeFirstI (qp : Nat) (msg : Int) (k : Kern n) : Kern n :=
  match k.fifo_remove (.io qp) with
  | none => k
  | some (tp, k) => k.readyMsgI tp msg

/-- The loop of `chIQResetI` and `chOQResetI`, as long as threads are waiting. -/
def qResetI (qp : Nat) (k : Kern n) : Kern n :=
  (wakeFirstI qp RDY_RESET)^[(k.queue (.io qp)).length] k

/-- `chSysTimerHandlerI`, up to the loop of `chVTDoTickI` over the expired timers. -/
def chSysTimerHandlerI (k : Kern n) : Kern n :=
  { k.setPreempt k.currp (k.preempt k.currp - 1) with vtlist := k.vtlist.decrement }

/-- One pass of that loop. The callback of a timer that is not the kernel's own is what the
handler does next. -/
def expire (k : Kern n) : Option (Kern n) :=
  match k.vtlist.expired with
  | none => none
  | some (.thread tp, l) => some ({ k with vtlist := l }.wakeup tp)
  | some (.user _, l) => some { k with vtlist := l }

/-- `chSysInit`: this is the thread `main` from now on, and the idle thread is created. The
semaphores are set to `cnts`. -/
def chSysInit (main idle : Fin n) (cnts : Nat → Nat) : Kern n :=
  let k : Kern n :=
    { prio := fun _ => 0, realprio := fun _ => 0, state := fun _ => .final, preempt := fun _ => 0
      rdymsg := fun _ => 0, epending := fun _ => 0, mtxlist := fun _ => [], msg := fun _ => 0
      cont := fun _ => none, ret := fun _ => .void, currp := main, queue := fun _ => []
      cnt := fun sp => cnts sp, owner := fun _ => none, vtlist := [], inIsr := false }
  (((k.threadInit main NORMALPRIO).setcurrp main).threadInit idle IDLEPRIO).chSchWakeupS idle RDY_OK

end Kern

end RobotPws.Kernel
