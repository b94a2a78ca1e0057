import RobotPws.Kernel.Threads

/-!
# The services of the kernel

Semaphores (`chsem.c`), mutexes with priority inheritance (`chmtx.c`), synchronous messages
(`chmsg.c`) and the event flags of a thread (`chevents.c`). `step` puts all functions together: a
label is a call by the running thread, what it does first after a switch, or one action of an
interrupt handler. `Allowed` is what the source asks of its callers.
-/

namespace RobotPws.Kernel

open RobotPws.Lib

variable {n : Nat}

namespace EvtMode

/-- The condition not to wait. -/
def met (mode : EvtMode) (pending mask : EventMask) : Bool :=
  match mode with
  | .all => pending &&& mask == mask
  | _ => pending &&& mask != 0

def state (mode : EvtMode) (mask : EventMask) : TState n :=
  match mode with
  | .all => .wtandevt mask
  | _ => .wtorevt mask

/-- The events taken: the lowest one, all of those pending, all of those asked for. -/
def taken (mode : EvtMode) (pending mask : EventMask) : EventMask :=
  match mode with
  | .one => (pending &&& mask) &&& -(pending &&& mask)
  | .any => pending &&& mask
  | .all => mask

end EvtMode

namespace Kern

/-! ## Semaphores -/

def chSemWait (sp : Nat) (k : Kern n) : Option (Kern n) :=
  let k := k.setCnt sp (k.cnt sp - 1)
  if k.cnt sp < 0 then
    ((k.queue_insert k.currp (.sem sp)).setCont k.currp (some ⟨.message, false⟩)).chSchGoSleepS
      (.wtsem sp)
  else some (k.setRet (.msg RDY_OK))

def chSemWaitTimeout (sp : Nat) (time : UInt32) (k : Kern n) : Option (Kern n) :=
  let k := k.setCnt sp (k.cnt sp - 1)
  if k.cnt sp < 0 then
    if time = TIME_IMMEDIATE then some ((k.setCnt sp (k.cnt sp + 1)).setRet (.msg RDY_TIMEOUT))
    else (k.queue_insert k.currp (.sem sp)).chSchGoSleepTimeoutS (.wtsem sp) time .message
  else some (k.setRet (.msg RDY_OK))

def chSemSignal (sp : Nat) (k : Kern n) : Option (Kern n) :=
  let k := (k.setCnt sp (k.cnt sp + 1)).setRet .void
  if k.cnt sp ≤ 0 then (k.fifo_remove (.sem sp)).map fun p => p.2.chSchWakeupS p.1 RDY_OK
  else some k

def chSemSignalI (sp : Nat) (k : Kern n) : Option (Kern n) :=
  let k := k.setCnt sp (k.cnt sp + 1)
  if k.cnt sp ≤ 0 then (k.fifo_remove (.sem sp)).map fun p => p.2.readyMsgI p.1 RDY_OK
  else some k

/-- The loop of `chSemResetI`: `++cnt` is not positive another `m` times. -/
def resetLoop (sp : Nat) : Nat → Kern n → Option (Kern n)
  | 0, k => some k
  | m + 1, k => (k.lifo_remove (.sem sp)).bind fun p => resetLoop sp m (p.2.readyMsgI p.1 RDY_RESET)

def chSemResetI (sp : Nat) (c : Nat) (k : Kern n) : Option (Kern n) :=
  resetLoop sp (- k.cnt sp).toNat (k.setCnt sp c)

def chSemReset (sp : Nat) (c : Nat) (k : Kern n) : Option (Kern n) :=
  ((k.setRet .void).chSemResetI sp c).bind chSchRescheduleS

def chSemSignalWait (sps spw : Nat) (k : Kern n) : Option (Kern n) :=
  (k.chSemSignalI sps).bind fun k =>
    let k := k.setCnt spw (k.cnt spw - 1)
    if k.cnt spw < 0 then
      ((k.queue_insert k.currp (.sem spw)).setCont k.currp (some ⟨.message, false⟩)).chSchGoSleepS
        (.wtsem spw)
    else (k.setRet (.msg RDY_OK)).chSchRescheduleS

/-! ## Mutexes -/

/-- The mutex is `tp`'s, on top of its list. -/
def giveMtx (tp : Fin n) (mp : Nat) (k : Kern n) : Kern n :=
  (k.setOwner mp (some tp)).setMtxlist tp (mp :: k.mtxlist tp)

/-- The loop of `chMtxLockS` from `tp` on, for a limited number of passes: everyone the running
thread is going to wait for gets at least its priority. -/
def inherit : Nat → Fin n → Kern n → Option (Kern n)
  | 0, _, _ => none
  | fuel + 1, tp, k =>
    if k.prio tp < k.prio k.currp then
      let k := k.setPrio tp (k.prio k.currp)
      match k.state tp with
      | .wtmtx mp =>
        let k := (k.dequeue tp).prio_insert tp (.mtx mp)
        (k.owner mp).bind fun tp' => inherit fuel tp' k
      | .ready => some ((k.dequeue tp).chSchReadyI tp)
      | _ => some k
    else some k

/-- Each pass gives another thread the priority of the running one. -/
def chMtxLock (mp : Nat) (k : Kern n) : Option (Kern n) :=
  let k := k.setRet .void
  match k.owner mp with
  | some tp => (k.inherit (n + 1) tp).bind fun k =>
      (k.prio_insert k.currp (.mtx mp)).chSchGoSleepS (.wtmtx mp)
  | none => some (k.giveMtx k.currp mp)

def chMtxTryLock (mp : Nat) (k : Kern n) : Option (Kern n) :=
  match k.owner mp with
  | some _ => some (k.setRet (.bool false))
  | none => some ((k.giveMtx k.currp mp).setRet (.bool true))

/-- The loop of `chMtxUnlock` over the mutexes still owned. -/
def newprio (k : Kern n) (realprio : Nat) (mtxlist : List Nat) : Nat :=
  mtxlist.foldl (fun p mp => match k.queue (.mtx mp) with
    | [] => p
    | tp :: _ => if k.prio tp > p then k.prio tp else p) realprio

/-- `tp = fifo_remove(&ump->m_queue)`, with the mutex given to it. -/
def handOver (ump : Nat) (k : Kern n) : Option (Fin n × Kern n) :=
  (k.fifo_remove (.mtx ump)).map fun p => (p.1, p.2.giveMtx p.1 ump)

theorem handOver_eq_some {ump : Nat} {k k' : Kern n} {tp : Fin n} : k.handOver ump = some (tp, k') ↔
    ∃ l, k.queue (.mtx ump) = tp :: l ∧ k' = (k.setQueue (.mtx ump) l).giveMtx tp ump := by
  unfold handOver
  rw [Option.map_eq_some_iff]
  constructor
  · rintro ⟨⟨t, k₁⟩, h1, h2⟩
    obtain ⟨l, hq, rfl⟩ := fifo_remove_eq_some.1 h1
    cases h2
    exact ⟨l, hq, rfl⟩
  · rintro ⟨l, hq, rfl⟩
    exact ⟨(tp, _), fifo_remove_eq_some.2 ⟨l, hq, rfl⟩, rfl⟩

def chMtxUnlock (k : Kern n) : Option (Kern n) :=
  match k.mtxlist k.currp with
  | [] => none
  | ump :: l =>
    let k := (k.setMtxlist k.currp l).setRet (.mutex ump)
    if k.queue (.mtx ump) ≠ [] then
      ((k.setPrio k.currp (k.newprio (k.realprio k.currp) l)).handOver ump).map
        fun p => p.2.chSchWakeupS p.1 RDY_OK
    else some (k.setOwner ump none)

/-- One pass of the loop of `chMtxUnlockAll`. -/
def unlockOne (ctp : Fin n) (ump : Nat) (l : List Nat) (k : Kern n) : Kern n :=
  let k := k.setMtxlist ctp l
  match k.handOver ump with
  | some (tp, k) => k.chSchReadyI tp
  | none => k.setOwner ump none

def unlockLoop (ctp : Fin n) : List Nat → Kern n → Kern n
  | [], k => k
  | ump :: l, k => unlockLoop ctp l (k.unlockOne ctp ump l)

def chMtxUnlockAll (k : Kern n) : Option (Kern n) :=
  let ctp := k.currp
  let k := k.setRet .void
  if k.mtxlist ctp ≠ [] then
    let k := unlockLoop ctp (k.mtxlist ctp) k
    (k.setPrio ctp (k.realprio ctp)).chSchRescheduleS
  else some k

/-! ## Messages -/

def chMsgSend (tp : Fin n) (msg : Int) (k : Kern n) : Option (Kern n) :=
  let k := ((k.setMsg k.currp msg).setCont k.currp (some ⟨.message, false⟩)).queue_insert k.currp
    (.msg tp)
  let k := if k.state tp = .wtmsg then k.chSchReadyI tp else k
  k.chSchGoSleepS (.sndmsgq tp)

/-- `tp = fifo_remove(&currp->p_msgqueue)` -/
def takeMsg (k : Kern n) : Option (Kern n) :=
  (k.fifo_remove (.msg k.currp)).map fun p => (p.2.setState p.1 .sndmsg).setRet (.thread p.1)

def chMsgWait (k : Kern n) : Option (Kern n) :=
  if k.queue (.msg k.currp) = [] then (k.setCont k.currp (some ⟨.take, false⟩)).chSchGoSleepS .wtmsg
  else k.takeMsg

def chMsgRelease (tp : Fin n) (msg : Int) (k : Kern n) : Option (Kern n) :=
  some ((k.setRet .void).chSchWakeupS tp msg)

/-! ## Events -/

/-- What a thread that waits for events takes of those pending, and what it returns. -/
def takeEvents (mode : EvtMode) (mask : EventMask) (k : Kern n) : Kern n :=
  let m := mode.taken (k.epending k.currp) mask
  (k.setEpending k.currp (k.epending k.currp &&& ~~~m)).setRet (.events m)

/-- `chEvtWaitOne`, `chEvtWaitAny` and `chEvtWaitAll` -/
def chEvtWait (mode : EvtMode) (mask : EventMask) (k : Kern n) : Option (Kern n) :=
  if mode.met (k.epending k.currp) mask then some (k.takeEvents mode mask)
  else (k.setCont k.currp (some ⟨.events mode mask false, false⟩)).chSchGoSleepS (mode.state mask)

/-- `chEvtWaitOneTimeout`, `chEvtWaitAnyTimeout` and `chEvtWaitAllTimeout` -/
def chEvtWaitTimeout (mode : EvtMode) (mask : EventMask) (time : UInt32) (k : Kern n) :
    Option (Kern n) :=
  if mode.met (k.epending k.currp) mask then some (k.takeEvents mode mask)
  else if time = TIME_IMMEDIATE then some (k.setRet (.events 0))
  else k.chSchGoSleepTimeoutS (mode.state mask) time (.events mode mask true)

def chEvtGetAndClearEvents (mask : EventMask) (k : Kern n) : Option (Kern n) :=
  some ((k.setRet (.events (k.epending k.currp &&& mask))).setEpending k.currp
    (k.epending k.currp &&& ~~~mask))

def chEvtAddEvents (mask : EventMask) (k : Kern n) : Option (Kern n) :=
  let k := k.setEpending k.currp (k.epending k.currp ||| mask)
  some (k.setRet (.events (k.epending k.currp)))

def chEvtSignalI (tp : Fin n) (mask : EventMask) (k : Kern n) : Kern n :=
  let k := k.setEpending tp (k.epending tp ||| mask)
  match k.state tp with
  | .wtorevt ewmask =>
    if k.epending tp &&& ewmask ≠ 0 then k.readyMsgI tp RDY_OK else k
  | .wtandevt ewmask =>
    if k.epending tp &&& ewmask = ewmask then k.readyMsgI tp RDY_OK else k
  | _ => k

def chEvtSignal (tp : Fin n) (mask : EventMask) (k : Kern n) : Option (Kern n) :=
  ((k.setRet .void).chEvtSignalI tp mask).chSchRescheduleS

/-! ## After a switch -/

/-- The rest of the function the running thread went to sleep in. -/
def finish (rest : Rest) (k : Kern n) : Option (Kern n) :=
  match rest with
  | .message => some (k.setRet (.msg (k.rdymsg k.currp)))
  | .take => k.takeMsg
  | .events mode mask check =>
    if check ∧ k.rdymsg k.currp < RDY_OK then some (k.setRet (.events 0))
    else some (k.takeEvents mode mask)

/-- `if (chVTIsArmedI(&vt)) chVTResetI(&vt);`, where there is a timer. -/
def disarm (timed : Bool) (k : Kern n) : Kern n :=
  if timed ∧ .thread k.currp ∈ DeltaList.keys k.vtlist then
    { k with vtlist := k.vtlist.chVTResetI (.thread k.currp) }
  else k

def resume (k : Kern n) : Option (Kern n) :=
  (k.cont k.currp).bind fun c => ((k.disarm c.timed).setCont k.currp none).finish c.rest

end Kern

/-! ## The machine -/

/-- The kernel functions a thread calls. -/
inductive Call (n : Nat) where
  | semWait (sp : Nat)
  | semWaitTimeout (sp : Nat) (time : UInt32)
  | semSignal (sp : Nat)
  | semReset (sp c : Nat)
  | semSignalWait (sps spw : Nat)
  | mtxLock (mp : Nat)
  | mtxTryLock (mp : Nat)
  | mtxUnlock
  | mtxUnlockAll
  | msgSend (tp : Fin n) (msg : Int)
  | msgWait
  | msgRelease (tp : Fin n) (msg : Int)
  | evtWait (mode : EvtMode) (mask : EventMask)
  | evtWaitTimeout (mode : EvtMode) (mask : EventMask) (time : UInt32)
  | evtGetAndClear (mask : EventMask)
  | evtAdd (mask : EventMask)
  | evtSignal (tp : Fin n) (mask : EventMask)
  | create (tp : Fin n) (prio : Nat)
  | sleep (time : UInt32)
  | yield
  | suspend
  | qwait (qp : Nat) (time : UInt32)
  deriving DecidableEq, Repr

/-- The kernel functions of the I class, for interrupt handlers and locked sections. -/
inductive IOp (n : Nat) where
  | semSignalI (sp : Nat)
  | semResetI (sp c : Nat)
  | evtSignalI (tp : Fin n) (mask : EventMask)
  | resumeI (tp : Fin n) (msg : Int)
  | notifyI (qp : Nat)
  | qResetI (qp : Nat)
  | vtSetI (vtp : Nat) (time : UInt32)
  | vtResetI (vtp : Nat)
  deriving DecidableEq, Repr

inductive Label (n : Nat) where
  | call (c : Call n)
  | resume
  /-- The running thread locks the kernel for `ops`, and reschedules before it unlocks it or not. -/
  | locked (ops : List (IOp n)) (resched : Bool)
  | isr (op : IOp n)
  | tick
  | expire
  | epilogue
  deriving DecidableEq, Repr

namespace Kern

def call (k : Kern n) : Call n → Option (Kern n)
  | .semWait sp => k.chSemWait sp
  | .semWaitTimeout sp time => k.chSemWaitTimeout sp time
  | .semSignal sp => k.chSemSignal sp
  | .semReset sp c => k.chSemReset sp c
  | .semSignalWait sps spw => k.chSemSignalWait sps spw
  | .mtxLock mp => k.chMtxLock mp
  | .mtxTryLock mp => k.chMtxTryLock mp
  | .mtxUnlock => k.chMtxUnlock
  | .mtxUnlockAll => k.chMtxUnlockAll
  | .msgSend tp msg => k.chMsgSend tp msg
  | .msgWait => k.chMsgWait
  | .msgRelease tp msg => k.chMsgRelease tp msg
  | .evtWait mode mask => k.chEvtWait mode mask
  | .evtWaitTimeout mode mask time => k.chEvtWaitTimeout mode mask time
  | .evtGetAndClear mask => k.chEvtGetAndClearEvents mask
  | .evtAdd mask => k.chEvtAddEvents mask
  | .evtSignal tp mask => k.chEvtSignal tp mask
  | .create tp prio => k.chThdCreateStatic tp prio
  | .sleep time => k.chThdSleep time
  | .yield => k.chThdYield
  | .suspend => k.suspend
  | .qwait qp time => k.qwait qp time

def iop (k : Kern n) : IOp n → Option (Kern n)
  | .semSignalI sp => k.chSemSignalI sp
  | .semResetI sp c => k.chSemResetI sp c
  | .evtSignalI tp mask => some (k.chEvtSignalI tp mask)
  | .resumeI tp msg => some (k.resumeI tp msg)
  | .notifyI qp => some (k.wakeFirstI qp RDY_OK)
  | .qResetI qp => some (k.qResetI qp)
  | .vtSetI vtp time => some { k with vtlist := k.vtlist.chVTSetI (.user vtp) time }
  | .vtResetI vtp => some { k with vtlist := k.vtlist.chVTResetI (.user vtp) }

def iops (k : Kern n) : List (IOp n) → Option (Kern n)
  | [] => some k
  | op :: ops => (k.iop op).bind fun k => k.iops ops

def step (k : Kern n) : Label n → Option (Kern n)
  | .call c => k.call c
  | .resume => k.resume
  | .locked ops resched => (k.iops ops).bind fun k => if resched then k.chSchRescheduleS else some k
  | .isr op => (k.iop op).map fun k => { k with inIsr := true }
  | .tick => some { k.chSysTimerHandlerI with inIsr := true }
  | .expire => k.expire
  | .epilogue => k.irqEpilogue

/-! ## What the source asks of its callers -/

/-- The running thread has left the kernel. -/
def Unlocked (k : Kern n) : Prop := k.cont k.currp = none

def CallOk (k : Kern n) : Call n → Prop
  | .mtxUnlock => k.mtxlist k.currp ≠ []
  | .msgSend tp _ => k.state tp ≠ .final
  | .msgRelease tp _ => k.state tp = .sndmsg
  | .create tp prio => k.state tp = .final ∧ 0 < prio ∧ prio ≤ HIGHPRIO
  | .sleep time => time ≠ TIME_IMMEDIATE
  | _ => True

def IOpOk (k : Kern n) : IOp n → Prop
  | .resumeI tp _ => k.state tp = .suspended
  | .vtSetI vtp time => .user vtp ∉ DeltaList.keys k.vtlist ∧ time ≠ TIME_IMMEDIATE
  | .vtResetI vtp => .user vtp ∈ DeltaList.keys k.vtlist
  | _ => True

def IOpsOk (k : Kern n) : List (IOp n) → Prop
  | [] => True
  | op :: ops => k.IOpOk op ∧ ∀ k' ∈ k.iop op, k'.IOpsOk ops

/-- What can come next. The idle thread calls no function of the kernel; while a thread is in a
kernel function no interrupt is served; the handler of the tick ends when no timer is left that has
expired. -/
def Allowed (idle : Fin n) (k : Kern n) : Label n → Prop
  | .call c => k.Unlocked ∧ k.inIsr = false ∧ k.currp ≠ idle ∧ k.CallOk c
  | .resume => ¬ k.Unlocked
  | .locked ops _ => k.Unlocked ∧ k.inIsr = false ∧ k.currp ≠ idle ∧ k.IOpsOk ops
  | .isr op => k.Unlocked ∧ k.IOpOk op
  | .tick => k.Unlocked ∧ k.vtlist.expired = none
  | .expire => k.Unlocked ∧ k.vtlist.expired.isSome
  | .epilogue => k.Unlocked ∧ k.vtlist.expired = none

instance (k : Kern n) (c : Call n) : Decidable (k.CallOk c) := by
  cases c <;> unfold CallOk <;> infer_instance

instance (k : Kern n) (op : IOp n) : Decidable (k.IOpOk op) := by
  cases op <;> unfold IOpOk <;> infer_instance

instance decidableIOpsOk : (k : Kern n) → (ops : List (IOp n)) → Decidable (k.IOpsOk ops)
  | _, [] => isTrue trivial
  | k, op :: ops =>
    have := fun k' : Kern n => decidableIOpsOk k' ops
    inferInstanceAs (Decidable (k.IOpOk op ∧ ∀ k' ∈ k.iop op, k'.IOpsOk ops))

instance (idle : Fin n) (k : Kern n) (a : Label n) : Decidable (k.Allowed idle a) := by
  cases a <;> unfold Allowed Unlocked <;> infer_instance

end Kern

end RobotPws.Kernel
