import RobotPws.Kernel.Machine

/-!
# What a step touches

`Label.objects` names the objects a step is about. `Touch` says that all others stay as they are: the
semaphores, the timers of the threads, the events pending, the messages sent; and that the threads
not named stay as well, one that is asleep in its state, one that is not with the message it has been
woken up with.
-/

namespace RobotPws.Kernel

open RobotPws.Lib Function

variable {n : Nat}

inductive Obj (n : Nat) where
  | thread (t : Fin n)
  | sem (sp : Nat)
  | mtx (mp : Nat)
  | io (qp : Nat)
  | inbox (t : Fin n)
  | events (t : Fin n)
  /-- What a thread is waiting for in a driver. -/
  | driver (t : Fin n)
  /-- The answer to the message of a thread. -/
  | answer (t : Fin n)
  /-- The timer on the stack of a thread. -/
  | timer (t : Fin n)
  | clock
  deriving DecidableEq, Repr

/-- What a thread in this state waits for. -/
def TState.object (t : Fin n) : TState n → Option (Obj n)
  | .ready | .current => none
  | .suspended => some (.driver t)
  | .wtsem sp => some (.sem sp)
  | .wtmtx mp => some (.mtx mp)
  | .sleeping => some (.timer t)
  | .wtorevt _ | .wtandevt _ => some (.events t)
  | .sndmsgq u => some (.inbox u)
  | .sndmsg => some (.answer t)
  | .wtmsg => some (.inbox t)
  | .wtqueue qp => some (.io qp)
  | .final => some (.thread t)

theorem TState.object_eq_none {t : Fin n} {st : TState n} : st.object t = none ↔ st.Runnable := by
  cases st <;> simp [TState.object, TState.Runnable]

/-- What the threads in the queue wait for. -/
def QId.object : QId n → Option (Obj n)
  | .ready => none
  | .sem sp => some (.sem sp)
  | .mtx mp => some (.mtx mp)
  | .io qp => some (.io qp)
  | .msg t => some (.inbox t)

def Call.objects (k : Kern n) : Call n → List (Obj n)
  | .semWait sp | .semSignal sp | .semReset sp _ => [.sem sp]
  | .semWaitTimeout sp _ => [.sem sp, .timer k.currp]
  | .semSignalWait sps spw => [.sem sps, .sem spw]
  | .mtxLock _ | .mtxTryLock _ | .yield | .suspend => []
  | .mtxUnlock => ((k.mtxlist k.currp).take 1).map .mtx
  | .mtxUnlockAll => (k.mtxlist k.currp).map .mtx
  | .msgSend tp _ => [.inbox tp]
  | .msgWait => [.inbox k.currp]
  | .msgRelease tp _ => [.answer tp]
  | .evtWait _ _ | .evtGetAndClear _ | .evtAdd _ => [.events k.currp]
  | .evtWaitTimeout _ _ _ => [.events k.currp, .timer k.currp]
  | .evtSignal tp _ => [.events tp]
  | .create tp _ => [.thread tp, .events tp, .inbox tp, .driver tp]
  | .sleep _ => [.timer k.currp]
  | .qwait qp _ => [.io qp, .timer k.currp]

def IOp.objects : IOp n → List (Obj n)
  | .semSignalI sp | .semResetI sp _ => [.sem sp]
  | .evtSignalI tp _ => [.events tp]
  | .resumeI tp _ => [.driver tp]
  | .notifyI qp | .qResetI qp => [.io qp]
  | .vtSetI _ _ | .vtResetI _ => []

def Label.objects (k : Kern n) : Label n → List (Obj n)
  | .call c => .thread k.currp :: c.objects k
  | .resume => [.thread k.currp, .timer k.currp, .events k.currp, .inbox k.currp]
  | .locked ops _ => ops.flatMap IOp.objects
  | .isr op => op.objects
  | .tick => [.clock]
  | .expire => match k.vtlist.expired with
    | some (.thread tp, _) => .timer tp :: ((k.state tp).object tp).toList
    | _ => []
  | .epilogue => []

namespace Kern

/-- The time left to the timer of a thread. -/
def timeLeft (k : Kern n) (t : Fin n) : Option Nat := DeltaList.timeLeft k.vtlist (.thread t)

/-- All but the objects `o` stays. -/
structure Touch (o : List (Obj n)) (k k' : Kern n) : Prop where
  sem : ∀ sp, .sem sp ∉ o → k'.queue (.sem sp) = k.queue (.sem sp) ∧ k'.cnt sp = k.cnt sp
  inbox : ∀ t, .inbox t ∉ o → k'.queue (.msg t) = k.queue (.msg t)
  timer : .clock ∉ o → ∀ t, .timer t ∉ o → k'.timeLeft t = k.timeLeft t
  events : ∀ t, .events t ∉ o → k'.epending t = k.epending t
  cont : ∀ t, .thread t ∉ o → k'.cont t = k.cont t
  ret : ∀ t, .thread t ∉ o → k'.ret t = k.ret t
  runnable : ∀ t, .thread t ∉ o → (k.state t).Runnable →
    (k'.state t).Runnable ∧ k'.rdymsg t = k.rdymsg t
  asleep : ∀ t x, (k.state t).object t = some x → x ∉ o → .timer t ∉ o → k'.state t = k.state t

variable {idle : Fin n} {k k' k'' k₁ : Kern n} {t u : Fin n} {st : TState n} {q : QId n}
  {o o' : List (Obj n)} {x : Obj n} {sp : Nat} {time : UInt32} {rest : Rest}

namespace Touch

theorem refl (o : List (Obj n)) (k : Kern n) : Touch o k k :=
  ⟨fun _ _ => ⟨rfl, rfl⟩, fun _ _ => rfl, fun _ _ _ => rfl, fun _ _ => rfl, fun _ _ => rfl,
    fun _ _ => rfl, fun _ _ h => ⟨h, rfl⟩, fun _ _ _ _ _ => rfl⟩

theorem trans (h : Touch o k k') (h' : Touch o k' k'') : Touch o k k'' where
  sem := fun sp hs =>
    ⟨(h'.sem sp hs).1.trans (h.sem sp hs).1, (h'.sem sp hs).2.trans (h.sem sp hs).2⟩
  inbox := fun t ht => (h'.inbox t ht).trans (h.inbox t ht)
  timer := fun hc t ht => (h'.timer hc t ht).trans (h.timer hc t ht)
  events := fun t ht => (h'.events t ht).trans (h.events t ht)
  cont := fun t ht => (h'.cont t ht).trans (h.cont t ht)
  ret := fun t ht => (h'.ret t ht).trans (h.ret t ht)
  runnable := fun t ht hr => by
    obtain ⟨h1, h2⟩ := h.runnable t ht hr
    obtain ⟨h3, h4⟩ := h'.runnable t ht h1
    exact ⟨h3, h4.trans h2⟩
  asleep := fun t x hs hx ht => by
    have h1 := h.asleep t x hs hx ht
    rw [h'.asleep t x (by rw [h1]; exact hs) hx ht, h1]

theorem mono (h : Touch o k k') (ho : o ⊆ o') : Touch o' k k' :=
  ⟨fun sp hs => h.sem sp fun hm => hs (ho hm), fun t ht => h.inbox t fun hm => ht (ho hm),
    fun hc t ht => h.timer (fun hm => hc (ho hm)) t fun hm => ht (ho hm),
    fun t ht => h.events t fun hm => ht (ho hm), fun t ht => h.cont t fun hm => ht (ho hm),
    fun t ht => h.ret t fun hm => ht (ho hm), fun t ht => h.runnable t fun hm => ht (ho hm),
    fun t x hs hx ht => h.asleep t x hs (fun hm => hx (ho hm)) fun hm => ht (ho hm)⟩

theorem same (hq : k'.queue = k.queue) (hc : k'.cnt = k.cnt) (hv : k'.vtlist = k.vtlist)
    (he : k'.epending = k.epending) (hcont : k'.cont = k.cont) (hret : k'.ret = k.ret)
    (hs : k'.state = k.state) (hm : k'.rdymsg = k.rdymsg) : Touch o k k' where
  sem := fun sp _ => by rw [hq, hc]; exact ⟨rfl, rfl⟩
  inbox := fun t _ => by rw [hq]
  timer := fun _ t _ => by rw [timeLeft, hv]; rfl
  events := fun t _ => by rw [he]
  cont := fun t _ => by rw [hcont]
  ret := fun t _ => by rw [hret]
  runnable := fun t _ hr => by rw [hs, hm]; exact ⟨hr, rfl⟩
  asleep := fun t _ _ _ _ => by rw [hs]

theorem setPrio (t : Fin n) (p : Nat) : Touch o k (k.setPrio t p) :=
  .same rfl rfl rfl rfl rfl rfl rfl rfl

theorem setMtxlist (t : Fin n) (l : List Nat) : Touch o k (k.setMtxlist t l) :=
  .same rfl rfl rfl rfl rfl rfl rfl rfl

theorem setMsg (t : Fin n) (msg : Int) : Touch o k (k.setMsg t msg) :=
  .same rfl rfl rfl rfl rfl rfl rfl rfl

/-! ## The fields -/

theorem setRet (r : Ret n) (h : .thread k.currp ∈ o) : Touch o k (k.setRet r) :=
  { refl o k with
    ret := fun _ ht => update_of_ne (by rintro rfl; exact ht h) ..
    runnable := fun _ _ hr => ⟨hr, rfl⟩ }

theorem setCont (c : Option Cont) (h : .thread t ∈ o) : Touch o k (k.setCont t c) :=
  { refl o k with
    cont := fun _ hu => update_of_ne (by rintro rfl; exact hu h) ..
    runnable := fun _ _ hr => ⟨hr, rfl⟩ }

theorem setCnt (d : Int) (h : .sem sp ∈ o) : Touch o k (k.setCnt sp d) :=
  { refl o k with
    sem := fun _ hs => ⟨rfl, update_of_ne (by rintro rfl; exact hs h) ..⟩
    runnable := fun _ _ hr => ⟨hr, rfl⟩ }

theorem setEpending (m : EventMask) (h : .events t ∈ o) : Touch o k (k.setEpending t m) :=
  { refl o k with
    events := fun _ hu => update_of_ne (by rintro rfl; exact hu h) ..
    runnable := fun _ _ hr => ⟨hr, rfl⟩ }

theorem setQueue (l : List (Fin n)) (hs : ∀ sp, q = .sem sp → .sem sp ∈ o)
    (ht : ∀ t, q = .msg t → .inbox t ∈ o) : Touch o k (k.setQueue q l) :=
  { refl o k with
    sem := fun sp hn => ⟨queue_setQueue_of_ne (fun he => hn (hs sp he.symm)) .., rfl⟩
    inbox := fun t hn => queue_setQueue_of_ne (fun he => hn (ht t he.symm)) ..
    runnable := fun _ _ hr => ⟨hr, rfl⟩ }

theorem setState (st : TState n) (hx : x ∈ o) (h : (k.state t).object t = some x) :
    Touch o k (k.setState t st) :=
  { refl o k with
    runnable := fun u _ hr => by
      have hu : u ≠ t := by
        rintro rfl
        rw [← TState.object_eq_none (t := u), h] at hr
        cases hr
      show (update k.state t st u).Runnable ∧ _
      rw [update_of_ne hu]
      exact ⟨hr, rfl⟩
    asleep := fun u y hy hn _ => by
      refine update_of_ne ?_ ..
      rintro rfl
      rw [h] at hy
      cases hy
      exact hn hx }

theorem setRdymsg (msg : Int) (h : (k.state t).object t = some x) :
    Touch o k (k.setRdymsg t msg) :=
  { refl o k with
    runnable := fun u _ hr => by
      refine ⟨hr, update_of_ne (fun he => ?_) ..⟩
      rw [he, ← TState.object_eq_none (t := t), h] at hr
      cases hr }

theorem setTimers {l : VTList (Timer n)} (h : .clock ∉ o → ∀ t, .timer t ∉ o →
    DeltaList.timeLeft l (.thread t) = k.timeLeft t) : Touch o k { k with vtlist := l } :=
  { refl o k with
    timer := h
    runnable := fun _ _ hr => ⟨hr, rfl⟩ }

/-! ## The scheduler -/

/-- Threads have been switched; the one in `S` is woken up or goes to sleep. -/
theorem sched {S : Set (Fin n)} (hs : Sched S k k') (hret : k'.ret = k.ret)
    (hm : ∀ u, u ∉ S → k'.rdymsg u = k.rdymsg u)
    (hS : ∀ u ∈ S, .thread u ∈ o ∧ (k.state u).object u = none ∨
      ∃ x ∈ o, (k.state u).object u = some x) : Touch o k k' where
  sem := fun sp _ => ⟨hs.queue _ (by simp), by rw [hs.still.cnt]⟩
  inbox := fun t _ => hs.queue _ (by simp)
  timer := fun _ t _ => by rw [timeLeft, hs.still.vtlist]; rfl
  events := fun t _ => by rw [hs.still.epending]
  cont := fun t _ => by rw [hs.still.cont]
  ret := fun t _ => by rw [hret]
  runnable := fun t ht hr => by
    have hn : t ∉ S := fun hu => by
      rcases hS t hu with ⟨ho, -⟩ | ⟨x, -, hx⟩
      · exact ht ho
      · rw [← TState.object_eq_none (t := t), hx] at hr
        cases hr
    exact ⟨(hs.runnable_iff hn).2 hr, hm t hn⟩
  asleep := fun t x hx ho _ => by
    have hn : t ∉ S := fun hu => by
      rcases hS t hu with ⟨-, hn⟩ | ⟨y, hy, hx'⟩
      · rw [hn] at hx
        cases hx
      · rw [hx] at hx'
        cases hx'
        exact ho hy
    refine (hs.state_iff hn fun hr => ?_).2 rfl
    rw [← TState.object_eq_none (t := t), hx] at hr
    cases hr

theorem chSchReadyI (t : Fin n) (hx : x ∈ o) (ht : (k.state t).object t = some x) :
    Touch o k (k.chSchReadyI t) :=
  sched (Sched.chSchReadyI k t) rfl (fun _ _ => rfl) fun u hu => by
    rw [Set.mem_singleton_iff.1 hu]
    exact .inr ⟨x, hx, ht⟩

theorem readyMsgI (msg : Int) (hx : x ∈ o) (ht : (k.state t).object t = some x) :
    Touch o k (k.readyMsgI t msg) :=
  sched (Sched.readyMsgI k t msg) rfl (fun _ hu => update_of_ne hu ..) fun u hu => by
    rw [Set.mem_singleton_iff.1 hu]
    exact .inr ⟨x, hx, ht⟩

theorem resumeI (msg : Int) (hx : x ∈ o) (ht : (k.state t).object t = some x) :
    Touch o k (k.resumeI t msg) :=
  sched (Sched.resumeI k t msg) rfl (fun _ hu => update_of_ne hu ..) fun u hu => by
    rw [Set.mem_singleton_iff.1 hu]
    exact .inr ⟨x, hx, ht⟩

theorem chSchWakeupS (msg : Int) (hc : k.state k.currp = .current) (hx : x ∈ o)
    (ht : (k.state t).object t = some x) : Touch o k (k.chSchWakeupS t msg) := by
  refine sched (Sched.chSchWakeupS hc t msg).1 ?_ (fun u hu => ?_) fun u hu => by
    rw [Set.mem_singleton_iff.1 hu]
    exact .inr ⟨x, hx, ht⟩
  · unfold Kern.chSchWakeupS
    split <;> rfl
  · unfold Kern.chSchWakeupS
    split <;> exact update_of_ne hu ..

theorem pick_fields (e : k.pick = some k') : k'.ret = k.ret ∧ k'.rdymsg = k.rdymsg := by
  obtain ⟨y, l, -, rfl⟩ := pick_eq_some.1 e
  exact ⟨rfl, rfl⟩

theorem chSchGoSleepS (ho : .thread k.currp ∈ o) (hc : k.state k.currp = .current)
    (hr : ∀ u ∈ k.queue .ready, k.state u = .ready ∧ u ≠ k.currp)
    (e : k.chSchGoSleepS st = some k') : Touch o k k' := by
  obtain ⟨h1, h2⟩ := pick_fields e
  exact sched (Sched.chSchGoSleepS hr e).1 h1 (fun u _ => by rw [h2]; rfl) fun u hu => by
    rw [Set.mem_singleton_iff.1 hu]
    exact .inl ⟨ho, by rw [hc]; rfl⟩

theorem chSchDoRescheduleBehind (hP : Placed none k) (e : k.chSchDoRescheduleBehind = some k') :
    Touch o k k' := by
  have hs := Sched.chSchDoRescheduleBehind hP e
  obtain ⟨k₁, h1, rfl⟩ := Option.map_eq_some_iff.1 e
  obtain ⟨h2, h3⟩ := pick_fields h1
  exact sched hs h2 (fun u _ => congrFun h3 u) fun u hu => hu.elim

theorem chSchDoRescheduleAhead (hP : Placed none k) (e : k.chSchDoRescheduleAhead = some k') :
    Touch o k k' := by
  have hs := Sched.chSchDoRescheduleAhead hP e
  obtain ⟨k₁, h1, rfl⟩ := Option.map_eq_some_iff.1 e
  obtain ⟨h2, h3⟩ := pick_fields h1
  exact sched hs h2 (fun u _ => congrFun h3 u) fun u hu => hu.elim

theorem chSchRescheduleS (e : k.chSchRescheduleS = some k') (hP : Placed none k) :
    Touch o k k' := by
  unfold Kern.chSchRescheduleS at e
  split at e
  · exact chSchDoRescheduleAhead hP e
  · cases e
    exact refl o k

theorem chSchDoYieldS (hP : Placed none k) (e : k.chSchDoYieldS = some k') : Touch o k k' := by
  unfold Kern.chSchDoYieldS at e
  split at e
  · exact chSchDoRescheduleBehind hP e
  · cases e
    exact refl o k

theorem irqEpilogue (hP : Placed none k) (e : k.irqEpilogue = some k') : Touch o k k' := by
  obtain ⟨k₁, h1, rfl⟩ := Option.map_eq_some_iff.1 e
  refine (?_ : Touch o k k₁).trans (same rfl rfl rfl rfl rfl rfl rfl rfl)
  split at h1
  · unfold chSchDoReschedule at h1
    split at h1
    · exact chSchDoRescheduleBehind hP h1
    · exact chSchDoRescheduleAhead hP h1
  · cases h1
    exact refl o k

end Touch

end Kern

end RobotPws.Kernel
