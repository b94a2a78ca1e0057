import RobotPws.Kernel.Mutexes
import RobotPws.Kernel.Waits

/-!
# The invariant of the kernel

`Inv` puts together where the threads are, the order of the queues, the semaphores, the mutexes and
the waits. Every service keeps it (`Sound`), and with it finds a thread wherever it takes one out of
a queue.
-/

namespace RobotPws.Kernel

open RobotPws.Lib Function

variable {n : Nat}

/-- The states a thread is woken up from, one that waits for a message apart. -/
def TState.Asleep : TState n → Prop
  | .ready | .current | .wtmsg | .final => False
  | _ => True

theorem TState.Asleep.ne {st : TState n} (h : st.Asleep) :
    ¬ st.Runnable ∧ st ≠ .wtmsg ∧ st ≠ .final := by
  refine ⟨?_, ?_, ?_⟩
  · rintro (rfl | rfl) <;> exact h
  · rintro rfl; exact h
  · rintro rfl; exact h

namespace Kern

/-- As many threads wait at a semaphore as its counter is below zero. -/
def SemOk (k : Kern n) : Prop := ∀ sp, (k.queue (.sem sp)).length = (- k.cnt sp).toNat

structure Inv (idle : Fin n) (out but : Option (Fin n)) (k : Kern n) : Prop where
  placed : Placed out k
  sorted : Sorted k
  sems : SemOk k
  mtxs : Mutexes out but k
  waits : Waits out k
  /-- The idle thread never waits. -/
  idle : (k.state idle).Runnable
  early : k.inIsr = false → DeltaList.Early k.vtlist
  isr : k.inIsr = true → k.Unlocked

/-- The fields the invariant does not depend on, left out. -/
def bare (k : Kern n) : Kern n :=
  { k with preempt := fun _ => 0, rdymsg := fun _ => 0, msg := fun _ => 0, ret := fun _ => .void }

variable {idle : Fin n} {k k' k₀ : Kern n} {out but : Option (Fin n)} {t : Fin n} {st : TState n}
  {c : Option Cont} {sp : Nat} {l : List (Fin n)} {q : QId n}

theorem SemOk.sched {S : Set (Fin n)} (h : SemOk k) (hs : Sched S k k') : SemOk k' := fun sp => by
  rw [hs.queue _ (by simp), hs.still.cnt]
  exact h sp

theorem SemOk.congr (h : SemOk k) (hq : ∀ sp, k'.queue (.sem sp) = k.queue (.sem sp))
    (hc : k'.cnt = k.cnt) : SemOk k' := fun sp => by
  rw [hq, hc]
  exact h sp

theorem SemOk.set (h : SemOk k) {d : Int} (hl : l.length = (- d).toNat) :
    SemOk ((k.setCnt sp d).setQueue (.sem sp) l) := fun sp' => by
  show (update k.queue (.sem sp) l (.sem sp')).length = (- update k.cnt sp d sp').toNat
  by_cases hs : sp' = sp
  · rw [hs, update_self, update_self]
    exact hl
  · rw [update_of_ne hs, update_of_ne (by simpa using hs)]
    exact h sp'

/-- The running thread has been linked into the queue of the state it is about to sleep in. -/
structure Enqueued (st : TState n) (k₀ k : Kern n) : Prop where
  located : Located (update k.places k.currp st.queue) k
  sorted : Sorted k
  sems : SemOk k
  state : k.state = k₀.state
  currp : k.currp = k₀.currp
  prio : k.prio = k₀.prio
  realprio : k.realprio = k₀.realprio
  owner : k.owner = k₀.owner
  mtxlist : k.mtxlist = k₀.mtxlist
  epending : k.epending = k₀.epending
  inIsr : k.inIsr = k₀.inIsr
  msgs : ∀ u, k.queue (.msg u) = k₀.queue (.msg u)

/-- What the running thread may sleep for. -/
structure SleepOk (k₀ : Kern n) (st : TState n) (c : Option Cont) : Prop where
  runnable : ¬ st.Runnable
  final : st ≠ .final
  wtmtx : ∀ mp, st ≠ .wtmtx mp
  orevt : ∀ m, st = .wtorevt m → k₀.epending k₀.currp &&& m = 0
  andevt : ∀ m, st = .wtandevt m → k₀.epending k₀.currp &&& m ≠ m
  wtmsg : st = .wtmsg → k₀.queue (.msg k₀.currp) = [] ∧ c = some ⟨.take, false⟩
  take : ∀ timed, c = some ⟨.take, timed⟩ → st = .wtmsg
  rests : st.Rests c

namespace Inv

theorem note (h : Inv idle out but k) (he : k'.bare = k.bare) : Inv idle out but k' := by
  have hf : ∀ {γ : Type} (g : Kern n → γ), (∀ k, g (bare k) = g k) → g k' = g k :=
    fun g hg => by rw [← hg k', he, hg]
  have hq := hf Kern.queue fun _ => rfl
  have hs := hf Kern.state fun _ => rfl
  have hc := hf Kern.currp fun _ => rfl
  have hp := hf Kern.prio fun _ => rfl
  have hv := hf Kern.vtlist fun _ => rfl
  have hcont := hf Kern.cont fun _ => rfl
  have hi := hf Kern.inIsr fun _ => rfl
  exact ⟨h.placed.congr hq hs hc, h.sorted.congr hq hp,
    h.sems.congr (fun _ => by rw [hq]) (hf Kern.cnt fun _ => rfl),
    h.mtxs.still (hf Kern.owner fun _ => rfl) (hf Kern.mtxlist fun _ => rfl)
      (hf Kern.realprio fun _ => rfl) hp hs,
    h.waits.congr hv hcont hs (hf Kern.epending fun _ => rfl) (fun _ => by rw [hq]),
    by rw [hs]; exact h.idle, by rw [hi, hv]; exact h.early,
    by rw [hi, Unlocked, hcont, hc]; exact h.isr⟩

theorem setRet (h : Inv idle out but k) (r : Ret n) : Inv idle out but (k.setRet r) := h.note rfl

theorem pick_isSome (hm : t ∈ k.queue .ready) : ∃ k', k.pick = some k' := by
  cases hq : k.queue .ready with
  | nil => rw [hq] at hm; cases hm
  | cons x l => exact ⟨_, pick_eq_some.2 ⟨x, l, hq, rfl⟩⟩

theorem switch (h : Inv idle none but k) (hs : Sched ∅ k k') (hP : Placed none k')
    (hS : Sorted k') (hU : k.Unlocked) (hi : k'.inIsr = false) (he : DeltaList.Early k.vtlist) :
    Inv idle none but k' where
  placed := hP
  sorted := hS
  sems := h.sems.sched hs
  mtxs := h.mtxs.switch hs
  waits := h.waits.switch hs h.placed.currp hU
  idle := (hs.runnable_iff (by simp)).2 h.idle
  early := fun _ => by rw [hs.still.vtlist]; exact he
  isr := fun hi' => by rw [hi] at hi'; cases hi'

/-- A thread in hand that does not wait for a message takes none when it goes on. -/
theorem take_of_asleep (h : Inv idle out but k) (ha : (k.state t).Asleep) :
    ∀ timed, k.cont t = some ⟨.take, timed⟩ → k.queue (.msg t) ≠ [] := by
  intro b hc
  rcases h.waits.takes t b hc with h1 | h1
  · exact (ha.ne.1 h1).elim
  · exact (ha.ne.2.1 h1).elim

theorem ready (h : Inv idle (some t) but k) (hs : Sched {t} k k') (hr : (k'.state t).Runnable)
    (hP : Placed none k') (hS : Sorted k') (hf : k.state t ≠ .final)
    (htake : ∀ timed, k.cont t = some ⟨.take, timed⟩ → k.queue (.msg t) ≠ [])
    (hi : k'.inIsr = k.inIsr) (hc : k.inIsr = true → k'.currp = k.currp) :
    Inv idle none but k' where
  placed := hP
  sorted := hS
  sems := h.sems.sched hs
  mtxs := h.mtxs.ready hs hr hf
  waits := h.waits.ready hs hr htake
  idle := by
    by_cases ht : idle = t
    · rw [ht]; exact hr
    · exact (hs.runnable_iff ht).2 h.idle
  early := fun hi' => by rw [hs.still.vtlist]; exact h.early (hi ▸ hi')
  isr := fun hi' => by
    rw [hi] at hi'
    rw [Unlocked, hs.still.cont, hc hi']
    exact h.isr hi'

theorem chSchReadyI (h : Inv idle (some t) but k) (ha : (k.state t).Asleep) :
    Inv idle none but (k.chSchReadyI t) := by
  have hne : t ≠ k.currp := h.placed.ne_currp fun he => ha.ne.1 (.inr he)
  exact h.ready (Sched.chSchReadyI k t) (.inl (update_self ..)) (h.placed.chSchReadyI hne)
    (h.sorted.chSchReadyI t) ha.ne.2.2 (h.take_of_asleep ha) rfl fun _ => rfl

theorem resumeI (h : Inv idle (some t) but k) (ha : (k.state t).Asleep) (msg : Int) :
    Inv idle none but (k.resumeI t msg) :=
  (h.note rfl : Inv idle (some t) but (k.setRdymsg t msg)).chSchReadyI ha

theorem readyMsgI (h : Inv idle (some t) but k) (ha : (k.state t).Asleep) (msg : Int) :
    Inv idle none but (k.readyMsgI t msg) :=
  (h.chSchReadyI ha).note rfl

theorem chSchWakeupS (h : Inv idle (some t) but k) (ha : (k.state t).Asleep)
    (hi : k.inIsr = false) (msg : Int) :
    Inv idle none but (k.chSchWakeupS t msg) := by
  have hne : t ≠ k.currp := h.placed.ne_currp fun he => ha.ne.1 (.inr he)
  obtain ⟨hs, hrun⟩ := Sched.chSchWakeupS h.placed.currp t msg
  refine h.ready hs hrun (h.placed.chSchWakeupS hne msg) (h.sorted.chSchWakeupS t msg) ha.ne.2.2
    (h.take_of_asleep ha) ?_ fun hi' => by rw [hi] at hi'; cases hi'
  unfold Kern.chSchWakeupS
  split <;> rfl

theorem chSchRescheduleS (h : Inv idle none but k) (hU : k.Unlocked) (hi : k.inIsr = false) :
    ∃ k', k.chSchRescheduleS = some k' ∧ Inv idle none but k' ∧ k'.Top := by
  have hsome : ∃ k', k.chSchRescheduleS = some k' := by
    unfold Kern.chSchRescheduleS
    split
    · next hf =>
      have hne : k.queue .ready ≠ [] := fun he => by
        rw [firstprio, he] at hf
        exact Nat.not_lt_zero _ hf
      obtain ⟨x, hx⟩ := List.exists_mem_of_ne_nil _ hne
      obtain ⟨k₁, h1⟩ := pick_isSome hx
      exact ⟨_, by rw [Kern.chSchDoRescheduleAhead, h1]; rfl⟩
    · exact ⟨k, rfl⟩
  obtain ⟨k', he⟩ := hsome
  obtain ⟨hS, hT⟩ := h.sorted.chSchRescheduleS he
  have hs := Sched.chSchRescheduleS h.placed he
  have hin : k'.inIsr = k.inIsr := by
    unfold Kern.chSchRescheduleS at he
    split at he
    · obtain ⟨k₁, h1, rfl⟩ := Option.map_eq_some_iff.1 he
      obtain ⟨x, l, -, rfl⟩ := pick_eq_some.1 h1
      rfl
    · cases he; rfl
  exact ⟨k', he, h.switch hs (h.placed.chSchRescheduleS he) hS hU (hin.trans hi) (h.early hi), hT⟩

variable (idle st) in
/-- The running thread, linked into the queue of the state it goes to sleep in, is switched from. -/
theorem switchFrom (hl : Located (update k.places k.currp st.queue) k)
    (hcur : ∀ u, k.state u = .current ↔ u = k.currp) (hS : Sorted k) (hnr : ¬ st.Runnable)
    (hidle : (k.state idle).Runnable) (hne : k.currp ≠ idle) :
    ∃ k', k.chSchGoSleepS st = some k' ∧ Sched {k.currp} k k' ∧ k'.state k.currp = st ∧
      Placed none k' ∧ Sorted k' ∧ k'.Top ∧ k'.inIsr = k.inIsr ∧ (k'.state idle).Runnable := by
  have hready : ∀ u ∈ k.queue .ready, k.state u = .ready ∧ u ≠ k.currp := fun u hu => by
    have hu' := (hl.mem _ u).1 hu
    have huc : u ≠ k.currp := by
      rintro rfl
      rw [update_self] at hu'
      revert hnr hu'
      cases st <;> simp [TState.queue, TState.Runnable]
    rw [update_of_ne huc] at hu'
    refine ⟨?_, huc⟩
    revert hu'
    unfold places
    cases k.state u <;> simp [TState.queue]
  have hm : idle ∈ k.queue .ready := by
    rw [hl.mem, update_of_ne hne.symm]
    rcases hidle with hs | hs
    · show (k.state idle).queue = _
      rw [hs]; rfl
    · exact (hne ((hcur idle).1 hs).symm).elim
  obtain ⟨k', he⟩ := pick_isSome (k := (k.setState k.currp st).setPreempt k.currp CH_TIME_QUANTUM)
    hm
  have he' : k.chSchGoSleepS st = some k' := he
  obtain ⟨hs, hst⟩ := Sched.chSchGoSleepS hready he'
  obtain ⟨hS', hT⟩ := hS.chSchGoSleepS he'
  refine ⟨k', he', hs, hst, Placed.chSchGoSleepS hl hcur (fun hc => hnr (.inr hc)) he', hS', hT, ?_,
    (hs.runnable_iff (by simpa using hne.symm)).2 hidle⟩
  obtain ⟨x, l, -, rfl⟩ := pick_eq_some.1 he
  rfl

/-- The running thread goes to sleep, but not for a mutex, with `c` before it. -/
theorem goSleep (h : Inv idle none none k₀) (hU : k₀.Unlocked) (hi : k₀.inIsr = false)
    (hne : k₀.currp ≠ idle) (hk : Enqueued st k₀ k) (hok : SleepOk k₀ st c)
    (hcont : k.cont = update k₀.cont k₀.currp c)
    (hvt : k.vtlist = k₀.vtlist ∧ (∀ rest, c ≠ some ⟨rest, true⟩) ∨
      ∃ time rest, time ≠ 0 ∧ k.vtlist = k₀.vtlist.chVTSetI (.thread k₀.currp) time ∧
        c = some ⟨rest, true⟩ ∧ st.Limited) :
    ∃ k', k.chSchGoSleepS st = some k' ∧ Inv idle none none k' ∧ k'.Top := by
  obtain ⟨hl, hS, hsem, hstate, hcurrp, hprio, hreal, hown, hlist, hep, hin, hq⟩ := hk
  obtain ⟨hnr, hnf, hnm, hor, hand, hmsg, htake, hrests⟩ := hok
  have hcur : ∀ u, k.state u = .current ↔ u = k.currp := by
    rw [hstate, hcurrp]; exact h.placed.current
  obtain ⟨k', he, hs, hst, hP', hS', hT, hin', hidle'⟩ := switchFrom idle st hl hcur hS hnr
    (by rw [hstate]; exact h.idle) (by rw [hcurrp]; exact hne)
  have hM : Mutexes none none k := h.mtxs.still hown hlist hreal hprio hstate
  have hE := h.early hi
  have hi' : k'.inIsr = false := (hin'.trans hin).trans hi
  refine ⟨k', he, ⟨hP', hS', hsem.sched hs, ?_, ?_, hidle', fun _ => ?_,
    fun hi'' => by rw [hi'] at hi''; cases hi''⟩, hT⟩
  · exact hM.sleep hs ((hcur _).2 rfl) (fun mp => by rw [hst]; exact hnm mp)
      (by rw [hst]; exact hnf)
  · rw [hcurrp] at hs hst
    refine h.waits.sleep hU hs hst hstate hcont ?_ hep hq hnr hnf hor hand hmsg htake
      hrests
    rcases hvt with hv | ⟨time, rest, -, hv⟩
    · exact .inl hv
    · exact .inr ⟨time, rest, hv⟩
  · rw [hs.still.vtlist]
    rcases hvt with ⟨hv, -⟩ | ⟨time, rest, htime, hv, -⟩
    · rw [hv]; exact hE
    · rw [hv]
      refine hE.insert ?_
      rw [Nat.pos_iff_ne_zero]
      exact fun h0 => htime (UInt32.toNat_inj.1 h0)

end Inv

end Kern

end RobotPws.Kernel
