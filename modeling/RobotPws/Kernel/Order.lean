import RobotPws.Kernel.Placement

/-!
# The order of the queues

The ready list and the queue of each mutex are in falling order of priority (`Sorted`). `Top` says
that no thread that is ready has a greater priority than the running one: a function that switches
threads brings it about, whatever was the case before, and `chSchWakeupS` keeps it.
-/

namespace RobotPws.Kernel

open RobotPws.Lib Function

variable {n : Nat}

namespace Kern

structure Sorted (k : Kern n) : Prop where
  ready : Falling k.prio (k.queue .ready)
  mtx : ∀ mp, Falling k.prio (k.queue (.mtx mp))

/-- The running thread has the greatest priority. -/
def Top (k : Kern n) : Prop := ∀ t ∈ k.queue .ready, k.prio t ≤ k.prio k.currp

variable {k k' : Kern n} {t : Fin n} {q : QId n} {l : List (Fin n)} {st : TState n}

namespace Sorted

theorem congr (h : Sorted k) (hq : k'.queue = k.queue) (hp : k'.prio = k.prio) : Sorted k' :=
  ⟨by rw [hq, hp]; exact h.ready, by rw [hq, hp]; exact h.mtx⟩

theorem setQueue (h : Sorted k)
    (hl : q = .ready ∨ (∃ mp, q = .mtx mp) → Falling k.prio l) : Sorted (k.setQueue q l) := by
  constructor
  · by_cases hq : .ready = q
    · subst hq
      rw [queue_setQueue_self]
      exact hl (.inl rfl)
    · rw [queue_setQueue_of_ne hq]
      exact h.ready
  · intro mp
    by_cases hq : .mtx mp = q
    · subst hq
      rw [queue_setQueue_self]
      exact hl (.inr ⟨mp, rfl⟩)
    · rw [queue_setQueue_of_ne hq]
      exact h.mtx mp

theorem falling (h : Sorted k) (hq : q = .ready ∨ ∃ mp, q = .mtx mp) :
    Falling k.prio (k.queue q) := by
  rcases hq with rfl | ⟨mp, rfl⟩
  · exact h.ready
  · exact h.mtx mp

theorem remove (h : Sorted k) (hl : l.Sublist (k.queue q)) : Sorted (k.setQueue q l) :=
  h.setQueue fun hq => (h.falling hq).sublist hl

theorem prio_insert (h : Sorted k) (t : Fin n) (q : QId n) : Sorted (k.prio_insert t q) :=
  h.setQueue fun hq => (h.falling hq).behind t

theorem queue_insert (h : Sorted k) (t : Fin n) (hr : q ≠ .ready) (hm : ∀ mp, q ≠ .mtx mp) :
    Sorted (k.queue_insert t q) :=
  h.setQueue fun hq => by
    rcases hq with rfl | ⟨mp, rfl⟩
    · exact (hr rfl).elim
    · exact (hm mp rfl).elim

theorem chSchReadyI (h : Sorted k) (t : Fin n) : Sorted (k.chSchReadyI t) :=
  (h.congr rfl rfl : Sorted (k.setState t .ready)).prio_insert t .ready

theorem readyMsgI (h : Sorted k) (t : Fin n) (msg : Int) : Sorted (k.readyMsgI t msg) :=
  (h.chSchReadyI t).congr rfl rfl

theorem dequeue (h : Sorted k) (t : Fin n) : Sorted (k.dequeue t) := by
  unfold Kern.dequeue
  split
  · exact h
  · exact h.remove List.erase_sublist

theorem pick (h : Sorted k) (e : k.pick = some k') : Sorted k' ∧ k'.Top := by
  obtain ⟨x, l, hq, rfl⟩ := pick_eq_some.1 e
  refine ⟨(h.remove (q := .ready) (by rw [hq]; exact List.sublist_cons_self x l)).congr rfl rfl, ?_⟩
  have hr := h.ready
  rw [hq] at hr
  intro t ht
  rw [show ((k.setQueue .ready l).setcurrp x).queue .ready = l from
    queue_setQueue_self .ready l k] at ht
  exact hr.head_max (List.mem_cons_of_mem x ht)

theorem chSchGoSleepS (h : Sorted k) (e : k.chSchGoSleepS st = some k') : Sorted k' ∧ k'.Top :=
  (h.congr rfl rfl : Sorted ((k.setState k.currp st).setPreempt k.currp CH_TIME_QUANTUM)).pick e

/-- Switching to the first thread of the ready list, if that one has no smaller priority. -/
theorem switch {k₁ : Kern n} (h : Sorted k) (e : k.pick = some k₁)
    (hf : k.prio k.currp ≤ k.firstprio) (hm : ∀ u ∈ l, u = k.currp ∨ u ∈ k₁.queue .ready)
    (hl : Falling k.prio l) :
    Sorted ((k₁.setState k.currp .ready).setQueue .ready l) ∧
      ((k₁.setState k.currp .ready).setQueue .ready l).Top := by
  obtain ⟨h1, hT⟩ := h.pick e
  obtain ⟨x, l₀, hq, rfl⟩ := pick_eq_some.1 e
  refine ⟨(h1.setQueue (q := .ready) (l := l) fun _ => hl).congr rfl rfl, fun t ht => ?_⟩
  rw [queue_setQueue_self] at ht
  rcases hm t ht with rfl | ht
  · rw [firstprio, hq] at hf
    exact hf
  · exact hT t ht

theorem chSchDoRescheduleBehind (h : Sorted k) (e : k.chSchDoRescheduleBehind = some k')
    (hf : k.prio k.currp ≤ k.firstprio) : Sorted k' ∧ k'.Top := by
  obtain ⟨k₁, h1, rfl⟩ := Option.map_eq_some_iff.1 e
  obtain ⟨hS, -⟩ := h.pick h1
  have hp : k₁.prio = k.prio := by obtain ⟨x, l, -, rfl⟩ := pick_eq_some.1 h1; rfl
  obtain ⟨hS', hT⟩ := h.switch (l := insertBehind k₁.prio k.currp (k₁.queue .ready)) h1 hf
    (fun u hu => mem_insertBehind.1 hu) (by rw [← hp]; exact hS.ready.behind _)
  exact ⟨hS'.congr rfl rfl, hT⟩

theorem chSchDoRescheduleAhead (h : Sorted k) (e : k.chSchDoRescheduleAhead = some k')
    (hf : k.prio k.currp ≤ k.firstprio) : Sorted k' ∧ k'.Top := by
  obtain ⟨k₁, h1, rfl⟩ := Option.map_eq_some_iff.1 e
  obtain ⟨hS, -⟩ := h.pick h1
  have hp : k₁.prio = k.prio := by obtain ⟨x, l, -, rfl⟩ := pick_eq_some.1 h1; rfl
  exact h.switch (l := insertAhead k₁.prio k.currp (k₁.queue .ready)) h1 hf
    (fun u hu => mem_insertAhead.1 hu) (by rw [← hp]; exact hS.ready.ahead _)

theorem le_firstprio (h : Sorted k) (ht : t ∈ k.queue .ready) : k.prio t ≤ k.firstprio := by
  unfold firstprio
  cases hq : k.queue .ready with
  | nil => rw [hq] at ht; cases ht
  | cons x l =>
    have hr := h.ready
    rw [hq] at hr ht
    exact hr.head_max ht

theorem top (h : Sorted k) (hf : k.firstprio ≤ k.prio k.currp) : k.Top :=
  fun _ ht => Nat.le_trans (h.le_firstprio ht) hf

theorem chSchRescheduleS (h : Sorted k) (e : k.chSchRescheduleS = some k') :
    Sorted k' ∧ k'.Top := by
  unfold Kern.chSchRescheduleS at e
  split at e
  · next hf => exact h.chSchDoRescheduleAhead e (Nat.le_of_lt hf)
  · next hf =>
    cases e
    exact ⟨h, h.top (Nat.le_of_not_lt hf)⟩

theorem chSchDoYieldS (h : Sorted k) (e : k.chSchDoYieldS = some k') : Sorted k' ∧ k'.Top := by
  unfold Kern.chSchDoYieldS at e
  split at e
  · next hf => exact h.chSchDoRescheduleBehind e hf
  · next hf =>
    cases e
    exact ⟨h, h.top (by omega)⟩

theorem irqEpilogue (h : Sorted k) (e : k.irqEpilogue = some k') : Sorted k' ∧ k'.Top := by
  obtain ⟨k₁, h1, rfl⟩ := Option.map_eq_some_iff.1 e
  refine (?_ : Sorted k₁ ∧ k₁.Top).imp (fun hS => hS.congr rfl rfl) id
  unfold chSchIsPreemptionRequired at h1
  by_cases hp : 0 < k.preempt k.currp
  · rw [if_pos hp] at h1
    by_cases hf : k.firstprio > k.prio k.currp
    · rw [decide_eq_true hf, if_pos rfl, chSchDoReschedule, if_neg (by omega)] at h1
      exact h.chSchDoRescheduleAhead h1 (Nat.le_of_lt hf)
    · rw [decide_eq_false hf, if_neg (by simp)] at h1
      cases h1
      exact ⟨h, h.top (Nat.le_of_not_lt hf)⟩
  · rw [if_neg hp] at h1
    by_cases hf : k.firstprio ≥ k.prio k.currp
    · rw [decide_eq_true hf, if_pos rfl, chSchDoReschedule, if_pos (by omega)] at h1
      exact h.chSchDoRescheduleBehind h1 hf
    · rw [decide_eq_false hf, if_neg (by simp)] at h1
      cases h1
      exact ⟨h, h.top (by omega)⟩

theorem chSchWakeupS (h : Sorted k) (t : Fin n) (msg : Int) : Sorted (k.chSchWakeupS t msg) := by
  unfold Kern.chSchWakeupS
  split
  · exact (h.congr rfl rfl : Sorted (k.setRdymsg t msg)).chSchReadyI t
  · exact ((h.congr rfl rfl : Sorted (k.setRdymsg t msg)).chSchReadyI k.currp).congr rfl rfl

theorem setPrio (h : Sorted k) (hr : t ∉ k.queue .ready) (hm : ∀ mp, t ∉ k.queue (.mtx mp))
    (p : Nat) : Sorted (k.setPrio t p) := by
  have he : ∀ q, t ∉ k.queue q → ∀ u ∈ k.queue q, update k.prio t p u = k.prio u :=
    fun q hn u hu => update_of_ne (fun hut : u = t => hn (hut ▸ hu)) p k.prio
  exact ⟨h.ready.congr (he _ hr), fun mp => (h.mtx mp).congr (he _ (hm mp))⟩

/-- A thread in the queue gets another priority and the place that goes with it. -/
theorem reinsert (h : Sorted k) (hn : ∀ q, (k.queue q).Nodup) (hu : ∀ q', t ∈ k.queue q' → q' = q)
    (p : Nat) :
    Sorted (((k.setPrio t p).setQueue q ((k.queue q).erase t)).prio_insert t q) := by
  have hne : ∀ q' ≠ q, Falling k.prio (k.queue q') → Falling (update k.prio t p) (k.queue q') :=
    fun q' hq hf => hf.congr fun u hu' =>
      update_of_ne (fun he : u = t => hq (hu q' (he ▸ hu'))) p k.prio
  have heq : Falling k.prio (k.queue q) →
      Falling (update k.prio t p) (insertBehind (update k.prio t p) t ((k.queue q).erase t)) :=
    fun hf => hf.reinsert (hn q) fun u _ hut => update_of_ne hut p k.prio
  have hq : (((k.setPrio t p).setQueue q ((k.queue q).erase t)).prio_insert t q).queue =
      update k.queue q (insertBehind (update k.prio t p) t ((k.queue q).erase t)) := by
    show update (update k.queue q _) q _ = _
    rw [update_idem, queue_setQueue_self]
    rfl
  constructor
  · rw [hq]
    by_cases hr : .ready = q
    · subst hr
      rw [update_self]
      exact heq h.ready
    · rw [update_of_ne hr]
      exact hne _ hr h.ready
  · intro mp
    rw [hq]
    by_cases hr : .mtx mp = q
    · subst hr
      rw [update_self]
      exact heq (h.mtx mp)
    · rw [update_of_ne hr]
      exact hne _ hr (h.mtx mp)

end Sorted

namespace Top

theorem congr (h : k.Top) (hq : k'.queue .ready = k.queue .ready) (hp : k'.prio = k.prio)
    (hc : k'.currp = k.currp) : k'.Top := by
  unfold Top
  rw [hq, hp, hc]
  exact h

/-- It is enough that the running thread or the one woken up has the greatest priority. -/
theorem wakeup (h : ∀ u ∈ k.queue .ready, k.prio u ≤ max (k.prio k.currp) (k.prio t)) (msg : Int) :
    (k.chSchWakeupS t msg).Top := by
  unfold Kern.chSchWakeupS
  split
  · next hle =>
    intro u hu
    rw [show ((k.setRdymsg t msg).chSchReadyI t).queue .ready =
      insertBehind k.prio t (k.queue .ready) from queue_setQueue_self .., mem_insertBehind] at hu
    show k.prio u ≤ k.prio k.currp
    rcases hu with rfl | hu
    · exact hle
    · have := h u hu
      omega
  · next hle =>
    intro u hu
    rw [show (((k.setRdymsg t msg).chSchReadyI k.currp).setcurrp t).queue .ready =
      insertBehind k.prio k.currp (k.queue .ready) from queue_setQueue_self .ready _ k,
      mem_insertBehind] at hu
    show k.prio u ≤ k.prio t
    rcases hu with rfl | hu
    · omega
    · have := h u hu
      omega

theorem chSchWakeupS (h : k.Top) (t : Fin n) (msg : Int) : (k.chSchWakeupS t msg).Top :=
  wakeup (fun u hu => Nat.le_trans (h u hu) (Nat.le_max_left _ _)) msg

end Top

end Kern

end RobotPws.Kernel
