import RobotPws.Kernel.Placement

/-!
# What the scheduler leaves alone

The functions of `chschd.c` move threads between the processor and the ready list. `Sched S` says
what holds for all of them: threads that are ready or running may change places, those in `S` may
go into any state, and every queue but the ready list and all else that the services of the kernel
are about stays.
-/

namespace RobotPws.Kernel

open RobotPws.Lib Function

variable {n : Nat}

/-- Ready or running. -/
def TState.Runnable (st : TState n) : Prop := st = .ready ∨ st = .current

instance (st : TState n) : Decidable st.Runnable :=
  inferInstanceAs (Decidable (st = .ready ∨ st = .current))

namespace Kern

/-- The fields no function of the scheduler changes. -/
structure Still (k k' : Kern n) : Prop where
  prio : k'.prio = k.prio
  realprio : k'.realprio = k.realprio
  epending : k'.epending = k.epending
  mtxlist : k'.mtxlist = k.mtxlist
  cont : k'.cont = k.cont
  cnt : k'.cnt = k.cnt
  owner : k'.owner = k.owner
  vtlist : k'.vtlist = k.vtlist

structure Sched (S : Set (Fin n)) (k k' : Kern n) : Prop where
  still : Still k k'
  queue : ∀ q ≠ .ready, k'.queue q = k.queue q
  state : ∀ t ∉ S, k'.state t = k.state t ∨ (k'.state t).Runnable ∧ (k.state t).Runnable

variable {k k' k'' : Kern n} {t : Fin n} {q : QId n} {l : List (Fin n)} {st : TState n}
  {S : Set (Fin n)}

theorem Still.refl (k : Kern n) : Still k k := ⟨rfl, rfl, rfl, rfl, rfl, rfl, rfl, rfl⟩

theorem Still.trans (h : Still k k') (h' : Still k' k'') : Still k k'' :=
  ⟨h'.prio.trans h.prio, h'.realprio.trans h.realprio, h'.epending.trans h.epending,
    h'.mtxlist.trans h.mtxlist, h'.cont.trans h.cont, h'.cnt.trans h.cnt, h'.owner.trans h.owner,
    h'.vtlist.trans h.vtlist⟩

namespace Sched

theorem refl (k : Kern n) : Sched S k k := ⟨.refl k, fun _ _ => rfl, fun _ _ => .inl rfl⟩

theorem trans (h : Sched S k k') (h' : Sched S k' k'') : Sched S k k'' := by
  refine ⟨h.still.trans h'.still, fun q hq => (h'.queue q hq).trans (h.queue q hq), fun t ht => ?_⟩
  rcases h.state t ht with h1 | ⟨h1, h2⟩
  · rw [← h1]
    exact h'.state t ht
  · rcases h'.state t ht with h3 | ⟨h3, -⟩
    · exact .inr ⟨h3 ▸ h1, h2⟩
    · exact .inr ⟨h3, h2⟩

theorem state_iff (h : Sched S k k') (ht : t ∉ S) (hst : ¬ st.Runnable) :
    k'.state t = st ↔ k.state t = st := by
  rcases h.state t ht with h1 | ⟨h1, h2⟩
  · rw [h1]
  · exact ⟨fun he => (hst (he ▸ h1)).elim, fun he => (hst (he ▸ h2)).elim⟩

theorem runnable_iff (h : Sched S k k') (ht : t ∉ S) :
    (k'.state t).Runnable ↔ (k.state t).Runnable := by
  rcases h.state t ht with h1 | ⟨h1, h2⟩
  · rw [h1]
  · exact ⟨fun _ => h2, fun _ => h1⟩

theorem chSchReadyI (k : Kern n) (t : Fin n) : Sched {t} k (k.chSchReadyI t) :=
  ⟨⟨rfl, rfl, rfl, rfl, rfl, rfl, rfl, rfl⟩, fun _ hq => queue_setQueue_of_ne hq ..,
    fun _ hu => .inl (update_of_ne hu ..)⟩

theorem readyMsgI (k : Kern n) (t : Fin n) (msg : Int) : Sched {t} k (k.readyMsgI t msg) :=
  ⟨⟨rfl, rfl, rfl, rfl, rfl, rfl, rfl, rfl⟩, fun _ hq => queue_setQueue_of_ne hq ..,
    fun _ hu => .inl (update_of_ne hu ..)⟩

theorem resumeI (k : Kern n) (t : Fin n) (msg : Int) : Sched {t} k (k.resumeI t msg) :=
  ⟨⟨rfl, rfl, rfl, rfl, rfl, rfl, rfl, rfl⟩, fun _ hq => queue_setQueue_of_ne hq ..,
    fun _ hu => .inl (update_of_ne hu ..)⟩

theorem chSchWakeupS (hc : k.state k.currp = .current) (t : Fin n) (msg : Int) :
    Sched {t} k (k.chSchWakeupS t msg) ∧ ((k.chSchWakeupS t msg).state t).Runnable := by
  unfold Kern.chSchWakeupS
  split
  · exact ⟨resumeI k t msg, .inl (update_self ..)⟩
  · refine ⟨⟨⟨rfl, rfl, rfl, rfl, rfl, rfl, rfl, rfl⟩, fun _ hq => queue_setQueue_of_ne hq ..,
      fun u hu => ?_⟩, .inr (update_self ..)⟩
    show update (update k.state k.currp .ready) t .current u = k.state u ∨ _
    rw [update_of_ne hu]
    by_cases huc : u = k.currp
    · refine .inr ⟨.inl ?_, .inr (huc ▸ hc)⟩
      show update (update k.state k.currp .ready) t .current u = _
      rw [update_of_ne hu, huc, update_self]
    · exact .inl (update_of_ne huc ..)

theorem pick (hr : ∀ t ∈ k.queue .ready, k.state t = .ready) (e : k.pick = some k') :
    Sched ∅ k k' := by
  obtain ⟨x, l, hq, rfl⟩ := pick_eq_some.1 e
  refine ⟨⟨rfl, rfl, rfl, rfl, rfl, rfl, rfl, rfl⟩, fun _ hq => queue_setQueue_of_ne hq ..,
    fun u _ => ?_⟩
  by_cases hu : u = x
  · refine .inr ⟨.inr ?_, .inl ?_⟩
    · rw [hu]; exact update_self ..
    · rw [hu]; exact hr x (by rw [hq]; exact List.mem_cons_self)
  · exact .inl (update_of_ne hu ..)

theorem chSchGoSleepS (hr : ∀ t ∈ k.queue .ready, k.state t = .ready ∧ t ≠ k.currp)
    (e : k.chSchGoSleepS st = some k') : Sched {k.currp} k k' ∧ k'.state k.currp = st := by
  obtain ⟨x, l, hq, rfl⟩ := pick_eq_some.1 e
  obtain ⟨hx, hxc⟩ := hr x (by rw [show k.queue .ready = x :: l from hq]; exact List.mem_cons_self)
  refine ⟨⟨⟨rfl, rfl, rfl, rfl, rfl, rfl, rfl, rfl⟩, fun _ hq => queue_setQueue_of_ne hq ..,
    fun u hu => ?_⟩, ?_⟩
  · show update (update k.state k.currp st) x .current u = _ ∨ _
    by_cases hux : u = x
    · refine .inr ⟨.inr ?_, .inl (hux ▸ hx)⟩
      rw [hux]
      exact update_self ..
    · left
      rw [update_of_ne hux]
      exact update_of_ne hu ..
  · show update (update k.state k.currp st) x .current k.currp = st
    rw [update_of_ne hxc.symm, update_self]

theorem switch {k₁ : Kern n} (h : Placed none k) (e : k.pick = some k₁) (l : List (Fin n)) :
    Sched ∅ k ((k₁.setState k.currp .ready).setQueue .ready l) := by
  have h1 := pick (fun t ht => (h.ready_mem ht).1) e
  refine h1.trans ⟨⟨rfl, rfl, rfl, rfl, rfl, rfl, rfl, rfl⟩,
    fun _ hq => queue_setQueue_of_ne hq .., fun u hu => ?_⟩
  by_cases huc : u = k.currp
  · refine .inr ⟨.inl ?_, (h1.runnable_iff hu).2 (.inr (huc ▸ h.currp))⟩
    rw [huc]
    exact update_self ..
  · exact .inl (update_of_ne huc ..)

theorem chSchDoRescheduleBehind (h : Placed none k) (e : k.chSchDoRescheduleBehind = some k') :
    Sched ∅ k k' := by
  obtain ⟨k₁, h1, rfl⟩ := Option.map_eq_some_iff.1 e
  have hs := switch h h1 (insertBehind k₁.prio k.currp (k₁.queue .ready))
  exact ⟨⟨hs.still.prio, hs.still.realprio, hs.still.epending, hs.still.mtxlist, hs.still.cont,
    hs.still.cnt, hs.still.owner, hs.still.vtlist⟩, hs.queue, hs.state⟩

theorem chSchDoRescheduleAhead (h : Placed none k) (e : k.chSchDoRescheduleAhead = some k') :
    Sched ∅ k k' := by
  obtain ⟨k₁, h1, rfl⟩ := Option.map_eq_some_iff.1 e
  exact switch h h1 _

theorem chSchRescheduleS (h : Placed none k) (e : k.chSchRescheduleS = some k') :
    Sched ∅ k k' := by
  unfold Kern.chSchRescheduleS at e
  split at e
  · exact chSchDoRescheduleAhead h e
  · cases e
    exact .refl k

theorem chSchDoYieldS (h : Placed none k) (e : k.chSchDoYieldS = some k') : Sched ∅ k k' := by
  unfold Kern.chSchDoYieldS at e
  split at e
  · exact chSchDoRescheduleBehind h e
  · cases e
    exact .refl k

theorem irqEpilogue (h : Placed none k) (e : k.irqEpilogue = some k') : Sched ∅ k k' := by
  obtain ⟨k₁, h1, rfl⟩ := Option.map_eq_some_iff.1 e
  have hs : Sched ∅ k k₁ := by
    split at h1
    · unfold chSchDoReschedule at h1
      split at h1
      · exact chSchDoRescheduleBehind h h1
      · exact chSchDoRescheduleAhead h h1
    · cases h1
      exact .refl k
  exact ⟨⟨hs.still.prio, hs.still.realprio, hs.still.epending, hs.still.mtxlist, hs.still.cont,
    hs.still.cnt, hs.still.owner, hs.still.vtlist⟩, hs.queue, hs.state⟩

end Sched

end Kern

end RobotPws.Kernel
