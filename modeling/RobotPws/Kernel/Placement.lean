import RobotPws.Kernel.Services

/-!
# Where the threads are

Each thread is linked into the queue of its state and into no other, once (`Placed`). While a
function of the kernel has taken a thread out of its queue, and has not yet made it ready, that
thread is the one thread in no queue (`Placed (some tp)`).

`Located` says where the threads are while states and queues change one after the other.
-/

namespace RobotPws.Kernel

open RobotPws.Lib Function

variable {n : Nat}

namespace Kern

/-- The queues the threads' states name. -/
def places (k : Kern n) : Fin n → Option (QId n) := fun t => (k.state t).queue

/-- The threads are linked into the queues `loc` names, each of them once. -/
structure Located (loc : Fin n → Option (QId n)) (k : Kern n) : Prop where
  nodup : ∀ q, (k.queue q).Nodup
  mem : ∀ q t, t ∈ k.queue q ↔ loc t = some q

/-- Each thread but the one taken out is in the queue of its state, and one thread is running. -/
structure Placed (out : Option (Fin n)) (k : Kern n) : Prop where
  located : Located (out.elim k.places fun t => update k.places t none) k
  current : ∀ t, k.state t = .current ↔ t = k.currp

variable {k k' : Kern n} {loc : Fin n → Option (QId n)} {out : Option (Fin n)} {t : Fin n}
  {q : QId n} {l : List (Fin n)} {st : TState n}

theorem places_setState (k : Kern n) (t : Fin n) (st : TState n) :
    (k.setState t st).places = update k.places t st.queue := by
  funext u
  show (update k.state t st u).queue = update k.places t st.queue u
  by_cases hu : u = t
  · rw [hu, update_self, update_self]
  · rw [update_of_ne hu, update_of_ne hu]
    rfl

namespace Located

theorem remove (h : Located loc k) (hp : (k.queue q).Perm (t :: l)) :
    Located (update loc t none) (k.setQueue q l) := by
  have hn : (t :: l).Nodup := hp.nodup_iff.1 (h.nodup q)
  have htp : loc t = some q := (h.mem q t).1 (hp.mem_iff.2 List.mem_cons_self)
  refine ⟨fun q' => ?_, fun q' u => ?_⟩
  · by_cases hq : q' = q
    · rw [hq, queue_setQueue_self]
      exact (List.nodup_cons.1 hn).2
    · rw [queue_setQueue_of_ne hq]
      exact h.nodup q'
  · by_cases ht : u = t
    · subst ht
      rw [update_self]
      refine ⟨fun hm => ?_, fun he => nomatch he⟩
      by_cases hq : q' = q
      · rw [hq, queue_setQueue_self] at hm
        exact ((List.nodup_cons.1 hn).1 hm).elim
      · rw [queue_setQueue_of_ne hq, h.mem, htp] at hm
        exact (hq (Option.some.inj hm).symm).elim
    · rw [update_of_ne ht]
      by_cases hq : q' = q
      · rw [hq, queue_setQueue_self, ← h.mem q u, hp.mem_iff, List.mem_cons, or_iff_right ht]
      · rw [queue_setQueue_of_ne hq]
        exact h.mem q' u

theorem enter (h : Located loc k) (hn : loc t = none) (hp : l.Perm (t :: k.queue q)) :
    Located (update loc t (some q)) (k.setQueue q l) := by
  have hout : ∀ q', t ∉ k.queue q' := fun q' hm => by rw [h.mem, hn] at hm; cases hm
  refine ⟨fun q' => ?_, fun q' u => ?_⟩
  · by_cases hq : q' = q
    · rw [hq, queue_setQueue_self, hp.nodup_iff]
      exact List.nodup_cons.2 ⟨hout q, h.nodup q⟩
    · rw [queue_setQueue_of_ne hq]
      exact h.nodup q'
  · by_cases ht : u = t
    · subst ht
      rw [update_self]
      by_cases hq : q' = q
      · rw [hq, queue_setQueue_self, hp.mem_iff]
        simp
      · rw [queue_setQueue_of_ne hq]
        exact ⟨fun hm => (hout q' hm).elim, fun he => (hq (Option.some.inj he).symm).elim⟩
    · rw [update_of_ne ht]
      by_cases hq : q' = q
      · rw [hq, queue_setQueue_self, hp.mem_iff, List.mem_cons, or_iff_right ht]
        exact h.mem q u
      · rw [queue_setQueue_of_ne hq]
        exact h.mem q' u

end Located

namespace Placed

theorem congr (h : Placed out k) (hq : k'.queue = k.queue) (hs : k'.state = k.state)
    (hc : k'.currp = k.currp) : Placed out k' := by
  have hp : k'.places = k.places := by unfold places; rw [hs]
  refine ⟨?_, by rw [hs, hc]; exact h.current⟩
  rw [hp]
  exact ⟨by rw [hq]; exact h.located.nodup, by rw [hq]; exact h.located.mem⟩

theorem mem_iff (h : Placed none k) : t ∈ k.queue q ↔ (k.state t).queue = some q :=
  h.located.mem q t

theorem currp (h : Placed out k) : k.state k.currp = .current := (h.current _).2 rfl

theorem ne_currp (h : Placed out k) (hs : k.state t ≠ .current) : t ≠ k.currp :=
  fun he => hs ((h.current t).2 he)

theorem ne_currp_of_mem (h : Placed none k) (hm : t ∈ k.queue q) : t ≠ k.currp := by
  rintro rfl
  rw [h.mem_iff, h.currp] at hm
  cases hm

theorem ready_mem (h : Placed none k) (hm : t ∈ k.queue .ready) :
    k.state t = .ready ∧ t ≠ k.currp := by
  refine ⟨?_, h.ne_currp_of_mem hm⟩
  have hs := h.mem_iff.1 hm
  revert hs
  cases k.state t <;> simp [TState.queue]

theorem wtsem_of_mem {sp : Nat} (h : Placed none k) (hm : t ∈ k.queue (.sem sp)) :
    k.state t = .wtsem sp := by
  have hs := h.mem_iff.1 hm
  revert hs
  cases k.state t <;> simp [TState.queue]

theorem perm (h : Placed out k) (hp : l.Perm (k.queue q)) : Placed out (k.setQueue q l) := by
  refine ⟨⟨fun q' => ?_, fun q' u => ?_⟩, h.current⟩
  · by_cases hq : q' = q
    · rw [hq, queue_setQueue_self, hp.nodup_iff]
      exact h.located.nodup q
    · rw [queue_setQueue_of_ne hq]
      exact h.located.nodup q'
  · have hm := h.located.mem q' u
    by_cases hq : q' = q
    · rw [hq, queue_setQueue_self, hp.mem_iff]
      rw [hq] at hm
      exact hm
    · rw [queue_setQueue_of_ne hq]
      exact hm

theorem remove (h : Placed none k) (hp : (k.queue q).Perm (t :: l)) :
    Placed (some t) (k.setQueue q l) := ⟨h.located.remove hp, h.current⟩

theorem dequeue (h : Placed none k) (hm : t ∈ k.queue q) : Placed (some t) (k.dequeue t) := by
  rw [Kern.dequeue, h.mem_iff.1 hm]
  exact h.remove (List.perm_cons_erase hm)

theorem free (h : Placed none k) (hn : (k.state t).queue = none) : Placed (some t) k := by
  refine ⟨?_, h.current⟩
  show Located (update k.places t none) k
  rw [show (none : Option (QId n)) = k.places t from hn.symm, update_eq_self]
  exact h.located

theorem enter (h : Placed (some t) k) (hne : t ≠ k.currp) (hst : st.queue = some q)
    (hp : l.Perm (t :: k.queue q)) : Placed none ((k.setState t st).setQueue q l) := by
  refine ⟨?_, fun u => ?_⟩
  · have h0 : Located (update k.places t none) k := h.located
    have hl := h0.enter (update_self ..) hp
    rw [update_idem, ← hst, ← places_setState] at hl
    exact ⟨hl.nodup, hl.mem⟩
  · show update k.state t st u = .current ↔ u = k.currp
    by_cases ht : u = t
    · subst ht
      rw [update_self]
      refine ⟨fun he => ?_, fun he => (hne he).elim⟩
      rw [he] at hst
      cases hst
    · rw [update_of_ne ht]
      exact h.current u

theorem chSchReadyI (h : Placed (some t) k) (hne : t ≠ k.currp) :
    Placed none (k.chSchReadyI t) :=
  h.enter hne rfl (List.perm_orderedInsert _ _ _)

theorem readyMsgI (h : Placed (some t) k) (hne : t ≠ k.currp) (msg : Int) :
    Placed none (k.readyMsgI t msg) :=
  (h.chSchReadyI hne).congr rfl rfl rfl

theorem enqueue (h : Placed none k) (hp : l.Perm (k.currp :: k.queue q)) :
    Located (update k.places k.currp (some q)) (k.setQueue q l) :=
  h.located.enter (by show (k.state k.currp).queue = none; rw [h.currp]; rfl) hp

theorem enqueue_none (h : Placed none k) : Located (update k.places k.currp none) k := by
  have hn : k.places k.currp = none := by show (k.state k.currp).queue = none; rw [h.currp]; rfl
  rw [show (none : Option (QId n)) = k.places k.currp from hn.symm, update_eq_self]
  exact h.located

theorem pick (hl : Located k.places k) (hc : ∀ t, k.state t ≠ .current) (e : k.pick = some k') :
    Placed none k' := by
  obtain ⟨x, l, hq, rfl⟩ := pick_eq_some.1 e
  refine ⟨?_, fun u => ?_⟩
  · have h1 := hl.remove (q := .ready) (t := x) (l := l) (by rw [hq])
    refine ⟨h1.nodup, ?_⟩
    have h2 := h1.mem
    rw [← show ((k.setQueue .ready l).setState x .current).places = update k.places x none from
      places_setState ..] at h2
    exact h2
  · show update k.state x .current u = .current ↔ u = x
    by_cases ht : u = x
    · rw [ht, update_self]; simp
    · rw [update_of_ne ht]
      exact ⟨fun he => (hc u he).elim, fun he => (ht he).elim⟩

theorem chSchGoSleepS (hl : Located (update k.places k.currp st.queue) k)
    (hc : ∀ t, k.state t = .current ↔ t = k.currp) (hst : st ≠ .current)
    (e : k.chSchGoSleepS st = some k') : Placed none k' := by
  rw [← places_setState] at hl
  have hl' : Located ((k.setState k.currp st).setPreempt k.currp CH_TIME_QUANTUM).places
      ((k.setState k.currp st).setPreempt k.currp CH_TIME_QUANTUM) := ⟨hl.nodup, hl.mem⟩
  refine pick hl' (fun u => ?_) e
  show update k.state k.currp st u ≠ .current
  by_cases ht : u = k.currp
  · rw [ht, update_self]; exact hst
  · rw [update_of_ne ht]; exact fun he => ht ((hc u).1 he)

theorem switch {k₁ : Kern n} (h : Placed none k) (e : k.pick = some k₁)
    (hp : l.Perm (k.currp :: k₁.queue .ready)) :
    Placed none ((k₁.setState k.currp .ready).setQueue .ready l) := by
  obtain ⟨x, l₀, hq, rfl⟩ := pick_eq_some.1 e
  have hx : x ≠ k.currp := h.ne_currp_of_mem (q := .ready) (by rw [hq]; exact List.mem_cons_self)
  have hn : k.places k.currp = none := by show (k.state k.currp).queue = none; rw [h.currp]; rfl
  have hr : Located (update k.places x none) (k.setQueue .ready l₀) :=
    h.located.remove (by rw [hq])
  have hl := hr.enter (q := .ready) (by rw [update_of_ne hx.symm]; exact hn) hp
  have hs : (((k.setQueue .ready l₀).setcurrp x).setState k.currp .ready).places =
      update (update k.places x none) k.currp (some .ready) := by
    rw [places_setState]
    congr 1
    exact places_setState ..
  refine ⟨⟨hl.nodup, ?_⟩, fun u => ?_⟩
  · show ∀ q t, _ ↔ (((k.setQueue .ready l₀).setcurrp x).setState k.currp .ready).places t = some q
    rw [hs]
    exact hl.mem
  · show update (update k.state x .current) k.currp .ready u = .current ↔ u = x
    by_cases ht : u = k.currp
    · subst ht
      rw [update_self]
      exact ⟨fun he => (nomatch he), fun he => (hx he.symm).elim⟩
    · rw [update_of_ne ht]
      by_cases htx : u = x
      · rw [htx, update_self]; simp
      · rw [update_of_ne htx]
        exact ⟨fun he => (ht ((h.current u).1 he)).elim, fun he => (htx he).elim⟩

theorem chSchDoRescheduleBehind (h : Placed none k) (e : k.chSchDoRescheduleBehind = some k') :
    Placed none k' := by
  obtain ⟨k₁, h1, rfl⟩ := Option.map_eq_some_iff.1 e
  exact (h.switch h1 (List.perm_orderedInsert _ _ _)).congr rfl rfl rfl

theorem chSchDoRescheduleAhead (h : Placed none k) (e : k.chSchDoRescheduleAhead = some k') :
    Placed none k' := by
  obtain ⟨k₁, h1, rfl⟩ := Option.map_eq_some_iff.1 e
  exact h.switch h1 (List.perm_orderedInsert _ _ _)

theorem chSchRescheduleS (h : Placed none k) (e : k.chSchRescheduleS = some k') :
    Placed none k' := by
  unfold Kern.chSchRescheduleS at e
  split at e
  · exact h.chSchDoRescheduleAhead e
  · cases e
    exact h

theorem chSchDoYieldS (h : Placed none k) (e : k.chSchDoYieldS = some k') : Placed none k' := by
  unfold Kern.chSchDoYieldS at e
  split at e
  · exact h.chSchDoRescheduleBehind e
  · cases e
    exact h

theorem irqEpilogue (h : Placed none k) (e : k.irqEpilogue = some k') : Placed none k' := by
  obtain ⟨k₁, h1, rfl⟩ := Option.map_eq_some_iff.1 e
  refine (?_ : Placed none k₁).congr rfl rfl rfl
  split at h1
  · unfold chSchDoReschedule at h1
    split at h1
    · exact h.chSchDoRescheduleBehind h1
    · exact h.chSchDoRescheduleAhead h1
  · cases h1
    exact h

theorem chSchWakeupS (h : Placed (some t) k) (hne : t ≠ k.currp) (msg : Int) :
    Placed none (k.chSchWakeupS t msg) := by
  unfold Kern.chSchWakeupS
  split
  · exact (h.congr rfl rfl rfl : Placed (some t) (k.setRdymsg t msg)).chSchReadyI hne
  · have hn : (update k.places t none) k.currp = none := by
      rw [update_of_ne hne.symm]
      show (k.state k.currp).queue = none
      rw [h.currp]
      rfl
    have hl := h.located.enter (q := .ready) (l := insertBehind k.prio k.currp (k.queue .ready))
      hn (List.perm_orderedInsert _ _ _)
    have hs : ((k.setState k.currp .ready).setState t .current).places =
        update (update k.places t none) k.currp (some .ready) := by
      rw [places_setState, places_setState, update_comm hne.symm]
      rfl
    refine ⟨⟨hl.nodup, ?_⟩, fun u => ?_⟩
    · show ∀ q u, _ ↔ ((k.setState k.currp .ready).setState t .current).places u = some q
      rw [hs]
      exact hl.mem
    · show update (update k.state k.currp .ready) t .current u = .current ↔ u = t
      by_cases ht : u = t
      · rw [ht, update_self]; simp
      · rw [update_of_ne ht]
        by_cases htc : u = k.currp
        · rw [htc, update_self]
          exact ⟨fun he => (nomatch he), fun he => (hne he.symm).elim⟩
        · rw [update_of_ne htc]
          exact ⟨fun he => (htc ((h.current u).1 he)).elim, fun he => (ht he).elim⟩

end Placed

end Kern

end RobotPws.Kernel
