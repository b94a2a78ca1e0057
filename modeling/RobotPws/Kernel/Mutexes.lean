import Mathlib.Data.Fintype.Card
import RobotPws.Kernel.Frame
import RobotPws.Kernel.Order
import RobotPws.Lib.Inheritance

/-!
# Mutexes

Each mutex is in the list of its owner and in no other, nobody waits for a free one, and the
priorities are those inherited along the threads that wait for mutexes (`Mutexes`).
-/

namespace RobotPws.Kernel

open RobotPws.Lib Function

variable {n : Nat}

namespace Kern

/-- Whom a thread waits for: the owner of its mutex. The thread that has been taken out of its
queue waits no longer. -/
def waitFor (out : Option (Fin n)) (k : Kern n) (t : Fin n) : Option (Fin n) :=
  if out = some t then none else
    match k.state t with
    | .wtmtx mp => k.owner mp
    | _ => none

/-- The thread `but` may have a greater priority than it inherits. -/
structure Mutexes (out but : Option (Fin n)) (k : Kern n) : Prop where
  owns : ∀ mp t, k.owner mp = some t ↔ mp ∈ k.mtxlist t
  nodup : ∀ t, (k.mtxlist t).Nodup
  owned : ∀ t mp, k.state t = .wtmtx mp → out ≠ some t → k.owner mp ≠ none
  inherits : Inherits (fun t => but = some t) (k.waitFor out) k.realprio k.prio
  final : ∀ t, k.state t = .final → k.mtxlist t = []
  pos : ∀ t, k.state t ≠ .final → 0 < k.realprio t

variable {k k' : Kern n} {out out' but : Option (Fin n)} {t u c : Fin n} {mp ump : Nat}
  {l : List Nat} {ts : List (Fin n)} {st : TState n} {p fuel : Nat}

theorem waitFor_eq_some : k.waitFor out t = some u ↔
    out ≠ some t ∧ ∃ mp, k.state t = .wtmtx mp ∧ k.owner mp = some u := by
  unfold waitFor
  by_cases ho : out = some t
  · simp [ho]
  · rw [if_neg ho]
    cases k.state t <;> simp [ho]

theorem waitFor_congr (ho : k'.owner = k.owner) (hw : ∀ t mp,
    k'.state t = .wtmtx mp ∧ out' ≠ some t ↔ k.state t = .wtmtx mp ∧ out ≠ some t) :
    k'.waitFor out' = k.waitFor out := by
  funext t
  refine Option.ext fun u => ?_
  rw [waitFor_eq_some, waitFor_eq_some, ho]
  constructor
  · rintro ⟨h1, mp, h2, h3⟩
    obtain ⟨h4, h5⟩ := (hw t mp).1 ⟨h2, h1⟩
    exact ⟨h5, mp, h4, h3⟩
  · rintro ⟨h1, mp, h2, h3⟩
    obtain ⟨h4, h5⟩ := (hw t mp).2 ⟨h2, h1⟩
    exact ⟨h5, mp, h4, h3⟩

namespace Mutexes

theorem congr (h : Mutexes out but k) (ho : k'.owner = k.owner) (hm : k'.mtxlist = k.mtxlist)
    (hr : k'.realprio = k.realprio) (hp : k'.prio = k.prio) (hw : ∀ t mp,
      k'.state t = .wtmtx mp ∧ out' ≠ some t ↔ k.state t = .wtmtx mp ∧ out ≠ some t)
    (hf : ∀ t, k'.state t = .final ↔ k.state t = .final) : Mutexes out' but k' where
  owns := by rw [ho, hm]; exact h.owns
  nodup := by rw [hm]; exact h.nodup
  owned := fun t mp hs hout => by
    obtain ⟨h1, h2⟩ := (hw t mp).1 ⟨hs, hout⟩
    rw [ho]
    exact h.owned t mp h1 h2
  inherits := by rw [waitFor_congr ho hw, hr, hp]; exact h.inherits
  final := fun t hs => by rw [hm]; exact h.final t ((hf t).1 hs)
  pos := fun t hs => by rw [hr]; exact h.pos t fun he => hs ((hf t).2 he)

theorem still (h : Mutexes out but k) (ho : k'.owner = k.owner) (hm : k'.mtxlist = k.mtxlist)
    (hr : k'.realprio = k.realprio) (hp : k'.prio = k.prio) (hs : k'.state = k.state) :
    Mutexes out but k' :=
  h.congr ho hm hr hp (fun t mp => by rw [hs]) fun t => by rw [hs]

/-- Threads that are not waiting for a mutex go into states in which they do not. -/
theorem sched {S : Set (Fin n)} (h : Mutexes out but k) (hs : Sched S k k')
    (hout : ∀ t, t ∉ S → (out = some t ↔ out' = some t))
    (hS : ∀ t ∈ S, (∀ mp, k.state t ≠ .wtmtx mp ∨ out = some t) ∧
      (∀ mp, k'.state t ≠ .wtmtx mp ∨ out' = some t) ∧ k.state t ≠ .final ∧ k'.state t ≠ .final) :
    Mutexes out' but k' := by
  refine h.congr hs.still.owner hs.still.mtxlist hs.still.realprio hs.still.prio
    (fun t mp => ?_) fun t => ?_
  · by_cases ht : t ∈ S
    · obtain ⟨h1, h2, -, -⟩ := hS t ht
      constructor
      · rintro ⟨hw, ho⟩
        exact ((h2 mp).elim (fun hn => hn hw) ho).elim
      · rintro ⟨hw, ho⟩
        exact ((h1 mp).elim (fun hn => hn hw) ho).elim
    · rw [hs.state_iff ht (by rintro (h | h) <;> cases h), ne_eq, ne_eq, hout t ht]
  · by_cases ht : t ∈ S
    · obtain ⟨-, -, h3, h4⟩ := hS t ht
      exact ⟨fun he => (h4 he).elim, fun he => (h3 he).elim⟩
    · exact hs.state_iff ht (by rintro (h | h) <;> cases h)

theorem switch (h : Mutexes out but k) (hs : Sched ∅ k k') : Mutexes out but k' :=
  h.sched hs (fun _ _ => Iff.rfl) fun _ ht => ht.elim

theorem ready (h : Mutexes (some t) but k) (hs : Sched {t} k k') (hr : (k'.state t).Runnable)
    (hf : k.state t ≠ .final) : Mutexes none but k' := by
  refine h.sched hs (fun u hu => ?_) fun u hu => ?_
  · simp only [Set.mem_singleton_iff] at hu
    simp [Ne.symm hu]
  · rw [Set.mem_singleton_iff] at hu
    subst hu
    refine ⟨fun _ => .inr rfl, fun _ => .inl ?_, hf, ?_⟩ <;> rcases hr with hr | hr <;> rw [hr] <;>
      simp

theorem sleep (h : Mutexes none but k) (hs : Sched {k.currp} k k')
    (hc : k.state k.currp = .current) (hw : ∀ mp, k'.state k.currp ≠ .wtmtx mp)
    (hf : k'.state k.currp ≠ .final) : Mutexes none but k' := by
  refine h.sched hs (fun _ _ => Iff.rfl) fun u hu => ?_
  rw [Set.mem_singleton_iff] at hu
  subst hu
  exact ⟨fun _ => .inl (by rw [hc]; simp), fun mp => .inl (hw mp), by rw [hc]; simp, hf⟩

/-- A thread that waits for something else is taken out of its queue. -/
theorem free (h : Mutexes none but k) (hw : ∀ mp, k.state t ≠ .wtmtx mp) :
    Mutexes (some t) but k := by
  refine h.congr rfl rfl rfl rfl (fun u mp => ?_) fun _ => Iff.rfl
  constructor
  · rintro ⟨h1, -⟩
    exact ⟨h1, by simp⟩
  · rintro ⟨h1, -⟩
    refine ⟨h1, ?_⟩
    rintro ⟨⟩
    exact hw mp h1

theorem waitFor_currp (hP : Placed none k) : k.waitFor none k.currp = none := by
  unfold waitFor
  rw [hP.currp]
  rfl

/-! ## Lock -/

theorem giveMtx (h : Mutexes none but k) (hP : Placed none k) (ho : k.owner mp = none) :
    Mutexes none but (k.giveMtx k.currp mp) := by
  have hnot : ∀ t, mp ∉ k.mtxlist t := fun t hm => by
    rw [← h.owns, ho] at hm
    cases hm
  refine ⟨fun m t => ?_, fun t => ?_, fun t m hs hout => ?_, ?_, fun t hs => ?_, h.pos⟩
  · show update k.owner mp (some k.currp) m = some t ↔
      m ∈ update k.mtxlist k.currp (mp :: k.mtxlist k.currp) t
    by_cases hm : m = mp
    · subst hm
      rw [update_self]
      by_cases ht : t = k.currp
      · rw [ht, update_self]; simp
      · rw [update_of_ne ht]
        exact ⟨fun he => (ht (Option.some.inj he).symm).elim, fun he => (hnot t he).elim⟩
    · rw [update_of_ne hm, h.owns]
      by_cases ht : t = k.currp
      · rw [ht, update_self, List.mem_cons, or_iff_right hm]
      · rw [update_of_ne ht]
  · show (update k.mtxlist k.currp (mp :: k.mtxlist k.currp) t).Nodup
    by_cases ht : t = k.currp
    · rw [ht, update_self]
      exact List.nodup_cons.2 ⟨hnot _, h.nodup _⟩
    · rw [update_of_ne ht]
      exact h.nodup t
  · show update k.owner mp (some k.currp) m ≠ none
    by_cases hm : m = mp
    · rw [hm, update_self]; simp
    · rw [update_of_ne hm]
      exact h.owned t m hs hout
  · have hw : (k.giveMtx k.currp mp).waitFor none = k.waitFor none := by
      funext t
      refine Option.ext fun u => ?_
      rw [waitFor_eq_some, waitFor_eq_some]
      refine and_congr_right fun _ => exists_congr fun m => and_congr_right fun hs => ?_
      show update k.owner mp (some k.currp) m = some u ↔ _
      rw [update_of_ne]
      rintro rfl
      exact h.owned t m hs (by simp) ho
    rw [hw]
    exact h.inherits
  · show update k.mtxlist k.currp (mp :: k.mtxlist k.currp) t = []
    have ht : t ≠ k.currp := fun he => by
      have hs' : k.state t = .final := hs
      rw [he, hP.currp] at hs'
      cases hs'
    rw [update_of_ne ht]
    exact h.final t hs

end Mutexes

/-! ## Inheritance -/

/-- What the loop of `chMtxLockS` leaves alone. -/
structure Boosted (k k' : Kern n) : Prop where
  realprio : k'.realprio = k.realprio
  state : k'.state = k.state
  epending : k'.epending = k.epending
  mtxlist : k'.mtxlist = k.mtxlist
  cont : k'.cont = k.cont
  cnt : k'.cnt = k.cnt
  owner : k'.owner = k.owner
  vtlist : k'.vtlist = k.vtlist
  currp : k'.currp = k.currp
  inIsr : k'.inIsr = k.inIsr
  queue : ∀ q, q ≠ .ready → (∀ mp, q ≠ .mtx mp) → k'.queue q = k.queue q

namespace Boosted

theorem refl (k : Kern n) : Boosted k k :=
  ⟨rfl, rfl, rfl, rfl, rfl, rfl, rfl, rfl, rfl, rfl, fun _ _ _ => rfl⟩

theorem trans {k'' : Kern n} (h : Boosted k k') (h' : Boosted k' k'') : Boosted k k'' :=
  ⟨h'.realprio.trans h.realprio, h'.state.trans h.state, h'.epending.trans h.epending,
    h'.mtxlist.trans h.mtxlist, h'.cont.trans h.cont, h'.cnt.trans h.cnt, h'.owner.trans h.owner,
    h'.vtlist.trans h.vtlist, h'.currp.trans h.currp, h'.inIsr.trans h.inIsr,
    fun q hr hm => (h'.queue q hr hm).trans (h.queue q hr hm)⟩

end Boosted

/-- A thread gets another priority, and the place in its queue that goes with it. -/
structure Raised (t : Fin n) (p : Nat) (k k' : Kern n) : Prop where
  boosted : Boosted k k'
  prio : k'.prio = update k.prio t p
  placed : Placed none k'
  sorted : Sorted k'

theorem raised_queue (hP : Placed none k) (hS : Sorted k) {q : QId n}
    (hq : (k.state t).queue = some q) (hr : q = .ready ∨ ∃ mp, q = .mtx mp) (p : Nat) :
    Raised t p k (((k.setPrio t p).dequeue t).prio_insert t q) := by
  have hm : t ∈ k.queue q := hP.mem_iff.2 hq
  have hd : (k.setPrio t p).dequeue t = (k.setPrio t p).setQueue q ((k.queue q).erase t) := by
    unfold dequeue
    rw [show ((k.setPrio t p).state t).queue = some q from hq]
    rfl
  have heq : (((k.setPrio t p).dequeue t).prio_insert t q).queue =
      update k.queue q (insertBehind (update k.prio t p) t ((k.queue q).erase t)) := by
    rw [hd]
    show update (update k.queue q _) q _ = _
    rw [update_idem, queue_setQueue_self]
    rfl
  have hb : Boosted k (((k.setPrio t p).dequeue t).prio_insert t q) := by
    rw [hd]
    refine ⟨rfl, rfl, rfl, rfl, rfl, rfl, rfl, rfl, rfl, rfl, fun q' h1 h2 => ?_⟩
    rw [← hd, heq, update_of_ne]
    rintro rfl
    rcases hr with hr | ⟨mp, hr⟩
    · exact h1 hr
    · exact h2 mp hr
  refine ⟨hb, ?_, ?_, ?_⟩
  · rw [hd]; rfl
  · have hp : (insertBehind (update k.prio t p) t ((k.queue q).erase t)).Perm (k.queue q) :=
      (List.perm_orderedInsert _ _ _).trans (List.perm_cons_erase hm).symm
    exact (hP.perm hp).congr heq hb.state hb.currp
  · rw [hd]
    exact hS.reinsert hP.located.nodup
      (fun q' hm' => Option.some.inj ((hP.mem_iff.1 hm').symm.trans hq)) p

theorem raised_ready (hP : Placed none k) (hS : Sorted k) (hs : k.state t = .ready) (p : Nat) :
    Raised t p k (((k.setPrio t p).dequeue t).chSchReadyI t) := by
  have h := raised_queue hP hS (t := t) (q := .ready) (by rw [hs]; rfl) (.inl rfl) p
  have he : ((k.setPrio t p).dequeue t).chSchReadyI t =
      ((k.setPrio t p).dequeue t).prio_insert t .ready := by
    have hst : ((k.setPrio t p).dequeue t).setState t .ready = (k.setPrio t p).dequeue t := by
      have : ((k.setPrio t p).dequeue t).state t = .ready := by
        unfold dequeue
        split <;> exact hs
      unfold setState
      rw [← this, update_eq_self]
    unfold chSchReadyI
    rw [hst]
  rw [he]
  exact h

theorem raised_other (hP : Placed none k) (hS : Sorted k) (hr : k.state t ≠ .ready)
    (hw : ∀ mp, k.state t ≠ .wtmtx mp) (p : Nat) : Raised t p k (k.setPrio t p) := by
  refine ⟨⟨rfl, rfl, rfl, rfl, rfl, rfl, rfl, rfl, rfl, rfl, fun _ _ _ => rfl⟩, rfl,
    hP.congr rfl rfl rfl, hS.setPrio (fun hm => hr (hP.ready_mem hm).1) (fun mp hm => ?_) p⟩
  have hq := hP.mem_iff.1 hm
  revert hq hw
  cases k.state t <;> simp [TState.queue]

theorem inherit_of_le (h : ¬ k.prio t < k.prio k.currp) : k.inherit (fuel + 1) t = some k :=
  if_neg h

theorem inherit_ready (h : k.prio t < k.prio k.currp) (hs : k.state t = .ready) :
    k.inherit (fuel + 1) t = some (((k.setPrio t (k.prio k.currp)).dequeue t).chSchReadyI t) := by
  unfold inherit
  rw [if_pos h]
  dsimp only
  rw [show (k.setPrio t (k.prio k.currp)).state t = .ready from hs]

theorem inherit_other (h : k.prio t < k.prio k.currp) (hr : k.state t ≠ .ready)
    (hw : ∀ mp, k.state t ≠ .wtmtx mp) :
    k.inherit (fuel + 1) t = some (k.setPrio t (k.prio k.currp)) := by
  unfold inherit
  rw [if_pos h]
  dsimp only
  split
  · next mp hs => exact (hw mp hs).elim
  · next hs => exact (hr hs).elim
  · rfl

theorem inherit_wtmtx (h : k.prio t < k.prio k.currp) (hs : k.state t = .wtmtx mp)
    (ho : (((k.setPrio t (k.prio k.currp)).dequeue t).prio_insert t (.mtx mp)).owner mp = some u) :
    k.inherit (fuel + 1) t =
      (((k.setPrio t (k.prio k.currp)).dequeue t).prio_insert t (.mtx mp)).inherit fuel u := by
  rw [inherit, if_pos h]
  dsimp only
  rw [show (k.setPrio t (k.prio k.currp)).state t = .wtmtx mp from hs]
  dsimp only
  rw [ho, Option.bind_some]

/-- The loop computes what `raise` does along the threads that wait for mutexes, the running one
among them. -/
theorem inherit_spec (wait : Fin n → Option (Fin n)) (hP : Placed none k) (hS : Sorted k)
    (hown : ∀ t mp, k.state t = .wtmtx mp → k.owner mp ≠ none)
    (hw : ∀ u, u ≠ k.currp → wait u = k.waitFor none u) :
    (k.inherit fuel t).isSome = (raise wait (k.prio k.currp) fuel t k.prio).isSome ∧
      ∀ k', k.inherit fuel t = some k' → Boosted k k' ∧ Placed none k' ∧ Sorted k' ∧
        raise wait (k.prio k.currp) fuel t k.prio = some k'.prio := by
  induction fuel generalizing t k with
  | zero => exact ⟨rfl, fun k' h => nomatch h⟩
  | succ fuel ih =>
    by_cases hlt : k.prio t < k.prio k.currp
    · have htc : t ≠ k.currp := fun he => by rw [he] at hlt; exact Nat.lt_irrefl _ hlt
      have hdone : ∀ {k₁ : Kern n}, Raised t (k.prio k.currp) k k₁ →
          k.inherit (fuel + 1) t = some k₁ → wait t = none →
          (k.inherit (fuel + 1) t).isSome =
            (raise wait (k.prio k.currp) (fuel + 1) t k.prio).isSome ∧
          ∀ k', k.inherit (fuel + 1) t = some k' → Boosted k k' ∧ Placed none k' ∧ Sorted k' ∧
            raise wait (k.prio k.currp) (fuel + 1) t k.prio = some k'.prio := by
        intro k₁ hR hi hn
        rw [hi, raise_last hlt hn]
        refine ⟨rfl, fun k' he => ?_⟩
        cases he
        exact ⟨hR.boosted, hR.placed, hR.sorted, by rw [hR.prio]⟩
      by_cases hr : k.state t = .ready
      · refine hdone (raised_ready hP hS hr _) (inherit_ready hlt hr) ?_
        rw [hw t htc]
        unfold waitFor
        rw [hr]
        rfl
      · cases hn : k.waitFor none t with
        | none =>
          have hwm : ∀ mp, k.state t ≠ .wtmtx mp := fun mp hs => by
            obtain ⟨u, hu⟩ := Option.ne_none_iff_exists'.1 (hown t mp hs)
            rw [waitFor_eq_some.2 ⟨by simp, mp, hs, hu⟩] at hn
            cases hn
          exact hdone (raised_other hP hS hr hwm _) (inherit_other hlt hr hwm)
            ((hw t htc).trans hn)
        | some u =>
          obtain ⟨-, mp, hs, hu⟩ := waitFor_eq_some.1 hn
          have hR := raised_queue hP hS (t := t) (q := .mtx mp) (by rw [hs]; rfl) (.inr ⟨mp, rfl⟩)
            (k.prio k.currp)
          rw [inherit_wtmtx hlt hs (by rw [hR.boosted.owner, hu]),
            raise_next hlt ((hw t htc).trans hn)]
          -- the rest of the loop runs on the state after this pass
          revert hR
          generalize ((k.setPrio t (k.prio k.currp)).dequeue t).prio_insert t (.mtx mp) = k₁
          intro hR
          have hb := hR.boosted
          have hc : k₁.prio k₁.currp = k.prio k.currp := by
            rw [hb.currp, hR.prio, update_of_ne htc.symm]
          have hrest := ih (k := k₁) (t := u) hR.placed hR.sorted
            (by rw [hb.state, hb.owner]; exact hown) fun v hv => by
              rw [hw v (by rw [← hb.currp]; exact hv)]
              exact (congrFun (waitFor_congr hb.owner fun t mp => by rw [hb.state]) v).symm
          rw [hc, hR.prio] at hrest
          refine ⟨hrest.1, fun k' he => ?_⟩
          obtain ⟨hb', hp', hs', hr'⟩ := hrest.2 k' he
          exact ⟨hb.trans hb', hp', hs', hr'⟩
    · rw [inherit_of_le hlt, raise_of_le hlt]
      refine ⟨rfl, fun k' he => ?_⟩
      cases he
      exact ⟨.refl k, hP, hS, rfl⟩

theorem inherit_isSome (hP : Placed none k) (hS : Sorted k) (h : Mutexes none but k) (t : Fin n) :
    (k.inherit (n + 1) t).isSome = true := by
  rw [(inherit_spec (k.waitFor none) hP hS (fun t mp hs => h.owned t mp hs (by simp))
    fun _ _ => rfl).1]
  apply raise_isSome
  exact Nat.lt_succ_of_le ((Finset.card_le_univ _).trans (by simp))

namespace Mutexes

/-- The running thread goes to sleep for a mutex, after all it is going to wait for have got its
priority. -/
theorem wait {k₁ : Kern n} (h : Mutexes none none k) (hP : Placed none k) (hb : Boosted k k₁)
    (hr : raise (update (k.waitFor none) k.currp (some t)) (k.prio k.currp) fuel t k.prio =
      some k₁.prio) (ho : k.owner mp = some t) (hs : Sched {k.currp} k₁ k')
    (hst : k'.state k.currp = .wtmtx mp) : Mutexes none none k' := by
  have howner : k'.owner = k.owner := hs.still.owner.trans hb.owner
  have hlist : k'.mtxlist = k.mtxlist := hs.still.mtxlist.trans hb.mtxlist
  have hstate : ∀ {u : Fin n} {st : TState n}, u ≠ k.currp → ¬ st.Runnable →
      (k'.state u = st ↔ k.state u = st) := fun hu hst => by rw [hs.state_iff hu hst, hb.state]
  have hwait : k'.waitFor none = update (k.waitFor none) k.currp (some t) := by
    funext u
    refine Option.ext fun v => ?_
    by_cases hu : u = k.currp
    · subst hu
      rw [update_self, waitFor_eq_some, howner]
      constructor
      · rintro ⟨-, m, hm, hv⟩
        rw [hst] at hm
        cases hm
        rw [← hv, ho]
      · rintro ⟨⟩
        exact ⟨by simp, mp, hst, ho⟩
    · rw [update_of_ne hu, waitFor_eq_some, waitFor_eq_some, howner]
      refine and_congr_right fun _ => exists_congr fun m => and_congr_left fun _ => ?_
      exact hstate hu (by rintro (h | h) <;> cases h)
  refine ⟨by rw [howner, hlist]; exact h.owns, by rw [hlist]; exact h.nodup, fun u m hm _ => ?_, ?_,
    fun u hf => ?_, fun u hf => ?_⟩
  · rw [howner]
    by_cases hu : u = k.currp
    · subst hu
      rw [hst] at hm
      cases hm
      rw [ho]
      simp
    · exact h.owned u m ((hstate hu (by rintro (h | h) <;> cases h)).1 hm) (by simp)
  · rw [hwait, hs.still.realprio, hb.realprio, hs.still.prio]
    exact h.inherits.raise (waitFor_currp hP) (by simp) hr
  · rw [hlist]
    have hu : u ≠ k.currp := fun he => by rw [he, hst] at hf; cases hf
    exact h.final u ((hstate hu (by rintro (h | h) <;> cases h)).1 hf)
  · rw [hs.still.realprio, hb.realprio]
    by_cases hu : u = k.currp
    · exact h.pos u (by rw [hu, hP.currp]; simp)
    · exact h.pos u fun he => hf ((hstate hu (by rintro (h | h) <;> cases h)).2 he)

/-! ## Unlock -/

theorem currp_owns (h : Mutexes out but k) (hl : k.mtxlist t = ump :: l) :
    k.owner ump = some t ∧ ump ∉ l ∧ ∀ mp, mp ∈ l ↔ mp ≠ ump ∧ k.owner mp = some t := by
  have hn := List.nodup_cons.1 (hl ▸ h.nodup t)
  refine ⟨(h.owns ump t).2 (by rw [hl]; exact List.mem_cons_self), hn.1, fun mp => ?_⟩
  rw [h.owns, hl, List.mem_cons]
  constructor
  · intro hm
    exact ⟨fun he => hn.1 (he ▸ hm), .inr hm⟩
  · rintro ⟨hne, he | hm⟩
    · exact (hne he).elim
    · exact hm

/-- The running thread unlocks its mutex `ump`, which goes to the first one that waits for it, and
gets priority `p`. -/
theorem pass (h : Mutexes none but k) (hb : ∀ u, but = some u → u = k.currp) (hP : Placed none k)
    (hS : Sorted k) (hl : k.mtxlist k.currp = ump :: l) (hq : k.queue (.mtx ump) = t :: ts)
    (hreal : k.realprio k.currp ≤ p) (hle : ∀ m ∈ l, ∀ w ∈ k.queue (.mtx m), k.prio w ≤ p)
    (hatt : but ≠ some k.currp → p = k.realprio k.currp ∨
      ∃ m ∈ l, ∃ w ∈ k.queue (.mtx m), k.prio w = p)
    (hown' : k'.owner = update k.owner ump (some t))
    (hlist' : k'.mtxlist = update (update k.mtxlist k.currp l) t (ump :: k.mtxlist t))
    (hreal' : k'.realprio = k.realprio) (hprio' : k'.prio = update k.prio k.currp p)
    (hstate' : k'.state = k.state) : Mutexes (some t) but k' := by
  obtain ⟨howner, hnot, hrest⟩ := h.currp_owns hl
  have hwaits : ∀ {w m}, w ∈ k.queue (.mtx m) ↔ k.state w = .wtmtx m := fun {w m} => by
    rw [hP.mem_iff]
    cases k.state w <;> simp [TState.queue]
  have ht : k.state t = .wtmtx ump := hwaits.1 (by rw [hq]; exact List.mem_cons_self)
  have htc : t ≠ k.currp := fun he => by rw [he, hP.currp] at ht; cases ht
  have htl : ∀ m, m ∈ k.mtxlist t → m ≠ ump := fun m hm he => by
    rw [← h.owns, he, howner] at hm
    exact htc (Option.some.inj hm).symm
  refine ⟨fun m u => ?_, fun u => ?_, fun u m hm hu => ?_, ?_, fun u hf => ?_, fun u hf => ?_⟩
  · rw [hown', hlist']
    by_cases hm : m = ump
    · subst hm
      rw [update_self]
      by_cases hut : u = t
      · rw [hut, update_self]; simp
      · rw [update_of_ne hut]
        refine ⟨fun he => (hut (Option.some.inj he).symm).elim, fun hm => ?_⟩
        by_cases huc : u = k.currp
        · rw [huc, update_self] at hm
          exact (hnot hm).elim
        · rw [update_of_ne huc, ← h.owns, howner] at hm
          exact (huc (Option.some.inj hm).symm).elim
    · rw [update_of_ne hm, h.owns]
      by_cases hut : u = t
      · rw [hut, update_self, List.mem_cons, or_iff_right hm]
      · rw [update_of_ne hut]
        by_cases huc : u = k.currp
        · rw [huc, update_self, hl, List.mem_cons, or_iff_right hm]
        · rw [update_of_ne huc]
  · rw [hlist']
    by_cases hut : u = t
    · rw [hut, update_self]
      exact List.nodup_cons.2 ⟨fun hm => htl ump hm rfl, h.nodup t⟩
    · rw [update_of_ne hut]
      by_cases huc : u = k.currp
      · rw [huc, update_self]
        exact (List.nodup_cons.1 (hl ▸ h.nodup k.currp)).2
      · rw [update_of_ne huc]
        exact h.nodup u
  · rw [hown']
    by_cases hmu : m = ump
    · rw [hmu, update_self]; simp
    · rw [update_of_ne hmu]
      exact h.owned u m (by rw [← hstate']; exact hm) (by simp)
  · rw [hreal', hprio']
    have hnew : ∀ w u, k'.waitFor (some t) w = some u ↔ w ≠ t ∧ ∃ m, k.state w = .wtmtx m ∧
        (m = ump ∧ u = t ∨ m ≠ ump ∧ k.owner m = some u) := fun w u => by
      rw [waitFor_eq_some, hown', hstate']
      refine and_congr (by simp [eq_comm]) (exists_congr fun m => and_congr_right fun _ => ?_)
      by_cases hm : m = ump
      · rw [hm, update_self]; simp [eq_comm]
      · rw [update_of_ne hm]; simp [hm]
    have hold : ∀ w u, k.waitFor none w = some u ↔ ∃ m, k.state w = .wtmtx m ∧
        k.owner m = some u := fun w u => by
      rw [waitFor_eq_some]; simp
    have hcurr : ∀ w, k'.waitFor (some t) w = some k.currp → ∃ m ∈ l, w ∈ k.queue (.mtx m) :=
      fun w hw => by
        obtain ⟨-, m, hs, hm⟩ := (hnew _ _).1 hw
        rcases hm with ⟨-, hm⟩ | ⟨hm, ho⟩
        · exact (htc hm.symm).elim
        · exact ⟨m, (hrest m).2 ⟨hm, ho⟩, hwaits.2 hs⟩
    refine h.inherits.release (t := t) (waitFor_currp hP) hb (fun w hw => ?_) (fun w hw => ?_) htc
      hreal (fun w hw => ?_) fun hnb => ?_
    · -- who does not wait for the running thread
      refine Option.ext fun u => ?_
      rw [hnew, hold]
      constructor
      · rintro ⟨-, m, hs, ⟨rfl, rfl⟩ | ⟨-, ho⟩⟩
        · exact (hw ((hold _ _).2 ⟨m, hs, howner⟩)).elim
        · exact ⟨m, hs, ho⟩
      · rintro ⟨m, hs, ho⟩
        have hm : m ≠ ump := by
          rintro rfl
          exact hw ((hold _ _).2 ⟨m, hs, howner⟩)
        refine ⟨?_, m, hs, .inr ⟨hm, ho⟩⟩
        rintro rfl
        rw [ht] at hs
        cases hs
        exact hm rfl
    · obtain ⟨m, hs, ho⟩ := (hold _ _).1 hw
      by_cases hwt : w = t
      · left
        cases hn : k'.waitFor (some t) w with
        | none => rfl
        | some u => exact (((hnew _ _).1 hn).1 hwt).elim
      · by_cases hm : m = ump
        · subst hm
          refine .inr (.inr ⟨(hnew _ _).2 ⟨hwt, m, hs, .inl ⟨rfl, rfl⟩⟩, ?_⟩)
          have hF := hS.mtx m
          have hmem : w ∈ k.queue (.mtx m) := hwaits.2 hs
          rw [hq] at hF hmem
          exact hF.head_max hmem
        · exact .inr (.inl ((hnew _ _).2 ⟨hwt, m, hs, .inr ⟨hm, ho⟩⟩))
    · obtain ⟨m, hm, hw'⟩ := hcurr w hw
      exact hle m hm w hw'
    · rcases hatt hnb with he | ⟨m, hm, w, hw, he⟩
      · exact .inl he
      · obtain ⟨hm', ho⟩ := (hrest m).1 hm
        refine .inr ⟨w, (hnew _ _).2 ⟨?_, m, hwaits.1 hw, .inr ⟨hm', ho⟩⟩, he⟩
        rintro rfl
        rw [hwaits, ht] at hw
        cases hw
        exact hm' rfl
  · rw [hstate'] at hf
    have hut : u ≠ t := fun he => by rw [he, ht] at hf; cases hf
    have huc : u ≠ k.currp := fun he => by rw [he, hP.currp] at hf; cases hf
    rw [hlist', update_of_ne hut, update_of_ne huc]
    exact h.final u hf
  · rw [hreal']
    exact h.pos u (by rw [← hstate']; exact hf)

theorem drop (h : Mutexes none but k) (hP : Placed none k) (hl : k.mtxlist k.currp = ump :: l)
    (hq : k.queue (.mtx ump) = []) (hown' : k'.owner = update k.owner ump none)
    (hlist' : k'.mtxlist = update k.mtxlist k.currp l) (hreal' : k'.realprio = k.realprio)
    (hprio' : k'.prio = k.prio) (hstate' : k'.state = k.state) : Mutexes none but k' := by
  obtain ⟨howner, hnot, hrest⟩ := h.currp_owns hl
  have hnone : ∀ w, k.state w ≠ .wtmtx ump := fun w hs => by
    have : w ∈ k.queue (.mtx ump) := hP.mem_iff.2 (by rw [hs]; rfl)
    rw [hq] at this
    cases this
  refine ⟨fun m u => ?_, fun u => ?_, fun u m hm hu => ?_, ?_, fun u hf => ?_, fun u hf => ?_⟩
  · rw [hown', hlist']
    by_cases hm : m = ump
    · subst hm
      rw [update_self]
      refine ⟨fun he => (nomatch he), fun hm => ?_⟩
      by_cases huc : u = k.currp
      · rw [huc, update_self] at hm
        exact (hnot hm).elim
      · rw [update_of_ne huc, ← h.owns, howner] at hm
        exact (huc (Option.some.inj hm).symm).elim
    · rw [update_of_ne hm, h.owns]
      by_cases huc : u = k.currp
      · rw [huc, update_self, hl, List.mem_cons, or_iff_right hm]
      · rw [update_of_ne huc]
  · rw [hlist']
    by_cases huc : u = k.currp
    · rw [huc, update_self]
      exact (List.nodup_cons.1 (hl ▸ h.nodup k.currp)).2
    · rw [update_of_ne huc]
      exact h.nodup u
  · rw [hstate'] at hm
    rw [hown', update_of_ne (fun he : m = ump => hnone u (he ▸ hm))]
    exact h.owned u m hm hu
  · have hw : k'.waitFor none = k.waitFor none := by
      funext w
      refine Option.ext fun u => ?_
      rw [waitFor_eq_some, waitFor_eq_some, hown', hstate']
      refine and_congr_right fun _ => exists_congr fun m => and_congr_right fun hs => ?_
      rw [update_of_ne (fun he : m = ump => hnone w (he ▸ hs))]
    rw [hw, hreal', hprio']
    exact h.inherits
  · rw [hstate'] at hf
    have huc : u ≠ k.currp := fun he => by rw [he, hP.currp] at hf; cases hf
    rw [hlist', update_of_ne huc]
    exact h.final u hf
  · rw [hreal']
    exact h.pos u (by rw [← hstate']; exact hf)

/-- The running thread owns nothing more and gets its own priority back. -/
theorem settle (h : Mutexes none (some k.currp) k) (hP : Placed none k)
    (hl : k.mtxlist k.currp = []) :
    Mutexes none none (k.setPrio k.currp (k.realprio k.currp)) := by
  have hno : ∀ w, k.waitFor none w ≠ some k.currp := fun w hw => by
    obtain ⟨-, m, -, ho⟩ := waitFor_eq_some.1 hw
    rw [h.owns, hl] at ho
    cases ho
  have hcw := waitFor_currp hP
  refine ⟨h.owns, h.nodup, h.owned, ⟨fun u => ?_, fun {w u} hw => ?_, fun u _ => ?_⟩, h.final,
    h.pos⟩
  · show k.realprio u ≤ update k.prio k.currp (k.realprio k.currp) u
    by_cases hu : u = k.currp
    · rw [hu, update_self]
    · rw [update_of_ne hu]
      exact h.inherits.real_le u
  · have hw' : k.waitFor none w = some u := hw
    show update k.prio k.currp _ w ≤ update k.prio k.currp _ u
    rw [update_of_ne (fun he => by rw [he, hcw] at hw'; cases hw'),
      update_of_ne (fun he : u = k.currp => hno w (he ▸ hw'))]
    exact h.inherits.wait_le hw'
  · show ∃ w, WaitsFor (k.waitFor none) w u ∧ k.realprio w = update k.prio k.currp _ u
    by_cases hu : u = k.currp
    · exact ⟨u, .refl, by rw [hu, update_self]⟩
    · rw [update_of_ne hu]
      exact h.inherits.attained u fun he => hu (Option.some.inj he).symm

end Mutexes

/-! ## The priority without the mutex -/

theorem newprio_spec (hS : Sorted k) (p : Nat) (l : List Nat) :
    p ≤ k.newprio p l ∧ (∀ m ∈ l, ∀ w ∈ k.queue (.mtx m), k.prio w ≤ k.newprio p l) ∧
      (k.newprio p l = p ∨ ∃ m ∈ l, ∃ w ∈ k.queue (.mtx m), k.prio w = k.newprio p l) := by
  induction l generalizing p with
  | nil => exact ⟨Nat.le_refl _, fun m hm => (nomatch hm), .inl rfl⟩
  | cons m l ih =>
    -- the priority after the first mutex of the list
    have hstep : ∃ p', k.newprio p (m :: l) = k.newprio p' l ∧ p ≤ p' ∧
        (∀ w ∈ k.queue (.mtx m), k.prio w ≤ p') ∧
          (p' = p ∨ ∃ w ∈ k.queue (.mtx m), k.prio w = p') := by
      cases hq : k.queue (.mtx m) with
      | nil =>
        refine ⟨p, ?_, Nat.le_refl _, fun w hw => (nomatch hw), .inl rfl⟩
        rw [newprio, newprio, List.foldl_cons, hq]
      | cons w ws =>
        have hF := hS.mtx m
        rw [hq] at hF
        by_cases hgt : k.prio w > p
        · refine ⟨k.prio w, ?_, Nat.le_of_lt hgt, fun u hu => hF.head_max hu,
            .inr ⟨w, List.mem_cons_self, rfl⟩⟩
          rw [newprio, newprio, List.foldl_cons, hq]
          dsimp only
          rw [if_pos hgt]
        · refine ⟨p, ?_, Nat.le_refl _, fun u hu => ?_, .inl rfl⟩
          · rw [newprio, newprio, List.foldl_cons, hq]
            dsimp only
            rw [if_neg hgt]
          · exact Nat.le_trans (hF.head_max hu) (Nat.le_of_not_lt hgt)
    obtain ⟨p', he, hp, hle, hatt⟩ := hstep
    obtain ⟨h1, h2, h3⟩ := ih p'
    rw [he]
    refine ⟨Nat.le_trans hp h1, fun m' hm' w hw => ?_, ?_⟩
    · rcases List.mem_cons.1 hm' with rfl | hm'
      · exact Nat.le_trans (hle w hw) h1
      · exact h2 m' hm' w hw
    · rcases h3 with h3 | ⟨m', hm', w, hw, h3⟩
      · rcases hatt with hatt | ⟨w, hw, hatt⟩
        · exact .inl (h3.trans hatt)
        · exact .inr ⟨m, List.mem_cons_self, w, hw, hatt.trans h3.symm⟩
      · exact .inr ⟨m', List.mem_cons_of_mem m hm', w, hw, h3⟩

end Kern

end RobotPws.Kernel
