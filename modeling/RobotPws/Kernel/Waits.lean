import RobotPws.Kernel.Frame

/-!
# What the threads wait for

`Waits` ties the state of a thread to what can end its wait: the timer that is running is the one of
a thread with a timeout, a thread that waits for events has none of those it waits for, one that
waits for a message has been sent none.
-/

namespace RobotPws.Kernel

open RobotPws.Lib Function

variable {n : Nat}

/-- The states a thread can be in for a limited time. -/
def TState.Limited : TState n → Prop
  | .sleeping | .wtsem _ | .wtorevt _ | .wtandevt _ | .wtqueue _ => True
  | _ => False

/-- What a thread in this state does when it is back: `c` is what is left of the function. -/
def TState.Rests (c : Option Cont) : TState n → Prop
  | .wtsem _ | .sleeping | .sndmsgq _ | .sndmsg | .wtqueue _ => ∃ b, c = some ⟨.message, b⟩
  | .wtorevt m => ∃ mode check b, c = some ⟨.events mode m check, b⟩ ∧ mode ≠ .all
  | .wtandevt m => ∃ check b, c = some ⟨.events .all m check, b⟩
  | .wtmtx _ => c = none
  | _ => True

theorem TState.Rests.of_runnable {st : TState n} (h : st.Runnable) (c : Option Cont) :
    st.Rests c := by
  rcases h with rfl | rfl <;> trivial

namespace Kern

/-- Of the thread in hand nothing is known that its wait was about. -/
structure Waits (out : Option (Fin n)) (k : Kern n) : Prop where
  nodup : (DeltaList.keys k.vtlist).Nodup
  fits : k.vtlist.Fits
  armed : ∀ t, .thread t ∈ DeltaList.keys k.vtlist →
    (∃ rest, k.cont t = some ⟨rest, true⟩) ∧ ((k.state t).Runnable ∨ (k.state t).Limited)
  timed : ∀ t rest, k.cont t = some ⟨rest, true⟩ → out ≠ some t → ¬ (k.state t).Runnable →
    .thread t ∈ DeltaList.keys k.vtlist
  orevt : ∀ t m, k.state t = .wtorevt m → out ≠ some t → k.epending t &&& m = 0
  andevt : ∀ t m, k.state t = .wtandevt m → out ≠ some t → k.epending t &&& m ≠ m
  wtmsg : ∀ t, k.state t = .wtmsg → out ≠ some t →
    k.queue (.msg t) = [] ∧ k.cont t = some ⟨.take, false⟩
  take : ∀ t timed, k.cont t = some ⟨.take, timed⟩ → (k.state t).Runnable → k.queue (.msg t) ≠ []
  takes : ∀ t timed, k.cont t = some ⟨.take, timed⟩ → (k.state t).Runnable ∨ k.state t = .wtmsg
  final : ∀ t, k.state t = .final → k.queue (.msg t) = []
  rests : ∀ t, (k.state t).Rests (k.cont t)

variable {k k' k₀ : Kern n} {out : Option (Fin n)} {t u : Fin n} {st : TState n} {c : Option Cont}

namespace Waits

theorem congr (h : Waits out k) (hv : k'.vtlist = k.vtlist) (hc : k'.cont = k.cont)
    (hs : k'.state = k.state) (he : k'.epending = k.epending)
    (hq : ∀ t, k'.queue (.msg t) = k.queue (.msg t)) : Waits out k' where
  nodup := by rw [hv]; exact h.nodup
  fits := by rw [hv]; exact h.fits
  armed := by rw [hv, hc, hs]; exact h.armed
  timed := by rw [hv, hc, hs]; exact h.timed
  orevt := by rw [he, hs]; exact h.orevt
  andevt := by rw [he, hs]; exact h.andevt
  wtmsg := fun t => by rw [hs, hq, hc]; exact h.wtmsg t
  take := fun t => by rw [hs, hq, hc]; exact h.take t
  takes := by rw [hs, hc]; exact h.takes
  final := fun t => by rw [hs, hq]; exact h.final t
  rests := by rw [hs, hc]; exact h.rests

theorem weaken (h : Waits none k) (out : Option (Fin n)) : Waits out k :=
  ⟨h.nodup, h.fits, h.armed, fun t r hc _ => h.timed t r hc (by simp),
    fun t m hs _ => h.orevt t m hs (by simp), fun t m hs _ => h.andevt t m hs (by simp),
    fun t hs _ => h.wtmsg t hs (by simp), h.take, h.takes, h.final, h.rests⟩

theorem limited (hs : Sched {t} k k') (hu : u ≠ t) : (k.state u).Runnable ∨ (k.state u).Limited →
    (k'.state u).Runnable ∨ (k'.state u).Limited := by
  rcases hs.state u hu with h1 | ⟨h1, -⟩
  · rw [h1]; exact id
  · exact fun _ => .inl h1

theorem ready (h : Waits (some t) k) (hs : Sched {t} k k') (hr : (k'.state t).Runnable)
    (htake : ∀ timed, k.cont t = some ⟨.take, timed⟩ → k.queue (.msg t) ≠ []) : Waits none k' := by
  have hq : ∀ u, k'.queue (.msg u) = k.queue (.msg u) := fun u => hs.queue _ (by simp)
  have hout : ∀ {u}, u ≠ t → (some t : Option (Fin n)) ≠ some u :=
    fun hu he => hu (Option.some.inj he).symm
  have hnr : ∀ {st : TState n}, k'.state t = st → st.Runnable := fun he => he ▸ hr
  have hne : ∀ {u} {st : TState n}, ¬ st.Runnable → k'.state u = st →
      k.state u = st ∧ (some t : Option (Fin n)) ≠ some u := fun {u st} hst he => by
    have hu : u ≠ t := fun hut => hst (hnr (hut ▸ he))
    exact ⟨(hs.state_iff hu hst).1 he, hout hu⟩
  refine ⟨by rw [hs.still.vtlist]; exact h.nodup, by rw [hs.still.vtlist]; exact h.fits,
    fun u hu => ?_, fun u r hc _ hn => ?_, fun u m hu _ => ?_, fun u m hu _ => ?_,
    fun u hu _ => ?_, fun u b hc hu => ?_, fun u b hc => ?_, fun u hu => ?_, fun u => ?_⟩
  · rw [hs.still.vtlist] at hu
    rw [hs.still.cont]
    refine ⟨(h.armed u hu).1, ?_⟩
    by_cases hut : u = t
    · exact .inl (hut ▸ hr)
    · exact limited hs hut (h.armed u hu).2
  · rw [hs.still.cont] at hc
    rw [hs.still.vtlist]
    have hut : u ≠ t := fun he => hn (he ▸ hr)
    exact h.timed u r hc (hout hut) fun hR => hn ((hs.runnable_iff hut).2 hR)
  · obtain ⟨h1, h2⟩ := hne (by rintro (h | h) <;> cases h) hu
    rw [hs.still.epending]
    exact h.orevt u m h1 h2
  · obtain ⟨h1, h2⟩ := hne (by rintro (h | h) <;> cases h) hu
    rw [hs.still.epending]
    exact h.andevt u m h1 h2
  · obtain ⟨h1, h2⟩ := hne (by rintro (h | h) <;> cases h) hu
    rw [hq, hs.still.cont]
    exact h.wtmsg u h1 h2
  · rw [hs.still.cont] at hc
    rw [hq]
    by_cases hut : u = t
    · subst hut
      exact htake b hc
    · exact h.take u b hc ((hs.runnable_iff hut).1 hu)
  · rw [hs.still.cont] at hc
    by_cases hut : u = t
    · exact .inl (hut ▸ hr)
    · rcases h.takes u b hc with hR | hw
      · exact .inl ((hs.runnable_iff hut).2 hR)
      · exact .inr ((hs.state_iff hut (by rintro (h | h) <;> cases h)).2 hw)
  · rw [hq]
    exact h.final u (hne (by rintro (h | h) <;> cases h) hu).1
  · rw [hs.still.cont]
    by_cases hut : u = t
    · exact .of_runnable (hut ▸ hr) _
    · rcases hs.state u hut with h1 | ⟨h1, -⟩
      · rw [h1]
        exact h.rests u
      · exact .of_runnable h1 _

theorem switch (h : Waits none k) (hs : Sched ∅ k k') (hc : k.state k.currp = .current)
    (htake : k.cont k.currp = none) : Waits none k' := by
  have hs' : Sched {k.currp} k k' := ⟨hs.still, hs.queue, fun u _ => hs.state u (by simp)⟩
  refine (h.weaken (some k.currp)).ready hs' ?_ fun b hb => ?_
  · exact (hs.runnable_iff (by simp)).2 (.inr hc)
  · rw [htake] at hb
    cases hb

/-- The running thread goes to sleep in the state `st`, with `c` before it. -/
theorem sleep (h : Waits none k₀) (hc₀ : k₀.cont k₀.currp = none)
    (hs : Sched {k₀.currp} k k') (hst : k'.state k₀.currp = st)
    (hstate : k.state = k₀.state) (hcont : k.cont = update k₀.cont k₀.currp c)
    (hvt : k.vtlist = k₀.vtlist ∧ (∀ rest, c ≠ some ⟨rest, true⟩) ∨
      ∃ time rest, k.vtlist = k₀.vtlist.chVTSetI (.thread k₀.currp) time ∧ c = some ⟨rest, true⟩ ∧
        st.Limited)
    (hep : k.epending = k₀.epending) (hq : ∀ u, k.queue (.msg u) = k₀.queue (.msg u))
    (hnr : ¬ st.Runnable) (hnf : st ≠ .final)
    (hor : ∀ m, st = .wtorevt m → k₀.epending k₀.currp &&& m = 0)
    (hand : ∀ m, st = .wtandevt m → k₀.epending k₀.currp &&& m ≠ m)
    (hmsg : st = .wtmsg → k₀.queue (.msg k₀.currp) = [] ∧ c = some ⟨.take, false⟩)
    (htake : ∀ timed, c = some ⟨.take, timed⟩ → st = .wtmsg) (hrests : st.Rests c) :
    Waits none k' := by
  have hq' : ∀ u, k'.queue (.msg u) = k₀.queue (.msg u) := fun u =>
    (hs.queue _ (by simp)).trans (hq u)
  have hcont' : k'.cont = update k₀.cont k₀.currp c := hs.still.cont.trans hcont
  have hep' : k'.epending = k₀.epending := hs.still.epending.trans hep
  have hstate' : ∀ {u : Fin n} {st : TState n}, u ≠ k₀.currp → ¬ st.Runnable →
      (k'.state u = st ↔ k₀.state u = st) := fun hu hn => by rw [hs.state_iff hu hn, hstate]
  have hrun' : ∀ {u}, u ≠ k₀.currp → ((k'.state u).Runnable ↔ (k₀.state u).Runnable) :=
    fun hu => by rw [hs.runnable_iff hu, hstate]
  -- the running thread had no timer
  have hno : .thread k₀.currp ∉ DeltaList.keys k₀.vtlist := fun hm => by
    obtain ⟨⟨r, hr⟩, -⟩ := h.armed _ hm
    rw [hc₀] at hr
    cases hr
  have hkeys : ∀ {x}, x ∈ DeltaList.keys k'.vtlist ↔
      x ∈ DeltaList.keys k₀.vtlist ∨ x = .thread k₀.currp ∧ ∃ rest, c = some ⟨rest, true⟩ := by
    intro x
    rw [hs.still.vtlist]
    rcases hvt with ⟨hv, hc⟩ | ⟨time, rest, hv, hc, -⟩
    · rw [hv]
      refine ⟨.inl, fun hx => hx.resolve_right ?_⟩
      rintro ⟨-, r, hr⟩
      exact hc r hr
    · rw [hv, VTList.chVTSetI, (DeltaList.keys_insert _ _ _).mem_iff, List.mem_cons, or_comm]
      simp [hc]
  refine ⟨?_, ?_, fun u hu => ?_, fun u r hc _ hn => ?_, fun u m hu _ => ?_, fun u m hu _ => ?_,
    fun u hu _ => ?_, fun u b hc hu => ?_, fun u b hc => ?_, fun u hu => ?_, fun u => ?_⟩
  · rw [hs.still.vtlist]
    rcases hvt with ⟨hv, -⟩ | ⟨time, rest, hv, -, -⟩
    · rw [hv]; exact h.nodup
    · rw [hv, VTList.chVTSetI, (DeltaList.keys_insert _ _ _).nodup_iff]
      exact List.nodup_cons.2 ⟨hno, h.nodup⟩
  · rw [hs.still.vtlist]
    rcases hvt with ⟨hv, -⟩ | ⟨time, rest, hv, -, -⟩
    · rw [hv]; exact h.fits
    · rw [hv]; exact h.fits.set time
  · by_cases huc : u = k₀.currp
    · subst huc
      rw [hcont', update_self, hst]
      rcases hkeys.1 hu with hm | ⟨-, r, hr⟩
      · exact (hno hm).elim
      · refine ⟨⟨r, hr⟩, .inr ?_⟩
        rcases hvt with ⟨-, hc⟩ | ⟨-, -, -, -, hl⟩
        · exact (hc r hr).elim
        · exact hl
    · have hm := (hkeys.1 hu).resolve_right fun he => huc (by cases he.1; rfl)
      obtain ⟨h1, h2⟩ := h.armed u hm
      rw [hcont', update_of_ne huc]
      exact ⟨h1, limited hs huc (by rw [hstate]; exact h2)⟩
  · rw [hcont'] at hc
    by_cases huc : u = k₀.currp
    · subst huc
      rw [update_self] at hc
      exact hkeys.2 (.inr ⟨rfl, r, hc⟩)
    · rw [update_of_ne huc] at hc
      exact hkeys.2 (.inl (h.timed u r hc (by simp) fun hR => hn ((hrun' huc).2 hR)))
  · rw [hep']
    by_cases huc : u = k₀.currp
    · rw [huc]
      exact hor m (by rw [← hst, ← huc, hu])
    · exact h.orevt u m ((hstate' huc (by rintro (h | h) <;> cases h)).1 hu) (by simp)
  · rw [hep']
    by_cases huc : u = k₀.currp
    · rw [huc]
      exact hand m (by rw [← hst, ← huc, hu])
    · exact h.andevt u m ((hstate' huc (by rintro (h | h) <;> cases h)).1 hu) (by simp)
  · rw [hq', hcont']
    by_cases huc : u = k₀.currp
    · rw [huc, update_self]
      exact hmsg (by rw [← hst, ← huc, hu])
    · rw [update_of_ne huc]
      exact h.wtmsg u ((hstate' huc (by rintro (h | h) <;> cases h)).1 hu) (by simp)
  · rw [hcont'] at hc
    rw [hq']
    by_cases huc : u = k₀.currp
    · rw [huc, hst] at hu
      exact (hnr hu).elim
    · rw [update_of_ne huc] at hc
      exact h.take u b hc ((hrun' huc).1 hu)
  · rw [hcont'] at hc
    by_cases huc : u = k₀.currp
    · rw [huc, update_self] at hc
      rw [huc, hst]
      exact .inr (htake b hc)
    · rw [update_of_ne huc] at hc
      rcases h.takes u b hc with hR | hw
      · exact .inl ((hrun' huc).2 hR)
      · exact .inr ((hstate' huc (by rintro (h | h) <;> cases h)).2 hw)
  · rw [hq']
    have huc : u ≠ k₀.currp := fun he => hnf (by rw [← hst, ← he, hu])
    exact h.final u ((hstate' huc (by rintro (h | h) <;> cases h)).1 hu)
  · rw [hcont']
    by_cases huc : u = k₀.currp
    · rw [huc, update_self, hst]
      exact hrests
    · rw [update_of_ne huc]
      rcases hs.state u huc with h1 | ⟨h1, -⟩
      · rw [h1, hstate]
        exact h.rests u
      · exact .of_runnable h1 _

/-! ## The timers -/

theorem vtlist (h : Waits out k) {l : VTList (Timer n)} (hn : (DeltaList.keys l).Nodup)
    (hf : VTList.Fits l)
    (hk : ∀ t, .thread t ∈ DeltaList.keys l ↔ .thread t ∈ DeltaList.keys k.vtlist) :
    Waits out { k with vtlist := l } :=
  ⟨hn, hf, fun t ht => h.armed t ((hk t).1 ht),
    fun t r hc ho hr => (hk t).2 (h.timed t r hc ho hr), h.orevt, h.andevt, h.wtmsg, h.take,
    h.takes, h.final, h.rests⟩

theorem vtSet (h : Waits out k) {vtp : Nat} (hv : .user vtp ∉ DeltaList.keys k.vtlist)
    (time : UInt32) :
    Waits out { k with vtlist := k.vtlist.chVTSetI (.user vtp) time } := by
  have hp := DeltaList.keys_insert (Timer.user vtp) time.toNat k.vtlist
  refine h.vtlist ?_ (h.fits.set time) fun t => ?_
  · exact hp.nodup_iff.2 (List.nodup_cons.2 ⟨hv, h.nodup⟩)
  · rw [VTList.chVTSetI, hp.mem_iff, List.mem_cons, or_iff_right (by simp)]

theorem fits_chVTResetI {τ : Type} [DecidableEq τ] {l : VTList τ} (h : l.Fits) (vtp : τ) :
    (l.chVTResetI vtp).Fits := by
  rw [VTList.chVTResetI_eq h]
  exact Nat.lt_of_le_of_lt (DeltaList.total_remove_le vtp l) h

theorem vtReset (h : Waits out k) (vtp : Nat) :
    Waits out { k with vtlist := k.vtlist.chVTResetI (.user vtp) } := by
  refine h.vtlist ?_ (fits_chVTResetI h.fits _) fun t => ?_
  · rw [VTList.keys_chVTResetI]
    exact h.nodup.erase _
  · rw [VTList.keys_chVTResetI, List.mem_erase_of_ne (by simp)]

theorem tick (h : Waits out k) (he : k.vtlist.expired = none) :
    Waits out { k with vtlist := k.vtlist.decrement } := by
  refine h.vtlist ?_ ?_ fun t => ?_
  · rw [VTList.keys_decrement]; exact h.nodup
  · rw [VTList.decrement_eq (VTList.early_of_expired he) h.fits]
    exact Nat.lt_of_le_of_lt (DeltaList.total_tick_le _) h.fits
  · rw [VTList.keys_decrement]

theorem pop_fits {τ : Type} {x : τ} {l l' : VTList τ} (h : l.Fits) (he : l = (x, 0) :: l') :
    VTList.Fits l' := by
  rw [he, VTList.Fits, DeltaList.total_cons] at h
  rw [VTList.Fits]
  omega

theorem popUser (h : Waits out k) {vtp : Nat} {l : VTList (Timer n)}
    (he : k.vtlist = (.user vtp, 0) :: l) : Waits out { k with vtlist := l } := by
  have hn := h.nodup
  rw [he, DeltaList.keys_cons] at hn
  refine h.vtlist (List.nodup_cons.1 hn).2 (pop_fits h.fits he) fun t => ?_
  rw [he, DeltaList.keys_cons, List.mem_cons, or_iff_right (by simp)]

/-- The timer of a thread has expired, and the thread is in hand. -/
theorem popThread (h : Waits out k) (ho : ∀ u, u ≠ t → out ≠ some u) {l : VTList (Timer n)}
    (he : k.vtlist = (.thread t, 0) :: l) : Waits (some t) { k with vtlist := l } := by
  have hn := h.nodup
  rw [he, DeltaList.keys_cons] at hn
  have hout : ∀ {u}, (some t : Option (Fin n)) ≠ some u → out ≠ some u :=
    fun hu => ho _ fun hut => hu (by rw [hut])
  have hk : ∀ {u}, u ≠ t → (.thread u ∈ DeltaList.keys l ↔ .thread u ∈ DeltaList.keys k.vtlist) :=
    fun {u} hu => by
      rw [he, DeltaList.keys_cons, List.mem_cons, or_iff_right]
      rintro ⟨⟩
      exact hu rfl
  have hsub : ∀ {x}, x ∈ DeltaList.keys l → x ∈ DeltaList.keys k.vtlist := fun hx => by
    rw [he, DeltaList.keys_cons]
    exact List.mem_cons_of_mem _ hx
  refine ⟨(List.nodup_cons.1 hn).2, pop_fits h.fits he, fun u hu => h.armed u (hsub hu),
    fun u r hc hu hr => ?_, fun u m hs hu => h.orevt u m hs (hout hu),
    fun u m hs hu => h.andevt u m hs (hout hu), fun u hs hu => h.wtmsg u hs (hout hu), h.take,
    h.takes, h.final, h.rests⟩
  exact (hk fun hut => hu (by rw [hut])).2 (h.timed u r hc (hout hu) hr)

theorem popReady (h : Waits none k) {l : VTList (Timer n)} (he : k.vtlist = (.thread t, 0) :: l)
    (hr : (k.state t).Runnable) : Waits none { k with vtlist := l } := by
  have h' := h.popThread (t := t) (by simp) he
  have hns : ∀ {u} {st : TState n}, k.state u = st → ¬ st.Runnable →
      (some t : Option (Fin n)) ≠ some u := fun hs hn hu => by
    cases hu
    exact hn (hs ▸ hr)
  exact ⟨h'.nodup, h'.fits, h'.armed,
    fun u r hc _ hn => h'.timed u r hc (hns rfl hn) hn,
    fun u m hs _ => h'.orevt u m hs (hns hs (by rintro (h | h) <;> cases h)),
    fun u m hs _ => h'.andevt u m hs (hns hs (by rintro (h | h) <;> cases h)),
    fun u hs _ => h'.wtmsg u hs (hns hs (by rintro (h | h) <;> cases h)), h'.take, h'.takes,
    h'.final, h'.rests⟩

/-! ## The running thread -/

/-- The running thread is back from its wait; its timer, if it is still running, is reset. -/
theorem disarm (h : Waits none k) (hcur : k.state k.currp = .current)
    {rest : Rest} {timed : Bool}
    (hc : k.cont k.currp = some ⟨rest, timed⟩) :
    Waits none ((k.disarm timed).setCont k.currp none) := by
  have hrest : ((k.disarm timed).setCont k.currp none).cont = update k.cont k.currp none := by
    unfold Kern.disarm
    split <;> rfl
  have hstate : ((k.disarm timed).setCont k.currp none).state = k.state := by
    unfold Kern.disarm
    split <;> rfl
  have hep : ((k.disarm timed).setCont k.currp none).epending = k.epending := by
    unfold Kern.disarm
    split <;> rfl
  have hq : ((k.disarm timed).setCont k.currp none).queue = k.queue := by
    unfold Kern.disarm
    split <;> rfl
  have hvt : ((k.disarm timed).setCont k.currp none).vtlist =
      k.vtlist.chVTResetI (.thread k.currp) ∨ .thread k.currp ∉ DeltaList.keys k.vtlist ∧
        ((k.disarm timed).setCont k.currp none).vtlist = k.vtlist := by
    unfold Kern.disarm
    split
    · exact .inl rfl
    · next hn =>
      refine .inr ⟨fun hm => hn ⟨?_, hm⟩, rfl⟩
      obtain ⟨⟨r, hr⟩, -⟩ := h.armed _ hm
      rw [hc] at hr
      cases hr
      rfl
  have hkeys : ∀ {x}, x ∈ DeltaList.keys ((k.disarm timed).setCont k.currp none).vtlist ↔
      x ≠ .thread k.currp ∧ x ∈ DeltaList.keys k.vtlist := by
    intro x
    rcases hvt with hv | ⟨hn, hv⟩ <;> rw [hv]
    · rw [VTList.keys_chVTResetI, h.nodup.mem_erase_iff]
    · exact ⟨fun hx => ⟨fun he => hn (he ▸ hx), hx⟩, And.right⟩
  have hne : ∀ {u} {st : TState n}, st ≠ .current → k.state u = st → u ≠ k.currp :=
    fun hst hu he => hst (by rw [← hu, he, hcur])
  refine ⟨?_, ?_, fun u hu => ?_, fun u r hcu _ hn => ?_, fun u m hu ho => ?_, fun u m hu ho => ?_,
    fun u hu ho => ?_, fun u b hcu hu => ?_, fun u b hcu => ?_, fun u hu => ?_, fun u => ?_⟩
  · rcases hvt with hv | ⟨-, hv⟩ <;> rw [hv]
    · rw [VTList.keys_chVTResetI]; exact h.nodup.erase _
    · exact h.nodup
  · rcases hvt with hv | ⟨-, hv⟩ <;> rw [hv]
    · exact fits_chVTResetI h.fits _
    · exact h.fits
  · obtain ⟨h1, h2⟩ := hkeys.1 hu
    rw [hrest, hstate, update_of_ne (fun he => h1 (by rw [he]))]
    exact h.armed u h2
  · rw [hrest] at hcu
    rw [hstate] at hn
    have huc : u ≠ k.currp := fun he => by rw [he, update_self] at hcu; cases hcu
    rw [update_of_ne huc] at hcu
    refine hkeys.2 ⟨fun he => ?_, h.timed u r hcu (by simp) hn⟩
    cases he
    exact huc rfl
  · rw [hstate] at hu
    rw [hep]
    exact h.orevt u m hu ho
  · rw [hstate] at hu
    rw [hep]
    exact h.andevt u m hu ho
  · rw [hstate] at hu
    rw [hq, hrest, update_of_ne (hne (by simp) hu)]
    exact h.wtmsg u hu ho
  · rw [hrest] at hcu
    rw [hstate] at hu
    have huc : u ≠ k.currp := fun he => by rw [he, update_self] at hcu; cases hcu
    rw [update_of_ne huc] at hcu
    rw [hq]
    exact h.take u b hcu hu
  · rw [hrest] at hcu
    have huc : u ≠ k.currp := fun he => by rw [he, update_self] at hcu; cases hcu
    rw [update_of_ne huc] at hcu
    rw [hstate]
    exact h.takes u b hcu
  · rw [hstate] at hu
    rw [hq]
    exact h.final u hu
  · rw [hstate, hrest]
    by_cases huc : u = k.currp
    · rw [huc, hcur]
      trivial
    · rw [update_of_ne huc]
      exact h.rests u

theorem setEpending (h : Waits none k) (hcur : k.state k.currp = .current) (m : EventMask) :
    Waits none (k.setEpending k.currp m) := by
  have hne : ∀ {u} {st : TState n}, st ≠ .current → k.state u = st →
      update k.epending k.currp m u = k.epending u :=
    fun hst hu => update_of_ne (fun he => hst (by rw [← hu, he, hcur])) ..
  refine ⟨h.nodup, h.fits, h.armed, h.timed, fun u w hu ho => ?_, fun u w hu ho => ?_, h.wtmsg,
    h.take, h.takes, h.final, h.rests⟩
  · show update k.epending k.currp m u &&& w = 0
    rw [hne (by simp) hu]
    exact h.orevt u w hu ho
  · show update k.epending k.currp m u &&& w ≠ w
    rw [hne (by simp) hu]
    exact h.andevt u w hu ho

theorem takeMsg (h : Waits none k) (hcur : k.state k.currp = .current)
    (hc : k.cont k.currp = none) (hk : k'.state = update k.state t .sndmsg)
    (ht : k.state t = .sndmsgq k.currp) (hv : k'.vtlist = k.vtlist) (hcont : k'.cont = k.cont)
    (hep : k'.epending = k.epending)
    (hq : ∀ u, u ≠ k.currp → k'.queue (.msg u) = k.queue (.msg u)) : Waits none k' := by
  have hne : ∀ {u} {st : TState n}, st ≠ .sndmsg → k'.state u = st → k.state u = st := by
    intro u st hst hu
    rw [hk] at hu
    by_cases hut : u = t
    · rw [hut, update_self] at hu
      exact (hst hu.symm).elim
    · rw [update_of_ne hut] at hu
      exact hu
  have hrun : ∀ {u}, (k'.state u).Runnable → (k.state u).Runnable := by
    rintro u (hu | hu)
    · exact .inl (hne (by simp) hu)
    · exact .inr (hne (by simp) hu)
  have hrun' : ∀ {u}, (k.state u).Runnable → k'.state u = k.state u := by
    intro u hu
    rw [hk, update_of_ne]
    rintro rfl
    rw [ht] at hu
    rcases hu with hu | hu <;> cases hu
  have hnc : ∀ {u} {st : TState n}, st ≠ .current → k.state u = st → u ≠ k.currp :=
    fun hst hu he => hst (by rw [← hu, he, hcur])
  refine ⟨by rw [hv]; exact h.nodup, by rw [hv]; exact h.fits, fun u hu => ?_,
    fun u r hcu _ hn => ?_, fun u m hu ho => ?_, fun u m hu ho => ?_, fun u hu ho => ?_,
    fun u b hcu hu => ?_, fun u b hcu => ?_, fun u hu => ?_, fun u => ?_⟩
  · rw [hv] at hu
    obtain ⟨h1, h2⟩ := h.armed u hu
    rw [hcont]
    refine ⟨h1, ?_⟩
    have : k'.state u = k.state u := by
      rw [hk, update_of_ne]
      rintro rfl
      rw [ht] at h2
      rcases h2 with (h2 | h2) | h2 <;> cases h2
    rw [this]
    exact h2
  · rw [hcont] at hcu
    rw [hv]
    exact h.timed u r hcu (by simp) fun hR => hn (by rw [hrun' hR]; exact hR)
  · rw [hep]
    exact h.orevt u m (hne (by simp) hu) ho
  · rw [hep]
    exact h.andevt u m (hne (by simp) hu) ho
  · have hu' := hne (by simp) hu
    rw [hq u (hnc (by simp) hu'), hcont]
    exact h.wtmsg u hu' ho
  · rw [hcont] at hcu
    have huc : u ≠ k.currp := fun he => by rw [he, hc] at hcu; cases hcu
    rw [hq u huc]
    exact h.take u b hcu (hrun hu)
  · rw [hcont] at hcu
    rcases h.takes u b hcu with hR | hw
    · exact .inl (by rw [hrun' hR]; exact hR)
    · right
      rw [hk, update_of_ne]
      · exact hw
      · rintro rfl
        rw [ht] at hw
        cases hw
  · have hu' := hne (by simp) hu
    rw [hq u (hnc (by simp) hu')]
    exact h.final u hu'
  · have hrt := h.rests t
    rw [ht] at hrt
    rw [hk, hcont]
    by_cases hut : u = t
    · rw [hut, update_self]
      exact hrt
    · rw [update_of_ne hut]
      exact h.rests u

/-! ## Other threads -/

/-- More events are pending for a thread that still waits for others. -/
theorem signal (h : Waits none k) {m : EventMask}
    (hor : ∀ w, k.state t = .wtorevt w → m &&& w = 0)
    (hand : ∀ w, k.state t = .wtandevt w → m &&& w ≠ w) : Waits none (k.setEpending t m) := by
  refine ⟨h.nodup, h.fits, h.armed, h.timed, fun u w hu ho => ?_, fun u w hu ho => ?_, h.wtmsg,
    h.take, h.takes, h.final, h.rests⟩
  · show update k.epending t m u &&& w = 0
    by_cases hut : u = t
    · rw [hut, update_self]
      exact hor w (by rw [← hut]; exact hu)
    · rw [update_of_ne hut]
      exact h.orevt u w hu ho
  · show update k.epending t m u &&& w ≠ w
    by_cases hut : u = t
    · rw [hut, update_self]
      exact hand w (by rw [← hut]; exact hu)
    · rw [update_of_ne hut]
      exact h.andevt u w hu ho

theorem signalHand (h : Waits none k) (t : Fin n) (m : EventMask) :
    Waits (some t) (k.setEpending t m) := by
  have hne : ∀ {u}, (some t : Option (Fin n)) ≠ some u → update k.epending t m u = k.epending u :=
    fun hu => update_of_ne (fun he => hu (by rw [he])) ..
  refine ⟨h.nodup, h.fits, h.armed, fun u r hc _ hr => h.timed u r hc (by simp) hr,
    fun u w hu ho => ?_, fun u w hu ho => ?_, fun u hs _ => h.wtmsg u hs (by simp), h.take, h.takes,
    h.final, h.rests⟩
  · show update k.epending t m u &&& w = 0
    rw [hne ho]
    exact h.orevt u w hu (by simp)
  · show update k.epending t m u &&& w ≠ w
    rw [hne ho]
    exact h.andevt u w hu (by simp)

/-- A message is sent to `t`, who does not wait for one or is in hand. -/
theorem sendTo (h : Waits none k) {l : List (Fin n)} (hl : l ≠ [])
    (ht : k.state t ≠ .wtmsg ∨ out = some t) (hf : k.state t ≠ .final) :
    Waits out (k.setQueue (.msg t) l) := by
  have hq : ∀ {u}, u ≠ t → (k.setQueue (.msg t) l).queue (.msg u) = k.queue (.msg u) :=
    fun hu => queue_setQueue_of_ne (by simpa using hu) ..
  refine ⟨h.nodup, h.fits, h.armed, fun u r hc _ hr => h.timed u r hc (by simp) hr,
    fun u w hu _ => h.orevt u w hu (by simp), fun u w hu _ => h.andevt u w hu (by simp),
    fun u hu ho => ?_, fun u b hc hu => ?_, h.takes, fun u hu => ?_, h.rests⟩
  · have hut : u ≠ t := by
      rintro rfl
      exact ht.elim (fun hn => hn hu) ho
    rw [hq hut]
    exact h.wtmsg u hu (by simp)
  · by_cases hut : u = t
    · subst hut
      rw [queue_setQueue_self]
      exact hl
    · rw [hq hut]
      exact h.take u b hc hu
  · have hut : u ≠ t := fun he => hf (he ▸ hu)
    rw [hq hut]
    exact h.final u hu

theorem threadInit (h : Waits none k) (hf : k.state t = .final) (p : Nat) :
    Waits none (k.threadInit t p) := by
  have hs : ∀ {u} {st : TState n}, st ≠ .suspended → (k.threadInit t p).state u = st →
      u ≠ t ∧ k.state u = st := by
    intro u st hst hu
    have hut : u ≠ t := by
      rintro rfl
      have hsus : (k.threadInit u p).state u = .suspended := update_self u _ k.state
      exact hst (hu.symm.trans hsus)
    exact ⟨hut, by rw [← hu]; exact (update_of_ne hut ..).symm⟩
  have hr : ∀ {u}, ((k.threadInit t p).state u).Runnable → u ≠ t ∧ (k.state u).Runnable := by
    rintro u (hu | hu)
    · exact (hs (by simp) hu).imp_right .inl
    · exact (hs (by simp) hu).imp_right .inr
  have hc : ∀ {u c}, (k.threadInit t p).cont u = some c → u ≠ t ∧ k.cont u = some c := by
    intro u c hu
    have hut : u ≠ t := by
      rintro rfl
      have : (k.threadInit u p).cont u = none := update_self ..
      rw [this] at hu
      cases hu
    exact ⟨hut, by rw [← hu]; exact (update_of_ne hut ..).symm⟩
  have hst : ∀ {u}, u ≠ t → (k.threadInit t p).state u = k.state u := fun hu => update_of_ne hu ..
  have hep : ∀ {u}, u ≠ t → (k.threadInit t p).epending u = k.epending u :=
    fun hu => update_of_ne hu ..
  have hq : ∀ {u}, u ≠ t → (k.threadInit t p).queue (.msg u) = k.queue (.msg u) :=
    fun hu => update_of_ne (by simpa using hu) ..
  refine ⟨h.nodup, h.fits, fun u hu => ?_, fun u r hcu _ hn => ?_, fun u m hu ho => ?_,
    fun u m hu ho => ?_, fun u hu ho => ?_, fun u b hcu hu => ?_, fun u b hcu => ?_, fun u hu => ?_,
    fun u => ?_⟩
  · obtain ⟨h1, h2⟩ := h.armed u hu
    have hut : u ≠ t := by
      rintro rfl
      rw [hf] at h2
      rcases h2 with (h2 | h2) | h2 <;> cases h2
    rw [hst hut]
    exact ⟨by rw [show (k.threadInit t p).cont u = k.cont u from update_of_ne hut ..]; exact h1, h2⟩
  · obtain ⟨hut, hcu⟩ := hc hcu
    rw [hst hut] at hn
    exact h.timed u r hcu (by simp) hn
  · obtain ⟨hut, hu⟩ := hs (by simp) hu
    rw [hep hut]
    exact h.orevt u m hu ho
  · obtain ⟨hut, hu⟩ := hs (by simp) hu
    rw [hep hut]
    exact h.andevt u m hu ho
  · obtain ⟨hut, hu⟩ := hs (by simp) hu
    rw [hq hut, show (k.threadInit t p).cont u = k.cont u from update_of_ne hut ..]
    exact h.wtmsg u hu ho
  · obtain ⟨hut, hu⟩ := hr hu
    rw [hq hut]
    exact h.take u b (hc hcu).2 hu
  · obtain ⟨hut, hcu⟩ := hc hcu
    rw [hst hut]
    exact h.takes u b hcu
  · obtain ⟨hut, hu⟩ := hs (by simp) hu
    rw [hq hut]
    exact h.final u hu
  · by_cases hut : u = t
    · have hsus : (k.threadInit u p).state u = .suspended := update_self u _ k.state
      rw [← hut, hsus]
      trivial
    · rw [hst hut, show (k.threadInit t p).cont u = k.cont u from update_of_ne hut ..]
      exact h.rests u

end Waits

end Kern

end RobotPws.Kernel
