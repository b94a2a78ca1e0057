import RobotPws.Sonar.Sending

/-!
# The error callback inside the interrupt

`adcerrorcallback` formats the error into the static `string` and calls `wiflySend`, all in the
handler of the interrupt: a call that waits suspends the thread that was interrupted. A reply that
was being sent goes on with the same `string`, behind the six characters the callback has put into
the output queue. The USART cannot interrupt the handler, its priority is lower, so nothing happens
while it runs.
-/

namespace RobotPws.Sonar

open RobotPws.Lib RobotPws.Kernel RobotPws.Hal RobotPws.Main RobotPws.Wifly

/-- The thread that was running. -/
inductive Current where
  | main
  | idle
  | wifly
  deriving DecidableEq, Repr

/-- The calls that put the current thread in a wait queue or to sleep. -/
inductive Wait where
  /-- `msg_insert` and `chSchGoSleepS` in `chMsgSend` -/
  | chMsgSend
  /-- `qwait` in `chOQWriteTimeout` -/
  | qwait
  /-- `chSchGoSleepS` in `chEvtWaitOne` -/
  | chEvtWaitOne
  deriving DecidableEq, Repr

/-- `sdWrite`: byte by byte, as long as the output queue has room. -/
def sdWrite (sd : SerialDriver) : List UInt8 → Except Wait SerialDriver
  | [] => .ok sd
  | b :: bs =>
    match sd.sdWriteByte b with
    | none => .error .qwait
    | some sd => sdWrite sd bs

/-- The loop of `wifly_send` over the events of the driver. -/
def waitEmpty (sd : SerialDriver) : Except Wait SerialDriver :=
  if _h : sd.epending = true then
    let r := { sd with epending := false }.chEvtGetAndClearFlags
    if hasFlag r.1 chnOutputEmpty then .ok r.2 else waitEmpty r.2
  else .error .chEvtWaitOne
termination_by sd.epending.toNat
decreasing_by rw [_h]; exact Nat.zero_lt_one

def wifly_send (sd : SerialDriver) (msg : List UInt8) : Except Wait SerialDriver :=
  if msg = [] then .ok sd else (sdWrite sd msg).bind waitEmpty

def wiflySend (current : Current) (sd : SerialDriver) (msg : List UInt8) :
    Except Wait SerialDriver :=
  if msg = [] then .ok sd
  else if current = .wifly then wifly_send sd msg
  else .error .chMsgSend

/-- When the callback is called: the thread that was running, `string`, the driver SD2 and the
reply on its way, if there is one, with the output before it. -/
structure Moment where
  current : Current
  string : CArray UInt8 7
  sd : SerialDriver
  reply : Option Reply
  start : List UInt8
  going : ∀ r ∈ reply, Sending.Going start ⟨string, sd, r⟩

namespace Moment

/-- `wiflySend(itoa(err))` -/
def callback (m : Moment) (err : AdcError) : Except Wait SerialDriver :=
  wiflySend m.current m.sd (itoaStores m.string err.code).text

/-- The callback comes back without waiting. Once the reply is complete, its bytes and those of the
callback have been given to the driver one behind the other. -/
structure Harmless (m : Moment) (err : AdcError) : Prop where
  returns : ∃ sd, m.callback err = .ok sd
  reply : ∀ sd r as s, m.callback err = .ok sd → r ∈ m.reply →
    Steps Sending.step Always ⟨(itoaStores m.string err.code).array, sd, r⟩ as s →
    s.reply.Complete →
    Output s.sd (m.start ++ (cText (itoa r.value) ++ itoa err.code)) ∨
      Output s.sd (m.start ++ (itoa err.code ++ cText (itoa r.value)))

/-- The wifly thread was running, the output queue has room for six characters and
`CHN_OUTPUT_EMPTY` is pending; the reply has put all its characters, or none of them and what it
would read from `string` with `itoa(err)` in it is its text all the same. -/
structure Undisturbed (m : Moment) (err : AdcError) : Prop where
  current : m.current = .wifly
  room : 6 ≤ m.sd.oqueue.qCounter
  pending : m.sd.epending = true
  empty : hasFlag m.sd.elFlags chnOutputEmpty = true
  reply : ∀ r ∈ m.reply, r.Complete ∨
    r.put = 0 ∧ r.unread (itoa err.code ++ [0]) = cText (itoa r.value)

end Moment

/-- Every point of the send path is a moment, whichever thread is running there. -/
theorem exists_moment (current : Current) {string : CArray UInt8 7} {sd : SerialDriver}
    {value : Int} {start : List UInt8} {as : List SendLabel} {t : Sending}
    (hstart : Output sd start)
    (hs : Steps Sending.step Always ⟨string, sd, value, .format 0⟩ as t) :
    ∃ m : Moment, m.current = current ∧ m.string = t.string ∧ m.sd = t.sd ∧
      m.reply = some t.reply ∧ m.start = start := by
  refine ⟨⟨current, t.string, t.sd, some t.reply, start, ?_⟩, rfl, rfl, rfl, rfl, rfl⟩
  rintro r hr
  cases hr
  exact (Sending.run_going hstart hs).1

/-! ## The call of `wiflySend` -/

theorem sdWrite_error {sd : SerialDriver} {msg : List UInt8}
    (h : sd.oqueue.qCounter < msg.length) : sdWrite sd msg = .error .qwait := by
  induction msg generalizing sd with
  | nil => exact absurd h (Nat.not_lt_zero _)
  | cons b bs ih =>
    rw [List.length_cons] at h
    unfold sdWrite
    cases hb : sd.sdWriteByte b with
    | none => rfl
    | some sd' =>
      have := (sdWriteByte_some hb).1
      exact ih (by omega)

theorem sdWrite_ok {sd : SerialDriver} {msg : List UInt8}
    (h : msg.length ≤ sd.oqueue.qCounter) : ∃ sd', sdWrite sd msg = .ok sd' ∧
      sd'.epending = sd.epending ∧ sd'.elFlags = sd.elFlags := by
  induction msg generalizing sd with
  | nil => exact ⟨sd, rfl, rfl, rfl⟩
  | cons b bs ih =>
    rw [List.length_cons] at h
    unfold sdWrite
    cases hb : sd.sdWriteByte b with
    | none =>
      have := (sdWriteByte_none_iff sd b).1 hb
      omega
    | some sd' =>
      obtain ⟨hroom, hpend, hflags, -⟩ := sdWriteByte_some hb
      have hroom' : bs.length ≤ sd'.oqueue.qCounter := by omega
      obtain ⟨sd'', hw, hp, hf⟩ := ih hroom'
      exact ⟨sd'', hw, hp.trans hpend, hf.trans hflags⟩

theorem sdWrite_output {sd sd' : SerialDriver} {msg bs : List UInt8} (h : sdWrite sd msg = .ok sd')
    (hout : Output sd bs) : Output sd' (bs ++ msg) ∧
      ((msg = [] → sd.cr1.txeie = true) → sd'.cr1.txeie = true) := by
  induction msg generalizing sd bs with
  | nil =>
    cases h
    exact ⟨(List.append_nil bs).symm ▸ hout, fun h => h rfl⟩
  | cons b msg ih =>
    unfold sdWrite at h
    cases hb : sd.sdWriteByte b with
    | none =>
      rw [hb] at h
      cases h
    | some d =>
      rw [hb] at h
      obtain ⟨hout', he⟩ := ih h (hout.put hb)
      rw [List.append_assoc] at hout'
      exact ⟨hout', fun _ => he fun _ => (sdWriteByte_some hb).2.2.2⟩

theorem waitEmpty_eq (sd : SerialDriver) :
    waitEmpty sd = if sd.epending = true ∧ hasFlag sd.elFlags chnOutputEmpty = true then
      .ok { sd with epending := false, elFlags := 0 } else .error .chEvtWaitOne := by
  have hnone : ∀ sd : SerialDriver, sd.epending = false → waitEmpty sd = .error .chEvtWaitOne := by
    intro sd hp
    rw [waitEmpty, dif_neg (by rw [hp]; exact Bool.false_ne_true)]
  cases hp : sd.epending with
  | false => rw [hnone sd hp, if_neg fun h => Bool.false_ne_true h.1]
  | true =>
    rw [waitEmpty, dif_pos hp]
    dsimp only [SerialDriver.chEvtGetAndClearFlags]
    cases hf : hasFlag sd.elFlags chnOutputEmpty with
    | false => rw [if_neg Bool.false_ne_true, hnone _ rfl, if_neg fun h => Bool.false_ne_true h.2]
    | true => rw [if_pos rfl, if_pos ⟨rfl, rfl⟩]

theorem waitEmpty_ok {sd sd' : SerialDriver} (h : waitEmpty sd = .ok sd') :
    sd.epending = true ∧ hasFlag sd.elFlags chnOutputEmpty = true ∧
      sd' = { sd with epending := false, elFlags := 0 } := by
  rw [waitEmpty_eq] at h
  split at h
  · next hc =>
    cases h
    exact ⟨hc.1, hc.2, rfl⟩
  · cases h

/-- The call of `wiflySend` comes back if and only if the wifly thread was running and finds room
and the event it waits for. -/
theorem wiflySend_ok_iff (current : Current) (sd : SerialDriver) {msg : List UInt8}
    (hmsg : msg ≠ []) :
    (∃ sd', wiflySend current sd msg = .ok sd') ↔
      current = .wifly ∧ msg.length ≤ sd.oqueue.qCounter ∧ sd.epending = true ∧
        hasFlag sd.elFlags chnOutputEmpty = true := by
  unfold wiflySend wifly_send
  rw [if_neg hmsg, if_neg hmsg]
  by_cases hcur : current = .wifly
  · rw [if_pos hcur]
    by_cases hroom : msg.length ≤ sd.oqueue.qCounter
    · obtain ⟨sd', hw, hp, hf⟩ := sdWrite_ok hroom
      rw [hw, ← hp, ← hf]
      constructor
      · rintro ⟨sd'', h⟩
        obtain ⟨hp', hf', -⟩ := waitEmpty_ok h
        exact ⟨hcur, hroom, hp', hf'⟩
      · rintro ⟨-, -, hp', hf'⟩
        exact ⟨_, (waitEmpty_eq sd').trans (if_pos ⟨hp', hf'⟩)⟩
    · rw [sdWrite_error (by omega)]
      exact ⟨fun ⟨_, h⟩ => (by cases h), fun h => absurd h.2.1 hroom⟩
  · rw [if_neg hcur]
    exact ⟨fun ⟨_, h⟩ => (by cases h), fun h => absurd h.1 hcur⟩

/-- A call that comes back has put its message behind what the driver had before. -/
theorem wiflySend_output {current : Current} {sd sd' : SerialDriver} {msg bs : List UInt8}
    (hmsg : msg ≠ []) (h : wiflySend current sd msg = .ok sd') (hout : Output sd bs) :
    Output sd' (bs ++ msg) ∧ sd'.cr1.txeie = true := by
  unfold wiflySend wifly_send at h
  rw [if_neg hmsg, if_neg hmsg] at h
  split at h
  · cases hw : sdWrite sd msg with
    | error =>
      rw [hw] at h
      cases h
    | ok d =>
      rw [hw] at h
      obtain ⟨-, -, rfl⟩ := waitEmpty_ok h
      obtain ⟨hd, he⟩ := sdWrite_output hw hout
      exact ⟨hd, he fun h => absurd h hmsg⟩
  · cases h

/-! ## The reply behind the callback -/

section
variable {m : Moment} {err : AdcError} {sd : SerialDriver} {r : Reply}

theorem itoaStores_code (string : CArray UInt8 7) (err : AdcError) :
    (itoaStores string err.code).text = itoa err.code := by
  rw [itoaStores_text]
  cases err <;> rfl

theorem itoa_code_ne (err : AdcError) : itoa err.code ≠ [] := fun h => by cases h

/-- Behind the callback the reply still owes what it reads from `string` now. -/
theorem callback_owes (h : m.callback err = .ok sd) (hr : r ∈ m.reply) :
    Sending.Owes (m.start ++ (r.text.take r.put ++ (itoa err.code ++
        r.unread (itoa err.code ++ [0]))))
      ⟨(itoaStores m.string err.code).array, sd, r⟩ ∧ sd.cr1.txeie = true := by
  have hgoing := m.going r hr
  unfold Moment.callback at h
  rw [itoaStores_code] at h
  obtain ⟨hout, he⟩ := wiflySend_output (itoa_code_ne err) h hgoing.output
  refine ⟨⟨hgoing.intact.inside, _, hout, ?_⟩, he⟩
  unfold Sending.unread
  dsimp only
  rw [itoaStores_cells, List.append_assoc, List.append_assoc]

/-- The six characters of the callback do not overlap themselves. -/
theorem overlap {v w : List UInt8} (h : itoa err.code <+: v ++ (itoa err.code ++ w)) :
    v = [] ∨ itoa err.code <+: v := by
  have hend : before 10 (itoa err.code) ++ [10] = itoa err.code := by cases err <;> rfl
  exact overlap_of_prefix hend h

/-- The reply and then the callback: the reply had put all of its text, or it has the callback's. -/
theorem reply_first {cs u : List UInt8} (hi : r.Intact cs)
    (he : r.text.take r.put ++ (itoa err.code ++ u) = r.text ++ itoa err.code) :
    r.Complete ∨ r.put = 0 ∧ u = r.text := by
  have hput := hi.put_le
  have hlen := r.text_length_le
  have herr : (itoa err.code).length = 6 := rfl
  have hrest : itoa err.code ++ u = r.text.drop r.put ++ itoa err.code := by
    have hsplit := congrArg (· ++ itoa err.code) (List.take_append_drop r.put r.text)
    exact List.append_cancel_left (he.trans (hsplit.symm.trans (List.append_assoc ..)))
  have hpre : itoa err.code <+: r.text.drop r.put ++ (itoa err.code ++ []) := by
    rw [List.append_nil, ← hrest]
    exact List.prefix_append _ _
  obtain hnil | hpre := overlap hpre
  · have hle : r.text.length ≤ r.put := List.drop_eq_nil_iff.1 hnil
    by_cases h0 : r.put = 0
    · right
      rw [hnil, List.nil_append] at hrest
      have htext : r.text = [] := List.eq_nil_of_length_eq_zero (by omega)
      exact ⟨h0, (List.append_right_eq_self.1 hrest).trans htext.symm⟩
    · exact .inl (hi.complete h0 hle)
  · have hle := hpre.length_le
    rw [herr, List.length_drop] at hle
    have h0 : r.put = 0 := by omega
    rw [h0, List.drop_zero] at hrest hpre
    have htext : itoa err.code = r.text := hpre.eq_of_length_le (by omega)
    rw [htext] at hrest
    exact .inr ⟨h0, List.append_cancel_left hrest⟩

/-- The callback and then the reply: it had put nothing, or all of a text that is the callback's. -/
theorem callback_first {cs u : List UInt8} (hi : r.Intact cs)
    (he : r.text.take r.put ++ (itoa err.code ++ u) = itoa err.code ++ r.text) :
    r.Complete ∨ r.put = 0 ∧ u = r.text := by
  have hput := hi.put_le
  have hlen := r.text_length_le
  have herr : (itoa err.code).length = 6 := rfl
  have hpre : itoa err.code <+: r.text.take r.put ++ (itoa err.code ++ u) := by
    rw [he]
    exact List.prefix_append _ _
  obtain hnil | hpre := overlap hpre
  · have h0 : r.put = 0 := by
      have hlen' := congrArg List.length hnil
      rw [List.length_take, List.length_nil] at hlen'
      omega
    rw [hnil, List.nil_append] at he
    exact .inr ⟨h0, List.append_cancel_left he⟩
  · have hle := hpre.length_le
    rw [herr, List.length_take] at hle
    exact .inl (hi.complete (by omega) (by omega))

/-- Where the bytes of the reply and those of the callback come out one behind the other. -/
theorem apart_iff (err : AdcError) {cs u : List UInt8} (hi : r.Intact cs)
    (hu : r.Complete → u = []) :
    (r.text.take r.put ++ (itoa err.code ++ u) = r.text ++ itoa err.code ∨
      r.text.take r.put ++ (itoa err.code ++ u) = itoa err.code ++ r.text) ↔
      r.Complete ∨ r.put = 0 ∧ u = r.text := by
  constructor
  · rintro (he | he)
    · exact reply_first hi he
    · exact callback_first hi he
  · rintro (hc | ⟨h0, rfl⟩)
    · left
      rw [hu hc, List.append_nil, hi.take_of_complete hc]
    · right
      rw [h0]
      rfl

end

/-- **An error interrupt is harmless** exactly when it finds the wifly thread running, with room in
the output queue and `CHN_OUTPUT_EMPTY` pending, and a reply on its way that is complete, or has
put nothing yet and will read its text all the same. -/
theorem error_harmless_iff (m : Moment) (err : AdcError) : m.Harmless err ↔ m.Undisturbed err := by
  have hcall := wiflySend_ok_iff m.current m.sd (itoa_code_ne err)
  rw [← itoaStores_code m.string] at hcall
  have hlen : (itoaStores m.string err.code).text.length = 6 := by rw [itoaStores_code]; rfl
  rw [hlen] at hcall
  constructor
  · rintro ⟨⟨sd, hsd⟩, hreply⟩
    obtain ⟨hcur, hroom, hpend, hempty⟩ := hcall.1 ⟨sd, hsd⟩
    refine ⟨hcur, hroom, hpend, hempty, fun r hr => ?_⟩
    obtain ⟨howes, he⟩ := callback_owes hsd hr
    obtain ⟨as, t, hrun, hcomplete⟩ := Sending.exists_complete howes he
    have hout := (Sending.run_output howes hrun).complete hcomplete
    apply (apart_iff err (m.going r hr).intact (·.unread _)).1
    obtain h | h := hreply sd r as t hsd hr hrun hcomplete
    · exact .inl (List.append_cancel_left (hout.unique h))
    · exact .inr (List.append_cancel_left (hout.unique h))
  · rintro ⟨hcur, hroom, hpend, hempty, hreply⟩
    refine ⟨hcall.2 ⟨hcur, hroom, hpend, hempty⟩, ?_⟩
    intro sd r as t hsd hr hrun hcomplete
    have hout := (Sending.run_output (callback_owes hsd hr).1 hrun).complete hcomplete
    obtain h | h := (apart_iff err (m.going r hr).intact (·.unread _)).2 (hreply r hr)
    · exact .inl (h ▸ hout)
    · exact .inr (h ▸ hout)

/-- Room and the event are there, but two characters of 0123 have been put: after the callback the
driver has been given three lines. -/
example : (⟨123, .write 2 4⟩ : Reply).text.take 2 ++ (itoa (AdcError.code .overflow) ++
    (⟨123, .write 2 4⟩ : Reply).unread (itoa (AdcError.code .overflow) ++ [0])) =
      ascii "010001\r\n01\r\n" := by
  decide

/-- The main thread is running and no reply is on its way: it is put to sleep in the interrupt. -/
theorem error_not_harmless : ¬ ∀ (m : Moment) (err : AdcError), m.Harmless err := by
  intro h
  obtain ⟨⟨sd, hret⟩, -⟩ :=
    h ⟨.main, .fill 7 0, .start, none, [], fun r hr => by cases hr⟩ .overflow
  cases hret

end RobotPws.Sonar
