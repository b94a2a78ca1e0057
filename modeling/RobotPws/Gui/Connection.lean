import RobotPws.Gui.Window
import RobotPws.Lib.Runs

/-!
# The connection state of the window

`Consistent` is what should hold whenever a handler is done: the buttons show
whether `self.prot` is a connected `Protocol`, and every other `Protocol` has
its socket closed. An action is one run of a handler with the outcomes of its
socket operations. `connection_consistent_iff` says which runs keep it: those
in which each `connect_finalize` is `Sound`. It is not where the robot answers
the handshake with anything but `*HELLO*`, where the `version` just after it is
not sent or not answered, and where the `close` to the old protocol cannot be
sent.
-/

namespace RobotPws.Gui

open RobotPws.Lib

namespace Window

/-- `self.prot` is a `Protocol` and its `_connected` is true. -/
def connected (w : Window) : Bool :=
  match w.prot with
  | .noProtocol => false
  | .protocol i => (w.obj i).connected

structure Consistent (w : Window) : Prop where
  disc : w.discState = .normal ↔ w.connected = true
  conn : w.connState = .disabled ↔ w.connected = true
  noProtocol : w.connected = false → w.prot = .noProtocol
  closed : ∀ i < w.protocols.length, w.prot ≠ .protocol i → (w.obj i).closed = true

/-! ## Actions -/

/-- The user presses a button, or a timer runs out. Nothing requires that the
button is enabled. -/
inductive Action where
  | connect
  | confirm (o : Attempt)
  | reconnect (o : Attempt)
  | disconnect
  | up (time : Text) (x : Exchange)
  | down (time : Text) (x : Exchange)
  | left (time : Text) (x : Exchange)
  | right (time : Text) (x : Exchange)
  | reset
  | toggleDist (x : Exchange)
  | toggleHead (x : Exchange)
  | readSonar (x : Exchange)
  | readHeading (x : Exchange)
  | enableLight (light : Text) (x : Exchange)
  deriving DecidableEq, Repr

def Action.handler : Action → Handler Unit
  | .connect => GUI.connect
  | .confirm o => GUI.connectFinalize o
  | .reconnect o => GUI.connectFinalize o
  | .disconnect => GUI.disconnect false
  | .up time x => Move.up time x
  | .down time x => Move.down time x
  | .left time x => Move.left time x
  | .right time x => Move.right time x
  | .reset => Move.reset
  | .toggleDist x => Sensor.toggleDist x
  | .toggleHead x => Sensor.toggleHead x
  | .readSonar x => Sensor.readSonar x
  | .readHeading x => Sensor.readHeading x
  | .enableLight light x => Debug.enableLight light x

/-- The main loop goes on after a handler that raises. -/
def step (w : Window) (a : Action) : Option Window := some (a.handler.run w).2

/-! ## The condition -/

/-- A reply to the handshake is `*HELLO*`, and then `version` goes out and is answered. -/
def Accepted (o : Attempt) : Prop :=
  ∀ d ∈ o.hello.reply, finds (ascii "*HELLO*") d = true ∧ o.version.sent = true ∧
    answered o.version.answers = true

/-- Besides, the `close` to a connected protocol goes out. -/
def SoundAttempt (w : Window) (o : Attempt) : Prop :=
  (w.connected = true → o.close.sent = true) ∧ Accepted o

def Sound (w : Window) : Action → Prop
  | .confirm o => SoundAttempt w o
  | .reconnect o => SoundAttempt w o
  | _ => True

/-! ## The two kinds of consistent states -/

structure Idle (w : Window) : Prop where
  prot : w.prot = .noProtocol
  disc : w.discState = .disabled
  conn : w.connState = .normal
  closed : ∀ i < w.protocols.length, (w.obj i).closed = true

/-- The object `i` is connected. -/
structure Live (w : Window) (i : Nat) : Prop where
  prot : w.prot = .protocol i
  connected : (w.obj i).connected = true
  opened : (w.obj i).closed = false
  disc : w.discState = .normal
  conn : w.connState = .disabled
  closed : ∀ j < w.protocols.length, j ≠ i → (w.obj j).closed = true

def Inv (w : Window) : Prop := w.Idle ∨ ∃ i, w.Live i

theorem init_inv : init.Inv := .inl ⟨rfl, rfl, rfl, fun _ h => absurd h (by simp [init])⟩

section
variable {w : Window} {i : Nat} {p : Protocol}

theorem Idle.not_connected (h : w.Idle) : w.connected = false := by
  unfold Window.connected
  rw [h.prot]

theorem Live.is_connected (h : w.Live i) : w.connected = true := by
  unfold Window.connected
  rw [h.prot]
  exact h.connected

theorem Live.lt (h : w.Live i) : i < w.protocols.length := lt_of_connected h.connected

theorem Inv.consistent (h : w.Inv) : w.Consistent := by
  rcases h with h | ⟨i, h⟩
  · refine ⟨?_, ?_, fun _ => h.prot, fun i hi _ => h.closed i hi⟩
    · rw [h.disc, h.not_connected]
      decide
    · rw [h.conn, h.not_connected]
      decide
  · refine ⟨iff_of_true h.disc h.is_connected, iff_of_true h.conn h.is_connected,
      fun hc => ?_, fun j hj hne => h.closed j hj ?_⟩
    · rw [h.is_connected] at hc
      cases hc
    · rintro rfl
      exact hne h.prot

/-- The connected object is replaced by a closed one and given up. -/
theorem Live.give_up (h : w.Live i) (hp : p.closed = true) : (w.put i p).disconnected.Idle := by
  refine ⟨rfl, rfl, rfl, fun j hj => ?_⟩
  have hj : j < w.protocols.length := by simpa [disconnected] using hj
  rw [obj_disconnected]
  by_cases hij : i = j
  · rw [hij, obj_put hj, hp]
  · rw [obj_put_ne hij]
    exact h.closed j hj (Ne.symm hij)

theorem Live.put (h : w.Live i) (hc : p.connected = true) (ho : p.closed = false) :
    (w.put i p).Live i := by
  refine ⟨h.prot, ?_, ?_, h.disc, h.conn, fun j hj hne => ?_⟩
  · rw [obj_put h.lt, hc]
  · rw [obj_put h.lt, ho]
  · rw [obj_put_ne (Ne.symm hne)]
    exact h.closed j (by simpa using hj) hne

theorem Idle.disconnected (h : w.Idle) : w.disconnected.Idle := ⟨rfl, rfl, rfl, h.closed⟩

end

/-! ## Commands -/

section
variable {w : Window} {i : Nat} {x : Exchange}

/-- An answered command leaves the connection open, another one closes it. -/
theorem receive_flags (p : Protocol) (rs : List Received) :
    if answered rs then
      (p.receive rs).2.connected = p.connected ∧ (p.receive rs).2.closed = p.closed
    else p.connected = true → (p.receive rs).2.closed = true := by
  induction rs generalizing p with
  | nil =>
    intro h
    rw [Protocol.receive, Protocol.drop, if_pos h]
  | cons r rs ih =>
    cases r with
    | error =>
      intro h
      rw [Protocol.receive, Protocol.drop, if_pos h]
    | data d =>
      unfold Protocol.receive answered
      by_cases hd : Protocol.isComment d
      · rw [if_pos hd, if_pos hd]
        exact ih _
      · rw [if_neg hd, if_neg hd]
        exact ⟨rfl, rfl⟩

theorem send_flags {p : Protocol} (hp : p.connected = true) (msg : Text) (args : List Text)
    (rs : List Received) :
    if answered rs then
      (p.send msg args rs).2.connected = true ∧ (p.send msg args rs).2.closed = p.closed
    else (p.send msg args rs).2.closed = true := by
  have h := receive_flags { p with sent := p.sent ++ Protocol.line msg args } rs
  unfold Protocol.send
  rw [if_pos hp]
  by_cases ha : answered rs
  · rw [if_pos ha] at h ⊢
    exact ⟨h.1.trans hp, h.2⟩
  · rw [if_neg ha] at h ⊢
    exact h hp

theorem Live.send (h : w.Live i) (msg : Text) (args : List Text) (x : Exchange) :
    ((send i msg args x).run w).2.Inv := by
  cases hx : x.sent with
  | false =>
    rw [send_raise h.connected hx]
    exact .inr ⟨i, h⟩
  | true =>
    rw [send_apply h.connected hx]
    have hf := send_flags h.connected msg args x.answers
    unfold lose
    by_cases ha : answered x.answers
    · rw [if_pos ha] at hf
      rw [if_neg (by rw [ha]; decide)]
      exact .inr ⟨i, h.put hf.1 (hf.2.trans h.opened)⟩
    · rw [if_neg ha] at hf
      rw [if_pos (by simpa using ha)]
      exact .inl (h.give_up hf)

theorem protSend_idle (h : w.prot = .noProtocol) (msg : Text) (args : List Text) :
    (protSend msg args x).run w = (.ok none, w) := by
  unfold protSend
  rw [Call.get_bind, h]
  rfl

theorem protSend_protocol (h : w.prot = .protocol i) (msg : Text) (args : List Text) :
    (protSend msg args x).run w = (send i msg args x >>= fun v => pure (some v)).run w := by
  unfold protSend
  rw [Call.get_bind, h]

theorem protSend_keeps (msg : Text) (args : List Text) (x : Exchange) :
    Call.Keeps Inv (protSend msg args x) := by
  rintro w (h | ⟨i, h⟩)
  · rw [protSend_idle h.prot]
    exact .inl h
  · rw [protSend_protocol h.prot]
    have hs := h.send msg args x
    cases he : (send i msg args x).run w with
    | mk r t =>
      rw [he] at hs
      cases r with
      | ok v => rw [Call.bind_ok he]; exact hs
      | error e => rw [Call.bind_error he]; exact hs

theorem keeps_modify {f : Window → Window} (hp : ∀ w, (f w).prot = w.prot)
    (ho : ∀ w, (f w).protocols = w.protocols) (hd : ∀ w, (f w).discState = w.discState)
    (hc : ∀ w, (f w).connState = w.connState) : Call.Keeps Inv (.modify f : Handler Unit) := by
  refine Call.Keeps.modify fun w h => ?_
  have hobj : ∀ i, (f w).obj i = w.obj i := fun i => by rw [obj, ho, ← obj]
  rcases h with h | ⟨i, h⟩
  · refine .inl ⟨(hp w).trans h.prot, (hd w).trans h.disc, (hc w).trans h.conn, fun i hi => ?_⟩
    rw [hobj]
    exact h.closed i (ho w ▸ hi)
  · refine .inr ⟨i, (hp w).trans h.prot, by rw [hobj, h.connected], by rw [hobj, h.opened],
      (hd w).trans h.disc, (hc w).trans h.conn, fun j hj hne => ?_⟩
    rw [hobj]
    exact h.closed j (ho w ▸ hj) hne

theorem connect_keeps : Call.Keeps Inv GUI.connect :=
  keeps_modify (fun _ => rfl) (fun _ => rfl) (fun _ => rfl) fun _ => rfl

theorem reset_keeps : Call.Keeps Inv Move.reset :=
  keeps_modify (fun _ => rfl) (fun _ => rfl) (fun _ => rfl) fun _ => rfl

theorem press_keeps (cmd value : Text) (x : Exchange) : Call.Keeps Inv (Move.press cmd value x) :=
  (protSend_keeps _ _ x).bind fun _ =>
    .ite (keeps_modify (fun _ => rfl) (fun _ => rfl) (fun _ => rfl) fun _ => rfl) (.pure ())

theorem toggle_keeps {set : Window → Bool → Window}
    (hset : ∀ b, Call.Keeps Inv (.modify fun w => set w b : Handler Unit)) (msg : Text)
    (reading : Window → Bool) (x : Exchange) :
    Call.Keeps Inv (Sensor.toggle msg reading set x) :=
  Call.Keeps.get.bind fun _ => (protSend_keeps _ _ x).bind fun _ => .ite (hset _) (.pure ())

theorem toggleDist_keeps (x : Exchange) : Call.Keeps Inv (Sensor.toggleDist x) := by
  unfold Sensor.toggleDist
  apply toggle_keeps
  exact fun _ => keeps_modify (fun _ => rfl) (fun _ => rfl) (fun _ => rfl) fun _ => rfl

theorem toggleHead_keeps (x : Exchange) : Call.Keeps Inv (Sensor.toggleHead x) := by
  unfold Sensor.toggleHead
  apply toggle_keeps
  exact fun _ => keeps_modify (fun _ => rfl) (fun _ => rfl) (fun _ => rfl) fun _ => rfl

theorem ask_keeps (msg : Text) (reading : Window → Bool) (x : Exchange) :
    Call.Keeps Inv (Sensor.ask msg reading x) :=
  Call.Keeps.get.bind fun _ =>
    .ite ((protSend_keeps msg [] x).bind fun _ => .pure ()) (.pure ())

theorem enableLight_keeps (light : Text) (x : Exchange) :
    Call.Keeps Inv (Debug.enableLight light x) :=
  (protSend_keeps _ _ x).bind fun _ => .pure ()

/-! ## Disconnecting -/

/-- What `disconnect` leaves of an object. -/
def gone (p : Protocol) : Protocol := { p with closed := true, connected := false }

theorem disconnect_idle (h : w.prot = .noProtocol) :
    (GUI.disconnect false).run w = (.ok (), w.disconnected) := by
  have hd : protDrop.run w = (.ok (), w) := by
    unfold protDrop
    rw [Call.get_bind, h]
    rfl
  exact Call.bind_ok hd

theorem disconnect_live (h : w.Live i) :
    (GUI.disconnect false).run w = (.ok (), (w.put i (gone (w.obj i))).disconnected) := by
  have hd : protDrop.run w = (.ok (), w.put i (gone (w.obj i))) := by
    unfold protDrop
    rw [Call.get_bind, h.prot]
    exact disconnect_direct h.connected
  exact Call.bind_ok hd

theorem disconnect_keeps : Call.Keeps Inv (GUI.disconnect false) := by
  rintro w (h | ⟨i, h⟩)
  · rw [disconnect_idle h.prot]
    exact .inl h.disconnected
  · rw [disconnect_live h]
    exact .inl (h.give_up rfl)

theorem protDisconnect_idle (h : w.Idle) : (protDisconnect x).run w = (.ok (), w.disconnected) := by
  unfold protDisconnect
  rw [Call.get_bind, h.prot]
  exact disconnect_idle h.prot

theorem protDisconnect_live (h : w.Live i) :
    (protDisconnect x).run w =
      (send i (ascii "close") [] x >>= fun _ => shut i).run w.disconnected := by
  unfold protDisconnect
  rw [Call.get_bind, h.prot]
  exact disconnect_close h.connected x

theorem protDisconnect_raise (h : w.Live i) (hx : x.sent = false) :
    (protDisconnect x).run w = (.error .socketError, w.disconnected) := by
  rw [protDisconnect_live h]
  exact Call.bind_error (send_raise (w := w.disconnected) h.connected hx _ _)

theorem protDisconnect_sent (h : w.Live i) (hx : x.sent = true) :
    ∃ t, (protDisconnect x).run w = (.ok (), t) ∧ t.Idle := by
  have hs := send_apply (w := w.disconnected) h.connected hx (ascii "close") []
  have hl : ∀ (v : Window) (b : Bool), v.disconnected.lose b = v.disconnected := by
    rintro v (_ | _) <;> rfl
  rw [put_disconnected, hl] at hs
  rw [protDisconnect_live h, Call.bind_ok hs]
  refine ⟨_, rfl, ?_⟩
  show ((w.put i _).put i _).disconnected.Idle
  rw [put_put]
  exact h.give_up rfl

/-! ## Connecting -/

theorem protConnect_run {h : Hello} {b : Bool} {t : Window} (hp : w.prot = .protocol i)
    (hb : (connect i h).run w = (.ok b, t)) : (protConnect h).run w = (.ok (some b), t) := by
  unfold protConnect
  rw [Call.get_bind, hp]
  exact Call.bind_ok hb

theorem protSend_run {v : Value} {t : Window} (hp : w.prot = .protocol i) {msg : Text}
    {args : List Text} (hv : (send i msg args x).run w = (.ok v, t)) :
    (protSend msg args x).run w = (.ok (some v), t) := by
  rw [protSend_protocol hp]
  exact Call.bind_ok hv

theorem make_lt (w : Window) : w.protocols.length < w.make.protocols.length := by
  unfold make
  rw [List.length_append]
  exact Nat.lt_succ_self _

theorem Idle.make_closed (h : w.Idle) {j : Nat} (hj : j < w.make.protocols.length)
    (hne : w.protocols.length ≠ j) : (w.make.obj j).closed = true := by
  have hlt : j < w.protocols.length := by
    unfold make at hj
    rw [List.length_append, List.length_singleton] at hj
    omega
  rw [obj_make_lt hlt]
  exact h.closed j hlt

variable {o : Attempt} {t : Window}

/-- The old protocol is closed; `connect` returns false with the socket closed. -/
theorem finalize_refused (hd : (protDisconnect o.close).run w = (.ok (), t)) (ht : t.Idle)
    (hr : o.hello.reply = none) : ((GUI.connectFinalize o).run w).2.Inv := by
  obtain ⟨p, hp, hc⟩ := connect_refused (w := t.make) (i := t.protocols.length)
    (by rw [obj_make]; rfl) hr
  unfold GUI.connectFinalize
  rw [Call.bind_ok hd, Call.modify_bind, Call.bind_ok (protConnect_run rfl hc), if_pos rfl]
  refine .inl ⟨rfl, ht.disc, ht.conn, fun j hj => ?_⟩
  have hj : j < t.make.protocols.length := by simpa using hj
  show ((t.make.put _ p).obj j).closed = true
  by_cases hn : t.protocols.length = j
  · rw [← hn, obj_put (make_lt t), hp]
  · rw [obj_put_ne hn]
    exact ht.make_closed hj hn

/-- The robot answers, but not with `*HELLO*`: the new socket stays open. -/
theorem finalize_leaks (hd : (protDisconnect o.close).run w = (.ok (), t)) {d : Text}
    (hr : o.hello.reply = some d) (hh : ¬ finds (ascii "*HELLO*") d = true) :
    ¬ ((GUI.connectFinalize o).run w).2.Consistent := by
  have hc := connect_answered (by rw [obj_make]; rfl) (make_lt t) hr
  rw [if_neg hh] at hc
  unfold GUI.connectFinalize
  rw [Call.bind_ok hd, Call.modify_bind, Call.bind_ok (protConnect_run rfl hc), if_pos rfl]
  intro h
  have hclosed := h.closed t.protocols.length (by simpa [disconnected] using make_lt t) (by simp)
  have hobj : ((t.make.put t.protocols.length (greeted (t.make.obj t.protocols.length))).obj
      t.protocols.length).closed = true := hclosed
  rw [obj_put (make_lt t), obj_make] at hobj
  cases hobj

/-- After the handshake `self.prot` is the new, connected protocol, and the buttons still
say that there is none. -/
structure Greeted (u : Window) (n : Nat) : Prop where
  prot : u.prot = .protocol n
  connected : (u.obj n).connected = true
  opened : (u.obj n).closed = false
  disc : u.discState = .disabled
  closed : ∀ j < u.protocols.length, j ≠ n → (u.obj j).closed = true

/-- The end of `connect_finalize`. -/
def shown (v : Option Value) (w : Window) : Window :=
  { w with
    version := v, dialog := false
    connState := .disabled, recState := .disabled, discState := .normal }

theorem finalize_greeted (hd : (protDisconnect o.close).run w = (.ok (), t)) (ht : t.Idle)
    {d : Text} (hr : o.hello.reply = some d) (hh : finds (ascii "*HELLO*") d = true) :
    ∃ u n, u.Greeted n ∧ (GUI.connectFinalize o).run w =
      (protSend (ascii "version") [] o.version >>= fun v => .modify (shown v)).run u := by
  have hc := connect_answered (by rw [obj_make]; rfl) (make_lt t) hr
  rw [if_pos hh] at hc
  have hb : ¬ some true = some false := by simp
  refine ⟨t.make.put t.protocols.length
    { greeted (t.make.obj t.protocols.length) with connected := true }, t.protocols.length,
    ⟨rfl, ?_, ?_, ht.disc, fun j hj hne => ?_⟩, ?_⟩
  · rw [obj_put (make_lt t)]
  · rw [obj_put (make_lt t), obj_make]
    rfl
  · rw [obj_put_ne (Ne.symm hne)]
    exact ht.make_closed (by simpa using hj) (Ne.symm hne)
  · unfold GUI.connectFinalize
    rw [Call.bind_ok hd, Call.modify_bind, Call.bind_ok (protConnect_run rfl hc), if_neg hb]
    rfl

/-- The `version` that cannot be sent raises, and the buttons stay. -/
theorem Greeted.raise {u : Window} {n : Nat} (h : u.Greeted n) (hx : x.sent = false) :
    ¬ ((protSend (ascii "version") [] x >>= fun v => .modify (shown v)).run u).2.Consistent := by
  have hs : (protSend (ascii "version") [] x).run u = (.error .socketError, u) := by
    rw [protSend_protocol h.prot]
    exact Call.bind_error (send_raise h.connected hx _ _)
  rw [Call.bind_error hs]
  intro hc
  have hcon : u.connected = true := by
    unfold Window.connected
    rw [h.prot]
    exact h.connected
  have hn := hc.disc.2 hcon
  rw [h.disc] at hn
  cases hn

/-- The `version` that is not answered makes `self.prot` a `NoProtocol`, and then the buttons
are set. -/
theorem Greeted.lost {u : Window} {n : Nat} (h : u.Greeted n) (hx : x.sent = true)
    (ha : ¬ answered x.answers = true) :
    ¬ ((protSend (ascii "version") [] x >>= fun v => .modify (shown v)).run u).2.Consistent := by
  have hs := send_apply h.connected hx (ascii "version") []
  unfold lose at hs
  rw [if_pos (by simpa using ha)] at hs
  rw [Call.bind_ok (protSend_run h.prot hs), Call.run_modify]
  intro hc
  have hn := hc.disc.1 rfl
  cases hn

theorem Greeted.kept {u : Window} {n : Nat} (h : u.Greeted n) (hx : x.sent = true)
    (ha : answered x.answers = true) :
    ((protSend (ascii "version") [] x >>= fun v => .modify (shown v)).run u).2.Inv := by
  have hn := lt_of_connected h.connected
  have hs := send_apply h.connected hx (ascii "version") []
  unfold lose at hs
  rw [if_neg (by rw [ha]; decide)] at hs
  have hf := send_flags h.connected (ascii "version") [] x.answers
  rw [if_pos ha] at hf
  rw [Call.bind_ok (protSend_run h.prot hs), Call.run_modify]
  refine .inr ⟨n, h.prot, ?_, ?_, rfl, rfl, fun j hj hne => ?_⟩
  · show ((u.put n _).obj n).connected = true
    rw [obj_put hn, hf.1]
  · show ((u.put n _).obj n).closed = false
    rw [obj_put hn, hf.2, h.opened]
  · show ((u.put n _).obj j).closed = true
    rw [obj_put_ne (Ne.symm hne)]
    refine h.closed j ?_ hne
    have hj : j < (u.put n _).protocols.length := hj
    rwa [length_put] at hj

theorem finalize_inv (hd : (protDisconnect o.close).run w = (.ok (), t)) (ht : t.Idle)
    (ha : Accepted o) : ((GUI.connectFinalize o).run w).2.Inv := by
  cases hr : o.hello.reply with
  | none => exact finalize_refused hd ht hr
  | some d =>
    obtain ⟨hh, hs, hv⟩ := ha d hr
    obtain ⟨u, n, hu, he⟩ := finalize_greeted hd ht hr hh
    rw [he]
    exact hu.kept hs hv

theorem finalize_fails (hd : (protDisconnect o.close).run w = (.ok (), t)) (ht : t.Idle)
    (ha : ¬ Accepted o) : ¬ ((GUI.connectFinalize o).run w).2.Consistent := by
  unfold Accepted at ha
  push Not at ha
  obtain ⟨d, hr, h⟩ := ha
  by_cases hh : finds (ascii "*HELLO*") d = true
  · obtain ⟨u, n, hu, he⟩ := finalize_greeted hd ht hr hh
    rw [he]
    cases hs : o.version.sent with
    | false => exact hu.raise hs
    | true => exact hu.lost hs (h hh hs)
  · exact finalize_leaks hd hr hh

/-- From a consistent state `connect_finalize` first closes what is connected. -/
theorem protDisconnect_inv (h : w.Inv) (hc : w.connected = true → x.sent = true) :
    ∃ t, (protDisconnect x).run w = (.ok (), t) ∧ t.Idle := by
  rcases h with h | ⟨i, h⟩
  · exact ⟨_, protDisconnect_idle h, h.disconnected⟩
  · exact protDisconnect_sent h (hc h.is_connected)

theorem finalize_raises (h : w.Live i) (hx : o.close.sent = false) :
    ¬ ((GUI.connectFinalize o).run w).2.Consistent := by
  unfold GUI.connectFinalize
  rw [Call.bind_error (protDisconnect_raise h hx)]
  intro hc
  have hclosed : (w.obj i).closed = true := hc.closed i h.lt (by simp [disconnected])
  rw [h.opened] at hclosed
  cases hclosed

theorem connectFinalize_inv (h : w.Inv) (ho : SoundAttempt w o) :
    ((GUI.connectFinalize o).run w).2.Inv := by
  obtain ⟨t, hd, ht⟩ := protDisconnect_inv h ho.1
  exact finalize_inv hd ht ho.2

theorem connectFinalize_fails (h : w.Inv) (ho : ¬ SoundAttempt w o) :
    ¬ ((GUI.connectFinalize o).run w).2.Consistent := by
  by_cases hc : w.connected = true → o.close.sent = true
  · obtain ⟨t, hd, ht⟩ := protDisconnect_inv h hc
    exact finalize_fails hd ht fun ha => ho ⟨hc, ha⟩
  · push Not at hc
    rcases h with h | ⟨i, h⟩
    · rw [h.not_connected] at hc
      exact absurd hc.1 (by decide)
    · exact finalize_raises h (by simpa using hc.2)

end

/-! ## Runs -/

section
variable {w w' : Window} {a : Action}

/-- A handler that meets the condition keeps the state consistent. -/
theorem step_inv (h : w.Inv) (hc : Sound w a) (hs : step w a = some w') : w'.Inv := by
  cases hs
  cases a with
  | connect => exact connect_keeps w h
  | confirm o => exact connectFinalize_inv h hc
  | reconnect o => exact connectFinalize_inv h hc
  | disconnect => exact disconnect_keeps w h
  | up time x => exact press_keeps _ time x w h
  | down time x => exact press_keeps _ time x w h
  | left time x => exact press_keeps _ time x w h
  | right time x => exact press_keeps _ time x w h
  | reset => exact reset_keeps w h
  | toggleDist x => exact toggleDist_keeps x w h
  | toggleHead x => exact toggleHead_keeps x w h
  | readSonar x => exact ask_keeps _ _ x w h
  | readHeading x => exact ask_keeps _ _ x w h
  | enableLight light x => exact enableLight_keeps light x w h

/-- One that does not leaves an inconsistent state. -/
theorem step_fails (h : w.Inv) (hc : ¬ Sound w a) (hs : step w a = some w') :
    ¬ w'.Consistent := by
  cases hs
  cases a with
  | confirm o => exact connectFinalize_fails h hc
  | reconnect o => exact connectFinalize_fails h hc
  | _ => exact absurd trivial hc

/-- **The connection state**: the window is consistent after every handler of a run exactly
when every handler of it meets the condition. -/
theorem connection_consistent_iff (as : List Action) :
    (∃ w, Steps step Sound init as w) ↔
      ∀ bs, bs <+: as → ∀ w, Steps step Always init bs w → w.Consistent :=
  Steps.exact_iff (fun _ _ => ⟨_, rfl⟩) (fun _ _ _ => step_inv) (fun _ => Inv.consistent)
    (fun _ _ _ => step_fails) init_inv as

/-- The robot's handshake is answered and the `version` is not: *Disconnect* is enabled
without a connection. -/
theorem version_timeout :
    ¬ ∀ as w, Steps step Always init as w → w.Consistent := by
  intro h
  have hc := h [.connect, .confirm ⟨⟨true, []⟩, ⟨true, true, .data (ascii "*HELLO*\r\n")⟩,
    ⟨true, []⟩⟩] _ (.cons rfl trivial (.cons rfl trivial (.refl _)))
  exact absurd (hc.disc.1 (by decide)) (by decide)

end

end Window

end RobotPws.Gui
