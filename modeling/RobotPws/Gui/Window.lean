import RobotPws.Gui.Duration
import RobotPws.Lib.Calls

/-!
# The window and its protocols

The handlers of `gui.py` over the window's fields and every `Protocol` object
made so far: `protocols` is the heap, an object is named by its place in it. A
handler is a `Call`: an exception of the socket that nothing catches ends it,
and what it has written stays.

The outcomes of the socket operations are arguments, one record for each call
of `send` and `connect`. `Protocol.disconnect`, `Protocol.send` and
`GUI.disconnect` call each other; two of these calls are written out before the
function they belong to, `drop` (`disconnect_false`) and `disconnected`
(`GUI.disconnect_true`).
-/

namespace RobotPws.Gui

open RobotPws.Lib

/-- `state` of a button. -/
inductive ButtonState where
  | normal
  | disabled
  deriving DecidableEq, Repr

/-- `self.prot`: a `NoProtocol` or one of the `Protocol` objects. -/
inductive Prot where
  | noProtocol
  | protocol (i : Nat)
  deriving DecidableEq, Repr

/-- What the socket does in one `send`: whether the line goes out, and what
`recv` gives. -/
structure Exchange where
  sent : Bool
  answers : List Received
  deriving DecidableEq, Repr

/-- What it does in one `connect`. -/
structure Hello where
  up : Bool
  sent : Bool
  answer : Received
  deriving DecidableEq, Repr

/-- What the socket gives for the handshake, if it gives anything. -/
def Hello.reply (h : Hello) : Option Text :=
  if h.up && h.sent then
    match h.answer with
    | .data d => some d
    | .error => none
  else none

/-- What it does in one `connect_finalize`: the `close` to the old protocol,
the connection of the new one and its `version`. -/
structure Attempt where
  close : Exchange
  hello : Hello
  version : Exchange
  deriving DecidableEq, Repr

/-- The exception that handlers raise, from `socket.send`. -/
inductive Raised where
  | socketError
  deriving DecidableEq, Repr

/-- The fields of `GUI`, `Move`, `Sensor` and `Debug` the handlers use; `bups`
is the state of the four move buttons. -/
structure Window where
  prot : Prot
  protocols : List Protocol
  connState : ButtonState
  discState : ButtonState
  recState : ButtonState
  dialog : Bool
  version : Option Value
  bups : ButtonState
  readDist : Bool
  readHead : Bool
  deriving DecidableEq, Repr

abbrev Handler (α : Type) := Call Window Raised α

namespace Window

/-- After `__init__` and `create`. -/
def init : Window :=
  ⟨.noProtocol, [], .normal, .disabled, .disabled, false, some (.str []), .normal, false, false⟩

/-- The object `i`. -/
def obj (w : Window) (i : Nat) : Protocol := w.protocols.getD i .new

def put (w : Window) (i : Nat) (p : Protocol) : Window :=
  { w with protocols := w.protocols.set i p }

/-- `self.prot = Protocol(ip, port, self)`. -/
def make (w : Window) : Window :=
  { w with prot := .protocol w.protocols.length, protocols := w.protocols ++ [.new] }

/-- `GUI.disconnect(True)`. -/
def disconnected (w : Window) : Window :=
  { w with prot := .noProtocol, connState := .normal, discState := .disabled, recState := .normal }

/-! ## `Protocol` -/

/-- Close the socket of the object `i`. -/
def shut (i : Nat) : Handler Unit :=
  .modify fun w => w.put i { w.obj i with closed := true, connected := false }

/-- `disconnect(False)`. -/
def drop (i : Nat) : Handler Unit := do
  .modify disconnected
  let w ← .get
  if (w.obj i).connected then shut i

/-- The loop of `send`. -/
def receive (i : Nat) : List Received → Handler Value
  | [] | .error :: _ => do
    drop i
    return .str []
  | .data d :: rs =>
    if Protocol.isComment d then do
      .modify fun w => w.put i { w.obj i with
        comments := Protocol.keep (w.obj i).comments (dropEnd2 d) }
      receive i rs
    else return Protocol.decode d

def send (i : Nat) (msg : Text) (args : List Text) (x : Exchange) : Handler Value := do
  let w ← .get
  if (w.obj i).connected then
    if x.sent then
      .modify fun w => w.put i { w.obj i with sent := (w.obj i).sent ++ Protocol.line msg args }
      receive i x.answers
    else .raise .socketError
  else return .bool false

def connect (i : Nat) (h : Hello) : Handler Bool := do
  let w ← .get
  if (w.obj i).connected then return true
  else if h.up && h.sent then
    .modify fun w => w.put i { w.obj i with sent := (w.obj i).sent ++ ascii "*HELLO*\r\n" }
    match h.answer with
    | .data d =>
      if finds (ascii "*HELLO*") d then
        .modify fun w => w.put i { w.obj i with connected := true }
        return true
      else
        drop i
        return false
    | .error =>
      .modify fun w => w.put i { w.obj i with closed := true }
      return false
  else
    .modify fun w => w.put i { w.obj i with closed := true }
    return false

/-- `disconnect`; `mode` holds the outcomes of its `send` where it is true. -/
def disconnect (i : Nat) (mode : Option Exchange) (direct : Bool) : Handler Unit := do
  if !direct then .modify disconnected
  let w ← .get
  if (w.obj i).connected then
    match mode with
    | some x => do
      let _ ← send i (ascii "close") [] x
      shut i
    | none => shut i

/-! ## `self.prot` -/

/-- `self.prot.send`; a `NoProtocol` returns `None`. -/
def protSend (msg : Text) (args : List Text) (x : Exchange) : Handler (Option Value) := do
  let w ← .get
  match w.prot with
  | .noProtocol => return none
  | .protocol i =>
    let v ← send i msg args x
    return some v

def protConnect (h : Hello) : Handler (Option Bool) := do
  let w ← .get
  match w.prot with
  | .noProtocol => return none
  | .protocol i =>
    let b ← connect i h
    return some b

/-- `self.prot.disconnect(mode = False, direct = True)`. -/
def protDrop : Handler Unit := do
  let w ← .get
  match w.prot with
  | .noProtocol => return
  | .protocol i => disconnect i none true

/-! ## `GUI` -/

def GUI.disconnect (tp : Bool) : Handler Unit := do
  if !tp then protDrop
  .modify disconnected

/-- `self.prot.disconnect()`. -/
def protDisconnect (x : Exchange) : Handler Unit := do
  let w ← .get
  match w.prot with
  | .noProtocol => GUI.disconnect false
  | .protocol i => disconnect i (some x) false

/-- The *Connect* button: the dialog opens. -/
def GUI.connect : Handler Unit := .modify fun w => { w with dialog := true }

def GUI.connectFinalize (o : Attempt) : Handler Unit := do
  protDisconnect o.close
  .modify make
  let b ← protConnect o.hello
  if b = some false then
    .modify fun w => { w with prot := .noProtocol }
  else
    let v ← protSend (ascii "version") [] o.version
    .modify fun w => { w with
      version := v, dialog := false
      connState := .disabled, recState := .disabled, discState := .normal }

/-! ## The buttons that send a command -/

/-- A move button: with a true answer all four are disabled. -/
def Move.press (cmd value : Text) (x : Exchange) : Handler Unit := do
  let v ← protSend cmd (value.map fun c => [c]) x
  if v.any Gui.Move.truthy then .modify fun w => { w with bups := .disabled }

def Move.up : Text → Exchange → Handler Unit := press (ascii "forward")
def Move.down : Text → Exchange → Handler Unit := press (ascii "backward")
def Move.left : Text → Exchange → Handler Unit := press (ascii "turnLeft")
def Move.right : Text → Exchange → Handler Unit := press (ascii "turnRight")

/-- What `after` calls when the time is over. -/
def Move.reset : Handler Unit := .modify fun w => { w with bups := .normal }

/-- Turn a sensor off when it is read, else on. -/
def Sensor.toggle (msg : Text) (reading : Window → Bool) (set : Window → Bool → Window)
    (x : Exchange) : Handler Unit := do
  let w ← .get
  let v ← protSend msg [if reading w then ascii "0" else ascii "1"] x
  if v.any Gui.Move.truthy then .modify fun w' => set w' (!reading w)

def Sensor.toggleDist : Exchange → Handler Unit :=
  toggle (ascii "sonar") readDist fun w b => { w with readDist := b }

def Sensor.toggleHead : Exchange → Handler Unit :=
  toggle (ascii "heading") readHead fun w b => { w with readHead := b }

/-- One of the two questions `read` asks every half second. -/
def Sensor.ask (msg : Text) (reading : Window → Bool) (x : Exchange) : Handler Unit := do
  let w ← .get
  if reading w then
    let _ ← protSend msg [] x

def Sensor.readSonar : Exchange → Handler Unit := ask (ascii "readSonar") readDist
def Sensor.readHeading : Exchange → Handler Unit := ask (ascii "readHead") readHead

def Debug.enableLight (light : Text) (x : Exchange) : Handler Unit := do
  let _ ← protSend (ascii "light") [light] x

/-! ## The heap -/

section
variable {w : Window} {i j : Nat} {p q : Protocol}

@[simp] theorem obj_disconnected : w.disconnected.obj i = w.obj i := rfl

@[simp] theorem length_put : (w.put i p).protocols.length = w.protocols.length :=
  List.length_set

theorem put_put : (w.put i p).put i q = w.put i q := by
  unfold put
  rw [List.set_set]

theorem put_disconnected : w.disconnected.put i p = (w.put i p).disconnected := rfl

theorem obj_of_le (h : w.protocols.length ≤ i) : w.obj i = .new := by
  unfold obj
  rw [List.getD_eq_getElem?_getD, List.getElem?_eq_none h, Option.getD_none]

theorem lt_of_connected (h : (w.obj i).connected = true) : i < w.protocols.length := by
  by_contra hi
  rw [obj_of_le (by omega)] at h
  exact absurd h (by decide)

theorem obj_put (hi : i < w.protocols.length) : (w.put i p).obj i = p := by
  unfold obj put
  rw [List.getD_eq_getElem?_getD, List.getElem?_set_self hi, Option.getD_some]

theorem obj_put_ne (h : i ≠ j) : (w.put i p).obj j = w.obj j := by
  unfold obj put
  rw [List.getD_eq_getElem?_getD, List.getElem?_set_ne h, ← List.getD_eq_getElem?_getD]

theorem put_obj : w.put i (w.obj i) = w := by
  by_cases hi : i < w.protocols.length
  · have hobj : w.obj i = w.protocols[i] := by
      unfold obj
      rw [List.getD_eq_getElem?_getD, List.getElem?_eq_getElem hi, Option.getD_some]
    unfold put
    rw [hobj, List.set_getElem_self]
  · unfold put
    rw [List.set_eq_of_length_le (by omega)]

theorem obj_make : w.make.obj w.protocols.length = .new := by
  unfold obj make
  rw [List.getD_eq_getElem?_getD, List.getElem?_concat_length, Option.getD_some]

theorem obj_make_lt (hi : i < w.protocols.length) : w.make.obj i = w.obj i := by
  unfold obj make
  rw [List.getD_eq_getElem?_getD, List.getElem?_append_left hi, ← List.getD_eq_getElem?_getD]

end

/-! ## What the calls do -/

/-- `disconnect(False)` is `drop`. -/
theorem disconnect_false (i : Nat) : disconnect i none false = drop i := rfl

theorem GUI.disconnect_true : GUI.disconnect true = .modify disconnected := rfl

/-- A line that is no comment arrives before `recv` raises. -/
def answered : List Received → Bool
  | [] | .error :: _ => false
  | .data d :: rs => if Protocol.isComment d then answered rs else true

/-- What losing the connection does besides. -/
def lose (w : Window) (lost : Bool) : Window := if lost then w.disconnected else w

section
variable {w : Window} {i : Nat}

theorem drop_apply (w : Window) (i : Nat) :
    (drop i).run w = (.ok (), (w.put i (w.obj i).drop).disconnected) := by
  show ((if (w.obj i).connected then shut i else pure ()) : Handler Unit).run w.disconnected = _
  unfold Protocol.drop
  split
  · rfl
  · rw [put_obj]
    rfl

/-- The loop does to its object what `Protocol.receive` does to one protocol. -/
theorem receive_apply (hi : i < w.protocols.length) (rs : List Received) :
    (receive i rs).run w = (.ok (Protocol.receive (w.obj i) rs).1,
      (w.put i (Protocol.receive (w.obj i) rs).2).lose !answered rs) := by
  induction rs generalizing w with
  | nil =>
    unfold receive
    rw [Call.bind_ok (drop_apply w i)]
    rfl
  | cons r rs ih =>
    cases r with
    | error =>
      unfold receive
      rw [Call.bind_ok (drop_apply w i)]
      rfl
    | data d =>
      unfold receive Protocol.receive answered
      by_cases hd : Protocol.isComment d
      · rw [if_pos hd, if_pos hd, if_pos hd, Call.modify_bind, ih (by simpa using hi), obj_put hi,
          put_put]
      · rw [if_neg hd, if_neg hd, if_neg hd, put_obj]
        rfl

theorem send_raise (h : (w.obj i).connected = true) {x : Exchange} (hx : x.sent = false)
    (msg : Text) (args : List Text) : (send i msg args x).run w = (.error .socketError, w) := by
  unfold send
  rw [Call.get_bind, if_pos h, if_neg (by rw [hx]; decide), Call.run_raise]

/-- A line that goes out is answered as `Protocol.send` has it, or the protocol is
given up. -/
theorem send_apply (h : (w.obj i).connected = true) {x : Exchange} (hx : x.sent = true)
    (msg : Text) (args : List Text) :
    (send i msg args x).run w = (.ok ((w.obj i).send msg args x.answers).1,
      (w.put i ((w.obj i).send msg args x.answers).2).lose !answered x.answers) := by
  have hi := lt_of_connected h
  unfold send Protocol.send
  rw [Call.get_bind, if_pos h, if_pos hx, if_pos h, Call.modify_bind,
    receive_apply (by simpa using hi), obj_put hi, put_put]

/-- Nobody is there, or nothing comes in time: the socket is closed. -/
theorem connect_refused (hc : (w.obj i).connected = false) {h : Hello} (hr : h.reply = none) :
    ∃ p : Protocol, p.closed = true ∧ (connect i h).run w = (.ok false, w.put i p) := by
  have hc : ¬ (w.obj i).connected = true := by rw [hc]; decide
  unfold connect
  rw [Call.get_bind, if_neg hc]
  by_cases hu : (h.up && h.sent) = true
  · unfold Hello.reply at hr
    rw [if_pos hu] at hr ⊢
    cases ha : h.answer with
    | data d =>
      rw [ha] at hr
      cases hr
    | error => exact ⟨_, rfl, congrArg (Prod.mk _) put_put⟩
  · rw [if_neg hu]
    exact ⟨_, rfl, rfl⟩

/-- The object after its `*HELLO*` is out. -/
def greeted (p : Protocol) : Protocol := { p with sent := p.sent ++ ascii "*HELLO*\r\n" }

theorem connect_answered (hc : (w.obj i).connected = false) (hi : i < w.protocols.length)
    {h : Hello} {d : Text} (hr : h.reply = some d) :
    (connect i h).run w =
      if finds (ascii "*HELLO*") d then
        (.ok true, w.put i { greeted (w.obj i) with connected := true })
      else (.ok false, (w.put i (greeted (w.obj i))).disconnected) := by
  have hn : ¬ (w.obj i).connected = true := by rw [hc]; decide
  unfold Hello.reply at hr
  have hu : (h.up && h.sent) = true := by
    by_contra hu
    rw [if_neg hu] at hr
    cases hr
  rw [if_pos hu] at hr
  unfold connect
  rw [Call.get_bind, if_neg hn, if_pos hu, Call.modify_bind]
  have hobj : (w.put i (greeted (w.obj i))).obj i = greeted (w.obj i) := obj_put hi
  cases ha : h.answer with
  | error =>
    rw [ha] at hr
    cases hr
  | data d' =>
    rw [ha] at hr
    cases hr
    by_cases hd : finds (ascii "*HELLO*") d
    · show ((if finds (ascii "*HELLO*") d then _ else _ : Handler Bool)).run
        (w.put i (greeted (w.obj i))) = _
      rw [if_pos hd, if_pos hd, Call.modify_bind, hobj, put_put, Call.run_pure]
    · have hdrop : (w.obj i).connected = false → (greeted (w.obj i)).drop = greeted (w.obj i) :=
        fun h => if_neg (by show ¬ (w.obj i).connected = true; rw [h]; decide)
      show ((if finds (ascii "*HELLO*") d then _ else _ : Handler Bool)).run
        (w.put i (greeted (w.obj i))) = _
      rw [if_neg hd, if_neg hd, Call.bind_ok (drop_apply _ _), hobj, hdrop hc, put_put,
        Call.run_pure]

theorem disconnect_direct (h : (w.obj i).connected = true) :
    (disconnect i none true).run w = (shut i).run w := by
  show ((if (w.obj i).connected then shut i else pure ()) : Handler Unit).run w = _
  rw [if_pos h]

theorem disconnect_close (h : (w.obj i).connected = true) (x : Exchange) :
    (disconnect i (some x) false).run w =
      (send i (ascii "close") [] x >>= fun _ => shut i).run w.disconnected := by
  have h' : (w.disconnected.obj i).connected = true := h
  show ((if (w.disconnected.obj i).connected then send i (ascii "close") [] x >>= fun _ => shut i
    else pure ()) : Handler Unit).run w.disconnected = _
  rw [if_pos h']

end

end Window

end RobotPws.Gui
