import Mathlib.Data.List.Infix
import RobotPws.Lib.Lines

/-!
# The GUI's end of the protocol

`Protocol` of `gui.py`, over its socket: what goes out is collected in `sent`,
what `recv` gives is an input, one `Received` for each call. When the inputs
are used up nothing more arrives and `recv` raises its timeout. Strings are
byte strings.
-/

namespace RobotPws.Gui

open RobotPws.Lib

abbrev Text := List UInt8

/-- The result of `recv`: bytes (none once the peer has closed) or an
exception. -/
inductive Received where
  | data (d : Text)
  | error
  deriving DecidableEq, Repr

/-- What `send` returns. -/
inductive Value where
  | bool (b : Bool)
  | str (s : Text)
  deriving DecidableEq, Repr

/-- `data[:-2]`. -/
def dropEnd2 (d : Text) : Text := d.take (d.length - 2)

/-- `data.find(pat) != -1`. -/
def finds (pat d : Text) : Bool := decide (pat <:+: d)

def crlf : Text := [13, 10]

structure Protocol where
  connected : Bool
  comments : List Text
  sent : Text
  closed : Bool
  deriving DecidableEq, Repr

namespace Protocol

/-- `__init__`. -/
def new : Protocol := ⟨false, [], [], false⟩

/-- The line for a message and its arguments. -/
def line (msg : Text) (args : List Text) : Text := msg ++ args.flatMap (32 :: ·) ++ crlf

/-- `disconnect(False)`: what it does to the protocol itself. -/
def drop (p : Protocol) : Protocol :=
  if p.connected then { p with closed := true, connected := false } else p

/-- A comment is kept, in place of the last one when there are too many. -/
def keep (comments : List Text) (c : Text) : List Text :=
  (if 100 < comments.length then comments.dropLast else comments) ++ [c]

/-- `data[:3] == "***"`. -/
def isComment (d : Text) : Bool := d.take 3 == ascii "***"

/-- What a `recv` result that is no comment is read as. -/
def decode (d : Text) : Value :=
  if d.take 1 = ascii "*" then .bool (finds (ascii "*OK*") d) else .str (dropEnd2 d)

/-- The loop of `send`. -/
def receive (p : Protocol) : List Received → Value × Protocol
  | [] | .error :: _ => (.str [], p.drop)
  | .data d :: rs =>
    if isComment d then receive { p with comments := keep p.comments (dropEnd2 d) } rs
    else (decode d, p)

def send (p : Protocol) (msg : Text) (args : List Text) (rs : List Received) : Value × Protocol :=
  if p.connected then receive { p with sent := p.sent ++ line msg args } rs else (.bool false, p)

/-- `connect`; `up` tells whether the socket connects. -/
def connect (p : Protocol) (up : Bool) (rs : List Received) : Bool × Protocol :=
  if p.connected then (true, p)
  else if up then
    let p := { p with sent := p.sent ++ ascii "*HELLO*\r\n" }
    match rs with
    | .data d :: _ =>
      if finds (ascii "*HELLO*") d then (true, { p with connected := true }) else (false, p.drop)
    | _ => (false, { p with closed := true })
  else (false, { p with closed := true })

end Protocol

end RobotPws.Gui
