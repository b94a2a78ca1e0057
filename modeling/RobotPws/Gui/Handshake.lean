import RobotPws.Gui.Protocol
import RobotPws.Main
import RobotPws.Wifly.Framing
import RobotPws.Wifly.Moves

/-!
# Connecting

`connect` sends `*HELLO*` and nothing to clear the robot's buffers before it,
so the handshake is appended to whatever line the robot was reading. `HelloSafe`
says of the text of that line when the robot still answers `*HELLO*` without a
call of its callback; `connect_safe_iff` is about every state in which the loop
waits for a character.
-/

namespace RobotPws.Gui

open RobotPws.Lib RobotPws.Wifly

/-- What a new `Protocol` sends to connect. -/
def handshake : Text := ascii "*HELLO*\r\n"

theorem connect_sent (rs : List Received) : (Protocol.new.connect true rs).2.sent = handshake := by
  rcases rs with _ | ⟨_ | _, rs⟩
  · rfl
  · simp only [Protocol.connect, Protocol.new, Bool.false_eq_true, ↓reduceIte]
    split
    · rfl
    · rw [Protocol.drop, if_neg (by simp)]
      rfl
  · rfl

/-- The handshake is answered and the callback is not called. -/
def Connects (evs : List Event) : Prop :=
  .reply helloMsg ∈ evs ∧ ∀ id args, .call id args ∉ evs

/-- The robot was reading no line, or one whose id the handshake does not
touch and which is a `*HELLO*` itself, or a `*HELLO*` cut off by a terminator. -/
def HelloSafe (t : List UInt8) : Prop :=
  if 32 ∈ t then
    (argsPart t).length ≤ 1016 ∧ isStatusId (idPart t) = true ∧ Main.cText (idPart t) = helloId
  else t = [] ∨ t = helloId ++ [0]

instance (t : List UInt8) : Decidable (HelloSafe t) := by unfold HelloSafe; infer_instance

/-! ## The line with the handshake -/

theorem helloSafe_iff {t : List UInt8} (ht : Fits t) :
    HelloSafe t ↔ Fits (t ++ helloId) ∧ isStatusId (idPart (t ++ helloId)) = true ∧
      Main.cText (idPart (t ++ helloId)) = helloId := by
  by_cases h : 32 ∈ t
  · have hid : idPart (t ++ helloId) = idPart t := before_append h _
    have hargs : argsPart (t ++ helloId) = argsPart t ++ helloId := after_append h _
    have hlen : helloId.length = 7 := rfl
    rw [HelloSafe, if_pos h, Fits, hid, hargs, List.length_append, hlen]
    have hi := ht.1
    constructor
    · rintro ⟨h1, h2⟩
      exact ⟨⟨hi, by omega⟩, h2⟩
    · rintro ⟨⟨-, h1⟩, h2⟩
      exact ⟨by omega, h2⟩
  · have hid : idPart (t ++ helloId) = t ++ helloId :=
      before_of_not_mem (by rw [List.mem_append, not_or]; exact ⟨h, by decide⟩)
    rw [HelloSafe, if_neg h, hid]
    constructor
    · rintro (rfl | rfl) <;> exact ⟨⟨by decide, by decide⟩, by decide, by decide⟩
    · rintro ⟨⟨hlen, -⟩, -, htext⟩
      rw [hid, List.length_append, show helloId.length = 7 from rfl] at hlen
      by_cases h0 : 0 ∈ t
      · -- the terminator ends the id before the handshake
        obtain ⟨t₁, t₂, rfl, h1⟩ := List.eq_append_cons_of_mem h0
        have hp : ∀ x ∈ t₁, (x != 0) = true := fun x hx => bne_iff_ne.2 fun e => h1 (e ▸ hx)
        rw [Main.cText, List.append_assoc, List.takeWhile_append_of_pos hp, List.cons_append,
          List.takeWhile_cons_of_neg (by simp), List.append_nil] at htext
        subst htext
        have h2 : t₂ = [] := by
          rw [List.length_append, List.length_cons, show helloId.length = 7 from rfl] at hlen
          exact List.length_eq_zero_iff.1 (by omega)
        exact .inr (by rw [h2])
      · have hp : ∀ x ∈ t, (x != 0) = true := fun x hx => bne_iff_ne.2 fun e => h0 (e ▸ hx)
        rw [Main.cText, List.takeWhile_append_of_pos hp,
          List.takeWhile_eq_self_iff.2 (List.all_eq_true.1 rfl)] at htext
        exact .inl (List.append_left_eq_self.1 htext)

/-! ## What is left after an overflow -/

section
variable {σ : Type} (f : Callback σ)

theorem hello_mem_refLine {env : σ} {line : List UInt8}
    (h : .reply helloMsg ∈ (refLine f env line).2) : idPart (text line) = helloId := by
  unfold refLine at h
  by_contra hne
  cases hs : isStatusId (idPart (text line)) with
  | true =>
    simp only [hs, ↓reduceIte, if_neg hne, List.mem_singleton] at h
    exact absurd h (by decide)
  | false =>
    simp only [hs, Bool.false_eq_true, ↓reduceIte] at h
    generalize f env (idPart (text line)) (argsPart (text line)) = r at h
    obtain ⟨env', sent, ret⟩ := r
    cases ret <;> simp [helloMsg, okMsg, errorMsg, ascii] at h

theorem feedAll_suffix {s : LoopState σ} (hs : s.parser.Boundary) (h0 : s.skip = 0) {u : Text}
    (hu : u <:+ handshake) (hne : u ≠ handshake) : .reply helloMsg ∉ (feedAll f s u).2 := by
  have hcases : ∀ u ∈ handshake.tails, u = [] ∨ u = handshake ∨
      (u = u.dropLast ++ [10] ∧ LineOk u.dropLast ∧ idPart (text u.dropLast) ≠ helloId) := by
    decide
  rcases hcases u ((List.mem_tails _ _).2 hu) with rfl | rfl | ⟨he, hl, hid⟩
  · exact List.not_mem_nil
  · exact absurd rfl hne
  · obtain ⟨p, -, hp⟩ := feedAll_line f hs h0 hl
    rw [he, hp]
    exact fun hm => hid (hello_mem_refLine f hm)

/-- An overflow loses the handshake. -/
theorem feedAll_no_hello {s : LoopState σ} {t : List UInt8} (h : Reads s.parser t)
    (h0 : s.skip = 0) (ht : Fits t) (hno : ¬ Fits (t ++ helloId)) :
    .reply helloMsg ∉ (feedAll f s handshake).2 := by
  obtain ⟨u₁, b, u₂, s', hu, hs', he⟩ :=
    feedAll_overflow f h h0 (u := ascii "*HELLO*\r") (by decide) ht hno
  have hsplit : handshake = u₁ ++ [b] ++ (u₂ ++ [10]) := by
    rw [show handshake = ascii "*HELLO*\r" ++ [10] from rfl, hu]
    simp
  have hsuffix : (u₂ ++ [10]).drop s'.skip <:+ handshake :=
    (List.drop_suffix _ _).trans ⟨u₁ ++ [b], hsplit.symm⟩
  have hne : (u₂ ++ [10]).drop s'.skip ≠ handshake := by
    intro hd
    have hlen := congrArg List.length hd
    rw [hsplit, List.length_drop, List.length_append] at hlen
    simp at hlen
    omega
  rw [hsplit, feedAll_append, he, feedAll_skip]
  intro hm
  rcases List.mem_append.1 hm with hm | hm
  · exact absurd (List.mem_singleton.1 hm) (by decide)
  · exact feedAll_suffix f (s := { s' with skip := 0 }) hs' rfl hsuffix hne hm

/-! ## The handshake in any state -/

/-- The line with the handshake appended is answered like any other. -/
theorem feedAll_handshake {s : LoopState σ} {t : List UInt8} (h : Reads s.parser t)
    (h0 : s.skip = 0) (hfit : Fits (t ++ helloId)) :
    Connects (feedAll f s handshake).2 ↔
      isStatusId (idPart (t ++ helloId)) = true ∧
        Main.cText (idPart (t ++ helloId)) = helloId := by
  obtain ⟨p, hp, hr⟩ := feedAll_text f h h0 (u := ascii "*HELLO*\r") (by decide) hfit.1 hfit.2
  have hr : Reads p (t ++ helloId) := hr
  have hbyte := fun hv => feedByte_line f (s := { s with parser := p }) h0
    (hr.feed_newline hfit.1 hfit.2) hv
  have hevs : (feedAll f s handshake).2 =
      (serve f s.env p.terminate p.terminate.lineVerdict).2 := by
    rw [show handshake = ascii "*HELLO*\r" ++ [10] from rfl, feedAll_append, hp]
    simp only [feedAll, hbyte (Parser.lineVerdict_ne_overflow _), List.nil_append, List.append_nil]
  rw [hevs, Main.cText, ← hr.cstring_id_takeWhile hfit.1, ← hr.isStatus,
    ← Parser.lineVerdict_hello]
  cases hv : p.terminate.lineVerdict with
  | more => exact absurd hv (Parser.lineVerdict_ne_more _)
  | overflow => exact absurd hv (Parser.lineVerdict_ne_overflow _)
  | hello => exact ⟨fun _ => rfl, fun _ => ⟨List.mem_singleton_self _, by simp [serve]⟩⟩
  | badStatus =>
    refine ⟨fun h => ?_, fun h => by cases h⟩
    exact absurd (List.mem_singleton.1 h.1) (by decide)
  | command =>
    refine ⟨fun h => ?_, fun h => by cases h⟩
    exact absurd List.mem_cons_self (h.2 _ _)

/-- **Connecting** from any state in which the loop waits for a character:
`*HELLO*` is answered and the callback is not called exactly when the line held
is `HelloSafe`. -/
theorem connect_safe_iff {ω τ : Type} (cb : ProtocolCallback ω τ) (s : Sys τ)
    (hs : Reach (Sys.step cb) Always Sys.init s) (hpc : s.pc = .evtWait) (env : σ)
    (queued : List Nat) (rs : List Received) :
    Connects (feedAll f ⟨env, s.parser.map, 0, queued⟩ (Protocol.new.connect true rs).2.sent).2 ↔
      HelloSafe s.parser.map.lineText := by
  have hok : s.parser.Ok := Sys.reach_bounded hs (by rw [hpc]; rfl)
  obtain ⟨hr, ht⟩ := reads_lineText (Sys.reach_clean hs).map ⟨hok.i, hok.j⟩
  rw [connect_sent, helloSafe_iff ht]
  by_cases hfit : Fits (s.parser.map.lineText ++ helloId)
  · rw [feedAll_handshake f hr rfl hfit]
    exact (and_iff_right hfit).symm
  · exact ⟨fun h => absurd h.1 (feedAll_no_hello f hr rfl ht hfit), fun h => absurd h.1 hfit⟩

end

/-- A callback that sends nothing and returns `M_OK`. -/
def okCallback : Callback Unit := fun _ _ _ => ((), [], .ok)

/-- Between two lines. -/
theorem connect_safe_boundary :
    ∃ s, Reach (Sys.step Main.callback) Always Sys.init s ∧ s.pc = .evtWait ∧
      Connects (feedAll okCallback ⟨(), s.parser.map, 0, []⟩
        (Protocol.new.connect true [.data helloMsg]).2.sent).2 := by
  obtain ⟨s, hr, hp⟩ := reach_of_exec (Sys.step Main.callback) Always Sys.init
    (script [(2, .thread)]) (fun s => decide (s.pc = .evtWait ∧ s.parser.map.lineText = []))
    (by decide +kernel)
  simp only [decide_eq_true_eq] at hp
  refine ⟨s, hr, hp.1, (connect_safe_iff okCallback Main.callback s hr hp.1 () [] _).2 ?_⟩
  rw [hp.2]
  decide

/-- After `forward 3` the handshake makes the robot drive. -/
theorem connect_drives :
    ∃ s, Reach (Sys.step Main.callback) Always Sys.init s ∧ s.pc = .evtWait ∧
      let evs := (feedAll okCallback ⟨(), s.parser.map, 0, []⟩
        (Protocol.new.connect true [.data okMsg]).2.sent).2
      evs = [.call (ascii "forward") (ascii "3*HELLO*"), .reply okMsg] ∧ ¬ Connects evs ∧
      Main.start (ascii "forward") (ascii "3*HELLO*") = .drive .forward 3 := by
  obtain ⟨s, hr, hp⟩ := reach_of_exec (Sys.step Main.callback) Always Sys.init
    (script [(2, .thread)] ++ Act.feed (ascii "forward 3"))
    (fun s => decide (s.pc = .evtWait ∧ (feedAll okCallback ⟨(), s.parser.map, 0, []⟩
      handshake).2 = [.call (ascii "forward") (ascii "3*HELLO*"), .reply okMsg]))
    (by decide +kernel)
  simp only [decide_eq_true_eq] at hp
  refine ⟨s, hr, hp.1, ?_⟩
  rw [connect_sent]
  exact ⟨hp.2, fun h => h.2 _ _ (hp.2 ▸ List.mem_cons_self), by decide⟩

end RobotPws.Gui
