import RobotPws.Hal.Transmit
import RobotPws.Sonar.Model
import RobotPws.Wifly.System

/-!
# The send path of a reply

A reply to `readHead` or `readSonar` is formatted by `itoa` into the static `string`, counted by
`strlen` and read from there byte by byte in `sdWrite`. `Sending` follows it store by store and
character by character, with the interrupts of the USART between; nothing in it assumes that
`string` keeps what `itoa` has stored. Whatever the array holds, the output of the driver and what
the reply will still read add up to the same bytes along a run (`step_output`), and every run can
be completed.
-/

namespace RobotPws.Sonar

open RobotPws.Lib RobotPws.Kernel RobotPws.Hal RobotPws.Main RobotPws.Wifly

/-- Where `wiflySend(itoa(value))` is on the wifly thread. -/
inductive SendPoint where
  /-- in `itoa`: the cells below `j` are stored -/
  | format (j : Nat)
  /-- `itoa` has returned, the message has not been found empty or not -/
  | call
  /-- in the `strlen` of `sdWrite`'s argument: `k` characters are counted -/
  | strlen (k : Nat)
  /-- in `sdWrite`: `k` characters are written, `n` still have to be -/
  | write (k n : Nat)
  deriving DecidableEq, Repr

/-- A reply to `readHead` or `readSonar` on its way. -/
structure Reply where
  /-- what `getHeading` or `sonarDistance` gave -/
  value : Int
  point : SendPoint
  deriving DecidableEq, Repr

/-- What the driver has been given: the bytes transmitted and those in its output queue. -/
def Output (sd : SerialDriver) (bs : List UInt8) : Prop :=
  ∃ Q, sd.oqueue.OQHolds Q ∧ sd.tx ++ Q = bs

namespace Reply

/-- The characters of `itoa(value)`. -/
def text (r : Reply) : List UInt8 := cText (itoa r.value)

/-- How many characters have been given to the driver. -/
def put (r : Reply) : Nat :=
  match r.point with
  | .write k _ => k
  | _ => 0

/-- `sdWrite` has nothing left to write. -/
def Complete (r : Reply) : Prop := ∃ k, r.point = .write k 0

/-- The characters the reply will still give to the driver, if `string` now holds `cs` and only
the stores `itoa` has still to make change it. -/
def unread (r : Reply) (cs : List UInt8) : List UInt8 :=
  match r.point with
  | .format j => cText (cs.take j ++ (itoa r.value ++ [0]).drop j)
  | .call => cText cs
  | .strlen k => cs.take (k + (cText (cs.drop k)).length)
  | .write k n => (cs.drop k).take n

/-- The characters counted are in the array. -/
def Inside (r : Reply) : Prop :=
  match r.point with
  | .format j => j < 7
  | .call => True
  | .strlen k => k ≤ 7
  | .write k n => k + n ≤ 7

/-- `string` holds what `itoa` has stored. -/
def Intact (r : Reply) (cs : List UInt8) : Prop :=
  match r.point with
  | .format j => j < 7 ∧ cs.take j = (itoa r.value ++ [0]).take j
  | .call => cs = itoa r.value ++ [0]
  | .strlen k => cs = itoa r.value ++ [0] ∧ k ≤ r.text.length
  | .write k n => cs = itoa r.value ++ [0] ∧ k + n = r.text.length

end Reply

/-- The wifly thread in `wiflySend(itoa(value))`, and the driver SD2. -/
structure Sending where
  string : CArray UInt8 7
  sd : SerialDriver
  reply : Reply

/-- Who moves. -/
inductive SendLabel where
  | reply
  | usart (sr : SR) (dr : UInt8)

namespace Sending

def goto (s : Sending) (p : SendPoint) : Sending := { s with reply := { s.reply with point := p } }

/-- One step of the send path or one interrupt of the USART. A write to a full queue waits. -/
def step (s : Sending) : SendLabel → Option Sending
  | .usart sr dr => some { s with sd := s.sd.serveInterrupt sr dr }
  | .reply =>
    match s.reply.point with
    | .format j => (itoa s.reply.value ++ [0])[j]?.map fun c =>
        { s.goto (if j < 6 then .format (j + 1) else .call) with string := s.string.store j c }
    | .call => some (s.goto (if cText s.string.cells = [] then .write 0 0 else .strlen 0))
    | .strlen k =>
      some (s.goto (if s.string.cells.getD k 0 = 0 then .write 0 k else .strlen (k + 1)))
    | .write _ 0 => none
    | .write k (n + 1) => (s.sd.sdWriteByte (s.string.cells.getD k 0)).map fun sd =>
        { s.goto (.write (k + 1) n) with sd }

/-- What the reply will still give to the driver. -/
def unread (s : Sending) : List UInt8 := s.reply.unread s.string.cells

/-- The wifly thread's step, one constructor for each thing it does. -/
inductive ReplyStep (s : Sending) : Sending → Prop where
  | format (j : Nat) (c : UInt8) : s.reply.point = .format j →
      (itoa s.reply.value ++ [0])[j]? = some c →
      ReplyStep s { s.goto (if j < 6 then .format (j + 1) else .call) with
        string := s.string.store j c }
  | empty : s.reply.point = .call → cText s.string.cells = [] → ReplyStep s (s.goto (.write 0 0))
  | call : s.reply.point = .call → cText s.string.cells ≠ [] → ReplyStep s (s.goto (.strlen 0))
  | counted (k : Nat) : s.reply.point = .strlen k → s.string.cells.getD k 0 = 0 →
      ReplyStep s (s.goto (.write 0 k))
  | count (k : Nat) : s.reply.point = .strlen k → s.string.cells.getD k 0 ≠ 0 →
      ReplyStep s (s.goto (.strlen (k + 1)))
  | write (k n : Nat) (sd : SerialDriver) : s.reply.point = .write k (n + 1) →
      s.sd.sdWriteByte (s.string.cells.getD k 0) = some sd →
      ReplyStep s { s.goto (.write (k + 1) n) with sd }

theorem replyStep_of_step {s t : Sending} (h : s.step .reply = some t) : ReplyStep s t := by
  unfold step at h
  dsimp only at h
  split at h
  · next j hp =>
    obtain ⟨c, hc, rfl⟩ := Option.map_eq_some_iff.1 h
    exact .format j c hp hc
  · next hp =>
    cases h
    by_cases he : cText s.string.cells = []
    · rw [if_pos he]
      exact .empty hp he
    · rw [if_neg he]
      exact .call hp he
  · next k hp =>
    cases h
    by_cases hz : s.string.cells.getD k 0 = 0
    · rw [if_pos hz]
      exact .counted k hp hz
    · rw [if_neg hz]
      exact .count k hp hz
  · cases h
  · next k n hp =>
    obtain ⟨sd, hsd, rfl⟩ := Option.map_eq_some_iff.1 h
    exact .write k n sd hp hsd

end Sending

/-! ## The characters of a C string -/

theorem getD_cText_ne {cs : List UInt8} {k : Nat} (h : k < (cText cs).length) :
    cs.getD k 0 ≠ 0 := by
  have hget : cs.getD k 0 = (cText cs)[k] := by
    obtain ⟨rest, hrest⟩ : cText cs <+: cs := List.takeWhile_prefix _
    conv_lhs => rw [← hrest]
    rw [List.getD_eq_getElem?_getD, List.getElem?_append_left h, List.getElem?_eq_getElem h]
    rfl
  rw [hget]
  simpa using List.mem_takeWhile_imp (List.getElem_mem h)

theorem cText_drop_zero {cs : List UInt8} {k : Nat} (h : cs.getD k 0 = 0) :
    cText (cs.drop k) = [] := by
  by_cases hk : k < cs.length
  · rw [List.drop_eq_getElem_cons hk]
    have hz : cs[k] = 0 := by simpa [hk] using h
    simp [cText, hz]
  · rw [List.drop_of_length_le (by omega)]
    rfl

theorem cText_drop_ne {cs : List UInt8} {k : Nat} (h : cs.getD k 0 ≠ 0) : k < cs.length ∧
    (cText (cs.drop k)).length = (cText (cs.drop (k + 1))).length + 1 := by
  by_cases hk : k < cs.length
  · have hne : cs[k] ≠ 0 := by simpa [hk] using h
    refine ⟨hk, ?_⟩
    rw [List.drop_eq_getElem_cons hk, cText, List.takeWhile_cons_of_pos (by simpa using hne)]
    rfl
  · refine absurd ?_ h
    rw [List.getD_eq_getElem?_getD, List.getElem?_eq_none (by omega)]
    rfl

theorem add_cText_drop {cs : List UInt8} {k : Nat} (h : k ≤ (cText cs).length) :
    k + (cText (cs.drop k)).length = (cText cs).length := by
  induction k with
  | zero => rw [List.drop_zero, Nat.zero_add]
  | succ k ih =>
    have := (cText_drop_ne (getD_cText_ne h)).2
    have := ih (by omega)
    omega

theorem take_cText (cs : List UInt8) : cs.take (cText cs).length = cText cs :=
  (List.prefix_iff_eq_take.1 (List.takeWhile_prefix _)).symm

/-! ## What the driver is given -/

theorem Output.put {sd sd' : SerialDriver} {bs : List UInt8} {b : UInt8} (h : Output sd bs)
    (hs : sd.sdWriteByte b = some sd') : Output sd' (bs ++ [b]) := by
  obtain ⟨Q, hQ, rfl⟩ := h
  obtain ⟨q, hq, rfl⟩ := Option.map_eq_some_iff.1 hs
  exact ⟨Q ++ [b], hQ.put hq, (List.append_assoc ..).symm⟩

theorem Output.serveInterrupt {sd : SerialDriver} {bs : List UInt8} (h : Output sd bs) (sr : SR)
    (dr : UInt8) : Output (sd.serveInterrupt sr dr) bs := by
  obtain ⟨Q, hQ, rfl⟩ := h
  obtain ⟨Q', hQ', htx, -, -⟩ := SerialDriver.serveInterrupt_holds hQ sr dr
  exact ⟨Q', hQ', htx⟩

theorem Output.unique {sd : SerialDriver} {bs bs' : List UInt8} (h : Output sd bs)
    (h' : Output sd bs') : bs = bs' := by
  obtain ⟨Q, hQ, rfl⟩ := h
  obtain ⟨Q', hQ', rfl⟩ := h'
  rw [hQ.unique hQ']

namespace Reply

theorem text_length_le (r : Reply) : r.text.length ≤ 6 := (List.takeWhile_prefix _).length_le

theorem Complete.unread {r : Reply} (h : r.Complete) (cs : List UInt8) : r.unread cs = [] := by
  obtain ⟨k, hk⟩ := h
  unfold Reply.unread
  rw [hk]
  exact List.take_zero

theorem Intact.inside {r : Reply} {cs : List UInt8} (h : r.Intact cs) : r.Inside := by
  have hlen := r.text_length_le
  obtain ⟨value, point⟩ := r
  cases point with
  | format j => exact h.1
  | call => trivial
  | strlen k =>
    have hk : k ≤ _ := h.2
    show k ≤ 7
    omega
  | write k n =>
    have hk : k + n = _ := h.2
    show k + n ≤ 7
    omega

theorem Intact.put_le {r : Reply} {cs : List UInt8} (h : r.Intact cs) :
    r.put ≤ r.text.length := by
  obtain ⟨value, point⟩ := r
  cases point with
  | format | call | strlen => exact Nat.zero_le _
  | write k n =>
    have hk : k + n = _ := h.2
    show k ≤ _
    omega

theorem Intact.complete {r : Reply} {cs : List UInt8} (h : r.Intact cs) (h0 : r.put ≠ 0)
    (hle : r.text.length ≤ r.put) : r.Complete := by
  obtain ⟨value, point⟩ := r
  cases point with
  | format | call | strlen => exact absurd rfl h0
  | write k n =>
    have hk : k + n = _ := h.2
    have hle' : _ ≤ k := hle
    obtain rfl : n = 0 := by omega
    exact ⟨k, rfl⟩

theorem Intact.take_of_complete {r : Reply} {cs : List UInt8} (h : r.Intact cs)
    (hc : r.Complete) : r.text.take r.put = r.text := by
  obtain ⟨value, point⟩ := r
  obtain ⟨k, rfl⟩ := hc
  have hk : k + 0 = _ := h.2
  exact List.take_of_length_le (Nat.le_of_eq hk.symm)

/-- While `string` is as `itoa` stores it, the rest of the text is still to be read. -/
theorem Intact.unread {r : Reply} {cs : List UInt8} (h : r.Intact cs) :
    r.unread cs = r.text.drop r.put := by
  have htext : cText (itoa r.value ++ [0]) = r.text := cText_append_nul _
  obtain ⟨value, point⟩ := r
  cases point with
  | format j =>
    show cText (cs.take j ++ _) = _
    rw [h.2, List.take_append_drop]
    exact htext
  | call =>
    obtain rfl : cs = itoa value ++ [0] := h
    exact htext
  | strlen k =>
    obtain ⟨rfl, hk⟩ : cs = itoa value ++ [0] ∧ _ := h
    rw [← htext] at hk
    show List.take (k + _) _ = _
    rw [add_cText_drop hk, take_cText]
    exact htext
  | write k n =>
    obtain ⟨rfl, hk⟩ : cs = itoa value ++ [0] ∧ k + n = _ := h
    show ((itoa value ++ [0]).drop k).take n = List.drop k _
    rw [← htext] at hk ⊢
    rw [← take_cText, List.drop_take]
    congr 1
    dsimp only at hk ⊢
    omega

end Reply

namespace Sending

variable {s t : Sending} {a : SendLabel} {total : List UInt8}

/-- The output and what the reply will still give to the driver make up `total`. -/
structure Owes (total : List UInt8) (s : Sending) : Prop where
  inside : s.reply.Inside
  output : ∃ bs, Output s.sd bs ∧ bs ++ s.unread = total

theorem getD_eq_getElem (s : Sending) {k : Nat} (h : k < 7) :
    ∃ hk : k < s.string.cells.length, s.string.cells.getD k 0 = s.string.cells[k] := by
  have hk : k < s.string.cells.length := by rw [s.string.size]; exact h
  refine ⟨hk, ?_⟩
  rw [List.getD_eq_getElem?_getD, List.getElem?_eq_getElem hk]
  rfl

/-- A step that writes nothing leaves the characters still to be read as they are, one that writes
takes the first of them. -/
theorem replyStep_unread (h : ReplyStep s t) (hin : s.reply.Inside) : t.reply.Inside ∧
    ((t.sd = s.sd ∧ t.unread = s.unread) ∨
      ∃ b, s.sd.sdWriteByte b = some t.sd ∧ s.unread = b :: t.unread) := by
  obtain ⟨string, sd, value, point⟩ := s
  cases h with
  | format j c hp hc =>
    cases hp
    have hj : j < 7 := hin
    have htake := CArray.take_store_succ string hj c
    have hdrop : (itoa value ++ [0]).drop j = c :: (itoa value ++ [0]).drop (j + 1) := by
      obtain ⟨hlt, hget⟩ := List.getElem?_eq_some_iff.1 hc
      rw [List.drop_eq_getElem_cons hlt]
      exact congrArg (· :: _) hget
    have hread : string.cells.take j ++ (itoa value ++ [0]).drop j =
        (string.store j c).cells.take (j + 1) ++ (itoa value ++ [0]).drop (j + 1) := by
      rw [htake, hdrop, List.append_assoc]
      rfl
    by_cases h6 : j < 6
    · rw [if_pos h6]
      exact ⟨Nat.succ_lt_succ h6, .inl ⟨rfl, congrArg cText hread.symm⟩⟩
    · rw [if_neg h6]
      obtain rfl : j = 6 := by omega
      refine ⟨trivial, .inl ⟨rfl, congrArg cText (Eq.trans ?_ hread.symm)⟩⟩
      have hlen : (string.store 6 c).cells.length ≤ 7 := Nat.le_of_eq (string.store 6 c).size
      rw [List.take_of_length_le hlen]
      exact (List.append_nil _).symm
  | empty hp he =>
    cases hp
    exact ⟨Nat.zero_le _, .inl ⟨rfl, he.symm⟩⟩
  | call hp he =>
    cases hp
    refine ⟨Nat.zero_le _, .inl ⟨rfl, ?_⟩⟩
    show string.cells.take (0 + (cText (string.cells.drop 0)).length) = cText string.cells
    rw [List.drop_zero, Nat.zero_add, take_cText]
  | counted k hp hz =>
    cases hp
    have hk : k ≤ 7 := hin
    refine ⟨by show 0 + k ≤ 7; omega, .inl ⟨rfl, ?_⟩⟩
    show (string.cells.drop 0).take k = string.cells.take (k + (cText (string.cells.drop k)).length)
    rw [cText_drop_zero hz]
    rfl
  | count k hp hz =>
    cases hp
    obtain ⟨hlt, hlen⟩ := cText_drop_ne hz
    dsimp only at hlt hlen
    rw [string.size] at hlt
    refine ⟨hlt, .inl ⟨rfl, ?_⟩⟩
    show string.cells.take (k + 1 + (cText (string.cells.drop (k + 1))).length) =
      string.cells.take (k + (cText (string.cells.drop k)).length)
    rw [hlen, Nat.add_assoc, Nat.add_comm 1]
  | write k n sd' hp hsd =>
    cases hp
    have hk : k + (n + 1) ≤ 7 := hin
    refine ⟨by show k + 1 + n ≤ 7; omega, .inr ⟨_, hsd, ?_⟩⟩
    obtain ⟨hlt, hget⟩ := getD_eq_getElem ⟨string, sd, value, .write k (n + 1)⟩
      (k := k) (by omega)
    show (string.cells.drop k).take (n + 1) = _ :: (string.cells.drop (k + 1)).take n
    rw [hget, List.drop_eq_getElem_cons hlt, List.take_succ_cons]

/-- **The send path**: a step moves bytes from what is still to be read to the output. -/
theorem step_output (h : Owes total s) (hs : s.step a = some t) : Owes total t := by
  obtain ⟨bs, hout, htotal⟩ := h.output
  cases a with
  | usart sr dr =>
    cases hs
    exact ⟨h.inside, bs, hout.serveInterrupt sr dr, htotal⟩
  | reply =>
    obtain ⟨hin, ⟨hsd, hun⟩ | ⟨b, hb, hun⟩⟩ := replyStep_unread (replyStep_of_step hs) h.inside
    · exact ⟨hin, bs, hsd ▸ hout, hun ▸ htotal⟩
    · refine ⟨hin, bs ++ [b], hout.put hb, ?_⟩
      rw [← htotal, hun, List.append_assoc]
      rfl

theorem run_output {as : List SendLabel} (h : Owes total s)
    (hs : Steps Sending.step Always s as t) : Owes total t :=
  hs.inv (fun _ _ _ h _ hs => step_output h hs) h

theorem Owes.complete (h : Owes total s) (hc : s.reply.Complete) : Output s.sd total := by
  obtain ⟨bs, hout, htotal⟩ := h.output
  rw [Sending.unread, hc.unread, List.append_nil] at htotal
  exact htotal ▸ hout

/-! ## Without the callback -/

/-- As long as nothing else stores into `string`, it stays as `itoa` left it. -/
theorem replyStep_intact (h : ReplyStep s t) (hi : s.reply.Intact s.string.cells) :
    t.reply.Intact t.string.cells ∧ t.reply.text = s.reply.text := by
  obtain ⟨string, sd, value, point⟩ := s
  have htext : cText (itoa value ++ [0]) = cText (itoa value) := cText_append_nul _
  cases h with
  | format j c hp hc =>
    cases hp
    obtain ⟨hj, hcells⟩ := hi
    have htake : (string.store j c).cells.take (j + 1) = (itoa value ++ [0]).take (j + 1) := by
      rw [CArray.take_store_succ string hj, List.take_add_one,
        show (itoa value ++ [0])[j]? = some c from hc]
      exact congrArg (· ++ [c]) hcells
    by_cases h6 : j < 6
    · rw [if_pos h6]
      exact ⟨⟨Nat.succ_lt_succ h6, htake⟩, rfl⟩
    · rw [if_neg h6]
      obtain rfl : j = 6 := by omega
      have hlen : (string.store 6 c).cells.length ≤ 7 := Nat.le_of_eq (string.store 6 c).size
      rw [List.take_of_length_le hlen] at htake
      exact ⟨htake, rfl⟩
  | empty hp he =>
    cases hp
    have hcells : string.cells = itoa value ++ [0] := hi
    refine ⟨⟨hcells, ?_⟩, rfl⟩
    show 0 + 0 = (cText (itoa value)).length
    rw [← htext, ← hcells]
    exact (congrArg List.length he).symm
  | call hp he =>
    cases hp
    exact ⟨⟨hi, Nat.zero_le _⟩, rfl⟩
  | counted k hp hz =>
    cases hp
    obtain ⟨hcells, hk⟩ : string.cells = itoa value ++ [0] ∧ k ≤ (cText (itoa value)).length := hi
    refine ⟨⟨hcells, ?_⟩, rfl⟩
    show 0 + k = (cText (itoa value)).length
    rw [← htext, ← hcells] at hk ⊢
    have hend : ¬ k < (cText string.cells).length := fun hlt => getD_cText_ne hlt hz
    omega
  | count k hp hz =>
    cases hp
    obtain ⟨hcells, hk⟩ : string.cells = itoa value ++ [0] ∧ k ≤ (cText (itoa value)).length := hi
    refine ⟨⟨hcells, ?_⟩, rfl⟩
    show k + 1 ≤ (cText (itoa value)).length
    rw [← htext, ← hcells] at hk ⊢
    have hlen := add_cText_drop hk
    have hne := (cText_drop_ne hz).2
    dsimp only at hne
    omega
  | write k n sd' hp hsd =>
    cases hp
    obtain ⟨hcells, hk⟩ : string.cells = itoa value ++ [0] ∧
      k + (n + 1) = (cText (itoa value)).length := hi
    refine ⟨⟨hcells, ?_⟩, rfl⟩
    show k + 1 + n = (cText (itoa value)).length
    omega

/-- Where a reply is that nothing has disturbed, `start` being the output before it. -/
structure Going (start : List UInt8) (s : Sending) : Prop where
  intact : s.reply.Intact s.string.cells
  output : Output s.sd (start ++ s.reply.text.take s.reply.put)

theorem Going.owes {start : List UInt8} (h : Going start s) : Owes (start ++ s.reply.text) s := by
  refine ⟨h.intact.inside, _, h.output, ?_⟩
  rw [Sending.unread, h.intact.unread, List.append_assoc, List.take_append_drop]

/-- **A reply from its first store on**: what has been put is the beginning of its text. -/
theorem run_going {string : CArray UInt8 7} {sd : SerialDriver} {value : Int}
    {start : List UInt8} {as : List SendLabel} (hstart : Output sd start)
    (hs : Steps Sending.step Always ⟨string, sd, value, .format 0⟩ as t) :
    Going start t ∧ t.reply.text = cText (itoa value) := by
  have hgoing : Going start ⟨string, sd, value, .format 0⟩ :=
    ⟨⟨by omega, rfl⟩, by rw [show List.take _ _ = [] from rfl, List.append_nil]; exact hstart⟩
  have hinv := hs.inv (I := fun s => s.reply.Intact s.string.cells ∧
    s.reply.text = cText (itoa value)) ?_ ⟨hgoing.intact, rfl⟩
  · obtain ⟨bs, hout, htotal⟩ := (run_output hgoing.owes hs).output
    refine ⟨⟨hinv.1, ?_⟩, hinv.2⟩
    have htext : (Sending.reply ⟨string, sd, value, .format 0⟩).text = t.reply.text :=
      hinv.2.symm
    rw [Sending.unread, hinv.1.unread, htext] at htotal
    conv at htotal =>
      rhs
      rw [← List.take_append_drop t.reply.put t.reply.text, ← List.append_assoc]
    rw [← List.append_cancel_right htotal]
    exact hout
  · intro s a t hi _ hs
    cases a with
    | usart sr dr =>
      cases hs
      exact hi
    | reply =>
      obtain ⟨hi', he⟩ := replyStep_intact (replyStep_of_step hs) hi.1
      exact ⟨hi', he.trans hi.2⟩

/-! ## A reply can be completed -/

/-- How much the send path has still to do. -/
def todo (s : Sending) : Nat :=
  match s.reply.point with
  | .format j => 24 - j
  | .call => 17
  | .strlen k => 16 - k
  | .write _ n => n

theorem replyStep_todo (h : ReplyStep s t) (hin : s.reply.Inside) : t.todo < s.todo := by
  obtain ⟨string, sd, value, point⟩ := s
  cases h with
  | format j c hp hc =>
    cases hp
    have hj : j < 7 := hin
    by_cases h6 : j < 6
    · rw [if_pos h6]
      show 24 - (j + 1) < 24 - j
      omega
    · rw [if_neg h6]
      show 17 < 24 - j
      omega
  | empty hp =>
    cases hp
    show 0 < 17
    omega
  | call hp =>
    cases hp
    show 16 - 0 < 17
    omega
  | counted k hp hz =>
    cases hp
    have hk : k ≤ 7 := hin
    show k < 16 - k
    omega
  | count k hp hz =>
    cases hp
    have hk : k ≤ 7 := hin
    show 16 - (k + 1) < 16 - k
    omega
  | write k n sd' hp hsd =>
    cases hp
    exact Nat.lt_succ_self n

end Sending

theorem sdWriteByte_none_iff (sd : SerialDriver) (b : UInt8) :
    sd.sdWriteByte b = none ↔ sd.oqueue.qCounter = 0 := by
  unfold SerialDriver.sdWriteByte GenericQueue.chOQPut GenericQueue.chOQIsFullI
  by_cases h : sd.oqueue.qCounter = 0 <;> simp [h]

theorem sdWriteByte_some {sd sd' : SerialDriver} {b : UInt8} (h : sd.sdWriteByte b = some sd') :
    sd'.oqueue.qCounter + 1 = sd.oqueue.qCounter ∧ sd'.epending = sd.epending ∧
      sd'.elFlags = sd.elFlags ∧ sd'.cr1.txeie = true := by
  unfold SerialDriver.sdWriteByte GenericQueue.chOQPut GenericQueue.chOQIsFullI at h
  obtain ⟨q, hq, rfl⟩ := Option.map_eq_some_iff.1 h
  split at hq
  · cases hq
  · next hne =>
    cases hq
    have hpos : sd.oqueue.qCounter ≠ 0 := fun h => hne (by simp [h])
    exact ⟨by show sd.oqueue.qCounter - 1 + 1 = _; omega, rfl, rfl, rfl⟩

theorem serveInterrupt_room {sd : SerialDriver} {bs : List UInt8} (h : Output sd bs)
    (he : sd.cr1.txeie = true) (hfull : sd.oqueue.qCounter = 0) :
    (sd.serveInterrupt { txe := true } 0).cr1.txeie = true ∧
      (sd.serveInterrupt { txe := true } 0).oqueue.qCounter ≠ 0 := by
  obtain ⟨Q, hQ, -⟩ := h
  have hcount := hQ.counter
  cases Q with
  | nil =>
    rw [hfull] at hcount
    cases hcount
  | cons b Q =>
    obtain ⟨q, hg, hQ'⟩ := hQ.get_cons
    have hroom := hQ'.counter
    rw [List.length_cons] at hcount
    have htx : sd.serveInterrupt { txe := true } 0 =
        { sd with oqueue := q, tx := sd.tx ++ [b] } := by
      simp only [SerialDriver.serveInterrupt, he, Bool.or_self, Bool.false_eq_true, ↓reduceIte,
        Bool.and_self, SerialDriver.transmitI, hg]
    rw [htx]
    exact ⟨he, by dsimp only; omega⟩

namespace Sending

variable {s t : Sending}

/-- The wifly thread takes its next step, after an interrupt if the queue is full. -/
theorem reply_moves {bs : List UInt8} (hin : s.reply.Inside) (hout : Output s.sd bs)
    (he : s.sd.cr1.txeie = true) (hc : ¬ s.reply.Complete) :
    ∃ as u t, Steps Sending.step Always s as u ∧ u.reply = s.reply ∧
      u.step .reply = some t ∧ t.sd.cr1.txeie = true := by
  obtain ⟨string, sd, value, point⟩ := s
  cases point with
  | format j =>
    have hj : j < (itoa value ++ [0]).length := hin
    have hstep : step ⟨string, sd, value, .format j⟩ .reply =
        some { goto ⟨string, sd, value, .format j⟩ (if j < 6 then .format (j + 1) else .call) with
          string := string.store j (itoa value ++ [0])[j] } := by
      unfold step
      dsimp only
      rw [List.getElem?_eq_getElem hj]
      rfl
    exact ⟨[], _, _, .refl _, rfl, hstep, he⟩
  | call => exact ⟨[], _, _, .refl _, rfl, rfl, he⟩
  | strlen k => exact ⟨[], _, _, .refl _, rfl, rfl, he⟩
  | write k n =>
    cases n with
    | zero => exact absurd ⟨k, rfl⟩ hc
    | succ n =>
      have hput : ∀ d : SerialDriver, d.oqueue.qCounter ≠ 0 → ∃ t,
          step ⟨string, d, value, .write k (n + 1)⟩ .reply = some t ∧ t.sd.cr1.txeie = true := by
        intro d hd
        obtain ⟨d', hd'⟩ := Option.ne_none_iff_exists'.1
          (mt (sdWriteByte_none_iff d (string.cells.getD k 0)).1 hd)
        refine ⟨⟨string, d', value, .write (k + 1) n⟩, ?_, (sdWriteByte_some hd').2.2.2⟩
        exact congrArg (Option.map _) hd'
      by_cases hfull : sd.oqueue.qCounter = 0
      · obtain ⟨he', hroom⟩ := serveInterrupt_room hout he hfull
        obtain ⟨t, ht, het⟩ := hput _ hroom
        exact ⟨[.usart { txe := true } 0], _, t, .single rfl trivial, rfl, ht, het⟩
      · obtain ⟨t, ht, het⟩ := hput sd hfull
        exact ⟨[], _, t, .refl _, rfl, ht, het⟩

/-- Once the transmit interrupt is on, the reply can be completed. -/
theorem exists_complete {total : List UInt8} (h : Owes total s) (he : s.sd.cr1.txeie = true) :
    ∃ as t, Steps Sending.step Always s as t ∧ t.reply.Complete := by
  -- by induction on what is still to be done
  induction hn : s.todo using Nat.strong_induction_on generalizing s with
  | _ n ih =>
    by_cases hc : s.reply.Complete
    · exact ⟨[], s, .refl s, hc⟩
    · obtain ⟨bs, hout, -⟩ := h.output
      obtain ⟨as, u, t, hsu, hu, hut, het⟩ := reply_moves h.inside hout he hc
      have hou := run_output h hsu
      have hlt := replyStep_todo (replyStep_of_step hut) hou.inside
      have htodo : u.todo = s.todo := by
        unfold todo
        rw [hu]
      obtain ⟨as', v, htv, hv⟩ := ih t.todo (by omega) (step_output hou hut) het rfl
      exact ⟨as ++ .reply :: as', v, hsu.trans (.cons hut trivial htv), hv⟩

/-- The wifly thread of `System` takes the same step: its message is what is still to be read. -/
theorem step_eq_threadStep {ω σ : Type} (cb : ProtocolCallback ω σ) {k n : Nat}
    (hp : s.reply.point = .write k (n + 1)) (hk : k < 7) {w : Sys σ} {ret : SendRet σ}
    (hsd : w.sd = s.sd) (hw : w.pc = .send s.unread ret) :
    (s.step .reply).map Sending.sd = (w.threadStep cb).map Sys.sd := by
  obtain ⟨hk', hget⟩ := s.getD_eq_getElem hk
  have hunread : s.unread =
      s.string.cells.getD k 0 :: (s.string.cells.drop (k + 1)).take n := by
    unfold Sending.unread Reply.unread
    rw [hp, hget]
    dsimp only
    rw [List.drop_eq_getElem_cons hk', List.take_succ_cons]
  rw [hunread] at hw
  unfold step Sys.threadStep
  rw [hw, hp, hsd]
  dsimp only
  rw [Option.map_map, Option.map_map]
  rfl

end Sending

end RobotPws.Sonar
