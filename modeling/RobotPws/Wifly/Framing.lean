import RobotPws.Wifly.Loop

/-!
# Line framing

The loop against a reference reading of its input: cut the stream at the
newlines, drop every `'\r'`, cut each line at its first space. `Reads p t` is
the parser invariant inside a line: `p` holds the text `t` of the line so far,
whatever the buffers hold beyond it. `Reads.store` follows one character,
`feedAll_text` a part of a line, `feedAll_line` a whole line.
-/

namespace RobotPws.Wifly

open RobotPws.Lib

/-! ## The reference -/

/-- The text of a line: everything but `'\r'`. -/
def text (line : List UInt8) : List UInt8 := line.filter (· ≠ 13)

def idPart (t : List UInt8) : List UInt8 := before 32 t

def argsPart (t : List UInt8) : List UInt8 := after 32 t

/-- The text fits the buffers. -/
def Fits (t : List UInt8) : Prop := (idPart t).length ≤ 15 ∧ (argsPart t).length ≤ 1023

instance (t : List UInt8) : Decidable (Fits t) :=
  inferInstanceAs (Decidable (_ ∧ _))

/-- Longer than two, starting and ending with `'*'`. -/
def isStatusId (id : List UInt8) : Bool :=
  decide (2 < id.length) && id.head? == some 42 && id.getLast? == some 42

/-- The line fits the buffers and contains no newline and no terminator. -/
structure LineOk (line : List UInt8) : Prop where
  newline : 10 ∉ line
  nul : 0 ∉ line
  id : (idPart (text line)).length ≤ 15
  args : (argsPart (text line)).length ≤ 1023

instance (line : List UInt8) : Decidable (LineOk line) :=
  decidable_of_iff
    (10 ∉ line ∧ 0 ∉ line ∧ (idPart (text line)).length ≤ 15 ∧ (argsPart (text line)).length ≤ 1023)
    ⟨fun ⟨h1, h2, h3, h4⟩ => ⟨h1, h2, h3, h4⟩, fun h => ⟨h.newline, h.nul, h.id, h.args⟩⟩

section
variable {σ : Type} (f : Callback σ)

/-- What one line does: a status is answered, anything else is a command with
exactly this line's id and arguments. -/
def refLine (env : σ) (line : List UInt8) : σ × List Event :=
  let id := idPart (text line)
  let args := argsPart (text line)
  if isStatusId id then (env, [.reply (if id = helloId then helloMsg else errorMsg)])
  else
    let (env, sent, ret) := f env id args
    (env, .call id args :: sent.map .message ++
      match ret with
      | .ok => [.reply okMsg]
      | .error => [.reply errorMsg]
      | .message => [])

def refLines (env : σ) : List (List UInt8) → σ × List Event
  | [] => (env, [])
  | line :: lines =>
    let (env, evs) := refLine f env line
    let (env, evs') := refLines env lines
    (env, evs ++ evs')

end

/-! ## Inside a line -/

/-- The parser holds the text `t`. -/
structure Reads (p : Parser UInt8) (t : List UInt8) : Prop where
  readId : p.readId = true ↔ 32 ∉ t
  i : p.i = (idPart t).length
  j : p.j = (argsPart t).length
  id : p.id.cells.take p.i = idPart t
  args : p.args.cells.take p.j = argsPart t

theorem reads_of_boundary {p : Parser UInt8} (h : p.Boundary) : Reads p [] :=
  ⟨by simp [h.readId], h.i, h.j, by simp [h.i, idPart, before], by simp [h.j, argsPart, after]⟩

/-- Whatever the parser holds is the text of a line. -/
theorem reads_lineText {p : Parser UInt8} (hp : p.Clean) (hok : p.Ok) :
    Reads p p.lineText ∧ Fits p.lineText := by
  have hi : (p.id.cells.take p.i).length = p.i :=
    CArray.take_length _ (Nat.le_trans hok.i (by decide))
  have hj : (p.args.cells.take p.j).length = p.j :=
    CArray.take_length _ (Nat.le_trans hok.j (by decide))
  have hid : 32 ∉ p.id.cells.take p.i := fun hm => hp.id 32 hm rfl
  have hparts : idPart p.lineText = p.id.cells.take p.i ∧
      argsPart p.lineText = p.args.cells.take p.j := by
    unfold Parser.lineText idPart argsPart
    rw [before_append_of_not_mem hid, after_append_of_not_mem hid]
    cases hr : p.readId with
    | true => simp [hp.args hr, before, after]
    | false => simp [before, after]
  have hread : p.readId = true ↔ 32 ∉ p.lineText := by
    unfold Parser.lineText
    cases hr : p.readId with
    | true => simpa using hid
    | false => simp
  rw [Fits, hparts.1, hparts.2, hi, hj]
  exact ⟨⟨hread, by rw [hparts.1, hi], by rw [hparts.2, hj], hparts.1.symm, hparts.2.symm⟩,
    hok.i, hok.j⟩

theorem byte_eq (b c : UInt8) : ((b.toNat : Int) = c.toNat) ↔ b = c := by
  rw [Int.natCast_inj, UInt8.toNat_inj]

theorem Reads.not_full {p : Parser UInt8} {t : List UInt8} (h : Reads p t)
    (hi : (idPart t).length ≤ 15) (hj : (argsPart t).length ≤ 1023) : p.full = false := by
  rw [← h.i] at hi
  rw [← h.j] at hj
  simp only [Parser.full, Bool.or_eq_false_iff, beq_eq_false_iff_ne]
  omega

/-- One character of the line: `'\r'` is dropped, the first space moves on to
the arguments, anything else is appended where the parser stands. -/
theorem Reads.store {p : Parser UInt8} {t : List UInt8} {b : UInt8} (h : Reads p t)
    (hb : b ≠ 10) (hi : (idPart t).length ≤ 15) (hj : (argsPart t).length ≤ 1023) :
    Reads (p.store b.toNat b) (t ++ if b = 13 then [] else [b]) := by
  have hp : p.i < 16 := by rw [h.i]; omega
  have hq : p.j < 1024 := by rw [h.j]; omega
  obtain ⟨hr, hs, he⟩ | ⟨hr, hs, hc, -, he⟩ | ⟨hr, hc, -, he⟩ | ⟨hc, he⟩ :=
    p.store_cases b.toNat b
  · -- the separating space
    have hsp : b = 32 := (byte_eq b 32).1 hs
    have ht := h.readId.1 hr
    have hid : idPart (t ++ [32]) = idPart t := by
      simp [idPart, before_append_of_not_mem ht, before_of_not_mem ht, before]
    have hargs : argsPart (t ++ [32]) = argsPart t := by
      simp [argsPart, after_append_of_not_mem ht, after_of_not_mem ht, after]
    rw [he, hsp]
    exact ⟨by simp, by simp [h.i, hid], by simp [h.j, hargs], by simp [h.id, hid],
      by simp [h.args, hargs]⟩
  · -- a character of the id
    have hsp : b ≠ 32 := fun e => hs ((byte_eq b 32).2 e)
    have hcr : b ≠ 13 := fun e => hc ((byte_eq b 13).2 e)
    have ht := h.readId.1 hr
    have hid : idPart (t ++ [b]) = idPart t ++ [b] := by
      simp [idPart, before_append_of_not_mem ht, before_of_not_mem ht, before, hsp]
    have hargs : argsPart (t ++ [b]) = argsPart t := by
      simp [argsPart, after_append_of_not_mem ht, after_of_not_mem ht, after, hsp]
    rw [he, if_neg hcr]
    exact ⟨by simp [hr, ht, Ne.symm hsp], by simp [h.i, hid], by simp [h.j, hargs],
      by simp only [CArray.take_store_succ _ hp, h.id, hid], by simp [h.args, hargs]⟩
  · -- a character of the arguments
    have hcr : b ≠ 13 := fun e => hc ((byte_eq b 13).2 e)
    have ht : 32 ∈ t := by
      by_contra hn
      rw [h.readId.2 hn] at hr
      cases hr
    have hid : idPart (t ++ [b]) = idPart t := before_append ht _
    have hargs : argsPart (t ++ [b]) = argsPart t ++ [b] := after_append ht _
    rw [he, if_neg hcr]
    exact ⟨by simp [hr, ht], by simp [h.i, hid], by simp [h.j, hargs], by simp [h.id, hid],
      by simp only [CArray.take_store_succ _ hq, h.args, hargs]⟩
  · -- a dropped '\r'
    have hcr : b = 13 := by
      rcases hc with hc | hc
      · exact (byte_eq b 13).1 hc
      · exact absurd ((byte_eq b 10).1 hc) hb
    rw [he, if_pos hcr, List.append_nil]
    exact h

/-- The text of a line after one more character. -/
def textByte (t : List UInt8) (b : UInt8) : List UInt8 := t ++ if b = 13 then [] else [b]

theorem textByte_append (t : List UInt8) (b : UInt8) (u : List UInt8) :
    t ++ text (b :: u) = textByte t b ++ text u := by
  by_cases hb : b = 13 <;> simp [textByte, text, hb]

theorem Reads.feed {p : Parser UInt8} {t : List UInt8} {b : UInt8} (h : Reads p t) (ht : Fits t)
    (hb : b ≠ 10) : Reads (p.store b.toNat b) (textByte t b) ∧
      p.feed b.toNat b =
        (p.store b.toNat b, if Fits (textByte t b) then .more else .overflow) := by
  have hst : Reads (p.store b.toNat b) (textByte t b) := h.store hb ht.1 ht.2
  refine ⟨hst, ?_⟩
  by_cases hfit : Fits (textByte t b)
  · have hlf : (b.toNat : Int) ≠ chLf := fun e => hb ((byte_eq b 10).1 e)
    simp only [Parser.feed, hst.not_full hfit.1 hfit.2, Bool.false_eq_true, ↓reduceIte, if_neg hlf,
      if_pos hfit]
  · -- one character more than fits is exactly the limit
    have hfull : (p.store b.toNat b).full = true := by
      have hle := p.store_le b.toNat b
      have hno := hfit
      rw [Fits, ← hst.i, ← hst.j] at hno
      rw [Fits, ← h.i, ← h.j] at ht
      simp only [Parser.full, Bool.or_eq_true, beq_iff_eq]
      omega
    simp only [Parser.feed, hfull, ↓reduceIte, if_neg hfit]

/-! ## The end of a line -/

section
variable {p : Parser UInt8} {t : List UInt8}

theorem charAt_store_lt {n : Nat} (b : CArray UInt8 n) {i k : Nat} (x : UInt8) (hk : k < i) :
    charAt (b.store i x) k = ((b.cells.take i)[k]?).getD 0 := by
  rw [← CArray.take_store_le b (Nat.le_refl i) x, List.getElem?_take_of_lt hk, charAt]
  cases (b.store i x).cells[k]? <;> rfl

/-- The string ends at the first terminator, which the line may contain. -/
theorem Reads.cstring_id_takeWhile (h : Reads p t) (hi : (idPart t).length ≤ 15) :
    cstring p.terminate.id = (idPart t).takeWhile (· != 0) := by
  have hp : p.i < 16 := by rw [h.i]; omega
  rw [cstring, Parser.terminate, CArray.cstr_store _ _ hp rfl, h.id]
  exact List.map_id _

theorem Reads.cstring_id (h : Reads p t) (hi : (idPart t).length ≤ 15) (hn : 0 ∉ t) :
    cstring p.terminate.id = idPart t := by
  rw [h.cstring_id_takeWhile hi, List.takeWhile_eq_self_iff]
  intro y hy
  exact bne_iff_ne.2 fun e => hn (e ▸ mem_of_mem_before hy)

theorem Reads.cstring_args (h : Reads p t) (hj : (argsPart t).length ≤ 1023) (hn : 0 ∉ t) :
    cstring p.terminate.args = argsPart t := by
  have hp : p.j < 1024 := by rw [h.j]; omega
  have hcs : p.terminate.args.cstr (fun c => CharCell.char c == 0) = p.args.cells.take p.j := by
    refine CArray.cstr_store_of_forall _ _ hp rfl fun y hy => ?_
    rw [h.args] at hy
    exact beq_eq_false_iff_ne.2 fun e => hn (e ▸ mem_of_mem_after hy)
  rw [cstring, hcs, h.args]
  exact List.map_id _

theorem Reads.feed_newline (h : Reads p t) (hi : (idPart t).length ≤ 15)
    (hj : (argsPart t).length ≤ 1023) :
    p.feed (10 : UInt8).toNat 10 = (p.terminate, p.terminate.lineVerdict) := by
  have hstore : p.store (10 : UInt8).toNat 10 = p := by
    obtain ⟨-, h, -⟩ | ⟨-, -, -, h, -⟩ | ⟨-, -, h, -⟩ | ⟨-, h⟩ :=
      p.store_cases (10 : UInt8).toNat 10
    · exact absurd h (by decide)
    · exact absurd rfl h
    · exact absurd rfl h
    · exact h
  simp only [Parser.feed, hstore, h.not_full hi hj, Bool.false_eq_true, ↓reduceIte]
  rfl

/-- The status test on the buffer is the one on the id of the line. -/
theorem Reads.isStatus (h : Reads p t) : p.terminate.isStatus = isStatusId (idPart t) := by
  unfold Parser.isStatus isStatusId
  rw [show p.terminate.i = p.i from rfl, ← h.i]
  by_cases h2 : 2 < p.i
  · have hlen : (idPart t).length = p.i := h.i.symm
    have h0 : charAt p.terminate.id 0 = ((idPart t).head?).getD 0 := by
      rw [Parser.terminate, charAt_store_lt _ _ (by omega), h.id, List.head?_eq_getElem?]
    have h1 : charAt p.terminate.id (p.i - 1) = ((idPart t).getLast?).getD 0 := by
      rw [Parser.terminate, charAt_store_lt _ _ (by omega), h.id, List.getLast?_eq_getElem?, hlen]
    rw [h0, h1]
    cases hd : (idPart t).head? with
    | none => rw [List.head?_eq_none_iff] at hd; rw [hd] at hlen; simp at hlen; omega
    | some x =>
      cases hl : (idPart t).getLast? with
      | none => rw [List.getLast?_eq_none_iff] at hl; rw [hl] at hlen; simp at hlen; omega
      | some y => rfl
  · simp [h2]

end

/-! ## Whole lines -/

section
variable {σ : Type} (f : Callback σ)

theorem feedAll_text {s : LoopState σ} {t u : List UInt8} (h : Reads s.parser t)
    (h0 : s.skip = 0) (hu : 10 ∉ u) (hi : (idPart (t ++ text u)).length ≤ 15)
    (hj : (argsPart (t ++ text u)).length ≤ 1023) :
    ∃ p, feedAll f s u = ({ s with parser := p }, []) ∧ Reads p (t ++ text u) := by
  induction u generalizing s t with
  | nil => exact ⟨s.parser, rfl, by simpa [text] using h⟩
  | cons b u ih =>
    simp only [List.mem_cons, not_or] at hu
    rw [textByte_append] at hi hj ⊢
    have hfit : Fits (textByte t b) :=
      ⟨Nat.le_trans (before_length_mono _ (text u)) hi,
        Nat.le_trans (after_length_mono _ (text u)) hj⟩
    have ht : Fits t :=
      ⟨Nat.le_trans (before_length_mono t _) hfit.1, Nat.le_trans (after_length_mono t _) hfit.2⟩
    obtain ⟨hst, hfeed⟩ := h.feed ht (Ne.symm hu.1)
    rw [if_pos hfit] at hfeed
    obtain ⟨p, hp, hr⟩ := ih (s := { s with parser := s.parser.store b.toNat b }) hst h0 hu.2 hi hj
    refine ⟨p, ?_, hr⟩
    simp only [feedAll, feedByte_more f h0 hfeed, hp, List.append_nil]

theorem feedAll_skip (s : LoopState σ) (bs : List UInt8) :
    (feedAll f s bs).2 = (feedAll f { s with skip := 0 } (bs.drop s.skip)).2 := by
  obtain ⟨env, p, skip, queued⟩ := s
  induction bs generalizing skip with
  | nil => simp [feedAll]
  | cons b bs ih =>
    cases skip with
    | zero => rfl
    | succ k =>
      rw [List.drop_succ_cons, ← ih k]
      rfl

/-- A line that does not fit is answered at one of its characters, and a new
line starts there. -/
theorem feedAll_overflow {s : LoopState σ} {t u : List UInt8} (h : Reads s.parser t)
    (h0 : s.skip = 0) (hu : 10 ∉ u) (ht : Fits t) (hno : ¬ Fits (t ++ text u)) :
    ∃ u₁ b u₂ s', u = u₁ ++ b :: u₂ ∧ s'.parser.Boundary ∧
      feedAll f s (u₁ ++ [b]) = (s', [.reply overflowMsg]) := by
  induction u generalizing s t with
  | nil => exact absurd (by simpa [text] using ht) hno
  | cons b u ih =>
    simp only [List.mem_cons, not_or] at hu
    rw [textByte_append] at hno
    obtain ⟨hst, hfeed⟩ := h.feed ht (Ne.symm hu.1)
    by_cases hfit : Fits (textByte t b)
    · rw [if_pos hfit] at hfeed
      obtain ⟨u₁, c, u₂, s', hu', hs', he⟩ := ih
        (s := { s with parser := s.parser.store b.toNat b }) hst h0 hu.2 hfit hno
      refine ⟨b :: u₁, c, u₂, s', by rw [hu', List.cons_append], hs', ?_⟩
      rw [List.cons_append, feedAll, feedByte_more f h0 hfeed]
      simp only [he, List.nil_append]
    · rw [if_neg hfit] at hfeed
      refine ⟨[], b, u, { s with
        parser := (s.parser.store b.toNat b).restart
        skip := s.queued.headD 0
        queued := s.queued.tail }, rfl, Parser.restart_boundary _, ?_⟩
      rw [List.nil_append, feedAll, feedByte_overflow f h0 hfeed]
      rfl

theorem Reads.serve_line {p : Parser UInt8} {line : List UInt8} (hr : Reads p (text line))
    (env : σ) (hl : LineOk line) :
    serve f env p.terminate p.terminate.lineVerdict = refLine f env line := by
  have hn : 0 ∉ text line := fun hm => hl.nul (List.mem_of_mem_filter hm)
  have hid := hr.cstring_id hl.id hn
  have hargs := hr.cstring_args hl.args hn
  unfold refLine Parser.lineVerdict
  cases hs : isStatusId (idPart (text line)) with
  | true =>
    simp only [hr.isStatus, hs, hid, ↓reduceIte]
    by_cases hh : idPart (text line) = helloId
    · simp only [hh, ↓reduceIte, serve]
    · simp only [hh, ↓reduceIte, serve]
  | false =>
    simp only [hr.isStatus, hs, Bool.false_eq_true, ↓reduceIte, serve, hid, hargs]
    generalize f env (idPart (text line)) (argsPart (text line)) = r
    obtain ⟨env, sent, ret⟩ := r
    cases ret <;> rfl

/-- A line does what the reference says, and the next one starts at a
boundary. -/
theorem feedAll_line {s : LoopState σ} {line : List UInt8} (hs : s.parser.Boundary)
    (h0 : s.skip = 0) (hl : LineOk line) :
    ∃ p : Parser UInt8, p.Boundary ∧ feedAll f s (line ++ [10]) =
      ({ s with env := (refLine f s.env line).1, parser := p }, (refLine f s.env line).2) := by
  obtain ⟨p, hp, hr⟩ := feedAll_text f (t := []) (reads_of_boundary hs) h0 hl.newline
    (by simpa using hl.id) (by simpa using hl.args)
  rw [List.nil_append] at hr
  have hfeed := hr.feed_newline hl.id hl.args
  refine ⟨p.terminate.next p.terminate.lineVerdict,
    Parser.next_boundary _ (Parser.lineVerdict_ne_more _), ?_⟩
  have hbyte := feedByte_line f (s := { s with parser := p }) h0 hfeed
    (Parser.lineVerdict_ne_overflow _)
  have hserve := hr.serve_line f s.env hl
  rw [feedAll_append, hp]
  simp only [feedAll, hbyte, hserve, List.nil_append, List.append_nil]

/-- **Line framing is exact**: from any line boundary, whatever the buffers
hold, the loop does on every stream of lines what the reference says, so that
each command depends on its own line only. -/
theorem framing_exact (s : LoopState σ) (lines : List (List UInt8)) (hs : s.parser.Boundary)
    (h0 : s.skip = 0) (hl : ∀ line ∈ lines, LineOk line) :
    (feedAll f s (lines.flatMap (· ++ [10]))).2 = (refLines f s.env lines).2 := by
  induction lines generalizing s with
  | nil => rfl
  | cons line lines ih =>
    obtain ⟨p, hp, he⟩ := feedAll_line f hs h0 (hl line (List.mem_cons_self ..))
    rw [List.flatMap_cons, feedAll_append, he]
    have := ih { s with env := (refLine f s.env line).1, parser := p } hp h0
      fun l hm => hl l (List.mem_cons_of_mem _ hm)
    simp only [this, refLines]

/-- A session on buffers full of old characters. -/
theorem framing_exact_session :
    (feedAll (fun env _ _ => (env, [], .ok))
      ⟨(), { (.init : Parser UInt8) with id := .fill 16 97, args := .fill 1024 49 }, 0, []⟩
      ([ascii "forward 3\r", ascii "*HELLO*\r", ascii "version"].flatMap (· ++ [10]))).2 =
    [.call (ascii "forward") (ascii "3"), .reply okMsg, .reply helloMsg,
      .call (ascii "version") [], .reply okMsg] :=
  (framing_exact _ _ [ascii "forward 3\r", ascii "*HELLO*\r", ascii "version"]
    ⟨rfl, rfl, rfl⟩ rfl (by decide)).trans (by decide)

end

end RobotPws.Wifly
