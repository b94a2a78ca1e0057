import Mathlib.Data.List.Basic
import RobotPws.Gui.Protocol

/-!
# Reading a reply

The robot answers a command with comment lines and one final line, a status or
a message. `send` takes each result of `recv` for a line, so what it makes of
the reply depends on where the stream was cut. `send_reads_iff` says for which
cuts it reads the reply as sent: each comment line arrives as one piece, and so
much of the final line in the next piece that it can be told (`ReadFrom`).
-/

namespace RobotPws.Gui

open RobotPws.Lib

/-! ## Replies -/

/-- The line that ends a reply. -/
inductive Final where
  | status (name : Text)
  | message (text : Text)
  deriving DecidableEq, Repr

namespace Final

def line : Final → Text
  | status name => 42 :: name ++ [42]
  | message text => text

/-- What the caller of `send` is told. -/
def value : Final → Value
  | status name => .bool (name = ascii "OK")
  | message text => .str text

/-- A status name has no `'*'` in it, a message does not start with one. -/
def Wf : Final → Prop
  | status name => 42 ∉ name
  | message text => text.head? ≠ some 42

/-- Enough of the line is in the piece `d`. -/
def ReadFrom : Final → Text → Prop
  | status name, d => name = ascii "OK" → 4 ≤ d.length
  | message text, d => d = text ++ crlf ∨ (text = [] ∧ d = [13])

instance : ∀ f : Final, Decidable f.Wf
  | status name => inferInstanceAs (Decidable (42 ∉ name))
  | message text => inferInstanceAs (Decidable (text.head? ≠ some 42))

instance : ∀ (f : Final) (d : Text), Decidable (f.ReadFrom d)
  | status name, d => inferInstanceAs (Decidable (name = ascii "OK" → 4 ≤ d.length))
  | message text, d => inferInstanceAs (Decidable (d = text ++ crlf ∨ (text = [] ∧ d = [13])))

end Final

def commentLine (c : Text) : Text := ascii "***" ++ c ++ ascii "***"

/-- A whole reply. -/
def reply (cs : List Text) (f : Final) : Text :=
  (cs.map commentLine).flatMap (· ++ crlf) ++ (f.line ++ crlf)

/-- `ds` are results of `recv` that the stream `s` can be cut into. -/
structure Cut (ds : List Text) (s : Text) : Prop where
  flatten : ds.flatten = s
  nonempty : ∀ d ∈ ds, d ≠ []
  small : ∀ d ∈ ds, d.length ≤ 1024

/-- The comments arrive one by one and the final line can be told from the
next piece; the list of comments has room for them. -/
def LineByLine (old : List Text) (cs : List Text) (f : Final) (ds : List Text) : Prop :=
  ∃ d rest, ds = cs.map (commentLine · ++ crlf) ++ d :: rest ∧ f.ReadFrom d ∧
    (cs = [] ∨ old.length + cs.length ≤ 101)

/-! ## The loop over the pieces -/

namespace Protocol

/-- Comments kept one after the other. -/
def keepAll (old : List Text) (cs : List Text) : List Text := cs.foldl keep old

theorem drop_comments (p : Protocol) : p.drop.comments = p.comments := by
  unfold drop; split <;> rfl

/-- The comments are the pieces up to the first that is none; that one gives
the value. -/
theorem receive_data (p : Protocol) (ds : List Text) :
    (receive p (ds.map .data)).1 =
      ((ds.dropWhile isComment).head?.elim (.str []) decode) ∧
    (receive p (ds.map .data)).2.comments =
      keepAll p.comments ((ds.takeWhile isComment).map dropEnd2) := by
  induction ds generalizing p with
  | nil => exact ⟨rfl, drop_comments p⟩
  | cons d ds ih =>
    cases hd : isComment d with
    | true =>
      have := ih { p with comments := keep p.comments (dropEnd2 d) }
      simpa [receive, hd, keepAll] using this
    | false => simp [receive, hd, keepAll]

theorem keepAll_of_le {old cs : List Text} (h : old.length + cs.length ≤ 101) :
    keepAll old cs = old ++ cs := by
  induction cs generalizing old with
  | nil => simp [keepAll]
  | cons c cs ih =>
    rw [List.length_cons] at h
    have hk : keep old c = old ++ [c] := by rw [keep, if_neg (by omega)]
    rw [keepAll, List.foldl_cons, hk, ← keepAll, ih (by simp; omega), List.append_assoc,
      List.singleton_append]

theorem keepAll_append (old cs ds : List Text) :
    keepAll old (cs ++ ds) = keepAll (keepAll old cs) ds := List.foldl_append

/-- With a hundred comments kept only the last of those that follow stays. -/
theorem keepAll_full {old : List Text} (h : old.length = 100) (cs : List Text) (c : Text) :
    keepAll old (cs ++ [c]) = old ++ [c] := by
  induction cs using List.reverseRecOn generalizing c with
  | nil => exact keepAll_of_le (by simp [h])
  | append_singleton cs c' ih =>
    rw [keepAll_append, ih c', keepAll, List.foldl_cons, List.foldl_nil, keep, if_pos (by simp [h]),
      List.dropLast_concat]

theorem keepAll_length {old : List Text} (h : 100 < old.length) (cs : List Text) :
    (keepAll old cs).length = old.length := by
  induction cs using List.reverseRecOn with
  | nil => rfl
  | append_singleton cs c ih =>
    rw [keepAll_append, keepAll, List.foldl_cons, List.foldl_nil, keep, if_pos (by omega)]
    simp only [List.length_append, List.length_dropLast, List.length_singleton]
    omega

/-- When some comments were added, these were kept, or one was overwritten on
the way. -/
theorem keepAll_eq_append {old cs ys : List Text} (hy : ys ≠ []) (h : keepAll old cs = old ++ ys) :
    (cs = ys ∧ old.length + ys.length ≤ 101) ∨
    ∃ cs₁ c cs₂ l, cs = cs₁ ++ (c :: cs₂) ++ [l] ∧ ys = cs₁ ++ [l] := by
  have hpos : 0 < ys.length := List.length_pos_iff.2 hy
  by_cases hle : old.length + cs.length ≤ 101
  · rw [keepAll_of_le hle] at h
    have := List.append_cancel_left h
    subst this
    exact .inl ⟨rfl, hle⟩
  by_cases hold : 100 < old.length
  · have hlen := congrArg List.length h
    rw [keepAll_length hold, List.length_append] at hlen
    omega
  · -- a hundred are reached after `cs₁`, at least two more follow
    right
    set m := 100 - old.length with hm
    have htake : (cs.take m).length = m := by rw [List.length_take]; omega
    obtain ⟨c, cs', hc⟩ : ∃ c cs', cs.drop m = c :: cs' := by
      refine List.exists_cons_of_length_pos ?_
      rw [List.length_drop]; omega
    have hdrop := congrArg List.length hc
    rw [List.length_drop, List.length_cons] at hdrop
    have hne : cs' ≠ [] := by rintro rfl; simp at hdrop; omega
    have hcs : cs = cs.take m ++ (c :: cs'.dropLast) ++ [cs'.getLast hne] := by
      rw [List.append_assoc, List.cons_append, List.dropLast_append_getLast, ← hc,
        List.take_append_drop]
    refine ⟨cs.take m, c, cs'.dropLast, cs'.getLast hne, hcs, ?_⟩
    have h1 : keepAll old (cs.take m) = old ++ cs.take m := keepAll_of_le (by omega)
    have h2 : keepAll (old ++ cs.take m) (c :: cs'.dropLast ++ [cs'.getLast hne]) =
        old ++ cs.take m ++ [cs'.getLast hne] :=
      keepAll_full (by rw [List.length_append]; omega) _ _
    rw [hcs, List.append_assoc, keepAll_append, h1, h2, List.append_assoc] at h
    exact (List.append_cancel_left h).symm

end Protocol

/-! ## Pieces that are lines -/

theorem eq_append_of_dropEnd2 {d l : Text} (h : dropEnd2 d = l) (hl : l ≠ []) :
    ∃ e, e.length = 2 ∧ d = l ++ e := by
  have hlen := congrArg List.length h
  have hpos := List.length_pos_iff.2 hl
  simp only [dropEnd2, List.length_take] at hlen
  refine ⟨d.drop (d.length - 2), by rw [List.length_drop]; omega, ?_⟩
  rw [← h, dropEnd2, List.take_append_drop]

theorem dropEnd2_line (l : Text) : dropEnd2 (l ++ crlf) = l := by
  simp [dropEnd2, crlf]

/-- Pieces that give the right lines, in a stream that starts with them, are
these lines. -/
theorem pieces_eq_lines {ds ls : List Text} {r t : Text} (hls : ∀ l ∈ ls, l ≠ [])
    (h : ds.map dropEnd2 = ls) (hs : ds.flatten ++ r = ls.flatMap (· ++ crlf) ++ t) :
    ds = ls.map (· ++ crlf) ∧ r = t := by
  induction ds generalizing ls with
  | nil =>
    subst h
    exact ⟨rfl, by simpa using hs⟩
  | cons d ds ih =>
    subst h
    obtain ⟨e, he, hd⟩ := eq_append_of_dropEnd2 rfl (hls (dropEnd2 d) (by simp))
    rw [List.flatten_cons, List.map_cons, List.flatMap_cons] at hs
    have hs' : d ++ (ds.flatten ++ r) =
        (dropEnd2 d ++ crlf) ++ ((ds.map dropEnd2).flatMap (· ++ crlf) ++ t) := by
      simpa [List.append_assoc] using hs
    have hlen : d.length = (dropEnd2 d ++ crlf).length := by
      rw [hd, List.length_append, he, ← hd]; simp [crlf]
    obtain ⟨h1, h2⟩ := List.append_inj hs' hlen
    obtain ⟨h3, h4⟩ := ih (fun l hl => hls l (List.mem_cons_of_mem _ hl)) rfl h2
    exact ⟨by rw [List.map_cons, List.map_cons, ← h1, ← h3], h4⟩

theorem isComment_line (c : Text) : Protocol.isComment (commentLine c ++ crlf) = true := by
  simp [Protocol.isComment, commentLine, ascii]

/-! ## The final line -/

/-- The name of a status is told from its first three characters after `'*'`. -/
theorem finds_ok_status {name d : Text} (hn : 42 ∉ name) (hd : d <+: 42 :: name ++ [42] ++ crlf) :
    finds (ascii "*OK*") d = true ↔ name = ascii "OK" ∧ 4 ≤ d.length := by
  simp only [finds, decide_eq_true_eq]
  constructor
  · intro h
    refine ⟨?_, by simpa [ascii] using h.length_le⟩
    obtain ⟨l₁, l₂, he⟩ := h.trans hd.isInfix
    cases l₁ with
    | nil =>
      -- what precedes the second '*' on either side
      have hb := congrArg (fun l => before 42 l.tail) he
      have hname : before 42 (name ++ 42 :: crlf) = name := by
        rw [before_append_of_not_mem hn]
        simp [before]
      exact hname.symm.trans (by simpa [ascii, before] using hb.symm)
    | cons x l₁ =>
      -- two more '*' on the left than the name allows
      obtain rfl : x = 42 := (List.cons.inj he).1
      have hc := congrArg (List.count 42) he
      simp [ascii, crlf, List.count_eq_zero.2 hn] at hc
      omega
  · rintro ⟨rfl, hlen⟩
    have hp : ascii "*OK*" <+: (42 :: ascii "OK" ++ [42] ++ crlf : Text) := ⟨crlf, rfl⟩
    exact (List.prefix_of_prefix_length_le hp hd (by simpa [ascii] using hlen)).isInfix

/-- The first piece of the final line is no comment, and it is read as the line
exactly when enough of it is there. -/
theorem Final.decode_iff {f : Final} (hf : f.Wf) {d : Text} (hne : d ≠ [])
    (hd : d <+: f.line ++ crlf) :
    Protocol.isComment d = false ∧ (Protocol.decode d = f.value ↔ f.ReadFrom d) := by
  obtain ⟨x, d, rfl⟩ := List.exists_cons_of_ne_nil hne
  cases f with
  | status name =>
    have hfind := finds_ok_status hf hd
    obtain ⟨rfl, r, hr⟩ := List.cons_prefix_cons.1 hd
    have hcomment : Protocol.isComment (42 :: d) = false := by
      -- the character after the first '*' is the name's or the other '*'
      rw [Protocol.isComment, beq_eq_false_iff_ne]
      intro hc
      obtain ⟨d₂, rfl⟩ : ∃ d₂, d = 42 :: 42 :: d₂ := by
        rcases d with _ | ⟨y, _ | ⟨z, d₂⟩⟩ <;> simp_all [ascii]
      cases name with
      | nil => simp [crlf] at hr
      | cons y name => exact hf (by simp [(List.cons.inj hr).1])
    refine ⟨hcomment, ?_⟩
    have hdec : Protocol.decode (42 :: d) = .bool (finds (ascii "*OK*") (42 :: d)) := rfl
    rw [hdec, value, Value.bool.injEq, ReadFrom, Bool.eq_iff_iff, hfind, decide_eq_true_eq]
    constructor
    · exact fun h hn => (h.2 hn).2
    · exact fun h => ⟨fun hn => hn.1, fun hn => ⟨hn, h hn⟩⟩
  | message text =>
    have hx : x ≠ 42 := by
      rintro rfl
      cases text with
      | nil => simp [line, crlf] at hd
      | cons y text => exact hf (by rw [List.head?_cons, (List.cons_prefix_cons.1 hd).1])
    have hdec : Protocol.decode (x :: d) = .str (dropEnd2 (x :: d)) := by
      simp [Protocol.decode, ascii, hx]
    refine ⟨by simp [Protocol.isComment, ascii, hx], ?_⟩
    rw [hdec, value, Value.str.injEq, ReadFrom]
    constructor
    · intro h
      by_cases ht : text = []
      · subst ht
        rcases d with _ | ⟨y, _ | ⟨z, d⟩⟩
        · exact .inr ⟨rfl, by simpa [line, crlf] using hd⟩
        · exact .inl (by simpa [line, crlf] using hd)
        · simpa [line, crlf] using hd.length_le
      · obtain ⟨e, he, hde⟩ := eq_append_of_dropEnd2 h ht
        exact .inl (hd.eq_of_length (by rw [hde]; simp [line, crlf, he]))
    · rintro (h | ⟨rfl, h⟩)
      · rw [h, dropEnd2_line]
      · rw [h]; rfl

/-- A comment cannot be overwritten unnoticed: what follows the line `l` is too
short for another comment and the final line. -/
theorem not_overwritten {f : Final} (hf : f.Wf) {P L l : Text} {C D : List Text}
    (hP : Protocol.isComment P = true) (hL : dropEnd2 L = l) (hl : l ≠ [])
    (hv : D.head?.elim (.str []) Protocol.decode = f.value)
    (h : P ++ C.flatten ++ L ++ D.flatten = l ++ crlf ++ (f.line ++ crlf)) : False := by
  obtain ⟨e, he, rfl⟩ := eq_append_of_dropEnd2 hL hl
  have hP3 : P = [42, 42, 42] ++ P.drop 3 := by
    have h3 : P.take 3 = [42, 42, 42] := by simpa [Protocol.isComment, ascii] using hP
    rw [← h3, List.take_append_drop]
  rw [hP3] at h
  cases f with
  | status name =>
    -- three '*' more than the line, and the status brings only two
    obtain ⟨d, D, rfl⟩ : ∃ d D', D = (42 :: d) :: D' := by
      rcases D with _ | ⟨d, D⟩
      · simp [Final.value] at hv
      · rw [List.head?_cons, Option.elim_some, Protocol.decode] at hv
        split at hv
        · rename_i hd
          cases d with
          | nil => simp [ascii] at hd
          | cons y d => exact ⟨d, D, by simpa [ascii] using hd⟩
        · cases hv
    have hn : name.count 42 = 0 := List.count_eq_zero.2 hf
    have hc := congrArg (List.count 42) h
    simp [Final.line, crlf, hn] at hc
    omega
  | message text =>
    -- three characters more than the line, and nothing is left for them
    have hD : text = [] ∨ text.length + 2 ≤ D.flatten.length := by
      rcases D with _ | ⟨d, D⟩
      · exact .inl (by simpa [Final.value] using hv.symm)
      · rw [List.head?_cons, Option.elim_some, Protocol.decode] at hv
        split at hv
        · cases hv
        · refine Classical.or_iff_not_imp_left.2 fun ht => ?_
          obtain ⟨e', he', rfl⟩ := eq_append_of_dropEnd2 (Value.str.inj hv) ht
          simp [he']
    generalize D.flatten = r at hD h
    have hlen := congrArg List.length h
    simp [Final.line, crlf, he] at hlen
    rcases hD with rfl | hD
    · simp at hlen
      omega
    · omega

/-! ## The reply as a whole -/

namespace Protocol

theorem send_of_connected {p : Protocol} (hp : p.connected = true) (msg : Text)
    (args : List Text) (rs : List Received) :
    p.send msg args rs = receive { p with sent := p.sent ++ line msg args } rs := by
  rw [send, if_pos hp]

theorem receive_lines (cs : List Text) {f : Final} (hf : f.Wf) {d : Text} (rest : List Text)
    (hne : d ≠ []) (hd : d <+: f.line ++ crlf) :
    let ds := cs.map (commentLine · ++ crlf) ++ d :: rest
    ds.takeWhile isComment = cs.map (commentLine · ++ crlf) ∧
      ds.dropWhile isComment = d :: rest := by
  have hl : ∀ l ∈ cs.map (commentLine · ++ crlf), isComment l = true := by
    intro l hl
    obtain ⟨c, -, rfl⟩ := List.mem_map.1 hl
    exact isComment_line c
  have hd' := (Final.decode_iff hf hne hd).1
  refine ⟨?_, ?_⟩
  · rw [List.takeWhile_append_of_pos hl, List.takeWhile_cons_of_neg (by simp [hd']),
      List.append_nil]
  · rw [List.dropWhile_append_of_pos hl, List.dropWhile_cons_of_neg (by simp [hd'])]

/-- What `send` makes of the reply is what was sent exactly when the cut shows
it line by line. -/
theorem send_reads_iff (p : Protocol) (hp : p.connected = true) (msg : Text) (args : List Text)
    (cs : List Text) (f : Final) (hf : f.Wf) (ds : List Text) (hds : Cut ds (reply cs f)) :
    ((p.send msg args (ds.map .data)).1 = f.value ∧
      (p.send msg args (ds.map .data)).2.comments = p.comments ++ cs.map commentLine) ↔
    LineByLine p.comments cs f ds := by
  rw [send_of_connected hp, (receive_data _ ds).1, (receive_data _ ds).2]
  have hflat := hds.flatten
  constructor
  · rintro ⟨hv, hc⟩
    have hsplit : ds.takeWhile isComment ++ ds.dropWhile isComment = ds :=
      List.takeWhile_append_dropWhile
    have hC : ∀ d ∈ ds.takeWhile isComment, isComment d = true :=
      List.all_eq_true.1 List.all_takeWhile
    have hne := hds.nonempty
    rw [← hsplit] at hflat hne ⊢
    generalize ds.takeWhile isComment = C at hc hC hflat hne ⊢
    generalize ds.dropWhile isComment = D at hv hflat hne ⊢
    rw [List.flatten_append] at hflat
    -- once the comments are the lines, the rest of the stream is the final line
    have hfinal : D.flatten = f.line ++ crlf → ∃ d rest, D = d :: rest ∧ f.ReadFrom d := by
      intro hD
      cases D with
      | nil => simp [crlf] at hD
      | cons d D =>
        have hd : d <+: f.line ++ crlf := ⟨D.flatten, by rw [← hD, List.flatten_cons]⟩
        exact ⟨d, D, rfl, ((Final.decode_iff hf (hne d (by simp)) hd).2).1 hv⟩
    by_cases hcs : cs = []
    · subst hcs
      cases C with
      | nil =>
        obtain ⟨d, rest, rfl, hd⟩ := hfinal (by simpa [reply] using hflat)
        exact ⟨d, rest, rfl, hd, .inl rfl⟩
      | cons P C =>
        -- the first piece of a reply without comments is no comment
        have hP : P <+: f.line ++ crlf := ⟨C.flatten ++ D.flatten, by
          rw [← List.append_assoc]; exact hflat⟩
        have := (Final.decode_iff hf (hne P (by simp)) hP).1
        rw [hC P (by simp)] at this
        cases this
    rcases keepAll_eq_append (by simpa using hcs) hc with ⟨hlines, hroom⟩ | hover
    · obtain ⟨hC', hD⟩ := pieces_eq_lines (by simp [commentLine, ascii]) hlines hflat
      obtain ⟨d, rest, rfl, hd⟩ := hfinal hD
      refine ⟨d, rest, ?_, hd, .inr (by simpa using hroom)⟩
      rw [hC', List.map_map]
      rfl
    · obtain ⟨cs₁, c, cs₂, l, hlines, hcs'⟩ := hover
      obtain ⟨C', L', rfl, hC', hL⟩ := List.map_eq_append_iff.1 hlines
      obtain ⟨C₁, C₂, rfl, hC₁, hC₂⟩ := List.map_eq_append_iff.1 hC'
      obtain ⟨P, C₂, rfl, -, -⟩ := List.map_eq_cons_iff.1 hC₂
      obtain ⟨L, rfl, hL'⟩ : ∃ x, L' = [x] ∧ dropEnd2 x = l := by simpa using hL
      have hne' : ∀ x ∈ cs₁ ++ [l], x ≠ [] := by
        rw [← hcs']
        simp [commentLine, ascii]
      rw [reply, hcs'] at hflat
      have hrest : P ++ C₂.flatten ++ L ++ D.flatten = l ++ crlf ++ (f.line ++ crlf) :=
        (pieces_eq_lines (fun x hx => hne' x (by simp [hx])) hC₁ (by simpa using hflat)).2
      exact (not_overwritten hf (hC P (by simp)) hL' (hne' l (by simp)) hv hrest).elim
  · rintro ⟨d, rest, rfl, hd, hroom⟩
    have hne : d ≠ [] := hds.nonempty d (by simp)
    have hprefix : d <+: f.line ++ crlf := by
      refine ⟨rest.flatten, ?_⟩
      have : cs.map (commentLine · ++ crlf) = (cs.map commentLine).map (· ++ crlf) := by simp
      rw [reply, List.flatten_append, this, ← List.flatMap_def] at hflat
      exact List.append_cancel_left hflat
    obtain ⟨htake, hdrop⟩ := receive_lines cs hf rest hne hprefix
    have hlines : (cs.map (commentLine · ++ crlf)).map dropEnd2 = cs.map commentLine := by
      simp [dropEnd2_line]
    rw [htake, hdrop, hlines]
    refine ⟨((Final.decode_iff hf hne hprefix).2).2 hd, ?_⟩
    rcases hroom with rfl | hroom
    · simp [keepAll]
    · exact keepAll_of_le (by simpa using hroom)

/-- A comment and a status in two pieces. -/
theorem send_reads_two_lines :
    let ds := [commentLine (ascii "a") ++ crlf, ascii "*OK*\r\n"]
    let p := { Protocol.new with connected := true }
    (p.send (ascii "stop") [] (ds.map .data)).1 = .bool true ∧
      (p.send (ascii "stop") [] (ds.map .data)).2.comments = [commentLine (ascii "a")] :=
  (send_reads_iff { Protocol.new with connected := true } rfl (ascii "stop") [] [ascii "a"]
    (.status (ascii "OK")) (by decide)
    [commentLine (ascii "a") ++ crlf, ascii "*OK*\r\n"]
    ⟨by decide, by decide, by decide⟩).2
    ⟨ascii "*OK*\r\n", [], by decide, by decide, .inr (by decide)⟩

/-- The same reply in one piece is a comment and no status. -/
theorem send_depends_on_cut :
    let stream := reply [ascii "a"] (.status (ascii "OK"))
    let ds₁ := [commentLine (ascii "a") ++ crlf, ascii "*OK*\r\n"]
    let ds₂ := [ascii "***a***\r\n*OK*\r\n"]
    let p := { Protocol.new with connected := true }
    Cut ds₁ stream ∧ Cut ds₂ stream ∧
      (p.send (ascii "stop") [] (ds₁.map .data)).1 = .bool true ∧
      (p.send (ascii "stop") [] (ds₂.map .data)).1 = .str [] ∧
      (p.send (ascii "stop") [] (ds₂.map .data)).2.comments = [ascii "***a***\r\n*OK*"] :=
  ⟨⟨by decide, by decide, by decide⟩, ⟨by decide, by decide, by decide⟩,
    by decide, by decide, by decide⟩

end Protocol

end RobotPws.Gui
