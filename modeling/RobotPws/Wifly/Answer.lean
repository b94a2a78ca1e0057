import RobotPws.Lib.CString
import RobotPws.Wifly.Buffers

/-!
# The answer to a command

`wiflyReadCommand` as far as it writes to `total`, byte by byte: a line is appended with
`strcat`, and at the end a terminator goes two characters before the end of the string. `total`
has `WIFLY_EL_SIZE` bytes, as the blocks `wiflySendCommand` passes. `Buffers` has the same call
with the messages it sends and the blocks it takes.
-/

namespace RobotPws.Wifly

open RobotPws.Lib RobotPws.Main

/-- What a call of `wiflyRead(buf)` gives: its result, and the characters stored. -/
structure Reading where
  st : State
  msg : List UInt8
  deriving DecidableEq, Repr

namespace Reading

/-- The string in `buf`. -/
def buf (r : Reading) : List UInt8 := cText r.msg

/-- `s == S_OK && buf[0] != '<'` -/
def accepted (r : Reading) : Bool := r.st == .ok && r.buf.headD 0 != 60

end Reading

/-- A difference of two `size_t`. -/
def sizeSub (a b : Nat) : Nat := (a + 2 ^ 32 - b) % 2 ^ 32

/-- The loop over the answer; `none` if it has not ended with these results. -/
def answerLoop (total : Buffer wiflyElSize) :
    List Reading → Option (Buffer wiflyElSize × List Reading)
  | [] => none
  | r :: rs =>
    if r.accepted then answerLoop ((total.strcat r.buf).strcat (ascii "\r\n")) rs
    else some (total, rs)

/-- `total[strlen(total) - 2] = '\0'` -/
def skipNewline (total : Buffer wiflyElSize) : Buffer wiflyElSize :=
  total.store (sizeSub total.strlen 2) 0

/-- `wiflyReadCommand(cmd, total)` on the results of its calls of `wiflyRead`, three before the
loop and two after it. -/
def wiflyReadCommand (total : Buffer wiflyElSize) :
    List Reading → Option (Buffer wiflyElSize × List Reading)
  | _ :: _ :: _ :: rs =>
    (answerLoop (total.store 0 0) rs).bind fun
      | (total, _ :: _ :: rs) => some (skipNewline total, rs)
      | _ => none
  | _ => none

/-- The lines of the answer: those the loop reads before it ends. -/
def answerLines (rs : List Reading) : List (List UInt8) :=
  ((rs.drop 3).takeWhile Reading.accepted).map Reading.buf

/-- The lines with a newline after each. -/
def withNewlines (lines : List (List UInt8)) : List UInt8 :=
  (lines.map (· ++ ascii "\r\n")).flatten

theorem withNewlines_cons (line : List UInt8) (lines : List (List UInt8)) :
    withNewlines (line :: lines) = line ++ ascii "\r\n" ++ withNewlines lines := rfl

theorem withNewlines_eq {lines : List (List UInt8)} (h : lines ≠ []) :
    withNewlines lines = (ascii "\r\n").intercalate lines ++ ascii "\r\n" := by
  induction lines with
  | nil => exact absurd rfl h
  | cons line lines ih =>
    rw [withNewlines_cons]
    cases lines with
    | nil => simp [withNewlines]
    | cons line' lines =>
      rw [ih (List.cons_ne_nil _ _)]
      simp [List.intercalate, List.intersperse, List.append_assoc]

theorem not_mem_buf (r : Reading) : 0 ∉ r.buf := by
  intro hm
  have := List.mem_takeWhile_imp hm
  simp at this

theorem answerLoop_holds {total total' : Buffer wiflyElSize} {s : List UInt8}
    {rs rs' : List Reading} (hs : total.Holds s) (hb : total.InBounds)
    (hfit : s.length + (withNewlines ((rs.takeWhile Reading.accepted).map Reading.buf)).length <
      wiflyElSize) (h : answerLoop total rs = some (total', rs')) :
    total'.Holds (s ++ withNewlines ((rs.takeWhile Reading.accepted).map Reading.buf)) ∧
      total'.InBounds := by
  induction rs generalizing total s with
  | nil => cases h
  | cons r rs ih =>
    rw [answerLoop] at h
    cases hr : r.accepted with
    | false =>
      rw [hr] at h
      cases h
      rw [List.takeWhile_cons, hr]
      exact ⟨by simpa [withNewlines] using hs, hb⟩
    | true =>
      rw [hr, if_pos rfl] at h
      rw [List.takeWhile_cons, hr, if_pos rfl, List.map_cons, withNewlines_cons] at hfit ⊢
      have hcr : (ascii "\r\n").length = 2 := rfl
      rw [List.length_append, List.length_append, hcr] at hfit
      have h1 := hs.strcat (not_mem_buf r) (by omega)
      have h2 := h1.strcat (u := ascii "\r\n") (by decide)
        (by rw [List.length_append, hcr]; omega)
      have hb2 : ((total.strcat r.buf).strcat (ascii "\r\n")).InBounds :=
        (hb.strcat hs (by omega)).strcat h1 (by rw [List.length_append, hcr]; omega)
      have hrest := ih h2 hb2 (by rw [List.length_append, List.length_append, hcr]; omega) h
      rw [List.append_assoc, List.append_assoc, ← List.append_assoc r.buf] at hrest
      exact hrest

theorem skipNewline_holds {total : Buffer wiflyElSize} {s : List UInt8}
    (h : total.Holds (s ++ ascii "\r\n")) (hb : total.InBounds) :
    (skipNewline total).Holds s ∧ (skipNewline total).InBounds := by
  have hlt := h.lt
  have hlen : (s ++ ascii "\r\n").length = s.length + 2 := List.length_append
  have hel : wiflyElSize = 1024 := rfl
  have hi : sizeSub total.strlen 2 = s.length := by
    rw [h.strlen, hlen, sizeSub]
    omega
  rw [skipNewline, hi]
  refine ⟨?_, hb.store (by omega)⟩
  have ht := h.truncate (i := s.length) (by omega)
  rw [List.take_left] at ht
  exact ht

/-- **The answer is exact and stays in the buffer if and only if there is one**: for every result
of every `wiflyRead`, as long as the lines of the answer fit with their newlines. -/
theorem readCommand_exact_iff {total total' : Buffer wiflyElSize} {rs rs' : List Reading}
    (hb : total.InBounds) (h : wiflyReadCommand total rs = some (total', rs'))
    (hfit : (withNewlines (answerLines rs)).length < wiflyElSize) :
    (total'.InBounds ∧ total'.text = (ascii "\r\n").intercalate (answerLines rs)) ↔
      answerLines rs ≠ [] := by
  unfold wiflyReadCommand at h
  split at h
  · next r1 r2 r3 rs =>
    obtain ⟨⟨t, rest⟩, hloop, h⟩ := Option.bind_eq_some_iff.1 h
    have hclear := total.holds_clear (n := wiflyElSize) (by decide)
    obtain ⟨hs, hin⟩ := answerLoop_holds hclear (hb.store (by decide))
      (by rw [List.length_nil, Nat.zero_add]; exact hfit) hloop
    rw [List.nil_append] at hs
    split at h
    · next t' r4 r5 rest' heq =>
      cases heq
      cases h
      constructor
      · -- without a line the index is beyond the buffer
        rintro ⟨hbound, -⟩ hnil
        rw [show (rs.takeWhile Reading.accepted).map Reading.buf = [] from hnil] at hs
        have hlast := hbound (sizeSub t.strlen 2) (by rw [skipNewline]; simp [Buffer.store])
        rw [hs.strlen] at hlast
        exact absurd hlast (by decide)
      · intro hne
        have hs' : t.Holds (withNewlines (answerLines (r1 :: r2 :: r3 :: rs))) := hs
        rw [withNewlines_eq hne] at hs'
        obtain ⟨htext, hbound⟩ := skipNewline_holds hs' hin
        exact ⟨hbound, htext.text⟩
    · cases h
  · cases h

/-- Two lines, then the prompt. -/
theorem readCommand_exact_two_lines :
    ∃ (total' : Buffer wiflyElSize) (rs : List Reading),
      answerLines rs = [ascii "IP=1", ascii "NM=2"] ∧
      wiflyReadCommand ⟨.fill _ 65, []⟩ rs = some (total', []) ∧
      (total'.InBounds ∧ total'.text = (ascii "\r\n").intercalate (answerLines rs)) := by
  let rs : List Reading := [⟨.ok, ascii "$$$"⟩, ⟨.ok, ascii "CMD"⟩, ⟨.ok, ascii "get ip"⟩,
    ⟨.ok, ascii "IP=1"⟩, ⟨.ok, ascii "NM=2"⟩, ⟨.ok, ascii "<2.32>"⟩, ⟨.ok, ascii "exit"⟩,
    ⟨.ok, ascii "EXIT"⟩]
  have hrun : (wiflyReadCommand ⟨.fill _ 65, []⟩ rs).any (fun r => r.2 == []) = true := by
    decide +kernel
  obtain ⟨⟨total', rest⟩, hr, hrest⟩ := (Option.any_eq_true _ _).1 hrun
  obtain rfl : rest = [] := by simpa using hrest
  exact ⟨total', rs, rfl, hr, (readCommand_exact_iff (fun _ h => by cases h) hr (by decide)).2
    (by decide)⟩

/-- The module is silent: every `wiflyRead` times out, and the terminator goes before the buffer. -/
theorem readCommand_out_of_bounds :
    ¬ ∀ (total total' : Buffer wiflyElSize) (rs rs' : List Reading), total.InBounds →
      wiflyReadCommand total rs = some (total', rs') →
      (withNewlines (answerLines rs)).length < wiflyElSize → total'.InBounds := by
  intro h
  let rs : List Reading := List.replicate 6 ⟨.timeout, []⟩
  have hrun : (wiflyReadCommand ⟨.fill _ 65, []⟩ rs).any
      (fun r => r.1.written.contains (2 ^ 32 - 2)) = true := by decide +kernel
  obtain ⟨⟨total', rest⟩, hr, hmem⟩ := (Option.any_eq_true _ _).1 hrun
  have hb := h ⟨.fill _ 65, []⟩ total' rs rest (fun _ hm => by cases hm) hr (by decide)
  exact absurd (hb _ (List.contains_iff_mem.1 hmem)) (by decide)

end RobotPws.Wifly
