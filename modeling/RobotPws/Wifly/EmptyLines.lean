import RobotPws.Main
import RobotPws.Wifly.Framing

/-!
# Empty lines

The protocol says that empty messages are ignored. The loop on a stream of lines
against the same stream with empty lines inserted (`Inserts`): each inserted line
is one more call, of the callback with an empty id and empty arguments, whatever the
callback and whatever the other lines are (`calls_inserts`), since how often a line
calls the callback depends on the line alone (`lineCalls`).
-/

namespace RobotPws.Wifly

open RobotPws.Lib

/-! ## The streams -/

/-- The stream of these lines. -/
def stream (lines : List (List UInt8)) : List UInt8 := lines.flatMap (· ++ [10])

/-- The stream of the lines with `n` empty ones inserted at line boundaries. -/
inductive Inserts : Nat → List (List UInt8) → List UInt8 → Prop where
  | nil : Inserts 0 [] []
  | line {n : Nat} {lines : List (List UInt8)} {bs : List UInt8} (line : List UInt8) :
      Inserts n lines bs → Inserts n (line :: lines) (line ++ 10 :: bs)
  | empty {n : Nat} {lines : List (List UInt8)} {bs e : List UInt8} :
      e = [10] ∨ e = [13, 10] → Inserts n lines bs → Inserts (n + 1) lines (e ++ bs)

theorem stream_cons (line : List UInt8) (lines : List (List UInt8)) :
    stream (line :: lines) = line ++ 10 :: stream lines := by
  simp [stream]

theorem inserts_stream (lines : List (List UInt8)) : Inserts 0 lines (stream lines) := by
  induction lines with
  | nil => exact .nil
  | cons line lines ih => rw [stream_cons]; exact .line line ih

theorem Inserts.eq_stream {n : Nat} {lines : List (List UInt8)} {bs : List UInt8}
    (h : Inserts n lines bs) (hn : n = 0) : bs = stream lines := by
  induction h with
  | nil => rfl
  | line line _ ih => rw [stream_cons, ih hn]
  | empty => omega

/-! ## What the loop shows -/

def Event.toCall : Event → Option (List UInt8 × List UInt8)
  | call id args => some (id, args)
  | _ => none

def Event.toReply : Event → Option (List UInt8)
  | message msg | reply msg => some msg
  | _ => none

/-- The invocations of the callback. -/
def invocations (evs : List Event) : List (List UInt8 × List UInt8) := evs.filterMap Event.toCall

/-- The messages sent, by the loop or the callback. -/
def replies (evs : List Event) : List (List UInt8) := evs.filterMap Event.toReply

/-- How often the callback is called up to the end of a line that holds the text `t`;
a new line starts where the text does not fit. -/
def lineCalls (t : List UInt8) : List UInt8 → Nat
  | [] => if isStatusId (idPart t) then 0 else 1
  | b :: u => lineCalls (if Fits (textByte t b) then textByte t b else []) u

section
variable {σ : Type} (f : Callback σ)

theorem invocations_append (evs evs' : List Event) :
    invocations (evs ++ evs') = invocations evs ++ invocations evs' :=
  List.filterMap_append

theorem invocations_serve (env : σ) (p : Parser UInt8) (v : Verdict) :
    (invocations (serve f env p v).2).length = if v = .command then 1 else 0 := by
  cases v with
  | command =>
    have hsent : ∀ sent : List (List UInt8), invocations (sent.map .message) = [] := by
      intro sent
      simp [invocations, Event.toCall]
    have hanswer : ∀ ret, invocations (answer ret) = [] := by
      intro ret
      cases ret <;> rfl
    have happ := invocations_append ((f env (cstring p.id) (cstring p.args)).2.1.map .message)
      (answer (f env (cstring p.id) (cstring p.args)).2.2)
    rw [hsent, hanswer, List.append_nil] at happ
    simp only [serve, List.cons_append, invocations, List.filterMap_cons, Event.toCall,
      List.length_cons, ↓reduceIte]
    rw [← invocations, happ]
    rfl
  | _ => rfl

/-- The loop is at a line boundary, nothing being discarded. -/
structure AtLine (s : LoopState σ) : Prop where
  parser : s.parser.Boundary
  skip : s.skip = 0

theorem feedAll_lineCalls {s : LoopState σ} {t u : List UInt8} (h : Reads s.parser t)
    (ht : Fits t) (h0 : s.skip = 0) (hu : 10 ∉ u) (hq : s.queued = [] ∨ Fits (t ++ text u)) :
    AtLine (feedAll f s (u ++ [10])).1 ∧ (feedAll f s (u ++ [10])).1.queued = s.queued ∧
      (invocations (feedAll f s (u ++ [10])).2).length = lineCalls t u := by
  induction u generalizing s t with
  | nil =>
    have hv := Parser.lineVerdict_ne_overflow s.parser.terminate
    have hbyte := feedByte_line f h0 (h.feed_newline ht.1 ht.2) hv
    rw [List.nil_append, feedAll, hbyte]
    refine ⟨⟨Parser.next_boundary _ (Parser.lineVerdict_ne_more _), h0⟩, rfl, ?_⟩
    simp only [feedAll, List.append_nil, invocations_serve, Parser.lineVerdict_command, h.isStatus,
      lineCalls]
    cases isStatusId (idPart t) <;> rfl
  | cons b u ih =>
    simp only [List.mem_cons, not_or] at hu
    obtain ⟨hst, hfeed⟩ := h.feed ht (Ne.symm hu.1)
    rw [textByte_append] at hq
    rw [List.cons_append, feedAll, lineCalls]
    by_cases hfit : Fits (textByte t b)
    · rw [if_pos hfit] at hfeed ⊢
      rw [feedByte_more f h0 hfeed]
      exact ih (s := { s with parser := s.parser.store b.toNat b }) hst hfit h0 hu.2 hq
    · -- a line that fits has no prefix that does not
      have hnone : s.queued = [] := hq.resolve_right fun hf => hfit
        ⟨(before_length_mono _ _).trans hf.1, (after_length_mono _ _).trans hf.2⟩
      rw [if_neg hfit] at hfeed ⊢
      rw [feedByte_overflow f h0 hfeed, hnone]
      have hb := Parser.restart_boundary (s.parser.store b.toNat b)
      obtain ⟨h1, h2, h3⟩ := ih (s := { s with
        parser := (s.parser.store b.toNat b).restart, skip := 0, queued := [] })
        (reads_of_boundary hb) ⟨by decide, by decide⟩ rfl hu.2 (.inl rfl)
      exact ⟨h1, h2, h3⟩

/-- A stream with lines inserted calls the callback once more for each of them. -/
theorem calls_inserts {n : Nat} {lines : List (List UInt8)} {bs : List UInt8}
    (h : Inserts n lines bs) {s : LoopState σ} (hs : AtLine s) (hl : ∀ line ∈ lines, 10 ∉ line)
    (hq : s.queued = [] ∨ ∀ line ∈ lines, Fits (text line)) :
    (invocations (feedAll f s bs).2).length = n + (lines.map (lineCalls [])).sum := by
  have hline : ∀ {s : LoopState σ} {u bs : List UInt8}, AtLine s → 10 ∉ u →
      (s.queued = [] ∨ Fits (text u)) →
      AtLine (feedAll f s (u ++ [10])).1 ∧ (feedAll f s (u ++ [10])).1.queued = s.queued ∧
      (invocations (feedAll f s (u ++ 10 :: bs)).2).length = lineCalls [] u +
        (invocations (feedAll f (feedAll f s (u ++ [10])).1 bs).2).length := by
    intro s u bs hs hu hq
    obtain ⟨h1, h2, h3⟩ := feedAll_lineCalls f (reads_of_boundary hs.parser)
      ⟨by decide, by decide⟩ hs.skip hu hq
    refine ⟨h1, h2, ?_⟩
    rw [← List.singleton_append, ← List.append_assoc, feedAll_append, invocations_append,
      List.length_append, h3]
  induction h generalizing s with
  | nil => rfl
  | line line _ ih =>
    obtain ⟨h1, h2, h3⟩ := hline hs (hl line List.mem_cons_self)
      (hq.imp_right fun h => h line List.mem_cons_self)
    have := ih h1 (fun l hm => hl l (List.mem_cons_of_mem _ hm))
      (by rw [h2]; exact hq.imp_right fun h l hm => h l (List.mem_cons_of_mem _ hm))
    rw [h3, this, List.map_cons, List.sum_cons]
    omega
  | @empty n lines bs e he _ ih =>
    have hempty : ∃ u, e = u ++ [10] ∧ 10 ∉ u ∧ Fits (text u) ∧ lineCalls [] u = 1 := by
      rcases he with rfl | rfl
      · exact ⟨[], rfl, by decide, by decide, by decide⟩
      · exact ⟨[13], rfl, by decide, by decide, by decide⟩
    obtain ⟨u, rfl, hu, hf, h1⟩ := hempty
    obtain ⟨ha, hk, hc⟩ := hline hs hu (.inr hf)
    have := ih ha hl (by rw [hk]; exact hq)
    rw [List.append_assoc, List.singleton_append, hc, this]
    omega

/-- **Empty messages are not ignored**: the callback is invoked and the replies are
sent as without the empty lines exactly when none has been inserted. -/
theorem empty_ignored_iff {s : LoopState σ} (hs : AtLine s) {n : Nat}
    {lines : List (List UInt8)} {bs : List UInt8} (hl : ∀ line ∈ lines, 10 ∉ line)
    (hq : s.queued = [] ∨ ∀ line ∈ lines, Fits (text line)) (h : Inserts n lines bs) :
    (invocations (feedAll f s bs).2 = invocations (feedAll f s (stream lines)).2 ∧
      replies (feedAll f s bs).2 = replies (feedAll f s (stream lines)).2) ↔ n = 0 := by
  constructor
  · rintro ⟨hcalls, -⟩
    have h1 := calls_inserts f h hs hl hq
    have h2 := calls_inserts f (inserts_stream lines) hs hl hq
    rw [hcalls, h2] at h1
    omega
  · intro hn
    rw [h.eq_stream hn]
    exact ⟨rfl, rfl⟩

end

/-- The callback of `main.c` on the commands that call nothing else. -/
def mainAnswers : Callback Unit := fun _ id args =>
  match Main.start id args with
  | .done m => ((), [], m)
  | .say msg m => ((), [msg], m)
  | _ => ((), [], .ok)

/-- One empty line between two commands. -/
theorem empty_ignored_between :
    let s : LoopState Unit := ⟨(), .init, 0, []⟩
    let lines := [ascii "version\r", ascii "light 3\r"]
    let inserted := ascii "version\r" ++ 10 :: ([10] ++ (ascii "light 3\r" ++ 10 :: []))
    ¬ (invocations (feedAll mainAnswers s inserted).2 =
        invocations (feedAll mainAnswers s (stream lines)).2 ∧
      replies (feedAll mainAnswers s inserted).2 =
        replies (feedAll mainAnswers s (stream lines)).2) := by
  intro s lines inserted h
  have hone := (empty_ignored_iff mainAnswers (s := s) ⟨⟨rfl, rfl, rfl⟩, rfl⟩ (by decide) (.inl rfl)
    (.line _ (.empty (.inl rfl) (.line _ .nil)))).1 h
  cases hone

/-- An empty line in front of `version` is answered with `*ERROR*`. -/
theorem empty_answered :
    let s : LoopState Unit := ⟨(), .init, 0, []⟩
    let version := ascii "version\r"
    Inserts 1 [version] ([13, 10] ++ (version ++ [10])) ∧
      replies (feedAll mainAnswers s ([13, 10] ++ (version ++ [10]))).2 =
        [errorMsg, ascii "CHIBIOS-STM32DISCOVERY v0.1\r\n"] ∧
      replies (feedAll mainAnswers s (stream [version])).2 =
        [ascii "CHIBIOS-STM32DISCOVERY v0.1\r\n"] :=
  ⟨.empty (.inr rfl) (.line _ .nil), by decide, by decide⟩

end RobotPws.Wifly
