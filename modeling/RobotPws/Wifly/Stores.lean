import RobotPws.Main
import RobotPws.Wifly.Moves

/-!
# The stores of the line parser

`Parser.stores` lists the stores into `id[16]` and `args[1024]` that one
character leads to, with their indices; `write_stores` says that the buffers
change by these stores and by nothing else.

The bounds do not rest on how the driver behaves. `Sys.anyStep` lets the
driver, its queues and its event listener be in any state at any moment and
lets every `sdGetTimeout` return any `int`, `Q_TIMEOUT` and `Q_RESET`
included; the runs of `Sys.step` are among its runs.
-/

namespace RobotPws.Wifly

open RobotPws.Lib RobotPws.Kernel RobotPws.Hal CharCell

/-- A store into one of the two buffers: the index and the cell. -/
inductive LineStore (α : Type) where
  | id (k : Nat) (c : α)
  | args (k : Nat) (c : α)
  deriving DecidableEq, Repr

namespace LineStore

variable {α : Type}

/-- The index is one of the array. -/
def InBounds : LineStore α → Prop
  | id k _ => k < 16
  | args k _ => k < 1024

/-- What the store makes of `id` and `args`. -/
def write (b : CArray α 16 × CArray α 1024) : LineStore α → CArray α 16 × CArray α 1024
  | id k c => (b.1.store k c, b.2)
  | args k c => (b.1, b.2.store k c)

end LineStore

namespace Parser

variable {α : Type}

def buffers (p : Parser α) : CArray α 16 × CArray α 1024 := (p.id, p.args)

/-- `id[i] = in` or `args[j] = in`. -/
def charStores (p : Parser α) (inn : Int) (c : α) : List (LineStore α) :=
  if p.readId then
    if inn = chSpace then []
    else if inn ≠ chCr ∧ inn ≠ chLf then [.id p.i c]
    else []
  else
    if inn ≠ chCr ∧ inn ≠ chLf then [.args p.j c]
    else []

theorem mem_charStores {p : Parser α} {inn : Int} {c : α} {w : LineStore α}
    (h : w ∈ p.charStores inn c) : w = .id p.i c ∨ w = .args p.j c := by
  unfold charStores at h
  split_ifs at h <;> simp at h
  · exact .inl h
  · exact .inr h

theorem write_charStores (p : Parser α) (inn : Int) (c : α) :
    (p.charStores inn c).foldl LineStore.write p.buffers = (p.store inn c).buffers := by
  unfold charStores store
  split_ifs <;> rfl

variable [CharCell α]

/-- `id[i] = args[j] = 0`. -/
def nulStores (p : Parser α) : List (LineStore α) := [.args p.j nul, .id p.i nul]

/-- The stores of one character: the overflow test comes after the first and
before the others. -/
def stores (p : Parser α) (inn : Int) (c : α) : List (LineStore α) :=
  p.charStores inn c ++
    if (p.store inn c).full then []
    else if inn = chLf then (p.store inn c).nulStores
    else []

theorem write_stores (p : Parser α) (inn : Int) (c : α) :
    (p.stores inn c).foldl LineStore.write p.buffers = (p.feed inn c).1.buffers := by
  rw [stores, List.foldl_append, write_charStores]
  obtain ⟨hf, he⟩ | ⟨hf, hl, he⟩ | ⟨hf, hl, he⟩ := feed_cases p inn c <;> rw [he]
  · rw [if_pos hf]
    rfl
  · rw [if_neg (by simp [hf]), if_pos hl]
    rfl
  · rw [if_neg (by simp [hf]), if_neg hl]
    rfl

/-- With the counters below the limits every store of the next character is in
bounds. The terminator follows a character that may have moved a counter, and
is stored only where the overflow test has failed. -/
theorem Ok.stores {p : Parser α} (h : p.Ok) (inn : Int) (c : α) :
    ∀ w ∈ p.stores inn c, w.InBounds := by
  intro w hw
  rcases List.mem_append.1 hw with hw | hw
  · have hi := h.i
    have hj := h.j
    rcases mem_charStores hw with rfl | rfl
    · show p.i < 16
      omega
    · show p.j < 1024
      omega
  · split_ifs at hw with hf hl
    · cases hw
    · have hok := h.store (Bool.not_eq_true _ ▸ hf)
      have hi := hok.i
      have hj := hok.j
      simp only [nulStores, List.mem_cons, List.not_mem_nil, or_false] at hw
      rcases hw with rfl | rfl
      · show (p.store inn c).j < 1024
        omega
      · show (p.store inn c).i < 16
        omega
    · cases hw

end Parser

/-! ## The loop in any environment -/

variable {ω σ : Type}

def qTimeout : Int := -1
def qReset : Int := -2

/-- A label of `Sys.anyStep`. -/
inductive AnyAct where
  /-- a step of `Sys.step` -/
  | act (a : Act)
  /-- the driver, its queues and its event listener are left in this state -/
  | driver (d : SerialDriver)
  /-- `sdGetTimeout` returns this value -/
  | status (inn : Int)

namespace Sys

section
variable (cb : ProtocolCallback ω σ)

/-- The thread goes on with any value of `sdGetTimeout`. -/
def status (s : Sys σ) (inn : Int) : Option (Sys σ) :=
  match s.pc with
  | .getByte =>
    let (p, v) := s.parser.feed inn ⟨toChar inn, none, s.sd.errs⟩
    some (act { s with parser := p } v)
  | .drain r ret =>
    if inn = qTimeout ∨ inn = qReset then some { s with pc := .recvWait r ret }
    else some (recvByte cb s r inn ret .drain)
  | .recvGet r ret =>
    if inn = qTimeout ∨ inn = qReset then some (s.received cb .reset r ret)
    else some (recvByte cb s r inn ret .recvWait)
  | _ => none

/-- A step of the machine in any environment. -/
def anyStep (s : Sys σ) : AnyAct → Option (Sys σ)
  | .act a => s.step cb a
  | .driver d => some { s with sd := d }
  | .status inn => s.status cb inn

/-- The stores of a step into `id` and `args`. -/
def lineStores (s : Sys σ) (l : AnyAct) (_ : Sys σ) : List (LineStore Cell) :=
  match l, s.pc with
  | .act .thread, .getByte =>
    s.parser.stores (inOf s.sd.sdGetTimeout.1) (cellOf s.sd.sdGetTimeout.1 s.sd.errs)
  | .status inn, .getByte => s.parser.stores inn ⟨toChar inn, none, s.sd.errs⟩
  | _, _ => []

end

variable {cb : ProtocolCallback ω σ} {s t : Sys σ}

/-- The runs of the machine are runs in any environment. -/
theorem any_of_steps {as : List Act} (h : Steps (step cb) Always s as t) :
    Steps (anyStep cb) Always s (as.map .act) t :=
  h.map AnyAct.act fun _ _ _ _ hs => ⟨hs, trivial⟩

theorem received_ne_register (s : Sys σ) (st : State) (r : Recv) (ret : RecvRet σ) :
    (s.received cb st r ret).pc ≠ .register := by
  cases ret <;> simp [received]

theorem parser_recvByte (s : Sys σ) (r : Recv) (inn : Int) (ret : RecvRet σ)
    (again : Recv → RecvRet σ → Pc σ) :
    (recvByte cb s r inn ret again).parser = s.parser := by
  obtain ⟨-, h⟩ | ⟨-, -, h⟩ | ⟨-, -, h⟩ := recvByte_cases cb s r inn ret again <;> simp [h]

theorem recvByte_ne_register (s : Sys σ) (r : Recv) (inn : Int) (ret : RecvRet σ)
    {again : Recv → RecvRet σ → Pc σ} (hag : ∀ r, again r ret ≠ .register) :
    (recvByte cb s r inn ret again).pc ≠ .register := by
  obtain ⟨-, h⟩ | ⟨-, -, h⟩ | ⟨-, -, h⟩ := recvByte_cases cb s r inn ret again <;> rw [h]
  · simp
  · apply received_ne_register
  · exact hag _

/-- In the loop the value goes to the parser, elsewhere the line stays. -/
theorem status_cases {inn : Int} (h : s.status cb inn = some t) :
    (s.pc = .getByte ∧ ∃ c, s.lineStores (.status inn) t = s.parser.stores inn c ∧
      t.parser = (s.parser.feed inn c).1 ∧ t.pc = .after (s.parser.feed inn c).2) ∨
    (s.pc ≠ .getByte ∧ SameLine s t ∧ t.pc ≠ .register) := by
  unfold status at h
  split at h
  case h_1 hpc =>
    simp only [act_eq] at h
    cases h
    exact .inl ⟨hpc, _, by simp only [lineStores, hpc], rfl, rfl⟩
  case h_2 r ret hpc =>
    refine .inr ⟨by simp [hpc], ?_⟩
    split at h <;> cases h
    · exact ⟨⟨rfl, rfl, rfl, by simp, by rw [hpc]; rfl, by rw [hpc]; rfl⟩, by simp⟩
    · exact ⟨recvByte_sameLine s s rfl rfl rfl r inn ret _ (by rw [hpc]; rfl) (by rw [hpc]; rfl)
        fun _ => ⟨by simp, rfl, rfl⟩, recvByte_ne_register _ _ _ _ (by simp)⟩
  case h_3 r ret hpc =>
    refine .inr ⟨by simp [hpc], ?_⟩
    split at h <;> cases h
    · exact ⟨received_sameLine s s rfl rfl rfl .reset r ret (by rw [hpc]; rfl) (by rw [hpc]; rfl),
        received_ne_register _ _ _ _⟩
    · exact ⟨recvByte_sameLine s s rfl rfl rfl r inn ret _ (by rw [hpc]; rfl) (by rw [hpc]; rfl)
        fun _ => ⟨by simp, rfl, rfl⟩, recvByte_ne_register _ _ _ _ (by simp)⟩
  case h_4 => cases h

/-! ## The stores are all there are -/

theorem Move.ne_register (hm : Move cb s t) : t.pc ≠ .register := by
  cases hm with
  | byte hpc => cases s.fed.2 <;> simp [Pc.after]
  | put b bs ret d => by_cases hbs : bs = [] <;> simp [hbs]
  | sendDone ret => cases ret <;> simp [sent]
  | drainByte r ret rx | recvByte r ret rx => exact recvByte_ne_register _ _ _ _ (by simp)
  | recvError | recvNothing => apply received_ne_register
  | iqResetCounter ret =>
    cases ret with
    | receive r ret => apply received_ne_register
    | overflow | error => simp [iqWasReset]
  | oqReset k pc hpc hn => rcases hn with ⟨k', rfl⟩ | rfl <;> simp
  | _ => simp

theorem threadStep_getByte (hs : s.threadStep cb = some t) (hg : s.pc = .getByte) :
    t.parser = s.fed.1 := by
  unfold threadStep at hs
  rw [hg] at hs
  simp only [act_eq] at hs
  cases hs
  rfl

theorem threadStep_register (hs : s.threadStep cb = some t) (hr : s.pc = .register) :
    t.parser = .init := by
  unfold threadStep at hs
  rw [hr] at hs
  cases hs
  rfl

/-- Apart from a character only the start of the thread changes the buffers. -/
theorem Move.buffers (hm : Move cb s t) (hr : s.pc ≠ .register) (hg : s.pc ≠ .getByte) :
    t.parser.buffers = s.parser.buffers := by
  cases hm with
  | register hpc => exact absurd hpc hr
  | byte hpc => exact absurd hpc hg
  | sendDone ret => cases ret <;> rfl
  | drainByte | recvByte =>
    rw [parser_recvByte]
    rfl
  | recvError | recvNothing =>
    rw [parser_received]
    rfl
  | iqResetCounter ret =>
    cases ret with
    | receive r ret => exact congrArg Parser.buffers (parser_received ..)
    | overflow | error => rfl
  | _ => rfl

theorem lineStores_of_ne {l : AnyAct} (h : s.pc ≠ .getByte) : s.lineStores l t = [] := by
  unfold lineStores
  split <;> first | rfl | contradiction

/-- The locals are as they start until the thread does. -/
def Fresh (s : Sys σ) : Prop := s.pc = .register → s.parser = .init

theorem threadStep_writes (hs : s.threadStep cb = some t) (h : s.Fresh) :
    (s.lineStores (.act .thread) t).foldl LineStore.write s.parser.buffers = t.parser.buffers := by
  by_cases hg : s.pc = .getByte
  · simp only [lineStores, hg]
    rw [Parser.write_stores, threadStep_getByte hs hg]
    rfl
  · rw [lineStores_of_ne hg, List.foldl_nil]
    by_cases hr : s.pc = .register
    · rw [h hr, threadStep_register hs hr]
    · exact ((threadStep_move hs).buffers hr hg).symm

/-- A step makes the stores it shows and no others. -/
theorem any_writes {l : AnyAct} (h : s.Fresh) (hs : s.anyStep cb l = some t) :
    (s.lineStores l t).foldl LineStore.write s.parser.buffers = t.parser.buffers ∧ t.Fresh := by
  cases l with
  | act a =>
    obtain ⟨rfl, hm⟩ | ⟨r, ret, rfl, -, -, rfl⟩ | ⟨x, v, rfl, -, rfl⟩ | ⟨sr, dr, rfl, rfl⟩ |
      ⟨thd, str, rfl, rfl⟩ := step_cases hs
    · exact ⟨threadStep_writes hs h, fun hpc => absurd hpc hm.ne_register⟩
    · exact ⟨congrArg Parser.buffers (parser_received ..).symm,
        fun hpc => absurd hpc (received_ne_register _ _ _ _)⟩
    · exact ⟨rfl, fun hpc => nomatch hpc⟩
    · exact ⟨rfl, h⟩
    · exact ⟨rfl, h⟩
  | driver d =>
    cases hs
    exact ⟨rfl, h⟩
  | status inn =>
    obtain ⟨-, c, hl, hp, ht⟩ | ⟨hg, he, hr⟩ := status_cases hs
    · refine ⟨by rw [hl, Parser.write_stores, hp], fun hpc => ?_⟩
      rw [ht] at hpc
      revert hpc
      cases (s.parser.feed inn c).2 <;> simp [Pc.after]
    · exact ⟨by rw [lineStores_of_ne hg, he.parser]; rfl, fun hpc => absurd hpc hr⟩

theorem run_writes {as : List AnyAct} (h : Steps (anyStep cb) Always init as s) :
    (observe (anyStep cb) Sys.lineStores init as).foldl LineStore.write Parser.init.buffers =
      s.parser.buffers := by
  have hstep : ∀ (s : Sys σ) (ws : List (LineStore Cell)) (l : AnyAct) (t : Sys σ),
      (ws.foldl LineStore.write Parser.init.buffers = s.parser.buffers ∧ s.Fresh) →
      Always s l → s.anyStep cb l = some t →
      (ws ++ s.lineStores l t).foldl LineStore.write Parser.init.buffers = t.parser.buffers ∧
        t.Fresh := by
    rintro s ws l t ⟨hw, hf⟩ - hs
    rw [List.foldl_append, hw]
    exact any_writes hf hs
  exact (h.inv_observe (l := []) hstep ⟨rfl, fun _ => rfl⟩).1

/-! ## The bounds -/

theorem any_bounded {l : AnyAct} (h : s.Bounded) (hs : s.anyStep cb l = some t) : t.Bounded := by
  cases l with
  | act a => exact step_bounded h hs
  | driver d => cases hs; exact h
  | status inn =>
    intro hf
    rcases status_cases hs with ⟨hpc, c, -, hp, ht⟩ | ⟨-, he, -⟩
    · rw [hp]
      rw [ht] at hf
      exact fed_ok (h (by rw [hpc]; rfl)) hf
    · rw [he.parser]
      exact h (he.overflowing ▸ hf)

theorem Bounded.lineStores (h : s.Bounded) (l : AnyAct) :
    ∀ w ∈ s.lineStores l t, w.InBounds := by
  unfold Sys.lineStores
  split
  · next hpc => exact (h (by rw [hpc]; rfl)).stores _ _
  · next hpc => exact (h (by rw [hpc]; rfl)).stores _ _
  · intro w hw
    cases hw

/-- **Every store of the line parser is in bounds**, in every run in any
environment, and the counters are below the limits at the top of the loop. -/
theorem line_stores_in_bounds {as : List AnyAct} (h : Steps (anyStep cb) Always init as s) :
    (s.pc = .top → s.parser.i ≤ 15 ∧ s.parser.j ≤ 1023) ∧
      ∀ w ∈ observe (anyStep cb) Sys.lineStores init as, w.InBounds := by
  have h0 : (init : Sys σ).Bounded := fun _ => ⟨Nat.zero_le _, Nat.zero_le _⟩
  have hstep : ∀ (s : Sys σ) (ws : List (LineStore Cell)) (l : AnyAct) (t : Sys σ),
      (s.Bounded ∧ ∀ w ∈ ws, w.InBounds) → Always s l → s.anyStep cb l = some t →
      t.Bounded ∧ ∀ w ∈ ws ++ s.lineStores l t, w.InBounds := by
    rintro s ws l t ⟨hb, hw⟩ - hs
    refine ⟨any_bounded hb hs, fun w hmem => ?_⟩
    exact (List.mem_append.1 hmem).elim (hw w) (hb.lineStores l w)
  obtain ⟨hb, hw⟩ := h.inv_observe (l := []) hstep ⟨h0, by simp⟩
  refine ⟨fun hpc => ?_, hw⟩
  have hok := hb (by rw [hpc]; rfl)
  exact ⟨hok.i, hok.j⟩

/-- A line of fourteen characters and a `Q_RESET`, which is stored like one: the
terminator goes into the last cell of `id`. -/
theorem line_stores_in_bounds_last :
    ∃ as s, Steps (anyStep Main.callback) Always init as s ∧
      .id 15 nul ∈ observe (anyStep Main.callback) lineStores init as ∧
      (s.pc = .top → s.parser.i ≤ 15 ∧ s.parser.j ≤ 1023) ∧
      ∀ w ∈ observe (anyStep Main.callback) lineStores init as, w.InBounds := by
  let as : List AnyAct :=
    (script [(2, Act.thread)] ++ Act.feed (ascii "aaaaaaaaaaaaaa")).map .act ++
    [.act (.rx 97), .act .thread, .act .thread, .status qReset, .act .thread,
      .driver { SerialDriver.start with elFlags := chnInputAvailable, epending := true },
      .act .thread, .act .thread, .status 10]
  have hrun : (exec (anyStep Main.callback) Always init as).isSome = true := by decide +kernel
  obtain ⟨s, hs⟩ := Option.isSome_iff_exists.1 hrun
  have hlast : .id 15 nul ∈ observe (anyStep Main.callback) lineStores init as := by
    decide +kernel
  have h := steps_of_exec hs
  exact ⟨as, s, h, hlast, line_stores_in_bounds h⟩

end Sys

end RobotPws.Wifly
