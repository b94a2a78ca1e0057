import Mathlib.Logic.Function.Basic
import RobotPws.Main
import RobotPws.Wifly.Moves

/-!
# One call of `wifly_receive`

What a call does from its first `sdGetTimeout` to its return, whatever arrives and
whatever flags are pending: the bytes it takes from the queue, its stores into `msg`
and into the queue, its result (`RecvEvent`). Both of its loops go on with the same
index, and `Progress` is what either of them has done so far.
-/

namespace RobotPws.Wifly

open RobotPws.Lib RobotPws.Kernel RobotPws.Hal

/-! ## Stores into a buffer -/

/-- The memory from `msg` on after these stores. -/
def storeAll (m : Nat → UInt8) (ws : List (Nat × UInt8)) : Nat → UInt8 :=
  ws.foldl (fun m w => Function.update m w.1 w.2) m

/-- The memory with these bytes at its start. -/
def overlay (m : Nat → UInt8) (bs : List UInt8) (k : Nat) : UInt8 := (bs[k]?).getD (m k)

theorem storeAll_append (m : Nat → UInt8) (ws ws' : List (Nat × UInt8)) :
    storeAll m (ws ++ ws') = storeAll (storeAll m ws) ws' :=
  List.foldl_append

theorem update_overlay (m : Nat → UInt8) (bs : List UInt8) (c : UInt8) :
    Function.update (overlay m bs) bs.length c = overlay m (bs ++ [c]) := by
  funext k
  unfold overlay
  rcases Nat.lt_trichotomy k bs.length with hk | rfl | hk
  · rw [Function.update_of_ne (by omega), List.getElem?_append_left hk]
  · simp
  · rw [Function.update_of_ne (by omega), List.getElem?_append_right (by omega),
      List.getElem?_eq_none (by omega), List.getElem?_eq_none (by simp; omega)]

/-! ## What a call shows -/

inductive RecvEvent where
  /-- `sdGetTimeout` gives the byte -/
  | get (b : UInt8)
  /-- `msg[i] = c` -/
  | write (i : Nat) (c : UInt8)
  /-- a store of `chIQResetI` -/
  | reset (k : QReset)
  /-- `return s` -/
  | ret (s : State)
  deriving DecidableEq, Repr

namespace RecvEvent

def toGet : RecvEvent → Option UInt8
  | get b => some b
  | _ => none

def toWrite : RecvEvent → Option (Nat × UInt8)
  | write i c => some (i, c)
  | _ => none

def toReset : RecvEvent → Option QReset
  | reset k => some k
  | _ => none

def toRet : RecvEvent → Option State
  | ret s => some s
  | _ => none

end RecvEvent

/-- The bytes dequeued. -/
def gets (l : List RecvEvent) : List UInt8 := l.filterMap RecvEvent.toGet
def writes (l : List RecvEvent) : List (Nat × UInt8) := l.filterMap RecvEvent.toWrite
def resets (l : List RecvEvent) : List QReset := l.filterMap RecvEvent.toReset
def results (l : List RecvEvent) : List State := l.filterMap RecvEvent.toRet

/-- The bytes without `'\r'` and `'\n'`. -/
def kept (bs : List UInt8) : List UInt8 := bs.filter fun b => b ≠ 13 ∧ b ≠ 10

/-- `msg[i] = '\0'; return s`. -/
def Recv.returns (r : Recv) (s : State) : List RecvEvent := [.write r.got.length 0, .ret s]

/-- `msg[i] = in`, if the character is kept. -/
def Recv.writesByte (r : Recv) (inn : Int) : List RecvEvent :=
  if inn ≠ chCr ∧ inn ≠ chLf then [.write r.got.length (toChar inn)] else []

/-- The locals of `wifly_receive` and where it returns to. -/
def Pc.recv {σ : Type} : Pc σ → Option (Recv × RecvRet σ)
  | .drain r ret | .recvWait r ret | .recvSleep r ret | .recvFlags r ret | .recvGet r ret
  | .iqReset _ (.receive r ret) => some (r, ret)
  | _ => none

section
variable {ω σ : Type} {cb : ProtocolCallback ω σ}

/-- A character has been dequeued. -/
def Recv.byteEvents (r : Recv) (rx : Rx) : List RecvEvent :=
  .get rx.byte :: (r.writesByte (inOf (some rx)) ++
    if (r.store (inOf (some rx))).full = false ∧ inOf (some rx) = chLf then
      (r.store (inOf (some rx))).returns .ok
    else [])

/-- What a step of `wifly_receive` does. -/
def Sys.recvEvents (s : Sys σ) (a : Act) (_ : Sys σ) : List RecvEvent :=
  match a, s.pc with
  | .thread, .drain r _ => (s.sd.sdGetTimeout.1).elim [] r.byteEvents
  | .thread, .recvFlags r _ =>
    if hasFlag s.sd.elFlags chnInputAvailable = false ∧ s.sd.elFlags > 32 then r.returns .error
    else []
  | .thread, .recvGet r _ => (s.sd.sdGetTimeout.1).elim (r.returns .reset) r.byteEvents
  | .thread, .iqReset k (.receive r _) =>
    .reset k :: if k = .counter then r.returns .overflow else []
  | .timeout, .recvSleep r _ => r.returns .timeout
  | _, _ => []

/-- The thread is in `wifly_receive`. -/
def Receiving (s : Sys σ) (_ : Act) : Prop := s.pc.recv.isSome = true

instance (s : Sys σ) (a : Act) : Decidable (Receiving s a) :=
  inferInstanceAs (Decidable (_ = true))

/-! ## So far -/

/-- What has been done with the locals `r`. -/
structure Progress (maxL : Nat) (r : Recv) (l : List RecvEvent) : Prop where
  limit : r.maxL = maxL
  got : r.got = kept (gets l)
  newline : 10 ∉ gets l
  mem : ∀ m, storeAll m (writes l) = overlay m r.got
  bound : ∀ w ∈ writes l, w.1 < maxL
  running : results l = []

/-- The stores of `chIQResetI` made before the next one. -/
def doneBefore : QReset → List QReset
  | .wrptr => []
  | .rdptr => [.wrptr]
  | .counter => [.wrptr, .rdptr]

/-- The call is at `pc`. -/
def Inside (maxL : Nat) (r : Recv) (l : List RecvEvent) : Pc σ → Prop
  | .iqReset k _ => r.got.length = maxL - 1 ∧ resets l = doneBefore k
  | _ => r.got.length < maxL - 1 ∧ resets l = []

/-- The call has returned. -/
structure Returned (cb : ProtocolCallback ω σ) (maxL : Nat) (ret : RecvRet σ) (t : Sys σ)
    (l : List RecvEvent) : Prop where
  bound : ∀ w ∈ writes l, w.1 < maxL
  mem : ∀ m, storeAll m (writes l) = overlay m (kept (gets l) ++ [0])
  newline : 10 ∉ (gets l).dropLast
  result : ∃ s, results l = [s] ∧ (∃ u, t = Sys.received cb u s ⟨kept (gets l), maxL⟩ ret) ∧
    (s = .ok ↔ (gets l).getLast? = some 10) ∧ (s = .overflow ↔ (kept (gets l)).length = maxL - 1) ∧
    (s = .overflow → resets l = [.wrptr, .rdptr, .counter] ∧ t.sd.iqueue.qCounter = 0)

theorem gets_append (l l' : List RecvEvent) : gets (l ++ l') = gets l ++ gets l' :=
  List.filterMap_append

theorem writes_append (l l' : List RecvEvent) : writes (l ++ l') = writes l ++ writes l' :=
  List.filterMap_append

theorem resets_append (l l' : List RecvEvent) : resets (l ++ l') = resets l ++ resets l' :=
  List.filterMap_append

theorem results_append (l l' : List RecvEvent) : results (l ++ l') = results l ++ results l' :=
  List.filterMap_append

theorem kept_append (bs bs' : List UInt8) : kept (bs ++ bs') = kept bs ++ kept bs' :=
  List.filter_append ..

theorem inOf_kept (rx : Rx) :
    (inOf (some rx) ≠ chCr ∧ inOf (some rx) ≠ chLf) ↔ rx.byte ≠ 13 ∧ rx.byte ≠ 10 := by
  have h : ∀ b : UInt8, inOf (some rx) = (b.toNat : Int) ↔ rx.byte = b := by
    intro b
    rw [inOf, Int.natCast_inj, UInt8.toNat_inj]
  rw [show chCr = ((13 : UInt8).toNat : Int) from rfl,
    show chLf = ((10 : UInt8).toNat : Int) from rfl, ne_eq, ne_eq, h, h]

section
variable {maxL : Nat} {r : Recv} {ret : RecvRet σ} {l : List RecvEvent}

theorem Progress.of_writes_nil (h : Progress maxL r l) {es : List RecvEvent}
    (hg : kept (gets es) = []) (hn : 10 ∉ gets es) (hw : writes es = []) (hr : results es = []) :
    Progress maxL r (l ++ es) := by
  refine ⟨h.limit, ?_, ?_, ?_, ?_, ?_⟩
  · rw [gets_append, kept_append, hg, List.append_nil]
    exact h.got
  · rw [gets_append, List.mem_append]
    exact fun hm => hm.elim h.newline hn
  · rw [writes_append, hw, List.append_nil]
    exact h.mem
  · rw [writes_append, hw, List.append_nil]
    exact h.bound
  · rw [results_append, h.running, hr]
    rfl

theorem Progress.byte (h : Progress maxL r l) (hlt : r.got.length < maxL - 1) {rx : Rx}
    (hb : rx.byte ≠ 10) :
    Progress maxL (r.store (inOf (some rx)))
        (l ++ .get rx.byte :: r.writesByte (inOf (some rx))) ∧
      resets (.get rx.byte :: r.writesByte (inOf (some rx))) = [] ∧
      (r.store (inOf (some rx))).got.length ≤ maxL - 1 := by
  by_cases hk : inOf (some rx) ≠ chCr ∧ inOf (some rx) ≠ chLf
  · have hbyte := (inOf_kept rx).1 hk
    have hchar : toChar (inOf (some rx)) = rx.byte := toChar_ofNat rx.byte
    have hstore : r.store (inOf (some rx)) = { r with got := r.got ++ [rx.byte] } := by
      rw [Recv.store, if_pos hk, hchar]
    rw [hstore, Recv.writesByte, if_pos hk, hchar]
    refine ⟨⟨h.limit, ?_, ?_, fun m => ?_, ?_, ?_⟩, rfl, ?_⟩
    · rw [gets_append, kept_append, ← h.got]
      simp [gets, RecvEvent.toGet, kept, hbyte.1, hbyte.2]
    · rw [gets_append, List.mem_append]
      exact fun hm => hm.elim h.newline (by simpa [gets, RecvEvent.toGet] using Ne.symm hb)
    · rw [writes_append, storeAll_append, h.mem, ← update_overlay]
      rfl
    · intro w hw
      rw [writes_append, List.mem_append] at hw
      rcases hw with hw | hw
      · exact h.bound w hw
      · obtain rfl : (r.got.length, rx.byte) = w := by
          simpa [writes, RecvEvent.toWrite] using hw
        show r.got.length < maxL
        omega
    · rw [results_append, h.running]
      rfl
    · rw [List.length_append, List.length_singleton]
      omega
  · have hbyte : rx.byte = 13 := by
      by_contra h13
      exact hk ((inOf_kept rx).2 ⟨h13, hb⟩)
    have hstore : r.store (inOf (some rx)) = r := by rw [Recv.store, if_neg hk]
    rw [hstore, Recv.writesByte, if_neg hk, hbyte]
    exact ⟨h.of_writes_nil rfl (by decide) rfl rfl, rfl, by omega⟩

theorem Progress.returned (h : Progress maxL r l) {u : Sys σ} {st : State} {es : List RecvEvent}
    (hgot : r.got.length < maxL) (hes : writes es = [] ∧ results es = [])
    (hkept : kept (gets es) = []) (hn : 10 ∉ (gets (l ++ es)).dropLast)
    (hok : st = .ok ↔ (gets (l ++ es)).getLast? = some 10)
    (hfull : st = .overflow ↔ r.got.length = maxL - 1)
    (hreset : st = .overflow → resets (l ++ es) = [.wrptr, .rdptr, .counter] ∧
      u.sd.iqueue.qCounter = 0) :
    Returned cb maxL ret (u.received cb st r ret) (l ++ es ++ r.returns st) := by
  have hgets : gets (l ++ es ++ r.returns st) = gets (l ++ es) := by
    rw [gets_append]
    exact List.append_nil _
  have hdata : kept (gets (l ++ es)) = r.got := by
    rw [gets_append, kept_append, hkept, List.append_nil]
    exact h.got.symm
  have hwrites : writes (l ++ es ++ r.returns st) = writes l ++ [(r.got.length, 0)] := by
    rw [writes_append, writes_append, hes.1, List.append_nil]
    rfl
  refine ⟨?_, fun m => ?_, by rw [hgets]; exact hn, st, ?_, ⟨u, ?_⟩, by rw [hgets]; exact hok, ?_,
    fun ho => ?_⟩
  · intro w hw
    rw [hwrites, List.mem_append, List.mem_singleton] at hw
    rcases hw with hw | rfl
    · exact h.bound w hw
    · exact hgot
  · rw [hwrites, storeAll_append, h.mem, hgets, hdata, ← update_overlay]
    rfl
  · rw [results_append, results_append, h.running, hes.2]
    rfl
  · rw [hgets, hdata, ← h.limit]
  · rw [hgets, hdata]
    exact hfull
  · obtain ⟨h1, h2⟩ := hreset ho
    refine ⟨?_, by rw [Sys.received_sd]; exact h2⟩
    rw [resets_append, h1]
    rfl

theorem Progress.stopped (h : Progress maxL r l) {u : Sys σ} {st : State} {es : List RecvEvent}
    (hgot : r.got.length < maxL) (hes : gets es = [] ∧ writes es = [] ∧ results es = [])
    (hok : st ≠ .ok) (hfull : st = .overflow ↔ r.got.length = maxL - 1)
    (hreset : st = .overflow → resets (l ++ es) = [.wrptr, .rdptr, .counter] ∧
      u.sd.iqueue.qCounter = 0) :
    Returned cb maxL ret (u.received cb st r ret) (l ++ es ++ r.returns st) := by
  have hgets : gets (l ++ es) = gets l := by rw [gets_append, hes.1, List.append_nil]
  refine h.returned hgot hes.2 (by rw [hes.1]; rfl) ?_ ?_ hfull hreset
  · rw [hgets]
    exact fun hm => h.newline (List.dropLast_subset _ hm)
  · rw [hgets]
    exact ⟨fun hs => absurd hs hok, fun hl => absurd (List.mem_of_getLast? hl) h.newline⟩

theorem Progress.gaveUp (h : Progress maxL r l) (hlt : r.got.length < maxL - 1) (u : Sys σ)
    {st : State} (hok : st ≠ .ok) (ho : st ≠ .overflow) :
    Returned cb maxL ret (u.received cb st r ret) (l ++ r.returns st) := by
  have hr : Returned cb maxL ret (u.received cb st r ret) (l ++ [] ++ r.returns st) :=
    h.stopped (by omega) ⟨rfl, rfl, rfl⟩ hok
      ⟨fun hs => absurd hs ho, fun hf => absurd hf (by omega)⟩ fun hs => absurd hs ho
  rwa [List.append_nil] at hr

theorem full_iff (h : r.maxL = maxL) : r.full = true ↔ r.got.length = maxL - 1 := by
  rw [Recv.full, beq_iff_eq, h]

variable (cb) in
theorem receive_byte (h : Progress maxL r l) (hlt : r.got.length < maxL - 1)
    (hreset : resets l = []) (u : Sys σ) (rx : Rx) {again : Recv → RecvRet σ → Pc σ}
    (hrecv : ∀ r, (again r ret).recv = some (r, ret))
    (hinside : ∀ r l, r.got.length < maxL - 1 → resets l = [] → Inside maxL r l (again r ret)) :
    (∃ r', (u.recvByte cb r (inOf (some rx)) ret again).pc.recv = some (r', ret) ∧
      Progress maxL r' (l ++ r.byteEvents rx) ∧
      Inside maxL r' (l ++ r.byteEvents rx) (u.recvByte cb r (inOf (some rx)) ret again).pc) ∨
    Returned cb maxL ret (u.recvByte cb r (inOf (some rx)) ret again) (l ++ r.byteEvents rx) := by
  by_cases hb : rx.byte = 10
  · -- the newline is not stored, and the limit was tested when the last character was
    have hlf : inOf (some rx) = chLf := by rw [inOf, hb]; rfl
    have hk : ¬ (inOf (some rx) ≠ chCr ∧ inOf (some rx) ≠ chLf) := fun hk => hk.2 hlf
    have hstore : r.store (inOf (some rx)) = r := by rw [Recv.store, if_neg hk]
    have hfull : r.full = false := by
      rw [← Bool.not_eq_true, full_iff h.limit]
      omega
    have hevents : r.byteEvents rx = [.get 10] ++ r.returns .ok := by
      rw [Recv.byteEvents, hstore, if_pos ⟨hfull, hlf⟩, Recv.writesByte, if_neg hk, hb]
      rfl
    obtain ⟨hf, -⟩ | ⟨-, -, he⟩ | ⟨-, hne, -⟩ :=
      Sys.recvByte_cases cb u r (inOf (some rx)) ret again
    · rw [hstore, hfull] at hf
      cases hf
    · rw [he, hstore, hevents, ← List.append_assoc]
      have hgets : gets (l ++ [.get 10]) = gets l ++ [10] := gets_append _ _
      refine .inr (h.returned (by omega) ⟨rfl, rfl⟩ rfl ?_ ?_ ?_ (by simp))
      · rw [hgets, List.dropLast_concat]
        exact h.newline
      · rw [hgets, List.getLast?_concat]
        simp
      · simp only [reduceCtorEq, false_iff]
        omega
    · exact absurd hlf hne
  · obtain ⟨hp, hr, hle⟩ := h.byte hlt hb
    have hlf : inOf (some rx) ≠ chLf := fun hlf => hb (inOf_lf hlf)
    have hevents : r.byteEvents rx = .get rx.byte :: r.writesByte (inOf (some rx)) := by
      rw [Recv.byteEvents, if_neg (fun hc => hlf hc.2), List.append_nil]
    have hreset' : resets (l ++ r.byteEvents rx) = [] := by
      rw [hevents, resets_append, hreset, hr]
      rfl
    rw [← hevents] at hp
    left
    obtain ⟨hf, he⟩ | ⟨-, hl, -⟩ | ⟨hf, -, he⟩ :=
      Sys.recvByte_cases cb u r (inOf (some rx)) ret again
    · rw [he]
      exact ⟨_, rfl, hp, (full_iff hp.limit).1 hf, hreset'⟩
    · exact absurd hl hlf
    · rw [he]
      rw [← Bool.not_eq_true, full_iff hp.limit] at hf
      exact ⟨_, hrecv _, hp, hinside _ _ (by omega) hreset'⟩

variable {s t : Sys σ}

theorem recvEvents_drain (h : s.pc = .drain r ret) :
    s.recvEvents .thread t = (s.sd.sdGetTimeout.1).elim [] r.byteEvents := by
  simp only [Sys.recvEvents, h]

theorem recvEvents_get (h : s.pc = .recvGet r ret) :
    s.recvEvents .thread t = (s.sd.sdGetTimeout.1).elim (r.returns .reset) r.byteEvents := by
  simp only [Sys.recvEvents, h]

theorem recvEvents_flags (h : s.pc = .recvFlags r ret) :
    s.recvEvents .thread t =
      if hasFlag s.sd.elFlags chnInputAvailable = false ∧ s.sd.elFlags > 32 then r.returns .error
      else [] := by
  simp only [Sys.recvEvents, h]

theorem recvEvents_reset {k : QReset} (h : s.pc = .iqReset k (.receive r ret)) :
    s.recvEvents .thread t = .reset k :: if k = .counter then r.returns .overflow else [] := by
  simp only [Sys.recvEvents, h]

theorem recvEvents_wait (h : s.pc = .recvWait r ret ∨ s.pc = .recvSleep r ret) :
    s.recvEvents .thread t = [] := by
  rcases h with h | h <;> simp only [Sys.recvEvents, h]

/-- A step in the call or beside it, and what it shows. -/
inductive RecvStep (cb : ProtocolCallback ω σ) (s : Sys σ) (r : Recv) (ret : RecvRet σ) :
    Act → Sys σ → List RecvEvent → Prop where
  | drained (hpc : s.pc = .drain r ret) (hn : s.sd.sdGetTimeout.1 = none) :
    RecvStep cb s r ret .thread { s.dequeued with pc := .recvWait r ret } []
  | drainByte (rx : Rx) (hpc : s.pc = .drain r ret) (hrx : s.sd.sdGetTimeout.1 = some rx) :
    RecvStep cb s r ret .thread (Sys.recvByte cb s.dequeued r (inOf (some rx)) ret .drain)
      (r.byteEvents rx)
  | event (hpc : s.pc = .recvWait r ret ∨ s.pc = .recvSleep r ret) :
    RecvStep cb s r ret .thread
      { s with pc := .recvFlags r ret, sd := { s.sd with epending := false } } []
  | sleep (hpc : s.pc = .recvWait r ret) :
    RecvStep cb s r ret .thread { s with pc := .recvSleep r ret } []
  | input (hpc : s.pc = .recvFlags r ret) (hf : hasFlag s.sd.elFlags chnInputAvailable = true) :
    RecvStep cb s r ret .thread { s.flagsRead with pc := .recvGet r ret } []
  | error (hpc : s.pc = .recvFlags r ret) (hf : hasFlag s.sd.elFlags chnInputAvailable = false)
    (h32 : s.sd.elFlags > 32) :
    RecvStep cb s r ret .thread (s.flagsRead.received cb .error r ret) (r.returns .error)
  | other (hpc : s.pc = .recvFlags r ret) (hf : hasFlag s.sd.elFlags chnInputAvailable = false)
    (h32 : ¬ s.sd.elFlags > 32) :
    RecvStep cb s r ret .thread { s.flagsRead with pc := .recvWait r ret } []
  | nothing (hpc : s.pc = .recvGet r ret) (hn : s.sd.sdGetTimeout.1 = none) :
    RecvStep cb s r ret .thread (s.dequeued.received cb .reset r ret) (r.returns .reset)
  | byte (rx : Rx) (hpc : s.pc = .recvGet r ret) (hrx : s.sd.sdGetTimeout.1 = some rx) :
    RecvStep cb s r ret .thread (Sys.recvByte cb s.dequeued r (inOf (some rx)) ret .recvWait)
      (r.byteEvents rx)
  | resetWrptr (hpc : s.pc = .iqReset .wrptr (.receive r ret)) :
    RecvStep cb s r ret .thread
      { s with pc := .iqReset .rdptr (.receive r ret), sd := s.sd.chIQResetI .wrptr }
      [.reset .wrptr]
  | resetRdptr (hpc : s.pc = .iqReset .rdptr (.receive r ret)) :
    RecvStep cb s r ret .thread
      { s with pc := .iqReset .counter (.receive r ret), sd := s.sd.chIQResetI .rdptr }
      [.reset .rdptr]
  | resetCounter (hpc : s.pc = .iqReset .counter (.receive r ret)) :
    RecvStep cb s r ret .thread
      (Sys.received cb { s with sd := s.sd.chIQResetI .counter } .overflow r ret)
      (.reset .counter :: r.returns .overflow)
  | timeout (hpc : s.pc = .recvSleep r ret) (he : s.sd.epending = false) :
    RecvStep cb s r ret .timeout (s.received cb .timeout r ret) (r.returns .timeout)
  | usart (sr : SR) (dr : UInt8) :
    RecvStep cb s r ret (.usart sr dr) { s with sd := s.sd.serveInterrupt sr dr } []
  | client (thd : Nat) (str : List UInt8) :
    RecvStep cb s r ret (.client thd str) { s with msgQueue := s.msgQueue ++ [(thd, str)] } []

theorem recv_move (hpc : s.pc.recv = some (r, ret)) (hm : Sys.Move cb s t) :
    ∃ e, s.recvEvents .thread t = e ∧ RecvStep cb s r ret .thread t e := by
  cases hm with
  | drained r' ret' hpc' hn =>
    rw [hpc'] at hpc
    cases hpc
    exact ⟨_, by rw [recvEvents_drain hpc', hn]; rfl, .drained hpc' hn⟩
  | drainByte r' ret' rx hpc' hrx =>
    rw [hpc'] at hpc
    cases hpc
    exact ⟨_, by rw [recvEvents_drain hpc', hrx]; rfl, .drainByte rx hpc' hrx⟩
  | recvByte r' ret' rx hpc' hrx =>
    rw [hpc'] at hpc
    cases hpc
    exact ⟨_, by rw [recvEvents_get hpc', hrx]; rfl, .byte rx hpc' hrx⟩
  | recvNothing r' ret' hpc' hn =>
    rw [hpc'] at hpc
    cases hpc
    exact ⟨_, by rw [recvEvents_get hpc', hn]; rfl, .nothing hpc' hn⟩
  | recvEvent r' ret' hpc' =>
    have hret : (r', ret') = (r, ret) := by
      rcases hpc' with hpc' | hpc' <;> rw [hpc'] at hpc <;> exact Option.some.inj hpc
    cases hret
    exact ⟨_, recvEvents_wait hpc', .event hpc'⟩
  | recvSleep r' ret' hpc' =>
    rw [hpc'] at hpc
    cases hpc
    exact ⟨_, recvEvents_wait (.inl hpc'), .sleep hpc'⟩
  | recvInput r' ret' hpc' hf =>
    rw [hpc'] at hpc
    cases hpc
    refine ⟨_, ?_, .input hpc' hf⟩
    rw [recvEvents_flags hpc', if_neg fun hc => by rw [hf] at hc; cases hc.1]
  | recvOther r' ret' hpc' hf h32 =>
    rw [hpc'] at hpc
    cases hpc
    exact ⟨_, by rw [recvEvents_flags hpc', if_neg fun hc => h32 hc.2], .other hpc' hf h32⟩
  | recvError r' ret' hpc' hf h32 =>
    rw [hpc'] at hpc
    cases hpc
    exact ⟨_, by rw [recvEvents_flags hpc', if_pos ⟨hf, h32⟩], .error hpc' hf h32⟩
  | iqResetWrptr ret' hpc' =>
    cases ret' with
    | receive r' ret' =>
      rw [hpc'] at hpc
      cases hpc
      exact ⟨_, recvEvents_reset hpc', .resetWrptr hpc'⟩
    | overflow | error => rw [hpc'] at hpc; cases hpc
  | iqResetRdptr ret' hpc' =>
    cases ret' with
    | receive r' ret' =>
      rw [hpc'] at hpc
      cases hpc
      exact ⟨_, recvEvents_reset hpc', .resetRdptr hpc'⟩
    | overflow | error => rw [hpc'] at hpc; cases hpc
  | iqResetCounter ret' hpc' =>
    cases ret' with
    | receive r' ret' =>
      rw [hpc'] at hpc
      cases hpc
      exact ⟨_, recvEvents_reset hpc', .resetCounter hpc'⟩
    | overflow | error => rw [hpc'] at hpc; cases hpc
  | register hpc' | takeMessage hpc' | listen hpc' | readRequest _ _ hpc' | sendRequest _ _ _ hpc'
  | event hpc' | noEvent hpc' | inputFlag hpc' | errorFlags hpc' | otherFlags hpc' | byte hpc'
  | call hpc' | returnAnswer _ _ hpc' | returnMessage _ hpc' | callbackSendEmpty _ hpc'
  | callbackSend _ _ hpc' | callbackRead _ hpc' | put _ _ _ _ hpc' | sendEvent _ hpc'
  | sendDone _ hpc' | sendMore _ hpc' | release _ _ _ hpc' | oqReset _ _ hpc' =>
    rw [hpc'] at hpc
    cases hpc

theorem recv_step {a : Act} (hpc : s.pc.recv = some (r, ret)) (hst : s.step cb a = some t) :
    ∃ e, s.recvEvents a t = e ∧ RecvStep cb s r ret a t e := by
  obtain ⟨rfl, hm⟩ | ⟨r', ret', rfl, hpc', he, rfl⟩ | ⟨x, v, rfl, hpc', rfl⟩ | ⟨sr, dr, rfl, rfl⟩ |
    ⟨thd, str, rfl, rfl⟩ := Sys.step_cases hst
  · exact recv_move hpc hm
  · rw [hpc'] at hpc
    cases hpc
    exact ⟨_, by simp only [Sys.recvEvents, hpc'], .timeout hpc' he⟩
  · rw [hpc'] at hpc
    cases hpc
  · exact ⟨_, rfl, .usart sr dr⟩
  · exact ⟨_, rfl, .client thd str⟩

theorem receive_step {a : Act} (hmax : 2 ≤ maxL) (hpc : s.pc.recv = some (r, ret))
    (h : Progress maxL r l) (hin : Inside maxL r l s.pc) (hst : s.step cb a = some t) :
    (∃ r', t.pc.recv = some (r', ret) ∧ Progress maxL r' (l ++ s.recvEvents a t) ∧
      Inside maxL r' (l ++ s.recvEvents a t) t.pc) ∨
    Returned cb maxL ret t (l ++ s.recvEvents a t) := by
  have hstay : ∀ u : Sys σ, u.pc.recv = some (r, ret) → Inside maxL r l u.pc →
      (∃ r', u.pc.recv = some (r', ret) ∧ Progress maxL r' (l ++ []) ∧
        Inside maxL r' (l ++ []) u.pc) ∨ Returned cb maxL ret u (l ++ []) := by
    intro u hu hinu
    rw [List.append_nil]
    exact .inl ⟨r, hu, h, hinu⟩
  obtain ⟨e, he, hm⟩ := recv_step hpc hst
  rw [he]
  cases hm with
  | drained hpc' hn =>
    rw [hpc'] at hin
    exact hstay _ rfl hin
  | drainByte rx hpc' hrx =>
    rw [hpc'] at hin
    exact receive_byte cb h hin.1 hin.2 s.dequeued rx (fun _ => rfl) fun _ _ h1 h2 => ⟨h1, h2⟩
  | byte rx hpc' hrx =>
    rw [hpc'] at hin
    exact receive_byte cb h hin.1 hin.2 s.dequeued rx (fun _ => rfl) fun _ _ h1 h2 => ⟨h1, h2⟩
  | event hpc' => rcases hpc' with hpc' | hpc' <;> rw [hpc'] at hin <;> exact hstay _ rfl hin
  | sleep hpc' | input hpc' hf | other hpc' hf h32 =>
    rw [hpc'] at hin
    exact hstay _ rfl hin
  | error hpc' hf h32 =>
    rw [hpc'] at hin
    exact .inr (h.gaveUp hin.1 s.flagsRead (by simp) (by simp))
  | nothing hpc' hn =>
    rw [hpc'] at hin
    exact .inr (h.gaveUp hin.1 s.dequeued (by simp) (by simp))
  | resetWrptr hpc' | resetRdptr hpc' =>
    rw [hpc'] at hin
    refine .inl ⟨r, rfl, h.of_writes_nil rfl (by simp [gets, RecvEvent.toGet]) rfl rfl, hin.1, ?_⟩
    rw [resets_append, hin.2]
    rfl
  | resetCounter hpc' =>
    rw [hpc'] at hin
    have hlen := hin.1
    have hres : resets (l ++ [.reset .counter]) = [.wrptr, .rdptr, .counter] := by
      rw [resets_append, hin.2]
      rfl
    rw [List.append_cons]
    refine .inr (h.stopped (by omega) ⟨rfl, rfl, rfl⟩ (by simp) ?_ fun _ => ⟨hres, rfl⟩)
    exact ⟨fun _ => hlen, fun _ => rfl⟩
  | timeout hpc' he' =>
    rw [hpc'] at hin
    exact .inr (h.gaveUp hin.1 s (by simp) (by simp))
  | usart sr dr => exact hstay _ hpc hin
  | client thd str => exact hstay _ hpc hin

/-- **`wifly_receive` is exact and bounded**: whatever is in the queue and pending when it
is called, and whatever arrives while it runs. -/
theorem receive_exact (hmax : 2 ≤ maxL) {as : List Act} (hs : s.pc = .drain ⟨[], maxL⟩ ret)
    (h : Steps (Sys.step cb) Receiving s as t) (ht : t.pc.recv = none) :
    Returned cb maxL ret t (observe (Sys.step cb) Sys.recvEvents s as) := by
  have hstep : ∀ (s : Sys σ) (l : List RecvEvent) (a : Act) (t : Sys σ),
      ((∃ r, s.pc.recv = some (r, ret) ∧ Progress maxL r l ∧ Inside maxL r l s.pc) ∨
        (s.pc.recv = none ∧ Returned cb maxL ret s l)) → Receiving s a → s.step cb a = some t →
      (∃ r, t.pc.recv = some (r, ret) ∧ Progress maxL r (l ++ s.recvEvents a t) ∧
        Inside maxL r (l ++ s.recvEvents a t) t.pc) ∨
      (t.pc.recv = none ∧ Returned cb maxL ret t (l ++ s.recvEvents a t)) := by
    rintro s l a t (⟨r, hpc, hp, hin⟩ | ⟨hpc, -⟩) hc hst
    · refine (receive_step hmax hpc hp hin hst).imp id fun hr => ⟨?_, hr⟩
      obtain ⟨st, -, ⟨u, ht⟩, -⟩ := hr.result
      rw [ht]
      cases ret <;> rfl
    · rw [Receiving, hpc] at hc
      cases hc
  have hstart : Progress maxL ⟨[], maxL⟩ [] :=
    ⟨rfl, rfl, by simp [gets], fun m => rfl, by simp [writes], rfl⟩
  have hinside : Inside maxL ⟨[], maxL⟩ [] s.pc := by
    rw [hs]
    exact ⟨Nat.lt_sub_of_add_lt hmax, rfl⟩
  obtain ⟨r, hr, -⟩ | ⟨-, hr⟩ := h.inv_observe hstep (.inl ⟨_, by rw [hs]; rfl, hstart, hinside⟩)
  · rw [ht] at hr
    cases hr
  · exact hr

end

end

/-- The character of a line is stored by the one loop and its end is read by the other. -/
theorem receive_exact_two_loops :
    ∃ t, Returned Main.callback 4 (.release 7) t
      [.get 97, .write 0 97, .get 13, .get 10, .write 1 0, .ret .ok] := by
  let s : Sys Main.Point :=
    ⟨.drain ⟨[], 4⟩ (.release 7), .init, SerialDriver.start.chEvtRegisterMask, [], [], [], []⟩
  let as : List Act := script [(1, .rx 97), (4, .thread), (1, .rx 13), (3, .thread), (1, .rx 10),
    (1, .thread)]
  have hrun : (exec (Sys.step Main.callback) Receiving s as).any
      (fun t => decide (t.pc.recv = none)) = true := by decide +kernel
  obtain ⟨t, ht, hp⟩ := (Option.any_eq_true _ _).1 hrun
  have hshown : observe (Sys.step Main.callback) Sys.recvEvents s as =
      [.get 97, .write 0 97, .get 13, .get 10, .write 1 0, .ret .ok] := by decide +kernel
  rw [← hshown]
  exact ⟨t, receive_exact (by decide) rfl (steps_of_exec ht) (of_decide_eq_true hp)⟩

end RobotPws.Wifly
