import Mathlib.Data.Multiset.AddSub
import Mathlib.Data.Multiset.UnionInter
import RobotPws.Lib.LinkedList

/-!
# Memory pools

`chmempools.c`: the free blocks form a linked list through their own first words. Who
holds a block writes into it as he likes, over that word too; `Uses` is what the holder of
some blocks may do to the pool, and `Uses.conserves` that the blocks free and held are the
same after it.
-/

namespace RobotPws.Kernel

open RobotPws.Lib

/-- A `MemoryPool` and the memory of its blocks; a pointer is `none` if it is `NULL`. -/
structure MemoryPool where
  mp_next : Option Nat
  mp_object_size : Nat
  mp_provider : Option (Nat → Option Nat)
  /-- The `pool_header` read at an address. -/
  ph_next : Nat → Option Nat

namespace MemoryPool

def chPoolInit (size : Nat) (provider : Option (Nat → Option Nat)) (mem : Nat → Option Nat) :
    MemoryPool := ⟨none, size, provider, mem⟩

/-- `chPoolAllocI`, with its result. -/
def chPoolAllocI (mp : MemoryPool) : Option Nat × MemoryPool :=
  match mp.mp_next with
  | some objp => (some objp, { mp with mp_next := mp.ph_next objp })
  | none => (mp.mp_provider.bind fun provider => provider mp.mp_object_size, mp)

def chPoolFreeI (mp : MemoryPool) (objp : Nat) : MemoryPool :=
  { mp with ph_next := Function.update mp.ph_next objp mp.mp_next, mp_next := some objp }

theorem chPoolAllocI_of_mp_next {mp : MemoryPool} {objp : Nat} (h : mp.mp_next = some objp) :
    mp.chPoolAllocI = (some objp, { mp with mp_next := mp.ph_next objp }) := by
  rw [chPoolAllocI, h]

/-- `chPoolLoadArray(mp, p, n)`. -/
def chPoolLoadArray (mp : MemoryPool) (p : Nat) : Nat → MemoryPool
  | 0 => mp
  | n + 1 => (mp.chPoolFreeI p).chPoolLoadArray (p + mp.mp_object_size) n

/-- Something is stored over the first word of a block. -/
def store (mp : MemoryPool) (objp : Nat) (v : Option Nat) : MemoryPool :=
  { mp with ph_next := Function.update mp.ph_next objp v }

/-- The objects of an array. -/
def objects (size p n : Nat) : List Nat := (List.range n).map fun k => p + size * k

/-- `l` is the list of the free blocks. -/
def Free (mp : MemoryPool) (l : List Nat) : Prop := Linked mp.ph_next mp.mp_next l

theorem objects_succ (size p n : Nat) :
    objects size p (n + 1) = p :: objects size (p + size) n := by
  rw [objects, List.range_succ_eq_map, List.map_cons, List.map_map, objects]
  refine congrArg₂ _ rfl (List.map_congr_left fun k _ => ?_)
  show p + size * (k + 1) = p + size + size * k
  rw [Nat.mul_succ]
  omega

theorem objects_nodup {size : Nat} (hs : 0 < size) (p n : Nat) : (objects size p n).Nodup := by
  refine List.nodup_range.map fun a b hab => ?_
  exact Nat.eq_of_mul_eq_mul_left hs (Nat.add_left_cancel hab)

variable {mp mp' : MemoryPool} {l : List Nat}

theorem free_chPoolInit (size : Nat) (provider : Option (Nat → Option Nat))
    (mem : Nat → Option Nat) : (chPoolInit size provider mem).Free [] := rfl

theorem Free.chPoolFreeI (h : mp.Free l) {objp : Nat} (ho : objp ∉ l) :
    (mp.chPoolFreeI objp).Free (objp :: l) := Linked.push h ho

theorem Free.chPoolLoadArray {p n : Nat} (h : mp.Free l)
    (hn : (objects mp.mp_object_size p n ++ l).Nodup) :
    (mp.chPoolLoadArray p n).Free ((objects mp.mp_object_size p n).reverse ++ l) := by
  induction n generalizing mp p l with
  | zero => exact h
  | succ n ih =>
    rw [objects_succ] at hn ⊢
    rw [List.cons_append, List.nodup_cons, List.mem_append, not_or] at hn
    have hrest : (objects mp.mp_object_size (p + mp.mp_object_size) n ++ p :: l).Nodup :=
      (List.perm_middle.nodup_iff).2 (List.nodup_cons.2 ⟨by
        rw [List.mem_append]
        exact fun hm => hm.elim hn.1.1 hn.1.2, hn.2⟩)
    rw [List.reverse_cons, List.append_assoc]
    have hfree : (mp.chPoolFreeI p).Free (p :: l) := h.chPoolFreeI hn.1.2
    exact ih hfree hrest

/-- Only these blocks are written. -/
structure Writes (held : Multiset Nat) (mp mp' : MemoryPool) : Prop where
  ph_next : ∀ b, b ∉ held → mp'.ph_next b = mp.ph_next b
  mp_next : mp'.mp_next = mp.mp_next

theorem Writes.refl (held : Multiset Nat) (mp : MemoryPool) : Writes held mp mp :=
  ⟨fun _ _ => rfl, rfl⟩

theorem Writes.trans {held : Multiset Nat} {mp'' : MemoryPool} (h : Writes held mp mp')
    (h' : Writes held mp' mp'') : Writes held mp mp'' :=
  ⟨fun b hb => (h'.ph_next b hb).trans (h.ph_next b hb), h'.mp_next.trans h.mp_next⟩

theorem writes_store {held : Multiset Nat} {objp : Nat} (ho : objp ∈ held) (mp : MemoryPool)
    (v : Option Nat) : Writes held mp (mp.store objp v) := by
  refine ⟨fun b hb => Function.update_of_ne ?_ _ _, rfl⟩
  rintro rfl
  exact hb ho

/-- What the holder of the blocks `held` can do to the pool; the last argument is what he
holds after it. -/
inductive Uses (held : Multiset Nat) (mp mp' : MemoryPool) : Multiset Nat → Prop where
  | write : Writes held mp mp' → Uses held mp mp' held
  | alloc (a : Nat) : mp.mp_next = some a → mp'.mp_next = mp.ph_next a →
      (∀ b, b ∉ a ::ₘ held → mp'.ph_next b = mp.ph_next b) → Uses held mp mp' (a ::ₘ held)
  | free (a : Nat) (held' : Multiset Nat) : held = a ::ₘ held' → mp'.mp_next = some a →
      mp'.ph_next a = mp.mp_next → (∀ b, b ∉ held → mp'.ph_next b = mp.ph_next b) →
      Uses held mp mp' held'

theorem Uses.frame {held held' : Multiset Nat} (h : Uses held mp mp' held') (more : Multiset Nat) :
    Uses (held + more) mp mp' (held' + more) := by
  cases h with
  | write hw =>
    exact .write ⟨fun b hb => hw.ph_next b fun hm => hb (Multiset.mem_add.2 (.inl hm)), hw.mp_next⟩
  | alloc a ha hn hw =>
    rw [Multiset.cons_add]
    refine .alloc a ha hn fun b hb => hw b fun hm => hb ?_
    rw [← Multiset.cons_add]
    exact Multiset.mem_add.2 (.inl hm)
  | free a held' he hn ha hw =>
    refine .free a _ ?_ hn ha fun b hb => hw b fun hm => hb (Multiset.mem_add.2 (.inl hm))
    rw [he, Multiset.cons_add]

/-- **The blocks are conserved.** -/
theorem Uses.conserves {held held' : Multiset Nat} (h : Uses held mp mp' held') (hf : mp.Free l)
    (hn : ((l : Multiset Nat) + held).Nodup) :
    ∃ l' : List Nat, mp'.Free l' ∧ (l' : Multiset Nat) + held' = l + held := by
  have hd : ∀ b ∈ l, b ∉ held := fun b hb =>
    Multiset.disjoint_left.1 (Multiset.nodup_add.1 hn).2.2 hb
  cases h with
  | write hw =>
    refine ⟨l, ?_, rfl⟩
    rw [Free, hw.mp_next]
    exact Linked.congr hf fun b hb => hw.ph_next b (hd b hb)
  | alloc a ha hnext hw =>
    rw [Free, ha] at hf
    obtain ⟨l', rfl, ht⟩ := hf.pop
    refine ⟨l', ?_, ?_⟩
    · rw [Free, hnext]
      refine ht.congr fun b hb => hw b ?_
      rw [Multiset.mem_cons, not_or]
      refine ⟨?_, hd b (List.mem_cons_of_mem _ hb)⟩
      rintro rfl
      have hl := (Multiset.nodup_add.1 hn).1
      exact (List.nodup_cons.1 (Multiset.coe_nodup.1 hl)).1 hb
    · rw [Multiset.add_cons, ← Multiset.cons_coe, Multiset.cons_add]
  | free a held' he hnext ha hw =>
    have hal : a ∉ l := fun hm => hd a hm (he ▸ Multiset.mem_cons_self _ _)
    refine ⟨a :: l, ?_, ?_⟩
    · rw [Free, hnext]
      refine ⟨rfl, ?_⟩
      rw [ha]
      exact Linked.congr hf fun b hb => hw b (hd b hb)
    · rw [← Multiset.cons_coe, Multiset.cons_add, he, Multiset.add_cons]

end MemoryPool

end RobotPws.Kernel
