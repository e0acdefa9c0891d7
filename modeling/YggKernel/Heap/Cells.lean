import YggKernel.Heap.Allocator
import YggKernel.Lib.Chains

namespace YggKernel.Heap

open Lib.Program Lib.ByteMemory Lib.Chains

@[simp] theorem wp_field {E : Fault → Prop} {Q : Nat → HeapMem → Prop} {h : HeapMem} (off b : Nat) :
    wp (field off b) E Q h ↔ Q (load32 h.mem (b + off)) h := by
  simp [field]

@[simp] theorem wp_setField {E : Fault → Prop} {Q : Unit → HeapMem → Prop} {h : HeapMem}
    (off b v : Nat) :
    wp (setField off b v) E Q h ↔ Q () { h with mem := store32 h.mem (b + off) v } := by
  simp [setField]

/-- What a header says about its block, its links apart. The flags may be any. -/
structure Cell where
  addr : Nat
  size : Nat
  flags : Nat

def Cell.fin (c : Cell) : Nat := c.addr + heapBlockSize + c.size

def Cell.Free (c : Cell) : Prop := c.flags &&& heapFlgUsed = 0

def Cell.Magic (c : Cell) : Prop := c.flags &&& heapMagic = heapMagic

instance (c : Cell) : Decidable c.Free := inferInstanceAs (Decidable (_ = _))

instance (c : Cell) : Decidable c.Magic := inferInstanceAs (Decidable (_ = _))

structure HeadAt (m : Mem) (c : Cell) (next : Nat) : Prop where
  flags : load32 m (c.addr + offFlags) = c.flags
  size : load32 m (c.addr + offSize) = c.size
  next : load32 m (c.addr + offNext) = next

def prevAt (m : Mem) (a : Nat) : Nat := load32 m (a + offPrev)

theorem Cell.le_fin (c : Cell) : c.addr ≤ c.fin := by
  unfold Cell.fin
  omega

theorem HeadAt.flags_lt {m : Mem} {c : Cell} {n : Nat} (h : HeadAt m c n) : c.flags < 4294967296 :=
  h.flags ▸ load32_lt _ _

theorem HeadAt.size_lt {m : Mem} {c : Cell} {n : Nat} (h : HeadAt m c n) : c.size < 4294967296 :=
  h.size ▸ load32_lt _ _

theorem HeadAt.next_lt {m : Mem} {c : Cell} {n : Nat} (h : HeadAt m c n) : n < 4294967296 :=
  h.next ▸ load32_lt _ _

theorem HeadAt.congr {m m' : Mem} {c : Cell} {n : Nat} (h : HeadAt m c n)
    (hsame : ∀ x, c.addr ≤ x → x < c.addr + 16 → (x < c.addr + 8 ∨ c.addr + 12 ≤ x) → m' x = m x) : HeadAt m' c n := by
  have hload : ∀ off, off + 4 ≤ 8 ∨ off = 12 → load32 m' (c.addr + off) = load32 m (c.addr + off) :=
    fun off hoff => load32_congr fun x h1 h2 => hsame x (by omega) (by omega) (by omega)
  refine ⟨?_, ?_, ?_⟩
  · rw [hload _ (by decide)]
    exact h.flags
  · rw [hload _ (by decide)]
    exact h.size
  · rw [hload _ (by decide)]
    exact h.next

theorem HeadAt.eq_of_addr {m : Mem} {c d : Cell} {n k : Nat} (hc : HeadAt m c n) (hd : HeadAt m d k)
    (haddr : c.addr = d.addr) : c = d ∧ n = k := by
  obtain ⟨a, size, flags⟩ := c
  obtain ⟨b, size', flags'⟩ := d
  obtain rfl : a = b := haddr
  obtain rfl : flags = flags' := hc.flags.symm.trans hd.flags
  obtain rfl : size = size' := hc.size.symm.trans hd.size
  exact ⟨rfl, hc.next.symm.trans hd.next⟩

def Cell.join (b c : Cell) : Cell := ⟨b.addr, b.size + (c.size + heapBlockSize), b.flags⟩

@[simp] theorem Cell.join_addr (b c : Cell) : (b.join c).addr = b.addr := rfl

@[simp] theorem Cell.join_size (b c : Cell) : (b.join c).size = b.size + (c.size + 16) := rfl

@[simp] theorem Cell.join_flags (b c : Cell) : (b.join c).flags = b.flags := rfl

structure Merged (m m' : Mem) (b c : Cell) (nx : Nat) : Prop where
  header : HeadAt m' (b.join c) nx
  prev : nx ≠ 0 → prevAt m' nx = b.addr
  rest : ∀ x, x < b.addr + 4 ∨ b.addr + 8 ≤ x → x < b.addr + 12 ∨ b.addr + 16 ≤ x →
    x < c.addr ∨ c.addr + 4 ≤ x → (nx ≠ 0 → x < nx + 8 ∨ nx + 12 ≤ x) → m' x = m x

structure Mergeable (m : Mem) (b c : Cell) (nx : Nat) : Prop where
  left : HeadAt m b c.addr
  right : HeadAt m c nx
  free : c.Free
  apart : b.addr + 16 ≤ c.addr
  beyond : nx ≠ 0 → c.addr + 16 ≤ nx
  small : b.size + (c.size + 16) < 4294967296

section Joining

variable {E : Fault → Prop} {h : HeapMem} {b c : Cell} {nx : Nat}

theorem wp_joinNext_cells (hm : Mergeable h.mem b c nx) :
    wp (joinNext b.addr) E (fun _ t => t.regions = h.regions ∧ Merged h.mem t.mem b c nx) h := by
  have hnx := hm.right.next_lt
  have hc := hm.left.next_lt
  obtain ⟨⟨hbf, hbs, hbn⟩, ⟨hcf, hcs, hcn⟩, hcu, hapart, hbeyond, hsmall⟩ := hm
  have hc0 : c.addr ≠ 0 := by omega
  unfold Cell.Free at hcu
  simp only [offFlags, offSize, offNext, Nat.add_zero] at hbf hbs hbn hcf hcs hcn
  by_cases h0 : nx = 0
  · simp (disch := omega) only [joinNext, offFlags, offSize, offNext, heapBlockSize, Nat.add_zero,
      wp_bind, wp_field, wp_setField, hbs, hbn, hcf, hcs, hcn, hcu, h0, hc0, if_true, if_false,
      ne_eq, not_false_eq_true, not_true_eq_false, u32_of_lt, load32_store32_of_disjoint, true_and]
    refine ⟨⟨?_, ?_, ?_⟩, fun hne => absurd rfl hne, fun x h1 h2 h3 _ => ?_⟩ <;>
      simp (disch := omega) only [Cell.join_addr, Cell.join_size, Cell.join_flags, offFlags, offSize, offNext,
        Nat.add_zero, load32_store32, load32_store32_of_disjoint, store32_apply_of_outside, hbf]
  · have hbeyond := hbeyond h0
    simp (disch := omega) only [joinNext, offFlags, offSize, offNext, offPrev, heapBlockSize,
      Nat.add_zero, wp_bind, wp_field, wp_setField, hbs, hbn, hcf, hcs, hcn, hcu, h0, hc0, if_true,
      ne_eq, not_false_eq_true, u32_of_lt, load32_store32_of_disjoint, true_and]
    refine ⟨⟨?_, ?_, ?_⟩, fun _ => ?_, fun x h1 h2 h3 h4 => ?_⟩
    on_goal 5 => have h4 := h4 h0
    all_goals
      simp (disch := omega) only [Cell.join_addr, Cell.join_size, Cell.join_flags, offFlags, offSize, offNext,
        offPrev, prevAt, Nat.add_zero, load32_store32, load32_store32_of_disjoint,
        store32_apply_of_outside, hbf]

theorem wp_joinPrev_cells {a : Nat} (hm : Mergeable h.mem b c nx) (hprev : prevAt h.mem a = b.addr)
    (h0 : b.addr ≠ 0) (hb : b.Free) :
    wp (joinPrev a) E (fun _ t => t.regions = h.regions ∧ Merged h.mem t.mem b c nx) h := by
  have hnx := hm.right.next_lt
  have hc := hm.left.next_lt
  obtain ⟨⟨hbf, hbs, hbn⟩, ⟨hcf, hcs, hcn⟩, hcu, hapart, hbeyond, hsmall⟩ := hm
  unfold Cell.Free at hb
  simp only [prevAt, offPrev, offFlags, offSize, offNext, Nat.add_zero] at hbf hbs hbn hcf hcs hcn hprev
  by_cases hnx0 : nx = 0
  · simp (disch := omega) only [joinPrev, offFlags, offSize, offNext, offPrev, heapBlockSize,
      Nat.add_zero, wp_bind, wp_pure, wp_field, wp_setField, hprev, hbf, hbs, hbn, hcf, hcs, hcn, hb,
      h0, hnx0, if_true, if_false, ne_eq, not_false_eq_true, not_true_eq_false, u32_of_lt,
      load32_store32, load32_store32_of_disjoint, true_and]
    refine ⟨⟨?_, ?_, ?_⟩, fun hne => absurd rfl hne, fun x h1 h2 h3 _ => ?_⟩ <;>
      simp (disch := omega) only [Cell.join_addr, Cell.join_size, Cell.join_flags, offFlags, offSize, offNext,
        Nat.add_zero, load32_store32, load32_store32_of_disjoint, store32_apply_of_outside, hbf]
  · have hbeyond := hbeyond hnx0
    simp (disch := omega) only [joinPrev, offFlags, offSize, offNext, offPrev, heapBlockSize,
      Nat.add_zero, wp_bind, wp_field, wp_setField, hprev, hbf, hbs, hbn, hcf, hcs, hcn, hb, h0,
      hnx0, if_true, ne_eq, not_false_eq_true, u32_of_lt, load32_store32, load32_store32_of_disjoint,
      true_and]
    refine ⟨⟨?_, ?_, ?_⟩, fun _ => ?_, fun x h1 h2 h3 h4 => ?_⟩
    on_goal 5 => have h4 := h4 hnx0
    all_goals
      simp (disch := omega) only [Cell.join_addr, Cell.join_size, Cell.join_flags, offFlags, offSize, offNext,
        offPrev, prevAt, Nat.add_zero, load32_store32, load32_store32_of_disjoint,
        store32_apply_of_outside, hbf]

end Joining

def writeHead (m : Mem) (c : Cell) (prev next : Nat) : Mem :=
  store32 (store32 (store32 (store32 m (c.addr + offFlags) c.flags) (c.addr + offSize) c.size) (c.addr + offPrev) prev)
    (c.addr + offNext) next

def usedCell : Cell := ⟨0x1000, 84, heapMagic ||| heapFlgUsed⟩

def freeCell : Cell := ⟨0x1064, 100, heapMagic⟩

def pairHeap : HeapMem := ⟨writeHead (writeHead (fun _ => 0) usedCell 0 0x1064) freeCell 0x1000 0, fun i => if i = 0 then 0x1000 else 0⟩

end YggKernel.Heap
