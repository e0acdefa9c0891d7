import Mathlib.Data.Finset.Card
import YggKernel.Phys.LiveFrames

namespace YggKernel.Phys

open Lib.BitWords Lib.Runs

def clearPages (w : Words) : Finset Nat := (Finset.range 1048576).filter fun n => bit w n = false

/-- A number of allocations in a row: what each of them returned, and the state after them. -/
def allocations : Nat → PhysAlloc → List Nat × PhysAlloc
  | 0, p => ([], p)
  | n + 1, p =>
    let r := mmAllocPhysicalPage p 0
    let rest := allocations n r.2
    (r.1 :: rest.1, rest.2)

section Searching

variable {p q : PhysAlloc} {n : Nat}

theorem alloc_small (p : PhysAlloc) : mmAllocPhysicalPage p 0 = x86MmAllocPhysicalPage p := rfl

theorem mem_clearPages {w : Words} : n ∈ clearPages w ↔ n < 1048576 ∧ bit w n = false := by
  rw [clearPages, Finset.mem_filter, Finset.mem_range]

theorem TookPage.clearPages_eq (h : TookPage p n q) : clearPages q.bitmap = (clearPages p.bitmap).erase n := by
  ext m
  rw [mem_clearPages, Finset.mem_erase, mem_clearPages, h.bit_eq, Bool.or_eq_false_iff, decide_eq_false_iff_not]
  tauto

theorem TookPage.card (h : TookPage p n q) : (clearPages q.bitmap).card + 1 = (clearPages p.bitmap).card := by
  rw [h.clearPages_eq]
  exact Finset.card_erase_add_one (mem_clearPages.mpr ⟨h.lt, h.clear⟩)

theorem clearPages_empty (h : ∀ n < 1048576, bit p.bitmap n = true) : (clearPages p.bitmap).card = 0 := by
  rw [Finset.card_eq_zero, Finset.eq_empty_iff_forall_notMem]
  intro n hn
  obtain ⟨hlt, hclear⟩ := mem_clearPages.mp hn
  rw [h n hlt] at hclear
  cases hclear

theorem page_ne_naddr : 4096 * n ≠ mmNaddr := by
  unfold mmNaddr
  omega

theorem allocations_fail_iff (hp : p.allocLast < 4294967296) (k : Nat) :
    ∀ i < k, (allocations k p).1.getD i 0 = mmNaddr ↔ (clearPages p.bitmap).card ≤ i := by
  induction k generalizing p with
  | zero => exact fun i hi => absurd hi (Nat.not_lt_zero i)
  | succ k ih =>
    intro i hi
    rw [allocations, alloc_small]
    rcases allocPage_cases hp with ⟨n, q, hq, hr⟩ | ⟨hfull, hr⟩
    · rw [hr]
      have hcard := hq.card
      cases i with
      | zero => exact iff_of_false page_ne_naddr (by omega)
      | succ i =>
        have hrest := ih hq.hint_lt i (by omega)
        rw [List.getD_cons_succ, hrest]
        omega
    · rw [hr]
      have hcard := clearPages_empty hfull
      cases i with
      | zero => exact iff_of_true rfl (by omega)
      | succ i =>
        have hrest := ih hp i (by omega)
        rw [List.getD_cons_succ, hrest]
        omega

/-- The page search finds a clear bit whenever there is one, wherever the hint is. -/
theorem page_search_complete (hp : p.allocLast < 4294967296) :
    ((mmAllocPhysicalPage p 0).1 = mmNaddr ↔ ∀ n < 1048576, bit p.bitmap n = true) ∧
      ((mmAllocPhysicalPage p 0).1 ≠ mmNaddr → ∃ n < 1048576, (mmAllocPhysicalPage p 0).1 = 4096 * n ∧
        bit p.bitmap n = false ∧ (∀ m, bit (mmAllocPhysicalPage p 0).2.bitmap m = (bit p.bitmap m || decide (m = n))) ∧
        (mmAllocPhysicalPage p 0).2.allocLast = u32 (4096 * n + 4096)) ∧
      ∀ k, ∀ i < k, (allocations k p).1.getD i 0 = mmNaddr ↔ (clearPages p.bitmap).card ≤ i := by
  refine ⟨?_, ?_, allocations_fail_iff hp⟩
  · rw [alloc_small]
    rcases allocPage_cases hp with ⟨n, q, hq, hr⟩ | ⟨hfull, hr⟩
    · rw [hr]
      refine iff_of_false page_ne_naddr fun hfull => ?_
      have hset := hfull n hq.lt
      rw [hq.clear] at hset
      cases hset
    · rw [hr]
      exact iff_of_true rfl hfull
  · rw [alloc_small]
    intro hne
    rcases allocPage_cases hp with ⟨n, q, hq, hr⟩ | ⟨hfull, hr⟩
    · rw [hr]
      exact ⟨n, hq.lt, rfl, hq.clear, hq.bit_eq, hq.hint⟩
    · rw [hr] at hne
      exact absurd rfl hne

theorem page_search_complete_last : (mmAllocPhysicalPage ⟨smallMachine, 0xFFFFF000, 0⟩ 0).1 = mmNaddr ↔
    ∀ n < 1048576, bit smallMachine n = true :=
  (page_search_complete (by decide : (PhysAlloc.mk smallMachine 0xFFFFF000 0).allocLast < 4294967296)).1

end Searching

inductive PageOp
  | alloc
  | free (n : Nat)

/-- One call for 4 KiB pages while huge frame `g` is in use, whose own pages nobody frees. The
addresses that were handed out are kept. -/
def pageStep (g : Nat) (s : PhysAlloc × List Nat) : PageOp → Option (PhysAlloc × List Nat)
  | .alloc =>
    let r := mmAllocPhysicalPage s.1 0
    some (r.2, r.1 :: s.2)
  | .free n =>
    if n / 1024 = g then none
    else
      match mmFreePhysicalPage s.1 (4096 * n) 0 with
      | .ok p => some (p, s.2)
      | .error _ => none

def PageRun (g : Nat) : PhysAlloc × List Nat → PhysAlloc × List Nat → Prop :=
  Run (fun s op t => pageStep g s op = some t) always

section Huge

variable {p : PhysAlloc} {s t : PhysAlloc × List Nat} {g : Nat}

/-- The pages of the huge frame that are marked are those that were handed out once more. -/
structure GroupMarked (g : Nat) (s : PhysAlloc × List Nat) : Prop where
  marked : ∀ n, n / 1024 = g → (bit s.1.bitmap n = true ↔ 4096 * n ∈ s.2)
  hint : s.1.allocLast < 4294967296

theorem groupMarked_alloc (h : GroupMarked g s) : GroupMarked g ((x86MmAllocPhysicalPage s.1).2,
    (x86MmAllocPhysicalPage s.1).1 :: s.2) := by
  rcases allocPage_cases h.hint with ⟨n, q, hq, hr⟩ | ⟨-, hr⟩
  · rw [hr]
    refine ⟨fun m hm => ?_, hq.hint_lt⟩
    have hsame : 4096 * m = 4096 * n ↔ m = n := by omega
    rw [hq.bit_eq, Bool.or_eq_true, decide_eq_true_eq, h.marked m hm, List.mem_cons, hsame, or_comm]
  · rw [hr]
    refine ⟨fun m hm => ?_, h.hint⟩
    rw [h.marked m hm, List.mem_cons, or_iff_right page_ne_naddr]

theorem groupMarked_step (s : PhysAlloc × List Nat) (op : PageOp) (t : PhysAlloc × List Nat) (h : GroupMarked g s)
    (hstep : pageStep g s op = some t) : GroupMarked g t := by
  cases op with
  | alloc =>
    obtain rfl := Option.some.inj hstep
    exact groupMarked_alloc h
  | free n =>
    rw [pageStep] at hstep
    by_cases hn : n / 1024 = g
    · rw [if_pos hn] at hstep
      cases hstep
    · rw [if_neg hn] at hstep
      cases hfree : mmFreePhysicalPage s.1 (4096 * n) 0 with
      | error e =>
        rw [hfree] at hstep
        cases hstep
      | ok q =>
        rw [hfree] at hstep
        obtain rfl := Option.some.inj hstep
        obtain ⟨-, hbits, hhint⟩ := freePage_ok (by decide) hfree
        refine ⟨fun m hm => ?_, hhint ▸ h.hint⟩
        have hne : m ≠ n := by
          rintro rfl
          exact hn hm
        rw [hbits, decide_eq_true hne, Bool.and_true]
        exact h.marked m hm

/-- The assertion on the first word of the huge frame says that its first 32 pages are marked. -/
theorem freeHuge_ok_iff : (∃ q, mmFreePhysicalPage p (4194304 * g) mmFlgPs = .ok q) ↔
    ∀ n, n / 32 = 32 * g → bit p.bitmap n = true := by
  have hi : (4194304 * g) >>> 17 = 32 * g := by
    rw [Nat.shiftRight_eq_div_pow]
    omega
  have hfull : p.bitmap (32 * g) = full ↔ ∀ n, n / 32 = 32 * g → bit p.bitmap n = true := by
    rw [eq_full_iff]
    constructor
    · intro h n hn
      rw [bit, hn]
      exact h _ (Nat.mod_lt n (by decide))
    · intro h j hj
      have hbit := h (32 * (32 * g) + j) (by omega)
      rwa [bit_word _ _ hj] at hbit
  rw [← hfull, mmFreePhysicalPage, if_pos (by decide : mmFlgPs &&& mmFlgPs ≠ 0), hi]
  by_cases h : p.bitmap (32 * g) = full
  · rw [if_pos h]
    exact iff_of_true ⟨_, rfl⟩ h
  · rw [if_neg h]
    refine iff_of_false ?_ h
    rintro ⟨_, hq⟩
    cases hq

/-- A huge frame is freed as it should be just when the calls in between handed out its first 32 pages, and
none of the others. -/
theorem huge_free_restores_iff (hfree : ∃ g < 1024, GroupClear p.bitmap g) :
    ∃ g < 1024, ∃ q, mmAllocPhysicalPage p mmFlgPs = (4194304 * g, q) ∧ GroupClear p.bitmap g ∧
      ∀ s, PageRun g (q, []) s → ((∃ t, mmFreePhysicalPage s.1 (4194304 * g) mmFlgPs = .ok t ∧
        ∀ n, bit t.bitmap n = (bit s.1.bitmap n && decide (n / 1024 ≠ g))) ↔
          ∀ n, n / 1024 = g → (4096 * n ∈ s.2 ↔ n / 32 = 32 * g)) := by
  rcases allocHuge_cases p with ⟨g, q, hq, hr⟩ | ⟨hnone, -⟩
  · refine ⟨g, hq.lt, q, (if_pos (by decide : mmFlgPs &&& mmFlgPs ≠ 0)).trans hr, hq.clear, fun s hrun => ?_⟩
    have hstart : GroupMarked g (q, []) := by
      refine ⟨fun n hn => ?_, hq.hint_lt⟩
      rw [hq.bitmap, hq.clear n hn]
      simp
    have hmarked := (hrun.invariant (GroupMarked g) (fun s op t h hstep _ => groupMarked_step s op t h hstep) hstart).marked
    constructor
    · rintro ⟨t, ht, hbits⟩ n hn
      rw [← hmarked n hn]
      refine ⟨fun hset => ?_, freeHuge_ok_iff.mp ⟨t, ht⟩ n⟩
      have hbit := (freeHuge_ok (by decide) ht).1 n
      rw [hbits n, hset, decide_eq_false (not_not_intro hn)] at hbit
      simpa using hbit.symm
    · intro h
      obtain ⟨t, ht⟩ := freeHuge_ok_iff.mpr fun n hn => (hmarked n (by omega)).mpr ((h n (by omega)).mpr hn)
      refine ⟨t, ht, fun n => ?_⟩
      rw [(freeHuge_ok (by decide) ht).1 n]
      by_cases hn : n / 1024 = g
      · cases hbit : bit s.1.bitmap n with
        | false => rfl
        | true =>
          have hword := (h n hn).mp ((hmarked n hn).mp hbit)
          simp [hn, hword]
      · simp [hn, show n / 32 ≠ 32 * g by omega]
  · obtain ⟨g, hg, hclear⟩ := hfree
    exact absurd hclear (hnone g hg)

theorem huge_free_restores_small_machine : ∃ g < 1024, ∃ q,
    mmAllocPhysicalPage ⟨smallMachine, 0, 0⟩ mmFlgPs = (4194304 * g, q) ∧ GroupClear smallMachine g ∧
      ∀ s, PageRun g (q, []) s → ((∃ t, mmFreePhysicalPage s.1 (4194304 * g) mmFlgPs = .ok t ∧
        ∀ n, bit t.bitmap n = (bit s.1.bitmap n && decide (n / 1024 ≠ g))) ↔
          ∀ n, n / 1024 = g → (4096 * n ∈ s.2 ↔ n / 32 = 32 * g)) :=
  huge_free_restores_iff ⟨5, by decide, (groupClear_iff smallMachine 5).mp (by decide +kernel)⟩

/-- A huge frame that is freed right away fails the assertion. -/
theorem huge_free_fails : (mmAllocPhysicalPage ⟨smallMachine, 0, 0⟩ mmFlgPs).1 = 0x1400000 ∧
    (mmFreePhysicalPage (mmAllocPhysicalPage ⟨smallMachine, 0, 0⟩ mmFlgPs).2 0x1400000 mmFlgPs).map PhysAlloc.allocLast =
      .error (assertionFailed "x86_physical_page_bitmap[page >> 17] == 0xFFFFFFFF") := by
  decide +kernel

end Huge

end YggKernel.Phys
