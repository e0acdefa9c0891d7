import YggKernel.Fault
import YggKernel.Lib.BitWords

namespace YggKernel.Phys

open Lib.BitWords

def physWords : Nat := 262144 / 8

structure PhysAlloc where
  bitmap : Words
  allocLast : Nat
  pageCount : Nat

/-- The two passes of the page search: up from the hint, then up from zero. -/
def searchPage (p : PhysAlloc) : Option (Nat × Nat) :=
  let first := p.allocLast >>> 17
  match scan p.bitmap (List.range' first (physWords - first)) with
  | some hit => some hit
  | none => scan p.bitmap (List.range first)

def x86MmAllocPhysicalPage (p : PhysAlloc) : Nat × PhysAlloc :=
  match searchPage p with
  | some (i, j) =>
    let page := (i <<< 17) ||| (j <<< 12)
    (page, { p with bitmap := setBit p.bitmap i j, allocLast := u32 (page + 0x1000) })
  | none => (mmNaddr, p)

def x86MmAllocPhysicalPageHuge (p : PhysAlloc) : Nat × PhysAlloc :=
  match (List.range (physWords / 32)).find? fun k =>
      (List.range 32).all fun j => p.bitmap (32 * k + j) == 0#32 with
  | some k =>
    let page := (32 * k) <<< 17
    (page, { p with allocLast := u32 (page + 0x400000) })
  | none => (mmNaddr, p)

def mmAllocPhysicalPage (p : PhysAlloc) (flags : Nat) : Nat × PhysAlloc :=
  if flags &&& mmFlgPs ≠ 0 then x86MmAllocPhysicalPageHuge p else x86MmAllocPhysicalPage p

def mmFreePhysicalPage (p : PhysAlloc) (page flags : Nat) : Except Fault PhysAlloc :=
  let i := page >>> 17
  let j := (page >>> 12) &&& 0x1F
  if flags &&& mmFlgPs ≠ 0 then
    if p.bitmap i = full then
      .ok { p with pageCount := u32 (p.pageCount + 32), bitmap := Function.update p.bitmap i 0#32 }
    else .error (assertionFailed "x86_physical_page_bitmap[page >> 17] == 0xFFFFFFFF")
  else
    if p.bitmap i &&& mask j ≠ 0#32 then
      .ok { p with pageCount := u32 (p.pageCount + 1), bitmap := clearBit p.bitmap i j }
    else .error (assertionFailed
      "(x86_physical_page_bitmap[page >> 17] & ((uint32_t) 1 << ((page >> 12) & 0x1F)))")

/-- The place of a page in the order in which the search visits pages, when the
first pass starts at word `first`. -/
def searchKey (first n : Nat) : Nat := if n / 32 < first then n + 1048576 else n

theorem page_address (i : Nat) {j : Nat} (hj : j < 32) :
    (i <<< 17) ||| (j <<< 12) = 4096 * (32 * i + j) := by
  have hlt : j <<< 12 < 2 ^ 17 := by
    rw [Nat.shiftLeft_eq]
    omega
  rw [← Nat.shiftLeft_add_eq_or_of_lt hlt, Nat.shiftLeft_eq, Nat.shiftLeft_eq]
  omega

theorem wordKey_sorted (first : Nat) (hfirst : first ≤ physWords) :
    (List.range' first (physWords - first) ++ List.range first).Pairwise
      fun a b => searchKey first (32 * a) < searchKey first (32 * b) := by
  unfold searchKey physWords at *
  rw [List.pairwise_append]
  refine ⟨?_, ?_, ?_⟩
  · refine List.Pairwise.imp_of_mem ?_ (List.pairwise_lt_range' (s := first))
    intro a b ha hb hab
    simp only [List.mem_range'_1] at ha hb
    grind
  · refine List.Pairwise.imp_of_mem ?_ List.pairwise_lt_range
    intro a b ha hb hab
    simp only [List.mem_range] at ha hb
    grind
  · intro a ha b hb
    simp only [List.mem_range'_1, List.mem_range] at ha hb
    grind

theorem scan_append (w : Words) (is js : List Nat) :
    scan w (is ++ js) = match scan w is with | some hit => some hit | none => scan w js := by
  induction is with
  | nil => rfl
  | cons i is ih =>
    simp only [List.cons_append, scan]
    by_cases hi : w i = full
    · simp only [hi, if_true, ih]
    · obtain ⟨j, hj⟩ := firstClear_of_ne_full hi
      simp only [hi, if_false, hj]

theorem searchPage_eq (p : PhysAlloc) :
    searchPage p = scan p.bitmap (List.range' (p.allocLast >>> 17)
      (physWords - p.allocLast >>> 17) ++ List.range (p.allocLast >>> 17)) := by
  rw [scan_append]
  rfl

theorem hint_le {p : PhysAlloc} (hp : p.allocLast < 4294967296) :
    p.allocLast >>> 17 ≤ physWords := by
  rw [Nat.shiftRight_eq_div_pow]
  unfold physWords
  omega

theorem searchPage_some {p : PhysAlloc} (hp : p.allocLast < 4294967296) {i j : Nat}
    (h : searchPage p = some (i, j)) :
    i < physWords ∧ j < 32 ∧ bit p.bitmap (32 * i + j) = false ∧
      ∀ n < 1048576, bit p.bitmap n = false →
        searchKey (p.allocLast >>> 17) (32 * i + j) ≤ searchKey (p.allocLast >>> 17) n := by
  have hfirst := hint_le hp
  rw [searchPage_eq] at h
  obtain ⟨pre, post, hsplit, hpre, hj⟩ := scan_some h
  have hsorted := wordKey_sorted _ hfirst
  have hmem : ∀ k, k ∈ pre ++ i :: post ↔ k < physWords := by
    intro k
    rw [← hsplit, List.mem_append, List.mem_range'_1, List.mem_range]
    omega
  rw [hsplit, List.pairwise_append, List.pairwise_cons] at hsorted
  obtain ⟨hj32, hclear, hlow⟩ := firstClear_some hj
  refine ⟨(hmem i).mp (by simp), hj32, by rwa [bit_word _ _ hj32], fun n hn hbit => ?_⟩
  have hword : p.bitmap (n / 32) ≠ full := by
    intro hfull
    have := getLsbD_full (Nat.mod_lt n (by decide : 0 < 32))
    rw [← hfull] at this
    simp [bit, this] at hbit
  have hin : n / 32 ∈ pre ++ i :: post := (hmem _).mpr (by unfold physWords; omega)
  rcases List.mem_append.mp hin with hin | hin
  · exact absurd (hpre _ hin) hword
  · rcases List.mem_cons.mp hin with heq | hin
    · have hle : j ≤ n % 32 := by
        by_contra hlt
        have := hlow (n % 32) (by omega)
        rw [← heq] at this
        simp [bit, this] at hbit
      unfold searchKey
      split <;> split <;> omega
    · have hlt := hsorted.2.1.1 _ hin
      unfold searchKey at hlt ⊢
      grind

theorem searchPage_none {p : PhysAlloc} (hp : p.allocLast < 4294967296)
    (h : searchPage p = none) {n : Nat} (hn : n < 1048576) : bit p.bitmap n = true := by
  rw [searchPage_eq] at h
  have hfirst := hint_le hp
  unfold physWords at h hfirst
  have hfull := scan_none h (n / 32) (by
    rw [List.mem_append, List.mem_range'_1, List.mem_range]
    omega)
  unfold bit
  rw [hfull]
  exact getLsbD_full (Nat.mod_lt n (by decide))

structure TookPage (p : PhysAlloc) (n : Nat) (q : PhysAlloc) : Prop where
  lt : n < 1048576
  clear : bit p.bitmap n = false
  first : ∀ m < 1048576, bit p.bitmap m = false →
    searchKey (p.allocLast >>> 17) n ≤ searchKey (p.allocLast >>> 17) m
  bitmap : q.bitmap = setBit p.bitmap (n / 32) (n % 32)
  hint : q.allocLast = u32 (4096 * n + 4096)
  count : q.pageCount = p.pageCount

theorem TookPage.bit_eq {p q : PhysAlloc} {n : Nat} (h : TookPage p n q) (m : Nat) :
    bit q.bitmap m = (bit p.bitmap m || decide (m = n)) := by
  rw [h.bitmap, bit_setBit _ _ (Nat.mod_lt n (by decide)), Nat.div_add_mod]

theorem TookPage.hint_lt {p q : PhysAlloc} {n : Nat} (h : TookPage p n q) :
    q.allocLast < 4294967296 := by
  rw [h.hint]
  exact u32_lt _

theorem allocPage_cases {p : PhysAlloc} (hp : p.allocLast < 4294967296) :
    (∃ n q, TookPage p n q ∧ x86MmAllocPhysicalPage p = (4096 * n, q)) ∨
    ((∀ n < 1048576, bit p.bitmap n = true) ∧ x86MmAllocPhysicalPage p = (mmNaddr, p)) := by
  unfold x86MmAllocPhysicalPage
  cases h : searchPage p with
  | none => exact .inr ⟨fun n hn => searchPage_none hp h hn, rfl⟩
  | some hit =>
    obtain ⟨i, j⟩ := hit
    obtain ⟨hi, hj, hbit, hmin⟩ := searchPage_some hp h
    unfold physWords at hi
    have hdiv : (32 * i + j) / 32 = i := by omega
    have hmod : (32 * i + j) % 32 = j := by omega
    simp only [page_address i hj]
    refine .inl ⟨32 * i + j, _, ?_, rfl⟩
    refine ⟨by omega, hbit, hmin, ?_, rfl, rfl⟩
    rw [hdiv, hmod]

def GroupClear (w : Words) (g : Nat) : Prop := ∀ n, n / 1024 = g → bit w n = false

theorem groupClear_iff (w : Words) (g : Nat) :
    ((List.range 32).all fun j => w (32 * g + j) == 0#32) = true ↔ GroupClear w g := by
  simp only [List.all_eq_true, List.mem_range, beq_iff_eq, GroupClear]
  constructor
  · intro h n hn
    have hw := h (n / 32 % 32) (by omega)
    rw [show 32 * g + n / 32 % 32 = n / 32 by omega] at hw
    simp [bit, hw]
  · intro h j hj
    apply BitVec.eq_of_getLsbD_eq
    intro k hk
    have hb := h (32 * (32 * g + j) + k) (by omega)
    rw [bit_word _ _ hk] at hb
    simpa using hb

/-- The state of the allocator after it handed out huge frame `g`: the bitmap is
as it was. -/
structure TookHuge (p : PhysAlloc) (g : Nat) (q : PhysAlloc) : Prop where
  lt : g < 1024
  clear : GroupClear p.bitmap g
  first : ∀ k < g, ¬GroupClear p.bitmap k
  bitmap : q.bitmap = p.bitmap
  hint : q.allocLast = u32 (4194304 * g + 4194304)
  count : q.pageCount = p.pageCount

theorem TookHuge.hint_lt {p q : PhysAlloc} {g : Nat} (h : TookHuge p g q) :
    q.allocLast < 4294967296 := by
  rw [h.hint]
  exact u32_lt _

theorem allocHuge_cases (p : PhysAlloc) :
    (∃ g q, TookHuge p g q ∧ x86MmAllocPhysicalPageHuge p = (4194304 * g, q)) ∨
    ((∀ g < 1024, ¬GroupClear p.bitmap g) ∧ x86MmAllocPhysicalPageHuge p = (mmNaddr, p)) := by
  unfold x86MmAllocPhysicalPageHuge
  cases h : (List.range (physWords / 32)).find? fun k =>
      (List.range 32).all fun j => p.bitmap (32 * k + j) == 0#32 with
  | none =>
    refine .inr ⟨fun g hg hclear => ?_, rfl⟩
    have hne := List.find?_eq_none.mp h g (by rw [List.mem_range]; unfold physWords; omega)
    exact hne ((groupClear_iff _ _).mpr hclear)
  | some g =>
    rw [List.find?_range_eq_some] at h
    obtain ⟨hg, hmem, hlt⟩ := h
    have haddr : (32 * g) <<< 17 = 4194304 * g := by
      rw [Nat.shiftLeft_eq]
      omega
    simp only [haddr]
    refine .inl ⟨g, _, ?_, rfl⟩
    refine ⟨by simpa [physWords] using hmem, (groupClear_iff _ _).mp hg,
      fun k hk hclear => ?_, rfl, rfl, rfl⟩
    have hne := hlt k hk
    rw [(groupClear_iff _ _).mpr hclear] at hne
    simp at hne

theorem freePage_ok {p q : PhysAlloc} {n flags : Nat} (hflags : flags &&& mmFlgPs = 0)
    (h : mmFreePhysicalPage p (4096 * n) flags = .ok q) :
    bit p.bitmap n = true ∧ (∀ m, bit q.bitmap m = (bit p.bitmap m && decide (m ≠ n))) ∧
      q.allocLast = p.allocLast := by
  have hlt : n % 32 < 32 := Nat.mod_lt n (by decide)
  have hi : (4096 * n) >>> 17 = n / 32 := by
    rw [Nat.shiftRight_eq_div_pow]
    omega
  have hj : ((4096 * n) >>> 12) &&& 0x1F = n % 32 := by
    rw [show 0x1F = 2 ^ 5 - 1 by rfl, Nat.and_two_pow_sub_one_eq_mod, Nat.shiftRight_eq_div_pow]
    omega
  simp only [mmFreePhysicalPage, hflags, ne_eq, not_true_eq_false, if_false, hi, hj] at h
  by_cases hb : p.bitmap (n / 32) &&& mask (n % 32) = 0#32
  · simp [hb] at h
  · simp only [hb, not_false_eq_true, if_true, Except.ok.injEq] at h
    subst h
    refine ⟨?_, fun m => ?_, rfl⟩
    · rw [and_mask_eq_zero _ hlt] at hb
      simpa [bit] using hb
    · rw [bit_clearBit _ _ hlt, Nat.div_add_mod]

theorem freeHuge_ok {p q : PhysAlloc} {g flags : Nat} (hflags : flags &&& mmFlgPs ≠ 0)
    (h : mmFreePhysicalPage p (4194304 * g) flags = .ok q) :
    (∀ m, bit q.bitmap m = (bit p.bitmap m && decide (m / 32 ≠ 32 * g))) ∧
      q.allocLast = p.allocLast := by
  have hi : (4194304 * g) >>> 17 = 32 * g := by
    rw [Nat.shiftRight_eq_div_pow]
    omega
  simp only [mmFreePhysicalPage, if_pos hflags, hi] at h
  by_cases hfull : p.bitmap (32 * g) = full
  · simp only [hfull, if_true, Except.ok.injEq] at h
    subst h
    refine ⟨fun m => ?_, rfl⟩
    rw [bit_update]
    by_cases hm : m / 32 = 32 * g <;> simp [hm]
  · simp [hfull] at h

end YggKernel.Phys
