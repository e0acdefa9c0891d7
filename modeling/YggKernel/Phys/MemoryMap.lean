import YggKernel.Phys.Allocator

namespace YggKernel.Phys

open Lib.BitWords

/-- An entry of the memory map. Its own size only leads the loop to the next one. -/
structure MultibootMmapEntry where
  addr : Nat
  len : Nat
  type : Nat
  deriving DecidableEq

def multibootMemoryAvailable : Nat := 1

def x86MmAddPhysicalPage (p : PhysAlloc) (page : Nat) : PhysAlloc :=
  { p with
    pageCount := u32 (p.pageCount + 1)
    bitmap := clearBit p.bitmap (page >>> 17) ((page >>> 12) &&& 0x1F) }

def X86MmCanClaim (page : Nat) : Prop := page >>> 12 < 262144 ∧ page > 4 * 0x400000

instance (page : Nat) : Decidable (X86MmCanClaim page) := inferInstanceAs (Decidable (_ ∧ _))

/-- The inner loop of `x86_mm_phys_init`, over the pages of one region. -/
def addRegion (p : PhysAlloc) (base : Nat) : Nat → PhysAlloc
  | 0 => p
  | i + 1 =>
    let q := addRegion p base i
    let page := u32 ((i <<< 12) + base)
    if X86MmCanClaim page then x86MmAddPhysicalPage q page else q

/-- The length that the outer loop goes on with, or nothing where it skips the entry. -/
def clampLength (e : MultibootMmapEntry) : Option Nat :=
  let itEnd := (e.addr + e.len) % 2 ^ 64
  if itEnd > 0xFFFFFFFF then
    if 0xFFFFFFFF > e.addr then none else some ((0xFFFFFFFF + 2 ^ 64 - e.addr) % 2 ^ 64)
  else some e.len

/-- One round of the outer loop. -/
def addEntry (p : PhysAlloc) (e : MultibootMmapEntry) : Except Fault PhysAlloc :=
  if e.type < 5 then
    match clampLength e with
    | none => .ok p
    | some len =>
      if e.type = multibootMemoryAvailable then
        .ok (addRegion p (u32 (e.addr / 0x1000 * 0x1000)) (u32 len / 0x1000))
      else .ok p
  else .error (assertionFailed "it->type < 5")

def addEntries (p : PhysAlloc) : List MultibootMmapEntry → Except Fault PhysAlloc
  | [] => .ok p
  | e :: rest =>
    match addEntry p e with
    | .ok q => addEntries q rest
    | .error err => .error err

def x86MmPhysInit (p : PhysAlloc) (mmap : List MultibootMmapEntry) : Except Fault PhysAlloc :=
  addEntries { p with bitmap := fun w => if w < physWords then full else p.bitmap w } mmap

section Regions

variable {p q : PhysAlloc} {e : MultibootMmapEntry} {n : Nat}

/-- Page `n` is one that the kernel may use. -/
def Claimable (n : Nat) : Prop := 4096 < n ∧ n < 262144

instance (n : Nat) : Decidable (Claimable n) := inferInstanceAs (Decidable (_ ∧ _))

theorem canClaim_iff : X86MmCanClaim (4096 * n) ↔ Claimable n := by
  unfold X86MmCanClaim Claimable
  rw [Nat.shiftRight_eq_div_pow]
  omega

theorem bit_addPage (p : PhysAlloc) (n m : Nat) :
    bit (x86MmAddPhysicalPage p (4096 * n)).bitmap m = false ↔ bit p.bitmap m = false ∨ m = n := by
  have hword : (4096 * n) >>> 17 = n / 32 := by
    rw [Nat.shiftRight_eq_div_pow]
    omega
  have hbit : ((4096 * n) >>> 12) &&& 0x1F = n % 32 := by
    rw [Nat.shiftRight_eq_div_pow, Nat.and_two_pow_sub_one_eq_mod _ 5]
    omega
  unfold x86MmAddPhysicalPage
  dsimp only
  rw [hword, hbit, bit_clearBit _ _ (Nat.mod_lt _ (by decide)), Nat.div_add_mod, Bool.and_eq_false_iff,
    decide_eq_false_iff_not, not_not]

/-- A region that does not wrap around makes the pages free that may be used. -/
theorem bit_addRegion {f k : Nat} (p : PhysAlloc) (hwrap : f + k ≤ 1048576) :
    bit (addRegion p (4096 * f) k).bitmap n = false ↔
      bit p.bitmap n = false ∨ (Claimable n ∧ f ≤ n ∧ n < f + k) := by
  induction k with
  | zero =>
    rw [addRegion]
    exact ⟨.inl, fun h => h.resolve_right (by omega)⟩
  | succ i ih =>
    have hpage : u32 ((i <<< 12) + 4096 * f) = 4096 * (f + i) := by
      rw [Nat.shiftLeft_eq, u32_of_lt (by omega)]
      omega
    have hlast : n < f + (i + 1) ↔ n < f + i ∨ n = f + i := by omega
    rw [addRegion, hpage]
    by_cases hclaim : X86MmCanClaim (4096 * (f + i))
    · rw [if_pos hclaim, bit_addPage, ih (by omega), or_assoc, hlast]
      rw [canClaim_iff] at hclaim
      constructor
      · rintro (h | ⟨h1, h2, h3⟩ | rfl)
        · exact .inl h
        · exact .inr ⟨h1, h2, .inl h3⟩
        · exact .inr ⟨hclaim, by omega, .inr rfl⟩
      · rintro (h | ⟨h1, h2, h3 | h3⟩)
        · exact .inl h
        · exact .inr (.inl ⟨h1, h2, h3⟩)
        · exact .inr (.inr h3)
    · rw [if_neg hclaim, ih (by omega), hlast]
      rw [canClaim_iff] at hclaim
      constructor
      · rintro (h | ⟨h1, h2, h3⟩)
        · exact .inl h
        · exact .inr ⟨h1, h2, .inl h3⟩
      · rintro (h | ⟨h1, h2, h3 | h3⟩)
        · exact .inl h
        · exact .inr ⟨h1, h2, h3⟩
        · exact absurd (h3 ▸ h1) hclaim

/-- The pages that the code takes an available entry to hold. -/
def Frees (e : MultibootMmapEntry) (n : Nat) : Prop :=
  e.type = multibootMemoryAvailable ∧ Claimable n ∧
    ((e.addr + e.len ≤ 0xFFFFFFFF ∧ e.addr / 4096 ≤ n ∧ n < e.addr / 4096 + e.len / 4096) ∨
      (0xFFFFFFFF ≤ e.addr ∧ 0xFFFFFFFF < e.addr + e.len ∧ e.addr % 4294967296 / 4096 ≤ n))

theorem addEntry_skipped {e : MultibootMmapEntry} (hnone : e.type ≠ multibootMemoryAvailable ∨ clampLength e = none)
    (htype : e.type < 5) (p : PhysAlloc) : addEntry p e = .ok p := by
  unfold addEntry
  rw [if_pos htype]
  cases hlen : clampLength e with
  | none => rfl
  | some len =>
    have hother : e.type ≠ multibootMemoryAvailable := hnone.resolve_right (by simp [hlen])
    exact if_neg hother

theorem addEntry_region {e : MultibootMmapEntry} {len : Nat} (havail : e.type = multibootMemoryAvailable)
    (hlen : clampLength e = some len) (p : PhysAlloc) :
    addEntry p e = .ok (addRegion p (4096 * (e.addr % 4294967296 / 4096)) (len % 4294967296 / 4096)) := by
  have htype : e.type < 5 := by
    rw [havail]
    decide
  have hbase : u32 (e.addr / 0x1000 * 0x1000) = 4096 * (e.addr % 4294967296 / 4096) := by
    unfold u32
    omega
  have hcount : u32 len = len % 4294967296 := by
    unfold u32
    rfl
  unfold addEntry
  rw [if_pos htype, hlen, hbase]
  dsimp only
  rw [hcount]
  exact if_pos havail

theorem addEntry_ok (p : PhysAlloc) (htype : e.type < 5) (hend : e.addr + e.len < 2 ^ 64) :
    ∃ q, addEntry p e = .ok q ∧ ∀ n, bit q.bitmap n = false ↔ bit p.bitmap n = false ∨ Frees e n := by
  have hsum : (e.addr + e.len) % 2 ^ 64 = e.addr + e.len := Nat.mod_eq_of_lt hend
  by_cases havail : e.type = multibootMemoryAvailable
  · by_cases hlow : e.addr + e.len ≤ 0xFFFFFFFF
    · have hlen : clampLength e = some e.len := by
        unfold clampLength
        rw [hsum, if_neg (by omega)]
      refine ⟨_, addEntry_region havail hlen p, fun n => ?_⟩
      rw [bit_addRegion p (by omega)]
      unfold Frees
      constructor
      · rintro (h | ⟨h1, h2, h3⟩)
        · exact .inl h
        · exact .inr ⟨havail, h1, .inl ⟨hlow, by omega, by omega⟩⟩
      · rintro (h | ⟨_, h1, ⟨_, h2, h3⟩ | ⟨_, h2, _⟩⟩)
        · exact .inl h
        · exact .inr ⟨h1, by omega, by omega⟩
        · omega
    by_cases hhigh : 0xFFFFFFFF ≤ e.addr
    · have hlen : clampLength e = some ((0xFFFFFFFF + 2 ^ 64 - e.addr) % 2 ^ 64) := by
        unfold clampLength
        rw [hsum, if_pos (by omega), if_neg (by omega)]
      refine ⟨_, addEntry_region havail hlen p, fun n => ?_⟩
      have hcount : (0xFFFFFFFF + 2 ^ 64 - e.addr) % 2 ^ 64 % 4294967296 = 0xFFFFFFFF - e.addr % 4294967296 := by
        omega
      rw [hcount, bit_addRegion p (by omega)]
      unfold Frees
      constructor
      · rintro (h | ⟨h1, h2, _⟩)
        · exact .inl h
        · exact .inr ⟨havail, h1, .inr ⟨hhigh, by omega, h2⟩⟩
      · rintro (h | ⟨_, h1, ⟨h2, _⟩ | ⟨_, _, h3⟩⟩)
        · exact .inl h
        · omega
        · have hclaim := h1.2
          exact .inr ⟨h1, h3, by omega⟩
    · have hnone : clampLength e = none := by
        unfold clampLength
        rw [hsum, if_pos (by omega), if_pos (by omega)]
      refine ⟨p, addEntry_skipped (.inr hnone) htype p, fun n => ⟨.inl, fun h => h.resolve_right ?_⟩⟩
      rintro ⟨_, _, ⟨h, _⟩ | ⟨h, _⟩⟩ <;> omega
  · refine ⟨p, addEntry_skipped (.inl havail) htype p, fun n => ⟨.inl, fun h => h.resolve_right ?_⟩⟩
    exact fun hfrees => havail hfrees.1

end Regions

section Map

variable {p q : PhysAlloc} {mmap : List MultibootMmapEntry} {n : Nat}

theorem addEntries_ok (p : PhysAlloc) (htypes : ∀ e ∈ mmap, e.type < 5)
    (hends : ∀ e ∈ mmap, e.addr + e.len < 2 ^ 64) :
    ∃ q, addEntries p mmap = .ok q ∧
      ∀ n, bit q.bitmap n = false ↔ bit p.bitmap n = false ∨ ∃ e ∈ mmap, Frees e n := by
  induction mmap generalizing p with
  | nil => exact ⟨p, rfl, fun n => ⟨.inl, fun h => h.resolve_right fun ⟨e, he, _⟩ => nomatch he⟩⟩
  | cons e rest ih =>
    obtain ⟨q, hq, hbits⟩ := addEntry_ok p (htypes e (List.mem_cons_self ..)) (hends e (List.mem_cons_self ..))
    obtain ⟨r, hr, hrest⟩ := ih q (fun e' he' => htypes e' (List.mem_cons_of_mem _ he'))
      fun e' he' => hends e' (List.mem_cons_of_mem _ he')
    refine ⟨r, by rw [addEntries, hq, ← hr], fun n => ?_⟩
    rw [hrest, hbits, List.exists_mem_cons_iff, or_assoc]

theorem addEntries_error {p : PhysAlloc} (hends : ∀ e ∈ mmap, e.addr + e.len < 2 ^ 64)
    (hrun : addEntries p mmap = .ok q) : ∀ e ∈ mmap, e.type < 5 := by
  induction mmap generalizing p with
  | nil => exact fun e he => nomatch he
  | cons e rest ih =>
    rw [addEntries] at hrun
    by_cases htype : e.type < 5
    · obtain ⟨r, hr, _⟩ := addEntry_ok p htype (hends e (List.mem_cons_self ..))
      rw [hr] at hrun
      refine fun e' he' => (List.mem_cons.mp he').elim (fun h => h ▸ htype) fun h => ?_
      exact ih (fun e' he' => hends e' (List.mem_cons_of_mem _ he')) hrun e' h
    · rw [addEntry, if_neg htype] at hrun
      cases hrun

def MultibootMmapEntry.Has (e : MultibootMmapEntry) (x : Nat) : Prop := e.addr ≤ x ∧ x < e.addr + e.len

def Apart64 (e f : MultibootMmapEntry) : Prop := ∀ x, ¬(e.Has x ∧ f.Has x)

/-- All bytes of page `n` lie in one entry of available memory. -/
def InRam (mmap : List MultibootMmapEntry) (n : Nat) : Prop :=
  ∃ e ∈ mmap, e.type = multibootMemoryAvailable ∧ e.addr ≤ 4096 * n ∧ 4096 * n + 4096 ≤ e.addr + e.len

/-- An entry beyond 4 GiB, whose address is cut off to 32 bits, counts as all memory from there on. -/
def WrapsTo (e : MultibootMmapEntry) (n : Nat) : Prop :=
  e.type = multibootMemoryAvailable ∧ 0xFFFFFFFF ≤ e.addr ∧ 0xFFFFFFFF < e.addr + e.len ∧
    e.addr % 4294967296 / 4096 ≤ n

/-- An entry that ends beyond 4 GiB is skipped. -/
def SkippedWith (e : MultibootMmapEntry) (n : Nat) : Prop :=
  e.type = multibootMemoryAvailable ∧ e.addr < 0xFFFFFFFF ∧ 0xFFFFFFFF < e.addr + e.len ∧ e.addr ≤ 4096 * n

/-- An unaligned entry is moved down to a page address: its first page is only partly in it, and
the last page that it holds may be left out. -/
def MovedDown (e : MultibootMmapEntry) (n : Nat) : Prop :=
  e.type = multibootMemoryAvailable ∧ e.addr + e.len ≤ 0xFFFFFFFF ∧ e.addr % 4096 ≠ 0 ∧ 4096 ≤ e.len ∧
    (n = e.addr / 4096 ∨
      n = e.addr / 4096 + e.len / 4096 ∧ 4096 ≤ e.addr % 4096 + e.len % 4096)

/-- The memory maps that the code reads right. -/
structure MapRead (mmap : List MultibootMmapEntry) : Prop where
  types : ∀ e ∈ mmap, e.type < 5
  wrapped : ∀ n, Claimable n → (∃ e ∈ mmap, WrapsTo e n) → InRam mmap n
  others : ∀ n, Claimable n → (∀ e ∈ mmap, ¬WrapsTo e n) → ∀ e ∈ mmap, ¬SkippedWith e n ∧ ¬MovedDown e n

instance : Std.Symm Apart64 := ⟨fun _ _ h x hx => h x hx.symm⟩

theorem eq_of_has {e f : MultibootMmapEntry} {x : Nat} (hapart : mmap.Pairwise Apart64) (he : e ∈ mmap)
    (hf : f ∈ mmap) (h1 : e.Has x) (h2 : f.Has x) : e = f := by
  by_contra hne
  exact hapart.forall he hf hne x ⟨h1, h2⟩

theorem frees_or {e : MultibootMmapEntry} : Frees e n ↔ Claimable n ∧ (WrapsTo e n ∨
    e.type = multibootMemoryAvailable ∧ e.addr + e.len ≤ 0xFFFFFFFF ∧ e.addr / 4096 ≤ n ∧
      n < e.addr / 4096 + e.len / 4096) := by
  unfold Frees WrapsTo
  tauto

/-- An entry that holds page `n` is the only one that can free it without wrapping around. -/
theorem freed_by {e f : MultibootMmapEntry} (hapart : mmap.Pairwise Apart64) (he : e ∈ mmap) (hf : f ∈ mmap)
    (h1 : e.addr ≤ 4096 * n) (h2 : 4096 * n + 4096 ≤ e.addr + e.len) (hfree : Frees f n) (hwrap : ¬WrapsTo f n) :
    e = f := by
  obtain ⟨hclaim, hfree | ⟨_, _, h3, h4⟩⟩ := frees_or.mp hfree
  · exact absurd hfree hwrap
  by_cases hlow : f.addr ≤ 4096 * n
  · exact eq_of_has hapart he hf (x := 4096 * n) ⟨h1, by omega⟩ ⟨hlow, by omega⟩
  · exact eq_of_has hapart he hf (x := f.addr) ⟨by omega, by omega⟩ ⟨le_rfl, by omega⟩

/-- Where no entry wraps around, the code is right about a page unless an entry is skipped or
moved down on it. -/
theorem frees_iff_inRam (hapart : mmap.Pairwise Apart64) (hclaim : Claimable n) (hwrap : ∀ e ∈ mmap, ¬WrapsTo e n) :
    ((∃ e ∈ mmap, Frees e n) ↔ InRam mmap n) ↔ ∀ e ∈ mmap, ¬SkippedWith e n ∧ ¬MovedDown e n := by
  have hn := hclaim.2
  constructor
  · intro hiff e he
    refine ⟨fun ⟨havail, h1, h2, h3⟩ => ?_, fun ⟨havail, h1, h2, h3, hpage⟩ => ?_⟩
    · obtain ⟨f, hf, hfree⟩ := hiff.mpr ⟨e, he, havail, h3, by omega⟩
      obtain rfl := freed_by hapart he hf h3 (by omega) hfree (hwrap f hf)
      obtain ⟨_, hw | ⟨_, hend, _⟩⟩ := frees_or.mp hfree
      · exact hwrap e hf hw
      · omega
    · rcases hpage with rfl | ⟨rfl, hcarry⟩
      · obtain ⟨f, hf, _, h4, h5⟩ := hiff.mp ⟨e, he, frees_or.mpr ⟨hclaim, .inr ⟨havail, h1, le_rfl, by omega⟩⟩⟩
        obtain rfl := eq_of_has hapart he hf (x := e.addr) ⟨le_rfl, by omega⟩ ⟨by omega, by omega⟩
        omega
      · have h4 : e.addr ≤ 4096 * (e.addr / 4096 + e.len / 4096) := by omega
        have h5 : 4096 * (e.addr / 4096 + e.len / 4096) + 4096 ≤ e.addr + e.len := by omega
        obtain ⟨f, hf, hfree⟩ := hiff.mpr ⟨e, he, havail, h4, h5⟩
        obtain rfl := freed_by hapart he hf h4 h5 hfree (hwrap f hf)
        obtain ⟨_, hw | ⟨_, _, _, hlt⟩⟩ := frees_or.mp hfree
        · exact hwrap e hf hw
        · omega
  · intro hall
    constructor
    · rintro ⟨e, he, hfree⟩
      obtain ⟨_, hw | ⟨havail, h1, h2, h3⟩⟩ := frees_or.mp hfree
      · exact absurd hw (hwrap e he)
      have hne : e.addr % 4096 ≠ 0 → n ≠ e.addr / 4096 := fun hodd heq =>
        (hall e he).2 ⟨havail, h1, hodd, by omega, .inl heq⟩
      exact ⟨e, he, havail, by omega, by omega⟩
    · rintro ⟨e, he, havail, h1, h2⟩
      by_cases hend : e.addr + e.len ≤ 0xFFFFFFFF
      · refine ⟨e, he, frees_or.mpr ⟨hclaim, .inr ⟨havail, hend, by omega, ?_⟩⟩⟩
        by_contra hlast
        exact (hall e he).2 ⟨havail, hend, by omega, by omega, .inr ⟨by omega, by omega⟩⟩
      · exact absurd ⟨havail, by omega, by omega, h1⟩ (hall e he).1

theorem physInit_ok (p : PhysAlloc) (htypes : ∀ e ∈ mmap, e.type < 5)
    (hends : ∀ e ∈ mmap, e.addr + e.len < 2 ^ 64) : ∃ q, x86MmPhysInit p mmap = .ok q := by
  obtain ⟨q, hq, _⟩ :=
    addEntries_ok { p with bitmap := fun w => if w < physWords then full else p.bitmap w } htypes hends
  exact ⟨q, hq⟩

theorem physInit_bits (hends : ∀ e ∈ mmap, e.addr + e.len < 2 ^ 64) (hq : x86MmPhysInit p mmap = .ok q)
    (hn : n < 1048576) : bit q.bitmap n = false ↔ ∃ e ∈ mmap, Frees e n := by
  have hfull : bit (fun w => if w < physWords then full else p.bitmap w) n = true := by
    unfold bit
    dsimp only
    rw [if_pos (by unfold physWords; omega)]
    exact getLsbD_full (Nat.mod_lt _ (by decide))
  obtain ⟨r, hr, hall⟩ := addEntries_ok
    { p with bitmap := fun w => if w < physWords then full else p.bitmap w } (addEntries_error hends hq) hends
  obtain rfl := Except.ok.inj (hr.symm.trans hq)
  rw [hall]
  dsimp only
  rw [hfull]
  exact ⟨fun h => h.resolve_left Bool.noConfusion, .inr⟩

/-- The code reads a memory map right exactly when no entry has type 5 and the arithmetic on
unaligned entries and on entries that reach beyond 4 GiB does no harm. -/
theorem x86_mm_phys_init_iff (p : PhysAlloc) (hapart : mmap.Pairwise Apart64)
    (hends : ∀ e ∈ mmap, e.addr + e.len < 2 ^ 64) :
    (∃ q, x86MmPhysInit p mmap = .ok q ∧
      ∀ n < 1048576, bit q.bitmap n = false ↔ Claimable n ∧ InRam mmap n) ↔ MapRead mmap := by
  constructor
  · rintro ⟨q, hq, hright⟩
    have hiff : ∀ n, Claimable n → ((∃ e ∈ mmap, Frees e n) ↔ InRam mmap n) := by
      intro n hclaim
      have hn : n < 1048576 := hclaim.2.trans (by decide)
      rw [← physInit_bits hends hq hn, hright n hn]
      exact ⟨And.right, fun h => ⟨hclaim, h⟩⟩
    refine ⟨addEntries_error hends hq, fun n hclaim ⟨e, he, hw⟩ => ?_, fun n hclaim hno => ?_⟩
    · exact (hiff n hclaim).mp ⟨e, he, frees_or.mpr ⟨hclaim, .inl hw⟩⟩
    · exact (frees_iff_inRam hapart hclaim hno).mp (hiff n hclaim)
  · intro h
    obtain ⟨q, hq⟩ := physInit_ok p h.types hends
    refine ⟨q, hq, fun n hn => (physInit_bits hends hq hn).trans ?_⟩
    by_cases hclaim : Claimable n
    · by_cases hwrap : ∃ e ∈ mmap, WrapsTo e n
      · have hram := h.wrapped n hclaim hwrap
        obtain ⟨e, he, hw⟩ := hwrap
        exact ⟨fun _ => ⟨hclaim, hram⟩, fun _ => ⟨e, he, frees_or.mpr ⟨hclaim, .inl hw⟩⟩⟩
      · have hno : ∀ e ∈ mmap, ¬WrapsTo e n := fun e he hw => hwrap ⟨e, he, hw⟩
        rw [(frees_iff_inRam hapart hclaim hno).mpr (h.others n hclaim hno)]
        exact ⟨fun hram => ⟨hclaim, hram⟩, And.right⟩
    · exact ⟨fun ⟨e, _, hfree⟩ => absurd hfree.2.1 hclaim, fun hr => absurd hr.1 hclaim⟩

theorem x86_mm_phys_init_small : ∃ q, x86MmPhysInit ⟨fun _ => 0#32, 0, 0⟩ [⟨0, 0x9F000, 1⟩, ⟨0x100000, 0x1F00000, 1⟩] = .ok q ∧
    ∀ n < 1048576, bit q.bitmap n = false ↔
      Claimable n ∧ InRam [⟨0, 0x9F000, 1⟩, ⟨0x100000, 0x1F00000, 1⟩] n := by
  refine (x86_mm_phys_init_iff _ ?_ (by decide)).mpr ⟨by decide, fun n hn ⟨e, he, hw⟩ => ?_, fun n hn _ e he => ?_⟩
  · refine List.pairwise_pair.mpr fun x ⟨h1, h2⟩ => ?_
    unfold MultibootMmapEntry.Has at h1 h2
    dsimp only at h1 h2
    omega
  · have h := hw.2.1
    rcases List.mem_pair.mp he with rfl | rfl <;> exact absurd h (by decide)
  · rcases List.mem_pair.mp he with rfl | rfl
    · exact ⟨fun h => absurd h.2.2.1 (by decide), fun h => absurd h.2.2.1 (by decide)⟩
    · exact ⟨fun h => absurd h.2.2.1 (by decide), fun h => absurd h.2.2.1 (by decide)⟩

/-- Memory beyond 4 GiB makes pages free where no memory is. -/
theorem high_memory_frees_absent_page : ∃ mmap : List MultibootMmapEntry, mmap.Pairwise Apart64 ∧
    (∀ e ∈ mmap, 1 ≤ e.type ∧ e.type ≤ 5 ∧ e.addr + e.len < 2 ^ 64) ∧
    ∃ p q, x86MmPhysInit p mmap = .ok q ∧ bit q.bitmap 0x2000 = false ∧ ¬InRam mmap 0x2000 := by
  have hends : ∀ e ∈ [(⟨0x100000000, 0x40000000, 1⟩ : MultibootMmapEntry)], e.addr + e.len < 2 ^ 64 := by decide
  have htypes : ∀ e ∈ [(⟨0x100000000, 0x40000000, 1⟩ : MultibootMmapEntry)], e.type < 5 := by decide
  obtain ⟨q, hq⟩ := physInit_ok ⟨fun _ => 0#32, 0, 0⟩ htypes hends
  refine ⟨_, List.pairwise_singleton _ _, by decide, _, q, hq, ?_, ?_⟩
  · exact (physInit_bits hends hq (by decide)).mpr
      ⟨_, List.mem_singleton_self _, rfl, by decide, .inr ⟨by decide, by decide, by decide⟩⟩
  · rintro ⟨e, he, _, hlow, _⟩
    rw [List.mem_singleton.mp he] at hlow
    exact absurd hlow (by decide)

end Map

end YggKernel.Phys
