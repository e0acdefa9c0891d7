import YggKernel.Heap.Arenas
import YggKernel.Heap.FirstFit
import YggKernel.Heap.Resizing

namespace YggKernel.Heap

open Lib.Program Lib.ByteMemory Lib.Chains

def heapFlgExclude : Nat := 1 <<< 5

def regionGetIntersect (a sa b sb : Nat) : Bool × Nat × Nat :=
  if a > b then (decide (sub32 a b < sb), a, min sa (sub32 sb (sub32 a b)))
  else (decide (sub32 b a < sa), b, min sb (sub32 sa (sub32 b a)))

/-- The part of `heap_remove_region` that cuts a used block out of the free one of region `i`. -/
def splitRegion (i start sz : Nat) : Prog Fault HeapMem Unit := do
  let base := (← get).regions i
  let newFree := u32 (start + sz)
  let alloced := sub32 start heapBlockSize
  setField offPrev alloced base
  setField offFlags alloced (heapFlgUsed ||| heapFlgExclude ||| heapMagic)
  setField offSize alloced sz
  setField offNext alloced newFree
  setField offSize newFree (sub32 (sub32 (← field offSize base) (sub32 newFree base)) heapBlockSize)
  setField offFlags newFree heapMagic
  setField offNext newFree 0
  setField offPrev newFree alloced
  setField offSize base (sub32 (sub32 alloced base) heapBlockSize)
  setField offNext base alloced

/-- The walk over the regions, which tells whether one of them met the interval. A split moves `start` for the
regions that come after. -/
def removeFrom (sz : Nat) : List Nat → Nat → Bool → Prog Fault HeapMem Bool
  | [], _, found => return found
  | i :: rest, start, found => do
    let base := (← get).regions i
    if base = 0 then return found
    if (← field offNext base) ≠ 0 then removeFrom sz rest start found
    else if (regionGetIntersect base (u32 (heapBlockSize + (← field offSize base))) start sz).1 then
      if sub32 start base < heapBlockSize then
        modify fun h => { h with regions := Function.update h.regions i (u32 (start + sz + heapBlockSize)) }
        removeFrom sz rest start true
      else
        splitRegion i start sz
        removeFrom sz rest (sub32 start heapBlockSize) true
    else removeFrom sz rest start found

def heapRemoveRegion (start sz : Nat) : Prog Fault HeapMem Unit := do
  if ¬(← removeFrom (mmAlignUp sz 16) (List.range heapMax) (start &&& 0xFFFFFFF8) false) then
    throw (.panic "Region %p .. %p does not belong to any heap\n")

def Apart (start sz a b : Nat) : Prop := b ≤ start ∨ start + sz ≤ a

/-- The chain from `r` on consists of valid headers outside of the interval, with their blocks in the region. -/
structure ValidChain (m : Mem) (r lo hi start sz : Nat) (l : List Cell) : Prop where
  begins : first Cell.addr l 0 = r
  linked : Linked Cell.addr (HeadAt m) l 0
  ordered : Ordered Cell.addr Cell.fin lo l hi
  magic : ∀ c ∈ l, c.Magic
  apart : ∀ c ∈ l, Apart start sz c.addr (c.addr + heapBlockSize)

inductive Later : HeapMem → HeapMem → Prop
  | refl (h : HeapMem) : Later h h
  | alloc {h t u : HeapMem} {count p : Nat} : Later h t → heapAlloc count t = .ok (p, u) → Later h u

structure Reserved (t : HeapMem) (lo hi start sz : Nat) : Prop where
  chain : ∃ l, ValidChain t.mem (t.regions 0) lo hi start sz l
  later : ∀ u, Later t u → ∀ count p v, heapAlloc count u = .ok (p, v) → p ≠ 0 → Apart start sz p (p + count)

/-- When `heap_remove_region` reserves an interval: there is room for two headers on both sides of the rounded
interval and that one covers the given one, or the region shrinks to a chain that is there already. -/
def ReservesWell (m : Mem) (lo hi start sz : Nat) : Prop :=
  let a := start &&& 0xFFFFFFF8
  let s := mmAlignUp sz 16
  lo + 32 ≤ a ∧ a + s + 32 ≤ hi ∧ start + sz ≤ a + s ∨
    lo ≤ a ∧ a < lo + 16 ∧ ∃ l, ValidChain m (u32 (a + s + 16)) lo hi start sz l

structure OneRegion (h : HeapMem) (lo hi : Nat) : Prop where
  pos : 0 < lo
  aligned : lo % 8 = 0
  room : lo + 16 ≤ hi
  top : hi < 4294967296
  region : h.regions 0 = lo
  none : ∀ i < heapMax, i ≠ 0 → h.regions i = 0
  head : HeadAt h.mem ⟨lo, hi - lo - 16, heapMagic⟩ 0

section Splitting

variable {h : HeapMem} {i start sz base alloced newFree : Nat}

structure SplitAt (m m' : Mem) (base alloced newFree sz : Nat) : Prop where
  size : load32 m' (base + 4) = sub32 (sub32 alloced base) 16
  next : load32 m' (base + 12) = alloced
  same : SameBut m m' [alloced + 8, alloced, alloced + 4, alloced + 12, newFree + 4, newFree, newFree + 12, newFree + 8,
    base + 4, base + 12]
  cut : base + 16 ≤ alloced → (newFree + 16 ≤ alloced ∨ alloced + 16 ≤ newFree) →
    HeadAt m' ⟨alloced, sz, heapFlgUsed ||| heapFlgExclude ||| heapMagic⟩ newFree
  rest : base + 16 ≤ alloced → alloced + 16 ≤ newFree →
    HeadAt m' ⟨newFree, sub32 (sub32 (load32 m (base + 4)) (sub32 newFree base)) 16, heapMagic⟩ 0

theorem sub32_lt (a b : Nat) : sub32 a b < 4294967296 := by
  unfold sub32
  omega

theorem wp_splitRegion (hbase : h.regions i = base) (hlt : base < 4294967296) (hsz : sz < 4294967296)
    (halloced : sub32 start 16 = alloced) (hfree : u32 (start + sz) = newFree) :
    wp (splitRegion i start sz) noFault (fun _ t => t.regions = h.regions ∧ SplitAt h.mem t.mem base alloced newFree sz) h := by
  have halt : alloced < 4294967296 := by
    rw [← halloced]
    exact sub32_lt _ _
  have hflt : newFree < 4294967296 := by
    rw [← hfree]
    exact u32_lt _
  rw [splitRegion, wp_bind, wp_get, hbase]
  dsimp only
  rw [heapBlockSize, halloced, hfree, wp_bind]
  refine wp_setField_same hlt fun m₁ _ s₁ => ?_
  rw [wp_bind]
  refine wp_setField_same (by decide) fun m₂ h₂ s₂ => ?_
  rw [wp_bind]
  refine wp_setField_same hsz fun m₃ h₃ s₃ => ?_
  rw [wp_bind]
  refine wp_setField_same hflt fun m₄ h₄ s₄ => ?_
  rw [wp_bind, wp_field, wp_bind]
  refine wp_setField_same (sub32_lt _ _) fun m₅ h₅ s₅ => ?_
  rw [wp_bind]
  refine wp_setField_same (by decide) fun m₆ h₆ s₆ => ?_
  rw [wp_bind]
  refine wp_setField_same (by decide) fun m₇ h₇ s₇ => ?_
  rw [wp_bind]
  refine wp_setField_same halt fun m₈ _ s₈ => ?_
  rw [wp_bind]
  refine wp_setField_same (sub32_lt _ _) fun m₉ h₉ s₉ => wp_setField_same halt fun m₁₀ h₁₀ s₁₀ => ⟨rfl, ?_⟩
  dsimp only [offFlags, offSize, offNext, offPrev] at *
  rw [Nat.add_zero] at h₂ s₂ h₆ s₆
  have hfirst := ((s₁.trans s₂).trans s₃).trans s₄
  have hlast := s₉.trans s₁₀
  have hmid := ((s₅.trans s₆).trans s₇).trans s₈
  refine ⟨?_, h₁₀, (hfirst.trans hmid).trans hlast, fun hab hba => ⟨?_, ?_, ?_⟩, fun hab hba => ⟨?_, ?_, ?_⟩⟩
  · rw [s₁₀.load (by simp), h₉]
  · refine ((hmid.trans hlast).load (by simp [offFlags]; omega)).trans ?_
    exact ((s₃.trans s₄).load (by simp [offFlags])).trans h₂
  · refine ((hmid.trans hlast).load (by simp [offSize]; omega)).trans ?_
    exact (s₄.load (by simp [offSize])).trans h₃
  · exact ((hmid.trans hlast).load (by simp [offNext]; omega)).trans h₄
  · refine (hlast.load (by simp [offFlags]; omega)).trans ?_
    exact ((s₇.trans s₈).load (by simp [offFlags])).trans h₆
  · refine (hlast.load (by simp [offSize]; omega)).trans ?_
    refine (((s₆.trans s₇).trans s₈).load (by simp [offSize])).trans (h₅.trans ?_)
    rw [hfirst.load (by simp; omega)]
  · refine (hlast.load (by simp [offNext]; omega)).trans ?_
    exact (s₈.load (by simp [offNext])).trans h₇

end Splitting

section Removing

variable {h h₀ : HeapMem} {lo hi start sz a b : Nat}

theorem oneRegion_of_addRegion (hempty : ∀ i < heapMax, h₀.regions i = 0) (ha : 0 < a) (hroom : (a + 7) / 8 * 8 + 16 ≤ b)
    (hb : b < 4294967296) (hset : heapAddRegion a b h₀ = .ok ((), h)) : OneRegion h ((a + 7) / 8 * 8) b := by
  have hA : Arenas h₀ [] := ⟨by simp, .nil, Nat.zero_le _, fun i hi => by simp [hempty i hi]⟩
  have hA' := of_run (wp_addRegion hA (by decide) ha hroom hb (by simp)) hset
  have hregion : Region h.mem ((a + 7) / 8 * 8) b _ := hA'.region _ (List.mem_singleton.mpr rfl)
  have hlinked := hregion.linked.1.head
  refine ⟨by omega, by omega, hroom, hb, hA'.starts 0 (by decide), fun i hi hne => ?_, hlinked⟩
  rw [hA'.starts i hi]
  obtain ⟨j, rfl⟩ := Nat.exists_eq_succ_of_ne_zero hne
  simp

theorem wp_removeRegion_iff {Q : Unit → HeapMem → Prop} (hone : OneRegion h lo hi) :
    wp (heapRemoveRegion start sz) noFault Q h ↔
      (regionGetIntersect lo (hi - lo) (start &&& 0xFFFFFFF8) (mmAlignUp sz 16)).1 = true ∧
        if sub32 (start &&& 0xFFFFFFF8) lo < 16 then
          Q () { h with regions := Function.update h.regions 0 (u32 ((start &&& 0xFFFFFFF8) + mmAlignUp sz 16 + 16)) }
        else wp (splitRegion 0 (start &&& 0xFFFFFFF8) (mmAlignUp sz 16)) noFault Q h := by
  have hsz : mmAlignUp sz 16 < 4294967296 := lt_of_le_of_lt Nat.and_le_left (u32_lt _)
  have hrange : List.range heapMax = 0 :: 1 :: List.range' 2 14 := rfl
  have hsize : u32 (heapBlockSize + load32 h.mem (lo + offSize)) = hi - lo := by
    have hroom := hone.room
    have htop := hone.top
    rw [hone.head.size, heapBlockSize, u32_of_lt (by dsimp only; omega)]
    dsimp only
    omega
  -- the walk ends at the first free slot
  have hend : ∀ (t : HeapMem) (s : Nat), t.regions 1 = 0 →
      (wp (removeFrom (mmAlignUp sz 16) (1 :: List.range' 2 14) s true) noFault (fun found u =>
        wp (if ¬found then throw (.panic "Region %p .. %p does not belong to any heap\n") else pure () :
          Prog Fault HeapMem Unit) noFault Q u) t ↔ Q () t) := by
    intro t s ht
    rw [removeFrom, wp_bind, wp_get]
    dsimp only
    rw [if_pos ht, wp_pure, if_neg (by simp), wp_pure]
  have hone₁ : h.regions 1 = 0 := hone.none 1 (by decide) (by decide)
  rw [heapRemoveRegion, wp_bind, hrange, removeFrom, wp_bind, wp_get]
  dsimp only
  rw [hone.region, if_neg hone.pos.ne', wp_bind, wp_field, hone.head.next, if_neg (by simp), wp_bind, wp_field, hsize]
  by_cases hmeet : (regionGetIntersect lo (hi - lo) (start &&& 0xFFFFFFF8) (mmAlignUp sz 16)).1 = true
  · rw [if_pos hmeet, and_iff_right hmeet]
    by_cases hnear : sub32 (start &&& 0xFFFFFFF8) lo < 16
    · rw [if_pos (show _ < heapBlockSize from hnear), if_pos hnear, wp_bind, wp_modify, hend]
      · rfl
      · simpa using hone₁
    · rw [if_neg (show ¬_ < heapBlockSize from hnear), if_neg hnear, wp_bind]
      obtain ⟨_, t, hrun, hregs, -⟩ := run_of_wp (wp_splitRegion hone.region (by have := hone.room; have := hone.top; omega)
        hsz rfl rfl)
      rw [wp_of_run hrun, wp_of_run hrun, hend t _ (by rw [hregs, hone₁])]
  · rw [if_neg hmeet, removeFrom, wp_bind, wp_get]
    dsimp only
    rw [if_pos hone₁, wp_pure, if_pos (by simp), wp_throw]
    exact iff_of_false not_false fun hQ => hmeet hQ.1

end Removing

section Later

variable {h t u : HeapMem} {lo hi start sz count p : Nat} {z : Zone}

/-- No free block of the heap meets the interval: the heap is empty, or it lies behind the interval, or
one block that stays in use covers it. -/
def Closed (lo hi start sz : Nat) (h : HeapMem) : Prop :=
  h.regions 0 = 0 ∨ (∃ r l, Zones h [⟨r, hi, l⟩] ∧ start + sz ≤ r) ∨
    ∃ l₁ c l₂, Zones h [⟨lo, hi, l₁ ++ c :: l₂⟩] ∧ ¬c.Free ∧ c.addr ≤ start ∧ start + sz ≤ c.fin

theorem FirstTaken.single (ht : FirstTaken count h [z] p t) : ∃ l₁ c l₂ rest, z.cells = l₁ ++ c :: l₂ ∧ c.Fits count ∧
    p = c.addr + 16 ∧ Zones t [⟨z.lo, z.hi, l₁ ++ c.take count :: (rest ++ l₂)⟩] := by
  obtain ⟨zs₁, y, zs₂, l₁, c, l₂, hzs, hcells, -, -, hfits, hp, ⟨rest, -, hZ⟩, -⟩ := ht
  obtain ⟨rfl, h⟩ | ⟨_, rfl, h⟩ := List.cons_eq_append_iff.mp hzs
  · obtain ⟨rfl, rfl⟩ := List.cons_eq_cons.mp h
    exact ⟨l₁, c, l₂, rest, hcells, hfits, hp, hZ⟩
  · simp at h

theorem wp_heapAlloc_closed (hc : Closed lo hi start sz h) :
    wp (heapAlloc count) noFault (fun p t => Closed lo hi start sz t ∧ (p ≠ 0 → Apart start sz p (p + count))) h := by
  rcases hc with h0 | ⟨r, l, hZ, hr⟩ | ⟨l₁, a, l₂, hZ, hused, hlo, hhi⟩
  · rw [heapAlloc, show List.range heapMax = 0 :: List.range' 1 15 from rfl, allocFrom, wp_bind, wp_get]
    dsimp only
    rw [if_pos h0, wp_pure]
    exact ⟨.inl h0, fun hne => absurd rfl hne⟩
  · refine wp_imp (heap_alloc_first_fit count hZ) ?_
    rintro p t ⟨-, hnone, htaken⟩
    by_cases hp : p = 0
    · obtain rfl := hnone hp
      exact ⟨.inr (.inl ⟨r, l, hZ, hr⟩), fun hne => absurd hp hne⟩
    · obtain ⟨k₁, c, k₂, rest, rfl, hfits, rfl, hZ'⟩ := (htaken hp).single
      have hplace := (hZ.zone _ (List.mem_singleton.mpr rfl)).place.1
      exact ⟨.inr (.inl ⟨r, _, hZ', hr⟩), fun _ => .inr (by omega)⟩
  · refine wp_imp (heap_alloc_first_fit count hZ) ?_
    rintro p t ⟨-, hnone, htaken⟩
    by_cases hp : p = 0
    · obtain rfl := hnone hp
      exact ⟨.inr (.inr ⟨l₁, a, l₂, hZ, hused, hlo, hhi⟩), fun hne => absurd hp hne⟩
    · obtain ⟨k₁, c, k₂, rest, hcells, hfits, rfl, hZ'⟩ := (htaken hp).single
      have hord := (hZ.zone _ (List.mem_singleton.mpr rfl)).ordered
      obtain ⟨hord₁, hord₂⟩ := ordered_append.mp hord
      have hsize := hfits.2
      have hfin : c.fin = c.addr + 16 + c.size := rfl
      -- the block that is taken lies before the used one or behind it
      rcases List.append_eq_append_iff.mp hcells with ⟨a', rfl, hrest⟩ | ⟨c', rfl, hrest⟩
      · obtain ⟨rfl, h⟩ | ⟨l, rfl, h⟩ := List.cons_eq_append_iff.mp hrest
        · obtain ⟨rfl, -⟩ := List.cons_eq_cons.mp h
          exact absurd hfits.1 hused
        · subst h
          have hbehind := (hord₂.mem (fun y _ => y.le_fin) (x := c) (by simp)).1
          refine ⟨.inr (.inr ⟨l₁, a, l ++ c.take count :: (rest ++ k₂), ?_, hused, hlo, hhi⟩), fun _ => .inr (by omega)⟩
          simpa using hZ'
      · obtain ⟨rfl, h⟩ | ⟨l, rfl, h⟩ := List.cons_eq_append_iff.mp hrest
        · obtain ⟨rfl, -⟩ := List.cons_eq_cons.mp h
          exact absurd hfits.1 hused
        · subst h
          have hbefore := (hord₁.mem (fun y _ => y.le_fin) (x := c) (by simp)).2
          refine ⟨.inr (.inr ⟨k₁ ++ c.take count :: (rest ++ l), a, l₂, ?_, hused, hlo, hhi⟩), fun _ => .inl (by omega)⟩
          simpa using hZ'

theorem closed_of_later (hc : Closed lo hi start sz h) (hl : Later h u) : Closed lo hi start sz u := by
  induction hl with
  | refl => exact hc
  | alloc _ hrun ih => exact (of_run (wp_heapAlloc_closed ih) hrun).1

theorem later_of_closed (hc : Closed lo hi start sz h) (hl : Later h u) {v : HeapMem} (hrun : heapAlloc count u = .ok (p, v))
    (hp : p ≠ 0) : Apart start sz p (p + count) :=
  (of_run (wp_heapAlloc_closed (closed_of_later hc hl)) hrun).2 hp

theorem zones_one {r : Nat} {l : List Cell} (hr : h.regions 0 = r) (hrest : ∀ i < heapMax, i ≠ 0 → h.regions i = 0)
    (hz : ZoneAt h.mem ⟨r, hi, l⟩) : Zones h [⟨r, hi, l⟩] := by
  refine ⟨fun z hz' => List.mem_singleton.mp hz' ▸ hz, List.pairwise_singleton _ _, by simp [heapMax], fun i hi => ?_⟩
  cases i with
  | zero => exact hr
  | succ i => simp [hrest _ hi]

theorem alignDown_eight (start : Nat) (hstart : start < 4294967296) : start &&& 0xFFFFFFF8 = start / 8 * 8 :=
  Lib.Masks.and_high_mask (k := 3) (by decide) hstart

theorem mmAlignUp_sixteen (sz : Nat) : mmAlignUp sz 16 = u32 (sz + 15) / 16 * 16 :=
  Lib.Masks.and_high_mask (k := 4) (by decide) (u32_lt _)

theorem ordered_cases {a : Nat} {l : List Cell} (h : Ordered Cell.addr Cell.fin a l hi) :
    l = [] ∧ a ≤ hi ∨ ∃ c k, l = c :: k ∧ a ≤ c.addr ∧ c.addr + 16 + c.size ≤ hi ∧ Ordered Cell.addr Cell.fin c.fin k hi := by
  cases l with
  | nil => exact .inl ⟨rfl, h⟩
  | cons c k => exact .inr ⟨c, k, rfl, h.1, h.2.le fun y _ => y.le_fin, h.2⟩

theorem reserved_of_shift (hone : OneRegion h lo hi) (hnear : start < lo + 16) {r : Nat} :
    Reserved { h with regions := Function.update h.regions 0 r } lo hi start sz ↔
      ∃ l, ValidChain h.mem r lo hi start sz l := by
  have hregion : Function.update h.regions 0 r 0 = r := Function.update_self ..
  constructor
  · rintro ⟨⟨l, hl⟩, -⟩
    exact ⟨l, hregion ▸ hl⟩
  · rintro ⟨l, hl⟩
    have hclosed : Closed lo hi start sz { h with regions := Function.update h.regions 0 r } := by
      obtain ⟨hbegins, hlinked, hordered, -, hapart⟩ := hl
      rcases ordered_cases hordered with ⟨rfl, -⟩ | ⟨c, k, rfl, hlo, -, hrest⟩
      · exact .inl (hregion.trans hbegins.symm)
      · have hpos := hone.pos
        have haway := (hapart c (by simp)).resolve_left (by unfold heapBlockSize; omega)
        rw [first_cons] at hbegins
        refine .inr (.inl ⟨r, c :: k, zones_one hregion (fun i hi hne => ?_) ⟨?_, hone.top, hbegins, hlinked, ?_⟩, ?_⟩)
        · exact (Function.update_of_ne hne ..).trans (hone.none i hi hne)
        · dsimp only
          omega
        · exact ⟨hbegins.ge, hrest⟩
        · omega
    exact ⟨⟨l, hregion.symm ▸ hl⟩, fun u hu count p v hrun hp => later_of_closed hclosed hu hrun hp⟩

def splitCells (lo hi a s : Nat) : List Cell :=
  [⟨lo, a - 32 - lo, heapMagic⟩, ⟨a - 16, s, heapFlgUsed ||| heapFlgExclude ||| heapMagic⟩,
    ⟨a + s, hi - (a + s) - 32, heapMagic⟩]

theorem reserved_of_split (hone : OneRegion h lo hi) (hregs : t.regions = h.regions) {a s : Nat} (hlo : lo + 32 ≤ a)
    (hhi : a + s + 32 ≤ hi) (hcover : start + sz ≤ a + s) (hdown : a ≤ start) (hup : start < a + s)
    (hsplit : SplitAt h.mem t.mem lo (a - 16) (a + s) s) : Reserved t lo hi start sz := by
  obtain ⟨hpos, -, hroom, htop, hregion, hnone, hhead⟩ := hone
  have hsize : load32 h.mem (lo + 4) = hi - lo - 16 := hhead.size
  have hbase : HeadAt t.mem ⟨lo, a - 32 - lo, heapMagic⟩ (a - 16) := by
    refine ⟨(hsplit.same.load (by simp [offFlags]; omega)).trans hhead.flags, ?_, hsplit.next⟩
    refine hsplit.size.trans ?_
    rw [sub32_of_le (a := a - 16) (by omega) (by omega), sub32_of_le (by omega) (by omega)]
    dsimp only
    omega
  have hcut := hsplit.cut (by omega) (.inr (by omega))
  have hrest := hsplit.rest (by omega) (by omega)
  rw [hsize, sub32_of_le (a := a + s) (by omega) (by omega), sub32_of_le (a := hi - lo - 16) (by omega) (by omega),
    sub32_of_le (by omega) (by omega), show hi - lo - 16 - (a + s - lo) - 16 = hi - (a + s) - 32 by omega] at hrest
  have hlinked : Linked Cell.addr (HeadAt t.mem) (splitCells lo hi a s) 0 := ⟨hbase, hcut, hrest, trivial⟩
  have hordered : Ordered Cell.addr Cell.fin lo (splitCells lo hi a s) hi := by
    refine ⟨le_rfl, ?_, ?_, ?_⟩ <;> simp only [Cell.fin, heapBlockSize, Ordered] <;> omega
  have hzone : ZoneAt t.mem ⟨lo, hi, splitCells lo hi a s⟩ := ⟨hpos, htop, rfl, hlinked, hordered⟩
  have hregion' : t.regions 0 = lo := by rw [hregs, hregion]
  refine ⟨⟨splitCells lo hi a s, hregion'.symm, hlinked, hordered, ?_, ?_⟩, fun u hu count p v hrun hp =>
    later_of_closed (.inr (.inr ⟨_, _, _, zones_one (l := [_] ++ _ :: [_]) hregion' (fun i hi hne => ?_) hzone,
      (by decide : ¬(heapFlgUsed ||| heapFlgExclude ||| heapMagic) &&& heapFlgUsed = 0), ?_, ?_⟩)) hu hrun hp⟩
  · simp only [splitCells, List.forall_mem_cons, List.not_mem_nil, false_implies, implies_true, and_true]
    exact ⟨(by decide : heapMagic &&& heapMagic = heapMagic),
      (by decide : (heapFlgUsed ||| heapFlgExclude ||| heapMagic) &&& heapMagic = heapMagic),
      (by decide : heapMagic &&& heapMagic = heapMagic)⟩
  · simp only [splitCells, List.forall_mem_cons, List.not_mem_nil, false_implies, implies_true, and_true, Apart,
      heapBlockSize]
    omega
  · rw [hregs]
    exact hnone i hi hne
  · dsimp only
    omega
  · simp only [Cell.fin, heapBlockSize]
    omega

/-- A split leaves valid headers outside of the interval only if there is room for them. -/
theorem room_of_chain (hone : OneRegion h lo hi) {m : Mem} {a s : Nat} {l : List Cell} (ha : a = start / 8 * 8)
    (hs : s = u32 (sz + 15) / 16 * 16) (hsz : 0 < sz) (hend : start + sz ≤ 4294967296)
    (hsplit : SplitAt h.mem m lo (sub32 a 16) (u32 (a + s)) s) (hl : ValidChain m lo lo hi start sz l) :
    lo + 32 ≤ a ∧ a + s + 32 ≤ hi ∧ start + sz ≤ a + s := by
  obtain ⟨hpos, halign, hroom, htop, hregion, hnone, hhead⟩ := hone
  obtain ⟨hbegins, hlinked, hordered, -, hapart⟩ := hl
  have hsize : load32 h.mem (lo + 4) = hi - lo - 16 := hhead.size
  obtain ⟨rfl, -⟩ | ⟨c, k, rfl, -, hcfin, hk⟩ := ordered_cases hordered
  · exact absurd hbegins.symm hpos.ne'
  rw [first_cons] at hbegins
  have hcnext : first Cell.addr k 0 = sub32 a 16 := by
    rw [← hsplit.next, ← hbegins]
    exact hlinked.1.next.symm
  have hcsize : c.size = sub32 (sub32 (sub32 a 16) lo) 16 := by
    rw [← hsplit.size, ← hbegins]
    exact hlinked.1.size.symm
  have hcfin' : c.fin = c.addr + 16 + c.size := rfl
  obtain ⟨rfl, -⟩ | ⟨d, k, rfl, hclo, hdfin, hk⟩ := ordered_cases hk
  · rw [first_nil] at hcnext
    rw [← hcnext] at hcsize
    unfold sub32 at hcsize
    omega
  rw [first_cons] at hcnext
  have hfirst : lo + 32 ≤ a := by
    unfold sub32 at hcnext
    omega
  have halloced : sub32 a 16 = a - 16 := sub32_of_le (by omega) (by omega)
  have hround : s = (sz + 15) / 16 * 16 := by rw [hs, u32_of_lt (by omega)]
  have hplace : u32 (a + s) + 16 ≤ a - 16 ∨ a - 16 + 16 ≤ u32 (a + s) := by
    unfold u32
    omega
  rw [halloced] at hsplit hcnext
  -- the used block ends where the header behind it was written
  obtain ⟨rfl, hnext⟩ := hlinked.2.1.eq_of_addr (hsplit.cut (by omega) hplace) hcnext
  dsimp only at hdfin hk
  have hbehind : u32 (a + s) = a + s := u32_of_lt (by omega)
  rw [hbehind] at hsplit hnext
  obtain ⟨rfl, -⟩ | ⟨e, k, rfl, -, hefin, -⟩ := ordered_cases hk
  · rw [first_nil] at hnext
    omega
  rw [first_cons] at hnext
  obtain ⟨rfl, -⟩ := hlinked.2.2.1.eq_of_addr (hsplit.rest (by omega) (by omega)) hnext
  have haway := hapart ⟨a + s, sub32 (sub32 (load32 h.mem (lo + 4)) (sub32 (a + s) lo)) 16, heapMagic⟩ (by simp)
  rw [hsize] at hefin
  dsimp only [Apart, heapBlockSize] at hefin haway
  refine ⟨hfirst, ?_, by omega⟩
  unfold sub32 at hefin
  omega

end Later

section Whole

variable {h h₀ : HeapMem} {lo hi start sz a b : Nat}

theorem remove_reserves_iff (hone : OneRegion h lo hi) (hsz : 0 < sz) (hend : start + sz ≤ 4294967296) (hmeet : start < hi) :
    wp (heapRemoveRegion start sz) noFault (fun _ t => Reserved t lo hi start sz) h ↔ ReservesWell h.mem lo hi start sz := by
  have ha := alignDown_eight start (by omega)
  have hs := mmAlignUp_sixteen sz
  have hslt : mmAlignUp sz 16 < 4294967296 := lt_of_le_of_lt Nat.and_le_left (u32_lt _)
  rw [wp_removeRegion_iff hone, ReservesWell]
  generalize start &&& 0xFFFFFFF8 = a at *
  generalize mmAlignUp sz 16 = s at *
  obtain ⟨hpos, halign, hroom, htop, hregion, -, -⟩ := id hone
  have hmeets : lo ≤ a → (regionGetIntersect lo (hi - lo) a s).1 = true := by
    intro hle
    rw [regionGetIntersect, if_neg (by omega), sub32_of_le (by omega) hle]
    simp only [decide_eq_true_eq]
    omega
  by_cases hnear : lo ≤ a ∧ a < lo + 16
  · rw [if_pos (by rw [sub32_of_le (by omega) hnear.1]; omega), reserved_of_shift hone (by omega), and_iff_right (hmeets hnear.1)]
    constructor
    · exact fun hchain => .inr ⟨hnear.1, hnear.2, hchain⟩
    · rintro (⟨h, -⟩ | ⟨-, -, hchain⟩)
      · omega
      · exact hchain
  · rw [if_neg (by unfold sub32; omega), wp_iff_of (wp_splitRegion hregion (by omega) hslt rfl rfl)
      (c := lo + 32 ≤ a ∧ a + s + 32 ≤ hi ∧ start + sz ≤ a + s)]
    · constructor
      · exact fun h => .inl h.2
      · rintro (h | ⟨h1, h2, -⟩)
        · exact ⟨hmeets (by omega), h⟩
        · exact absurd ⟨h1, h2⟩ hnear
    · rintro _ t ⟨hregs, hsplit⟩
      constructor
      · rintro ⟨⟨l, hl⟩, -⟩
        rw [hregs, hregion] at hl
        exact room_of_chain hone ha hs hsz hend hsplit hl
      · rintro ⟨h1, h2, h3⟩
        rw [sub32_of_le (by omega) (by omega), u32_of_lt (by omega)] at hsplit
        exact reserved_of_split hone hregs h1 h2 h3 (by omega) (by omega) hsplit

/-- `heap_remove_region` reserves an interval of a region that was just set up in these cases and no others. -/
theorem heap_remove_region_reserves_iff (hempty : ∀ i < heapMax, h₀.regions i = 0) (ha : 0 < a)
    (hroom : (a + 7) / 8 * 8 + 16 ≤ b) (hb : b < 4294967296) (hset : heapAddRegion a b h₀ = .ok ((), h))
    (hsz : 0 < sz) (hend : start + sz ≤ 4294967296) (hmeet : (a + 7) / 8 * 8 < start + sz ∧ start < b) :
    wp (heapRemoveRegion start sz) noFault (fun _ t => Reserved t ((a + 7) / 8 * 8) b start sz) h ↔
      ReservesWell h.mem ((a + 7) / 8 * 8) b start sz :=
  remove_reserves_iff (oneRegion_of_addRegion hempty ha hroom hb hset) hsz hend hmeet.2

end Whole

def freshHeap : HeapMem := after (heapAddRegion 0x2000 0x4000) ⟨fun _ => 0, fun _ => 0⟩

theorem freshHeap_run : heapAddRegion 0x2000 0x4000 ⟨fun _ => 0, fun _ => 0⟩ = .ok ((), freshHeap) :=
  run_after (by decide +kernel)

theorem heap_remove_region_reserves_inside :
    wp (heapRemoveRegion 0x3003 0x1F5) noFault (fun _ t => Reserved t 0x2000 0x4000 0x3003 0x1F5) freshHeap :=
  (heap_remove_region_reserves_iff (fun _ _ => rfl) (by decide : 0 < 0x2000) (by decide) (by decide) freshHeap_run
    (by decide) (by decide) (by decide)).mpr (.inl (by decide +kernel))

/-- A module that begins before the region and ends in it. -/
theorem heap_remove_region_before : heapAddRegion 0x2000 0x4000 ⟨fun _ => 0, fun _ => 0⟩ = .ok ((), freshHeap) ∧
    ¬wp (heapRemoveRegion 0x1800 0x1000) noFault (fun _ t => Reserved t 0x2000 0x4000 0x1800 0x1000) freshHeap := by
  have hone : OneRegion freshHeap 0x2000 0x4000 :=
    oneRegion_of_addRegion (fun _ _ => rfl) (by decide : 0 < 0x2000) (by decide) (by decide) freshHeap_run
  refine ⟨freshHeap_run, fun hwp => ?_⟩
  rcases (remove_reserves_iff hone (by decide) (by decide) (by decide)).mp hwp with ⟨h, -⟩ | ⟨h, -⟩
  · exact absurd h (by decide)
  · exact absurd h (by decide)

end YggKernel.Heap
