import Mathlib.Data.List.GetD
import YggKernel.Heap.Regions
import YggKernel.Lib.Masks

namespace YggKernel.Heap

open Lib.Program Lib.ByteMemory Lib.Chains Lib.Masks

structure Arena where
  lo : Nat
  hi : Nat
  blocks : List Block

/-- The heap consists of these regions, listed in `s_heap_regions` in this order. -/
structure Arenas (h : HeapMem) (rs : List Arena) : Prop where
  region : ∀ r ∈ rs, Region h.mem r.lo r.hi r.blocks
  apart : rs.Pairwise fun r q => r.hi ≤ q.lo ∨ q.hi ≤ r.lo
  count : rs.length ≤ heapMax
  starts : ∀ i < heapMax, h.regions i = (rs.map Arena.lo).getD i 0

def allPayloads (rs : List Arena) : List (Nat × Nat) := rs.flatMap fun r => payloads r.blocks

def Arena.zone (r : Arena) : Zone := ⟨r.lo, r.hi, r.blocks.map Block.cell⟩

variable {h t : HeapMem} {rs rs₁ rs₂ : List Arena} {r : Arena}

theorem map_zone_lo (rs : List Arena) : (rs.map Arena.zone).map Zone.lo = rs.map Arena.lo := List.map_map

theorem Arenas.zones (hA : Arenas h rs) : Zones h (rs.map Arena.zone) := by
  refine ⟨fun z hz => ?_, List.pairwise_map.mpr hA.apart, by simpa using hA.count, fun i hi => ?_⟩
  · obtain ⟨q, hq, rfl⟩ := List.mem_map.mp hz
    exact (hA.region q hq).zone
  · rw [map_zone_lo]
    exact hA.starts i hi

theorem arenas_of_zones (hZ : Zones h (rs.map Arena.zone)) (hregion : ∀ q ∈ rs, Region h.mem q.lo q.hi q.blocks) :
    Arenas h rs := by
  refine ⟨hregion, List.pairwise_map.mp hZ.apart, by simpa using hZ.count, fun i hi => ?_⟩
  rw [← map_zone_lo]
  exact hZ.starts i hi

theorem Arenas.start_at (hA : Arenas h (rs₁ ++ r :: rs₂)) :
    rs₁.length < heapMax ∧ h.regions rs₁.length = r.lo := by
  have hZ := hA.zones
  rw [List.map_append, List.map_cons] at hZ
  have hat := hZ.start_at
  rwa [List.length_map] at hat

theorem Arenas.start_none (hA : Arenas h rs) {i : Nat} (hi : i < heapMax) (hlen : rs.length ≤ i) :
    h.regions i = 0 := hA.zones.start_none hi (by rwa [List.length_map])

theorem Arenas.start_pos (hA : Arenas h rs) {i : Nat} (hi : i < rs.length) :
    ∃ r ∈ rs, h.regions i = r.lo ∧ r.lo ≠ 0 := by
  have hcount := hA.count
  refine ⟨rs[i], List.getElem_mem hi, ?_, ?_⟩
  · rw [hA.starts _ (by omega), List.getD_eq_getElem _ _ (by simpa using hi), List.getElem_map]
  · have := (hA.region _ (List.getElem_mem hi)).pos
    omega

theorem Region.frame {m m' : Mem} {lo hi : Nat} {l : List Block} (hR : Region m lo hi l)
    (hsame : ∀ x, lo ≤ x → x < hi → m' x = m x) : Region m' lo hi l := by
  have hkeep : ∀ d ∈ l, (∀ n, HeaderAt m d n → HeaderAt m' d n) ∧
      (PrevBelow lo m d.addr → PrevBelow lo m' d.addr) := by
    intro d hd
    obtain ⟨hlo, hhi⟩ := hR.within d hd
    unfold Block.fin heapBlockSize at hhi
    exact header_keep fun x h1 h2 => hsame x (by omega) (by omega)
  exact ⟨hR.pos, hR.top, hR.start, hR.linked.imp fun d hd => (hkeep d hd).1, hR.apart, hR.within,
    fun d hd => (hkeep d hd).2 (hR.prevs d hd)⟩

theorem Arenas.update (hA : Arenas h (rs₁ ++ r :: rs₂)) {l : List Block}
    (hregs : t.regions = h.regions) (hout : SameOutside h.mem t.mem r.lo r.hi)
    (hR : Region t.mem r.lo r.hi l) : Arenas t (rs₁ ++ ⟨r.lo, r.hi, l⟩ :: rs₂) := by
  have hZ := hA.zones
  rw [List.map_append, List.map_cons] at hZ
  have hZ' := hZ.update hregs hout hR.zone
  refine arenas_of_zones (by rwa [List.map_append, List.map_cons]) fun q hq => ?_
  have hap := hA.apart
  simp only [List.pairwise_append, List.pairwise_cons, List.mem_cons, forall_eq_or_imp] at hap
  obtain ⟨_, ⟨hr₂, _⟩, h₁₂⟩ := hap
  rcases List.mem_append.mp hq with hq | hq
  · have := (h₁₂ q hq).1
    exact (hA.region q (by simp [hq])).frame fun x h1 h2 => hout x (by omega)
  · rcases List.mem_cons.mp hq with rfl | hq
    · exact hR
    · have := hr₂ q hq
      exact (hA.region q (by simp [hq])).frame fun x h1 h2 => hout x (by omega)

def bounds (rs : List Arena) : List (Nat × Nat) := rs.map fun r => (r.lo, r.hi)

/-- The first block that fits was used, in the order of the regions and their chains. -/
def FirstCarved (count : Nat) (rs : List Arena) (p : Nat) (u : HeapMem) : Prop :=
  ∃ rs₁ r rs₂ l₁ b l₂, rs = rs₁ ++ r :: rs₂ ∧ r.blocks = l₁ ++ b :: l₂ ∧ (∀ q ∈ rs₁, ∀ d ∈ q.blocks, ¬d.Fits count) ∧
    (∀ d ∈ l₁, ¬d.Fits count) ∧ b.Fits count ∧ p = b.addr + 16 ∧
    Arenas u (rs₁ ++ ⟨r.lo, r.hi, l₁ ++ (b.carve count ++ l₂)⟩ :: rs₂)

theorem FirstCarved.bounds_payloads {count p : Nat} {u : HeapMem} (hc : FirstCarved count rs p u) :
    ∃ rs', Arenas u rs' ∧ bounds rs' = bounds rs ∧ (allPayloads rs').Perm ((p, count) :: allPayloads rs) := by
  obtain ⟨rs₁, r, rs₂, l₁, b, l₂, rfl, hl, -, -, hfits, rfl, hA⟩ := hc
  refine ⟨_, hA, by simp [bounds], ?_⟩
  simp only [allPayloads, List.flatMap_append, List.flatMap_cons, hl, payloads_append, payloads_carve, payloads_free hfits.1]
  exact ((List.perm_middle.append_right _).append_left _).trans List.perm_middle

theorem firstCarved_of_takenFirst {count p : Nat} (hA : Arenas h rs) (ht : TakenFirst count h (rs.map Arena.zone) p t) :
    FirstCarved count rs p t := by
  obtain ⟨zs₁, z, zs₂, k₁, c, k₂, hzs, hcells, hno, hno', htaken⟩ := ht
  obtain ⟨rs₁, rs', rfl, rfl, hrest⟩ := List.map_eq_append_iff.mp hzs
  obtain ⟨r, rs₂, rfl, rfl, rfl⟩ := List.map_eq_cons_iff.mp hrest
  obtain ⟨l₁, l', hl, rfl, hrest⟩ := List.map_eq_append_iff.mp hcells
  obtain ⟨b, l₂, rfl, rfl, rfl⟩ := List.map_eq_cons_iff.mp hrest
  have hR := hA.region r (by simp)
  rw [hl] at hR
  have hcarved := carved_of_taken hR htaken
  refine ⟨rs₁, r, rs₂, l₁, b, l₂, rfl, hl, fun q hq d hd hfits => ?_, fun d hd hfits => ?_, hcarved.fits, hcarved.result,
    hA.update hcarved.regions hcarved.outside hcarved.region⟩
  · exact hno q.zone (List.mem_map_of_mem hq) d.cell (List.mem_map_of_mem hd) (fits_cell.mpr hfits)
  · exact hno' d.cell (List.mem_map_of_mem hd) (fits_cell.mpr hfits)

theorem wp_heapAlloc_first (count : Nat) (hA : Arenas h rs) :
    wp (heapAlloc count) noFault (fun p u => (p = 0 ∧ u = h) ∨ (p ≠ 0 ∧ FirstCarved count rs p u)) h := by
  refine wp_imp (wp_heapAlloc_zones count hA.zones) ?_
  rintro p u (⟨hp, hu, -⟩ | ⟨hp, htaken⟩)
  · exact .inl ⟨hp, hu⟩
  · exact .inr ⟨hp, firstCarved_of_takenFirst hA htaken⟩

theorem wp_heapAlloc (count : Nat) (hA : Arenas h rs) :
    wp (heapAlloc count) noFault
      (fun p u => ∃ rs', Arenas u rs' ∧ bounds rs' = bounds rs ∧
        ((p = 0 ∧ (allPayloads rs').Perm (allPayloads rs)) ∨
          (p ≠ 0 ∧ (allPayloads rs').Perm ((p, count) :: allPayloads rs)))) h := by
  refine wp_imp (wp_heapAlloc_first count hA) ?_
  rintro p u (⟨rfl, rfl⟩ | ⟨hp, hc⟩)
  · exact ⟨rs, hA, rfl, .inl ⟨rfl, .refl _⟩⟩
  · obtain ⟨rs', hA', hbounds, hpay⟩ := hc.bounds_payloads
    exact ⟨rs', hA', hbounds, .inr ⟨hp, hpay⟩⟩

theorem wp_freeFrom {ptr k n i : Nat} {Q : Unit → HeapMem → Prop} (hi : i < n)
    (hstarts : ∀ j ≤ i, h.regions (k + j) ≠ 0) (hptr : h.regions (k + i) < ptr)
    (hsingle : wp (heapFreeSingle ptr) noFault (fun ok t => ok = true ∧ Q () t) h) :
    wp (freeFrom ptr (List.range' k n)) noFault Q h := by
  induction n generalizing k i with
  | zero => omega
  | succ n ih =>
    have h0 := hstarts 0 (Nat.zero_le i)
    rw [Nat.add_zero] at h0
    simp only [List.range'_succ, freeFrom, wp_bind, wp_get, h0, if_false]
    by_cases hk : ptr > h.regions k
    · rw [if_pos hk, wp_bind]
      refine wp_imp hsingle ?_
      rintro _ t ⟨rfl, hQ⟩
      exact hQ
    · rw [if_neg hk]
      cases i with
      | zero => exact absurd hptr hk
      | succ i =>
        have hshift : ∀ j, k + (j + 1) = k + 1 + j := fun j => by omega
        exact ih (by omega) (fun j hj => hshift j ▸ hstarts (j + 1) (by omega)) (hshift i ▸ hptr)

theorem wp_heapFree {l₁ l₂ : List Block} {b : Block} {Q : Unit → HeapMem → Prop}
    (hA : Arenas h (rs₁ ++ r :: rs₂)) (hr : r.blocks = l₁ ++ b :: l₂)
    (hsingle : wp (heapFreeSingle (b.addr + 16)) noFault (fun ok t => ok = true ∧ Q () t) h) :
    wp (heapFree (b.addr + 16)) noFault Q h := by
  have hb := ((hA.region r (by simp)).within b (by simp [hr])).1
  rw [heapFree, if_neg (by omega), List.range_eq_range']
  refine wp_freeFrom hA.start_at.1 (fun j hj => ?_) ?_ hsingle
  · obtain ⟨q, _, hq, hq0⟩ := hA.start_pos (i := j) (by simp; omega)
    rw [Nat.zero_add, hq]
    exact hq0
  · rw [Nat.zero_add, hA.start_at.2]
    omega

theorem wp_free_blocks {l₁ l₂ : List Block} {b : Block} (hA : Arenas h (rs₁ ++ r :: rs₂))
    (hr : r.blocks = l₁ ++ b :: l₂) (hb : b.used = true) (hgood : BackLinkGood h.mem l₁ b) :
    wp (heapFree (b.addr + 16)) noFault (fun _ u => ∃ l, SteppedBack h.mem b.addr (l₁ ++ b.freed.absorb l₂) l ∧
      Arenas u (rs₁ ++ ⟨r.lo, r.hi, l⟩ :: rs₂)) h := by
  have hR := hA.region r (by simp)
  rw [hr] at hR
  refine wp_heapFree hA hr (wp_imp (wp_freeSingle hR hb hgood) ?_)
  rintro ok u ⟨hok, hregs, hout, l, hback, hRl⟩
  exact ⟨hok, l, hback, hA.update hregs hout hRl⟩

theorem wp_free_good {l₁ l₂ : List Block} {b : Block} (hA : Arenas h (rs₁ ++ r :: rs₂))
    (hr : r.blocks = l₁ ++ b :: l₂) (hb : b.used = true) (hgood : BackLinkGood h.mem l₁ b) :
    wp (heapFree (b.addr + 16)) noFault (fun _ u => ∃ rs, Arenas u rs ∧
      bounds rs = bounds (rs₁ ++ r :: rs₂) ∧
      (allPayloads (rs₁ ++ r :: rs₂)).Perm ((b.addr + 16, b.size) :: allPayloads rs)) h := by
  refine wp_imp (wp_free_blocks hA hr hb hgood) ?_
  rintro _ u ⟨l, hback, hA'⟩
  have hpay : payloads l = payloads l₁ ++ payloads l₂ := by
    rw [hback.payloads_eq, payloads_append, payloads_absorb rfl]
  refine ⟨_, hA', by simp [bounds], ?_⟩
  simp only [allPayloads, List.flatMap_append, List.flatMap_cons, hr, hpay, payloads_append,
    payloads_used hb]
  exact ((List.perm_middle.append_right _).append_left _).trans List.perm_middle

theorem wp_joinPrev_total (a : Nat) : wp (joinPrev a) noFault (fun _ _ => True) h := by
  simp only [joinPrev, wp_bind, wp_field]
  split
  · simp only [wp_bind, wp_field]
    split
    · simp only [wp_bind, wp_field, wp_setField]
      split <;> simp
    · simp
  · simp

theorem wp_joinNext_total (a : Nat) : wp (joinNext a) noFault (fun _ _ => True) h := by
  simp only [joinNext, wp_bind, wp_field]
  split
  · simp only [wp_bind, wp_field]
    split
    · simp only [wp_bind, wp_field, wp_setField]
      split <;> simp
    · simp
  · simp

theorem wp_free_total {l₁ l₂ : List Block} {b : Block} (hA : Arenas h (rs₁ ++ r :: rs₂))
    (hr : r.blocks = l₁ ++ b :: l₂) (hb : b.used = true) :
    wp (heapFree (b.addr + 16)) noFault (fun _ _ => True) h := by
  have hR := hA.region r (by simp)
  rw [hr] at hR
  obtain ⟨_, _, _, hhi⟩ := hR.around
  have htop := hR.top
  unfold Block.fin heapBlockSize at hhi
  have hit : sub32 (b.addr + 16) heapBlockSize = b.addr := by
    rw [sub32_of_le (by omega) (by unfold heapBlockSize; omega)]
    rfl
  refine wp_heapFree hA hr ?_
  simp only [heapFreeSingle, hit, wp_bind, wp_field, hR.linked.at_of_append.flags]
  rw [if_pos ⟨flags_magic b, (flags_used b).mpr hb⟩, wp_bind, wp_setField, wp_bind]
  refine wp_imp (wp_joinNext_total _) fun _ _ _ => ?_
  rw [wp_bind]
  exact wp_imp (wp_joinPrev_total _) fun _ _ _ => ⟨rfl, trivial⟩

theorem mmAlignUp_eight {a : Nat} (h : a + 7 < 4294967296) : mmAlignUp a 8 = (a + 7) / 8 * 8 := by
  rw [mmAlignUp, u32_of_lt (by omega)]
  exact and_high_mask (k := 3) (by decide) (by omega)

/-- The bounds given for the regions: each holds a header, and they do not overlap. -/
structure RegionsOk (given : List (Nat × Nat)) : Prop where
  count : given.length ≤ heapMax
  room : ∀ r ∈ given, 0 < r.1 ∧ (r.1 + 7) / 8 * 8 + 16 ≤ r.2 ∧ r.2 < 4294967296
  apart : given.Pairwise fun r q => r.2 ≤ q.1 ∨ q.2 ≤ r.1

theorem wp_addRegionAt {k n start : Nat} (hA : Arenas h rs) (hk : k ≤ rs.length) (hlen : rs.length < k + n)
    (hmax : rs.length < heapMax) :
    wp (addRegionAt start (List.range' k n)) noFault
      (fun _ t => t = { h with regions := Function.update h.regions rs.length start }) h := by
  induction n generalizing k with
  | zero => omega
  | succ n ih =>
    rw [List.range'_succ, addRegionAt, wp_bind, wp_get]
    by_cases hkl : k = rs.length
    · subst hkl
      rw [if_pos (hA.start_none hmax le_rfl)]
      simp
    · obtain ⟨q, _, hq, hq0⟩ := hA.start_pos (i := k) (by omega)
      rw [if_neg (by rw [hq]; exact hq0)]
      exact ih (by omega) (by omega)

def freshArena (r : Nat × Nat) : Arena :=
  ⟨(r.1 + 7) / 8 * 8, r.2, [⟨(r.1 + 7) / 8 * 8, r.2 - (r.1 + 7) / 8 * 8 - 16, false⟩]⟩

theorem Arenas.append (hA : Arenas h rs) (hmax : rs.length < heapMax) (hmem : t.mem = h.mem)
    (hR : Region t.mem r.lo r.hi r.blocks)
    (hregs : t.regions = Function.update h.regions rs.length r.lo)
    (hapart : ∀ q ∈ rs, q.hi ≤ r.lo ∨ r.hi ≤ q.lo) : Arenas t (rs ++ [r]) := by
  obtain ⟨hregion, hap, hcount, hstarts⟩ := hA
  refine ⟨fun q hq => ?_, ?_, by simpa using hmax, fun i hi => ?_⟩
  · rcases List.mem_append.mp hq with hq | hq
    · rw [hmem]
      exact hregion q hq
    · rw [List.mem_singleton.mp hq]
      exact hR
  · simpa [List.pairwise_append, hap] using hapart
  · rw [hregs]
    by_cases hlen : i = rs.length
    · subst hlen
      simp
    · rw [Function.update_of_ne hlen, hstarts i hi]
      by_cases hlt : i < rs.length
      · simp [List.getElem?_append, hlt]
      · rw [List.getD_eq_default _ _ (by simpa using hlt), List.getD_eq_default _ _ (by simp; omega)]

theorem wp_addRegion {a b : Nat} (hA : Arenas h rs) (hmax : rs.length < heapMax) (ha : 0 < a)
    (hab : (a + 7) / 8 * 8 + 16 ≤ b) (hb : b < 4294967296)
    (hapart : ∀ q ∈ rs, q.hi ≤ (a + 7) / 8 * 8 ∨ b ≤ q.lo) :
    wp (heapAddRegion a b) noFault (fun _ t => Arenas t (rs ++ [freshArena (a, b)])) h := by
  have hmagic : heapMagic < 4294967296 := by decide
  rw [heapAddRegion, mmAlignUp_eight (by omega)]
  have hlo : 0 < (a + 7) / 8 * 8 := by omega
  unfold freshArena
  generalize (a + 7) / 8 * 8 = lo at *
  simp (disch := omega) only [wp_bind, wp_setField, offFlags, offSize, offPrev, offNext, Nat.add_zero,
    heapBlockSize, sub32_of_le, List.range_eq_range']
  set m := store32 (store32 (store32 (store32 h.mem lo heapMagic) (lo + 4) (b - lo - 16)) (lo + 8) 0)
    (lo + 12) 0 with hm
  have hout : SameOutside h.mem m lo b := fun x hx => by
    simp (disch := omega) only [hm, store32_apply_of_outside]
  have hA' : Arenas ⟨m, h.regions⟩ rs := by
    refine ⟨fun q hq => ?_, hA.apart, hA.count, hA.starts⟩
    have := hapart q hq
    exact (hA.region q hq).frame fun x h1 h2 => hout x (by omega)
  refine wp_imp (wp_addRegionAt hA' (Nat.zero_le _) (by simpa using hmax) hmax) ?_
  rintro _ t rfl
  refine hA'.append hmax rfl ⟨hlo, hb, rfl, ⟨⟨?_, ?_, ?_⟩, trivial⟩, ?_, ?_, ?_⟩ rfl hapart
  · simp (disch := omega) only [hm, offFlags, Nat.add_zero, load32_store32, load32_store32_of_disjoint]
    rfl
  · simp (disch := omega) only [hm, offSize, load32_store32, load32_store32_of_disjoint]
  · simp (disch := omega) only [hm, offNext, load32_store32, first_nil]
  · exact List.pairwise_singleton _ _
  · simp only [List.mem_singleton, forall_eq, Block.fin, heapBlockSize]
    omega
  · simp only [List.mem_singleton, forall_eq, PrevBelow, prevAt]
    left
    simp (disch := omega) only [hm, offPrev, load32_store32, load32_store32_of_disjoint]

end YggKernel.Heap
