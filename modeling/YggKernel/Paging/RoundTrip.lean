import YggKernel.Paging.Frames

namespace YggKernel.Paging

open Lib.Program Lib.ByteMemory Lib.BitWords Lib.Masks Lib.Runs Phys Pool

/-- From the one state to the other the tables of a space have only become more, each out of a page that was free. -/
structure TablesCame (s t : Machine) (pd : Nat) : Prop where
  kept : ∀ k < 1023, HasTable s pd k → HasTable t pd k ∧ tableOf t pd k = tableOf s pd k
  fresh : ∀ k < 1023, HasTable t pd k → ¬HasTable s pd k →
    ∃ n < 1024, tableOf t pd k = poolPage n ∧ bit (s.pools 0).bitmap n = false
  pool : ∀ n < 1024, bit (t.pools 0).bitmap n = true ↔
    bit (s.pools 0).bitmap n = true ∨ ∃ k < 1023, HasTable t pd k ∧ ¬HasTable s pd k ∧ tableOf t pd k = poolPage n

section Tables

variable {s t u : Machine} {spaces : List Nat} {owner : Owner} {pd k j e n : Nat}

theorem TablesCame.same (hpools : t.pools = s.pools)
    (hsame : ∀ k < 1023, (HasTable t pd k ↔ HasTable s pd k) ∧ (HasTable s pd k → tableOf t pd k = tableOf s pd k)) : TablesCame s t pd := by
  refine ⟨fun k hk hhas => ⟨(hsame k hk).1.mpr hhas, (hsame k hk).2 hhas⟩, fun k hk hhas hno => absurd ((hsame k hk).1.mp hhas) hno,
    fun n _ => ⟨fun hset => .inl ?_, fun hor => ?_⟩⟩
  · rwa [hpools] at hset
  · rcases hor with hset | ⟨k, hk, hhas, hno, _⟩
    · rwa [hpools]
    · exact absurd ((hsame k hk).1.mp hhas) hno

theorem TablesCame.refl (s : Machine) (pd : Nat) : TablesCame s s pd := .same rfl fun _ _ => ⟨Iff.rfl, fun _ => rfl⟩

theorem TablesCame.trans (h : TablesCame s t pd) (h' : TablesCame t u pd) : TablesCame s u pd := by
  refine ⟨fun k hk hhas => ?_, fun k hk hhas hno => ?_, fun n hn => ?_⟩
  · obtain ⟨hmid, htab⟩ := h.kept k hk hhas
    obtain ⟨hlast, htab'⟩ := h'.kept k hk hmid
    exact ⟨hlast, htab'.trans htab⟩
  · by_cases hmid : HasTable t pd k
    · rw [(h'.kept k hk hmid).2]
      exact h.fresh k hk hmid hno
    · obtain ⟨n, hn, htab, hclear⟩ := h'.fresh k hk hhas hmid
      refine ⟨n, hn, htab, ?_⟩
      by_contra hset
      rw [(h.pool n hn).mpr (.inl (by simpa using hset))] at hclear
      cases hclear
  · rw [h'.pool n hn, h.pool n hn]
    constructor
    · rintro ((hset | ⟨k, hk, hhas, hno, htab⟩) | ⟨k, hk, hhas, hno, htab⟩)
      · exact .inl hset
      · obtain ⟨hlast, htab'⟩ := h'.kept k hk hhas
        exact .inr ⟨k, hk, hlast, hno, htab'.trans htab⟩
      · exact .inr ⟨k, hk, hhas, fun hfirst => hno (h.kept k hk hfirst).1, htab⟩
    · rintro (hset | ⟨k, hk, hhas, hno, htab⟩)
      · exact .inl (.inl hset)
      · by_cases hmid : HasTable t pd k
        · exact .inl (.inr ⟨k, hk, hmid, hno, (h'.kept k hk hmid).2 ▸ htab⟩)
        · exact .inr ⟨k, hk, hhas, hmid, htab⟩

variable (h : Tree s spaces owner) (hpd : pd ∈ spaces) (hk : k < 1023)
include h hpd hk

theorem SlotChange.tables (hc : SlotChange s t owner pd k) {k' : Nat} (hk' : k' < 1023) (hne : k' ≠ k) :
    (HasTable t pd k' ↔ HasTable s pd k') ∧ tableOf t pd k' = tableOf s pd k' := by
  have hsame := hc.slotSame h hpd hk hpd (show k' < 1024 by omega) fun hh => hne hh.2
  exact ⟨hsame.hasTable, hsame.tableOf_eq⟩

end Tables

structure RangeChanged (spaces : List Nat) (s : Machine) (pd start i : Nat) (t : Machine) : Prop where
  neat : Neat spaces t
  info : infoOf t pd = infoOf s pd
  framed : Framed s t
  others : ∀ a < 4294967296, (∀ i' < i, a / 4096 ≠ page start i' / 4096) → translation t pd a = translation s pd a
  spaces : ∀ pd' ∈ spaces, pd' ≠ pd → ∀ k < 1024, SlotSame s t pd' k

section Changes

variable {s t u v : Machine} {spaces : List Nat} {owner : Owner} {pd start count flags i k n p f : Nat}

theorem RangeChanged.refl (h : Neat spaces s) (pd start : Nat) : RangeChanged spaces s pd start 0 s :=
  ⟨h, rfl, Framed.refl s, fun _ _ _ => rfl, fun pd' _ _ k _ => SlotSame.refl s pd' k⟩

theorem RangeChanged.step (h : RangeChanged spaces s pd start i t) (hpd : pd ∈ spaces) {q : PhysAlloc} (ht : Tree { t with phys := q } spaces owner)
    (hk : k < 1023) (hc : SlotChange { t with phys := q } u owner pd k) (hneat : Neat spaces u) (hinfo : infoOf u pd = infoOf t pd)
    (hothers : ∀ a < 4294967296, a / 4096 ≠ page start i / 4096 → translation u pd a = translation t pd a) :
    RangeChanged spaces s pd start (i + 1) u := by
  have hframed : Framed t u := ⟨hc.framed.mem, hc.framed.cr3, hc.framed.mmKernel, hc.framed.paddr⟩
  refine ⟨hneat, hinfo.trans h.info, h.framed.trans hframed, fun a ha hne => ?_, fun pd' hpd' hne k' hk' => ?_⟩
  · rw [hothers a ha (hne i (Nat.lt_succ_self i))]
    exact h.others a ha fun i' hi' => hne i' (by omega)
  · have hsame := hc.slotSame ht hpd hk hpd' hk' fun hh => hne hh.1
    exact (h.spaces pd' hpd' hne k' hk').trans ⟨hsame.word, hsame.info, hsame.table⟩

structure RangeTaken (spaces : List Nat) (s : Machine) (pd start i : Nat) (t : Machine) : Prop extends
    RangeChanged spaces s pd start i t where
  tables : TablesCame t s pd
  gone : ∀ i' < i, translation t pd (page start i') = none
  frames : ∀ n, bit t.phys.bitmap n = true ↔
    bit s.phys.bitmap n = true ∧ ∀ i' < i, ∀ p f, translation s pd (page start i') = some (p, f) → p / 4096 ≠ n
  once : ∀ i1 < i, ∀ i2 < i, ∀ p1 p2 f1 f2, translation s pd (page start i1) = some (p1, f1) →
    translation s pd (page start i2) = some (p2, f2) → p1 / 4096 = p2 / 4096 → i1 = i2

theorem rights_small (e : Nat) : (e &&& (mmFlgUs ||| mmFlgWr)) / 128 % 2 = 0 := by
  have hle : e &&& (mmFlgUs ||| mmFlgWr) ≤ mmFlgUs ||| mmFlgWr := Nat.and_le_right
  have hrights : mmFlgUs ||| mmFlgWr = 6 := by decide
  omega

end Changes

section Mapped

variable {s t : Machine} {spaces : List Nat} {pd k a p f : Nat}

theorem small_of_table (hhas : HasTable s pd (a / 4194304)) (hmaps : translation s pd a = some (p, f)) : f / 128 % 2 = 0 := by
  obtain ⟨hpr, hps⟩ := hhas
  unfold translation slotAt at hmaps
  rw [if_neg (by omega), if_neg (by omega), Slot.translate, leaf] at hmaps
  split at hmaps
  · cases hmaps
  · obtain ⟨_, rfl⟩ := Prod.mk.inj (Option.some.inj hmaps)
    exact rights_small _

theorem hasTable_iff_mapped (h : Sound spaces s) (htallied : Tallied s pd k) (hpd : pd ∈ spaces) (hk : k < 1023) :
    HasTable s pd k ↔ ∃ a < 4294967296, a / 4194304 = k ∧ ∃ p f, translation s pd a = some (p, f) ∧ f / 128 % 2 = 0 := by
  obtain ⟨owner, ht⟩ := h.tree
  constructor
  · intro hhas
    have hpos := (((ht.spaces pd hpd).slots k hk).counted (hhas.counted ht hpd hk)).2
    rw [htallied.count hhas] at hpos
    obtain ⟨j, hj⟩ := Finset.card_pos.mp hpos
    obtain ⟨hlt, hodd⟩ := mem_presentAt.mp hj
    have hslot : (4194304 * k + 4096 * j) / 4194304 = k := by omega
    have hmaps : translation s pd (4194304 * k + 4096 * j) ≠ none := by
      have htable : slotAt s pd k = .table (entriesAt s (tableOf s pd k)) := by
        have h1 := hhas.1
        have h2 := hhas.2
        unfold slotAt
        rw [if_neg (by omega), if_neg (by omega)]
      rw [translation_table htable hslot (show (4194304 * k + 4096 * j) / 4096 % 1024 = j by omega), entriesAt, if_pos hlt]
      exact leaf_ne_none (by omega) _
    obtain ⟨r, hr⟩ := Option.ne_none_iff_exists'.mp hmaps
    rw [← hslot] at hhas
    exact ⟨_, by omega, hslot, r.1, r.2, hr, small_of_table hhas hr⟩
  · rintro ⟨a, _, rfl, p, f, hmaps, hf⟩
    exact (entry_of_translation hmaps hf).1

theorem translation_page_none (hnone : translation s pd (4096 * (a / 4096)) = none) : translation s pd a = none := by
  by_contra hmaps
  obtain ⟨r, hr⟩ := Option.ne_none_iff_exists'.mp hmaps
  obtain ⟨_, hstart, _⟩ := translation_start hr
  rw [hnone] at hstart
  cases hstart

end Mapped

/-- What unmapping the pages of a range leaves: the frames of these pages are free again, each was freed once, and
the tables that no page is left behind are back in the pool. -/
structure UmapResult (spaces : List Nat) (s t : Machine) (pd start count : Nat) : Prop where
  gone : ∀ a < 4294967296, ∀ i < count, a / 4096 = page start i / 4096 → walk t pd a = none
  others : ∀ a < 4294967296, (∀ i < count, a / 4096 ≠ page start i / 4096) → walk t pd a = walk s pd a
  spaces : ∀ pd' ∈ spaces, pd' ≠ pd → ∀ a < 4294967296, walk t pd' a = walk s pd' a
  frames : ∀ n, bit t.phys.bitmap n = true ↔
    bit s.phys.bitmap n = true ∧ ∀ i < count, ∀ p f, walk s pd (page start i) = some (p, f) → p / 4096 ≠ n
  once : ∀ i1 < count, ∀ i2 < count, ∀ p1 p2 f1 f2, walk s pd (page start i1) = some (p1, f1) →
    walk s pd (page start i2) = some (p2, f2) → p1 / 4096 = p2 / 4096 → i1 = i2
  tables : ∀ n < 1024, bit (t.pools 0).bitmap n = true ↔ bit (s.pools 0).bitmap n = true ∧
    ∀ k < 1023, HasTable s pd k → tableOf s pd k = poolPage n → ∃ a < 4294967296, a / 4194304 = k ∧ walk t pd a ≠ none
  memory : ∀ x, ¬InPaging s x → t.mem x = s.mem x

section Results

variable {s t : SpaceState} {u v : Machine} {pd start count flags r : Nat} {r' : Int}

theorem RangeTaken.result {s t : Machine} {spaces : List Nat} (h : Neat spaces s) (hpd : pd ∈ spaces) (haligned : start &&& 0xFFF = 0)
    (ht : RangeTaken spaces s pd start count t) : UmapResult spaces s t pd start count := by
  obtain ⟨owner, hs⟩ := h.1.tree
  obtain ⟨owner', htree⟩ := ht.neat.1.tree
  have hws : ∀ {pd' a}, pd' ∈ spaces → a < 4294967296 → walk s pd' a = translation s pd' a := fun hpd' ha => walk_translation hs hpd' ha
  have hwt : ∀ {pd' a}, pd' ∈ spaces → a < 4294967296 → walk t pd' a = translation t pd' a := fun hpd' ha => walk_translation htree hpd' ha
  have hgone : ∀ a < 4294967296, ∀ i < count, a / 4096 = page start i / 4096 → translation t pd a = none := by
    intro a ha i hi hpage
    refine translation_page_none ?_
    have hmod := page_aligned haligned i
    rw [hpage, show 4096 * (page start i / 4096) = page start i by omega]
    exact ht.gone i hi
  refine ⟨fun a ha i hi hpage => (hwt hpd ha).trans (hgone a ha i hi hpage), fun a ha hne => ?_, fun pd' hpd' hne a ha => ?_, fun n => ?_,
    fun i1 h1 i2 h2 p1 p2 f1 f2 hp1 hp2 heq => ?_, fun n hn => ?_, ht.framed.mem⟩
  · rw [hwt hpd ha, hws hpd ha]
    exact ht.others a ha hne
  · rw [hwt hpd' ha, hws hpd' ha]
    exact (ht.spaces pd' hpd' hne _ (by omega)).translation_eq
  · rw [ht.frames n]
    refine and_congr_right fun _ => forall₂_congr fun i _ => ?_
    rw [hws hpd (page_lt start i)]
  · rw [hws hpd (page_lt start _)] at hp1 hp2
    exact ht.once i1 h1 i2 h2 p1 p2 f1 f2 hp1 hp2 heq
  · -- a slot keeps its table exactly when a page is still mapped behind it
    have hleft : ∀ k < 1023, HasTable s pd k → (HasTable t pd k ↔ ∃ a < 4294967296, a / 4194304 = k ∧ walk t pd a ≠ none) := by
      intro k hk hhas
      rw [hasTable_iff_mapped ht.neat.1 (ht.neat.2.tallied pd hpd k hk) hpd hk]
      refine exists_congr fun a => and_congr_right fun ha => and_congr_right fun hslot => ?_
      rw [hwt hpd ha]
      constructor
      · rintro ⟨p, f, hmaps, _⟩
        rw [hmaps]
        exact Option.some_ne_none _
      · intro hne
        obtain ⟨r, hr⟩ := Option.ne_none_iff_exists'.mp hne
        have hout : ∀ i < count, a / 4096 ≠ page start i / 4096 := fun i hi heq => hne (hgone a ha i hi heq)
        refine ⟨r.1, r.2, hr, small_of_table (hslot ▸ hhas) ((ht.others a ha hout).symm.trans hr)⟩
    rw [ht.tables.pool n hn]
    constructor
    · intro hset
      refine ⟨.inl hset, fun k hk hhas htab => (hleft k hk hhas).mp ?_⟩
      by_contra hno
      obtain ⟨m, _, htab', hclear⟩ := ht.tables.fresh k hk hhas hno
      obtain rfl := poolPage_inj (htab'.symm.trans htab)
      rw [hset] at hclear
      cases hclear
    · rintro ⟨hset | ⟨k, hk, hhas, hno, htab⟩, hall⟩
      · exact hset
      · exact absurd ((hleft k hk hhas).mpr (hall k hk hhas htab)) hno

end Results

end YggKernel.Paging
