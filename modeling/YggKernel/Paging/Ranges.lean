import YggKernel.Paging.System

namespace YggKernel.Paging

open Lib.Program Lib.ByteMemory Lib.BitWords Lib.Masks Lib.Runs Phys Pool

def pageSize (flags : Nat) : Nat := if flags &&& mmFlgPs ≠ 0 then 0x400000 else 0x1000

def seenFlags (flags : Nat) : Nat := flags &&& (mmFlgUs ||| mmFlgWr ||| mmFlgPs)

/-- Each byte of the first pages of a range leads to the same byte of its page. -/
def MapsTo (t : Machine) (pd start : Nat) (pages : Nat → Nat) (flags count : Nat) : Prop :=
  ∀ i < count, ∀ off < pageSize flags,
    translation t pd (start + i * pageSize flags + off) = some (pages i + off, seenFlags flags)

section Flags

variable {p flags : Nat}

theorem seenFlags_small (h : flags &&& mmFlgPs = 0) : seenFlags flags = flags &&& (mmFlgUs ||| mmFlgWr) := by
  unfold seenFlags
  rw [Nat.and_or_distrib_left, h, Nat.or_zero]

theorem seenFlags_huge (h : flags &&& mmFlgPs ≠ 0) : seenFlags flags = (flags &&& (mmFlgUs ||| mmFlgWr)) ||| mmFlgPs := by
  have hset : flags &&& mmFlgPs = mmFlgPs := by
    have hpow : flags &&& mmFlgPs = (flags.testBit 7).toNat * 2 ^ 7 := Nat.and_two_pow flags 7
    cases hbit : flags.testBit 7 with
    | true => rw [hpow, hbit]; rfl
    | false =>
      rw [hbit, Bool.toNat_false, Nat.zero_mul] at hpow
      exact absurd hpow h
  unfold seenFlags
  rw [Nat.and_or_distrib_left, hset]

theorem leafFlags_seen (hp : p % 4096 = 0) : (p ||| leafFlags flags) &&& (mmFlgUs ||| mmFlgWr) = flags &&& (mmFlgUs ||| mmFlgWr) := by
  have hsmall : ∀ f < 2 ^ 3, leafFlags f &&& (mmFlgUs ||| mmFlgWr) = f &&& (mmFlgUs ||| mmFlgWr) := by decide
  have hlt := leafFlags_lt flags
  have hmask : mmFlgUs ||| mmFlgWr < 2 ^ 3 := by decide
  have hlow : (p + leafFlags flags) % 2 ^ 3 = leafFlags flags := by omega
  rw [page_or hp (hlt.trans (by decide)), and_mod_two_pow hmask, hlow, leafFlags_eq, hsmall _ (Nat.mod_lt _ (by decide)),
    ← and_mod_two_pow hmask]

def hugeFlags (flags : Nat) : Nat := (flags &&& (mmFlgWr ||| mmFlgUs)) ||| x86MmFlgPs ||| x86MmFlgPr

theorem hugeFlags_eq (flags : Nat) : hugeFlags flags = hugeFlags (flags % 2 ^ 3) := by
  unfold hugeFlags
  rw [and_mod_two_pow (show mmFlgWr ||| mmFlgUs < 2 ^ 3 by decide)]

theorem hugeFlags_small (flags : Nat) : hugeFlags flags < 4096 := by
  have h : ∀ f < 8, hugeFlags f < 4096 := by decide
  rw [hugeFlags_eq]
  exact h _ (Nat.mod_lt _ (by decide))

theorem hugeFlags_odd (flags : Nat) : hugeFlags flags % 2 = 1 := by
  have h : ∀ f < 8, hugeFlags f % 2 = 1 := by decide
  rw [hugeFlags_eq]
  exact h _ (Nat.mod_lt _ (by decide))

theorem hugeFlags_seen (hp : p % 4194304 = 0) : (p ||| hugeFlags flags) &&& (mmFlgUs ||| mmFlgWr) = flags &&& (mmFlgUs ||| mmFlgWr) := by
  have hsmall : ∀ f < 2 ^ 3, hugeFlags f % 2 ^ 3 &&& (mmFlgUs ||| mmFlgWr) = f &&& (mmFlgUs ||| mmFlgWr) := by decide
  have hlt := hugeFlags_small flags
  have hmask : mmFlgUs ||| mmFlgWr < 2 ^ 3 := by decide
  have hlow : (p + hugeFlags flags) % 2 ^ 3 = hugeFlags flags % 2 ^ 3 := by omega
  rw [page_or (by omega) hlt, and_mod_two_pow hmask, hlow, hugeFlags_eq, hsmall _ (Nat.mod_lt _ (by decide)),
    ← and_mod_two_pow hmask]

end Flags

section OnePage

variable {s t : Machine} {spaces : List Nat} {owner : Owner} {pd start i j e a flags : Nat} {pages : Nat → Nat}

theorem Mapped.translation_keep (h : Tree s spaces owner) (hpd : pd ∈ spaces) (hk : a / 4194304 < 1023) (hj : j < 1024)
    (hm : Mapped s t pd (a / 4194304) j e) (hne : a / 4096 % 1024 ≠ j) (hsome : translation s pd a ≠ none) :
    translation t pd a = translation s pd a := by
  cases hm with
  | new n habsent _ => exact absurd (translation_absent (if_pos habsent) rfl) hsome
  | old hpr hps hroom hc =>
    have hinfo := (((h.spaces pd hpd).slots _ hk).entry hpr hps).1
    have hbefore : slotAt s pd (a / 4194304) = .table (entriesAt s (tableOf s pd (a / 4194304))) := by
      unfold slotAt
      rw [if_neg (by omega), if_neg (by omega)]
    have hafter := hc.slotAt_eq h hpd hk hinfo (by omega) hj hpr hps
    rw [translation_table hbefore rfl rfl, translation_table hafter rfl rfl, Function.update_of_ne hne]

theorem MapsTo.mapped (h : Tree s spaces owner) (hpd : pd ∈ spaces) (hsmall : flags &&& mmFlgPs = 0) (hstart : start % 4096 = 0)
    (hend : start + (i + 1) * 4096 ≤ 0xFFC00000) (hpage : pages i % 4096 = 0 ∧ pages i < 4294967296)
    (hmaps : MapsTo s pd start pages flags i)
    (hm : Mapped s t pd ((start + i * 4096) / 4194304) ((start + i * 4096) / 4096 % 1024) (pages i ||| leafFlags flags)) :
    MapsTo t pd start pages flags (i + 1) := by
  have hsize : pageSize flags = 4096 := if_neg (not_not.mpr hsmall)
  have hk : (start + i * 4096) / 4194304 < 1023 := by omega
  unfold MapsTo at hmaps ⊢
  rw [hsize] at hmaps ⊢
  intro i' hi' off hoff
  rcases Nat.lt_succ_iff_lt_or_eq.mp hi' with hlt | rfl
  · have hbefore := hmaps i' hlt off hoff
    have hpages : i' * 4096 + off < i * 4096 := by omega
    by_cases hslot : (start + i' * 4096 + off) / 4194304 = (start + i * 4096) / 4194304
    · rw [← hslot] at hm
      rw [hm.translation_keep h hpd (by omega) (Nat.mod_lt _ (by decide)) (by omega)
        (by rw [hbefore]; exact Option.some_ne_none _), hbefore]
    · rw [(hm.slotChange h hpd hk).translation_eq h hpd hk hpd (by omega) fun hh => hslot hh.2, hbefore]
  · have hslot : (start + i' * 4096) / 4194304 = (start + i' * 4096 + off) / 4194304 := by omega
    have hindex : (start + i' * 4096) / 4096 % 1024 = (start + i' * 4096 + off) / 4096 % 1024 := by omega
    have hlow := leafFlags_lt flags
    have hentry : pages i' ||| leafFlags flags = pages i' + leafFlags flags := page_or hpage.1 (hlow.trans (by decide))
    rw [hslot, hindex] at hm
    rw [hm.translation_eq h hpd (by omega) (entry_lt _ hpage.2) (or_odd (leafFlags_odd flags)), leafFlags_seen hpage.1,
      seenFlags_small hsmall, hentry]
    refine congrArg some (Prod.ext ?_ rfl)
    show (pages i' + leafFlags flags) / 4096 * 4096 + (start + i' * 4096 + off) % 4096 = pages i' + off
    omega

theorem MapsTo.dirSet (h : Tree s spaces owner) (hpd : pd ∈ spaces) (hhuge : flags &&& mmFlgPs ≠ 0) (hstart : start % 4194304 = 0)
    (hend : start + (i + 1) * 4194304 ≤ 0xFFC00000) (hpage : pages i % 4194304 = 0 ∧ pages i < 4294967296)
    (hmaps : MapsTo s pd start pages flags i)
    (hc : DirSet s t pd (start / 4194304 + i) (pages i ||| hugeFlags flags)) : MapsTo t pd start pages flags (i + 1) := by
  have hsize : pageSize flags = 4194304 := if_pos hhuge
  have hk : start / 4194304 + i < 1023 := by omega
  unfold MapsTo at hmaps ⊢
  rw [hsize] at hmaps ⊢
  intro i' hi' off hoff
  rcases Nat.lt_succ_iff_lt_or_eq.mp hi' with hlt | rfl
  · rw [hc.slotChange.translation_eq h hpd hk hpd (by omega) (by omega)]
    exact hmaps i' hlt off hoff
  · have hslot : (start + i' * 4194304 + off) / 4194304 = start / 4194304 + i' := by omega
    have hodd := or_odd (p := pages i') (hugeFlags_odd flags)
    have hbit : (pages i' ||| hugeFlags flags) / 128 % 2 = 1 := or_huge (hugeFlags_huge flags)
    have hlow := hugeFlags_small flags
    have hlt : pages i' ||| hugeFlags flags < 4294967296 := Nat.or_lt_two_pow (n := 32) hpage.2 (hlow.trans (by decide))
    have hentry : pages i' ||| hugeFlags flags = pages i' + hugeFlags flags := page_or (by omega) hlow
    have hword := hc.entry_eq h hpd (by omega)
    unfold translation slotAt
    rw [hslot, hword, if_neg (by omega), if_pos hbit, huge_eq hlt, hugeFlags_seen hpage.1, seenFlags_huge hhuge, hentry]
    refine congrArg some (Prod.ext ?_ rfl)
    show (pages i' + hugeFlags flags) / 4194304 * 4194304 + (start + i' * 4194304 + off) % 4194304 = pages i' + off
    omega

end OnePage

section Calls

variable {s t : Machine} {spaces : List Nat} {owner : Owner} {pd start count flags : Nat} {pages : Nat → Nat}

theorem mapsTo_zero : MapsTo s pd start pages flags 0 := fun _ hi => absurd hi (Nat.not_lt_zero _)

structure InRange (start count flags : Nat) (pages : Nat → Nat) : Prop where
  aligned : start % pageSize flags = 0
  inside : start + count * pageSize flags ≤ 0xFFC00000
  pages : ∀ i < count, pages i % pageSize flags = 0 ∧ pages i < 4294967296

def Mapping (spaces : List Nat) (pd info start : Nat) (pages : Nat → Nat) (flags i : Nat) (t : Machine) : Prop :=
  (∃ owner, Tree t spaces owner) ∧ infoOf t pd = info ∧ MapsTo t pd start pages flags i

theorem Mapping.mapped {info i : Nat} (hm : Mapping spaces pd info start pages flags i s) (hpd : pd ∈ spaces)
    (hr : InRange start count flags pages) (hsmall : flags &&& mmFlgPs = 0) (hi : i < count)
    (hc : Mapped s t pd ((start + i * 4096) / 4194304) ((start + i * 4096) / 4096 % 1024) (pages i ||| leafFlags flags)) :
    Mapping spaces pd info start pages flags (i + 1) t := by
  obtain ⟨⟨owner, h⟩, hinfo, hmaps⟩ := hm
  have hsize : pageSize flags = 4096 := if_neg (not_not.mpr hsmall)
  have haligned := hr.aligned
  have hinside := hr.inside
  have hpage := hr.pages i hi
  rw [hsize] at haligned hinside hpage
  have hk : (start + i * 4096) / 4194304 < 1023 := by omega
  have hround := (Nat.add_le_add_left (Nat.mul_le_mul_right 4096 (Nat.succ_le_of_lt hi)) start).trans hinside
  obtain ⟨owner', h', _⟩ := hc.tree h hpd hk
  refine ⟨⟨owner', h'⟩, ?_, hmaps.mapped h hpd hsmall haligned hround hpage hc⟩
  rw [(hc.slotChange h hpd hk).infoOf_eq h hpd hpd hk, hinfo]

theorem Mapping.dirSet {info i : Nat} (hm : Mapping spaces pd info start pages flags i s) (hpd : pd ∈ spaces)
    (hr : InRange start count flags pages) (hhuge : flags &&& mmFlgPs ≠ 0) (hi : i < count)
    (hc : DirSet s t pd (start / 4194304 + i) (pages i ||| hugeFlags flags)) :
    Mapping spaces pd info start pages flags (i + 1) t := by
  obtain ⟨⟨owner, h⟩, hinfo, hmaps⟩ := hm
  have hsize : pageSize flags = 4194304 := if_pos hhuge
  have haligned := hr.aligned
  have hinside := hr.inside
  have hpage := hr.pages i hi
  rw [hsize] at haligned hinside hpage
  have hk : start / 4194304 + i < 1023 := by omega
  have hround := (Nat.add_le_add_left (Nat.mul_le_mul_right 4194304 (Nat.succ_le_of_lt hi)) start).trans hinside
  have h' := hc.tree h hpd hk (.inr (or_huge (hugeFlags_huge flags)))
  refine ⟨⟨owner, h'⟩, ?_, hmaps.dirSet h hpd hhuge haligned hround hpage hc⟩
  rw [hc.slotChange.infoOf_eq h hpd hpd hk, hinfo]

theorem wp_hugeRound {k e : Nat} {Q : Unit → Machine → Prop} (h : Tree s spaces owner) (hpd : pd ∈ spaces) (hk : k < 1024)
    (he : e < 4294967296) (hQ : ∀ t, DirSet s t pd k e → Q () t) :
    wp (do
      kassert ((← entry pd k) &&& x86MmFlgPr = 0) "!(pd[(start >> 22) + i] & X86_MM_FLG_PR)"
      setEntry pd k e) anyFault Q s := by
  have hdir := h.dirPage hpd
  rw [wp_bind, wp_entry h.geometry hdir hk, wp_bind, wp_kassert]
  refine ⟨fun _ => ?_, fun _ => trivial⟩
  rw [wp_setEntry h.geometry _ hdir hk]
  exact hQ _ (dirSet_setWord h.geometry hdir hk he)

theorem wp_mapRangePages (h : Tree s spaces owner) (hpd : pd ∈ spaces) (hr : InRange start count flags pages) :
    wp (mmMapRangePages pd start pages count flags) anyFault
      (fun _ t => Mapping spaces pd (infoOf s pd) start pages flags count t) s := by
  have haligned := hr.aligned
  have hinside := hr.inside
  have hstart : Mapping spaces pd (infoOf s pd) start pages flags 0 s := ⟨⟨owner, h⟩, rfl, mapsTo_zero⟩
  rw [mmMapRangePages, wp_bind, wp_kassert]
  refine ⟨fun _ => ?_, fun _ => trivial⟩
  by_cases hhuge : flags &&& mmFlgPs ≠ 0
  · have hsize : pageSize flags = 4194304 := if_pos hhuge
    rw [hsize] at hinside
    rw [if_pos hhuge, wp_bind]
    refine wp_forUp (Mapping spaces pd (infoOf s pd) start pages flags) _ hstart (fun i t _ hi hm => ?_) fun t hm => ?_
    · obtain ⟨owner', h'⟩ := hm.1
      have hlt := Nat.or_lt_two_pow (n := 32) (hr.pages i (by omega)).2 (hugeFlags_lt flags)
      rw [slot_of]
      exact wp_hugeRound h' hpd (by omega) hlt fun u hc => hm.dirSet hpd hr hhuge (by omega) hc
    · rwa [Nat.zero_add] at hm
  · have hsize : pageSize flags = 4096 := if_neg hhuge
    rw [hsize] at hinside
    rw [if_neg hhuge, wp_bind, wp_entry h.geometry (h.dirPage hpd) (by decide), wp_bind]
    refine wp_forUp (Mapping spaces pd (infoOf s pd) start pages flags) _ hstart (fun i t _ hi hm => ?_) fun t hm => ?_
    · obtain ⟨owner', h'⟩ := hm.1
      have haddr : u32 (start + i * 4096) = start + i * 4096 := u32_of_lt (by omega)
      have hinfo : word s pd 1023 = infoOf t pd := hm.2.1.symm
      rw [haddr, hinfo]
      exact wp_mapPagesPage flags h' hpd rfl (by omega) rfl (hr.pages i (by omega)).2 (fun _ _ _ => trivial) (fun _ _ => trivial)
        fun u hc => hm.mapped hpd hr (not_not.mp hhuge) (by omega) hc
    · rwa [Nat.zero_add] at hm

theorem wp_mapRangeLinear {pstart : Nat} (h : Tree s spaces owner) (hpd : pd ∈ spaces)
    (hr : InRange start count flags fun i => u32 (pstart + i * pageSize flags)) :
    wp (mmMapRangeLinear pd start pstart count flags) anyFault
      (fun _ t => Mapping spaces pd (infoOf s pd) start (fun i => u32 (pstart + i * pageSize flags)) flags count t) s := by
  have haligned := hr.aligned
  have hinside := hr.inside
  have hstart : Mapping spaces pd (infoOf s pd) start (fun i => u32 (pstart + i * pageSize flags)) flags 0 s :=
    ⟨⟨owner, h⟩, rfl, mapsTo_zero⟩
  rw [mmMapRangeLinear, wp_bind, wp_kassert]
  refine ⟨fun _ => ?_, fun _ => trivial⟩
  rw [wp_bind, wp_kassert]
  refine ⟨fun _ => ?_, fun _ => trivial⟩
  by_cases hhuge : flags &&& mmFlgPs ≠ 0
  · have hsize : pageSize flags = 4194304 := if_pos hhuge
    rw [hsize] at haligned hinside hr hstart ⊢
    have hmask : start &&& hugeMask = start := by
      rw [and_hugeMask (by omega)]
      omega
    rw [if_pos hhuge, wp_bind, hmask]
    refine wp_forUp (Mapping spaces pd (infoOf s pd) start _ flags) _ hstart (fun i t _ hi hm => ?_) fun t hm => ?_
    · obtain ⟨owner', h'⟩ := hm.1
      have haddr : u32 (start + i * 4194304) = start + i * 4194304 := u32_of_lt (by omega)
      have hslot : (start + i * 4194304) >>> 22 + 0 = start / 4194304 + i := by
        rw [slot_of]
        omega
      have hlt := Nat.or_lt_two_pow (n := 32) (u32_lt (pstart + i * 4194304)) (hugeFlags_lt flags)
      rw [haddr, wp_discard, mmMapRangePages, wp_bind, wp_kassert]
      refine ⟨fun _ => ?_, fun _ => trivial⟩
      rw [if_pos hhuge, wp_bind, mapHugePages, wp_forUp_one, hslot]
      exact wp_hugeRound h' hpd (by omega) hlt fun u hc => hm.dirSet hpd hr hhuge (by omega) hc
    · rwa [Nat.zero_add] at hm
  · have hsize : pageSize flags = 4096 := if_neg hhuge
    rw [hsize] at haligned hinside hr hstart ⊢
    have hmask : start &&& pageMask = start := by
      rw [and_pageMask (by omega)]
      omega
    rw [if_neg hhuge, wp_bind, hmask]
    refine wp_forUp (Mapping spaces pd (infoOf s pd) start _ flags) _ hstart (fun i t _ hi hm => ?_) fun t hm => ?_
    · obtain ⟨owner', h'⟩ := hm.1
      have haddr : u32 (start + i * 4096) = start + i * 4096 := u32_of_lt (by omega)
      rw [haddr, wp_discard]
      exact wp_mapOnePage h' hpd (by omega) (by omega) (by omega) (u32_lt _) (not_not.mp hhuge) (fun _ _ _ => trivial)
        (fun _ _ => trivial) fun u hc => hm.mapped hpd hr (not_not.mp hhuge) (by omega) hc
    · rwa [Nat.zero_add] at hm

/-- `mm_translate` finds each byte of a range where the call put it, with the permissions of the call. -/
def Translates (t : Machine) (pd start : Nat) (pages : Nat → Nat) (flags count : Nat) : Prop :=
  ∀ i < count, ∀ off < pageSize flags,
    mmTranslate pd (start + i * pageSize flags + off) t = .ok ((pages i + off, some (seenFlags flags)), t)

theorem Mapping.translates {info : Nat} (hm : Mapping spaces pd info start pages flags count t) (hpd : pd ∈ spaces)
    (hr : InRange start count flags pages) : Translates t pd start pages flags count := by
  obtain ⟨⟨owner, h⟩, _, hmaps⟩ := hm
  intro i hi off hoff
  have hsmaller : (i + 1) * pageSize flags ≤ count * pageSize flags := Nat.mul_le_mul_right _ hi
  have hinside := hr.inside
  rw [Nat.succ_mul] at hsmaller
  have htranslate : wp (mmTranslate pd (start + i * pageSize flags + off)) noFault
      (fun r u => r = (pages i + off, some (seenFlags flags)) ∧ u = t) t := by
    rw [wp_mmTranslate h hpd (by omega), hmaps i hi off hoff]
    exact ⟨rfl, rfl⟩
  obtain ⟨r, u, hrun, rfl, rfl⟩ := run_of_wp htranslate
  exact hrun

/-- After either call, `mm_translate` finds the range where it was mapped. -/
theorem mapped_range_translates (start count flags : Nat) (h : Tree s spaces owner) (hpd : pd ∈ spaces)
    (haligned : start % pageSize flags = 0) (hinside : start + count * pageSize flags ≤ 0xFFC00000) :
    (∀ pages : Nat → Nat, (∀ i < count, pages i % pageSize flags = 0 ∧ pages i < 4294967296) →
      ∀ t, mmMapRangePages pd start pages count flags s = .ok (0, t) → Translates t pd start pages flags count) ∧
    ∀ pstart, pstart % pageSize flags = 0 →
      ∀ t, mmMapRangeLinear pd start pstart count flags s = .ok (0, t) →
        Translates t pd start (fun i => u32 (pstart + i * pageSize flags)) flags count := by
  refine ⟨fun pages hpages t hrun => ?_, fun pstart hpstart t hrun => ?_⟩
  · have hr : InRange start count flags pages := ⟨haligned, hinside, hpages⟩
    exact (of_run (wp_mapRangePages h hpd hr) hrun).translates hpd hr
  · have hpages : ∀ i < count, u32 (pstart + i * pageSize flags) % pageSize flags = 0 ∧
        u32 (pstart + i * pageSize flags) < 4294967296 := by
      refine fun i _ => ⟨?_, u32_lt _⟩
      unfold u32
      by_cases hhuge : flags &&& mmFlgPs ≠ 0
      · have hsize : pageSize flags = 4194304 := if_pos hhuge
        rw [hsize] at hpstart ⊢
        omega
      · have hsize : pageSize flags = 4096 := if_neg hhuge
        rw [hsize] at hpstart ⊢
        omega
    have hr : InRange start count flags fun i => u32 (pstart + i * pageSize flags) := ⟨haligned, hinside, hpages⟩
    exact (of_run (wp_mapRangeLinear h hpd hr) hrun).translates hpd hr

/-- Two pages on both sides of a table boundary, in a space that was just created. -/
theorem mapped_range_translates_small : ∃ s t u, SpaceRun smallState s ∧ 0xC1001000 ∈ s.spaces ∧
    mmMapRangePages 0xC1001000 0x7FF000 (fun i => 0x1400000 + i * 0x2000) 2 mmFlgUs s.machine = .ok (0, t) ∧
    mmMapRangeLinear 0xC1001000 0x7FF000 0x1400000 2 mmFlgUs s.machine = .ok (0, u) ∧
    Translates t 0xC1001000 0x7FF000 (fun i => 0x1400000 + i * 0x2000) mmFlgUs 2 ∧
    Translates u 0xC1001000 0x7FF000 (fun i => u32 (0x1400000 + i * pageSize mmFlgUs)) mmFlgUs 2 := by
  have hsteps : (spaceSteps smallState [.create]).map (fun s => (s.spaces,
      (mmMapRangePages 0xC1001000 0x7FF000 (fun i => 0x1400000 + i * 0x2000) 2 mmFlgUs s.machine).map Prod.fst,
      (mmMapRangeLinear 0xC1001000 0x7FF000 0x1400000 2 mmFlgUs s.machine).map Prod.fst)) =
      some ([0xC1001000, 0xC0200000], .ok 0, .ok 0) := by decide +kernel
  obtain ⟨s, hs, heq⟩ := Option.map_eq_some_iff.mp hsteps
  obtain ⟨hspaces, hmaps⟩ := Prod.mk.inj heq
  obtain ⟨hpages, hlinear⟩ := Prod.mk.inj hmaps
  have hrun : SpaceRun smallState s :=
    spaceRun_steps (Run.refl _) (fun op hop _ _ => by rw [List.mem_singleton.mp hop]; trivial) hs
  have hpd : 0xC1001000 ∈ s.spaces := by
    rw [hspaces]
    decide
  have hsound : Paging.Sound s.spaces s.machine := sound_run smallState_booted hrun
  obtain ⟨owner, h⟩ := hsound.tree
  obtain ⟨htranslates, htranslates'⟩ :=
    mapped_range_translates 0x7FF000 2 mmFlgUs h hpd (by decide) (by decide)
  exact ⟨s, _, _, hrun, hpd, run_after_of hpages, run_after_of hlinear, htranslates _ (by decide) _ (run_after_of hpages),
    htranslates' 0x1400000 (by decide) _ (run_after_of hlinear)⟩

end Calls

end YggKernel.Paging
