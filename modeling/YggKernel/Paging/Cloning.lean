import YggKernel.Paging.Lifetime

namespace YggKernel.Paging

open Lib.Program Lib.ByteMemory Lib.BitWords Lib.Masks Phys Pool

def copied (s : Machine) (d r : Nat) : Machine :=
  { s with mem := fun x =>
      if physOf s d ≤ x ∧ x < physOf s d + 4096 then s.mem (physOf s r + (x - physOf s d)) else s.mem x }

section Copy

variable {s : Machine} {d r w i : Nat}

theorem wp_memcpyPage {E : Fault → Prop} {Q : Unit → Machine → Prop} (hg : Geometry s) (hd : IsPage s d)
    (hr : IsPage s r) : wp (memcpyPage d r) E Q s ↔ Q () (copied s d r) := by
  have hd' := linear_page hg hd (show 0 < 4096 by decide)
  have hr' := linear_page hg hr (show 0 < 4096 by decide)
  simp only [Nat.add_zero] at hd' hr'
  simp only [memcpyPage, access, wp_bind, wp_get, resolve, hd', hr', wp_pure, wp_modify]
  rfl

theorem framed_copied (hg : Geometry s) (hd : IsPage s d) : Framed s (copied s d r) :=
  ⟨fun _ hx => if_neg fun hin => hx (inPaging_of_isPage hg hd hin.1 hin.2), rfl, rfl, rfl⟩

theorem word_copied (hg : Geometry s) (hd : IsPage s d) (hw : IsPage s w) (hi : i < 1024) :
    word (copied s d r) w i = if w = d then word s r i else word s w i := by
  have hphys : physOf (copied s d r) w = physOf s w := rfl
  unfold word
  rw [hphys]
  unfold copied
  by_cases hwd : w = d
  · rw [if_pos hwd, hwd]
    unfold load32
    dsimp only
    rw [if_pos (by omega), if_pos (by omega), if_pos (by omega), if_pos (by omega)]
    rw [show physOf s r + (physOf s d + 4 * i - physOf s d) = physOf s r + 4 * i by omega,
      show physOf s r + (physOf s d + 4 * i + 1 - physOf s d) = physOf s r + 4 * i + 1 by omega,
      show physOf s r + (physOf s d + 4 * i + 2 - physOf s d) = physOf s r + 4 * i + 2 by omega,
      show physOf s r + (physOf s d + 4 * i + 3 - physOf s d) = physOf s r + 4 * i + 3 by omega]
  · rw [if_neg hwd]
    refine load32_congr fun x h1 h2 => if_neg fun hx => ?_
    have := physOf_apart hg hd hw (Ne.symm hwd)
    omega

end Copy

section Slots

variable {s t : Machine} {spaces : List Nat} {owner : Owner} {dst src k : Nat}

/-- One round of `mm_space_clone`: an absent entry is skipped, a huge one is shared and a
table is copied. -/
theorem wp_cloneSlot {E : Fault → Prop} {Q : Unit → Machine → Prop} (h : Tree s spaces owner)
    (hdst : dst ∈ spaces) (hsrc : src ∈ spaces) (hk : k < 1024)
    (hpool : word s src k % 2 = 1 → word s src k / 128 % 2 = 0 → ¬WordLeft (s.pools 0) → ∀ w, E (.outOfBounds w))
    (hskip : word s src k % 2 = 0 → Q () s)
    (hhuge : k < 1023 → word s src k % 2 = 1 → word s src k / 128 % 2 = 1 →
      ∀ t, DirSet s t dst k (word s src k) → Q () t)
    (hnew : k < 1023 → word s src k % 2 = 1 → word s src k / 128 % 2 = 0 → ∀ n t,
      NewTable s t dst k n (slotInfo s src k % 4096) (word s (tableOf s src k)) → Q () t) :
    wp (cloneSlot dst src (infoOf s src) (infoOf s dst) k) E Q s := by
  have hg := h.geometry
  have hdir := h.dirPage hdst
  have hsdir := h.dirPage hsrc
  rw [cloneSlot, wp_bind, wp_entry hg hsdir hk]
  simp only [Ne, not_present_iff, not_huge_iff, ite_not]
  by_cases hpr : word s src k % 2 = 0
  · rw [if_pos hpr, wp_pure]
    exact hskip hpr
  rw [if_neg hpr, wp_bind, wp_entry hg hsdir hk]
  have hpr1 : word s src k % 2 = 1 := by omega
  have hk' : k < 1023 := by
    refine lt_of_le_of_ne (by omega) fun heq => hpr ?_
    rw [heq]
    exact h.infoOf_even hsrc
  by_cases hps : word s src k / 128 % 2 = 0
  · rw [if_pos hps]
    have hok := (h.spaces src hsrc).slots k hk'
    have hinfo := (hok.entry hpr1 hps).1
    obtain ⟨hrole, hpos⟩ := hok.counted hinfo
    have hinfo' : word s (infoOf s src) k ≠ 0 := hinfo
    have hipage := h.infoPage hdst
    have hsipage := h.infoPage hsrc
    have htab : word s (infoOf s src) k &&& pageMask = tableOf s src k := and_pageMask (word_lt _ _ _)
    rw [wp_bind, wp_entry hg hsipage hk, wp_bind, wp_kassert]
    refine ⟨fun _ => ?_, fun hno => absurd hinfo' (of_decide_eq_false hno)⟩
    rw [wp_bind, wp_entry hg hsipage hk, htab, wp_bind]
    refine wp_poolAllocate hg (hpool hpr1 hps) fun n ps took => ?_
    have hg1 := geometry_pools hg took
    have hn := took.lt
    have hpage : IsPage s (poolPage n) := isPage_poolPage hn
    have hmod := physOf_isPage_aligned hg hpage
    have hlt := physOf_isPage_lt hg hpage
    have hpl := isPage_bounds hg hpage
    have hcount : poolPage n ||| slotInfo s src k % 4096 = poolPage n + slotInfo s src k % 4096 :=
      page_or hpl.1 (Nat.mod_lt _ (by decide))
    have hpde : physOf s (poolPage n) ||| (x86MmFlgPr ||| x86MmFlgWr ||| x86MmFlgUs) =
        physOf s (poolPage n) + 7 := page_or hmod (by decide)
    have hg2 := geometry_setWord hg1 (infoOf s dst) k (poolPage n + slotInfo s src k % 4096)
    have hg3 := geometry_setWord hg2 dst k (physOf s (poolPage n) + 7)
    have hcl : slotInfo s src k % 4096 < 4096 := Nat.mod_lt _ (by decide)
    have hsinfo : word { s with pools := ps } (infoOf s src) k = slotInfo s src k := word_pools took.paddr _ _
    dsimp only
    rw [wp_bind, wp_entry hg1 hsipage hk, hsinfo, and_offset, hcount, hpde, wp_bind, wp_setEntry hg1 _ hipage hk,
      wp_bind, wp_setEntry hg2 _ hdir hk, wp_memcpyPage hg3 hpage hrole.isPage]
    have hne1 : tableOf s src k ≠ dst := hrole.ne hg (h.spaces dst hdst).directory (by simp)
    have hne2 : tableOf s src k ≠ infoOf s dst := hrole.ne hg (h.spaces dst hdst).info (by simp)
    refine hnew hk' hpr1 hps n _ ⟨?_, rfl, took, fun v i hv hi => ?_⟩
    · exact (((framed_pools took.paddr).trans (framed_setWord hg1 _ hipage hk)).trans
        (framed_setWord hg2 _ hdir hk)).trans (framed_copied hg3 hpage)
    · have hword : ∀ v, IsPage s v → word (setWord (setWord { s with pools := ps } (infoOf s dst) k
          (poolPage n + slotInfo s src k % 4096)) dst k (physOf s (poolPage n) + 7)) v i =
          if v = dst ∧ i = k then physOf s (poolPage n) + 7
          else if v = infoOf s dst ∧ i = k then poolPage n + slotInfo s src k % 4096 else word s v i := by
        intro v hv
        rw [word_setWord hg2 hdir hv hk hi (by omega), word_setWord hg1 hipage hv hk hi (by omega),
          word_pools took.paddr]
      have hcontent := hword _ hrole.isPage
      rw [if_neg fun hh => hne1 hh.1, if_neg fun hh => hne2 hh.1] at hcontent
      rw [word_copied hg3 hpage hv hi, hcontent, hword v hv]
  · rw [if_neg hps, wp_bind, wp_entry hg hsdir hk, wp_setEntry hg _ hdir hk]
    exact hhuge hk' hpr1 (by omega) _ (dirSet_setWord hg hdir hk (word_lt _ _ _))

structure Wiped (s t : Machine) (dst : Nat) : Prop where
  framed : Framed s t
  phys : t.phys = s.phys
  pools : t.pools = s.pools
  words : ∀ v i, IsPage s v → i < 1024 → word t v i =
    if v = infoOf s dst then 0 else if v = dst ∧ 0 < i ∧ i < 1023 then 0 else word s v i

theorem Wiped.words_other (h : Tree s spaces owner) (hdst : dst ∈ spaces) (hc : Wiped s t dst) {v i : Nat}
    {u : Use} (hr : Role s owner v u) (hi : i < 1024) (hu : u ≠ .info dst) (hv : ¬(v = dst ∧ 0 < i ∧ i < 1023)) :
    word t v i = word s v i := by
  rw [hc.words v i hr.isPage hi, if_neg (hr.ne h.geometry (h.spaces dst hdst).info hu), if_neg hv]

theorem Wiped.infoOf_eq (h : Tree s spaces owner) (hdst : dst ∈ spaces) (hc : Wiped s t dst) {pd : Nat}
    (hpd : pd ∈ spaces) : infoOf t pd = infoOf s pd :=
  hc.words_other h hdst (h.spaces pd hpd).directory (by decide) (by simp) (by omega)

theorem Wiped.tree (h : Tree s spaces owner) (hdst : dst ∈ spaces) (hself : word s dst 0 % 2 = 0)
    (hc : Wiped s t dst) : Tree t spaces owner := by
  have hrole : ∀ v u, Role s owner v u → Role t owner v u := by
    intro v u hr
    unfold Role
    rwa [hc.framed.mmKernel]
  refine ⟨hc.framed.geometry h.geometry (hc.pools ▸ h.geometry.pools), hc.framed.mmKernel ▸ h.kernel, ?_,
    fun pd hpd => ⟨hrole _ _ (h.spaces pd hpd).directory, ?_, fun k hk => ?_⟩⟩
  · rw [hc.pools]
    exact h.taken
  · rw [hc.infoOf_eq h hdst hpd]
    exact hrole _ _ (h.spaces pd hpd).info
  · by_cases heq : pd = dst
    · subst heq
      have hne := (h.spaces pd hpd).directory.ne h.geometry (h.spaces pd hpd).info (by simp)
      refine ⟨fun hinfo => absurd ?_ hinfo, fun h1 _ => ?_⟩
      · unfold slotInfo
        rw [hc.infoOf_eq h hdst hpd, hc.words _ _ (h.infoPage hpd) (by omega), if_pos rfl]
      · rw [hc.words _ _ (h.dirPage hpd) (by omega), if_neg hne] at h1
        by_cases hk0 : 0 < k
        · rw [if_pos ⟨rfl, hk0, hk⟩] at h1
          cases h1
        · rw [if_neg (by omega), show k = 0 by omega] at h1
          omega
    · refine ((h.spaces pd hpd).slots k hk).keep hc.framed.physOf_eq ?_ ?_ fun v hv => hrole v _ hv
      · exact hc.words_other h hdst (h.spaces pd hpd).directory (by omega) (by simp) fun hh => heq hh.1
      · unfold slotInfo
        rw [hc.infoOf_eq h hdst hpd]
        refine hc.words_other h hdst (h.spaces pd hpd).info (by omega) (by simpa using heq) fun hh => ?_
        exact (h.spaces pd hpd).info.ne h.geometry (h.spaces dst hdst).directory (by simp) hh.1

theorem Wiped.sound (h : Sound spaces s) (hdst : dst ∈ spaces) (hc : Wiped s t dst) : Sound spaces t := by
  obtain ⟨owner, ht⟩ := h.tree
  have hself : word s dst 0 % 2 = 0 := (h.bookkeeping hdst (by decide) (by omega)).1
  refine ⟨⟨owner, hc.tree ht hdst hself⟩, fun pd hpd => ?_, ?_, ?_⟩
  · rw [hc.words_other ht hdst (ht.spaces pd hpd).directory (by decide) (by simp) (by omega),
      hc.framed.physOf_eq]
    exact h.self pd hpd
  · rw [hc.framed.cr3, hc.framed.mmKernel, hc.framed.physOf_eq]
    exact h.loaded
  · rw [hc.phys]
    exact h.hint

theorem wp_mmSpaceClone {E : Fault → Prop} {Q : Unit → Machine → Prop} (flags : Nat) (h : Sound spaces s)
    (hdst : dst ∈ spaces) (hsrc : src ∈ spaces)
    (hbody : ∀ t, Wiped s t dst → Sound spaces t →
      wp (if flags &&& mmFlgCloneKernel ≠ 0 then
        forUp 768 256 (cloneSlot dst src (infoOf t src) (infoOf t dst)) else pure ()) E Q t) :
    wp (mmSpaceClone dst src flags) E Q s := by
  obtain ⟨owner, ht⟩ := h.tree
  have hg := ht.geometry
  have hdir := ht.dirPage hdst
  have hipage := ht.infoPage hdst
  have hb := isPage_bounds hg hdir
  have hg1 := geometry_zeroed hg (physOf s dst + 4 * 1) 1022
  have hne := (ht.spaces dst hdst).directory.ne hg (ht.spaces dst hdst).info (by simp)
  have hw1 : ∀ v i, IsPage s v → i < 1024 → word (zeroed s (physOf s dst + 4 * 1) 1022) v i =
      if v = dst ∧ 1 ≤ i ∧ i < 1023 then 0 else word s v i :=
    fun v i hv hi => word_zeroed hg hdir hv (by decide) hi
  have hinfo : ∀ pd ∈ spaces, word (zeroed s (physOf s dst + 4 * 1) 1022) pd 1023 = infoOf s pd := by
    intro pd hpd
    rw [hw1 _ _ (ht.dirPage hpd) (by decide), if_neg (by omega)]
    rfl
  have hu : u32 (dst + 4) = dst + 4 * 1 := u32_of_lt (by omega)
  rw [mmSpaceClone, wp_bind, hu, wp_memsetl hg hdir (by decide), wp_bind, wp_entry hg1 (ht.dirPage hsrc) (by decide),
    wp_bind, wp_entry hg1 hdir (by decide), hinfo src hsrc, hinfo dst hdst, wp_bind, wp_memsetl_page hg1 hipage]
  have hwiped : Wiped s (zeroed (zeroed s (physOf s dst + 4 * 1) 1022)
      (physOf (zeroed s (physOf s dst + 4 * 1) 1022) (infoOf s dst)) 1024) dst := by
    refine ⟨(framed_zeroed hg hdir (by decide)).trans (framed_zeroed_page hg1 hipage), rfl, rfl,
      fun v i hv hi => ?_⟩
    rw [word_zeroed_page hg1 hipage hv hi, hw1 v i hv hi]
    rfl
  have hbody' := hbody _ hwiped (hwiped.sound h hdst)
  rw [hwiped.infoOf_eq ht hdst hsrc, hwiped.infoOf_eq ht hdst hdst] at hbody'
  exact hbody'

end Slots

end YggKernel.Paging
