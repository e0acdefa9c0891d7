import YggKernel.Paging.Pages

namespace YggKernel.Paging

open Lib.Program Lib.ByteMemory Lib.BitWords Lib.Masks Phys Pool

inductive Unmapped (s t : Machine) (pd k j : Nat) : Prop
  | kept (hinfo : slotInfo s pd k ≠ 0) (hmany : 1 < slotInfo s pd k % 4096)
      (hc : Entered s t pd k j 0 (slotInfo s pd k - 1))
  | dropped (n : Nat) (hinfo : slotInfo s pd k ≠ 0) (hlast : slotInfo s pd k % 4096 = 1)
      (hc : Dropped s t pd k j n)

section UnmappedPage

variable {s t : Machine} {spaces : List Nat} {owner : Owner} {pd k j : Nat}

theorem Unmapped.slotChange (h : Tree s spaces owner) (hpd : pd ∈ spaces) (hk : k < 1023)
    (hu : Unmapped s t pd k j) : SlotChange s t owner pd k := by
  cases hu with
  | kept hinfo _ hc => exact hc.slotChange h hpd hk hinfo
  | dropped n hinfo _ hc => exact hc.slotChange h hpd hk hinfo

theorem Unmapped.tree (h : Tree s spaces owner) (hpd : pd ∈ spaces) (hk : k < 1023)
    (hu : Unmapped s t pd k j) : ∃ owner', Tree t spaces owner' := by
  cases hu with
  | kept hinfo hmany hc => exact ⟨owner, hc.tree h hpd hk hinfo (by omega) (by omega)⟩
  | dropped n hinfo _ hc => exact ⟨_, hc.tree h hpd hk hinfo⟩

theorem Unmapped.phys (hu : Unmapped s t pd k j) : t.phys = s.phys := by
  cases hu with
  | kept _ _ hc => exact hc.phys
  | dropped n _ _ hc => exact hc.phys

end UnmappedPage

section Rounds

variable {s : Machine} {spaces : List Nat} {owner : Owner} {pd v k j : Nat} {E : Fault → Prop}
  {Q : Unit → Machine → Prop}

theorem wp_freePhysicalPage {page flags : Nat}
    (herr : ∀ e, mmFreePhysicalPage s.phys page flags = .error e → E e)
    (hok : ∀ q, mmFreePhysicalPage s.phys page flags = .ok q → Q () { s with phys := q }) :
    wp (freePhysicalPage page flags) E Q s := by
  rw [freePhysicalPage, wp_bind, wp_get]
  cases hfree : mmFreePhysicalPage s.phys page flags with
  | ok q => exact hok q hfree
  | error e => exact herr e hfree

theorem wp_umapEntry (h : Tree s spaces owner) (hpd : pd ∈ spaces) (hk : k < 1023) (hj : j < 1024)
    (hinfo : slotInfo s pd k ≠ 0) (hQ : ∀ t, Unmapped s t pd k j → Q () t) :
    wp (do
      setEntry (tableOf s pd k) j 0
      setEntry (infoOf s pd) k (sub32 (← entry (infoOf s pd) k) 1)
      if (← entry (infoOf s pd) k) &&& 0xFFF = 0 then
        setEntry pd k 0
        setEntry (infoOf s pd) k 0
        x86PagePoolFree poolHost (tableOf s pd k)) E Q s := by
  have hg := h.geometry
  have hk1 : k < 1024 := by omega
  have hdir := h.dirPage hpd
  have hipage := h.infoPage hpd
  obtain ⟨hrole, hpos⟩ := ((h.spaces pd hpd).slots k hk).counted hinfo
  have htpage := hrole.isPage
  obtain ⟨htd, hti, hid⟩ := tableOf_ne h hpd hk hinfo
  have hlt := slotInfo_lt h hpd hk hinfo
  have hg1 := geometry_setWord hg (tableOf s pd k) j 0
  have hg2 := geometry_setWord hg1 (infoOf s pd) k (slotInfo s pd k - 1)
  have hframe2 := (framed_setWord hg 0 htpage hj).trans (framed_setWord hg1 (slotInfo s pd k - 1) hipage hk1)
  have hold : word (setWord s (tableOf s pd k) j 0) (infoOf s pd) k = slotInfo s pd k := by
    rw [word_setWord hg htpage hipage hj hk1 (by decide), if_neg fun hh => hti hh.1.symm]
    rfl
  have hdec : sub32 (slotInfo s pd k) 1 = slotInfo s pd k - 1 := sub32_of_le (by omega) (by omega)
  have hnew : word (setWord (setWord s (tableOf s pd k) j 0) (infoOf s pd) k (slotInfo s pd k - 1)) (infoOf s pd) k =
      slotInfo s pd k - 1 := by
    rw [word_setWord hg1 hipage hipage hk1 hk1 (by omega), if_pos ⟨rfl, rfl⟩]
  rw [wp_bind, wp_setEntry hg _ htpage hj, wp_bind, wp_entry hg1 hipage hk1, hold, hdec, wp_bind,
    wp_setEntry hg1 _ hipage hk1, wp_bind, wp_entry hg2 hipage hk1, hnew, and_offset]
  by_cases hlast : slotInfo s pd k % 4096 = 1
  · rw [if_pos (by omega)]
    have htab := hrole
    rcases htab with ⟨_, hu⟩ | ⟨n, hn, hpage, hu⟩
    · cases hu
    have hset := h.taken n hn _ hu
    have hg3 := geometry_setWord hg2 pd k 0
    have hg4 := geometry_setWord hg3 (infoOf s pd) k 0
    rw [wp_bind, wp_setEntry hg2 _ hdir hk1, wp_bind, wp_setEntry hg3 _ hipage hk1]
    nth_rewrite 1 [hpage]
    refine wp_poolFree hg4 hn hset fun ps gave => hQ _ (.dropped n hinfo hlast ⟨?_, rfl, hpage, gave, ?_⟩)
    · exact ((hframe2.trans (framed_setWord hg2 0 hdir hk1)).trans (framed_setWord hg3 0 hipage hk1)).trans
        (framed_pools gave.paddr)
    · intro v i hv hi
      rw [word_pools gave.paddr, word_setWord hg3 hipage hv hk1 hi (by decide),
        word_setWord hg2 hdir hv hk1 hi (by decide), word_setWord hg1 hipage hv hk1 hi (by omega),
        word_setWord hg htpage hv hj hi (by decide)]
      by_cases hvt : v = tableOf s pd k
      · simp only [hvt, hti, htd, false_and, if_false, true_and]
      · by_cases hvd : v = pd
        · simp only [hvd, hid.symm, htd.symm, false_and, if_false, true_and]
        · by_cases hvi : v = infoOf s pd ∧ i = k <;> simp [hvt, hvd, hvi]
  · rw [if_neg (by omega), wp_pure]
    refine hQ _ (.kept hinfo (by omega) ⟨hframe2, rfl, rfl, fun v i hv hi => ?_⟩)
    rw [word_setWord hg1 hipage hv hk1 hi (by omega), word_setWord hg htpage hv hj hi (by decide)]
    by_cases hvt : v = tableOf s pd k
    · simp only [hvt, hti, false_and, if_false]
    · simp only [hvt, false_and, if_false]

theorem wp_umapPage (flags : Nat) (h : Tree s spaces owner) (hpd : pd ∈ spaces)
    (hk : v / 4194304 = k) (hk' : k < 1023) (hj : v / 4096 % 1024 = j)
    (hbad : ¬(word s pd k % 2 = 1 ∧ slotInfo s pd k ≠ 0) → ∀ c, E (assertionFailed c))
    (hfree : flags &&& mmFlgNophys = 0 → ∀ e,
      mmFreePhysicalPage s.phys (word s (tableOf s pd k) j &&& pageMask) 0 = .error e → E e)
    (hQ : ∀ q t, (if flags &&& mmFlgNophys = 0 then
        mmFreePhysicalPage s.phys (word s (tableOf s pd k) j &&& pageMask) 0 = .ok q else q = s.phys) →
      Unmapped { s with phys := q } t pd k j → Q () t) :
    wp (umapPage pd (infoOf s pd) flags v) E Q s := by
  have hg := h.geometry
  have hk1 : k < 1024 := by omega
  have hj' : j < 1024 := by omega
  have hdir := h.dirPage hpd
  have hipage := h.infoPage hpd
  have htab : word s (infoOf s pd) k &&& pageMask = tableOf s pd k := and_pageMask (word_lt _ _ _)
  simp only [umapPage, wp_bind, slot_of, index_of, hk, hj, wp_entry hg hdir hk1, wp_entry hg hipage hk1,
    wp_kassert, decide_eq_true_eq, decide_eq_false_iff_not, not_present_iff, Ne, htab, not_not]
  refine ⟨fun hpr => ⟨fun hinfo => ?_, fun hinfo => hbad (fun hok => hok.2 hinfo) _⟩,
    fun hpr => hbad (fun hok => by omega) _⟩
  have hinfo' : slotInfo s pd k ≠ 0 := hinfo
  obtain ⟨hrole, hpos⟩ := ((h.spaces pd hpd).slots k hk').counted hinfo
  -- after the frame is given back, only the allocator differs
  have hrest : ∀ q, (if flags &&& mmFlgNophys = 0 then
      mmFreePhysicalPage s.phys (word s (tableOf s pd k) j &&& pageMask) 0 = .ok q else q = s.phys) →
      wp (do
        kassert (decide ((← entry (infoOf s pd) k) &&& 0xFFF ≠ 0)) "(table_info[pdi] & 0xFFF) != 0"
        setEntry (tableOf s pd k) j 0
        setEntry (infoOf s pd) k (sub32 (← entry (infoOf s pd) k) 1)
        if (← entry (infoOf s pd) k) &&& 0xFFF = 0 then
          setEntry pd k 0
          setEntry (infoOf s pd) k 0
          x86PagePoolFree poolHost (tableOf s pd k)) E Q { s with phys := q } := by
    intro q hq
    have hgq := (h.phys q).geometry
    have hcount : word { s with phys := q } (infoOf s pd) k &&& 0xFFF ≠ 0 := by
      rw [and_offset]
      exact hpos.ne'
    rw [wp_bind, wp_entry hgq hipage hk1, wp_bind, wp_kassert]
    refine ⟨fun _ => wp_umapEntry (h.phys q) hpd hk' hj' hinfo' fun t ht => hQ q t hq ht, fun hno => ?_⟩
    exact absurd hcount (of_decide_eq_false hno)
  by_cases hflag : flags &&& mmFlgNophys = 0
  · simp only [hflag, if_true] at hfree hrest ⊢
    rw [wp_bind, wp_entry hg hrole.isPage hj', wp_bind]
    exact wp_freePhysicalPage (hfree trivial) hrest
  · simp only [hflag, if_false] at hrest ⊢
    exact hrest s.phys rfl

end Rounds

end YggKernel.Paging
