import YggKernel.Paging.Steps

namespace YggKernel.Paging

open Lib.Program Lib.ByteMemory Lib.BitWords Lib.Masks Phys Pool

def nextFrame (s : Machine) : Nat := (mmAllocPhysicalPage s.phys 0).1

def takeFrame (s : Machine) : Machine := { s with phys := (mmAllocPhysicalPage s.phys 0).2 }

section Same

variable {s t : Machine} {spaces : List Nat} {owner : Owner} {pd k : Nat}

theorem Tree.congr (h : Tree s spaces owner) (hk : t.mmKernel = s.mmKernel) (hp : t.pools = s.pools)
    (hw : ∀ v i, IsPage s v → i < 1024 → word t v i = word s v i) : Tree t spaces owner := by
  have hg := h.geometry
  have hgt : Geometry t := by
    refine ⟨?_, ?_, ?_, ?_, ?_, ?_⟩ <;> first | rw [hp] | rw [hk]
    exacts [hg.pools, hg.chunk, hg.top, hg.aligned, hg.low, hg.high]
  have hphys : ∀ v, physOf t v = physOf s v := fun v => by
    unfold physOf
    rw [hp]
  have hrole : ∀ v u, Role s owner v u → Role t owner v u := by
    intro v u hr
    unfold Role
    rwa [hk]
  have hinfo : ∀ pd ∈ spaces, infoOf t pd = infoOf s pd := fun pd hpd =>
    hw pd 1023 (h.dirPage hpd) (by omega)
  refine ⟨hgt, hk ▸ h.kernel, ?_, fun pd hpd => ⟨?_, ?_, ?_⟩⟩
  · rw [hp]
    exact h.taken
  · exact hrole _ _ (h.spaces pd hpd).directory
  · rw [hinfo pd hpd]
    exact hrole _ _ (h.spaces pd hpd).info
  · intro k hk
    refine ((h.spaces pd hpd).slots k hk).keep hphys (hw pd k (h.dirPage hpd) (by omega)) ?_
      fun v hv => hrole v _ hv
    unfold slotInfo
    rw [hinfo pd hpd]
    exact hw _ k (h.infoPage hpd) (by omega)

theorem slotAt_congr (h : Tree s spaces owner) (hpd : pd ∈ spaces) (hk : k < 1024)
    (hw : ∀ v i, IsPage s v → i < 1024 → word t v i = word s v i) : slotAt t pd k = slotAt s pd k := by
  have hinfo : slotInfo t pd k = slotInfo s pd k := by
    unfold slotInfo
    rw [show infoOf t pd = infoOf s pd from hw pd 1023 (h.dirPage hpd) (by omega)]
    exact hw _ k (h.infoPage hpd) hk
  have htab : tableOf t pd k = tableOf s pd k := by
    unfold tableOf
    rw [hinfo]
  unfold slotAt
  rw [hw pd k (h.dirPage hpd) hk, htab]
  by_cases h1 : word s pd k % 2 = 0
  · rw [if_pos h1, if_pos h1]
  by_cases h2 : word s pd k / 128 % 2 = 1
  · rw [if_neg h1, if_neg h1, if_pos h2, if_pos h2]
  rw [if_neg h1, if_neg h1, if_neg h2, if_neg h2]
  have hlt : k < 1023 := by
    refine lt_of_le_of_ne (by omega) fun heq => h1 ?_
    rw [heq]
    exact h.infoOf_even hpd
  have hpage := (h.tableRole hpd hlt (((h.spaces pd hpd).slots k hlt).entry (by omega) (by omega)).1).isPage
  refine congrArg Slot.table (funext fun j => ?_)
  unfold entriesAt
  by_cases hj : j < 1024
  · rw [if_pos hj, if_pos hj, hw _ j hpage hj]
  · rw [if_neg hj, if_neg hj]

theorem Tree.phys (h : Tree s spaces owner) (q : PhysAlloc) : Tree { s with phys := q } spaces owner :=
  h.congr rfl rfl fun _ _ _ _ => rfl

theorem Tree.takeFrame (h : Tree s spaces owner) : Tree (takeFrame s) spaces owner := h.phys _

end Same

/-- One page was mapped: in a new table, or in the one that the slot has. -/
inductive Mapped (s t : Machine) (pd k j e : Nat) : Prop
  | new (n : Nat) (habsent : word s pd k % 2 = 0) 
      (hc : NewTable s t pd k n 1 fun i => if i = j then e else word s (poolPage n) i)
  | old (hpresent : word s pd k % 2 = 1) (hsmall : word s pd k / 128 % 2 = 0)
      (hroom : slotInfo s pd k % 4096 ≠ 4095) (hc : Entered s t pd k j e (slotInfo s pd k + 1))

/-- The assertions of both mapping functions hold for one page. With `again` it may
be mapped already. -/
def Enterable (s : Machine) (pd k j : Nat) (again : Prop) : Prop :=
  word s pd k / 128 % 2 = 0 ∧ (word s pd k % 2 = 1 →
    slotInfo s pd k % 4096 ≠ 4095 ∧ (word s (tableOf s pd k) j % 2 = 1 → again))

section Rounds

variable {s : Machine} {spaces : List Nat} {owner : Owner} {pd v k j : Nat} {E : Fault → Prop}
  {Q : Unit → Machine → Prop}

theorem wp_allocPhysicalPage {Q : Nat → Machine → Prop} :
    wp (allocPhysicalPage 0) E Q s ↔ Q (nextFrame s) (takeFrame s) := Iff.rfl

theorem entry_lt {p : Nat} (flags : Nat) (hp : p < 4294967296) : p ||| leafFlags flags < 4294967296 :=
  Nat.or_lt_two_pow (n := 32) hp ((leafFlags_lt flags).trans (by decide))

theorem slotInfo_lt (h : Tree s spaces owner) (hpd : pd ∈ spaces) (hk : k < 1023)
    (hinfo : slotInfo s pd k ≠ 0) : slotInfo s pd k + 1 < 4294967296 := by
  obtain ⟨_, _, hb⟩ := isPage_bounds h.geometry (h.tableRole hpd hk hinfo).isPage
  unfold tableOf poolVaddr kernelVirtBase at hb
  omega

theorem wp_mapNewTable' (h : Tree s spaces owner) (hpd : pd ∈ spaces) (hk : k < 1023) (hj : j < 1024)
    {e : Nat} (he : e < 4294967296) (habsent : word s pd k % 2 = 0)
    (hpool : ¬WordLeft (s.pools 0) → ∀ w, E (.outOfBounds w))
    (hQ : ∀ t, Mapped s t pd k j e → Q () t) : wp (mapNewTable pd (infoOf s pd) k j e) E Q s :=
  wp_mapNewTable h hpd hk hj he hpool fun n t hc => hQ t (.new n habsent hc)

theorem wp_enter (h : Tree s spaces owner) (hpd : pd ∈ spaces) (hk : k < 1023) (hj : j < 1024) {e c : Nat}
    (he : e < 4294967296) (hcl : c < 4294967296) (hinfo : slotInfo s pd k ≠ 0)
    (hQ : ∀ t, Entered s t pd k j e c → Q () t) :
    wp (do setEntry (infoOf s pd) k c; setEntry (tableOf s pd k) j e) E Q s := by
  have hg := h.geometry
  have hipage := h.infoPage hpd
  have htpage := (h.tableRole hpd hk hinfo).isPage
  have hg1 := geometry_setWord hg (infoOf s pd) k c
  rw [wp_bind, wp_setEntry hg _ hipage (by omega), wp_setEntry hg1 _ htpage hj]
  refine hQ _ ⟨(framed_setWord hg _ hipage (by omega)).trans (framed_setWord hg1 _ htpage hj), rfl, rfl, ?_⟩
  intro v i hv hi
  rw [word_setWord hg1 htpage hv hj hi he, word_setWord hg hipage hv (by omega) hi hcl]

/-- One round of `mm_map_range` takes a frame, and maps it unless the page is mapped. -/
theorem wp_mapRangePage (flags : Nat) (h : Tree s spaces owner) (hpd : pd ∈ spaces)
    (hk : v / 4194304 = k) (hk' : k < 1023) (hj : v / 4096 % 1024 = j) (hframe : nextFrame s < 4294967296)
    (hpool : word s pd k % 2 = 0 → ¬WordLeft (s.pools 0) → ∀ w, E (.outOfBounds w))
    (hbad : ¬Enterable s pd k j (flags &&& mmFlgMerge ≠ 0) → ∀ c, E (assertionFailed c))
    (hmap : ∀ t, (word s pd k % 2 = 1 → word s (tableOf s pd k) j % 2 = 0) →
      Mapped (takeFrame s) t pd k j (nextFrame s ||| leafFlags flags) → Q () t)
    (hmerge : word s pd k % 2 = 1 → word s (tableOf s pd k) j % 2 = 1 → flags &&& mmFlgMerge ≠ 0 →
      Q () (takeFrame s)) :
    wp (mapRangePage pd (infoOf s pd) flags v) E Q s := by
  have hg := h.geometry
  have hk1 : k < 1024 := by omega
  have hj' : j < 1024 := by omega
  have hdir := h.dirPage hpd
  have he := entry_lt flags hframe
  have ht := h.takeFrame
  have hw : ∀ v i, word (takeFrame s) v i = word s v i := fun _ _ => rfl
  simp only [mapRangePage, wp_bind, slot_of, index_of, hk, hj, wp_entry hg hdir hk1, wp_kassert,
    wp_allocPhysicalPage, decide_eq_true_eq, decide_eq_false_iff_not, not_huge_iff]
  refine ⟨fun hsmall => ?_, fun hhuge => hbad (fun hok => hhuge hok.1) _⟩
  rw [wp_entry ht.geometry hdir hk1]
  simp only [hw, not_present_iff, Ne]
  by_cases hpr : word s pd k % 2 = 0
  · simp only [hpr, not_true_eq_false, if_false]
    exact wp_mapNewTable' ht hpd hk' hj' he hpr (hpool hpr) fun t hc => hmap t (fun hh => by omega) hc
  have hpr1 : word s pd k % 2 = 1 := by omega
  have hinfo := (((h.spaces pd hpd).slots k hk').entry hpr1 hsmall).1
  have hinfo' : word s (infoOf s pd) k ≠ 0 := hinfo
  have hipage : IsPage (takeFrame s) (infoOf s pd) := h.infoPage hpd
  have htpage : IsPage (takeFrame s) (tableOf s pd k) := (h.tableRole hpd hk' hinfo).isPage
  have htab : word s (infoOf s pd) k &&& pageMask = tableOf s pd k := and_pageMask (word_lt _ _ _)
  have hlt := slotInfo_lt h hpd hk' hinfo
  have hinc : u32 (word s (infoOf s pd) k + 1) = slotInfo s pd k + 1 := u32_of_lt hlt
  simp only [hpr, not_false_eq_true, if_true, wp_bind, wp_kassert, wp_entry ht.geometry hipage hk1, hw,
    decide_eq_true_eq, decide_eq_false_iff_not, not_not, htab, and_offset]
  refine ⟨fun _ => ⟨fun hroom => ?_, fun hfull => hbad (fun hok => (hok.2 hpr1).1 hfull) _⟩,
    fun hno => absurd hno hinfo'⟩
  rw [wp_entry ht.geometry htpage hj']
  simp only [hw]
  by_cases hpte : word s (tableOf s pd k) j % 2 = 0
  · have hroom' : slotInfo (takeFrame s) pd k % 4096 ≠ 4095 := hroom
    simp only [hpte, if_true, wp_bind, wp_entry ht.geometry hipage hk1, hw]
    rw [hinc, ← wp_bind]
    exact wp_enter ht hpd hk' hj' he hlt hinfo fun t hc =>
      hmap t (fun _ => hpte) (.old hpr1 hsmall hroom' hc)
  · have hpte1 : word s (tableOf s pd k) j % 2 = 1 := by omega
    simp only [hpte, if_false, wp_kassert, decide_eq_true_eq, decide_eq_false_iff_not]
    exact ⟨fun hflag => hmerge hpr1 hpte1 hflag, fun hno => hbad (fun hok => hno ((hok.2 hpr1).2 hpte1)) _⟩

theorem wp_mapPagesPage {page : Nat} (flags : Nat) (h : Tree s spaces owner) (hpd : pd ∈ spaces)
    (hk : v / 4194304 = k) (hk' : k < 1023) (hj : v / 4096 % 1024 = j) (hpage : page < 4294967296)
    (hpool : word s pd k % 2 = 0 → ¬WordLeft (s.pools 0) → ∀ w, E (.outOfBounds w))
    (hbad : ¬Enterable s pd k j True → ∀ c, E (assertionFailed c))
    (hmap : ∀ t, Mapped s t pd k j (page ||| leafFlags flags) → Q () t) :
    wp (mapPagesPage pd (infoOf s pd) flags page v) E Q s := by
  have hg := h.geometry
  have hk1 : k < 1024 := by omega
  have hj' : j < 1024 := by omega
  have he := entry_lt flags hpage
  simp only [mapPagesPage, wp_bind, slot_of, index_of, hk, hj, wp_entry hg (h.dirPage hpd) hk1, wp_kassert,
    decide_eq_true_eq, decide_eq_false_iff_not, not_huge_iff, not_present_iff, Ne]
  refine ⟨fun hsmall => ?_, fun hhuge => hbad (fun hok => hhuge hok.1) _⟩
  by_cases hpr : word s pd k % 2 = 0
  · simp only [hpr, not_true_eq_false, if_false]
    exact wp_mapNewTable' h hpd hk' hj' he hpr (hpool hpr) hmap
  have hpr1 : word s pd k % 2 = 1 := by omega
  have hinfo := (((h.spaces pd hpd).slots k hk').entry hpr1 hsmall).1
  have hinfo' : word s (infoOf s pd) k ≠ 0 := hinfo
  have hipage := h.infoPage hpd
  have htab : word s (infoOf s pd) k &&& pageMask = tableOf s pd k := and_pageMask (word_lt _ _ _)
  have hlt := slotInfo_lt h hpd hk' hinfo
  have hinc : u32 (word s (infoOf s pd) k + 1) = slotInfo s pd k + 1 := u32_of_lt hlt
  simp only [hpr, not_false_eq_true, if_true, wp_bind, wp_kassert, wp_entry hg hipage hk1,
    decide_eq_true_eq, decide_eq_false_iff_not, not_not, htab, and_offset, hinc]
  refine ⟨fun _ => ⟨fun hroom => ?_, fun hfull => hbad (fun hok => (hok.2 hpr1).1 hfull) _⟩,
    fun hno => absurd hno hinfo'⟩
  rw [← wp_bind]
  exact wp_enter h hpd hk' hj' he hlt hinfo fun t hc => hmap t (.old hpr1 hsmall hroom hc)

end Rounds

section MappedPage

variable {s t : Machine} {spaces : List Nat} {owner : Owner} {pd k j e : Nat}

theorem Mapped.slotChange (h : Tree s spaces owner) (hpd : pd ∈ spaces) (hk : k < 1023)
    (hm : Mapped s t pd k j e) : SlotChange s t owner pd k := by
  cases hm with
  | new n _ hc => exact hc.slotChange h
  | old hpr hps _ hc =>
    exact hc.slotChange h hpd hk (((h.spaces pd hpd).slots k hk).entry hpr hps).1

/-- Mapping a page keeps the structures well formed, and the uses of pages there were. -/
theorem Mapped.tree (h : Tree s spaces owner) (hpd : pd ∈ spaces) (hk : k < 1023)
    (hm : Mapped s t pd k j e) :
    ∃ owner', Tree t spaces owner' ∧ ∀ n u, owner n = some u → owner' n = some u := by
  cases hm with
  | new n _ hc =>
    refine ⟨_, hc.tree h hpd hk (by decide) (by decide), fun m u hu => ?_⟩
    rw [Function.update_of_ne (h.ne_of_clear hc.took.clear hc.took.lt hu), hu]
  | old hpr hps hroom hc =>
    have hinfo := (((h.spaces pd hpd).slots k hk).entry hpr hps).1
    have hpos := (((h.spaces pd hpd).slots k hk).counted hinfo).2
    exact ⟨owner, hc.tree h hpd hk hinfo (by omega) (by omega), fun _ _ hu => hu⟩

theorem Mapped.framed (hm : Mapped s t pd k j e) : Framed s t := by
  cases hm with
  | new n _ hc => exact hc.framed
  | old _ _ _ hc => exact hc.framed

theorem Mapped.phys (hm : Mapped s t pd k j e) : t.phys = s.phys := by
  cases hm with
  | new n _ hc => exact hc.phys
  | old _ _ _ hc => exact hc.phys

end MappedPage

end YggKernel.Paging
