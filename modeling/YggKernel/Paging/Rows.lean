import YggKernel.Paging.Pages

namespace YggKernel.Paging

open Lib.Program Lib.ByteMemory Lib.BitWords Lib.Masks Phys Pool

def HasTable (s : Machine) (pd k : Nat) : Prop := word s pd k % 2 = 1 ∧ word s pd k / 128 % 2 = 0

/-- The table of a slot by the pointer to `table_info` that a call has read at its start. -/
def tableAt (s : Machine) (info k : Nat) : Nat := word s info k / 4096 * 4096

/-- One space as a call over a range sees it. The call may reach the last slot too, and overwrite
the pointer in it. -/
structure Rows (s : Machine) (pd info : Nat) : Prop where
  geometry : Geometry s
  dirPage : IsPage s pd
  infoPage : IsPage s info
  apart : info ≠ pd
  table : ∀ k < 1024, HasTable s pd k → IsPage s (tableAt s info k) ∧ tableAt s info k ≠ pd ∧
    tableAt s info k ≠ info ∧ word s pd k = physOf s (tableAt s info k) + 7
  distinct : ∀ k < 1024, ∀ k' < 1024, HasTable s pd k → HasTable s pd k' →
    tableAt s info k = tableAt s info k' → k = k'
  taken : ∀ n, bit (s.pools 0).bitmap n = false → poolPage n ≠ pd ∧ poolPage n ≠ info ∧
    ∀ k < 1024, HasTable s pd k → poolPage n ≠ tableAt s info k

def rowAt (s : Machine) (pd info k : Nat) : Slot :=
  if word s pd k % 2 = 0 then .absent
  else if word s pd k / 128 % 2 = 1 then .huge (word s pd k)
  else .table (entriesAt s (tableAt s info k))

section Shape

variable {s : Machine} {spaces : List Nat} {owner : Owner} {pd info k a : Nat}

theorem Tree.rows (h : Tree s spaces owner) (hpd : pd ∈ spaces) : Rows s pd (infoOf s pd) := by
  have hok := h.spaces pd hpd
  have hslot : ∀ k < 1024, HasTable s pd k → k < 1023 ∧ slotInfo s pd k ≠ 0 := by
    intro k hk ht
    have hlast : k ≠ 1023 := by
      rintro rfl
      have heven := h.infoOf_even hpd
      have hodd : infoOf s pd % 2 = 1 := ht.1
      omega
    exact ⟨by omega, ((hok.slots k (by omega)).entry ht.1 ht.2).1⟩
  have hrole : ∀ k < 1024, HasTable s pd k → Role s owner (tableAt s (infoOf s pd) k) (.table pd k) := fun k hk ht =>
    h.tableRole hpd (hslot k hk ht).1 (hslot k hk ht).2
  refine ⟨h.geometry, h.dirPage hpd, h.infoPage hpd, hok.info.ne h.geometry hok.directory (by simp), fun k hk ht => ?_,
    fun k hk k' hk' ht ht' heq => ?_, fun n hclear => ?_⟩
  · have htab := hrole k hk ht
    exact ⟨htab.isPage, htab.ne h.geometry hok.directory (by simp), htab.ne h.geometry hok.info (by simp),
      ((hok.slots k (hslot k hk ht).1).entry ht.1 ht.2).2⟩
  · have hother := hrole k' hk' ht'
    rw [← heq] at hother
    simpa using (hrole k hk ht).unique h.geometry hother
  · exact ⟨(h.fresh hclear hok.directory).symm, (h.fresh hclear hok.info).symm,
      fun k hk ht => (h.fresh hclear (hrole k hk ht)).symm⟩

theorem Rows.walk_eq (h : Rows s pd info) (ha : a < 4294967296) :
    mmuWalk s.mem (physOf s pd) a = (rowAt s pd info (a / 4194304)).translate a := by
  have hg := h.geometry
  have hk : a / 4194304 < 1024 := by omega
  have hj : a / 4096 % 1024 < 1024 := Nat.mod_lt _ (by decide)
  have hlt := physOf_isPage_lt hg h.dirPage
  have hmod := physOf_isPage_aligned hg h.dirPage
  have hcr3 : physOf s pd &&& pageMask = physOf s pd := by
    rw [and_pageMask (by omega)]
    omega
  have hpde : load32 s.mem (physOf s pd + 4 * (a / 4194304)) = word s pd (a / 4194304) := rfl
  unfold mmuWalk rowAt
  simp only [slot_of, index_of, hcr3, not_present_iff, not_huge_iff, Ne, ite_not, hpde]
  by_cases hpr : word s pd (a / 4194304) % 2 = 0
  · simp only [hpr, if_true]
    rfl
  by_cases hps : word s pd (a / 4194304) / 128 % 2 = 0
  · obtain ⟨htpage, _, _, hentry⟩ := h.table _ hk ⟨by omega, hps⟩
    have htmod := physOf_isPage_aligned hg htpage
    have htlt := physOf_isPage_lt hg htpage
    have hpt : word s pd (a / 4194304) &&& pageMask = physOf s (tableAt s info (a / 4194304)) := by
      rw [and_pageMask (word_lt _ _ _), hentry]
      omega
    have hpte : load32 s.mem (physOf s (tableAt s info (a / 4194304)) + 4 * (a / 4096 % 1024)) =
        word s (tableAt s info (a / 4194304)) (a / 4096 % 1024) := rfl
    have hperm : ∀ e, word s pd (a / 4194304) &&& e &&& (mmFlgUs ||| mmFlgWr) = e &&& (mmFlgUs ||| mmFlgWr) := by
      intro e
      have h7 : (physOf s (tableAt s info (a / 4194304)) + 7) &&& (mmFlgUs ||| mmFlgWr) = mmFlgUs ||| mmFlgWr := by
        rw [and_mod_two_pow (show mmFlgUs ||| mmFlgWr < 2 ^ 3 by decide),
          show (physOf s (tableAt s info (a / 4194304)) + 7) % 2 ^ 3 = 7 by omega]
        decide
      rw [Nat.and_comm _ e, Nat.and_assoc, hentry, h7]
    simp only [hpr, hps, if_false, if_true, show ¬(0 = 1) by decide, hpt, hpte, hperm, Slot.translate, leaf,
      entriesAt, hj]
  · have hps' : word s pd (a / 4194304) / 128 % 2 = 1 := by omega
    simp only [hpr, hps', if_false, if_true]
    rfl

end Shape

/-- A page of the pool became the table of a slot, with one entry written to it. -/
structure RowAdded (s t : Machine) (pd info k n j e : Nat) : Prop where
  framed : Framed s t
  phys : t.phys = s.phys
  took : TookPoolPage s.pools n t.pools
  words : ∀ v i, IsPage s v → i < 1024 → word t v i =
    if v = poolPage n then (if i = j then e else word s v i)
    else if v = pd ∧ i = k then physOf s (poolPage n) + 7
    else if v = info ∧ i = k then poolPage n + 1
    else word s v i

structure RowSet (s t : Machine) (pd info k j e : Nat) : Prop where
  framed : Framed s t
  phys : t.phys = s.phys
  pools : t.pools = s.pools
  words : ∀ v i, IsPage s v → i < 1024 → word t v i =
    if v = tableAt s info k ∧ i = j then e
    else if v = info ∧ i = k then word s info k + 1
    else word s v i

section Writing

variable {s t : Machine} {pd info k j e n : Nat} {E : Fault → Prop} {Q : Unit → Machine → Prop}

theorem wp_addRow (h : Rows s pd info) (hk : k < 1024) (hj : j < 1024) (he : e < 4294967296)
    (hE : ¬WordLeft (s.pools 0) → ∀ w, E (.outOfBounds w))
    (hQ : ∀ n t, RowAdded s t pd info k n j e → Q () t) : wp (mapNewTable pd info k j e) E Q s := by
  have hg := h.geometry
  rw [mapNewTable, wp_bind]
  refine wp_poolAllocate hg hE fun n ps took => ?_
  have hg1 := geometry_pools hg took
  have hpage : IsPage s (poolPage n) := isPage_poolPage took.lt
  have hmod := physOf_isPage_aligned hg hpage
  have hlt := physOf_isPage_lt hg hpage
  have hpt : poolPage n ||| 1 = poolPage n + 1 := page_or (isPage_bounds hg hpage).1 (by decide)
  have hpde : physOf s (poolPage n) ||| (x86MmFlgPr ||| x86MmFlgWr ||| x86MmFlgUs) =
      physOf s (poolPage n) + 7 := page_or hmod (by decide)
  have hg2 := geometry_setWord hg1 info k (poolPage n + 1)
  have hg3 := geometry_setWord hg2 pd k (physOf s (poolPage n) + 7)
  have hpl := (isPage_bounds hg hpage).2.1
  obtain ⟨hnd, hni, _⟩ := h.taken n took.clear
  simp only [wp_bind, hpt, hpde]
  rw [wp_setEntry hg1 _ h.infoPage hk, wp_setEntry hg2 _ h.dirPage hk, wp_setEntry hg3 _ hpage hj]
  refine hQ n _ ⟨?_, rfl, took, fun v i hv hi => ?_⟩
  · exact (((framed_pools took.paddr).trans (framed_setWord hg1 _ h.infoPage hk)).trans
      (framed_setWord hg2 _ h.dirPage hk)).trans (framed_setWord hg3 _ hpage hj)
  · rw [word_setWord hg3 hpage hv hj hi he, word_setWord hg2 h.dirPage hv hk hi (by omega),
      word_setWord hg1 h.infoPage hv hk hi (by omega), word_pools took.paddr]
    by_cases hvn : v = poolPage n
    · simp only [hvn, hni, hnd, true_and, false_and, if_true, if_false]
    · simp only [hvn, false_and, if_false]

theorem wp_setRow (h : Rows s pd info) (hk : k < 1024) (hj : j < 1024) (he : e < 4294967296) (htable : HasTable s pd k)
    (hQ : ∀ t, RowSet s t pd info k j e → Q () t) :
    wp (do setEntry info k (word s info k + 1); setEntry (tableAt s info k) j e) E Q s := by
  have hg := h.geometry
  obtain ⟨htpage, _, _, _⟩ := h.table k hk htable
  have hcount : word s info k + 1 < 4294967296 := by
    have := (isPage_bounds hg htpage).2.2
    unfold tableAt poolVaddr kernelVirtBase at this
    omega
  have hg1 := geometry_setWord hg info k (word s info k + 1)
  rw [wp_bind, wp_setEntry hg _ h.infoPage hk, wp_setEntry hg1 _ htpage hj]
  refine hQ _ ⟨(framed_setWord hg _ h.infoPage hk).trans (framed_setWord hg1 _ htpage hj), rfl, rfl, fun v i hv hi => ?_⟩
  rw [word_setWord hg1 htpage hv hj hi he, word_setWord hg h.infoPage hv hk hi hcount]

end Writing

def Admits (s : Machine) (pd info flags k j : Nat) : Prop :=
  word s pd k / 128 % 2 = 0 ∧ (word s pd k % 2 = 1 →
    word s info k % 4096 ≠ 4095 ∧ (word s (tableAt s info k) j % 2 = 1 → flags &&& mmFlgMerge ≠ 0))

inductive RangeRound (s t : Machine) (pd info k j e : Nat) : Prop
  | added (n : Nat) (habsent : word s pd k % 2 = 0) (hc : RowAdded (takeFrame s) t pd info k n j e)
  | set (htable : HasTable s pd k) (hclear : word s (tableAt s info k) j % 2 = 0) (hroom : word s info k % 4096 ≠ 4095)
      (hc : RowSet (takeFrame s) t pd info k j e)
  | kept (htable : HasTable s pd k) (hpresent : word s (tableAt s info k) j % 2 = 1) (heq : t = takeFrame s)

section Rounds

variable {s t : Machine} {pd info k j e n v a flags : Nat} {E : Fault → Prop} {Q : Unit → Machine → Prop}

theorem Rows.takeFrame (h : Rows s pd info) : Rows (takeFrame s) pd info :=
  ⟨⟨h.geometry.pools, h.geometry.chunk, h.geometry.top, h.geometry.aligned, h.geometry.low, h.geometry.high⟩, h.dirPage,
    h.infoPage, h.apart, h.table, h.distinct, h.taken⟩

theorem wp_rangeRound (flags : Nat) (h : Rows s pd info) (hk : v / 4194304 = k) (hk' : k < 1024) (hj : v / 4096 % 1024 = j)
    (hframe : nextFrame s < 4294967296)
    (hpool : word s pd k % 2 = 0 → ¬WordLeft (s.pools 0) → ∀ w, E (.outOfBounds w))
    (hbad : ¬Admits s pd info flags k j → ∀ c, E (assertionFailed c))
    (hQ : ∀ t, Admits s pd info flags k j → RangeRound s t pd info k j (nextFrame s ||| leafFlags flags) → Q () t) :
    wp (mapRangePage pd info flags v) E Q s := by
  have hg := h.geometry
  have ht := h.takeFrame
  have hj' : j < 1024 := by omega
  have he : nextFrame s ||| leafFlags flags < 4294967296 := entry_lt _ hframe
  have hw : ∀ v i, word (Paging.takeFrame s) v i = word s v i := fun _ _ => rfl
  simp only [mapRangePage, wp_bind, slot_of, index_of, hk, hj, wp_entry hg h.dirPage hk', wp_kassert,
    wp_allocPhysicalPage, decide_eq_true_eq, decide_eq_false_iff_not, not_huge_iff]
  refine ⟨fun hsmall => ?_, fun hhuge => hbad (fun hok => hhuge hok.1) _⟩
  rw [wp_entry ht.geometry h.dirPage hk']
  simp only [hw, not_present_iff, Ne]
  by_cases hpr : word s pd k % 2 = 0
  · simp only [hpr, not_true_eq_false, if_false]
    exact wp_addRow ht hk' hj' he (hpool hpr) fun n t hc => hQ t ⟨hsmall, fun hodd => by omega⟩ (.added n hpr hc)
  have hpr1 : word s pd k % 2 = 1 := by omega
  obtain ⟨htpage, _, _, _⟩ := h.table k hk' ⟨hpr1, hsmall⟩
  have hbounds := (isPage_bounds hg htpage).2.2
  have hne : word s info k ≠ 0 := by
    intro hzero
    unfold tableAt poolVaddr kernelVirtBase at hbounds
    omega
  have htab : word s info k &&& pageMask = tableAt s info k := and_pageMask (word_lt _ _ _)
  have hinc : u32 (word s info k + 1) = word (Paging.takeFrame s) info k + 1 := u32_of_lt (by
    unfold tableAt poolVaddr kernelVirtBase at hbounds
    omega)
  have hipage : IsPage (Paging.takeFrame s) info := h.infoPage
  have htpage' : IsPage (Paging.takeFrame s) (tableAt s info k) := htpage
  simp only [hpr, not_false_eq_true, if_true, wp_bind, wp_kassert, wp_entry ht.geometry hipage hk', hw,
    decide_eq_true_eq, decide_eq_false_iff_not, not_not, htab, and_offset]
  refine ⟨fun _ => ⟨fun hroom => ?_, fun hfull => hbad (fun hok => (hok.2 hpr1).1 hfull) _⟩, fun hno => absurd hno hne⟩
  rw [wp_entry ht.geometry htpage' hj']
  simp only [hw]
  by_cases hpte : word s (tableAt s info k) j % 2 = 0
  · simp only [hpte, if_true, wp_bind, wp_entry ht.geometry hipage hk', hw]
    rw [hinc, ← wp_bind]
    exact wp_setRow ht hk' hj' he ⟨hpr1, hsmall⟩ fun t hc =>
      hQ t ⟨hsmall, fun _ => ⟨hroom, fun hodd => by omega⟩⟩ (.set ⟨hpr1, hsmall⟩ hpte hroom hc)
  · have hpte1 : word s (tableAt s info k) j % 2 = 1 := by omega
    simp only [hpte, if_false, wp_kassert, decide_eq_true_eq, decide_eq_false_iff_not]
    exact ⟨fun hflag => hQ _ ⟨hsmall, fun _ => ⟨hroom, fun _ => hflag⟩⟩ (.kept ⟨hpr1, hsmall⟩ hpte1 rfl),
      fun hno => hbad (fun hok => hno ((hok.2 hpr1).2 hpte1)) _⟩

end Rounds

/-- Only the row of one slot has changed, and it has a table of its own. -/
structure RowChange (s t : Machine) (pd info k : Nat) : Prop where
  framed : Framed s t
  pools : FirstOnly t.pools
  taken : ∀ n, bit (t.pools 0).bitmap n = false → bit (s.pools 0).bitmap n = false ∧ poolPage n ≠ tableAt t info k
  directory : ∀ i < 1024, i ≠ k → word t pd i = word s pd i
  counts : ∀ i < 1024, i ≠ k → word t info i = word s info i
  tables : ∀ i < 1024, i ≠ k → HasTable s pd i → ∀ x < 1024, word t (tableAt s info i) x = word s (tableAt s info i) x
  page : IsPage s (tableAt t info k) ∧ tableAt t info k ≠ pd ∧ tableAt t info k ≠ info
  own : ∀ i < 1024, i ≠ k → HasTable s pd i → tableAt t info k ≠ tableAt s info i
  entry : word t pd k = physOf s (tableAt t info k) + 7

section Changes

variable {s t : Machine} {pd info k j e n i : Nat}

theorem RowChange.tableAt_eq (hc : RowChange s t pd info k) (hi : i < 1024) (hne : i ≠ k) :
    tableAt t info i = tableAt s info i := by
  unfold tableAt
  rw [hc.counts i hi hne]

theorem RowChange.hasTable_iff (hc : RowChange s t pd info k) (hi : i < 1024) (hne : i ≠ k) :
    HasTable t pd i ↔ HasTable s pd i := by
  unfold HasTable
  rw [hc.directory i hi hne]

theorem RowChange.rowAt_eq (hc : RowChange s t pd info k) (hi : i < 1024) (hne : i ≠ k) :
    rowAt t pd info i = rowAt s pd info i := by
  unfold rowAt
  rw [hc.directory i hi hne, hc.tableAt_eq hi hne]
  by_cases h1 : word s pd i % 2 = 0
  · rw [if_pos h1, if_pos h1]
  by_cases h2 : word s pd i / 128 % 2 = 1
  · rw [if_neg h1, if_neg h1, if_pos h2, if_pos h2]
  rw [if_neg h1, if_neg h1, if_neg h2, if_neg h2]
  refine congrArg Slot.table (funext fun x => ?_)
  unfold entriesAt
  by_cases hx : x < 1024
  · rw [if_pos hx, if_pos hx, hc.tables i hi hne ⟨by omega, by omega⟩ x hx]
  · rw [if_neg hx, if_neg hx]

theorem RowChange.rows (h : Rows s pd info) (hc : RowChange s t pd info k) : Rows t pd info := by
  have hpage := hc.framed.isPage_iff
  have hphys := hc.framed.physOf_eq
  refine ⟨hc.framed.geometry h.geometry hc.pools, (hpage _).mpr h.dirPage, (hpage _).mpr h.infoPage, h.apart,
    fun i hi ht => ?_, fun i hi i' hi' ht ht' heq => ?_, fun n hclear => ?_⟩
  · by_cases hik : i = k
    · obtain ⟨h1, h2, h3⟩ := hc.page
      rw [hik, hphys]
      exact ⟨(hpage _).mpr h1, h2, h3, hc.entry⟩
    · obtain ⟨h1, h2, h3, h4⟩ := h.table i hi ((hc.hasTable_iff hi hik).mp ht)
      rw [hc.tableAt_eq hi hik, hc.directory i hi hik, hphys]
      exact ⟨(hpage _).mpr h1, h2, h3, h4⟩
  · by_cases hik : i = k
    · by_cases hik' : i' = k
      · rw [hik, hik']
      · rw [hik, hc.tableAt_eq hi' hik'] at heq
        exact absurd heq (hc.own i' hi' hik' ((hc.hasTable_iff hi' hik').mp ht'))
    · by_cases hik' : i' = k
      · rw [hik', hc.tableAt_eq hi hik] at heq
        exact absurd heq.symm (hc.own i hi hik ((hc.hasTable_iff hi hik).mp ht))
      · rw [hc.tableAt_eq hi hik, hc.tableAt_eq hi' hik'] at heq
        exact h.distinct i hi i' hi' ((hc.hasTable_iff hi hik).mp ht) ((hc.hasTable_iff hi' hik').mp ht') heq
  · obtain ⟨hbefore, hnew⟩ := hc.taken n hclear
    obtain ⟨h1, h2, h3⟩ := h.taken n hbefore
    refine ⟨h1, h2, fun i hi ht => ?_⟩
    by_cases hik : i = k
    · rwa [hik]
    · rw [hc.tableAt_eq hi hik]
      exact h3 i hi ((hc.hasTable_iff hi hik).mp ht)

variable (h : Rows s pd info) (hk : k < 1024)
include h hk

theorem RowAdded.tableAt_eq (hc : RowAdded s t pd info k n j e) : tableAt t info k = poolPage n := by
  obtain ⟨_, hni, _⟩ := h.taken n hc.took.clear
  unfold tableAt
  rw [hc.words _ _ h.infoPage hk, if_neg (Ne.symm hni), if_neg fun hh => h.apart hh.1, if_pos ⟨rfl, rfl⟩]
  unfold poolPage poolVaddr
  omega

theorem RowAdded.entry_eq (hc : RowAdded s t pd info k n j e) : word t pd k = physOf s (poolPage n) + 7 := by
  obtain ⟨hnd, _, _⟩ := h.taken n hc.took.clear
  rw [hc.words _ _ h.dirPage hk, if_neg (Ne.symm hnd), if_pos ⟨rfl, rfl⟩]

theorem RowAdded.rowChange (hc : RowAdded s t pd info k n j e) : RowChange s t pd info k := by
  obtain ⟨hnd, hni, hnt⟩ := h.taken n hc.took.clear
  have htable := hc.tableAt_eq h hk
  refine ⟨hc.framed, hc.took.firstOnly h.geometry.pools, fun m hclear => ?_, fun i hi hik => ?_, fun i hi hik => ?_,
    fun i hi hik ht x hx => ?_, ?_, fun i hi hik ht => ?_, ?_⟩
  · rw [hc.took.set, Bool.or_eq_false_iff, decide_eq_false_iff_not] at hclear
    rw [htable]
    exact ⟨hclear.1, fun heq => hclear.2 (poolPage_inj heq)⟩
  · rw [hc.words _ _ h.dirPage hi, if_neg (Ne.symm hnd), if_neg fun hh => hik hh.2, if_neg fun hh => hik hh.2]
  · rw [hc.words _ _ h.infoPage hi, if_neg (Ne.symm hni), if_neg fun hh => hik hh.2, if_neg fun hh => hik hh.2]
  · obtain ⟨h1, h2, h3, _⟩ := h.table i hi ht
    rw [hc.words _ _ h1 hx, if_neg (Ne.symm (hnt i hi ht)), if_neg fun hh => h2 hh.1, if_neg fun hh => h3 hh.1]
  · rw [htable]
    exact ⟨isPage_poolPage hc.took.lt, hnd, hni⟩
  · rw [htable]
    exact hnt i hi ht
  · rw [htable]
    exact hc.entry_eq h hk

theorem RowAdded.rowAt_eq (hc : RowAdded s t pd info k n j e) :
    ∃ entries, rowAt t pd info k = .table entries ∧ (j < 1024 → entries j = e) := by
  have hpage : IsPage s (poolPage n) := isPage_poolPage hc.took.lt
  have hmod := physOf_isPage_aligned h.geometry hpage
  unfold rowAt
  rw [hc.entry_eq h hk, hc.tableAt_eq h hk, if_neg (by omega), if_neg (by omega)]
  refine ⟨_, rfl, fun hj => ?_⟩
  unfold entriesAt
  rw [if_pos hj, hc.words _ _ hpage hj, if_pos rfl, if_pos rfl]

variable (htable : HasTable s pd k) (hroom : word s info k % 4096 ≠ 4095)
include htable

theorem RowSet.entry_eq (hc : RowSet s t pd info k j e) : word t pd k = word s pd k := by
  obtain ⟨_, h2, _, _⟩ := h.table k hk htable
  rw [hc.words _ _ h.dirPage hk, if_neg fun hh => h2 hh.1.symm, if_neg fun hh => h.apart hh.1.symm]

include hroom

theorem RowSet.tableAt_eq (hc : RowSet s t pd info k j e) : tableAt t info k = tableAt s info k := by
  obtain ⟨_, _, h3, _⟩ := h.table k hk htable
  unfold tableAt
  rw [hc.words _ _ h.infoPage hk, if_neg fun hh => h3 hh.1.symm, if_pos ⟨rfl, rfl⟩]
  omega

theorem RowSet.rowChange (hc : RowSet s t pd info k j e) : RowChange s t pd info k := by
  obtain ⟨h1, h2, h3, h4⟩ := h.table k hk htable
  have htab := hc.tableAt_eq h hk htable hroom
  refine ⟨hc.framed, hc.pools ▸ h.geometry.pools, fun m hclear => ?_, fun i hi hik => ?_, fun i hi hik => ?_,
    fun i hi hik ht x hx => ?_, ?_, fun i hi hik ht => ?_, ?_⟩
  · rw [hc.pools] at hclear
    rw [htab]
    exact ⟨hclear, (h.taken m hclear).2.2 k hk htable⟩
  · rw [hc.words _ _ h.dirPage hi, if_neg fun hh => h2 hh.1.symm, if_neg fun hh => hik hh.2]
  · rw [hc.words _ _ h.infoPage hi, if_neg fun hh => h3 hh.1.symm, if_neg fun hh => hik hh.2]
  · obtain ⟨hi1, _, hi3, _⟩ := h.table i hi ht
    rw [hc.words _ _ hi1 hx, if_neg fun hh => hik (h.distinct i hi k hk ht htable hh.1), if_neg fun hh => hi3 hh.1]
  · rw [htab]
    exact ⟨h1, h2, h3⟩
  · rw [htab]
    exact fun heq => hik (h.distinct k hk i hi htable ht heq).symm
  · rw [htab, hc.entry_eq h hk htable]
    exact h4

theorem RowSet.rowAt_eq (hc : RowSet s t pd info k j e) (hj : j < 1024) :
    rowAt t pd info k = .table (Function.update (entriesAt s (tableAt s info k)) j e) := by
  obtain ⟨h1, _, h3, _⟩ := h.table k hk htable
  have hodd := htable.1
  have hsmall := htable.2
  unfold rowAt
  rw [hc.entry_eq h hk htable, hc.tableAt_eq h hk htable hroom, if_neg (by omega), if_neg (by omega)]
  refine congrArg Slot.table (entriesAt_update hj fun i hi => ?_)
  simp only [hc.words _ _ h1 hi, h3, true_and, false_and, if_false]

end Changes

end YggKernel.Paging
