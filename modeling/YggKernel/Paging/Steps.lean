import YggKernel.Paging.Tree

namespace YggKernel.Paging

open Lib.Program Lib.ByteMemory Lib.BitWords Lib.Masks Phys Pool

structure Framed (s t : Machine) : Prop where
  mem : ∀ x, ¬InPaging s x → t.mem x = s.mem x
  cr3 : t.cr3 = s.cr3
  mmKernel : t.mmKernel = s.mmKernel
  paddr : (t.pools 0).paddr = (s.pools 0).paddr

section Frames

variable {s t u : Machine}

theorem Framed.refl (s : Machine) : Framed s s := ⟨fun _ _ => rfl, rfl, rfl, rfl⟩

theorem Framed.inPaging_iff (h : Framed s t) (x : Nat) : InPaging t x ↔ InPaging s x := by
  unfold InPaging
  rw [h.mmKernel, h.paddr]

theorem Framed.physOf_eq (h : Framed s t) (v : Nat) : physOf t v = physOf s v := by
  unfold physOf
  rw [h.paddr]

theorem Framed.isPage_iff (h : Framed s t) (v : Nat) : IsPage t v ↔ IsPage s v := by
  unfold IsPage
  rw [h.mmKernel]

theorem Framed.trans (h : Framed s t) (h' : Framed t u) : Framed s u := by
  refine ⟨fun x hx => ?_, h'.cr3.trans h.cr3, h'.mmKernel.trans h.mmKernel, h'.paddr.trans h.paddr⟩
  rw [h'.mem x fun hin => hx ((h.inPaging_iff x).mp hin), h.mem x hx]

theorem Framed.geometry (h : Framed s t) (hg : Geometry s) (hp : FirstOnly t.pools) : Geometry t := by
  refine ⟨hp, ?_, ?_, ?_, ?_, ?_⟩
  · rw [h.paddr]
    exact hg.chunk
  · rw [h.paddr]
    exact hg.top
  · rw [h.mmKernel]
    exact hg.aligned
  · rw [h.mmKernel]
    exact hg.low
  · rw [h.mmKernel]
    exact hg.high

theorem geometry_setWord (hg : Geometry s) (v k x : Nat) : Geometry (setWord s v k x) :=
  ⟨hg.pools, hg.chunk, hg.top, hg.aligned, hg.low, hg.high⟩

theorem framed_setWord (hg : Geometry s) {v k : Nat} (x : Nat) (hv : IsPage s v) (hk : k < 1024) :
    Framed s (setWord s v k x) := by
  refine ⟨fun y hy => store32_apply_of_outside ?_, rfl, rfl, rfl⟩
  by_contra hin
  exact hy (inPaging_of_isPage hg hv (by omega) (by omega))

end Frames

section Slots

variable {s t : Machine} {spaces : List Nat} {owner owner' : Owner} {pd k : Nat}

/-- Only slot `k` of the space `pd` and what belongs to it has changed, besides pages
that were not in use. -/
structure SlotChange (s t : Machine) (owner : Owner) (pd k : Nat) : Prop where
  framed : Framed s t
  words : ∀ v u, Role s owner v u → ∀ i < 1024, ¬(v = pd ∧ i = k) → ¬(v = infoOf s pd ∧ i = k) →
    u ≠ .table pd k → word t v i = word s v i

theorem SlotOk.keep (h : SlotOk s owner pd k) (hf : ∀ v, physOf t v = physOf s v) (hw : word t pd k = word s pd k)
    (hinfo : slotInfo t pd k = slotInfo s pd k)
    (hr : ∀ v, Role s owner v (.table pd k) → Role t owner' v (.table pd k)) : SlotOk t owner' pd k := by
  refine ⟨fun hne => ?_, fun h1 h2 => ?_⟩
  · rw [hinfo] at hne
    obtain ⟨hrole, hpos⟩ := h.counted hne
    unfold tableOf
    rw [hinfo]
    exact ⟨hr _ hrole, hpos⟩
  · rw [hw] at h1 h2
    unfold tableOf
    rw [hw, hinfo, hf]
    exact h.entry h1 h2

theorem SlotChange.directory_eq (h : Tree s spaces owner) (hc : SlotChange s t owner pd k) (hpd : pd ∈ spaces)
    {pd' : Nat} (hpd' : pd' ∈ spaces) {i : Nat} (hi : i < 1024) (hne : ¬(pd' = pd ∧ i = k)) :
    word t pd' i = word s pd' i := by
  have hdir := (h.spaces pd' hpd').directory
  refine hc.words pd' _ hdir i hi hne (fun hh => ?_) (by simp)
  exact hdir.ne h.geometry (h.spaces pd hpd).info (by simp) hh.1

theorem SlotChange.infoOf_eq (h : Tree s spaces owner) (hc : SlotChange s t owner pd k) (hpd : pd ∈ spaces)
    {pd' : Nat} (hpd' : pd' ∈ spaces) (hk : k < 1023) : infoOf t pd' = infoOf s pd' :=
  hc.directory_eq h hpd hpd' (by decide) fun hh => by omega

theorem SlotChange.slotInfo_eq (h : Tree s spaces owner) (hc : SlotChange s t owner pd k) (hpd : pd ∈ spaces)
    {pd' k' : Nat} (hpd' : pd' ∈ spaces) (hk : k < 1023) (hk' : k' < 1024) (hne : ¬(pd' = pd ∧ k' = k)) :
    slotInfo t pd' k' = slotInfo s pd' k' := by
  have hinfo := (h.spaces pd' hpd').info
  unfold slotInfo
  rw [hc.infoOf_eq h hpd hpd' hk]
  refine hc.words _ _ hinfo k' hk' (fun hh => ?_) (fun hh => ?_) (by simp)
  · exact hinfo.ne h.geometry (h.spaces pd hpd).directory (by simp) hh.1
  · have huse := hinfo.unique h.geometry (hh.1 ▸ (h.spaces pd hpd).info)
    exact hne ⟨by simpa using huse, hh.2⟩

theorem SlotChange.slotAt_eq (h : Tree s spaces owner) (hc : SlotChange s t owner pd k) (hpd : pd ∈ spaces)
    {pd' k' : Nat} (hpd' : pd' ∈ spaces) (hk : k < 1023) (hk' : k' < 1024) (hne : ¬(pd' = pd ∧ k' = k)) :
    slotAt t pd' k' = slotAt s pd' k' := by
  have hinfo := hc.slotInfo_eq h hpd hpd' hk hk' hne
  have htab : tableOf t pd' k' = tableOf s pd' k' := by
    unfold tableOf
    rw [hinfo]
  unfold slotAt
  rw [hc.directory_eq h hpd hpd' hk' hne, htab]
  by_cases h1 : word s pd' k' % 2 = 0
  · rw [if_pos h1, if_pos h1]
  by_cases h2 : word s pd' k' / 128 % 2 = 1
  · rw [if_neg h1, if_neg h1, if_pos h2, if_pos h2]
  rw [if_neg h1, if_neg h1, if_neg h2, if_neg h2]
  have hlt : k' < 1023 := by
    refine lt_of_le_of_ne (by omega) fun heq => h1 ?_
    rw [heq]
    exact h.infoOf_even hpd'
  have hpresent := (((h.spaces pd' hpd').slots k' hlt).entry (by omega) (by omega)).1
  have hrole := h.tableRole hpd' hlt hpresent
  have hdirs := (h.spaces pd hpd).directory
  congr 1
  funext j
  unfold entriesAt
  by_cases hj : j < 1024
  · rw [if_pos hj, if_pos hj]
    refine hc.words _ _ hrole j hj (fun hh => ?_) (fun hh => ?_) fun hu => ?_
    · exact hrole.ne h.geometry hdirs (by simp) hh.1
    · exact hrole.ne h.geometry (h.spaces pd hpd).info (by simp) hh.1
    · simp only [Use.table.injEq] at hu
      exact hne hu
  · rw [if_neg hj, if_neg hj]

/-- A change of one slot keeps the structures well formed when it leaves this slot so. -/
theorem SlotChange.tree (h : Tree s spaces owner) (hc : SlotChange s t owner pd k) (hpd : pd ∈ spaces)
    (hk : k < 1023) (hp : FirstOnly t.pools)
    (htaken : ∀ n < 1024, ∀ u, owner' n = some u → bit (t.pools 0).bitmap n = true)
    (hroles : ∀ n u, owner n = some u → u ≠ .table pd k → owner' n = some u)
    (hslot : SlotOk t owner' pd k) : Tree t spaces owner' := by
  have hrole : ∀ v u, Role s owner v u → u ≠ .table pd k → Role t owner' v u := by
    rintro v u (⟨hv, hu⟩ | ⟨n, hn, hv, hu⟩) hne
    · exact .inl ⟨hv.trans hc.framed.mmKernel.symm, hu⟩
    · exact .inr ⟨n, hn, hv, hroles n u hu hne⟩
  refine ⟨hc.framed.geometry h.geometry hp, ?_, htaken, fun pd' hpd' => ⟨?_, ?_, fun k' hk' => ?_⟩⟩
  · rw [hc.framed.mmKernel]
    exact h.kernel
  · exact hrole _ _ (h.spaces pd' hpd').directory (by simp)
  · rw [hc.infoOf_eq h hpd hpd' hk]
    exact hrole _ _ (h.spaces pd' hpd').info (by simp)
  · by_cases heq : pd' = pd ∧ k' = k
    · rw [heq.1, heq.2]
      exact hslot
    · refine ((h.spaces pd' hpd').slots k' hk').keep hc.framed.physOf_eq (hc.directory_eq h hpd hpd' (by omega) heq)
        (hc.slotInfo_eq h hpd hpd' hk (by omega) heq) fun v hv => hrole v _ hv ?_
      simpa using heq

end Slots

section PoolCalls

variable {s : Machine} {ps : Nat → PagePool} {n : Nat}

theorem poolHost_lawful : poolHost.Lawful := ⟨fun _ _ _ => rfl⟩

theorem physOf_poolPage (s : Machine) (n : Nat) : physOf s (poolPage n) = (s.pools 0).paddr + 4096 * n := by
  unfold physOf poolPage
  rw [if_pos (by omega)]
  omega

theorem framed_pools (hp : (ps 0).paddr = (s.pools 0).paddr) : Framed s { s with pools := ps } :=
  ⟨fun _ _ => rfl, rfl, rfl, hp⟩

theorem word_pools (hp : (ps 0).paddr = (s.pools 0).paddr) (v k : Nat) :
    word { s with pools := ps } v k = word s v k := by
  unfold word
  rw [(framed_pools hp).physOf_eq]

theorem wp_poolAllocate {E : Fault → Prop} {Q : Option (Nat × Nat) → Machine → Prop} (hg : Geometry s)
    (hE : ¬WordLeft (s.pools 0) → ∀ w, E (.outOfBounds w))
    (hQ : ∀ n ps, TookPoolPage s.pools n ps →
      Q (some (poolPage n, physOf s (poolPage n))) { s with pools := ps }) :
    wp (x86PagePoolAllocate poolHost) E Q s := by
  refine wp_mono (allocate_first poolHost_lawful hg.pools) ?_ ?_
  · rintro _ ⟨⟨w, rfl⟩, hno⟩
    exact hE hno w
  · rintro r t ⟨_, ⟨p, rfl⟩, n, rfl, took⟩
    have hgoal := hQ n _ took
    rw [physOf_poolPage] at hgoal
    exact hgoal

theorem wp_poolFree {E : Fault → Prop} {Q : Unit → Machine → Prop} (hg : Geometry s) (hn : n < 1024)
    (hset : bit (s.pools 0).bitmap n = true)
    (hQ : ∀ ps, GavePoolPage s.pools n ps → Q () { s with pools := ps }) :
    wp (x86PagePoolFree poolHost (poolPage n)) E Q s := by
  refine wp_mono (free_first poolHost_lawful hg.pools hn) ?_ ?_
  · rintro _ ⟨_, hclear⟩
    have hclear' : bit (s.pools 0).bitmap n = false := hclear
    rw [hset] at hclear'
    cases hclear'
  · rintro _ t ⟨⟨p, rfl⟩, gave⟩
    exact hQ _ gave

end PoolCalls

section Changes

variable {s t : Machine} {spaces : List Nat} {owner : Owner} {pd k j e c n : Nat}

/-- A page of the pool became the table of a slot, with the given entries and count. -/
structure NewTable (s t : Machine) (pd k n c : Nat) (content : Nat → Nat) : Prop where
  framed : Framed s t
  phys : t.phys = s.phys
  took : TookPoolPage s.pools n t.pools
  words : ∀ v i, IsPage s v → i < 1024 → word t v i =
    if v = poolPage n then content i
    else if v = pd ∧ i = k then physOf s (poolPage n) + 7
    else if v = infoOf s pd ∧ i = k then poolPage n + c
    else word s v i

/-- One entry of the table of a slot was written, and `c` is what `table_info` now says. -/
structure Entered (s t : Machine) (pd k j e c : Nat) : Prop where
  framed : Framed s t
  phys : t.phys = s.phys
  pools : t.pools = s.pools
  words : ∀ v i, IsPage s v → i < 1024 → word t v i =
    if v = tableOf s pd k ∧ i = j then e
    else if v = infoOf s pd ∧ i = k then c
    else word s v i

theorem entriesAt_update {v : Nat} (hj : j < 1024)
    (hw : ∀ i < 1024, word t v i = if i = j then e else word s v i) :
    entriesAt t v = Function.update (entriesAt s v) j e := by
  funext i
  by_cases hij : i = j
  · rw [hij, Function.update_self, entriesAt, if_pos hj, hw j hj, if_pos rfl]
  · rw [Function.update_of_ne hij, entriesAt, entriesAt]
    by_cases hi : i < 1024
    · rw [if_pos hi, if_pos hi, hw i hi, if_neg hij]
    · rw [if_neg hi, if_neg hi]

theorem geometry_pools (hg : Geometry s) {ps : Nat → PagePool} (took : TookPoolPage s.pools n ps) :
    Geometry { s with pools := ps } :=
  (framed_pools took.paddr).geometry hg (took.firstOnly hg.pools)

theorem wp_mapNewTable {E : Fault → Prop} {Q : Unit → Machine → Prop} (h : Tree s spaces owner)
    (hpd : pd ∈ spaces) (hk : k < 1023) (hj : j < 1024) (he : e < 4294967296)
    (hE : ¬WordLeft (s.pools 0) → ∀ w, E (.outOfBounds w))
    (hQ : ∀ n t, NewTable s t pd k n 1 (fun i => if i = j then e else word s (poolPage n) i) → Q () t) :
    wp (mapNewTable pd (infoOf s pd) k j e) E Q s := by
  have hg := h.geometry
  have hk' : k < 1024 := by omega
  rw [mapNewTable, wp_bind]
  refine wp_poolAllocate hg hE fun n ps took => ?_
  have hg1 := geometry_pools hg took
  have hn := took.lt
  have hdir := h.dirPage hpd
  have hinfo := h.infoPage hpd
  have hpage : IsPage s (poolPage n) := isPage_poolPage hn
  have hmod := physOf_isPage_aligned hg hpage
  have hlt := physOf_isPage_lt hg hpage
  have hpt : poolPage n ||| 1 = poolPage n + 1 := page_or (isPage_bounds hg hpage).1 (by decide)
  have hpde : physOf s (poolPage n) ||| (x86MmFlgPr ||| x86MmFlgWr ||| x86MmFlgUs) =
      physOf s (poolPage n) + 7 := page_or hmod (by decide)
  have hg2 := geometry_setWord hg1 (infoOf s pd) k (poolPage n + 1)
  have hg3 := geometry_setWord hg2 pd k (physOf s (poolPage n) + 7)
  have hpl := (isPage_bounds hg hpage).2.1
  have hfresh := fun v u => h.fresh (v := v) (u := u) took.clear
  have hni := hfresh _ _ (h.spaces pd hpd).info
  have hnd := hfresh _ _ (h.spaces pd hpd).directory
  simp only [wp_bind, hpt, hpde]
  rw [wp_setEntry hg1 _ hinfo hk', wp_setEntry hg2 _ hdir hk', wp_setEntry hg3 _ hpage hj]
  refine hQ n _ ⟨?_, rfl, took, fun v i hv hi => ?_⟩
  · exact (((framed_pools took.paddr).trans (framed_setWord hg1 _ hinfo hk')).trans
      (framed_setWord hg2 _ hdir hk')).trans (framed_setWord hg3 _ hpage hj)
  · rw [word_setWord hg3 hpage hv hj hi he, word_setWord hg2 hdir hv hk' hi (by omega),
      word_setWord hg1 hinfo hv hk' hi (by omega), word_pools took.paddr]
    by_cases hvn : v = poolPage n
    · simp only [hvn, hni.symm, hnd.symm, true_and, false_and, if_true, if_false]
    · simp only [hvn, false_and, if_false]

section Added

variable {content : Nat → Nat} (h : Tree s spaces owner)
include h

theorem NewTable.slotChange (hc : NewTable s t pd k n c content) : SlotChange s t owner pd k := by
  refine ⟨hc.framed, fun v u hr i hi h1 h2 _ => ?_⟩
  rw [hc.words v i hr.isPage hi, if_neg (h.fresh hc.took.clear hr), if_neg h1, if_neg h2]

variable (hpd : pd ∈ spaces) (hk : k < 1023)
include hpd hk

theorem NewTable.slotInfo_eq (hc : NewTable s t pd k n c content) : slotInfo t pd k = poolPage n + c := by
  have hinfo := (h.spaces pd hpd).info
  have hne := hinfo.ne h.geometry (h.spaces pd hpd).directory (by simp)
  unfold slotInfo
  rw [(hc.slotChange h).infoOf_eq h hpd hpd hk, hc.words _ _ hinfo.isPage (by omega),
    if_neg (h.fresh hc.took.clear hinfo), if_neg fun hh => hne hh.1, if_pos ⟨rfl, rfl⟩]

theorem NewTable.tableOf_eq (hc : NewTable s t pd k n c content) (hc' : c < 4096) :
    tableOf t pd k = poolPage n := by
  unfold tableOf
  rw [hc.slotInfo_eq h hpd hk]
  unfold poolPage poolVaddr
  omega

theorem NewTable.entry_eq (hc : NewTable s t pd k n c content) :
    word t pd k = physOf s (poolPage n) + 7 := by
  have hdir := (h.spaces pd hpd).directory
  rw [hc.words _ _ hdir.isPage (by omega), if_neg (h.fresh hc.took.clear hdir), if_pos ⟨rfl, rfl⟩]

theorem NewTable.tree (hc : NewTable s t pd k n c content) (hpos : 0 < c) (hc' : c < 4096) :
    Tree t spaces (Function.update owner n (some (.table pd k))) := by
  have hn := hc.took.lt
  refine (hc.slotChange h).tree h hpd hk (hc.took.firstOnly h.geometry.pools) ?_ ?_ ⟨?_, ?_⟩
  · intro m hm u hu
    rw [hc.took.set]
    by_cases hmn : m = n
    · simp [hmn]
    · rw [Function.update_of_ne hmn] at hu
      simp [h.taken m hm u hu]
  · intro m u hu _
    rw [Function.update_of_ne (h.ne_of_clear hc.took.clear hc.took.lt hu), hu]
  · intro _
    rw [hc.tableOf_eq h hpd hk hc', hc.slotInfo_eq h hpd hk]
    refine ⟨.inr ⟨n, hn, rfl, Function.update_self ..⟩, ?_⟩
    unfold poolPage poolVaddr
    omega
  · intro _ _
    rw [hc.tableOf_eq h hpd hk hc', hc.slotInfo_eq h hpd hk, hc.framed.physOf_eq]
    exact ⟨by omega, hc.entry_eq h hpd hk⟩

theorem NewTable.slotAt_eq (hc : NewTable s t pd k n c content) (hc' : c < 4096) :
    slotAt t pd k = .table fun i => if i < 1024 then content i else 0 := by
  have hpage : IsPage s (poolPage n) := isPage_poolPage hc.took.lt
  have hmod := physOf_isPage_aligned h.geometry hpage
  unfold slotAt
  rw [hc.entry_eq h hpd hk, hc.tableOf_eq h hpd hk hc', if_neg (by omega), if_neg (by omega)]
  refine congrArg Slot.table (funext fun i => ?_)
  unfold entriesAt
  by_cases hi : i < 1024
  · rw [if_pos hi, if_pos hi, hc.words _ _ hpage hi, if_pos rfl]
  · rw [if_neg hi, if_neg hi]

end Added

section Existing

variable (h : Tree s spaces owner) (hpd : pd ∈ spaces) (hk : k < 1023) (hinfo : slotInfo s pd k ≠ 0)
include h hpd hk hinfo

theorem tableOf_ne : tableOf s pd k ≠ pd ∧ tableOf s pd k ≠ infoOf s pd ∧ infoOf s pd ≠ pd := by
  have htab := h.tableRole hpd hk hinfo
  have hok := h.spaces pd hpd
  exact ⟨htab.ne h.geometry hok.directory (by simp), htab.ne h.geometry hok.info (by simp),
    hok.info.ne h.geometry hok.directory (by simp)⟩

theorem Entered.slotChange (hc : Entered s t pd k j e c) : SlotChange s t owner pd k := by
  have htab := h.tableRole hpd hk hinfo
  refine ⟨hc.framed, fun v u hr i hi h1 h2 hu => ?_⟩
  rw [hc.words v i hr.isPage hi, if_neg fun hh => htab.ne h.geometry hr (Ne.symm hu) hh.1.symm, if_neg h2]

theorem Entered.slotInfo_eq (hc : Entered s t pd k j e c) : slotInfo t pd k = c := by
  obtain ⟨_, hne, _⟩ := tableOf_ne h hpd hk hinfo
  unfold slotInfo
  rw [(hc.slotChange h hpd hk hinfo).infoOf_eq h hpd hpd hk, hc.words _ _ (h.infoPage hpd) (by omega),
    if_neg fun hh => hne hh.1.symm, if_pos ⟨rfl, rfl⟩]

theorem Entered.tableOf_eq (hc : Entered s t pd k j e c) (hsame : c / 4096 = slotInfo s pd k / 4096) :
    tableOf t pd k = tableOf s pd k := by
  unfold tableOf
  rw [hc.slotInfo_eq h hpd hk hinfo, hsame]

theorem Entered.entry_eq (hc : Entered s t pd k j e c) : word t pd k = word s pd k := by
  obtain ⟨hne, _, hne'⟩ := tableOf_ne h hpd hk hinfo
  rw [hc.words _ _ (h.dirPage hpd) (by omega), if_neg fun hh => hne hh.1.symm,
    if_neg fun hh => hne' hh.1.symm]

theorem Entered.tree (hc : Entered s t pd k j e c) (hsame : c / 4096 = slotInfo s pd k / 4096)
    (hpos : 0 < c % 4096) : Tree t spaces owner := by
  have hpool : FirstOnly t.pools := hc.pools ▸ h.geometry.pools
  have htab := hc.tableOf_eq h hpd hk hinfo hsame
  have hnew := hc.slotInfo_eq h hpd hk hinfo
  have hok := (h.spaces pd hpd).slots k hk
  refine (hc.slotChange h hpd hk hinfo).tree h hpd hk hpool ?_ (fun _ _ hu _ => hu) ⟨?_, ?_⟩
  · rw [hc.pools]
    exact h.taken
  · intro _
    rw [htab, hnew]
    refine ⟨?_, hpos⟩
    unfold Role
    rw [hc.framed.mmKernel]
    exact (hok.counted hinfo).1
  · intro h1 h2
    rw [hc.entry_eq h hpd hk hinfo] at h1 h2 ⊢
    rw [htab, hnew, hc.framed.physOf_eq]
    exact ⟨by omega, (hok.entry h1 h2).2⟩

theorem Entered.slotAt_eq (hc : Entered s t pd k j e c) (hsame : c / 4096 = slotInfo s pd k / 4096)
    (hj : j < 1024) (hpr : word s pd k % 2 = 1) (hps : word s pd k / 128 % 2 = 0) :
    slotAt t pd k = .table (Function.update (entriesAt s (tableOf s pd k)) j e) := by
  obtain ⟨_, hne, _⟩ := tableOf_ne h hpd hk hinfo
  have hpage := (h.tableRole hpd hk hinfo).isPage
  unfold slotAt
  rw [hc.entry_eq h hpd hk hinfo, hc.tableOf_eq h hpd hk hinfo hsame, if_neg (by omega), if_neg (by omega)]
  refine congrArg Slot.table (entriesAt_update hj fun i hi => ?_)
  simp only [hc.words _ _ hpage hi, hne, true_and, false_and, if_false]

end Existing

structure DirSet (s t : Machine) (pd k e : Nat) : Prop where
  framed : Framed s t
  phys : t.phys = s.phys
  pools : t.pools = s.pools
  words : ∀ v i, IsPage s v → i < 1024 → word t v i = if v = pd ∧ i = k then e else word s v i

structure Dropped (s t : Machine) (pd k j n : Nat) : Prop where
  framed : Framed s t
  phys : t.phys = s.phys
  page : tableOf s pd k = poolPage n
  gave : GavePoolPage s.pools n t.pools
  words : ∀ v i, IsPage s v → i < 1024 → word t v i =
    if v = tableOf s pd k ∧ i = j then 0
    else if v = pd ∧ i = k then 0
    else if v = infoOf s pd ∧ i = k then 0
    else word s v i

section Directory

theorem dirSet_setWord (hg : Geometry s) (hpd : IsPage s pd) (hk : k < 1024) (he : e < 4294967296) :
    DirSet s (setWord s pd k e) pd k e :=
  ⟨framed_setWord hg e hpd hk, rfl, rfl, fun _ _ hv hi => word_setWord hg hpd hv hk hi he⟩

variable (h : Tree s spaces owner) (hpd : pd ∈ spaces) (hk : k < 1023) (hc : DirSet s t pd k e)
include h hpd hk hc

omit hpd hk h in
theorem DirSet.slotChange : SlotChange s t owner pd k :=
  ⟨hc.framed, fun v _ hr i hi h1 _ _ => by rw [hc.words v i hr.isPage hi, if_neg h1]⟩

omit hk in
theorem DirSet.entry_eq (hk' : k < 1024) : word t pd k = e := by
  rw [hc.words _ _ (h.dirPage hpd) hk', if_pos ⟨rfl, rfl⟩]

theorem DirSet.slotInfo_eq : slotInfo t pd k = slotInfo s pd k := by
  have hne := (h.spaces pd hpd).info.ne h.geometry (h.spaces pd hpd).directory (by simp)
  unfold slotInfo
  rw [hc.slotChange.infoOf_eq h hpd hpd hk, hc.words _ _ (h.infoPage hpd) (by omega),
    if_neg fun hh => hne hh.1]

theorem DirSet.tree (he : e % 2 = 0 ∨ e / 128 % 2 = 1) : Tree t spaces owner := by
  have hpool : FirstOnly t.pools := hc.pools ▸ h.geometry.pools
  have hinfo := hc.slotInfo_eq h hpd hk
  refine hc.slotChange.tree h hpd hk hpool ?_ (fun _ _ hu _ => hu) ⟨fun hne => ?_, fun h1 h2 => ?_⟩
  · rw [hc.pools]
    exact h.taken
  · rw [hinfo] at hne
    unfold tableOf Role
    rw [hinfo, hc.framed.mmKernel]
    exact ((h.spaces pd hpd).slots k hk).counted hne
  · rw [hc.entry_eq h hpd (by omega)] at h1 h2
    omega

end Directory

section Last

variable (h : Tree s spaces owner) (hpd : pd ∈ spaces) (hk : k < 1023) (hinfo : slotInfo s pd k ≠ 0)
  (hc : Dropped s t pd k j n)
include h hpd hk hinfo hc

theorem Dropped.slotChange : SlotChange s t owner pd k := by
  have htab := h.tableRole hpd hk hinfo
  refine ⟨hc.framed, fun v u hr i hi h1 h2 hu => ?_⟩
  rw [hc.words v i hr.isPage hi, if_neg fun hh => htab.ne h.geometry hr (Ne.symm hu) hh.1.symm, if_neg h1,
    if_neg h2]

theorem Dropped.entry_eq : word t pd k = 0 := by
  obtain ⟨hne, _, _⟩ := tableOf_ne h hpd hk hinfo
  rw [hc.words _ _ (h.dirPage hpd) (by omega), if_neg fun hh => hne hh.1.symm, if_pos ⟨rfl, rfl⟩]

theorem Dropped.slotInfo_eq : slotInfo t pd k = 0 := by
  obtain ⟨_, hne, hne'⟩ := tableOf_ne h hpd hk hinfo
  unfold slotInfo
  rw [(hc.slotChange h hpd hk hinfo).infoOf_eq h hpd hpd hk, hc.words _ _ (h.infoPage hpd) (by omega),
    if_neg fun hh => hne hh.1.symm, if_neg fun hh => hne' hh.1, if_pos ⟨rfl, rfl⟩]

theorem Dropped.tree : Tree t spaces (Function.update owner n none) := by
  have htab := h.tableRole hpd hk hinfo
  rw [hc.page, role_poolPage h.geometry] at htab
  have hzero := hc.slotInfo_eq h hpd hk hinfo
  refine (hc.slotChange h hpd hk hinfo).tree h hpd hk (hc.gave.firstOnly h.geometry.pools) ?_ ?_
    ⟨fun hne => absurd hzero hne, fun h1 _ => ?_⟩
  · intro m hm u hu
    have hmn : m ≠ n := by
      rintro rfl
      rw [Function.update_self] at hu
      cases hu
    rw [Function.update_of_ne hmn] at hu
    rw [hc.gave.set]
    simp [h.taken m hm u hu, hmn]
  · intro m u hu hne
    have hmn : m ≠ n := by
      rintro rfl
      rw [htab.2] at hu
      exact hne (Option.some.inj hu).symm
    rw [Function.update_of_ne hmn, hu]
  · rw [hc.entry_eq h hpd hk hinfo] at h1
    cases h1

end Last

end Changes

end YggKernel.Paging
