import YggKernel.Paging.Recycling

namespace YggKernel.Paging

open Lib.Program Lib.ByteMemory Lib.BitWords Lib.Masks Lib.Runs Phys Pool

def presentAt (entries : Nat → Nat) : Finset Nat := (Finset.range 1024).filter fun j => entries j % 2 = 1

/-- Every page that the pool may hand out is filled with zeros. -/
def CleanPool (s : Machine) : Prop := ∀ n < 1024, bit (s.pools 0).bitmap n = false → ∀ j < 1024, word s (poolPage n) j = 0

structure Tallied (s : Machine) (pd k : Nat) : Prop where
  count : HasTable s pd k → slotInfo s pd k % 4096 = (presentAt (word s (tableOf s pd k))).card
  zero : HasTable s pd k → ∀ j < 1024, word s (tableOf s pd k) j % 2 = 0 → word s (tableOf s pd k) j = 0

structure Tidy (spaces : List Nat) (s : Machine) : Prop where
  clean : CleanPool s
  tallied : ∀ pd ∈ spaces, ∀ k < 1023, Tallied s pd k

section Present

variable {f g : Nat → Nat} {j e : Nat}

theorem mem_presentAt : j ∈ presentAt f ↔ j < 1024 ∧ f j % 2 = 1 := by
  rw [presentAt, Finset.mem_filter, Finset.mem_range]

theorem presentAt_congr (h : ∀ i < 1024, g i = f i) : presentAt g = presentAt f := by
  ext i
  rw [mem_presentAt, mem_presentAt]
  exact and_congr_right fun hi => by rw [h i hi]

theorem presentAt_insert (hj : j < 1024) (hodd : e % 2 = 1) (h : ∀ i < 1024, g i = if i = j then e else f i) :
    presentAt g = insert j (presentAt f) := by
  ext i
  rw [Finset.mem_insert, mem_presentAt, mem_presentAt]
  by_cases hij : i = j
  · rw [hij, h j hj, if_pos rfl]
    exact ⟨fun _ => .inl rfl, fun _ => ⟨hj, hodd⟩⟩
  · simp only [hij, false_or]
    exact and_congr_right fun hi => by rw [h i hi, if_neg hij]

theorem presentAt_erase (h : ∀ i < 1024, g i = if i = j then 0 else f i) : presentAt g = (presentAt f).erase j := by
  ext i
  rw [Finset.mem_erase, mem_presentAt, mem_presentAt]
  by_cases hij : i = j
  · refine ⟨fun ⟨hi, hodd⟩ => ?_, fun hne => absurd hij hne.1⟩
    rw [h i hi, if_pos hij] at hodd
    cases hodd
  · rw [and_iff_right hij]
    exact and_congr_right fun hi => by rw [h i hi, if_neg hij]

theorem card_present_insert (hj : j < 1024) (hodd : e % 2 = 1) (hfree : f j % 2 = 0)
    (h : ∀ i < 1024, g i = if i = j then e else f i) : (presentAt g).card = (presentAt f).card + 1 := by
  rw [presentAt_insert hj hodd h, Finset.card_insert_of_notMem]
  rw [mem_presentAt]
  omega

theorem card_present_erase (hj : j < 1024) (hpresent : f j % 2 = 1) (h : ∀ i < 1024, g i = if i = j then 0 else f i) :
    (presentAt g).card + 1 = (presentAt f).card := by
  rw [presentAt_erase h]
  exact Finset.card_erase_add_one (mem_presentAt.mpr ⟨hj, hpresent⟩)

theorem present_only (hj : j < 1024) (hpresent : f j % 2 = 1) (hone : (presentAt f).card = 1) {i : Nat} (hi : i < 1024)
    (hij : i ≠ j) : f i % 2 = 0 := by
  obtain ⟨a, ha⟩ := Finset.card_eq_one.mp hone
  have hja : j ∈ presentAt f := mem_presentAt.mpr ⟨hj, hpresent⟩
  have hia : i ∉ presentAt f := by
    rw [ha, Finset.mem_singleton] at hja ⊢
    rwa [← hja]
  rw [mem_presentAt] at hia
  omega

end Present

section Steps

variable {s t : Machine} {spaces : List Nat} {owner : Owner} {pd pd' k k' j e n c : Nat}

theorem Tallied.keep (h : Tallied s pd k) (hword : word t pd k = word s pd k) (hinfo : slotInfo t pd k = slotInfo s pd k)
    (htable : HasTable s pd k → ∀ j < 1024, word t (tableOf s pd k) j = word s (tableOf s pd k) j) : Tallied t pd k := by
  have htab : tableOf t pd k = tableOf s pd k := by
    unfold tableOf
    rw [hinfo]
  have hhas : HasTable t pd k → HasTable s pd k := by
    unfold HasTable
    rw [hword]
    exact id
  refine ⟨fun ht => ?_, fun ht j hj => ?_⟩
  · rw [hinfo, htab, presentAt_congr (htable (hhas ht))]
    exact h.count (hhas ht)
  · rw [htab, htable (hhas ht) j hj]
    exact h.zero (hhas ht) j hj

theorem HasTable.counted (h : Tree s spaces owner) (hpd : pd ∈ spaces) (hk : k < 1023) (ht : HasTable s pd k) :
    slotInfo s pd k ≠ 0 := (((h.spaces pd hpd).slots k hk).entry ht.1 ht.2).1

theorem SlotChange.tallied (h : Tree s spaces owner) (hc : SlotChange s t owner pd k) (hpd : pd ∈ spaces) (hk : k < 1023)
    (hpd' : pd' ∈ spaces) (hk' : k' < 1023) (hne : ¬(pd' = pd ∧ k' = k)) (ht : Tallied s pd' k') : Tallied t pd' k' := by
  refine ht.keep (hc.directory_eq h hpd hpd' (by omega) hne) (hc.slotInfo_eq h hpd hpd' hk (by omega) hne) fun hhas j hj => ?_
  have hrole := h.tableRole hpd' hk' (hhas.counted h hpd' hk')
  refine hc.words _ _ hrole j hj (fun hh => ?_) (fun hh => ?_) fun hu => ?_
  · exact hrole.ne h.geometry (h.spaces pd hpd).directory (by simp) hh.1
  · exact hrole.ne h.geometry (h.spaces pd hpd).info (by simp) hh.1
  · simp only [Use.table.injEq] at hu
    exact hne hu

theorem SlotChange.tidy (h : Tree s spaces owner) (hc : SlotChange s t owner pd k) (hpd : pd ∈ spaces) (hk : k < 1023)
    (ht : Tidy spaces s) (hclean : CleanPool t) (hslot : Tallied t pd k) : Tidy spaces t := by
  refine ⟨hclean, fun pd' hpd' k' hk' => ?_⟩
  by_cases heq : pd' = pd ∧ k' = k
  · rw [heq.1, heq.2]
    exact hslot
  · exact hc.tallied h hpd hk hpd' hk' heq (ht.tallied pd' hpd' k' hk')

section Clean

variable (h : Tree s spaces owner) (hpd : pd ∈ spaces) (hclean : CleanPool s)
include h hpd hclean

theorem NewTable.clean {content : Nat → Nat} (hc : NewTable s t pd k n c content) : CleanPool t := by
  intro m hm hclear j hj
  rw [hc.took.set, Bool.or_eq_false_iff, decide_eq_false_iff_not] at hclear
  rw [hc.words _ _ (isPage_poolPage hm) hj, if_neg fun heq => hclear.2 (poolPage_inj heq),
    if_neg fun hh => h.fresh hclear.1 (h.spaces pd hpd).directory hh.1.symm,
    if_neg fun hh => h.fresh hclear.1 (h.spaces pd hpd).info hh.1.symm]
  exact hclean m hm hclear.1 j hj

theorem Entered.clean (hk : k < 1023) (hinfo : slotInfo s pd k ≠ 0) (hc : Entered s t pd k j e c) : CleanPool t := by
  intro m hm hclear i hi
  rw [hc.pools] at hclear
  rw [hc.words _ _ (isPage_poolPage hm) hi, if_neg fun hh => h.fresh hclear (h.tableRole hpd hk hinfo) hh.1.symm,
    if_neg fun hh => h.fresh hclear (h.spaces pd hpd).info hh.1.symm]
  exact hclean m hm hclear i hi

theorem DirSet.clean (hc : DirSet s t pd k e) : CleanPool t := by
  intro m hm hclear i hi
  rw [hc.pools] at hclear
  rw [hc.words _ _ (isPage_poolPage hm) hi, if_neg fun hh => h.fresh hclear (h.spaces pd hpd).directory hh.1.symm]
  exact hclean m hm hclear i hi

/-- A table goes back to the pool with nothing in it when its last entry goes. -/
theorem Dropped.clean (hk : k < 1023) (hinfo : slotInfo s pd k ≠ 0) (hc : Dropped s t pd k j n)
    (hlast : ∀ i < 1024, i ≠ j → word s (tableOf s pd k) i = 0) : CleanPool t := by
  obtain ⟨hne1, hne2, _⟩ := tableOf_ne h hpd hk hinfo
  intro m hm hclear i hi
  rw [hc.gave.set, Bool.and_eq_false_iff] at hclear
  rw [hc.words _ _ (isPage_poolPage hm) hi]
  by_cases hmn : m = n
  · rw [hmn, ← hc.page]
    by_cases hij : i = j
    · rw [if_pos ⟨rfl, hij⟩]
    · rw [if_neg fun hh => hij hh.2, if_neg fun hh => hne1 hh.1, if_neg fun hh => hne2 hh.1]
      exact hlast i hi hij
  · have hfree : bit (s.pools 0).bitmap m = false := by simpa [hmn] using hclear
    rw [if_neg fun hh => h.fresh hfree (h.tableRole hpd hk hinfo) hh.1.symm,
      if_neg fun hh => h.fresh hfree (h.spaces pd hpd).directory hh.1.symm,
      if_neg fun hh => h.fresh hfree (h.spaces pd hpd).info hh.1.symm]
    exact hclean m hm hfree i hi

end Clean

theorem Mapped.tidy (h : Tree s spaces owner) (hpd : pd ∈ spaces) (hk : k < 1023) (hj : j < 1024) (hodd : e % 2 = 1)
    (hfree : word s pd k % 2 = 1 → word s (tableOf s pd k) j % 2 = 0) (hm : Mapped s t pd k j e) (ht : Tidy spaces s) :
    Tidy spaces t := by
  refine (hm.slotChange h hpd hk).tidy h hpd hk ht ?_ ?_
  · cases hm with
    | new n _ hc => exact hc.clean h hpd ht.clean
    | old hpr hps _ hc => exact hc.clean h hpd ht.clean hk (HasTable.counted h hpd hk ⟨hpr, hps⟩)
  · cases hm with
    | new n _ hc =>
      have hpage : IsPage s (poolPage n) := isPage_poolPage hc.took.lt
      have hwords : ∀ i < 1024, word t (poolPage n) i = if i = j then e else 0 := by
        intro i hi
        rw [hc.words _ _ hpage hi, if_pos rfl]
        by_cases hij : i = j
        · rw [if_pos hij, if_pos hij]
        · rw [if_neg hij, if_neg hij, ht.clean n hc.took.lt hc.took.clear i hi]
      have hempty : (presentAt fun _ => 0).card = 0 := by
        rw [Finset.card_eq_zero, presentAt, Finset.filter_eq_empty_iff]
        exact fun _ _ => by decide
      have hpool : (poolPage n + 1) % 4096 = 1 := by
        unfold poolPage poolVaddr
        omega
      refine ⟨fun _ => ?_, fun _ i hi heven => ?_⟩
      · rw [hc.slotInfo_eq h hpd hk, hc.tableOf_eq h hpd hk (by decide), card_present_insert hj hodd rfl hwords, hempty]
        exact hpool
      · rw [hc.tableOf_eq h hpd hk (by decide), hwords i hi] at heven ⊢
        split at heven <;> rename_i hij
        · omega
        · rw [if_neg hij]
    | old hpr hps hroom hc =>
      have hhas : HasTable s pd k := ⟨hpr, hps⟩
      have hinfo := hhas.counted h hpd hk
      obtain ⟨_, hne, _⟩ := tableOf_ne h hpd hk hinfo
      have hpage := (h.tableRole hpd hk hinfo).isPage
      have htab := hc.tableOf_eq h hpd hk hinfo (by omega)
      have hwords : ∀ i < 1024, word t (tableOf s pd k) i = if i = j then e else word s (tableOf s pd k) i := by
        intro i hi
        simp only [hc.words _ _ hpage hi, hne, true_and, false_and, if_false]
      have hcount := (ht.tallied pd hpd k hk).count hhas
      refine ⟨fun _ => ?_, fun _ i hi heven => ?_⟩
      · rw [hc.slotInfo_eq h hpd hk hinfo, htab, card_present_insert hj hodd (hfree hpr) hwords, ← hcount]
        omega
      · rw [htab, hwords i hi] at heven ⊢
        split at heven <;> rename_i hij
        · omega
        · rw [if_neg hij]
          exact (ht.tallied pd hpd k hk).zero hhas i hi heven

theorem Unmapped.tidy (h : Tree s spaces owner) (hpd : pd ∈ spaces) (hk : k < 1023) (hj : j < 1024) (hhas : HasTable s pd k)
    (hmapped : word s (tableOf s pd k) j % 2 = 1) (hu : Unmapped s t pd k j) (ht : Tidy spaces s) : Tidy spaces t := by
  have hinfo := hhas.counted h hpd hk
  have hcount := (ht.tallied pd hpd k hk).count hhas
  have hzero := (ht.tallied pd hpd k hk).zero hhas
  refine (hu.slotChange h hpd hk).tidy h hpd hk ht ?_ ?_
  · cases hu with
    | kept _ _ hc => exact hc.clean h hpd ht.clean hk hinfo
    | dropped n _ hlast hc =>
      refine hc.clean h hpd ht.clean hk hinfo fun i hi hij => hzero i hi ?_
      exact present_only hj hmapped (by omega) hi hij
  · cases hu with
    | kept _ hmany hc =>
      obtain ⟨_, hne, _⟩ := tableOf_ne h hpd hk hinfo
      have hpage := (h.tableRole hpd hk hinfo).isPage
      have htab := hc.tableOf_eq h hpd hk hinfo (by omega)
      have hwords : ∀ i < 1024, word t (tableOf s pd k) i = if i = j then 0 else word s (tableOf s pd k) i := by
        intro i hi
        simp only [hc.words _ _ hpage hi, hne, true_and, false_and, if_false]
      refine ⟨fun _ => ?_, fun _ i hi heven => ?_⟩
      · have hcard := card_present_erase hj hmapped hwords
        rw [hc.slotInfo_eq h hpd hk hinfo, htab]
        omega
      · rw [htab, hwords i hi] at heven ⊢
        split at heven <;> rename_i hij
        · rw [if_pos hij]
        · rw [if_neg hij]
          exact hzero i hi heven
    | dropped n _ _ hc =>
      have hgone := hc.entry_eq h hpd hk hinfo
      refine ⟨fun hh => ?_, fun hh => ?_⟩ <;> (rw [HasTable, hgone] at hh; cases hh.1)

end Steps

section Spaces

variable {s t : Machine} {spaces : List Nat} {owner : Owner} {pd dst src k e n m : Nat}

theorem DirSet.tidy (h : Tree s spaces owner) (hpd : pd ∈ spaces) (hk : k < 1023) (he : e % 2 = 0 ∨ e / 128 % 2 = 1)
    (hc : DirSet s t pd k e) (ht : Tidy spaces s) : Tidy spaces t := by
  have hword := hc.entry_eq h hpd (by omega)
  refine hc.slotChange.tidy h hpd hk ht (hc.clean h hpd ht.clean) ⟨fun hhas => ?_, fun hhas => ?_⟩ <;>
    (rw [HasTable, hword] at hhas; omega)

theorem Tidy.congr (h : Tree s spaces owner) (hp : t.pools = s.pools)
    (hw : ∀ v i, IsPage s v → i < 1024 → word t v i = word s v i) (ht : Tidy spaces s) : Tidy spaces t := by
  refine ⟨fun n hn hclear j hj => ?_, fun pd hpd k hk => ?_⟩
  · rw [hp] at hclear
    rw [hw _ _ (isPage_poolPage hn) hj]
    exact ht.clean n hn hclear j hj
  · refine (ht.tallied pd hpd k hk).keep (hw _ _ (h.dirPage hpd) (by omega)) ?_ fun hhas j hj => ?_
    · unfold slotInfo
      rw [show infoOf t pd = infoOf s pd from hw _ _ (h.dirPage hpd) (by decide)]
      exact hw _ _ (h.infoPage hpd) (by omega)
    · exact hw _ _ (h.tableRole hpd hk (hhas.counted h hpd hk)).isPage hj

theorem Tidy.phys (h : Tree s spaces owner) (ht : Tidy spaces s) (q : PhysAlloc) : Tidy spaces { s with phys := q } :=
  ht.congr h rfl fun _ _ _ _ => rfl

theorem Tidy.poke (h : Tree s spaces owner) (ht : Tidy spaces s) {mem : Mem} (hm : ∀ x, InPaging s x → mem x = s.mem x) :
    Tidy spaces { s with mem := mem } :=
  ht.congr h rfl fun _ _ hv hi => word_poke h.geometry hm hv hi

theorem Created.tallied (h : Tree s spaces owner) (hc : Created s t n m) (ht : ∀ pd ∈ spaces, ∀ k < 1023, Tallied s pd k) :
    ∀ pd ∈ poolPage n :: spaces, ∀ k < 1023, Tallied t pd k := by
  obtain ⟨hn, hm, _, hn0, hm0, _⟩ := hc.fresh
  obtain ⟨_, _, hslots, hself⟩ := hc.space
  intro pd hpd k hk
  rcases List.mem_cons.mp hpd with rfl | hpd
  · have heven : word t (poolPage n) k % 2 = 0 := by
      by_cases hk0 : k = 0
      · have hmod := physOf_isPage_aligned h.geometry (isPage_poolPage (s := s) hn)
        rw [hk0, hself]
        omega
      · rw [hslots k (by omega) hk]
    refine ⟨fun hhas => ?_, fun hhas => ?_⟩ <;> (have hodd := hhas.1; omega)
  · have hok := h.spaces pd hpd
    refine (ht pd hpd k hk).keep (hc.words_old h hok.directory (by omega)) ?_ fun hhas j hj => ?_
    · unfold slotInfo
      rw [show infoOf t pd = infoOf s pd from hc.words_old h hok.directory (by decide)]
      exact hc.words_old h hok.info (by omega)
    · exact hc.words_old h (h.tableRole hpd hk (hhas.counted h hpd hk)) hj

theorem Created.tidy (h : Tree s spaces owner) (hc : Created s t n m) (ht : Tidy spaces s) : Tidy (poolPage n :: spaces) t := by
  obtain ⟨_, _, _, _, _, hset⟩ := hc.fresh
  refine ⟨fun l hl hclear j hj => ?_, hc.tallied h ht.tallied⟩
  rw [hset, Bool.or_eq_false_iff, Bool.or_eq_false_iff, decide_eq_false_iff_not, decide_eq_false_iff_not] at hclear
  rw [hc.words _ _ (isPage_poolPage hl) hj, if_neg fun heq => hclear.1.2 (poolPage_inj heq),
    if_neg fun heq => hclear.2 (poolPage_inj heq)]
  exact ht.clean l hl hclear.1.1 j hj

theorem Wiped.tidy (h : Tree s spaces owner) (hdst : dst ∈ spaces) (hself : word s dst 0 % 2 = 0) (hc : Wiped s t dst)
    (ht : Tidy spaces s) : Tidy spaces t := by
  refine ⟨fun n hn hclear j hj => ?_, fun pd hpd k hk => ?_⟩
  · rw [hc.pools] at hclear
    rw [hc.words _ _ (isPage_poolPage hn) hj, if_neg fun hh => h.fresh hclear (h.spaces dst hdst).info hh.symm,
      if_neg fun hh => h.fresh hclear (h.spaces dst hdst).directory hh.1.symm]
    exact ht.clean n hn hclear j hj
  · by_cases heq : pd = dst
    · subst heq
      have hne := (h.spaces pd hpd).directory.ne h.geometry (h.spaces pd hpd).info (by simp)
      have heven : word t pd k % 2 = 0 := by
        rw [hc.words _ _ (h.dirPage hpd) (by omega), if_neg hne]
        by_cases hk0 : k = 0
        · rw [if_neg (by omega), hk0]
          exact hself
        · rw [if_pos ⟨rfl, by omega, hk⟩]
      refine ⟨fun hhas => ?_, fun hhas => ?_⟩ <;> (have hodd := hhas.1; omega)
    · refine (ht.tallied pd hpd k hk).keep (hc.words_other h hdst (h.spaces pd hpd).directory (by omega) (by simp)
        fun hh => heq hh.1) ?_ fun hhas j hj => ?_
      · unfold slotInfo
        rw [hc.infoOf_eq h hdst hpd]
        refine hc.words_other h hdst (h.spaces pd hpd).info (by omega) (by simpa using heq) fun hh => ?_
        exact (h.spaces pd hpd).info.ne h.geometry (h.spaces dst hdst).directory (by simp) hh.1
      · have hrole := h.tableRole hpd hk (hhas.counted h hpd hk)
        refine hc.words_other h hdst hrole hj (by simp) fun hh => ?_
        exact hrole.ne h.geometry (h.spaces dst hdst).directory (by simp) hh.1

theorem NewTable.tidy_copy (h : Tree s spaces owner) (hdst : dst ∈ spaces) (hsrc : src ∈ spaces) (hk : k < 1023)
    (hhas : HasTable s src k) (hc : NewTable s t dst k n (slotInfo s src k % 4096) (word s (tableOf s src k)))
    (ht : Tidy spaces s) : Tidy spaces t := by
  have hlt : slotInfo s src k % 4096 < 4096 := Nat.mod_lt _ (by decide)
  have hpage : IsPage s (poolPage n) := isPage_poolPage hc.took.lt
  have hwords : ∀ i < 1024, word t (poolPage n) i = word s (tableOf s src k) i := fun i hi => by
    rw [hc.words _ _ hpage hi, if_pos rfl]
  have hpool : (poolPage n + slotInfo s src k % 4096) % 4096 = slotInfo s src k % 4096 := by
    unfold poolPage poolVaddr
    omega
  refine (hc.slotChange h).tidy h hdst hk ht (hc.clean h hdst ht.clean) ⟨fun _ => ?_, fun _ i hi heven => ?_⟩
  · rw [hc.slotInfo_eq h hdst hk, hc.tableOf_eq h hdst hk hlt, presentAt_congr hwords, hpool]
    exact (ht.tallied src hsrc k hk).count hhas
  · rw [hc.tableOf_eq h hdst hk hlt, hwords i hi] at heven ⊢
    exact (ht.tallied src hsrc k hk).zero hhas i hi heven

/-- The spaces that stay are tallied; the pool now holds what the space left in its two pages. -/
theorem Destroyed.tallied (hc : Destroyed s t pd n m) (ht : ∀ pd ∈ spaces, ∀ k < 1023, Tallied s pd k) :
    ∀ pd' ∈ spaces.filter (· ≠ pd), ∀ k < 1023, Tallied t pd' k := by
  intro pd' hpd' k hk
  have hinfo : infoOf t pd' = infoOf s pd' := hc.words pd' 1023
  refine (ht pd' (List.mem_filter.mp hpd').1 k hk).keep (hc.words pd' k) ?_ fun _ j _ => hc.words _ j
  unfold slotInfo
  rw [hinfo]
  exact hc.words _ k

end Spaces

section Translations

variable {s t : Machine} {spaces : List Nat} {owner : Owner} {pd start count e a p f v i i' : Nat}

theorem CleanPool.not_stale (hg : Geometry s) (hclean : CleanPool s) : ¬StaleAt s pd v a := by
  rintro ⟨_, _, w, hnext, hodd⟩
  obtain ⟨n, ps, took, rfl⟩ := nextPage_some hg hnext
  have hzero := hclean n took.lt took.clear (indexOf a) (Nat.mod_lt _ (by decide))
  rw [hzero] at hodd
  cases hodd

theorem Mapped.translation_other (h : Tree s spaces owner) (hpd : pd ∈ spaces) (hk : v / 4194304 < 1023) (ha : a < 4294967296)
    (hne : a / 4096 ≠ v / 4096) (hclean : CleanPool s) (hm : Mapped s t pd (v / 4194304) (v / 4096 % 1024) e) :
    translation t pd a = translation s pd a := by
  rcases hm.turns h hpd hk ha hne with ⟨hstale, _⟩ | ⟨_, hsame⟩
  · exact absurd hstale (hclean.not_stale h.geometry)
  · exact hsame

theorem free_of_translation (hfree : translation s pd v = none) (hpr : word s pd (v / 4194304) % 2 = 1) :
    word s (tableOf s pd (v / 4194304)) (v / 4096 % 1024) % 2 = 0 := by
  have hj : v / 4096 % 1024 < 1024 := Nat.mod_lt _ (by decide)
  unfold translation slotAt at hfree
  rw [if_neg (by omega)] at hfree
  by_cases hps : word s pd (v / 4194304) / 128 % 2 = 1
  · rw [if_pos hps] at hfree
    cases hfree
  · rw [if_neg hps, Slot.translate, entriesAt, if_pos hj] at hfree
    by_contra hodd
    exact leaf_ne_none (by omega) v hfree

theorem entry_of_translation (htr : translation s pd v = some (p, f)) (hf : f / 128 % 2 = 0) :
    HasTable s pd (v / 4194304) ∧ word s (tableOf s pd (v / 4194304)) (v / 4096 % 1024) % 2 = 1 := by
  obtain ⟨e, _, hodd, _, _, hslot, hentry⟩ := translation_small htr hf
  have hj : v / 4096 % 1024 < 1024 := Nat.mod_lt _ (by decide)
  rw [entriesAt, if_pos hj] at hentry
  refine ⟨?_, hentry ▸ hodd⟩
  unfold slotAt at hslot
  unfold HasTable
  by_cases h1 : word s pd (v / 4194304) % 2 = 0
  · rw [if_pos h1] at hslot
    cases hslot
  by_cases h2 : word s pd (v / 4194304) / 128 % 2 = 1
  · rw [if_neg h1, if_pos h2] at hslot
    cases hslot
  omega

theorem Unmapped.translation_other (h : Tree s spaces owner) (hpd : pd ∈ spaces) (hk : v / 4194304 < 1023)
    (ht : Tidy spaces s) (hhas : HasTable s pd (v / 4194304))
    (hmapped : word s (tableOf s pd (v / 4194304)) (v / 4096 % 1024) % 2 = 1) (ha : a < 4294967296)
    (hne : a / 4096 ≠ v / 4096) (hu : Unmapped s t pd (v / 4194304) (v / 4096 % 1024)) :
    translation t pd a = translation s pd a := by
  have hj : v / 4096 % 1024 < 1024 := Nat.mod_lt _ (by decide)
  by_cases hslot : a / 4194304 = v / 4194304
  · have hindex : a / 4096 % 1024 ≠ v / 4096 % 1024 := by omega
    cases hu with
    | kept hinfo hmany hc =>
      rw [← hslot] at hhas hmany hc hk
      exact hc.translation_other h hpd hk hj hhas.1 hhas.2 (by omega) hindex
    | dropped n hinfo hlast hc =>
      have hcount := (ht.tallied pd hpd _ hk).count hhas
      have heven := present_only hj hmapped (by omega) (Nat.mod_lt (a / 4096) (by decide)) hindex
      have hgone : slotAt t pd (v / 4194304) = .absent := if_pos (by rw [hc.entry_eq h hpd hk hinfo])
      have htable : slotAt s pd (v / 4194304) = .table (entriesAt s (tableOf s pd (v / 4194304))) := by
        have h1 := hhas.1
        have h2 := hhas.2
        unfold slotAt
        rw [if_neg (by omega), if_neg (by omega)]
      rw [translation_absent hgone hslot, translation_table htable hslot rfl, entriesAt, if_pos (Nat.mod_lt _ (by decide)),
        leaf_even heven]
  · exact (hu.slotChange h hpd hk).translation_eq h hpd hk hpd ha fun hh => hslot hh.2

theorem page_injective (hslots : ∀ i < count, 0 < slotOf (page start i)) (hi : i < count) (hi' : i' < count)
    (heq : page start i = page start i') : i = i' := by
  have hbefore : ∀ i i', i' < count → page start i = page start i' → ¬i < i' := by
    intro i i' hi' heq hlt
    have hfirst := hslots i (by omega)
    have hwrap := hslots (i + (4294967296 - page start i + 4095) / 4096)
    unfold slotOf page u32 at *
    omega
  have h1 := hbefore i i' hi' heq
  have h2 := hbefore i' i hi heq.symm
  omega

end Translations

section Calls

variable {s t : Machine} {spaces : List Nat} {owner : Owner} {pd start count flags dst src v : Nat} {pages : Nat → Nat}

/-- The structures are well formed and tallied. -/
def Neat (spaces : List Nat) (s : Machine) : Prop := Sound spaces s ∧ Tidy spaces s

theorem Mapped.neat {e : Nat} (h : Neat spaces s) (hpd : pd ∈ spaces) (hlow : 0 < v / 4194304) (hk : v / 4194304 < 1023)
    (hodd : e % 2 = 1) (hfree : word s pd (v / 4194304) % 2 = 1 → word s (tableOf s pd (v / 4194304)) (v / 4096 % 1024) % 2 = 0)
    (hm : Mapped s t pd (v / 4194304) (v / 4096 % 1024) e) : Neat spaces t ∧ infoOf t pd = infoOf s pd := by
  obtain ⟨owner, ht⟩ := h.1.tree
  exact ⟨⟨hm.sound h.1 hpd hlow hk, hm.tidy ht hpd hk (Nat.mod_lt _ (by decide)) hodd hfree h.2⟩,
    (hm.slotChange ht hpd hk).infoOf_eq ht hpd hpd hk⟩

theorem Unmapped.neat (h : Neat spaces s) (hpd : pd ∈ spaces) (hlow : 0 < v / 4194304) (hk : v / 4194304 < 1023)
    (hhas : HasTable s pd (v / 4194304)) (hmapped : word s (tableOf s pd (v / 4194304)) (v / 4096 % 1024) % 2 = 1)
    (hu : Unmapped s t pd (v / 4194304) (v / 4096 % 1024)) : Neat spaces t ∧ infoOf t pd = infoOf s pd := by
  obtain ⟨owner, ht⟩ := h.1.tree
  exact ⟨⟨hu.sound h.1 hpd hlow hk, hu.tidy ht hpd hk (Nat.mod_lt _ (by decide)) hhas hmapped h.2⟩,
    (hu.slotChange ht hpd hk).infoOf_eq ht hpd hpd hk⟩

theorem Neat.takeFrame (h : Neat spaces s) : Neat spaces (takeFrame s) := by
  obtain ⟨owner, ht⟩ := h.1.tree
  exact ⟨h.1.takeFrame, h.2.phys ht _⟩

theorem neat_mmMapRange (flags : Nat) (h : Neat spaces s) (hpd : pd ∈ spaces) (hslots : SlotsIn start count) :
    wp (mmMapRange pd start count flags) anyFault (fun _ t => Neat spaces t) s := by
  unfold mmMapRange
  by_cases hps : flags &&& mmFlgPs ≠ 0
  · rw [if_pos hps, wp_bind, wp_throw]
    trivial
  rw [if_neg hps, wp_bind, wp_kassert]
  refine ⟨fun _ => ?_, fun _ => trivial⟩
  rw [wp_bind, wp_infoEntry h.1 hpd, wp_bind]
  refine wp_forUp (fun _ t => Neat spaces t ∧ infoOf t pd = infoOf s pd) _ ⟨h, rfl⟩ (fun i t _ hi ht => ?_) fun t ht => ht.1
  obtain ⟨hneat, hinfo⟩ := ht
  obtain ⟨hlow, hhigh⟩ := hslots i (by omega)
  obtain ⟨owner, htree⟩ := hneat.1.tree
  rw [← hinfo]
  refine wp_mapRangePage flags htree hpd rfl hhigh rfl (nextFrame_lt hneat.1.hint) (fun _ _ _ => trivial)
    (fun _ _ => trivial) (fun u hfree hm => ?_) fun _ _ _ => ⟨hneat.takeFrame, rfl⟩
  exact Mapped.neat (s := takeFrame t) hneat.takeFrame hpd hlow hhigh (or_odd (leafFlags_odd flags)) hfree hm

def RangeFree (s : Machine) (pd start count : Nat) : Prop := ∀ i < count, walk s pd (page start i) = none

def RangeMapped (s : Machine) (pd start count : Nat) : Prop :=
  ∀ i < count, ∃ p f, walk s pd (page start i) = some (p, f) ∧ f &&& mmFlgPs = 0

theorem walk_translation (h : Tree s spaces owner) (hpd : pd ∈ spaces) {a : Nat} (ha : a < 4294967296) :
    walk s pd a = translation s pd a := mmuWalk_eq h hpd ha

theorem page_aligned (haligned : start &&& 0xFFF = 0) (i : Nat) : page start i % 4096 = 0 := by
  rw [and_offset] at haligned
  unfold page u32
  omega

theorem page_apart (haligned : start &&& 0xFFF = 0) (hslots : ∀ i < count, 0 < slotOf (page start i)) {i i' : Nat}
    (hi : i < count) (hi' : i' < count) (hne : i' ≠ i) : page start i' / 4096 ≠ page start i / 4096 := by
  have h1 := page_aligned haligned i
  have h2 := page_aligned haligned i'
  intro heq
  exact hne (page_injective hslots hi' hi (by omega))

theorem neat_mmMapRangePages (h : Neat spaces s) (hpd : pd ∈ spaces) (hpages : ∀ i < count, pages i < 4294967296)
    (hslots : if flags &&& mmFlgPs ≠ 0 then HugeSlotsIn (start / 4194304) count else SlotsIn start count)
    (hfree : flags &&& mmFlgPs = 0 → RangeFree s pd start count) :
    wp (mmMapRangePages pd start pages count flags) anyFault (fun _ t => Neat spaces t) s := by
  unfold mmMapRangePages
  rw [wp_bind, wp_kassert]
  refine ⟨fun haligned => ?_, fun _ => trivial⟩
  by_cases hps : flags &&& mmFlgPs ≠ 0
  · rw [if_pos hps] at hslots ⊢
    rw [wp_bind]
    refine wp_forUp (fun _ t => Neat spaces t) _ h (fun i t _ hi ht => ?_) fun t ht => ht
    obtain ⟨owner, htree⟩ := ht.1.tree
    obtain ⟨h1, h2⟩ := hslots i (by omega)
    have hlt := Nat.or_lt_two_pow (n := 32) (hpages i (by omega)) (hugeFlags_lt flags)
    have hhuge := or_huge (p := pages i) (hugeFlags_huge flags)
    rw [slot_of]
    exact wp_hugeRound htree hpd (by omega) hlt fun u hc =>
      ⟨hc.sound ht.1 hpd h1 h2 (.inr hhuge), hc.tidy htree hpd h2 (.inr hhuge) ht.2⟩
  rw [if_neg hps] at hslots ⊢
  have hfree := hfree (not_not.mp hps)
  obtain ⟨owner, h0⟩ := h.1.tree
  rw [wp_bind, wp_infoEntry h.1 hpd, wp_bind]
  refine wp_forUp (fun i t => Neat spaces t ∧ infoOf t pd = infoOf s pd ∧
    ∀ i' < count, i ≤ i' → translation t pd (page start i') = none) _ ⟨h, rfl, fun i' hi' _ => ?_⟩ (fun i t _ hi ht => ?_) fun t ht => ht.1
  · rw [← walk_translation h0 hpd (page_lt start i')]
    exact hfree i' hi'
  obtain ⟨hneat, hinfo, hrest⟩ := ht
  obtain ⟨hlow, hhigh⟩ := hslots i (by omega)
  obtain ⟨owner', htree⟩ := hneat.1.tree
  rw [← hinfo]
  refine wp_mapPagesPage flags htree hpd rfl hhigh rfl (hpages i (by omega)) (fun _ _ _ => trivial) (fun _ _ => trivial) fun u hm => ?_
  obtain ⟨hneat', hinfo'⟩ := hm.neat hneat hpd hlow hhigh (or_odd (leafFlags_odd flags))
    (free_of_translation (hrest i (by omega) le_rfl))
  refine ⟨hneat', hinfo', fun i' hi' hle => ?_⟩
  have hapart := page_apart (of_decide_eq_true haligned) (fun i hi => (hslots i hi).1) (show i < count by omega) hi' (by omega)
  rw [hm.translation_other htree hpd hhigh (page_lt start i') hapart hneat.2.clean]
  exact hrest i' hi' (by omega)

theorem neat_mmMapRangeLinear {pstart : Nat} (h : Neat spaces s) (hpd : pd ∈ spaces) (hslots : LinearSlotsIn start count flags)
    (hfree : flags &&& mmFlgPs = 0 → RangeFree s pd (start &&& pageMask) count) :
    wp (mmMapRangeLinear pd start pstart count flags) anyFault (fun _ t => Neat spaces t) s := by
  unfold mmMapRangeLinear
  unfold LinearSlotsIn at hslots
  rw [wp_bind, wp_kassert]
  refine ⟨fun hstart => ?_, fun _ => trivial⟩
  rw [wp_bind, wp_kassert]
  refine ⟨fun _ => ?_, fun _ => trivial⟩
  by_cases hps : flags &&& mmFlgPs ≠ 0
  · rw [if_pos hps] at hslots ⊢
    rw [wp_bind]
    refine wp_forUp (fun _ t => Neat spaces t) _ h (fun i t _ hi ht => ?_) fun t ht => ht
    rw [wp_discard]
    refine neat_mmMapRangePages ht hpd (fun _ _ => u32_lt _) ?_ fun hno => absurd hno hps
    rw [if_pos hps]
    intro j hj
    rw [show j = 0 by omega, Nat.add_zero]
    exact hslots i (by omega)
  · have hsmall := not_not.mp hps
    have hfree := hfree hsmall
    obtain ⟨owner, h0⟩ := h.1.tree
    rw [if_neg hps] at hslots ⊢
    rw [wp_bind]
    have haligned : (start &&& pageMask) &&& 0xFFF = 0 := by
      rw [Nat.and_assoc]
      exact Nat.and_zero _
    refine wp_forUp (fun i t => Neat spaces t ∧ ∀ i' < count, i ≤ i' →
      translation t pd (page (start &&& pageMask) i') = none) _ ⟨h, fun i' hi' _ => ?_⟩ (fun i t _ hi ht => ?_) fun t ht => ht.1
    · rw [← walk_translation h0 hpd (page_lt _ i')]
      exact hfree i' hi'
    obtain ⟨hneat, hrest⟩ := ht
    obtain ⟨owner', htree⟩ := hneat.1.tree
    obtain ⟨hlow, hhigh⟩ := hslots i (by omega)
    rw [wp_discard]
    refine wp_mapOnePage htree hpd (page_aligned haligned i) (page_lt _ i) hhigh (u32_lt _) hsmall (fun _ _ _ => trivial)
      (fun _ _ => trivial) fun u hm => ?_
    obtain ⟨hneat', _⟩ := hm.neat hneat hpd hlow hhigh (or_odd (leafFlags_odd flags))
      (free_of_translation (hrest i (by omega) le_rfl))
    refine ⟨hneat', fun i' hi' hle => ?_⟩
    have hapart := page_apart haligned (fun i hi => (hslots i hi).1) (show i < count by omega) hi' (by omega)
    have hkeep := hm.translation_other htree hpd hhigh (page_lt _ i') hapart hneat.2.clean
    rw [hkeep]
    exact hrest i' hi' (by omega)

theorem neat_umapHugePage {k : Nat} (flags : Nat) (h : Neat spaces s) (hpd : pd ∈ spaces) (hk : k < 1024) :
    wp (umapHugePage pd flags k) anyFault (fun _ t => Neat spaces t ∧ k < 1023) s := by
  refine wp_imp (wp_and (sound_umapHugePage flags h.1 hpd hk) (?_ : wp _ anyFault (fun _ t => k < 1023 → Tidy spaces t) s))
    fun _ t ht => ⟨⟨ht.1.1, ht.2 ht.1.2⟩, ht.1.2⟩
  obtain ⟨owner, ht⟩ := h.1.tree
  have hdir := ht.dirPage hpd
  rw [umapHugePage, wp_bind, wp_entry ht.geometry hdir hk, wp_bind, wp_kassert]
  refine ⟨fun _ => ?_, fun _ => trivial⟩
  by_cases hflag : flags &&& mmFlgNophys = 0
  · rw [if_pos hflag, wp_bind, wp_entry ht.geometry hdir hk, wp_bind]
    refine wp_freePhysicalPage (fun _ _ => trivial) fun q _ => ?_
    rw [wp_setEntry (ht.phys q).geometry _ hdir hk]
    exact fun hin => (dirSet_setWord (ht.phys q).geometry hdir hk (by decide)).tidy (ht.phys q) hpd hin (.inl rfl) (h.2.phys ht q)
  · rw [if_neg hflag, wp_setEntry ht.geometry _ hdir hk]
    exact fun hin => (dirSet_setWord ht.geometry hdir hk (by decide)).tidy ht hpd hin (.inl rfl) h.2

/-- The pages that are mapped lie in the slots between the two of the bookkeeping. -/
theorem slots_of_mapped (h : Sound spaces s) (hpd : pd ∈ spaces) {a : Nat} (ha : a < 4294967296) (hmapped : translation s pd a ≠ none) :
    0 < a / 4194304 ∧ a / 4194304 < 1023 := by
  obtain ⟨owner, ht⟩ := h.tree
  by_contra hout
  have hslot : slotAt s pd (a / 4194304) = .absent := if_pos (h.bookkeeping hpd (by omega) hout).1
  exact hmapped (translation_absent hslot rfl)

theorem wp_umapMapped {p f : Nat} (h : Neat spaces s) (hpd : pd ∈ spaces) (hv : v < 4294967296)
    (htr : translation s pd v = some (p, f)) (hf : f / 128 % 2 = 0) :
    wp (umapPage pd (infoOf s pd) flags v) anyFault (fun _ t => Neat spaces t ∧ infoOf t pd = infoOf s pd ∧
      (∀ a < 4294967296, a / 4096 ≠ v / 4096 → translation t pd a = translation s pd a) ∧
      ∃ q, (if flags &&& mmFlgNophys = 0 then mmFreePhysicalPage s.phys (p / 4096 * 4096) 0 = .ok q else q = s.phys) ∧
        Unmapped { s with phys := q } t pd (v / 4194304) (v / 4096 % 1024)) s := by
  obtain ⟨owner, ht⟩ := h.1.tree
  obtain ⟨hlow, hhigh⟩ := slots_of_mapped h.1 hpd hv (by rw [htr]; exact Option.some_ne_none _)
  obtain ⟨hhas, hodd⟩ := entry_of_translation htr hf
  have hframe : word s (tableOf s pd (v / 4194304)) (v / 4096 % 1024) &&& pageMask = p / 4096 * 4096 := by
    obtain ⟨e, he, _, hp, _, _, hentry⟩ := translation_small htr hf
    rw [entriesAt, if_pos (Nat.mod_lt _ (by decide))] at hentry
    rw [hentry, and_pageMask he]
    omega
  refine wp_umapPage flags ht hpd rfl hhigh rfl (fun _ _ => trivial) (fun _ _ _ => trivial) fun q t hq hu => ?_
  rw [hframe] at hq
  have hhint : q.allocLast < 4294967296 := by
    by_cases hflag : flags &&& mmFlgNophys = 0
    · rw [if_pos hflag] at hq
      rw [freePhysicalPage_hint hq]
      exact h.1.hint
    · rw [if_neg hflag] at hq
      rw [hq]
      exact h.1.hint
  have hneat : Neat spaces { s with phys := q } := ⟨h.1.phys hhint, h.2.phys ht q⟩
  obtain ⟨hneat', hinfo⟩ := Unmapped.neat (s := { s with phys := q }) hneat hpd hlow hhigh hhas hodd hu
  refine ⟨hneat', hinfo, fun a ha hne => ?_, q, hq, hu⟩
  have hkeep := hu.translation_other (ht.phys q) hpd hhigh hneat.2 hhas hodd ha hne
  exact hkeep

theorem neat_mmUmapRange (h : Neat spaces s) (hpd : pd ∈ spaces) (hstart : start < 4294967296)
    (hmapped : flags &&& mmFlgPs = 0 → RangeMapped s pd start count) :
    wp (mmUmapRange pd start count flags) anyFault (fun _ t => Neat spaces t) s := by
  unfold mmUmapRange
  rw [wp_bind, wp_kassert]
  refine ⟨fun haligned => ?_, fun _ => trivial⟩
  by_cases hps : flags &&& mmFlgPs ≠ 0
  · rw [if_pos hps, wp_bind]
    refine wp_forUp (fun i t => Neat spaces t ∧ start / 4194304 + i < 1024) _ ⟨h, by omega⟩ (fun i t _ _ ht => ?_) fun t ht => ht.1
    rw [slot_of]
    exact wp_imp (neat_umapHugePage flags ht.1 hpd ht.2) fun _ u hu => ⟨hu.1, by omega⟩
  have hmapped := hmapped (not_not.mp hps)
  obtain ⟨owner, h0⟩ := h.1.tree
  have hbefore : ∀ i < count, ∃ p f, translation s pd (page start i) = some (p, f) ∧ f / 128 % 2 = 0 := by
    intro i hi
    obtain ⟨p, f, hwalk, hf⟩ := hmapped i hi
    exact ⟨p, f, (walk_translation h0 hpd (page_lt start i)).symm.trans hwalk, (not_huge_flag_iff f).mp hf⟩
  have hslots : ∀ i < count, 0 < slotOf (page start i) := by
    intro i hi
    obtain ⟨p, f, htr, _⟩ := hbefore i hi
    exact (slots_of_mapped h.1 hpd (page_lt start i) (by rw [htr]; exact Option.some_ne_none _)).1
  rw [if_neg hps, wp_bind, wp_infoEntry h.1 hpd, wp_bind]
  refine wp_forUp (fun i t => Neat spaces t ∧ infoOf t pd = infoOf s pd ∧
    ∀ i' < count, i ≤ i' → translation t pd (page start i') = translation s pd (page start i')) _
    ⟨h, rfl, fun _ _ _ => rfl⟩ (fun i t _ hi ht => ?_) fun t ht => ht.1
  obtain ⟨hneat, hinfo, hrest⟩ := ht
  obtain ⟨p, f, htr, hf⟩ := hbefore i (by omega)
  rw [← hinfo]
  refine wp_imp (wp_umapMapped hneat hpd (page_lt start i) ((hrest i (by omega) le_rfl).trans htr) hf) fun _ u hu => ?_
  obtain ⟨hneat', hinfo', hkeep, _⟩ := hu
  refine ⟨hneat', hinfo', fun i' hi' hle => ?_⟩
  have hapart := page_apart (of_decide_eq_true haligned) hslots (show i < count by omega) hi' (by omega)
  exact (hkeep _ (page_lt start i') hapart).trans (hrest i' hi' (by omega))

end Calls

end YggKernel.Paging
