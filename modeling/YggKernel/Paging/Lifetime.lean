import YggKernel.Paging.Calls

namespace YggKernel.Paging

open Lib.Program Lib.ByteMemory Lib.BitWords Lib.Masks Phys Pool

def zeroed (s : Machine) (a count : Nat) : Machine :=
  { s with mem := fun x => if a ≤ x ∧ x < a + 4 * count then 0#8 else s.mem x }

section Zeroing

variable {s : Machine} {v w first count i : Nat}

theorem geometry_zeroed (hg : Geometry s) (a n : Nat) : Geometry (zeroed s a n) :=
  ⟨hg.pools, hg.chunk, hg.top, hg.aligned, hg.low, hg.high⟩

theorem wp_memsetl {E : Fault → Prop} {Q : Unit → Machine → Prop} (hg : Geometry s) (hv : IsPage s v)
    (hfirst : first < 1024) :
    wp (memsetl (v + 4 * first) count) E Q s ↔ Q () (zeroed s (physOf s v + 4 * first) count) := by
  simp only [memsetl, access, wp_bind, wp_get, resolve, linear_page hg hv (show 4 * first < 4096 by omega),
    wp_pure, wp_modify]
  rfl

theorem wp_memsetl_page {E : Fault → Prop} {Q : Unit → Machine → Prop} (hg : Geometry s) (hv : IsPage s v) :
    wp (memsetl v count) E Q s ↔ Q () (zeroed s (physOf s v) count) := by
  have hzero : wp (memsetl (v + 4 * 0) count) E Q s ↔ Q () (zeroed s (physOf s v + 4 * 0) count) :=
    wp_memsetl hg hv (by decide)
  rwa [Nat.mul_zero, Nat.add_zero, Nat.add_zero] at hzero

theorem framed_zeroed_page (hg : Geometry s) (hv : IsPage s v) : Framed s (zeroed s (physOf s v) 1024) := by
  refine ⟨fun x hx => if_neg fun hin => hx ?_, rfl, rfl, rfl⟩
  exact inPaging_of_isPage hg hv (by omega) (by omega)

theorem framed_zeroed (hg : Geometry s) (hv : IsPage s v) (hle : first + count ≤ 1024) :
    Framed s (zeroed s (physOf s v + 4 * first) count) := by
  refine ⟨fun x hx => if_neg fun hin => hx ?_, rfl, rfl, rfl⟩
  exact inPaging_of_isPage hg hv (by omega) (by omega)

theorem word_zeroed (hg : Geometry s) (hv : IsPage s v) (hw : IsPage s w) (hle : first + count ≤ 1024)
    (hi : i < 1024) : word (zeroed s (physOf s v + 4 * first) count) w i =
      if w = v ∧ first ≤ i ∧ i < first + count then 0 else word s w i := by
  have hphys : physOf (zeroed s (physOf s v + 4 * first) count) w = physOf s w := rfl
  unfold word
  rw [hphys]
  unfold zeroed
  by_cases hin : w = v ∧ first ≤ i ∧ i < first + count
  · rw [if_pos hin, hin.1]
    unfold load32
    dsimp only
    rw [if_pos (by omega), if_pos (by omega), if_pos (by omega), if_pos (by omega)]
    rfl
  · rw [if_neg hin]
    refine load32_congr fun x h1 h2 => if_neg fun hx => ?_
    by_cases hwv : w = v
    · subst hwv
      exact hin ⟨rfl, by omega, by omega⟩
    · have := physOf_apart hg hv hw (Ne.symm hwv)
      omega

theorem word_zeroed_page (hg : Geometry s) (hv : IsPage s v) (hw : IsPage s w) (hi : i < 1024) :
    word (zeroed s (physOf s v) 1024) w i = if w = v then 0 else word s w i := by
  have hzero := word_zeroed hg hv hw (show 0 + 1024 ≤ 1024 by decide) hi
  simpa only [Nat.mul_zero, Nat.add_zero, Nat.zero_le, Nat.zero_add, hi, and_true] using hzero

end Zeroing

section Create

structure Created (s t : Machine) (n m : Nat) : Prop where
  framed : Framed s t
  phys : t.phys = s.phys
  first : ∃ ps, TookPoolPage s.pools n ps ∧ TookPoolPage ps m t.pools
  words : ∀ v i, IsPage s v → i < 1024 → word t v i =
    if v = poolPage n then (if i = 0 then physOf s (poolPage n) else if i = 1023 then poolPage m else 0)
    else if v = poolPage m then 0
    else word s v i

variable {s t : Machine} {spaces : List Nat} {owner : Owner} {n m : Nat}

theorem wp_mmCreateSpace {E : Fault → Prop} {Q : Nat → Machine → Prop} (hg : Geometry s)
    (hfirst : ¬WordLeft (s.pools 0) → ∀ w, E (.outOfBounds w))
    (hsecond : ∀ n ps, TookPoolPage s.pools n ps → ¬WordLeft (ps 0) → ∀ w, E (.outOfBounds w))
    (hQ : ∀ n m t, Created s t n m → Q (poolPage n) t) : wp mmCreateSpace E Q s := by
  rw [mmCreateSpace, wp_bind]
  refine wp_poolAllocate hg hfirst fun n ps took => ?_
  have hg1 := geometry_pools hg took
  have hn := took.lt
  have hpage : ∀ {k : Nat}, k < 1024 → IsPage s (poolPage k) := isPage_poolPage
  have hg2 := geometry_zeroed hg1 (physOf s (poolPage n)) 1024
  dsimp only
  rw [wp_bind, wp_memsetl_page hg1 (hpage hn), wp_bind]
  have hphys1 : physOf { s with pools := ps } (poolPage n) = physOf s (poolPage n) :=
    (framed_pools took.paddr).physOf_eq _
  rw [hphys1]
  refine wp_poolAllocate hg2 (hsecond n ps took) fun m ps' took' => ?_
  have hm := took'.lt
  have hnm : n ≠ m := by
    rintro rfl
    have hset := took'.clear
    have hset' : bit (ps 0).bitmap n = false := hset
    rw [took.set] at hset'
    simp at hset'
  have hg3 := geometry_pools hg2 took'
  have hlt := physOf_isPage_lt hg (hpage hn)
  have hlt' := (isPage_bounds hg (hpage hm)).2.1
  have hg4 := geometry_zeroed hg3 (physOf s (poolPage m)) 1024
  have hg5 := geometry_setWord hg4 (poolPage n) 0 (physOf s (poolPage n))
  have hphys2 : ∀ v, physOf { zeroed { s with pools := ps } (physOf s (poolPage n)) 1024 with pools := ps' } v =
      physOf s v := fun v => ((framed_pools took'.paddr).physOf_eq v).trans ((framed_pools took.paddr).physOf_eq v)
  dsimp only [Option.map_some, Option.getD_some]
  rw [wp_bind, wp_memsetl_page hg3 (hpage hm), hphys2, wp_bind, wp_setEntry hg4 _ (hpage hn) (by decide), wp_bind,
    wp_setEntry hg5 _ (hpage hn) (by decide), wp_pure]
  have hframe1 : Framed s { s with pools := ps } := framed_pools took.paddr
  have hframe2 : Framed { s with pools := ps } (zeroed { s with pools := ps } (physOf s (poolPage n)) 1024) := by
    rw [← hphys1]
    exact framed_zeroed_page hg1 (hpage hn)
  have hframe3 := framed_pools (s := zeroed { s with pools := ps } (physOf s (poolPage n)) 1024) took'.paddr
  refine hQ n m _ ⟨?_, rfl, ⟨ps, took, took'⟩, fun v i hv hi => ?_⟩
  · have hframe4 := framed_zeroed_page hg3 (hpage hm)
    rw [hphys2] at hframe4
    exact ((((hframe1.trans hframe2).trans hframe3).trans hframe4).trans
      (framed_setWord hg4 _ (hpage hn) (by decide))).trans (framed_setWord hg5 _ (hpage hn) (by decide))
  · rw [word_setWord hg5 (hpage hn) hv (by decide) hi (by omega),
      word_setWord hg4 (hpage hn) hv (by decide) hi (by omega), ← hphys2 (poolPage m)]
    have hz2 := word_zeroed_page hg3 (hpage hm) hv hi
    have hz1 := word_zeroed_page hg1 (hpage hn) hv hi
    rw [hz2, word_pools took'.paddr, ← hphys1, hz1, word_pools took.paddr, hphys1]
    have hne : poolPage n ≠ poolPage m := fun heq => hnm (poolPage_inj heq)
    by_cases hvn : v = poolPage n
    · by_cases hi0 : i = 0
      · simp [hvn, hi0]
      · by_cases hi1 : i = 1023 <;> simp [hvn, hi0, hi1, hne]
    · simp [hvn]

theorem Created.fresh (hc : Created s t n m) : n < 1024 ∧ m < 1024 ∧ n ≠ m ∧
    bit (s.pools 0).bitmap n = false ∧ bit (s.pools 0).bitmap m = false ∧
    ∀ l, bit (t.pools 0).bitmap l = (bit (s.pools 0).bitmap l || decide (l = n) || decide (l = m)) := by
  obtain ⟨ps, took, took'⟩ := hc.first
  have hclear := took'.clear
  rw [took.set] at hclear
  have hnm : n ≠ m := by
    rintro rfl
    simp at hclear
  refine ⟨took.lt, took'.lt, hnm, took.clear, ?_, fun l => ?_⟩
  · simpa [hnm.symm] using hclear
  · rw [took'.set, took.set]

theorem Created.space (hc : Created s t n m) : infoOf t (poolPage n) = poolPage m ∧
    (∀ i < 1024, word t (poolPage m) i = 0) ∧ (∀ i, 0 < i → i < 1023 → word t (poolPage n) i = 0) ∧
    word t (poolPage n) 0 = physOf s (poolPage n) := by
  obtain ⟨hn, hm, hnm, _, _, _⟩ := hc.fresh
  have hne : poolPage m ≠ poolPage n := fun heq => hnm (poolPage_inj heq).symm
  refine ⟨?_, fun i hi => ?_, fun i h1 h2 => ?_, ?_⟩
  · unfold infoOf
    rw [hc.words _ _ (isPage_poolPage hn) (by decide), if_pos rfl, if_neg (by decide), if_pos rfl]
  · rw [hc.words _ _ (isPage_poolPage hm) hi, if_neg hne, if_pos rfl]
  · rw [hc.words _ _ (isPage_poolPage hn) (by omega), if_pos rfl, if_neg (by omega), if_neg (by omega)]
  · rw [hc.words _ _ (isPage_poolPage hn) (by decide), if_pos rfl, if_pos rfl]

variable (h : Tree s spaces owner) (hc : Created s t n m)
include h hc

theorem Created.words_old {v i : Nat} {u : Use} (hr : Role s owner v u) (hi : i < 1024) :
    word t v i = word s v i := by
  obtain ⟨_, _, _, hn, hm, _⟩ := hc.fresh
  rw [hc.words v i hr.isPage hi, if_neg (h.fresh hn hr), if_neg (h.fresh hm hr)]

theorem Created.not_mem : poolPage n ∉ spaces := by
  obtain ⟨_, _, _, hn, _, _⟩ := hc.fresh
  exact fun hmem => h.fresh hn (h.spaces _ hmem).directory rfl

theorem Created.tree : Tree t (poolPage n :: spaces)
    (Function.update (Function.update owner n (some .directory)) m (some (.info (poolPage n)))) := by
  obtain ⟨hn, hm, hnm, hn0, hm0, hset⟩ := hc.fresh
  obtain ⟨hinfo, hzero, hslots, hself⟩ := hc.space
  have hold : ∀ l u, owner l = some u →
      Function.update (Function.update owner n (some .directory)) m (some (.info (poolPage n))) l = some u := by
    intro l u hu
    rw [Function.update_of_ne (h.ne_of_clear hm0 hm hu), Function.update_of_ne (h.ne_of_clear hn0 hn hu), hu]
  have hrole : ∀ v u, Role s owner v u → Role t
      (Function.update (Function.update owner n (some .directory)) m (some (.info (poolPage n)))) v u := by
    rintro v u (⟨hv, hu⟩ | ⟨l, hl, hv, hu⟩)
    · exact .inl ⟨hv.trans hc.framed.mmKernel.symm, hu⟩
    · exact .inr ⟨l, hl, hv, hold l u hu⟩
  obtain ⟨ps, took, took'⟩ := hc.first
  refine ⟨hc.framed.geometry h.geometry (took'.firstOnly (took.firstOnly h.geometry.pools)), ?_, ?_, ?_⟩
  · rw [hc.framed.mmKernel]
    exact List.mem_cons_of_mem _ h.kernel
  · intro l hl u hu
    rw [hset]
    by_cases hlm : l = m
    · simp [hlm]
    · by_cases hln : l = n
      · simp [hln]
      · rw [Function.update_of_ne hlm, Function.update_of_ne hln] at hu
        simp [h.taken l hl u hu]
  · intro pd hpd
    rcases List.mem_cons.mp hpd with rfl | hpd
    · refine ⟨.inr ⟨n, hn, rfl, ?_⟩, ?_, fun k hk => ⟨fun hne => ?_, fun h1 _ => ?_⟩⟩
      · rw [Function.update_of_ne hnm, Function.update_self]
      · rw [hinfo]
        exact .inr ⟨m, hm, rfl, Function.update_self ..⟩
      · unfold slotInfo at hne
        rw [hinfo] at hne
        exact absurd (hzero k (by omega)) hne
      · by_cases hk0 : k = 0
        · have hmod := physOf_isPage_aligned h.geometry (isPage_poolPage (s := s) hn)
          rw [hk0, hself] at h1
          omega
        · rw [hslots k (by omega) hk] at h1
          cases h1
    · have hok := h.spaces pd hpd
      have hinfo' : infoOf t pd = infoOf s pd := hc.words_old h hok.directory (by decide)
      refine ⟨hrole _ _ hok.directory, ?_, fun k hk => (hok.slots k hk).keep hc.framed.physOf_eq
        (hc.words_old h hok.directory (by omega)) ?_ fun v hv => hrole v _ hv⟩
      · rw [hinfo']
        exact hrole _ _ hok.info
      · unfold slotInfo
        rw [hinfo']
        exact hc.words_old h hok.info (by omega)

end Create

theorem Created.sound {s t : Machine} {spaces : List Nat} {n m : Nat} (h : Sound spaces s)
    (hc : Created s t n m) : Sound (poolPage n :: spaces) t := by
  obtain ⟨owner, ht⟩ := h.tree
  refine ⟨⟨_, hc.tree ht⟩, fun pd hpd => ?_, ?_, ?_⟩
  · rw [hc.framed.physOf_eq]
    rcases List.mem_cons.mp hpd with rfl | hpd
    · exact hc.space.2.2.2
    · rw [hc.words_old ht (ht.spaces pd hpd).directory (by decide)]
      exact h.self pd hpd
  · rw [hc.framed.cr3, hc.framed.mmKernel, hc.framed.physOf_eq]
    exact h.loaded
  · rw [hc.phys]
    exact h.hint

section Destroy

structure Destroyed (s t : Machine) (pd n m : Nat) : Prop where
  framed : Framed s t
  phys : t.phys = s.phys
  directory : pd = poolPage n
  info : infoOf s pd = poolPage m
  lt : n < 1024 ∧ m < 1024
  pools : ∃ ps, GavePoolPage s.pools m ps ∧ GavePoolPage ps n t.pools
  words : ∀ v i, word t v i = word s v i

variable {s t : Machine} {spaces : List Nat} {owner : Owner} {pd n m : Nat}

theorem wp_mmDestroySpace {E : Fault → Prop} {Q : Unit → Machine → Prop} (h : Tree s spaces owner)
    (hpd : pd ∈ spaces) (hkernel : pd = s.mmKernel → E (.panic "The page does not belong to any of pools"))
    (hQ : ∀ n m t, Destroyed s t pd n m → Q () t) : wp (mmDestroySpace pd) E Q s := by
  have hg := h.geometry
  have hok := h.spaces pd hpd
  rcases hok.info with ⟨_, hu⟩ | ⟨m, hm, hinfo, hum⟩
  · cases hu
  rw [mmDestroySpace, wp_bind, wp_entry hg hok.directory.isPage (by decide),
    show word s pd 1023 = poolPage m from hinfo, wp_bind]
  refine wp_poolFree hg hm (h.taken m hm _ hum) fun ps gave => ?_
  have hg1 : Geometry { s with pools := ps } := (framed_pools gave.paddr).geometry hg (gave.firstOnly hg.pools)
  rcases hok.directory with ⟨hk, _⟩ | ⟨n, hn, hdir, hun⟩
  · refine free_outside hg1.pools ?_ (hkernel hk)
    have hhigh := hg.high
    rw [hk]
    unfold poolVaddr
    unfold kernelVirtBase at hhigh
    omega
  · have hnm : n ≠ m := by
      rintro rfl
      rw [hun] at hum
      cases hum
    have hset : bit (ps 0).bitmap n = true := by
      rw [gave.set]
      simp [h.taken n hn _ hun, hnm]
    rw [hdir]
    refine wp_poolFree hg1 hn hset fun ps' gave' => ?_
    refine hQ n m _ ⟨?_, rfl, hdir, hinfo, ⟨hn, hm⟩, ⟨ps, gave, gave'⟩, fun v i => ?_⟩
    · exact (framed_pools (s := s) gave.paddr).trans (framed_pools gave'.paddr)
    · exact (word_pools (s := { s with pools := ps }) gave'.paddr v i).trans (word_pools gave.paddr v i)

theorem Destroyed.tree (h : Tree s spaces owner) (hpd : pd ∈ spaces) (hc : Destroyed s t pd n m) :
    Tree t (spaces.filter (· ≠ pd)) (Function.update (Function.update owner m none) n none) := by
  have hg := h.geometry
  have hok := h.spaces pd hpd
  obtain ⟨hn, hm⟩ := hc.lt
  have hdir := hok.directory
  rw [hc.directory, role_poolPage hg] at hdir
  have hinfo := hok.info
  rw [hc.info, role_poolPage hg] at hinfo
  have hnotdir : ∀ l u, owner l = some u → u ≠ .directory → u ≠ .info pd →
      Function.update (Function.update owner m none) n none l = some u := by
    intro l u hu h1 h2
    have hln : l ≠ n := by
      rintro rfl
      rw [hdir.2] at hu
      exact h1 (Option.some.inj hu).symm
    have hlm : l ≠ m := by
      rintro rfl
      rw [hinfo.2] at hu
      exact h2 (Option.some.inj hu).symm
    rw [Function.update_of_ne hln, Function.update_of_ne hlm, hu]
  have hrole : ∀ v u, Role s owner v u → u ≠ .directory → u ≠ .info pd → Role t
      (Function.update (Function.update owner m none) n none) v u := by
    rintro v u (⟨hv, hu⟩ | ⟨l, hl, hv, hu⟩) h1 h2
    · exact absurd hu h1
    · exact .inr ⟨l, hl, hv, hnotdir l u hu h1 h2⟩
  obtain ⟨ps, gave, gave'⟩ := hc.pools
  have hne : pd ≠ s.mmKernel := by
    rw [hc.directory]
    exact poolPage_ne_mmKernel hg n
  refine ⟨hc.framed.geometry hg (gave'.firstOnly (gave.firstOnly hg.pools)), ?_, ?_, fun pd' hpd' => ?_⟩
  · rw [hc.framed.mmKernel]
    exact List.mem_filter.mpr ⟨h.kernel, by simpa using hne.symm⟩
  · intro l hl u hu
    have hln : l ≠ n := by
      rintro rfl
      rw [Function.update_self] at hu
      cases hu
    have hlm : l ≠ m := by
      rintro rfl
      rw [Function.update_of_ne hln, Function.update_self] at hu
      cases hu
    rw [Function.update_of_ne hln, Function.update_of_ne hlm] at hu
    rw [gave'.set, gave.set]
    simp [h.taken l hl u hu, hln, hlm]
  · obtain ⟨hmem, hpne⟩ := List.mem_filter.mp hpd'
    have hpne' : pd' ≠ pd := by simpa using hpne
    have hok' := h.spaces pd' hmem
    have hinfo' : infoOf t pd' = infoOf s pd' := hc.words pd' 1023
    refine ⟨?_, ?_, fun k hk => (hok'.slots k hk).keep hc.framed.physOf_eq (hc.words pd' k) ?_ fun v hv =>
      hrole v _ hv (by simp) (by simp)⟩
    · rcases hok'.directory with ⟨hv, hu⟩ | ⟨l, hl, hv, hu⟩
      · exact .inl ⟨hv.trans hc.framed.mmKernel.symm, hu⟩
      · refine .inr ⟨l, hl, hv, ?_⟩
        have hln : l ≠ n := by
          rintro rfl
          exact hpne' (hv.trans hc.directory.symm)
        have hlm : l ≠ m := by
          rintro rfl
          rw [hinfo.2] at hu
          cases hu
        rw [Function.update_of_ne hln, Function.update_of_ne hlm, hu]
    · rw [hinfo']
      exact hrole _ _ hok'.info (by simp) (by simpa using hpne')
    · unfold slotInfo
      rw [hinfo']
      exact hc.words _ k

end Destroy

theorem Destroyed.sound {s t : Machine} {spaces : List Nat} {pd n m : Nat} (h : Sound spaces s)
    (hpd : pd ∈ spaces) (hc : Destroyed s t pd n m) : Sound (spaces.filter (· ≠ pd)) t := by
  obtain ⟨owner, ht⟩ := h.tree
  refine ⟨⟨_, hc.tree ht hpd⟩, fun pd' hpd' => ?_, ?_, ?_⟩
  · rw [hc.words, hc.framed.physOf_eq]
    exact h.self pd' (List.mem_filter.mp hpd').1
  · rw [hc.framed.cr3, hc.framed.mmKernel, hc.framed.physOf_eq]
    exact h.loaded
  · rw [hc.phys]
    exact h.hint

end YggKernel.Paging
