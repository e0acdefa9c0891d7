import YggKernel.Paging.Forking

namespace YggKernel.Paging

open Lib.Program Lib.ByteMemory Lib.BitWords Lib.Masks Phys Pool

/-- The machine as the boot stage and `x86_mm_phys_init` leave it: the kernel is mapped in
the directory, only pages that can be claimed are free, and a huge frame is. -/
structure BootState (b : Machine) (dir : Nat) : Prop where
  aligned : dir % 4096 = 0
  low : kernelVirtBase ≤ dir
  high : dir < kernelVirtBase + 4194304
  loaded : b.cr3 = dir - kernelVirtBase
  kernelEntry : load32 b.mem (dir - kernelVirtBase + 4 * 768) = 0x87
  others : ∀ k < 1024, k ≠ 768 → load32 b.mem (dir - kernelVirtBase + 4 * k) = 0
  claimed : ∀ n, bit b.phys.bitmap n = false → 4096 < n ∧ n < 262144
  room : ∃ g < 1024, GroupClear b.phys.bitmap g
  hint : b.phys.allocLast < 4294967296

section Early

variable {s : Machine} {dir k : Nat} {E : Fault → Prop}

theorem linear_early (hp : ∀ i, (s.pools i).vaddr = 0) (v : Nat) : linear s v =
    if kernelVirtBase ≤ v ∧ v < kernelVirtBase + 0x400000 then some (v - kernelVirtBase) else none := by
  have hnone : (List.range x86MmPagePool).find? (fun i => decide (Holds (s.pools i) v)) = none := by
    rw [List.find?_eq_none]
    intro i _
    simp [Holds, hp i]
  unfold linear
  rw [hnone]

theorem resolve_early (hp : ∀ i, (s.pools i).vaddr = 0) (h1 : kernelVirtBase ≤ dir) (h2 : dir % 4096 = 0)
    (h3 : dir < kernelVirtBase + 4194304) (hk : k < 1024) :
    resolve s (u32 (dir + 4 * k)) = some (dir - kernelVirtBase + 4 * k) := by
  unfold kernelVirtBase at h1 h3
  have hlin := linear_early hp (dir + 4 * k)
  unfold kernelVirtBase at hlin ⊢
  rw [if_pos (by omega)] at hlin
  rw [u32_of_lt (by omega), resolve, hlin]
  exact congrArg some (by omega)

theorem wp_entry_early {Q : Nat → Machine → Prop} (hp : ∀ i, (s.pools i).vaddr = 0) (h1 : kernelVirtBase ≤ dir)
    (h2 : dir % 4096 = 0) (h3 : dir < kernelVirtBase + 4194304) (hk : k < 1024) :
    wp (entry dir k) E Q s ↔ Q (load32 s.mem (dir - kernelVirtBase + 4 * k)) s := by
  simp only [entry, access, wp_bind, wp_get, resolve_early hp h1 h2 h3 hk, wp_pure]

theorem wp_setEntry_early {Q : Unit → Machine → Prop} (x : Nat) (hp : ∀ i, (s.pools i).vaddr = 0)
    (h1 : kernelVirtBase ≤ dir) (h2 : dir % 4096 = 0) (h3 : dir < kernelVirtBase + 4194304) (hk : k < 1024) :
    wp (setEntry dir k x) E Q s ↔
      Q () { s with mem := store32 s.mem (dir - kernelVirtBase + 4 * k) x } := by
  simp only [setEntry, access, wp_bind, wp_get, resolve_early hp h1 h2 h3 hk, wp_pure, wp_modify]

theorem wp_allocPhysicalPage_huge {g : Nat} {q : PhysAlloc} {Q : Nat → Machine → Prop}
    (heq : x86MmAllocPhysicalPageHuge s.phys = (4194304 * g, q)) :
    wp (allocPhysicalPage mmFlgPs) E Q s ↔ Q (4194304 * g) { s with phys := q } := by
  have hflags : mmFlgPs &&& mmFlgPs ≠ 0 := by decide
  rw [allocPhysicalPage, wp_bind, wp_get, mmAllocPhysicalPage, if_pos hflags, heq]
  rfl

end Early

-- the search for a huge frame must not be run on the state while `wp` is taken apart
attribute [local irreducible] wp

section Boot

variable {b : Machine} {dir : Nat}

structure WithChunk (b t : Machine) (dir g : Nat) : Prop where
  lt : 4 < g ∧ g < 256
  hint : t.phys.allocLast < 4294967296
  mem : t.mem = store32 b.mem (dir - kernelVirtBase + 4 * 772) (4194304 * g + 0x83)
  pools : t.pools = Function.update (fun _ => emptyPool) 0 ⟨fun _ => 0#32, 0, poolVaddr, 4194304 * g⟩
  cr3 : t.cr3 = b.cr3
  mmKernel : t.mmKernel = dir

theorem group_bounds (hb : BootState b dir) {g : Nat} (hg : GroupClear b.phys.bitmap g) : 4 < g ∧ g < 256 := by
  have h1 := hb.claimed (1024 * g) (hg _ (by omega))
  have h2 := hb.claimed (1024 * g + 1023) (hg _ (by omega))
  omega

theorem chunk_entry (g : Nat) :
    4194304 * g ||| (((mmFlgPs ||| mmFlgWr) &&& (mmFlgWr ||| mmFlgUs)) ||| x86MmFlgPs ||| x86MmFlgPr) =
      4194304 * g + 0x83 := by
  have hlow : ((mmFlgPs ||| mmFlgWr) &&& (mmFlgWr ||| mmFlgUs)) ||| x86MmFlgPs ||| x86MmFlgPr = 0x83 := by decide
  rw [hlow]
  exact page_or (by omega) (by decide)

structure Started (b s : Machine) (dir : Nat) : Prop where
  mem : s.mem = b.mem
  phys : s.phys = b.phys
  pools : ∀ i, s.pools i = emptyPool
  cr3 : s.cr3 = b.cr3
  mmKernel : s.mmKernel = dir

theorem boot_chunk (hb : BootState b dir) :
    ∃ g q, TookHuge b.phys g q ∧ x86MmAllocPhysicalPageHuge b.phys = (4194304 * g, q) := by
  rcases allocHuge_cases b.phys with htook | ⟨hno, _⟩
  · exact htook
  · obtain ⟨g, hlt, hclear⟩ := hb.room
    exact absurd hclear (hno g hlt)

theorem wp_initPool_boot {s : Machine} (hb : BootState b dir) (hs : Started b s dir) :
    wp (initPool poolHost 0) noFault (fun _ t => ∃ g, WithChunk b t dir g) s := by
  have hslot : poolVaddr >>> 22 + 0 = 772 := by decide
  have hv : u32 (kernelVirtBase + (4 <<< 22) + (0 <<< 22)) = poolVaddr := by decide +kernel
  have hp : ∀ i, (s.pools i).vaddr = 0 := fun i => by rw [hs.pools i]; rfl
  obtain ⟨g, q, took, hq⟩ := boot_chunk hb
  rw [← hs.phys] at hq
  rw [initPool, hv]
  dsimp only [poolHost]
  rw [wp_bind, wp_bind, wp_allocPhysicalPage_huge hq, wp_bind, wp_get, wp_bind, mapHugePages, wp_forUp_one,
    hslot, chunk_entry, wp_bind, hs.mmKernel,
    wp_entry_early (s := { s with phys := q, mmKernel := dir }) hp hb.low hb.aligned hb.high (by decide),
    wp_bind, wp_kassert]
  dsimp only
  rw [hs.mem, hb.others 772 (by decide) (by decide)]
  refine ⟨fun _ => ?_, fun hno => absurd hno (by decide)⟩
  rw [wp_setEntry_early (s := { s with mem := b.mem, phys := q, mmKernel := dir }) _ hp hb.low hb.aligned hb.high
    (by decide), wp_pure, wp_modify]
  dsimp only
  refine ⟨g, group_bounds hb took.clear, took.hint_lt, ?_, ?_, hs.cr3, ?_⟩
  · rfl
  · dsimp only
    rw [hs.pools 0, funext hs.pools]
    refine congrArg (fun bm => Function.update (fun _ => emptyPool) 0 (⟨bm, 0, poolVaddr, 4194304 * g⟩ : PagePool)) ?_
    funext w
    exact ite_self 0#32
  · rfl

end Boot

section Chunk

variable {b t : Machine} {dir g k : Nat}

theorem WithChunk.first (h : WithChunk b t dir g) : t.pools 0 = ⟨fun _ => 0#32, 0, poolVaddr, 4194304 * g⟩ := by
  rw [h.pools]
  exact Function.update_self ..

theorem zero_ne_full : (0#32 : BitVec 32) ≠ full := by decide

theorem WithChunk.wordLeft (h : WithChunk b t dir g) : WordLeft (t.pools 0) := by
  rw [h.first]
  exact ⟨0, le_rfl, by decide, zero_ne_full⟩

theorem WithChunk.geometry (hb : BootState b dir) (h : WithChunk b t dir g) : Geometry t := by
  obtain ⟨h1, h2⟩ := h.lt
  have hfirst := h.first
  refine ⟨⟨by rw [hfirst], ?_, ?_, ?_, fun i hi _ => ?_⟩, ?_, ?_, ?_, ?_, ?_⟩
  · rw [hfirst]
    exact Nat.mul_mod_right ..
  · rw [hfirst]
    dsimp only
    omega
  · rw [hfirst]
    dsimp only
    omega
  · rw [h.pools, Function.update_of_ne (by omega)]
    rfl
  · rw [hfirst]
    dsimp only
    omega
  · rw [hfirst]
    dsimp only
    omega
  · rw [h.mmKernel]
    exact hb.aligned
  · rw [h.mmKernel]
    exact hb.low
  · rw [h.mmKernel]
    exact hb.high

theorem physOf_kernel (hb : BootState b dir) : physOf t dir = dir - kernelVirtBase := by
  have hhigh := hb.high
  refine if_neg ?_
  unfold kernelVirtBase at hhigh
  unfold poolVaddr
  omega

theorem WithChunk.word (hb : BootState b dir) (h : WithChunk b t dir g) (hk : k < 1024) :
    word t dir k % 2 = 0 ∨ word t dir k / 128 % 2 = 1 := by
  obtain ⟨h1, h2⟩ := h.lt
  unfold Paging.word
  rw [physOf_kernel hb, h.mem]
  by_cases hchunk : k = 772
  · rw [hchunk, load32_store32 (by omega)]
    omega
  · rw [load32_store32_of_disjoint (by omega)]
    by_cases hkernel : k = 768
    · rw [hkernel, hb.kernelEntry]
      exact .inr rfl
    · rw [hb.others k hk hkernel]
      exact .inl rfl

structure Initialised (s u : Machine) (dir n : Nat) : Prop where
  geometry : Geometry u
  pools : u.pools = s.pools
  phys : u.phys = s.phys
  cr3 : u.cr3 = s.cr3
  mmKernel : u.mmKernel = s.mmKernel
  info : ∀ k < 1024, word u (poolPage n) k = 0
  directory : ∀ k < 1024, word u dir k =
    if k = 0 then dir - kernelVirtBase else if k = 1023 then poolPage n else word s dir k

theorem initialised {s : Machine} {n : Nat} (hb : BootState b dir) (hg : Geometry s) (hk : s.mmKernel = dir)
    (hn : n < 1024) :
    Initialised s (setWord (setWord (zeroed s (physOf s (poolPage n)) 1024) dir 1023 (poolPage n)) dir 0
      (dir - kernelVirtBase)) dir n := by
  have hg1 := geometry_zeroed hg (physOf s (poolPage n)) 1024
  have hg2 := geometry_setWord hg1 dir 1023 (poolPage n)
  have hpage : IsPage s (poolPage n) := isPage_poolPage hn
  have hdir : IsPage s dir := .inl hk.symm
  have hne : dir ≠ poolPage n := hk ▸ (poolPage_ne_mmKernel hg n).symm
  have hpageLt : poolPage n < 4294967296 := by
    have := (isPage_bounds hg hpage).2.1
    omega
  have hdirLt : dir - kernelVirtBase < 4294967296 := by
    have := hb.high
    unfold kernelVirtBase at *
    omega
  refine ⟨geometry_setWord hg2 _ _ _, rfl, rfl, rfl, rfl, fun k hlt => ?_, fun k hlt => ?_⟩
  · rw [word_setWord hg2 hdir hpage (by decide) hlt hdirLt, if_neg fun h => hne h.1.symm,
      word_setWord hg1 hdir hpage (by decide) hlt hpageLt, if_neg fun h => hne h.1.symm,
      word_zeroed_page hg hpage hpage hlt, if_pos rfl]
  · rw [word_setWord hg2 hdir hdir (by decide) hlt hdirLt]
    by_cases h0 : k = 0
    · rw [if_pos ⟨rfl, h0⟩, if_pos h0]
    · rw [if_neg fun h => h0 h.2, if_neg h0, word_setWord hg1 hdir hdir (by decide) hlt hpageLt]
      by_cases h1 : k = 1023
      · rw [if_pos ⟨rfl, h1⟩, if_pos h1]
      · rw [if_neg fun h => h1 h.2, if_neg h1, word_zeroed_page hg hpage hdir hlt, if_neg hne]

theorem word_initialised {s : Machine} {n m : Nat} (hb : BootState b dir) (hg : Geometry s) (hk : s.mmKernel = dir)
    (hn : n < 1024) (hm : m < 1024) (hmn : m ≠ n) (hi : k < 1024) :
    Paging.word (setWord (setWord (zeroed s (physOf s (poolPage n)) 1024) dir 1023 (poolPage n)) dir 0 (dir - kernelVirtBase))
      (poolPage m) k = Paging.word s (poolPage m) k := by
  have hg1 := geometry_zeroed hg (physOf s (poolPage n)) 1024
  have hg2 := geometry_setWord hg1 dir 1023 (poolPage n)
  have hpage : IsPage s (poolPage n) := isPage_poolPage hn
  have hother : IsPage s (poolPage m) := isPage_poolPage hm
  have hdir : IsPage s dir := .inl hk.symm
  have hne : poolPage m ≠ dir := hk ▸ poolPage_ne_mmKernel hg m
  have hpageLt : poolPage n < 4294967296 := by
    have := (isPage_bounds hg hpage).2.1
    omega
  have hdirLt : dir - kernelVirtBase < 4294967296 := by
    have := hb.high
    unfold kernelVirtBase at *
    omega
  rw [word_setWord hg2 hdir hother (by decide) hi hdirLt, if_neg fun h => hne h.1,
    word_setWord hg1 hdir hother (by decide) hi hpageLt, if_neg fun h => hne h.1,
    word_zeroed_page hg hpage hother hi, if_neg fun h => hmn (poolPage_inj h)]

/-- No slot of `mm_kernel` leads to a table yet, so its empty `table_info` is right. -/
theorem Initialised.sound {s u : Machine} {n : Nat} (h : Initialised s u dir n) (hb : BootState b dir)
    (hk : s.mmKernel = dir) (hn : n < 1024) (htaken : bit (s.pools 0).bitmap n = true)
    (hhint : s.phys.allocLast < 4294967296) (hcr3 : s.cr3 = dir - kernelVirtBase)
    (hold : ∀ k < 1024, word s dir k % 2 = 0 ∨ word s dir k / 128 % 2 = 1) : Sound [dir] u := by
  have hku : u.mmKernel = dir := h.mmKernel.trans hk
  have hphys : physOf u dir = dir - kernelVirtBase := physOf_kernel hb
  have hself : word u dir 0 = physOf u dir := by
    rw [h.directory 0 (by decide), if_pos rfl, hphys]
  have hinfo : infoOf u dir = poolPage n := by
    rw [infoOf, h.directory 1023 (by decide)]
    rfl
  have hslot : ∀ k < 1023, slotInfo u dir k = 0 := fun k hlt => by
    rw [slotInfo, hinfo, h.info k (by omega)]
  refine ⟨⟨fun m => if m = n then some (.info dir) else none, h.geometry, ?_, fun m hm use huse => ?_, fun pd hpd => ?_⟩,
    fun pd hpd => ?_, ?_, h.phys ▸ hhint⟩
  · rw [hku]
    exact List.mem_singleton_self dir
  · by_cases hmn : m = n
    · rw [hmn, h.pools]
      exact htaken
    · rw [if_neg hmn] at huse
      cases huse
  · obtain rfl := List.mem_singleton.mp hpd
    refine ⟨.inl ⟨hku.symm, rfl⟩, ?_, fun k hlt => ⟨fun hne => absurd (hslot k hlt) hne, fun hodd hsmall => ?_⟩⟩
    · rw [hinfo]
      exact .inr ⟨n, hn, rfl, if_pos rfl⟩
    · rw [h.directory k (by omega), if_neg (show k ≠ 1023 by omega)] at hodd hsmall
      by_cases h0 : k = 0
      · have haligned := hb.aligned
        rw [if_pos h0] at hodd
        unfold kernelVirtBase at hodd
        omega
      · rw [if_neg h0] at hodd hsmall
        have := hold k (by omega)
        omega
  · obtain rfl := List.mem_singleton.mp hpd
    exact hself
  · rw [hku, h.cr3, hcr3, hphys]

theorem wp_initKernel {s : Machine} {n : Nat} {Q : Unit → Machine → Prop} {E : Fault → Prop} (hb : BootState b dir)
    (hg : Geometry s) (hk : s.mmKernel = dir) (hn : n < 1024) :
    wp (do
        memsetl (poolPage n) 1024
        setEntry dir 1023 (poolPage n)
        setEntry dir 0 (sub32 dir kernelVirtBase)) E Q s ↔
      Q () (setWord (setWord (zeroed s (physOf s (poolPage n)) 1024) dir 1023 (poolPage n)) dir 0
        (dir - kernelVirtBase)) := by
  have hphys : sub32 dir kernelVirtBase = dir - kernelVirtBase := by
    have hlow := hb.low
    have hhigh := hb.high
    unfold kernelVirtBase at *
    rw [sub32_of_le (by omega) (by omega)]
  have hg1 := geometry_zeroed hg (physOf s (poolPage n)) 1024
  have hg2 := geometry_setWord hg1 dir 1023 (poolPage n)
  rw [wp_bind, wp_memsetl_page hg (isPage_poolPage hn), wp_bind, wp_setEntry hg1 _ (.inl hk.symm) (by decide), hphys,
    wp_setEntry hg2 _ (.inl hk.symm) (by decide)]

end Chunk

section Boot

variable {b : Machine} {dir : Nat}

/-- `mm_init` gives the directory its two bookkeeping entries once the first pool has its chunk, and leaves the other
pages of the pool as they are. -/
theorem wp_mmInit_started {Q : Unit → Machine → Prop} (hb : BootState b dir)
    (hQ : ∀ t g n ps u, WithChunk b t dir g → TookPoolPage t.pools n ps → Initialised { t with pools := ps } u dir n →
      (∀ m < 1024, m ≠ n → ∀ k < 1024, word u (poolPage m) k = word t (poolPage m) k) → Q () u) :
    wp (mmInit dir) noFault Q b := by
  have hinit := wp_initPool_boot (s := { b with pools := fun _ => emptyPool, mmKernel := dir }) hb
    ⟨rfl, rfl, fun _ => rfl, rfl, rfl⟩
  rw [mmInit, wp_bind, wp_modify, wp_bind]
  refine wp_allocate_init rfl (wp_imp hinit fun _ t ⟨g, h⟩ => ⟨?_, ?_⟩)
  · have hfirst : (t.pools 0).vaddr = poolVaddr := (h.geometry hb).pools.vaddr
    dsimp only [poolHost]
    rw [hfirst]
    decide
  · refine wp_poolAllocate (h.geometry hb) (fun hfull => absurd h.wordLeft hfull) fun n ps took => ?_
    have hg := geometry_pools (h.geometry hb) took
    dsimp only
    rw [wp_initKernel hb hg h.mmKernel took.lt]
    refine hQ t g n ps _ h took (initialised hb hg h.mmKernel took.lt) fun m hm hmn k hk => ?_
    rw [word_initialised hb hg h.mmKernel took.lt hm hmn hk, word_pools took.paddr]

theorem wp_mmInit (hb : BootState b dir) :
    wp (mmInit dir) noFault (fun _ t => Sound [dir] t ∧ t.mmKernel = dir) b := by
  refine wp_mmInit_started hb fun t g n ps u h took hinit _ => ?_
  refine ⟨hinit.sound hb h.mmKernel took.lt ?_ h.hint (h.cr3.trans hb.loaded) fun k hk => ?_, hinit.mmKernel.trans h.mmKernel⟩
  · dsimp only
    rw [took.set, decide_eq_true rfl, Bool.or_true]
  · rw [word_pools took.paddr]
    exact h.word hb hk

theorem sound_mmInit {m : Machine} (hb : BootState b dir) (hrun : mmInit dir b = .ok ((), m)) :
    Sound [dir] m ∧ m.mmKernel = dir := of_run (wp_mmInit hb) hrun

theorem mmInit_returns (hb : BootState b dir) : ∃ m, mmInit dir b = .ok ((), m) := by
  obtain ⟨_, m, hrun, _⟩ := run_of_wp (wp_mmInit hb)
  exact ⟨m, hrun⟩

end Boot

end YggKernel.Paging
