import YggKernel.Pool.Allocator
import YggKernel.Lib.Runs

namespace YggKernel.Pool

open Lib.Program Lib.BitWords Lib.Runs

/-- The pools next to a huge-page allocator that is only known by the frames it
returns: `taken` counts the frames handed out so far. -/
structure ChunkState where
  pools : Nat → PagePool
  taken : Nat

def chunkHost (frames : Nat → Nat) : PoolHost ChunkState where
  pool := ChunkState.pools
  setPool i p s := { s with pools := Function.update s.pools i p }
  newChunk _ := do
    let s ← get
    set { s with taken := s.taken + 1 }
    pure (frames s.taken)

theorem chunkHost_lawful (frames : Nat → Nat) : (chunkHost frames).Lawful := ⟨fun _ _ _ => rfl⟩

structure DistinctFrames (frames : Nat → Nat) : Prop where
  inj : ∀ j < x86MmPagePool, ∀ k < x86MmPagePool, frames j = frames k → j = k
  aligned : ∀ k < x86MmPagePool, frames k % 4194304 = 0
  below : ∀ k < x86MmPagePool, frames k + 4194304 ≤ 4294967296

structure PoolState where
  host : ChunkState
  live : List (Nat × Nat)

inductive PoolOp
  | alloc
  | free (page : Nat × Nat)

def x86MmPoolInit : PoolState := ⟨⟨fun _ => emptyPool, 0⟩, []⟩

def poolStep (frames : Nat → Nat) (s : PoolState) : PoolOp → Option PoolState
  | .alloc =>
    match x86PagePoolAllocate (chunkHost frames) s.host with
    | .ok (some page, h) => some ⟨h, page :: s.live⟩
    | .ok (none, h) => some ⟨h, s.live⟩
    | .error _ => none
  | .free page =>
    if page ∈ s.live then
      match x86PagePoolFree (chunkHost frames) page.1 s.host with
      | .ok (_, h) => some ⟨h, s.live.erase page⟩
      | .error _ => none
    else none

def PoolFull (p : PagePool) : Prop := p.vaddr ≠ 0 ∧ ∀ n < 1024, bit p.bitmap n = true

/-- A page the pools may hand out in state `s`, leaving the pools as in `pools`. -/
structure FreshPage (s : PoolState) (pools : Nat → PagePool) (page : Nat × Nat) : Prop where
  aligned : page.1 % 4096 = 0
  distinct : ∀ other ∈ s.live, other.1 ≠ page.1
  window : ∃ i < x86MmPagePool, Holds (pools i) page.1 ∧
    page.2 = (pools i).paddr + (page.1 - (pools i).vaddr) ∧
    ¬PoolFull (s.host.pools i) ∧ ∀ k < i, PoolFull (s.host.pools k)

/-- What is asked of one call: it stays inside the bitmaps and trips no check, a
returned page is fresh and comes from the first pool with room, and only full
pools make it return nothing. -/
def CallGood (frames : Nat → Nat) (s : PoolState) : PoolOp → Prop
  | .alloc => wp (x86PagePoolAllocate (chunkHost frames)) noFault (fun r h =>
      match r with
      | some page => FreshPage s h.pools page
      | none => ∀ i < x86MmPagePool, PoolFull (s.host.pools i)) s.host
  | .free page => page ∈ s.live →
      wp (x86PagePoolFree (chunkHost frames) page.1) noFault (fun _ _ => True) s.host

/-- The first pool has no chunk yet, or the upward pass over it meets a clear bit. -/
def RoomAbove (s : PoolState) : PoolOp → Prop
  | .alloc => (s.host.pools 0).vaddr = 0 ∨ WordLeft (s.host.pools 0)
  | .free _ => True

def PoolRun (frames : Nat → Nat) : PoolState → PoolState → Prop :=
  Run (fun s op t => poolStep frames s op = some t) always

structure PoolInv (s : PoolState) : Prop where
  first : FirstOnly s.host.pools
  bits : ∀ page ∈ s.live, ∃ n < 1024, page = pageAddrs s.host.pools n ∧
    bit (s.host.pools 0).bitmap n = true
  nodup : s.live.Nodup

theorem pageAddrs_inj {pool : Nat → PagePool} {m n : Nat}
    (h : (pageAddrs pool m).1 = (pageAddrs pool n).1) : m = n := by
  simp only [pageAddrs] at h
  omega

theorem wp_alloc {frames : Nat → Nat} {s : PoolState} (h : PoolInv s) :
    wp (x86PagePoolAllocate (chunkHost frames))
      (fun e => (∃ w, e = .outOfBounds w) ∧ ¬WordLeft (s.host.pools 0))
      (fun r t => WordLeft (s.host.pools 0) ∧
        ∃ n, r = some (pageAddrs s.host.pools n) ∧ TookPoolPage s.host.pools n t.pools) s.host :=
  wp_imp (allocate_first (chunkHost_lawful frames) h.first) fun _ _ ⟨hw, _, ht⟩ => ⟨hw, ht⟩

theorem not_full_of_wordLeft {p : PagePool} (h : WordLeft p) : ¬PoolFull p := by
  rintro ⟨_, hfull⟩
  obtain ⟨w, _, hw, hne⟩ := h
  refine hne ((eq_full_iff _).mpr fun j hj => ?_)
  rw [← bit_word _ _ hj]
  exact hfull _ (by omega)

theorem freshPage_of_took {s : PoolState} (h : PoolInv s) {pools : Nat → PagePool} {n : Nat}
    (hw : WordLeft (s.host.pools 0)) (took : TookPoolPage s.host.pools n pools) :
    FreshPage s pools (pageAddrs s.host.pools n) := by
  refine ⟨?_, ?_, 0, by decide, ?_, ?_, not_full_of_wordLeft hw, fun k hk => by omega⟩
  · simp only [pageAddrs, poolVaddr]
    omega
  · intro other hother heq
    obtain ⟨m, _, rfl, hbit⟩ := h.bits other hother
    rw [pageAddrs_inj heq, took.clear] at hbit
    cases hbit
  · exact holds_page (took.firstOnly h.first) took.lt
  · rw [took.paddr, took.vaddr, h.first.vaddr]
    simp only [pageAddrs]
    omega

theorem inv_took {s : PoolState} (h : PoolInv s) {t : ChunkState} {n : Nat}
    (took : TookPoolPage s.host.pools n t.pools) : PoolInv ⟨t, pageAddrs s.host.pools n :: s.live⟩ := by
  have haddrs : ∀ m, pageAddrs t.pools m = pageAddrs s.host.pools m := fun m => by
    simp only [pageAddrs, took.paddr]
  refine ⟨took.firstOnly h.first, ?_, ?_⟩
  · intro page hpage
    rcases List.mem_cons.mp hpage with rfl | hpage
    · exact ⟨n, took.lt, (haddrs n).symm, by simp [took.set]⟩
    · obtain ⟨m, hm, rfl, hbit⟩ := h.bits page hpage
      exact ⟨m, hm, (haddrs m).symm, by simp [took.set, hbit]⟩
  · refine List.nodup_cons.mpr ⟨fun hmem => ?_, h.nodup⟩
    obtain ⟨m, _, heq, hbit⟩ := h.bits _ hmem
    rw [← pageAddrs_inj (congrArg Prod.fst heq), took.clear] at hbit
    cases hbit

theorem wp_free (frames : Nat → Nat) {s : PoolState} (h : PoolInv s) {page : Nat × Nat}
    (hpage : page ∈ s.live) :
    wp (x86PagePoolFree (chunkHost frames) page.1) noFault
      (fun _ t => PoolInv ⟨t, s.live.erase page⟩) s.host := by
  obtain ⟨n, hn, rfl, hbit⟩ := h.bits page hpage
  refine wp_mono (free_first (chunkHost_lawful frames) h.first hn) ?_ ?_
  · rintro e ⟨_, hclear⟩
    rw [show (chunkHost frames).pool s.host 0 = s.host.pools 0 from rfl, hbit] at hclear
    cases hclear
  · rintro _ t ⟨_, gave⟩
    have haddrs : ∀ m, pageAddrs t.pools m = pageAddrs s.host.pools m := fun m => by
      simp only [pageAddrs]
      rw [show (t.pools 0).paddr = (s.host.pools 0).paddr from gave.paddr]
    refine ⟨gave.firstOnly h.first, ?_, h.nodup.erase _⟩
    intro other hother
    obtain ⟨hne, hmem⟩ := h.nodup.mem_erase_iff.mp hother
    obtain ⟨m, hm, rfl, hmb⟩ := h.bits other hmem
    refine ⟨m, hm, (haddrs m).symm, ?_⟩
    have hset := gave.set m
    rw [show (chunkHost frames).pool t 0 = t.pools 0 from rfl,
      show (chunkHost frames).pool s.host 0 = s.host.pools 0 from rfl, hmb] at hset
    rw [hset, Bool.true_and, decide_eq_true_eq]
    rintro rfl
    exact hne rfl

/-- The first allocation gets a chunk for the first pool and then goes on as any
later one. -/
theorem wp_alloc_init {frames : Nat → Nat} {E : Fault → Prop}
    {Q : Option (Nat × Nat) → ChunkState → Prop} {s : ChunkState} (h0 : (s.pools 0).vaddr = 0)
    (h : wp (x86PagePoolAllocate (chunkHost frames)) E Q
      ⟨Function.update s.pools 0 ⟨fun w => if w < 1024 / 32 then 0#32 else (s.pools 0).bitmap w, 0,
        poolVaddr, frames s.taken⟩, s.taken + 1⟩) :
    wp (x86PagePoolAllocate (chunkHost frames)) E Q s := by
  have hv : u32 (kernelVirtBase + (4 <<< 22) + (0 <<< 22)) = poolVaddr := by decide +kernel
  have hne : poolVaddr ≠ 0 := by decide
  rw [x86PagePoolAllocate, show List.range x86MmPagePool = 0 :: List.range' 1 15 by decide,
    allocateFrom] at h ⊢
  simp only [initPool, hv, chunkHost, wp_bind, wp_get, wp_set, wp_modify, h0, hne, if_true, if_false,
    wp_pure, Function.update_self] at h ⊢
  exact h

def withChunk (frames : Nat → Nat) : PoolState :=
  ⟨⟨Function.update (fun _ => emptyPool) 0 ⟨fun w => if w < 1024 / 32 then 0#32 else 0#32, 0,
    poolVaddr, frames 0⟩, 1⟩, []⟩

theorem inv_withChunk {frames : Nat → Nat} (hf : DistinctFrames frames) : PoolInv (withChunk frames) := by
  refine ⟨⟨rfl, hf.aligned 0 (by decide), hf.below 0 (by decide), by simp [withChunk],
    fun i hi _ => ?_⟩,
    by simp [withChunk], List.nodup_nil⟩
  simp [withChunk, Function.update_of_ne (show i ≠ 0 by omega), emptyPool]

theorem wordLeft_withChunk (frames : Nat → Nat) : WordLeft ((withChunk frames).host.pools 0) :=
  ⟨0, le_rfl, by decide, by simp [withChunk, full]⟩

def Reached (s : PoolState) : Prop := s = x86MmPoolInit ∨ PoolInv s

theorem wp_alloc_inv {frames : Nat → Nat} (hf : DistinctFrames frames) {s : PoolState}
    (h : Reached s) :
    wp (x86PagePoolAllocate (chunkHost frames)) anyFault
      (fun r t => ∃ page, r = some page ∧ PoolInv ⟨t, page :: s.live⟩) s.host := by
  have hinv : ∀ u, PoolInv u → wp (x86PagePoolAllocate (chunkHost frames)) anyFault
      (fun r t => ∃ page, r = some page ∧ PoolInv ⟨t, page :: u.live⟩) u.host := by
    intro u hu
    refine wp_mono (wp_alloc hu) (fun _ _ => trivial) ?_
    rintro _ t ⟨_, n, rfl, took⟩
    exact ⟨_, rfl, inv_took hu took⟩
  rcases h with rfl | h
  · exact wp_alloc_init rfl (hinv _ (inv_withChunk hf))
  · exact hinv s h

theorem alloc_good_init {frames : Nat → Nat} (hf : DistinctFrames frames) :
    CallGood frames x86MmPoolInit .alloc := by
  refine wp_alloc_init rfl ?_
  refine wp_mono (wp_alloc (inv_withChunk hf)) (fun _ he => he.2 (wordLeft_withChunk frames)) ?_
  rintro _ t ⟨hw, n, rfl, took⟩
  have hfresh := freshPage_of_took (inv_withChunk hf) hw took
  obtain ⟨i, hi, hold, hphys, _, hfull⟩ := hfresh.window
  refine ⟨hfresh.aligned, by simp [x86MmPoolInit], i, hi, hold, hphys, fun hno => hno.1 rfl, ?_⟩
  intro k hk
  by_cases hk0 : k = 0
  · rw [hk0] at hk
    exact absurd (hfull 0 hk) (not_full_of_wordLeft (wordLeft_withChunk frames))
  · exact absurd (by simp [withChunk, Function.update_of_ne hk0, emptyPool]) (hfull k hk).1

theorem alloc_good_iff {frames : Nat → Nat} (hf : DistinctFrames frames) {s : PoolState}
    (h : Reached s) : CallGood frames s .alloc ↔ RoomAbove s .alloc := by
  rcases h with rfl | h
  · exact iff_of_true (alloc_good_init hf) (.inl rfl)
  · constructor
    · intro hgood
      refine .inr ?_
      by_contra hno
      obtain ⟨r, t, hrun, _⟩ := run_of_wp hgood
      exact hno (of_run (wp_alloc h) hrun).1
    · rintro (h0 | hw)
      · rw [h.first.vaddr] at h0
        exact absurd h0 (by decide)
      · refine wp_mono (wp_alloc h) (fun _ he => he.2 hw) ?_
        rintro _ t ⟨_, n, rfl, took⟩
        exact freshPage_of_took h hw took

theorem reached_poolStep {frames : Nat → Nat} (hf : DistinctFrames frames) (s : PoolState)
    (op : PoolOp) (t : PoolState) (h : Reached s) (hstep : poolStep frames s op = some t) :
    Reached t := by
  cases op with
  | alloc =>
    simp only [poolStep] at hstep
    cases hrun : x86PagePoolAllocate (chunkHost frames) s.host with
    | error e => simp [hrun] at hstep
    | ok r =>
      obtain ⟨page, hr, hinv⟩ := of_run (wp_alloc_inv hf h) (a := r.1) (t := r.2) hrun
      obtain ⟨_, v⟩ := r
      subst hr
      simp only [hrun, Option.some.injEq] at hstep
      exact .inr (hstep ▸ hinv)
  | free page =>
    simp only [poolStep] at hstep
    by_cases hpage : page ∈ s.live
    · rcases h with rfl | h
      · simp [x86MmPoolInit] at hpage
      · obtain ⟨_, v, hrun, hinv⟩ := run_of_wp (wp_free frames h hpage)
        simp only [hpage, if_true, hrun, Option.some.injEq] at hstep
        exact .inr (hstep ▸ hinv)
    · simp [hpage] at hstep

theorem reached_of_run {frames : Nat → Nat} (hf : DistinctFrames frames) {s : PoolState}
    (hrun : PoolRun frames x86MmPoolInit s) : Reached s :=
  hrun.invariant Reached (fun s op t h hstep _ => reached_poolStep hf s op t h hstep) (.inl rfl)

theorem alloc_grows {frames : Nat → Nat} (hf : DistinctFrames frames) {s : PoolState}
    (h : Reached s) (hgood : CallGood frames s .alloc) :
    ∃ t, poolStep frames s .alloc = some t ∧ t.live.length = s.live.length + 1 := by
  obtain ⟨r, t, hrun, _⟩ := run_of_wp hgood
  obtain ⟨page, rfl, _⟩ := of_run (wp_alloc_inv hf h) hrun
  refine ⟨⟨t, page :: s.live⟩, ?_, rfl⟩
  simp only [poolStep, hrun]

/-- In every state reached by allocations and frees of live pages, a call is good
exactly when it finds room above the last index of the first pool. -/
theorem call_good_iff_roomAbove {frames : Nat → Nat} (hf : DistinctFrames frames) (s : PoolState)
    (hrun : PoolRun frames x86MmPoolInit s) (op : PoolOp) :
    CallGood frames s op ↔ RoomAbove s op := by
  have h := reached_of_run hf hrun
  cases op with
  | alloc => exact alloc_good_iff hf h
  | free page =>
    refine iff_of_true (fun hpage => ?_) trivial
    rcases h with rfl | h
    · simp [x86MmPoolInit] at hpage
    · exact wp_imp (wp_free frames h hpage) fun _ _ _ => trivial

def chunkAt (k : Nat) : Nat := 0x1400000 + k * 0x400000

theorem chunkAt_distinct : DistinctFrames chunkAt := by
  constructor <;> unfold chunkAt x86MmPagePool <;> intros <;> omega

theorem call_good_iff_after_one_alloc :
    ∃ s, s.live.length = 1 ∧ (CallGood chunkAt s .alloc ↔ RoomAbove s .alloc) := by
  obtain ⟨s, hstep, hlen⟩ := alloc_grows chunkAt_distinct (.inl rfl)
    (alloc_good_init chunkAt_distinct)
  have hrun : PoolRun chunkAt x86MmPoolInit s := (Run.refl _).tail hstep trivial
  exact ⟨s, hlen, call_good_iff_roomAbove chunkAt_distinct s hrun .alloc⟩

theorem live_length_le {s : PoolState} (h : Reached s) : s.live.length ≤ 1024 := by
  rcases h with rfl | h
  · exact Nat.zero_le _
  · have hsub : s.live ⊆ (List.range 1024).map (pageAddrs s.host.pools) := by
      intro page hpage
      obtain ⟨n, hn, rfl, _⟩ := h.bits page hpage
      exact List.mem_map_of_mem (List.mem_range.mpr hn)
    calc s.live.length ≤ ((List.range 1024).map (pageAddrs s.host.pools)).length :=
          (h.nodup.subperm hsub).length_le
      _ = 1024 := by rw [List.length_map, List.length_range]

theorem exists_run_length {frames : Nat → Nat} (hf : DistinctFrames frames)
    (hgood : ∀ s op, PoolRun frames x86MmPoolInit s → CallGood frames s op)
    (n : Nat) :
    ∃ s, PoolRun frames x86MmPoolInit s ∧ s.live.length = n := by
  induction n with
  | zero => exact ⟨_, .refl _, rfl⟩
  | succ n ih =>
    obtain ⟨s, hrun, rfl⟩ := ih
    obtain ⟨t, hstep, hlen⟩ := alloc_grows hf (reached_of_run hf hrun) (hgood s .alloc hrun)
    exact ⟨t, hrun.tail hstep trivial, hlen⟩

/-- A machine that hands out chunks from 20 MiB on has a bad call within its first
1025 allocations: the search for a free page leaves the bitmap. -/
theorem pool_search_leaves_bitmap :
    ¬∀ s op, PoolRun chunkAt x86MmPoolInit s → CallGood chunkAt s op := by
  intro hgood
  obtain ⟨s, hrun, hlen⟩ := exists_run_length chunkAt_distinct hgood 1025
  have := live_length_le (reached_of_run chunkAt_distinct hrun)
  omega

end YggKernel.Pool
