import YggKernel.Fault
import YggKernel.Lib.BitWords

namespace YggKernel.Pool

open Lib.Program Lib.BitWords

def x86MmPagePool : Nat := 16

/-- One 4 MiB chunk of pages for paging structures. -/
structure PagePool where
  bitmap : Words
  indexLast : Nat
  vaddr : Nat
  paddr : Nat

/-- A state that holds the pools, and the way it gets and maps a new chunk: the
call takes the virtual address of the chunk and returns its physical address. -/
structure PoolHost (σ : Type) where
  pool : σ → Nat → PagePool
  setPool : Nat → PagePool → σ → σ
  newChunk : Nat → Prog Fault σ Nat

/-- The inner search loop. The bitmap of a pool has 32 words, and a larger index
is outside of the array. -/
def searchFrom (bm : Words) : List Nat → Except Fault (Option (Nat × Nat))
  | [] => .ok none
  | j :: rest =>
    if j < 32 then
      if bm j = full then searchFrom bm rest
      else match firstClear (bm j) with
        | some k => .ok (some (j, k))
        | none => searchFrom bm rest
    else .error (.outOfBounds j)

/-- The two passes over one pool: from the last index up to 1024, then from zero. -/
def searchPool (p : PagePool) : Except Fault (Option (Nat × Nat)) :=
  match searchFrom p.bitmap (List.range' p.indexLast (1024 - p.indexLast)) with
  | .ok none => searchFrom p.bitmap (List.range p.indexLast)
  | r => r

variable {σ : Type}

def initPool (host : PoolHost σ) (i : Nat) : Prog Fault σ Unit := do
  let vaddr := u32 (kernelVirtBase + (4 <<< 22) + (i <<< 22))
  let paddr ← host.newChunk vaddr
  modify fun s => host.setPool i
    ⟨fun w => if w < 1024 / 32 then 0#32 else (host.pool s i).bitmap w, 0, vaddr, paddr⟩ s

/-- The loop over the pools. The result is the virtual and the physical address
of the page, and none stands for `MM_NADDR`. -/
def allocateFrom (host : PoolHost σ) : List Nat → Prog Fault σ (Option (Nat × Nat))
  | [] => pure none
  | i :: rest => do
    if (host.pool (← get) i).vaddr = 0 then initPool host i
    let p := host.pool (← get) i
    match searchPool p with
    | .error e => throw e
    | .ok none => allocateFrom host rest
    | .ok (some (j, k)) =>
      modify (host.setPool i { p with bitmap := setBit p.bitmap j k, indexLast := j })
      pure (some (u32 (p.vaddr + (j <<< 17) + (k <<< 12)), u32 (p.paddr + (j <<< 17) + (k <<< 12))))

def x86PagePoolAllocate (host : PoolHost σ) : Prog Fault σ (Option (Nat × Nat)) :=
  allocateFrom host (List.range x86MmPagePool)

def Holds (p : PagePool) (vaddr : Nat) : Prop :=
  p.vaddr ≠ 0 ∧ p.vaddr ≤ vaddr ∧ vaddr - p.vaddr < 0x400000

instance (p : PagePool) (vaddr : Nat) : Decidable (Holds p vaddr) :=
  inferInstanceAs (Decidable (_ ∧ _ ∧ _))

def freeFrom (host : PoolHost σ) (vaddr : Nat) : List Nat → Prog Fault σ Unit
  | [] => throw (.panic "The page does not belong to any of pools")
  | i :: rest => do
    let p := host.pool (← get) i
    if Holds p vaddr then
      let index := (vaddr - p.vaddr) >>> 17
      let bit := ((vaddr - p.vaddr) >>> 12) &&& 0x1F
      if 32 ≤ index then throw (.outOfBounds index)
      kassert (p.bitmap index &&& mask bit != 0#32)
        "x86_page_pool[i].bitmap[index] & ((uint32_t) 1 << bit)"
      modify (host.setPool i { p with bitmap := clearBit p.bitmap index bit })
    else freeFrom host vaddr rest

def x86PagePoolFree (host : PoolHost σ) (vaddr : Nat) : Prog Fault σ Unit :=
  freeFrom host vaddr (List.range x86MmPagePool)

def emptyPool : PagePool := ⟨fun _ => 0#32, 0, 0, 0⟩

structure PoolHost.Lawful (host : PoolHost σ) : Prop where
  pool_setPool : ∀ i p s, host.pool (host.setPool i p s) = Function.update (host.pool s) i p

theorem searchFrom_some {bm : Words} {is : List Nat} {j k : Nat}
    (h : searchFrom bm is = .ok (some (j, k))) :
    j ∈ is ∧ j < 32 ∧ k < 32 ∧ bit bm (32 * j + k) = false := by
  induction is with
  | nil => simp [searchFrom] at h
  | cons i rest ih =>
    simp only [searchFrom] at h
    by_cases hi : i < 32
    · by_cases hf : bm i = full
      · simp only [hi, hf, if_true] at h
        obtain ⟨hmem, hrest⟩ := ih h
        exact ⟨List.mem_cons_of_mem _ hmem, hrest⟩
      · obtain ⟨k', hk'⟩ := firstClear_of_ne_full hf
        simp only [hi, hf, hk', if_true, if_false, Except.ok.injEq, Option.some.injEq,
          Prod.mk.injEq] at h
        obtain ⟨rfl, rfl⟩ := h
        obtain ⟨hk, hclear, _⟩ := firstClear_some hk'
        exact ⟨List.mem_cons_self .., hi, hk, by rwa [bit_word _ _ hk]⟩
    · simp [hi] at h

/-- The upward pass never ends without a hit inside the bitmap: it finds a clear
bit at or after its first index, or runs over the end of the array. -/
theorem searchFrom_range' (bm : Words) (first count : Nat) (hfirst : first ≤ 32)
    (hcount : 32 < first + count) :
    (∃ j k, searchFrom bm (List.range' first count) = .ok (some (j, k)) ∧
      (∃ w, first ≤ w ∧ w < 32 ∧ bm w ≠ full) ∧
      ∀ m, 32 * first ≤ m → m < 32 * j + k → bit bm m = true) ∨
    ((∃ w, searchFrom bm (List.range' first count) = .error (.outOfBounds w)) ∧
      ∀ w, first ≤ w → w < 32 → bm w = full) := by
  induction count generalizing first with
  | zero => omega
  | succ n ih =>
    rw [List.range'_succ]
    simp only [searchFrom]
    by_cases hi : first < 32
    · by_cases hf : bm first = full
      · simp only [hi, hf, if_true]
        rcases ih (first + 1) (by omega) (by omega) with
          ⟨j, k, hjk, ⟨w, hw, hw', hne⟩, hlow⟩ | ⟨hw, hfull⟩
        · refine .inl ⟨j, k, hjk, ⟨w, by omega, hw', hne⟩, fun m h1 h2 => ?_⟩
          by_cases hm : m < 32 * (first + 1)
          · unfold bit
            rw [show m / 32 = first by omega, hf]
            exact getLsbD_full (Nat.mod_lt m (by decide))
          · exact hlow m (by omega) h2
        · refine .inr ⟨hw, fun w h1 h2 => ?_⟩
          by_cases hwf : w = first
          · rwa [hwf]
          · exact hfull w (by omega) h2
      · obtain ⟨k, hk⟩ := firstClear_of_ne_full hf
        simp only [hi, hf, hk, if_true, if_false]
        refine .inl ⟨first, k, rfl, ⟨first, le_rfl, hi, hf⟩, fun m h1 h2 => ?_⟩
        obtain ⟨hk32, _, hlow⟩ := firstClear_some hk
        unfold bit
        rw [show m / 32 = first by omega]
        exact hlow _ (by omega)
    · simp only [hi, if_false]
      exact .inr ⟨⟨first, rfl⟩, fun w h1 h2 => by omega⟩

/-- A word at or after the last index has a clear bit. -/
def WordLeft (p : PagePool) : Prop := ∃ w, p.indexLast ≤ w ∧ w < 32 ∧ p.bitmap w ≠ full

/-- One pool is searched from its last index on. Either that hits a clear bit, or
the search runs over the end of the bitmap. The second pass is never reached. -/
theorem searchPool_cases (p : PagePool) (hlast : p.indexLast < 32) :
    (∃ j k, searchPool p = .ok (some (j, k)) ∧ j < 32 ∧ k < 32 ∧
      bit p.bitmap (32 * j + k) = false ∧ p.indexLast ≤ j ∧ WordLeft p ∧
      ∀ m, 32 * p.indexLast ≤ m → m < 32 * j + k → bit p.bitmap m = true) ∨
    ((∃ w, searchPool p = .error (.outOfBounds w)) ∧ ¬WordLeft p) := by
  unfold searchPool
  rcases searchFrom_range' p.bitmap p.indexLast (1024 - p.indexLast) (by omega) (by omega) with
    ⟨j, k, hjk, hw, hlow⟩ | ⟨⟨w, hw⟩, hfull⟩
  · obtain ⟨hmem, hj, hk, hbit⟩ := searchFrom_some hjk
    simp only [hjk]
    exact .inl ⟨j, k, rfl, hj, hk, hbit, (List.mem_range'_1.mp hmem).1, hw, hlow⟩
  · simp only [hw]
    refine .inr ⟨⟨w, rfl⟩, ?_⟩
    rintro ⟨v, h1, h2, hne⟩
    exact hne (hfull v h1 h2)

theorem page_offset (j k : Nat) : (j <<< 17) + (k <<< 12) = 4096 * (32 * j + k) := by
  rw [Nat.shiftLeft_eq, Nat.shiftLeft_eq]
  omega

def poolVaddr : Nat := 0xC1000000

structure FirstOnly (pool : Nat → PagePool) : Prop where
  vaddr : (pool 0).vaddr = poolVaddr
  aligned : (pool 0).paddr % 4194304 = 0
  below : (pool 0).paddr + 4194304 ≤ 4294967296
  last : (pool 0).indexLast < 32
  rest : ∀ i, 0 < i → i < 16 → (pool i).vaddr = 0

structure TookPoolPage (pool : Nat → PagePool) (n : Nat) (pool' : Nat → PagePool) : Prop where
  lt : n < 1024
  clear : bit (pool 0).bitmap n = false
  first : ∀ m, 32 * (pool 0).indexLast ≤ m → m < n → bit (pool 0).bitmap m = true
  set : ∀ m, bit (pool' 0).bitmap m = (bit (pool 0).bitmap m || decide (m = n))
  last : (pool' 0).indexLast = n / 32
  upward : (pool 0).indexLast ≤ n / 32
  vaddr : (pool' 0).vaddr = (pool 0).vaddr
  paddr : (pool' 0).paddr = (pool 0).paddr
  rest : ∀ i, 0 < i → pool' i = pool i

theorem TookPoolPage.firstOnly {pool pool' : Nat → PagePool} {n : Nat}
    (h : TookPoolPage pool n pool') (hp : FirstOnly pool) : FirstOnly pool' := by
  have := h.lt
  have := h.last
  refine ⟨h.vaddr.trans hp.vaddr, by rw [h.paddr]; exact hp.aligned, by rw [h.paddr]; exact hp.below,
    by omega, fun i hi hi' => ?_⟩
  rw [h.rest i hi]
  exact hp.rest i hi hi'

theorem TookPoolPage.unique {p q q' : Nat → PagePool} {m n : Nat} (hm : TookPoolPage p m q)
    (hn : TookPoolPage p n q') : m = n := by
  have hbefore : ∀ {m n q q'}, TookPoolPage p m q → TookPoolPage p n q' → ¬m < n := by
    intro m n q q' hm hn hlt
    have hup := hm.upward
    have hset := hn.first m (by omega) hlt
    rw [hm.clear] at hset
    cases hset
  have h1 := hbefore hm hn
  have h2 := hbefore hn hm
  omega

def pageAddrs (pool : Nat → PagePool) (n : Nat) : Nat × Nat :=
  (poolVaddr + 4096 * n, (pool 0).paddr + 4096 * n)

/-- An allocation from the first pool takes a page of it or runs over the end of
its bitmap. -/
theorem allocate_first {host : PoolHost σ} (hl : host.Lawful) {s : σ}
    (hp : FirstOnly (host.pool s)) :
    wp (x86PagePoolAllocate host)
      (fun e => (∃ w, e = .outOfBounds w) ∧ ¬WordLeft (host.pool s 0))
      (fun r t => WordLeft (host.pool s 0) ∧ (∃ p, t = host.setPool 0 p s) ∧
        ∃ n, r = some (pageAddrs (host.pool s) n) ∧ TookPoolPage (host.pool s) n (host.pool t)) s := by
  have hne : (host.pool s 0).vaddr ≠ 0 := by
    rw [hp.vaddr]
    decide
  have hbelow := hp.below
  rw [x86PagePoolAllocate, show List.range x86MmPagePool = 0 :: List.range' 1 15 by decide, allocateFrom]
  simp only [wp_bind, wp_get, hne, if_false]
  rcases searchPool_cases (host.pool s 0) hp.last with
    ⟨j, k, hjk, hj, hk, hbit, hle, hw, hlow⟩ | ⟨⟨w, hw⟩, hno⟩
  · simp only [hjk, wp_bind, wp_modify, wp_pure]
    refine ⟨hw, ⟨_, rfl⟩, 32 * j + k, ?_, ⟨by omega, hbit, hlow, ?_, ?_, by omega, ?_, ?_, ?_⟩⟩
    · rw [Nat.add_assoc, Nat.add_assoc, page_offset, hp.vaddr, u32_of_lt (by unfold poolVaddr; omega),
        u32_of_lt (by omega)]
      rfl
    · intro m
      rw [hl.pool_setPool, Function.update_self, bit_setBit _ _ hk]
    · rw [hl.pool_setPool, Function.update_self]
      dsimp only
      omega
    · rw [hl.pool_setPool, Function.update_self]
    · rw [hl.pool_setPool, Function.update_self]
    · intro i hi
      rw [hl.pool_setPool, Function.update_of_ne (by omega)]
  · simp only [hw, wp_throw]
    exact ⟨⟨w, rfl⟩, hno⟩

theorem holds_page {pool : Nat → PagePool} (hp : FirstOnly pool) {n : Nat} (hn : n < 1024) :
    Holds (pool 0) (poolVaddr + 4096 * n) := by
  unfold Holds
  rw [hp.vaddr]
  unfold poolVaddr
  omega

structure GavePoolPage (pool : Nat → PagePool) (n : Nat) (pool' : Nat → PagePool) : Prop where
  was : bit (pool 0).bitmap n = true
  set : ∀ m, bit (pool' 0).bitmap m = (bit (pool 0).bitmap m && decide (m ≠ n))
  last : (pool' 0).indexLast = (pool 0).indexLast
  vaddr : (pool' 0).vaddr = (pool 0).vaddr
  paddr : (pool' 0).paddr = (pool 0).paddr
  rest : ∀ i, 0 < i → pool' i = pool i

theorem GavePoolPage.firstOnly {pool pool' : Nat → PagePool} {n : Nat}
    (h : GavePoolPage pool n pool') (hp : FirstOnly pool) : FirstOnly pool' := by
  refine ⟨h.vaddr.trans hp.vaddr, by rw [h.paddr]; exact hp.aligned, by rw [h.paddr]; exact hp.below,
    by rw [h.last]; exact hp.last, fun i hi hi' => ?_⟩
  rw [h.rest i hi]
  exact hp.rest i hi hi'

theorem free_first {host : PoolHost σ} (hl : host.Lawful) {s : σ} (hp : FirstOnly (host.pool s))
    {n : Nat} (hn : n < 1024) :
    wp (x86PagePoolFree host (poolVaddr + 4096 * n))
      (fun e => e = assertionFailed "x86_page_pool[i].bitmap[index] & ((uint32_t) 1 << bit)" ∧
        bit (host.pool s 0).bitmap n = false)
      (fun _ t => (∃ p, t = host.setPool 0 p s) ∧ GavePoolPage (host.pool s) n (host.pool t)) s := by
  have hlt : n % 32 < 32 := Nat.mod_lt n (by decide)
  have hsub : poolVaddr + 4096 * n - (host.pool s 0).vaddr = 4096 * n := by
    rw [hp.vaddr]
    omega
  have hi : (4096 * n) >>> 17 = n / 32 := by
    rw [Nat.shiftRight_eq_div_pow]
    omega
  have hj : ((4096 * n) >>> 12) &&& 0x1F = n % 32 := by
    rw [show 0x1F = 2 ^ 5 - 1 by rfl, Nat.and_two_pow_sub_one_eq_mod, Nat.shiftRight_eq_div_pow]
    omega
  have hb : ((host.pool s 0).bitmap (n / 32) &&& mask (n % 32) != 0#32) =
      bit (host.pool s 0).bitmap n := and_mask_bne _ hlt
  rw [x86PagePoolFree, show List.range x86MmPagePool = 0 :: List.range' 1 15 by decide, freeFrom]
  simp only [wp_bind, wp_get, holds_page hp hn, if_true, hsub, hi, hj, show ¬32 ≤ n / 32 by omega,
    if_false, wp_kassert, wp_modify, hb]
  refine ⟨fun hbit => ⟨⟨_, rfl⟩, hbit, ?_, ?_, ?_, ?_, ?_⟩, fun hbit => ⟨trivial, hbit⟩⟩
  · intro m
    rw [hl.pool_setPool, Function.update_self, bit_clearBit _ _ hlt, Nat.div_add_mod]
  · rw [hl.pool_setPool, Function.update_self]
  · rw [hl.pool_setPool, Function.update_self]
  · rw [hl.pool_setPool, Function.update_self]
  · intro i hi
    rw [hl.pool_setPool, Function.update_of_ne (by omega)]

/-- The first allocation gets a chunk for the first pool and then goes on as any later
one. -/
theorem wp_allocate_init {host : PoolHost σ} {s : σ} {E : Fault → Prop} {Q : Option (Nat × Nat) → σ → Prop}
    (h0 : (host.pool s 0).vaddr = 0)
    (h : wp (initPool host 0) E
      (fun _ t => (host.pool t 0).vaddr ≠ 0 ∧ wp (x86PagePoolAllocate host) E Q t) s) :
    wp (x86PagePoolAllocate host) E Q s := by
  rw [x86PagePoolAllocate, show List.range x86MmPagePool = 0 :: List.range' 1 15 by decide, allocateFrom]
  simp only [wp_bind, wp_get, h0, if_true]
  refine wp_imp h ?_
  rintro _ t ⟨hne, ht⟩
  rw [x86PagePoolAllocate, show List.range x86MmPagePool = 0 :: List.range' 1 15 by decide, allocateFrom] at ht
  simpa only [wp_bind, wp_get, hne, if_false] using ht

theorem free_outside {host : PoolHost σ} {s : σ} {v : Nat} {E : Fault → Prop} {Q : Unit → σ → Prop}
    (hp : FirstOnly (host.pool s)) (hv : v < poolVaddr)
    (hE : E (.panic "The page does not belong to any of pools")) : wp (x86PagePoolFree host v) E Q s := by
  have hall : ∀ l : List Nat, (∀ i ∈ l, ¬Holds (host.pool s i) v) → wp (freeFrom host v l) E Q s := by
    intro l
    induction l with
    | nil => exact fun _ => hE
    | cons i l ih =>
      intro hno
      rw [freeFrom, wp_bind, wp_get]
      simp only [hno i (List.mem_cons_self ..), if_false]
      exact ih fun j hj => hno j (List.mem_cons_of_mem _ hj)
  refine hall _ fun i hi hholds => ?_
  have hlt : i < 16 := List.mem_range.mp hi
  by_cases hi0 : i = 0
  · have hle := hholds.2.1
    rw [hi0, hp.vaddr] at hle
    omega
  · exact hholds.1 (hp.rest i (by omega) hlt)

end YggKernel.Pool
