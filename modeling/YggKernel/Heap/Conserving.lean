import YggKernel.Heap.Reserving
import YggKernel.Heap.Safety

namespace YggKernel.Heap

open Lib.Program Lib.ByteMemory Lib.Chains Lib.Runs

/-- The fields of `struct heap_stat` but for the counters. -/
structure HeapStat where
  free : Nat
  used : Nat
  total : Nat
  blocks : Nat
  frags : Nat

def countBlock (it : Nat) (st : HeapStat) : Prog Fault HeapMem HeapStat := do
  if (← field offFlags it) &&& heapFlgUsed ≠ 0 then
    if (← field offFlags it) &&& heapFlgExclude = 0 then
      return { st with used := u32 (st.used + (← field offSize it)) }
    else return st
  else return { st with free := u32 (st.free + (← field offSize it)) }

def statChain : Nat → Nat → HeapStat → Prog Fault HeapMem HeapStat
  | 0, _, _ => throw .hang
  | fuel + 1, it, st => do
    if it = 0 then return st
    let st ← countBlock it st
    statChain fuel (← field offNext it) { st with blocks := u32 (st.blocks + 1) }

def statRegions : List Nat → HeapStat → Prog Fault HeapMem HeapStat
  | [], st => return st
  | i :: rest, st => do
    let region := (← get).regions i
    if region = 0 then return st
    let st ← statChain chainFuel region { st with frags := u32 (st.frags + 1) }
    statRegions rest st

def heapStat : Prog Fault HeapMem HeapStat := do
  let st ← statRegions (List.range heapMax) ⟨0, 0, 0, 0, 0⟩
  return { st with total := u32 (u32 (st.used + st.free) + u32 (st.blocks * heapBlockSize)) }

def extent (l : List Block) : Nat := (l.map fun b => b.size + heapBlockSize).sum

/-- No two free blocks are neighbours. -/
def Spaced (l : List Block) : Prop := l.IsChain fun b c => ¬(b.used = false ∧ c.used = false)

section Blocks

variable {m : Mem} {lo hi a count : Nat} {l l' l₁ l₂ : List Block} {b : Block}

theorem extent_append (l l' : List Block) : extent (l ++ l') = extent l + extent l' := by
  simp [extent]

theorem extent_cons (b : Block) (l : List Block) : extent (b :: l) = b.size + 16 + extent l := rfl

theorem extent_carve (h : b.size = count ∨ count + 16 ≤ b.size) : extent (b.carve count) = b.size + 16 := by
  rw [Block.carve]
  split
  · rw [extent_cons]
    have hzero : extent [] = 0 := rfl
    dsimp only
    omega
  · rw [extent_cons, extent_cons]
    have hzero : extent [] = 0 := rfl
    dsimp only [Block.remainder]
    omega

theorem extent_absorb (b : Block) (l : List Block) : extent (b.absorb l) = extent (b :: l) := by
  cases l with
  | nil => rfl
  | cons c l =>
    cases hc : c.used with
    | true => rw [Block.absorb, hc]; rfl
    | false =>
      rw [Block.absorb, hc]
      simp only [Bool.false_eq_true, if_false, extent_cons, join_size]
      omega

theorem SteppedBack.extent_eq (h : SteppedBack m a l l') : extent l' = extent l := by
  cases h with
  | stay h => rfl
  | join k₁ p c k₂ hl hp hpfree hcfree =>
    rw [hl, extent_append, extent_append, extent_cons, extent_cons, extent_cons, join_size]
    omega

theorem spaced_around (h : Spaced (l₁ ++ b :: l₂)) (hb : b.used = false) :
    Spaced l₁ ∧ Spaced l₂ ∧ (∀ d ∈ l₁.getLast?, d.used = true) ∧ ∀ d ∈ l₂.head?, d.used = true := by
  obtain ⟨h₁, h₂, hjoin⟩ := List.isChain_append.mp h
  obtain ⟨hhead, h₂'⟩ := List.isChain_cons.mp h₂
  refine ⟨h₁, h₂', fun d hd => ?_, fun d hd => ?_⟩
  · have hno := hjoin d hd b rfl
    simpa [hb] using hno
  · have hno := hhead d hd
    simpa [hb] using hno

theorem spaced_parts (h : Spaced (l₁ ++ b :: l₂)) : Spaced l₁ ∧ Spaced l₂ := by
  obtain ⟨h₁, h₂, -⟩ := List.isChain_append.mp h
  exact ⟨h₁, (List.isChain_cons.mp h₂).2⟩

/-- A block may stand between two chains if it is used or its neighbours are. -/
theorem spaced_insert (h₁ : Spaced l₁) (h₂ : Spaced l₂)
    (hb : b.used = true ∨ (∀ d ∈ l₁.getLast?, d.used = true) ∧ ∀ d ∈ l₂.head?, d.used = true) :
    Spaced (l₁ ++ b :: l₂) := by
  refine List.isChain_append.mpr ⟨h₁, List.isChain_cons.mpr ⟨fun d hd hno => ?_, h₂⟩, fun d hd c hc hno => ?_⟩
  · rcases hb with hb | hb
    · rw [hb] at hno
      exact absurd hno.1 (by decide)
    · rw [hb.2 d hd] at hno
      exact absurd hno.2 (by decide)
  · obtain rfl : b = c := Option.some.inj hc
    rcases hb with hb | hb
    · rw [hb] at hno
      exact absurd hno.2 (by decide)
    · rw [hb.1 d hd] at hno
      exact absurd hno.1 (by decide)

theorem spaced_carve (h : Spaced (l₁ ++ b :: l₂)) (hb : b.used = false) :
    Spaced (l₁ ++ (b.carve count ++ l₂)) := by
  obtain ⟨h₁, h₂, hlast, hhead⟩ := spaced_around h hb
  rw [Block.carve, List.cons_append]
  refine spaced_insert h₁ ?_ (.inl rfl)
  split
  · exact h₂
  · have hrest : Spaced ([] ++ b.remainder count :: l₂) := spaced_insert .nil h₂ (.inr ⟨by simp, hhead⟩)
    exact hrest

/-- A chain whose blocks have different addresses can be cut at an address in one way. -/
theorem cut_unique {c : Block} (hne : (l₁ ++ b :: l₂).Pairwise fun x y => x.addr ≠ y.addr) (heq : l₁ ++ b :: l₂ = l ++ c :: l')
    (haddr : b.addr = c.addr) : l₁ = l ∧ b = c ∧ l₂ = l' := by
  induction l₁ generalizing l with
  | nil =>
    cases l with
    | nil =>
      obtain ⟨rfl, rfl⟩ := List.cons.inj heq
      exact ⟨rfl, rfl, rfl⟩
    | cons x l =>
      obtain ⟨rfl, rfl⟩ := List.cons.inj heq
      exact absurd haddr ((List.pairwise_cons.mp hne).1 c (by simp))
  | cons y l₁ ih =>
    rw [List.cons_append] at hne heq
    cases l with
    | nil =>
      obtain ⟨rfl, rfl⟩ := List.cons.inj heq
      exact absurd haddr.symm ((List.pairwise_cons.mp hne).1 b (by simp))
    | cons x l =>
      obtain ⟨rfl, htail⟩ := List.cons.inj heq
      obtain ⟨rfl, hbc, hrest⟩ := ih (List.pairwise_cons.mp hne).2 htail
      exact ⟨rfl, hbc, hrest⟩

theorem Region.addrs_ne (hR : Region m lo hi l) : l.Pairwise fun x y => x.addr ≠ y.addr :=
  hR.apart.imp fun {x y} hxy heq => by
    unfold Block.fin heapBlockSize at hxy
    omega

theorem spaced_absorb (hb : b.used = false) (h : Spaced l) : ∃ b' l', b.absorb l = b' :: l' ∧ b'.addr = b.addr ∧
    b'.used = false ∧ Spaced l' ∧ (∀ d ∈ l'.head?, d.used = true) ∧ l' <:+ l := by
  cases l with
  | nil => exact ⟨b, [], rfl, rfl, hb, .nil, by simp, List.suffix_refl _⟩
  | cons c l =>
    cases hc : c.used with
    | true => exact ⟨b, c :: l, by rw [Block.absorb, hc]; rfl, rfl, hb, h, by simpa using hc, List.suffix_refl _⟩
    | false =>
      have h' : Spaced ([] ++ c :: l) := h
      obtain ⟨-, h₂, -, hhead⟩ := spaced_around h' hc
      exact ⟨b.join c, l, by rw [Block.absorb, hc]; rfl, rfl, hb, h₂, hhead, List.suffix_cons c l⟩

/-- The back link of a block leads to the block before it, or nowhere when that one is used. -/
def ExactLink (m : Mem) (l₁ : List Block) (b : Block) : Prop :=
  (∃ k p, l₁ = k ++ [p] ∧ p.addr = prevAt m b.addr) ∨
    ((prevAt m b.addr = 0 ∨ load32 m (prevAt m b.addr + offFlags) &&& heapFlgUsed ≠ 0) ∧ ∀ p ∈ l₁.getLast?, p.used = true)

theorem ExactLink.good (h : ExactLink m l₁ b) : BackLinkGood m l₁ b := by
  rcases h with ⟨k, p, rfl, hp⟩ | ⟨hstay, -⟩
  · exact .inr (.inr ⟨k, p, [], rfl, hp, by simp⟩)
  · exact hstay.imp_right .inl

theorem Region.header {p : Block} (hR : Region m lo hi l) (hp : p ∈ l) :
    load32 m (p.addr + offFlags) = p.flags ∧ p.addr ≠ 0 := by
  have hpos := hR.pos
  have hlo := (hR.within p hp).1
  obtain ⟨k, k', rfl⟩ := List.append_of_mem hp
  exact ⟨hR.linked.at_of_append.flags, by omega⟩

theorem spaced_freed (hR : Region m lo hi (l₁ ++ b :: l₂)) (h : Spaced (l₁ ++ b :: l₂)) (hlink : ExactLink m l₁ b)
    (hback : SteppedBack m b.addr (l₁ ++ b.freed.absorb l₂) l) : Spaced l := by
  obtain ⟨h₁, h₂⟩ := spaced_parts h
  obtain ⟨b', l', habsorb, haddr, hfree, hl', hhead, hsuffix⟩ := spaced_absorb (b := b.freed) rfl h₂
  rw [habsorb] at hback
  obtain ⟨-, hbehind, hlo, -⟩ := hR.around
  have hpos := hR.pos
  cases hback with
  | stay hstay =>
    refine spaced_insert h₁ hl' (.inr ⟨fun d hd => ?_, hhead⟩)
    rcases hlink with ⟨k, p, rfl, hp⟩ | ⟨-, hlast⟩
    · obtain rfl : p = d := by simpa using hd
      obtain ⟨hflags, hne⟩ := hR.header (p := p) (by simp)
      rw [← hp, hflags] at hstay
      exact (flags_used p).mp (hstay.resolve_left hne)
    · exact hlast d hd
  | join k₁ p c k₂ hcut hp hpfree hcfree =>
    -- the back link leads to a block before, so to one of `l₁`
    have hp₁ : p ∈ l₁ := by
      have hmem : p ∈ l₁ ++ b' :: l' := by simp [hcut]
      have hbelow := hR.prevs b (by simp)
      unfold PrevBelow at hbelow
      rw [← hp] at hbelow
      rcases List.mem_append.mp hmem with hmem | hmem
      · exact hmem
      · rcases List.mem_cons.mp hmem with rfl | hmem
        · rw [freed_addr] at haddr
          omega
        · have hafter := hbehind p (hsuffix.mem hmem)
          unfold Block.fin heapBlockSize at hafter
          omega
    obtain ⟨hflags, hne⟩ := hR.header (p := p) (by simp [hp₁])
    rcases hlink with ⟨k, p', rfl, hp'⟩ | ⟨hstay, -⟩
    · have hdistinct : (k ++ p' :: b' :: l').Pairwise fun x y => x.addr ≠ y.addr := by
        have hall := hR.addrs_ne
        simp only [List.append_assoc, List.singleton_append, List.pairwise_append, List.pairwise_cons,
          List.forall_mem_cons] at hall ⊢
        rw [haddr, freed_addr]
        obtain ⟨hk, ⟨⟨hpb, hpl⟩, hbl, hl⟩, hkall⟩ := hall
        exact ⟨hk, ⟨⟨hpb, fun x hx => hpl x (hsuffix.mem hx)⟩, fun x hx => hbl x (hsuffix.mem hx), hl.sublist hsuffix.sublist⟩,
          fun x hx => ⟨(hkall x hx).1, (hkall x hx).2.1, fun y hy => (hkall x hx).2.2 y (hsuffix.mem hy)⟩⟩
      have hcut' : k ++ p' :: b' :: l' = k₁ ++ p :: c :: k₂ := by simpa using hcut
      obtain ⟨rfl, rfl, hrest⟩ := cut_unique hdistinct hcut' (hp'.trans hp.symm)
      obtain ⟨rfl, rfl⟩ := List.cons.inj hrest
      have hbefore : Spaced (k ++ p' :: []) := h₁
      obtain ⟨hk, -, hlast, -⟩ := spaced_around hbefore hpfree
      exact spaced_insert hk hl' (.inr ⟨hlast, hhead⟩)
    · rw [← hp, hflags] at hstay
      have hused := (flags_used p).mp (hstay.resolve_left hne)
      rw [hpfree] at hused
      cases hused

end Blocks

/-- The walk of an allocation from the header at the first address ends at the second: this block is large enough and
free, and none before it is. -/
inductive Finds (m : Mem) (count : Nat) : Nat → Nat → Prop
  | here {a : Nat} : a ≠ 0 → load32 m (a + offFlags) &&& heapFlgUsed = 0 → count ≤ load32 m (a + offSize) →
    Finds m count a a
  | next {a c : Nat} : a ≠ 0 → ¬(load32 m (a + offFlags) &&& heapFlgUsed = 0 ∧ count ≤ load32 m (a + offSize)) →
    Finds m count (load32 m (a + offNext)) c → Finds m count a c

/-- No bytes are lost: the block that an allocation takes has just the size asked for, or room for another header; the
back link of a block about to be freed leads to the block before it, or nowhere when that one is used. -/
def Lossless (s : HeapState) : HeapOp → Prop
  | .alloc count => ∀ i < heapMax, ∀ b, Finds s.heap.mem count (s.heap.regions i) b →
      (∀ j < i, ∀ c, ¬Finds s.heap.mem count (s.heap.regions j) c) →
      load32 s.heap.mem (b + offSize) = count ∨ count + heapBlockSize ≤ load32 s.heap.mem (b + offSize)
  | .free block =>
    let it := sub32 block.1 heapBlockSize
    let pr := load32 s.heap.mem (it + offPrev)
    (InChain s.heap pr ∧ load32 s.heap.mem (pr + offNext) = it) ∨
      ((pr = 0 ∨ load32 s.heap.mem (pr + offFlags) &&& heapFlgUsed ≠ 0) ∧
        ∀ a, InChain s.heap a → load32 s.heap.mem (a + offNext) = it → load32 s.heap.mem (a + offFlags) &&& heapFlgUsed ≠ 0)
  | .store _ _ => True

def regionLength (r : Nat × Nat) : Nat := r.2 - (r.1 + 7) / 8 * 8

/-- The blocks of each region account for its length, so does the sum of `heap_stat`, and without live allocations a
region is one free block. -/
structure HeapConserved (given : List (Nat × Nat)) (s : HeapState) : Prop where
  chains : ∀ i, ∀ r ∈ given[i]?, ∃ l : List Block, first Block.addr l 0 = s.heap.regions i ∧
    Linked Block.addr (HeaderAt s.heap.mem) l 0 ∧ extent l = regionLength r ∧ (s.live = [] → l = (freshArena r).blocks)
  stat : wp heapStat noFault (fun st h => h = s.heap ∧ st.total = u32 (given.map regionLength).sum) s.heap

/-- The live allocations are the used blocks, and the blocks fill their regions with the free ones apart. -/
def HeapWhole (given : List (Nat × Nat)) (s : HeapState) : Prop :=
  ∃ rs, Arenas s.heap rs ∧ bounds rs = bounds (given.map freshArena) ∧ s.live.Perm (allPayloads rs) ∧
    ∀ r ∈ rs, extent r.blocks = r.hi - r.lo ∧ Spaced r.blocks

section Walks

variable {m : Mem} {lo hi count a c : Nat} {l : List Block}

theorem finds_iff (hlinked : Linked Block.addr (HeaderAt m) l 0) (hne : ∀ b ∈ l, b.addr ≠ 0)
    (ha : first Block.addr l 0 = a) : Finds m count a c ↔
      ∃ l₁ b l₂, l = l₁ ++ b :: l₂ ∧ (∀ d ∈ l₁, ¬d.Fits count) ∧ b.Fits count ∧ b.addr = c := by
  induction l generalizing a with
  | nil =>
    obtain rfl : 0 = a := ha
    refine ⟨fun h => ?_, fun ⟨l₁, b, l₂, h, _⟩ => by simp at h⟩
    cases h with
    | here h => exact absurd rfl h
    | next h => exact absurd rfl h
  | cons b l ih =>
    obtain rfl : b.addr = a := ha
    obtain ⟨⟨hflags, hsize, hnext⟩, hrest⟩ := hlinked
    have hrec := ih hrest (fun d hd => hne d (by simp [hd])) hnext.symm
    have hfits : load32 m (b.addr + offFlags) &&& heapFlgUsed = 0 ∧ count ≤ load32 m (b.addr + offSize) ↔ b.Fits count := by
      rw [hflags, hsize, flags_free]
      rfl
    constructor
    · rintro (⟨-, hfree, hle⟩ | ⟨-, hno, hnext⟩)
      · exact ⟨[], b, l, rfl, by simp, hfits.mp ⟨hfree, hle⟩, rfl⟩
      · obtain ⟨l₁, d, l₂, rfl, hl₁, hd, hc⟩ := hrec.mp hnext
        exact ⟨b :: l₁, d, l₂, rfl, List.forall_mem_cons.mpr ⟨fun hb => hno (hfits.mpr hb), hl₁⟩, hd, hc⟩
    · rintro ⟨l₁, d, l₂, heq, hl₁, hd, rfl⟩
      cases l₁ with
      | nil =>
        obtain ⟨rfl, rfl⟩ := List.cons.inj heq
        obtain ⟨hfree, hle⟩ := hfits.mpr hd
        exact .here (hne b (by simp)) hfree hle
      | cons x l₁ =>
        obtain ⟨rfl, rfl⟩ := List.cons.inj heq
        obtain ⟨hb, hl₁⟩ := List.forall_mem_cons.mp hl₁
        exact .next (hne b (by simp)) (fun hok => hb (hfits.mp hok)) (hrec.mpr ⟨l₁, d, l₂, rfl, hl₁, hd, rfl⟩)

theorem Region.finds_iff (hR : Region m lo hi l) : Finds m count lo c ↔
    ∃ l₁ b l₂, l = l₁ ++ b :: l₂ ∧ (∀ d ∈ l₁, ¬d.Fits count) ∧ b.Fits count ∧ b.addr = c :=
  Heap.finds_iff hR.linked (fun _ hb => (hR.header hb).2) hR.start

end Walks

section Steps

variable {s : HeapState} {rs rs₁ rs₂ : List Arena} {r : Arena} {l₁ l₂ : List Block} {b : Block} {count : Nat}

theorem Arenas.start_of_mem {h : HeapMem} (hA : Arenas h rs) {j : Nat} (hj : j < rs.length) : h.regions j = rs[j].lo := by
  have hsplit : rs = rs.take j ++ rs[j] :: rs.drop (j + 1) := by simp
  rw [hsplit] at hA
  have hstart := hA.start_at.2
  rwa [List.length_take_of_le hj.le] at hstart

theorem exact_of_lossless (hA : Arenas s.heap (rs₁ ++ r :: rs₂)) (hl : r.blocks = l₁ ++ b :: l₂)
    (hno : ∀ q ∈ rs₁, ∀ d ∈ q.blocks, ¬d.Fits count) (hno' : ∀ d ∈ l₁, ¬d.Fits count) (hfits : b.Fits count)
    (h : Lossless s (.alloc count)) : b.size = count ∨ count + 16 ≤ b.size := by
  have hR := hA.region r (by simp)
  obtain ⟨hlt, hstart⟩ := hA.start_at
  have hfinds : Finds s.heap.mem count (s.heap.regions rs₁.length) b.addr := by
    rw [hstart]
    exact hR.finds_iff.mpr ⟨l₁, b, l₂, hl, hno', hfits, rfl⟩
  have hexact := h _ hlt b.addr hfinds fun j hj c hc => by
    have hj' : j < (rs₁ ++ r :: rs₂).length := by
      rw [List.length_append]
      omega
    rw [hA.start_of_mem hj', List.getElem_append_left hj] at hc
    have hq := hA.region rs₁[j] (by simp)
    obtain ⟨k₁, d, k₂, heq, -, hd, -⟩ := hq.finds_iff.mp hc
    exact hno rs₁[j] (List.getElem_mem hj) d (by simp [heq]) hd
  rw [hl] at hR
  rwa [hR.linked.at_of_append.size] at hexact

theorem exactLink_of_lossless (hA : Arenas s.heap (rs₁ ++ r :: rs₂)) (hl : r.blocks = l₁ ++ b :: l₂)
    (h : Lossless s (.free (b.addr + 16, b.size))) : ExactLink s.heap.mem l₁ b := by
  have hR := hA.region r (by simp)
  have hdistinct := hR.addrs_ne
  have hbw := hR.within b (by simp [hl])
  have htop := hR.top
  have hpos := hR.pos
  unfold Block.fin heapBlockSize at hbw
  have hit : sub32 (b.addr + 16) heapBlockSize = b.addr := by
    rw [sub32_of_le (by omega) (by unfold heapBlockSize; omega)]
    rfl
  simp only [Lossless, hit] at h
  rcases h with ⟨hchain, hnext⟩ | ⟨hstay, hall⟩
  · obtain ⟨q, hq, p, hp, hpaddr⟩ := hA.inChain_iff.mp hchain
    change p.addr = prevAt s.heap.mem b.addr at hpaddr
    obtain ⟨j₁, j₂, hj⟩ := List.append_of_mem hp
    have hQ := hA.region q hq
    have hnext' : load32 s.heap.mem (p.addr + offNext) = b.addr :=
      (congrArg (fun a => load32 s.heap.mem (a + offNext)) hpaddr).trans hnext
    have hQ' := hQ
    rw [hj] at hQ'
    rw [hQ'.linked.at_of_append.next] at hnext'
    cases j₂ with
    | nil =>
      rw [first_nil] at hnext'
      omega
    | cons d j₃ =>
      have hd : d ∈ q.blocks := by simp [hj]
      obtain rfl : q = r := by
        by_contra hne
        have hapart := hA.disjoint hq (by simp) hne
        have hdw := hQ.within d hd
        unfold Block.fin heapBlockSize at hdw
        rw [first_cons] at hnext'
        omega
      rw [hj] at hdistinct
      have hsame : (j₁ ++ [p]) ++ d :: j₃ = l₁ ++ b :: l₂ := by rw [← hl, hj]; simp
      obtain ⟨rfl, -, -⟩ := cut_unique (by simpa using hdistinct) hsame hnext'
      exact .inl ⟨j₁, p, rfl, hpaddr⟩
  · refine .inr ⟨hstay, fun p hp => ?_⟩
    obtain ⟨k, rfl⟩ : ∃ k, l₁ = k ++ [p] := List.getLast?_eq_some_iff.mp hp
    have hp' : p ∈ r.blocks := by simp [hl]
    have hR' := hR
    rw [hl, List.append_assoc, List.singleton_append] at hR'
    have hused := hall p.addr (hA.inChain_iff.mpr ⟨r, by simp, p, hp', rfl⟩) hR'.linked.at_of_append.next
    rw [hR'.linked.at_of_append.flags] at hused
    exact (flags_used p).mp hused

theorem whole_update {P : Arena → Prop} {l : List Block} (h : ∀ q ∈ rs₁ ++ r :: rs₂, P q) (hl : P ⟨r.lo, r.hi, l⟩) :
    ∀ q ∈ rs₁ ++ ⟨r.lo, r.hi, l⟩ :: rs₂, P q := by
  intro q hq
  rcases List.mem_append.mp hq with hq | hq
  · exact h q (by simp [hq])
  · rcases List.mem_cons.mp hq with rfl | hq
    · exact hl
    · exact h q (by simp [hq])

theorem whole_heapStep {given : List (Nat × Nat)} (s : HeapState) (op : HeapOp) (t : HeapState)
    (h : HeapWhole given s) (hstep : heapStep s op = some t) (hc : Lossless s op) : HeapWhole given t := by
  obtain ⟨rs, hA, hbounds, hlive, hwhole⟩ := h
  cases op with
  | alloc count =>
    obtain ⟨p, u, hrun, hres⟩ := run_of_wp (wp_heapAlloc_first count hA)
    simp only [heapStep, hrun] at hstep
    split at hstep
    case isFalse => cases hstep
    case isTrue =>
      rcases hres with ⟨rfl, rfl⟩ | ⟨hp, hfirst⟩
      · obtain rfl := Option.some.inj hstep
        exact ⟨rs, hA, hbounds, hlive, hwhole⟩
      · rw [if_neg hp] at hstep
        obtain rfl := Option.some.inj hstep
        obtain ⟨rs₁, r, rs₂, l₁, b, l₂, rfl, hl, hno, hno', hfits, rfl, hA'⟩ := hfirst
        have hexact := exact_of_lossless hA hl hno hno' hfits hc
        obtain ⟨hroom, hspaced⟩ := hwhole r (by simp)
        rw [hl] at hroom hspaced
        have hpay : (allPayloads (rs₁ ++ ⟨r.lo, r.hi, l₁ ++ (b.carve count ++ l₂)⟩ :: rs₂)).Perm
            ((b.addr + 16, count) :: allPayloads (rs₁ ++ r :: rs₂)) := by
          simp only [allPayloads, List.flatMap_append, List.flatMap_cons, hl, payloads_append, payloads_carve,
            payloads_free hfits.1]
          exact ((List.perm_middle.append_right _).append_left _).trans List.perm_middle
        refine ⟨_, hA', by rw [← hbounds]; simp [bounds], (hlive.cons _).trans hpay.symm,
          whole_update hwhole ⟨?_, spaced_carve hspaced hfits.1⟩⟩
        rw [← hroom]
        simp only [extent_append, extent_cons, extent_carve hexact]
  | free block =>
    simp only [heapStep] at hstep
    split at hstep
    case isFalse => cases hstep
    case isTrue hmem =>
      obtain ⟨rs₁, r, rs₂, l₁, b, l₂, rfl, hl, hb, rfl⟩ := mem_allPayloads (hlive.mem_iff.mp hmem)
      have hlink := exactLink_of_lossless hA hl hc
      obtain ⟨_, u, hrun, l, hback, hA'⟩ := run_of_wp (wp_free_blocks hA hl hb hlink.good)
      simp only [hrun] at hstep
      obtain rfl := Option.some.inj hstep
      obtain ⟨hroom, hspaced⟩ := hwhole r (by simp)
      have hR := hA.region r (by simp)
      rw [hl] at hroom hspaced hR
      have hpay : payloads l = payloads l₁ ++ payloads l₂ := by
        rw [hback.payloads_eq, payloads_append, payloads_absorb rfl]
      have hlive' : s.live.Perm ((b.addr + 16, b.size) :: allPayloads (rs₁ ++ ⟨r.lo, r.hi, l⟩ :: rs₂)) := by
        refine hlive.trans ?_
        simp only [allPayloads, List.flatMap_append, List.flatMap_cons, hl, hpay, payloads_append, payloads_used hb]
        exact ((List.perm_middle.append_right _).append_left _).trans List.perm_middle
      refine ⟨_, hA', by rw [← hbounds]; simp [bounds], by simpa using hlive'.erase (b.addr + 16, b.size),
        whole_update hwhole ⟨?_, spaced_freed hR hspaced hlink hback⟩⟩
      rw [← hroom, hback.extent_eq, extent_append, extent_append, extent_absorb]
      rfl
  | store a v =>
    simp only [heapStep] at hstep
    split at hstep
    case isFalse => cases hstep
    case isTrue ha =>
      obtain rfl := Option.some.inj hstep
      exact ⟨rs, hA.store hlive ha v, hbounds, hlive, hwhole⟩

end Steps

theorem wp_heapBoot_whole {given : List (Nat × Nat)} (hok : RegionsOk given) (h₀ : HeapMem) :
    wp (heapBoot given) noFault (fun _ h => HeapWhole given ⟨h, []⟩) h₀ := by
  refine wp_imp (wp_heapBoot_fresh hok h₀) fun _ h hA => ⟨_, hA, rfl, by rw [allPayloads_fresh], fun q hq => ?_⟩
  obtain ⟨r, hr, rfl⟩ := List.mem_map.mp hq
  have hroom := (hok.room r hr).2.1
  refine ⟨?_, .singleton _⟩
  simp only [freshArena, extent_cons, show extent [] = 0 from rfl]
  omega

section Counting

variable {h : HeapMem} {rs rs₁ rs₂ : List Arena} {l : List Block} {b : Block}

def HeapStat.sum (st : HeapStat) : Nat := st.used + st.free + st.blocks * heapBlockSize

theorem flags_included (b : Block) : b.flags &&& heapFlgExclude = 0 := by
  cases h : b.used <;> simp [Block.flags, h, heapMagic, heapFlgUsed, heapFlgExclude]

theorem wp_countBlock {n : Nat} (hb : HeaderAt h.mem b n) (st : HeapStat) :
    wp (countBlock b.addr st) noFault
      (fun st' t => t = h ∧ u32 (st'.used + st'.free) = u32 (st.used + st.free + b.size) ∧ st'.blocks = st.blocks) h := by
  simp only [countBlock, wp_bind, wp_field, hb.flags]
  by_cases hu : b.flags &&& heapFlgUsed = 0
  · rw [if_neg (not_not_intro hu), wp_bind, wp_field, hb.size]
    refine ⟨rfl, ?_, rfl⟩
    unfold u32
    dsimp only
    omega
  · rw [if_pos hu, wp_bind, wp_field, hb.flags, flags_included, if_pos rfl, wp_bind, wp_field, hb.size]
    refine ⟨rfl, ?_, rfl⟩
    unfold u32
    dsimp only
    omega

theorem wp_statChain (fuel : Nat) (hlinked : Linked Block.addr (HeaderAt h.mem) l 0) (hne : ∀ b ∈ l, b.addr ≠ 0)
    (hfuel : l.length < fuel) (st : HeapStat) :
    wp (statChain fuel (first Block.addr l 0) st) noFault
      (fun st' t => t = h ∧ u32 st'.sum = u32 (st.sum + extent l)) h := by
  induction l generalizing fuel st with
  | nil =>
    cases fuel with
    | zero => simp at hfuel
    | succ fuel =>
      rw [statChain, first_nil, if_pos rfl]
      exact ⟨rfl, rfl⟩
  | cons b l ih =>
    cases fuel with
    | zero => simp at hfuel
    | succ fuel =>
      obtain ⟨hb, hrest⟩ := hlinked
      obtain ⟨hb0, hne⟩ := List.forall_mem_cons.mp hne
      rw [statChain, first_cons, if_neg hb0, wp_bind]
      refine wp_imp (wp_countBlock hb st) ?_
      rintro st₁ t ⟨rfl, hsum, hblocks⟩
      rw [wp_bind, wp_field, hb.next]
      refine wp_imp (ih fuel hrest hne (by simpa using hfuel) _) ?_
      rintro st₂ u ⟨rfl, hrec⟩
      refine ⟨rfl, hrec.trans ?_⟩
      rw [extent_cons]
      simp only [HeapStat.sum, heapBlockSize, hblocks]
      unfold u32 at hsum ⊢
      omega

theorem wp_statRegions {k n : Nat} (hA : Arenas h (rs₁ ++ rs₂)) (hk : k = rs₁.length) (hn : k + n = heapMax)
    (st : HeapStat) :
    wp (statRegions (List.range' k n) st) noFault
      (fun st' t => t = h ∧ u32 st'.sum = u32 (st.sum + (rs₂.map fun r => extent r.blocks).sum)) h := by
  induction n generalizing k rs₁ rs₂ st with
  | zero =>
    have hcount := hA.count
    rw [List.length_append] at hcount
    obtain rfl : rs₂ = [] := List.length_eq_zero_iff.mp (by omega)
    exact ⟨rfl, rfl⟩
  | succ n ih =>
    rw [List.range'_succ, statRegions, wp_bind, wp_get]
    subst hk
    cases rs₂ with
    | nil =>
      rw [if_pos (hA.start_none (by omega) (by simp)), wp_pure]
      exact ⟨rfl, rfl⟩
    | cons r rs₂ =>
      have hR := hA.region r (by simp)
      have hpos := hR.pos
      have hlen := hR.length_le
      have htop := hR.top
      rw [hA.start_at.2, if_neg (by omega), wp_bind, ← hR.start]
      refine wp_imp (wp_statChain chainFuel hR.linked (fun b hb => (hR.header hb).2) (by unfold chainFuel; omega) _) ?_
      rintro st₁ t ⟨rfl, hsum⟩
      have hA' : Arenas t ((rs₁ ++ [r]) ++ rs₂) := by simpa using hA
      refine wp_imp (ih hA' (by simp) (by omega) st₁) ?_
      rintro st₂ u ⟨rfl, hrest⟩
      refine ⟨rfl, hrest.trans ?_⟩
      rw [List.map_cons, List.sum_cons]
      simp only [HeapStat.sum] at hsum ⊢
      unfold u32 at hsum ⊢
      omega

theorem wp_heapStat (hA : Arenas h rs) :
    wp heapStat noFault (fun st t => t = h ∧ st.total = u32 (rs.map fun r => extent r.blocks).sum) h := by
  have hA' : Arenas h ([] ++ rs) := hA
  rw [heapStat, wp_bind, List.range_eq_range']
  refine wp_imp (wp_statRegions hA' rfl (Nat.zero_add heapMax) _) ?_
  rintro st t ⟨rfl, hsum⟩
  refine ⟨rfl, Eq.trans ?_ (hsum.trans ?_)⟩
  · simp only [HeapStat.sum]
    unfold u32
    omega
  · simp only [HeapStat.sum, Nat.zero_add, Nat.zero_mul]

end Counting

theorem single_of_spaced {l : List Block} (hspaced : Spaced l) (hfree : ∀ b ∈ l, b.used = false) (hne : l ≠ []) :
    ∃ b, l = [b] := by
  cases l with
  | nil => exact absurd rfl hne
  | cons b l =>
    cases l with
    | nil => exact ⟨b, rfl⟩
    | cons c l => exact absurd ⟨hfree b (by simp), hfree c (by simp)⟩ (List.isChain_cons_cons.mp hspaced).1

theorem conserved_of_whole {given : List (Nat × Nat)} {s : HeapState} (h : HeapWhole given s) :
    HeapConserved given s := by
  obtain ⟨rs, hA, hbounds, hlive, hwhole⟩ := h
  refine ⟨fun i r hr => ?_, ?_⟩
  · have hi := congrArg (fun k : List (Nat × Nat) => k[i]?) hbounds
    simp only [bounds, List.getElem?_map, Option.mem_def.mp hr, Option.map_some] at hi
    obtain ⟨q, hq, hlohi⟩ := Option.map_eq_some_iff.mp hi
    obtain ⟨hlt, rfl⟩ := List.getElem?_eq_some_iff.mp hq
    have hmem := List.getElem_mem hlt
    have hR := hA.region _ hmem
    obtain ⟨hroom, hspaced⟩ := hwhole _ hmem
    obtain ⟨hlo, hhi⟩ := Prod.mk.inj hlohi
    have hlen : extent rs[i].blocks = regionLength r := by
      rw [hroom, hlo, hhi]
      rfl
    refine ⟨rs[i].blocks, hR.start.trans (hA.start_of_mem hlt).symm, hR.linked, hlen, fun hnone => ?_⟩
    have hpay : allPayloads rs = [] := (hnone ▸ hlive).symm.eq_nil
    have hfree : ∀ b ∈ rs[i].blocks, b.used = false := fun b hb => by
      by_contra hused
      have hin : (b.addr + 16, b.size) ∈ payloads rs[i].blocks :=
        mem_payloads.mpr ⟨b, hb, by simpa using hused, rfl, rfl⟩
      rw [List.flatMap_eq_nil_iff.mp hpay _ hmem] at hin
      cases hin
    have hstart := hR.start
    have hpos := hR.pos
    obtain ⟨b, hb⟩ := single_of_spaced hspaced hfree fun hnil => by
      rw [hnil, first_nil] at hstart
      omega
    rw [hb] at hstart hlen hfree ⊢
    have hused := hfree b (by simp)
    rw [hlo] at hstart
    simp only [extent_cons, show extent [] = 0 from rfl] at hlen
    obtain ⟨addr, size, used⟩ := b
    simp only [first_cons, freshArena] at hstart hused hlen ⊢
    unfold regionLength at hlen
    rw [hstart, hused, show r.2 - (r.1 + 7) / 8 * 8 - 16 = size by omega]
  · refine wp_imp (wp_heapStat hA) ?_
    rintro st t ⟨rfl, htotal⟩
    refine ⟨rfl, htotal.trans (congrArg (fun k : List Nat => u32 k.sum) ?_)⟩
    calc rs.map (fun r => extent r.blocks) = rs.map (fun r => r.hi - r.lo) :=
          List.map_congr_left fun r hr => (hwhole r hr).1
      _ = (bounds rs).map (fun p => p.2 - p.1) := by
          rw [bounds, List.map_map]
          rfl
      _ = (bounds (given.map freshArena)).map (fun p => p.2 - p.1) := by rw [hbounds]
      _ = given.map regionLength := by
          rw [bounds, List.map_map, List.map_map]
          rfl

/-- In every run after boot in which no step loses bytes, the heap keeps all of its memory in every state reached. -/
theorem heap_conserved_of_lossless {given : List (Nat × Nat)} (hok : RegionsOk given) (h₀ : HeapMem) :
    wp (heapBoot given) noFault (fun _ h => ∀ s, HeapRun Lossless ⟨h, []⟩ s → HeapConserved given s) h₀ :=
  wp_imp (wp_heapBoot_whole hok h₀) fun _ _ hinv _ hrun =>
    conserved_of_whole (hrun.invariant (HeapWhole given) (fun s op t => whole_heapStep s op t) hinv)

/-- A block is allocated and freed again. It is the first of its region, so no link leads to it. -/
theorem heap_conserved_one_region : ∃ h s t, heapBoot oneRegion zeroHeap = .ok ((), h) ∧ HeapRun Lossless ⟨h, []⟩ s ∧
    s.live = [(4120, 100)] ∧ heapStep s (.free (4120, 100)) = some t ∧ HeapRun Lossless ⟨h, []⟩ t ∧ HeapConserved oneRegion t := by
  obtain ⟨_, h, hboot, hkept⟩ := run_of_wp (heap_conserved_of_lossless oneRegion_ok zeroHeap)
  have htest : ((heapBoot oneRegion zeroHeap).toOption.any fun r =>
      decide (r.2.regions 0 = 4104 ∧ (∀ i < heapMax, 0 < i → r.2.regions i = 0) ∧
        100 + heapBlockSize ≤ load32 r.2.mem (4104 + offSize) ∧ load32 r.2.mem (4104 + offFlags) &&& heapFlgUsed = 0) &&
      (heapStep ⟨r.2, []⟩ (.alloc 100)).any fun s => decide (s.live = [(4120, 100)] ∧ s.heap.regions 0 = 4104 ∧
        (∀ i < heapMax, 0 < i → s.heap.regions i = 0) ∧ load32 s.heap.mem (sub32 4120 heapBlockSize + offPrev) = 0 ∧
        load32 s.heap.mem (4104 + offNext) = 4220 ∧ load32 s.heap.mem (4220 + offNext) = 0) &&
        (heapStep s (.free (4120, 100))).isSome) = true := by decide +kernel
  rw [hboot] at htest
  simp only [Except.toOption, Option.any_some, Option.any_eq_true, Bool.and_eq_true, decide_eq_true_eq] at htest
  obtain ⟨⟨hstart, hnone, hsize, hfree⟩, s, hs, ⟨hlive, hstart', hnone', hprev, hnext, hlast⟩, hfreed⟩ := htest
  obtain ⟨t, ht⟩ := Option.isSome_iff_exists.mp hfreed
  have halloc : Lossless ⟨h, []⟩ (.alloc 100) := by
    intro i hi b hb _
    rcases Nat.eq_zero_or_pos i with rfl | hpos
    · rw [hstart] at hb
      cases hb with
      | here => exact .inr hsize
      | next _ hno => exact absurd ⟨hfree, le_trans (Nat.le_add_right _ _) hsize⟩ hno
    · rw [hnone i hi hpos] at hb
      cases hb with
      | here hne => exact absurd rfl hne
      | next hne => exact absurd rfl hne
  have hchain : ∀ a, InChain s.heap a → a = 4104 ∨ a = 4220 := by
    rintro a ⟨i, hi, hreach⟩
    rcases Nat.eq_zero_or_pos i with rfl | hpos
    · rw [hstart'] at hreach
      cases hreach with
      | here => exact .inl rfl
      | next _ hreach =>
        rw [hnext] at hreach
        cases hreach with
        | here => exact .inr rfl
        | next _ hreach =>
          rw [hlast] at hreach
          exact absurd rfl hreach.ne_zero
    · rw [hnone' i hi hpos] at hreach
      exact absurd rfl hreach.ne_zero
  have hfree : Lossless s (.free (4120, 100)) := by
    refine .inr ⟨.inl hprev, fun a ha hlink => ?_⟩
    rcases hchain a ha with rfl | rfl
    · rw [hnext] at hlink
      exact absurd hlink (by decide +kernel)
    · rw [hlast] at hlink
      exact absurd hlink (by decide +kernel)
  have hrun : HeapRun Lossless ⟨h, []⟩ s := (Run.refl _).tail hs halloc
  exact ⟨h, s, t, hboot, hrun, hlive, ht, hrun.tail ht hfree, hkept t (hrun.tail ht hfree)⟩

/-- The only free block has 4072 bytes, seven of which are lost to an allocation of 4065. -/
theorem heap_alloc_loses_bytes :
    ¬wp (heapBoot oneRegion) noFault
      (fun _ h => ∀ s, HeapRun (fun _ _ => True) ⟨h, []⟩ s → HeapConserved oneRegion s) zeroHeap := by
  intro hall
  obtain ⟨_, h, hboot, hkept⟩ := run_of_wp hall
  have htest : ((heapBoot oneRegion zeroHeap).toOption.any fun r => (runOps ⟨r.2, []⟩ [.alloc 4065]).any fun s =>
      (heapStat s.heap).toOption.any fun st => decide (st.1.total = 4081)) = true := by decide +kernel
  rw [hboot] at htest
  simp only [Option.any_eq_true] at htest
  obtain ⟨_, heq, s, hs, htotal⟩ := htest
  obtain rfl := Option.some.inj heq
  obtain ⟨st, u, hrun, -, hsum⟩ := run_of_wp (hkept s (heapRun_of_runOps (fun _ _ _ => trivial) (.refl _) hs)).stat
  rw [hrun] at htotal
  obtain ⟨_, heq, hlost⟩ := htotal
  obtain rfl := Option.some.inj heq
  replace hlost : st.total = 4081 := of_decide_eq_true hlost
  rw [hsum] at hlost
  exact absurd hlost (by decide +kernel)

end YggKernel.Heap
