import YggKernel.Heap.Cells

namespace YggKernel.Heap

open Lib.Program Lib.ByteMemory Lib.Chains

/-- What the header of a block says about it, its links apart. -/
structure Block where
  addr : Nat
  size : Nat
  used : Bool

def Block.flags (b : Block) : Nat := if b.used then heapMagic ||| heapFlgUsed else heapMagic

def Block.fin (b : Block) : Nat := b.addr + heapBlockSize + b.size

structure HeaderAt (m : Mem) (b : Block) (next : Nat) : Prop where
  flags : load32 m (b.addr + offFlags) = b.flags
  size : load32 m (b.addr + offSize) = b.size
  next : load32 m (b.addr + offNext) = next

theorem flags_used (b : Block) : b.flags &&& heapFlgUsed ≠ 0 ↔ b.used = true := by
  cases h : b.used <;> simp [Block.flags, h, heapMagic, heapFlgUsed]

theorem flags_free (b : Block) : b.flags &&& heapFlgUsed = 0 ↔ b.used = false := by
  cases h : b.used <;> simp [Block.flags, h, heapMagic, heapFlgUsed]

theorem flags_magic (b : Block) : b.flags &&& heapMagic = heapMagic := by
  cases h : b.used <;> simp [Block.flags, h, heapMagic, heapFlgUsed]

theorem flags_lt (b : Block) : b.flags < 4294967296 := by
  cases h : b.used <;> simp [Block.flags, h, heapMagic, heapFlgUsed]

def Block.join (b c : Block) : Block := ⟨b.addr, b.size + (c.size + heapBlockSize), b.used⟩

@[simp] theorem join_addr (b c : Block) : (b.join c).addr = b.addr := rfl

@[simp] theorem join_size (b c : Block) : (b.join c).size = b.size + (c.size + 16) := rfl

@[simp] theorem join_flags (b c : Block) : (b.join c).flags = b.flags := rfl

structure Joined (m m' : Mem) (b c : Block) (nx : Nat) : Prop where
  header : HeaderAt m' (b.join c) nx
  prev : nx ≠ 0 → prevAt m' nx = b.addr
  rest : ∀ x, x < b.addr + 4 ∨ b.addr + 8 ≤ x → x < b.addr + 12 ∨ b.addr + 16 ≤ x →
    x < c.addr ∨ c.addr + 4 ≤ x → (nx ≠ 0 → x < nx + 8 ∨ nx + 12 ≤ x) → m' x = m x

structure Joinable (m : Mem) (b c : Block) (nx : Nat) : Prop where
  left : HeaderAt m b c.addr
  right : HeaderAt m c nx
  free : c.used = false
  apart : b.addr + 16 ≤ c.addr
  beyond : nx ≠ 0 → c.addr + 16 ≤ nx
  small : b.size + (c.size + 16) < 4294967296
  nx_lt : nx < 4294967296
  addr_lt : b.addr < 4294967296

def Block.cell (b : Block) : Cell := ⟨b.addr, b.size, b.flags⟩

theorem HeaderAt.head {m : Mem} {b : Block} {next : Nat} (h : HeaderAt m b next) : HeadAt m b.cell next :=
  ⟨h.flags, h.size, h.next⟩

theorem headerAt_of_head {m : Mem} {b : Block} {next : Nat} (h : HeadAt m b.cell next) : HeaderAt m b next :=
  ⟨h.flags, h.size, h.next⟩

theorem Joinable.mergeable {m : Mem} {b c : Block} {nx : Nat} (h : Joinable m b c nx) : Mergeable m b.cell c.cell nx :=
  ⟨h.left.head, h.right.head, (flags_free c).mpr h.free, h.apart, h.beyond, h.small⟩

theorem joined_of_merged {m m' : Mem} {b c : Block} {nx : Nat} (h : Merged m m' b.cell c.cell nx) :
    Joined m m' b c nx :=
  ⟨⟨h.header.flags, h.header.size, h.header.next⟩, h.prev, h.rest⟩

theorem wp_joinNext {h : HeapMem} {b c : Block} {nx : Nat} (hj : Joinable h.mem b c nx) :
    wp (joinNext b.addr) noFault
      (fun _ t => t.regions = h.regions ∧ Joined h.mem t.mem b c nx) h := by
  have hjoin := wp_joinNext_cells (E := noFault) hj.mergeable
  exact wp_imp hjoin fun _ _ ⟨hregs, hm⟩ => ⟨hregs, joined_of_merged hm⟩

theorem wp_joinPrev {h : HeapMem} {a : Nat} {b c : Block} {nx : Nat} (hj : Joinable h.mem b c nx)
    (hprev : prevAt h.mem a = b.addr) (h0 : b.addr ≠ 0) (hb : b.used = false) :
    wp (joinPrev a) noFault
      (fun _ t => t.regions = h.regions ∧ Joined h.mem t.mem b c nx) h := by
  have hjoin := wp_joinPrev_cells (E := noFault) hj.mergeable hprev h0 ((flags_free b).mpr hb)
  exact wp_imp hjoin fun _ _ ⟨hregs, hm⟩ => ⟨hregs, joined_of_merged hm⟩

/-- The back link of a header is unset or points to a place below it. -/
def PrevBelow (lo : Nat) (m : Mem) (a : Nat) : Prop :=
  prevAt m a = 0 ∨ (lo ≤ prevAt m a ∧ prevAt m a + 16 ≤ a)

/-- The memory of a region holds the blocks of a list, linked forward, in order of
their addresses and without overlap. -/
structure Region (m : Mem) (lo hi : Nat) (l : List Block) : Prop where
  pos : 0 < lo
  top : hi < 4294967296
  start : first Block.addr l 0 = lo
  linked : Linked Block.addr (HeaderAt m) l 0
  apart : l.Pairwise fun b c => b.fin ≤ c.addr
  within : ∀ b ∈ l, lo ≤ b.addr ∧ b.fin ≤ hi
  prevs : ∀ b ∈ l, PrevBelow lo m b.addr

variable {m m' : Mem} {lo hi : Nat} {l l₁ l₂ : List Block} {b c : Block}

theorem Region.splice (mid mid' : List Block) (hR : Region m lo hi (l₁ ++ (mid ++ l₂)))
    (hlinked : Linked Block.addr (HeaderAt m') mid' (first Block.addr l₂ 0))
    (hhead : first Block.addr mid' (first Block.addr l₂ 0) =
      first Block.addr mid (first Block.addr l₂ 0))
    (hapart : mid'.Pairwise fun b c => b.fin ≤ c.addr)
    (hin : ∀ b' ∈ mid', (∃ b ∈ mid, b.addr ≤ b'.addr) ∧ ∃ b ∈ mid, b'.fin ≤ b.fin)
    (hprev : ∀ b' ∈ mid', PrevBelow lo m' b'.addr)
    (hkeep : ∀ d ∈ l₁ ++ l₂, (∀ n, HeaderAt m d n → HeaderAt m' d n) ∧
      (PrevBelow lo m d.addr → PrevBelow lo m' d.addr)) :
    Region m' lo hi (l₁ ++ (mid' ++ l₂)) := by
  obtain ⟨hpos, htop, hstart, hlink, hap, hwithin, hprevs⟩ := hR
  simp only [linked_append, List.pairwise_append, first_append, List.mem_append] at *
  obtain ⟨hl₁, hmid, hl₂⟩ := hlink
  obtain ⟨ha₁, ⟨ham, ha₂, hm₂⟩, h₁⟩ := hap
  refine ⟨hpos, htop, ?_, ?_, ?_, ?_, ?_⟩
  · rwa [first_append, first_append, hhead]
  · rw [linked_append, linked_append, first_append, hhead]
    exact ⟨hl₁.imp fun d hd => (hkeep d (.inl hd)).1, hlinked,
      hl₂.imp fun d hd => (hkeep d (.inr hd)).1⟩
  · rw [List.pairwise_append, List.pairwise_append]
    refine ⟨ha₁, ⟨hapart, ha₂, fun b' hb' d hd => ?_⟩, fun d hd b' hb' => ?_⟩
    · obtain ⟨_, b, hb, hle⟩ := hin b' hb'
      exact hle.trans (hm₂ b hb d hd)
    · rcases List.mem_append.mp hb' with hb' | hb'
      · obtain ⟨⟨b, hb, hle⟩, _⟩ := hin b' hb'
        exact (h₁ d hd b (.inl hb)).trans hle
      · exact h₁ d hd b' (.inr hb')
  · intro d hd
    rcases List.mem_append.mp hd with hd | hd
    · exact hwithin d (.inl hd)
    · rcases List.mem_append.mp hd with hd | hd
      · obtain ⟨⟨b, hb, hle⟩, c, hc, hfin⟩ := hin d hd
        exact ⟨(hwithin b (.inr (.inl hb))).1.trans hle, hfin.trans (hwithin c (.inr (.inl hc))).2⟩
      · exact hwithin d (.inr (.inr hd))
  · intro d hd
    rcases List.mem_append.mp hd with hd | hd
    · exact (hkeep d (.inl hd)).2 (hprevs d (.inl hd))
    · rcases List.mem_append.mp hd with hd | hd
      · exact hprev d hd
      · exact (hkeep d (.inr hd)).2 (hprevs d (.inr (.inr hd)))

theorem header_keep {d : Block} (h : ∀ x, d.addr ≤ x → x < d.addr + 16 → m' x = m x) :
    (∀ n, HeaderAt m d n → HeaderAt m' d n) ∧ (PrevBelow lo m d.addr → PrevBelow lo m' d.addr) := by
  have hload : ∀ off, off + 4 ≤ 16 → load32 m' (d.addr + off) = load32 m (d.addr + off) :=
    fun off hoff => load32_congr fun x h1 h2 => h x (by omega) (by omega)
  refine ⟨fun n hn => ⟨?_, ?_, ?_⟩, fun hp => ?_⟩
  · rw [hload _ (by decide)]
    exact hn.flags
  · rw [hload _ (by decide)]
    exact hn.size
  · rw [hload _ (by decide)]
    exact hn.next
  · unfold PrevBelow prevAt at hp ⊢
    rwa [hload _ (by decide)]

theorem Region.around (hR : Region m lo hi (l₁ ++ b :: l₂)) :
    (∀ d ∈ l₁, d.addr + 16 ≤ b.addr) ∧ (∀ d ∈ l₂, b.fin ≤ d.addr) ∧ lo ≤ b.addr ∧ b.fin ≤ hi := by
  have hap := hR.apart
  simp only [List.pairwise_append, List.pairwise_cons] at hap
  obtain ⟨_, ⟨hb, _⟩, h₁⟩ := hap
  refine ⟨fun d hd => ?_, hb, hR.within b (by simp)⟩
  have := h₁ d hd b (by simp)
  unfold Block.fin heapBlockSize at this
  omega

theorem first_or_behind (hap : l.Pairwise fun b c => b.fin ≤ c.addr) {d : Block} (hd : d ∈ l) :
    first Block.addr l 0 = d.addr ∨ first Block.addr l 0 + 16 ≤ d.addr := by
  cases l with
  | nil => cases hd
  | cons e l =>
    rcases List.mem_cons.mp hd with rfl | hd
    · exact .inl rfl
    · have := (List.pairwise_cons.mp hap).1 d hd
      unfold Block.fin heapBlockSize at this
      exact .inr (by simp only [first_cons]; omega)

theorem Region.update (hR : Region m lo hi (l₁ ++ b :: l₂)) {b' : Block} (haddr : b'.addr = b.addr)
    (hsize : b'.size ≤ b.size) (hb' : HeaderAt m' b' (first Block.addr l₂ 0))
    (hrest : ∀ x, x < b.addr ∨ b.fin ≤ x ∨ (b.addr + 8 ≤ x ∧ x < b.addr + 12) → m' x = m x) :
    Region m' lo hi (l₁ ++ b' :: l₂) := by
  obtain ⟨hbefore, hbehind, _, _⟩ := hR.around
  refine Region.splice [b] [b'] hR ⟨hb', trivial⟩ ?_ (List.pairwise_singleton _ _)
    ?_ ?_ ?_
  · simp [haddr]
  · have hfin : b'.fin ≤ b.fin := by
      unfold Block.fin
      omega
    simpa [haddr] using hfin
  · have hprev := hR.prevs b (by simp)
    unfold PrevBelow prevAt at hprev ⊢
    have hload : load32 m' (b.addr + offPrev) = load32 m (b.addr + offPrev) :=
      load32_congr fun x h1 h2 => hrest x (by simp only [offPrev] at h1 h2; omega)
    simpa [haddr, hload] using hprev
  · intro d hd
    refine header_keep fun x h1 h2 => hrest x ?_
    rcases List.mem_append.mp hd with hd | hd
    · have := hbefore d hd
      omega
    · have := hbehind d hd
      omega

/-- The block that is left when `count` bytes are cut off the front of a free one. -/
def Block.remainder (b : Block) (count : Nat) : Block :=
  ⟨b.addr + 16 + count, b.size - count - 16, false⟩

theorem Region.split (hR : Region m lo hi (l₁ ++ b :: l₂)) {count : Nat} (hcount : count + 16 ≤ b.size)
    (hb : HeaderAt m' ⟨b.addr, count, true⟩ (b.addr + 16 + count))
    (hn : HeaderAt m' (b.remainder count) (first Block.addr l₂ 0))
    (hprev : prevAt m' (b.addr + 16 + count) = b.addr)
    (hrest : ∀ x, x < b.addr ∨ b.fin ≤ x ∨ (b.addr + 8 ≤ x ∧ x < b.addr + 12) → m' x = m x) :
    Region m' lo hi (l₁ ++ ⟨b.addr, count, true⟩ :: b.remainder count :: l₂) := by
  obtain ⟨hbefore, hbehind, hlo, _⟩ := hR.around
  refine Region.splice [b] [⟨b.addr, count, true⟩, b.remainder count] hR
    ⟨hb, hn, trivial⟩ rfl ?_ ?_ ?_ ?_
  · simp [Block.fin, Block.remainder, heapBlockSize]
  · simp only [List.mem_cons, List.not_mem_nil, or_false, forall_eq_or_imp, forall_eq, exists_eq_left,
      Block.fin, Block.remainder, heapBlockSize]
    omega
  · have hb8 := hR.prevs b (by simp)
    unfold PrevBelow at hb8 ⊢
    have hload : prevAt m' b.addr = prevAt m b.addr :=
      load32_congr fun x h1 h2 => hrest x (by simp only [offPrev] at h1 h2; omega)
    simp only [List.mem_cons, List.not_mem_nil, or_false, forall_eq_or_imp, forall_eq, hload,
      Block.remainder, hprev]
    exact ⟨hb8, .inr (by omega)⟩
  · intro d hd
    refine header_keep fun x h1 h2 => hrest x ?_
    rcases List.mem_append.mp hd with hd | hd
    · have := hbefore d hd
      omega
    · have := hbehind d hd
      omega

theorem Region.behind_two (hR : Region m lo hi (l₁ ++ b :: c :: l₂)) :
    b.fin ≤ c.addr ∧ (∀ d ∈ l₂, c.fin ≤ d.addr) ∧ c.fin ≤ hi := by
  have hR' : Region m lo hi ((l₁ ++ [b]) ++ c :: l₂) := by simpa using hR
  obtain ⟨_, hbehind, _, hhi⟩ := hR'.around
  exact ⟨hR.around.2.1 c (by simp), hbehind, hhi⟩

theorem Region.next_behind (hR : Region m lo hi (l₁ ++ b :: c :: l₂)) :
    first Block.addr l₂ 0 = 0 ∨
      (c.addr + 16 ≤ first Block.addr l₂ 0 ∧ first Block.addr l₂ 0 + 16 ≤ hi) := by
  cases l₂ with
  | nil => exact .inl rfl
  | cons d l =>
    have hcd := hR.behind_two.2.1 d (by simp)
    have hhi := (hR.within d (by simp)).2
    unfold Block.fin heapBlockSize at hcd hhi
    simp only [first_cons]
    omega

/-- A join leaves alone what lies before the block and its back link, and what lies
behind the region. -/
theorem Region.joined_rest (hR : Region m lo hi (l₁ ++ b :: c :: l₂))
    (hj : Joined m m' b c (first Block.addr l₂ 0)) {x : Nat}
    (hx : x < b.addr ∨ (b.addr + 8 ≤ x ∧ x < b.addr + 12) ∨ hi ≤ x) : m' x = m x := by
  obtain ⟨hbc, _, hhi⟩ := hR.behind_two
  have hnx := hR.next_behind
  unfold Block.fin heapBlockSize at hbc hhi
  exact hj.rest x (by omega) (by omega) (by omega) fun h => by omega

theorem Region.joined_prev (hR : Region m lo hi (l₁ ++ b :: c :: l₂))
    (hj : Joined m m' b c (first Block.addr l₂ 0)) : prevAt m' b.addr = prevAt m b.addr :=
  load32_congr fun x h1 h2 => hR.joined_rest hj (by simp only [offPrev] at h1 h2; omega)

theorem Region.join (hR : Region m lo hi (l₁ ++ b :: c :: l₂))
    (hj : Joined m m' b c (first Block.addr l₂ 0)) : Region m' lo hi (l₁ ++ b.join c :: l₂) := by
  obtain ⟨hbc, hbehind, _⟩ := hR.behind_two
  have hnx := hR.next_behind
  have hbefore := hR.around.1
  have hap : l₂.Pairwise fun b c => b.fin ≤ c.addr := by
    have := hR.apart
    simp only [List.pairwise_append, List.pairwise_cons] at this
    exact this.2.1.2.2
  unfold Block.fin heapBlockSize at hbc
  refine Region.splice [b, c] [b.join c] hR ⟨hj.header, trivial⟩ rfl
    (List.pairwise_singleton _ _) ?_ ?_ ?_
  · simp only [List.mem_cons, List.not_mem_nil, or_false, forall_eq, exists_eq_or_imp, exists_eq_left,
      Block.fin, Block.join, heapBlockSize]
    omega
  · have hb8 := hR.prevs b (by simp)
    unfold PrevBelow at hb8 ⊢
    simpa [hR.joined_prev hj] using hb8
  · intro d hd
    rcases List.mem_append.mp hd with hd | hd
    · have := hbefore d hd
      exact header_keep fun x h1 h2 => hR.joined_rest hj (by omega)
    · have hcd := hbehind d hd
      unfold Block.fin heapBlockSize at hcd
      -- only the back link of the header right behind is written
      rcases first_or_behind hap hd with heq | hlt
      · have hload : ∀ off, off + 4 ≤ 8 ∨ off = 12 → load32 m' (d.addr + off) = load32 m (d.addr + off) :=
          fun off hoff => load32_congr fun x h1 h2 =>
            hj.rest x (by omega) (by omega) (by omega) fun h => by omega
        refine ⟨fun n hn => ⟨?_, ?_, ?_⟩, fun _ => .inr ?_⟩
        · rw [hload _ (by decide)]
          exact hn.flags
        · rw [hload _ (by decide)]
          exact hn.size
        · rw [hload _ (by decide)]
          exact hn.next
        · rw [← heq, hj.prev (by omega)]
          have := hR.around.2.2.1
          omega
      · exact header_keep fun x h1 h2 =>
          hj.rest x (by omega) (by omega) (by omega) fun h => by omega

theorem Region.joinable (hR : Region m lo hi (l₁ ++ b :: c :: l₂)) (hc : c.used = false) :
    Joinable m b c (first Block.addr l₂ 0) := by
  have hR' : Region m lo hi ((l₁ ++ [b]) ++ c :: l₂) := by simpa using hR
  obtain ⟨hbc, _, hhi⟩ := hR.behind_two
  have hnx := hR.next_behind
  have htop := hR.top
  unfold Block.fin heapBlockSize at hbc hhi
  exact ⟨hR.linked.at_of_append, hR'.linked.at_of_append, hc, by omega, by omega, by omega, by omega,
    by omega⟩

end YggKernel.Heap
