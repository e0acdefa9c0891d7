import YggKernel.Heap.Resizing

namespace YggKernel.Heap

open Lib.Program Lib.ByteMemory Lib.Chains

/-- What `heap_realloc` may be asked without moving the block: it need not grow, or the block behind it is
free and large enough. -/
def Asked (p : Cell) (count : Nat) (l₂ : List Cell) : Prop :=
  count ≤ p.size ∨ ∃ n ∈ l₂.head?, n.Free ∧ count ≤ p.size + n.size + 16

/-- Memory before and after `p` was resized. The blocks fill the same room, and `p` has `count` bytes. -/
structure Resized (m m' : Mem) (lo hi : Nat) (p : Cell) (count : Nat) : Prop where
  chain : ∃ l, Chain m' lo hi l ∧ ∃ q ∈ l, q.addr = p.addr ∧ count ≤ q.size
  data : ∀ x, p.addr + 16 ≤ x → x < p.addr + 16 + min p.size count → m' x = m x

/-- The link of the free header `n` survives the first write to the header that takes its place. -/
def LinkKept (m : Mem) (p : Cell) (count : Nat) (n : Cell) : Prop :=
  load32 (store32 m (p.addr + 16 + count + 8) p.addr) (n.addr + 12) = load32 m (n.addr + 12)

/-- When `heap_realloc` keeps a chain in order. The last block may only lose less than a header, and
a block may only take the whole of the next one if it needs its header, too. -/
def ResizesWell (m : Mem) (p : Cell) (count : Nat) : List Cell → Prop
  | [] => p.Magic ∧ count < p.size ∧ p.size < count + 16
  | n :: _ => p.Magic ∧ (count < p.size ∧ p.size ≤ count + 2147483648 ∨ n.Free ∧ p.size ≤ count ∧
      (count = p.size + n.size + 16 ∧ count < p.size + 2147483648 ∨
        count < p.size + n.size ∧ (p.size + 2147483648 ≤ count ∨ LinkKept m p count n) ∨
        count = p.size + n.size ∧ p.size + 2147483648 ≤ count))

section Resizing

variable {m m' : Mem} {lo hi count e : Nat} {l₁ l₂ ns ks : List Cell} {p n : Cell} {words : List Nat}

/-- Block `p` and some blocks behind it give way to `p` with another size and blocks that fill the rest. -/
theorem resized_of_split (ks : List Cell) (h : Chain m lo hi (l₁ ++ ((p :: ns) ++ l₂)))
    (hmid : Tiled Cell.addr Cell.fin p.addr (p :: ns) e)
    (hsame : SameBut m m' words) (hwords : ∀ w ∈ words, w = p.addr + 4 ∨ w = p.addr + 12 ∨
      p.addr + 16 + min p.size count ≤ w ∧ w + 4 ≤ e ∨ l₂ ≠ [] ∧ w = e + 8)
    (hsize : load32 m' (p.addr + 4) = count) (hnext : load32 m' (p.addr + 12) = first Cell.addr ks (first Cell.addr l₂ 0))
    (hlinked : Linked Cell.addr (HeadAt m') ks (first Cell.addr l₂ 0))
    (hbacks : LinkedBack Cell.addr (fun c a => prevAt m' c.addr = a) p.addr ks)
    (htiled : Tiled Cell.addr Cell.fin (p.addr + 16 + count) ks e) (hprev : l₂ ≠ [] → prevAt m' e = last Cell.addr p.addr ks) :
    Resized m m' lo hi p count := by
  have hfine := tiled_le hmid.2
  unfold Cell.fin heapBlockSize at hfine
  have hout : ∀ x, x < p.addr + 4 ∨ p.addr + 8 ≤ x → x < p.addr + 12 ∨ p.addr + 16 ≤ x →
      x < p.addr + 16 + min p.size count ∨ e ≤ x → l₂ = [] ∨ x < e + 8 ∨ e + 12 ≤ x → m' x = m x := by
    intro x h1 h2 h3 h4
    refine hsame x fun w hw => ?_
    rcases hwords w hw with rfl | rfl | hw | ⟨hne, rfl⟩
    · omega
    · omega
    · omega
    · have h4 := h4.resolve_left hne
      omega
  have hp : Chain m lo hi (l₁ ++ p :: (ns ++ l₂)) := h
  obtain ⟨h₁, hrest, -, -⟩ := hp.place
  obtain ⟨e', hns, h₂⟩ := tiled_append.mp hrest
  obtain rfl : e' = e := (tiled_total hns).symm.trans (tiled_total hmid.2)
  have hhead : HeadAt m' ⟨p.addr, count, p.flags⟩ (first Cell.addr ks (first Cell.addr l₂ 0)) := by
    refine ⟨?_, hsize, hnext⟩
    refine (load32_congr fun x h1 h2 => hout x ?_ ?_ ?_ ?_).trans hp.head.flags <;> simp only [offFlags] at h1 h2 <;> omega
  have hback : prevAt m' p.addr = last Cell.addr 0 l₁ := by
    refine (load32_congr fun x h1 h2 => hout x ?_ ?_ ?_ ?_).trans hp.prev <;> simp only [offPrev] at h1 h2 <;> omega
  have hnew : Tiled Cell.addr Cell.fin p.addr (⟨p.addr, count, p.flags⟩ :: ks) e' := ⟨rfl, htiled⟩
  have hchain := h.splice _ h₁ hmid h₂ (by simp) (by simp) hnew ⟨hhead, hlinked⟩ ⟨hback, hbacks⟩
    (fun x hx hx' => hout x (by omega) (by omega) (by omega) hx') hprev
  exact ⟨⟨_, hchain, ⟨p.addr, count, p.flags⟩, by simp, rfl, le_rfl⟩, fun x h1 h2 =>
    hout x (by omega) (by omega) (by omega) (by omega)⟩

theorem Resized.tail (hr : Resized m m' lo hi p count) {s nx : Nat} (hsize : load32 m' (p.addr + 4) = s)
    (hnext : load32 m' (p.addr + 12) = nx) : ∃ k, first Cell.addr k 0 = nx ∧ Linked Cell.addr (HeadAt m') k 0 ∧
      LinkedBack Cell.addr (fun c a => prevAt m' c.addr = a) p.addr k ∧
      Tiled Cell.addr Cell.fin (p.addr + 16 + s) k hi := by
  obtain ⟨⟨l, hc, q, hq, haddr, -⟩, -⟩ := hr
  obtain ⟨k₁, k, rfl⟩ := List.append_of_mem hq
  have hhead := hc.head
  obtain ⟨-, hback⟩ := ((linkedBack_append ..).mp hc.backs).2
  have hlink := ((linked_append ..).mp hc.linked).2.2
  obtain rfl : q.size = s := by
    rw [← hsize, ← haddr]
    exact hhead.size.symm
  obtain rfl : first Cell.addr k 0 = nx := by
    rw [← hnext, ← haddr]
    exact hhead.next.symm
  rw [← haddr]
  exact ⟨k, rfl, hlink, hback, hc.place.2.1⟩

/-- A list of blocks that starts at `a` ends there, or its first block does. -/
theorem tiled_cases {a : Nat} {k : List Cell} (h : Tiled Cell.addr Cell.fin a k hi) :
    k = [] ∧ a = hi ∨ ∃ c k', k = c :: k' ∧ c.addr = a ∧ a + 16 + c.size ≤ hi := by
  cases k with
  | nil => exact .inl ⟨rfl, h⟩
  | cons c k' =>
    have hle := tiled_le h.2
    have haddr := h.1
    unfold Cell.fin heapBlockSize at hle
    exact .inr ⟨c, k', rfl, haddr, by omega⟩

theorem tiled_end_eq {a b : Nat} {k k' : List Cell} (ha : 0 < a) (hb : 0 < b) (h : Tiled Cell.addr Cell.fin a k hi)
    (h' : Tiled Cell.addr Cell.fin b k' hi) (hfirst : first Cell.addr k 0 = first Cell.addr k' 0) : a = b := by
  rcases tiled_cases h with ⟨rfl, rfl⟩ | ⟨c, k, rfl, rfl, -⟩ <;>
    rcases tiled_cases h' with ⟨rfl, hb'⟩ | ⟨c', k', rfl, rfl, -⟩
  · exact hb'.symm
  · exact absurd hfirst.symm (by simp; omega)
  · exact absurd hfirst (by simp; omega)
  · exact hfirst

end Resizing

/-- The links of a moved header cannot be right if the store through a wrong one falls on them. -/
theorem overlapping_links {m : Mem} {it newb x : Nat} (hit : it < newb) (hlo : newb < x) (hhi : x < newb + 8)
    (hprev : load32 (store32 (store32 (store32 m (newb + 8) it) (newb + 12) x) (x + 8) newb) (newb + 8) = it)
    (hnext : load32 (store32 (store32 (store32 m (newb + 8) it) (newb + 12) x) (x + 8) newb) (newb + 12) = 0) :
    newb ≥ 4294967296 := by
  generalize hm : store32 (store32 m (newb + 8) it) (newb + 12) x = m₂ at hprev hnext
  obtain ⟨j, rfl⟩ := Nat.exists_eq_add_of_lt hlo
  have hbyte : ∀ i < 4, (store32 m₂ (newb + j + 1 + 8) newb (newb + j + 1 + 8 + i)).toNat = newb / 256 ^ i % 256 :=
    fun i hi => byte_store32 hi
  have hzero : ∀ i < 4, (store32 m₂ (newb + j + 1 + 8) newb (newb + 12 + i)).toNat = 0 := fun i hi => by
    rw [byte_load32 hi, hnext, Nat.zero_div]
  have hlink : ∀ i < 4, (store32 m₂ (newb + j + 1 + 8) newb (newb + 8 + i)).toNat = it / 256 ^ i % 256 := fun i hi => by
    rw [byte_load32 hi, hprev]
  by_cases hj : 4 ≤ j
  · -- the lowest bytes of both addresses are zero, yet they are less than eight apart
    have hx : (m₂ (newb + 12)).toNat = (newb + j + 1) % 256 := by
      rw [← hm]
      simpa using byte_store32 (m := store32 m (newb + 8) it) (a := newb + 12) (v := newb + j + 1) (i := 0) (by decide)
    have hfirst := hzero 0 (by decide)
    rw [Nat.add_zero, store32_apply_of_outside (by omega), hx] at hfirst
    have hlow := hbyte 0 (by decide)
    have hlast := hzero (j - 3) (by omega)
    rw [show newb + 12 + (j - 3) = newb + j + 1 + 8 + 0 by omega, hlow] at hlast
    omega
  · -- the bytes of `newb` that fall on its own successor are zero, and the others make up the rest of `it`
    have h0 := hbyte 0 (by decide)
    have h1 := hbyte 1 (by decide)
    have h2 := hbyte 2 (by decide)
    have h3 := hbyte 3 (by decide)
    have k1 := hlink 1 (by decide)
    have k2 := hlink 2 (by decide)
    have k3 := hlink 3 (by decide)
    have z0 := hzero 0 (by decide)
    have z1 := hzero 1 (by decide)
    have z2 := hzero 2 (by decide)
    have z3 := hzero 3 (by decide)
    obtain rfl | rfl | rfl | rfl : j = 0 ∨ j = 1 ∨ j = 2 ∨ j = 3 := by omega
    all_goals
      simp only [Nat.add_assoc, Nat.reduceAdd, Nat.reducePow] at h0 h1 h2 h3 k1 k2 k3 z0 z1 z2 z3
      omega

section Branches

variable {h : HeapMem} {lo hi count cut newb : Nat} {l₁ l₂ : List Cell} {p n : Cell}

def Goal (h : HeapMem) (lo hi : Nat) (p : Cell) (count : Nat) (r : Nat) (t : HeapMem) : Prop :=
  r = heapData p.addr ∧ t.regions = h.regions ∧ Resized h.mem t.mem lo hi p count

theorem wp_shrinkBlock_keep (hc : Chain h.mem lo hi (l₁ ++ p :: l₂)) (hcut : cut < 16) (hcount : count ≤ p.size) :
    wp (shrinkBlock p.addr count cut) noFault (Goal h lo hi p count) h := by
  rw [shrinkBlock, if_neg (show ¬cut ≥ heapBlockSize from Nat.not_le.mpr hcut), wp_pure]
  exact ⟨rfl, rfl, ⟨_, hc, p, by simp, rfl, hcount⟩, fun _ _ _ => rfl⟩

theorem wp_shrinkBlock_lost (hc : Chain h.mem lo hi (l₁ ++ [p])) (hcut : 16 ≤ cut) (hcount : count + cut = p.size) :
    ¬wp (shrinkBlock p.addr count cut) noFault (Goal h lo hi p count) h := by
  have hlt := hc.head_lt
  have hpos := hc.place.2.2.1
  have hnewb : u32 (heapData p.addr + count) = p.addr + 16 + count := by
    rw [heapData, heapBlockSize, u32_of_lt (n := p.addr + 16) (by omega), u32_of_lt (by omega)]
  have heff := wp_shrinkBlock_last (E := noFault) hnewb hcut (by omega) (by omega) (by omega) (by omega) hc.head.next
  rw [wp_iff_of (c := False) heff]
  · exact not_false
  · rintro r t ⟨hsize, hnext⟩
    refine iff_false_intro fun hgoal => ?_
    obtain ⟨k, hfirst, -, -, htiled⟩ := hgoal.2.2.tail hsize hnext
    have hend : Tiled Cell.addr Cell.fin p.fin [] hi := hc.place.2.1
    have heq := tiled_end_eq (by omega) (lt_of_lt_of_le hpos p.le_fin) htiled hend hfirst
    unfold Cell.fin heapBlockSize at heq
    omega

theorem wp_shrinkBlock_split (hc : Chain h.mem lo hi (l₁ ++ p :: n :: l₂)) (hused : ¬n.Free) (hcut : 16 ≤ cut)
    (hcount : count + cut = p.size) : wp (shrinkBlock p.addr count cut) noFault (Goal h lo hi p count) h := by
  have hc' : Chain h.mem lo hi ((l₁ ++ [p]) ++ n :: l₂) := by simpa using hc
  have hlt := hc.head_lt
  have hn := hc.next
  unfold Cell.fin heapBlockSize at hn
  have hnewb : u32 (heapData p.addr + count) = p.addr + 16 + count := by
    rw [heapData, heapBlockSize, u32_of_lt (n := p.addr + 16) (by omega), u32_of_lt (by omega)]
  have husedw : load32 h.mem n.addr &&& heapFlgUsed ≠ 0 := by
    rw [show load32 h.mem n.addr = n.flags from hc'.head.flags]
    exact hused
  refine wp_imp (wp_shrinkBlock_used hnewb hcut (by omega) (by omega) (by omega) (by omega) hc.head.next
    (by simp only [first_cons]; omega) husedw) ?_
  rintro _ t ⟨rfl, hregs, hsize, hnext, hflags', hsize', hprev', hnext', hback, hsame⟩
  rw [first_cons] at hnext' hback hsame
  have hsplit : Chain h.mem lo hi (l₁ ++ ([p] ++ n :: l₂)) := hc
  refine ⟨rfl, hregs, resized_of_split [⟨p.addr + 16 + count, cut - 16, heapMagic⟩] hsplit (e := n.addr)
    ⟨rfl, hc.next.symm⟩ hsame (fun w hw => ?_) hsize hnext ⟨⟨hflags', hsize', hnext'⟩, trivial⟩ ⟨hprev', trivial⟩ ⟨rfl, ?_⟩
    fun _ => hback⟩
  · simp only [List.mem_cons, List.not_mem_nil, or_false] at hw
    rw [and_comm (a := _ ≠ _)]
    simp only [ne_eq, reduceCtorEq, not_false_eq_true, and_true]
    omega
  · change _ + _ + _ = _
    simp only [heapBlockSize]
    omega

theorem Chain.beyond (hc : Chain h.mem lo hi (l₁ ++ p :: n :: l₂)) :
    (first Cell.addr l₂ 0 = 0 ∧ l₂ = [] ∧ n.fin = hi) ∨
      (first Cell.addr l₂ 0 = n.fin ∧ l₂ ≠ [] ∧ n.fin + 16 ≤ hi ∧ prevAt h.mem n.fin = n.addr) := by
  have hc' : Chain h.mem lo hi ((l₁ ++ [p]) ++ n :: l₂) := by simpa using hc
  rcases tiled_cases hc'.place.2.1 with ⟨rfl, hend⟩ | ⟨c, k, rfl, haddr, hle⟩
  · exact .inl ⟨rfl, rfl, hend⟩
  · have hc'' : Chain h.mem lo hi ((l₁ ++ [p, n]) ++ c :: k) := by simpa using hc
    refine .inr ⟨haddr, by simp, by omega, ?_⟩
    rw [← haddr, hc''.prev, last_append]
    rfl

theorem mem_backWord {nn w : Nat} (hw : w ∈ backWord nn) : nn ≠ 0 ∧ w = nn + 8 := by
  unfold backWord at hw
  split at hw
  · cases hw
  · exact ⟨‹_›, List.mem_singleton.mp hw⟩

/-- The header that was cut off takes in the free block behind it, which may also be where it lies. -/
theorem wp_shrinkBlock_join (hc : Chain h.mem lo hi (l₁ ++ p :: n :: l₂)) (hfree : n.Free) (hcut : 16 ≤ cut)
    (hcut' : cut < 4294967296)
    (hplace : count + 16 ≤ p.size ∨ p.size + 16 ≤ count ∧ count ≤ p.size + n.size)
    (hsum : count + u32 (cut - 16 + u32 (16 + n.size)) = p.size + n.size) :
    wp (shrinkBlock p.addr count cut) noFault (Goal h lo hi p count) h := by
  have hc' : Chain h.mem lo hi ((l₁ ++ [p]) ++ n :: l₂) := by simpa using hc
  have hlt := hc'.head_lt
  have hn := hc.next
  have hpos := hc.place.2.2.1
  unfold Cell.fin heapBlockSize at hn
  have hnfin : n.fin = n.addr + 16 + n.size := rfl
  have hnewb : u32 (heapData p.addr + count) = p.addr + 16 + count := by
    rw [heapData, heapBlockSize, u32_of_lt (n := p.addr + 16) (by omega), u32_of_lt (by omega)]
  have hbeyond := hc.beyond
  have hbehind : first Cell.addr l₂ 0 ≠ 0 → n.addr + 16 ≤ first Cell.addr l₂ 0 ∧
      p.addr + 16 + count ≤ first Cell.addr l₂ 0 := by omega
  refine wp_imp (wp_shrinkBlock_free hnewb hcut hcut' (by omega) (by omega) (by omega) hc.head.next
    (by simp only [first_cons]; omega) (by simp only [first_cons]; omega) ?_ hc'.head.size hc'.head.next hbehind) ?_
  · rw [first_cons, show load32 h.mem n.addr = n.flags from hc'.head.flags]
    exact hfree
  · rintro _ t ⟨rfl, hregs, hsize, hnext, hsize', hlinks, hback, hsame⟩
    obtain ⟨hflags', hprev', hnext'⟩ := hlinks (by omega)
    have hsplit : Chain h.mem lo hi (l₁ ++ ([p, n] ++ l₂)) := hc
    refine ⟨rfl, hregs, resized_of_split [⟨p.addr + 16 + count, p.size + n.size - count, heapMagic⟩] hsplit
      (e := n.fin) ⟨rfl, hc.next, rfl⟩ hsame (fun w hw => ?_) hsize hnext ⟨⟨hflags', ?_, hnext'⟩, trivial⟩
      ⟨hprev', trivial⟩ ⟨rfl, ?_⟩ fun hne => ?_⟩
    · simp only [joinedWords, first_cons, List.mem_append, List.mem_cons, List.not_mem_nil, or_false] at hw
      rcases hw with (hw | hw) | hw
      · omega
      · obtain ⟨h0, rfl⟩ := mem_backWord hw
        obtain ⟨h1, -⟩ | ⟨h1, hne, -⟩ := hbeyond
        · exact absurd h1 h0
        · exact .inr (.inr (.inr ⟨hne, by rw [h1]⟩))
      · omega
    · refine Eq.trans hsize' ?_
      dsimp only
      omega
    · change _ + _ + _ = _
      simp only [heapBlockSize]
      omega
    · obtain ⟨-, rfl, -⟩ | ⟨h1, -⟩ := hbeyond
      · exact absurd rfl hne
      · rw [h1] at hback
        exact hback (by omega)

/-- A header that is cut off behind the data of the free block gets a size below zero. -/
theorem wp_shrinkBlock_overrun (hc : Chain h.mem lo hi (l₁ ++ p :: n :: l₂)) (htop : hi < 4294967296) (hfree : n.Free)
    (hcut : 16 ≤ cut)
    (hcount : p.size + n.size < count) (hcount' : count ≤ p.size + n.size + 16)
    (hcut' : count + cut = p.size + 4294967296) (hbig : p.size + 16 ≤ count) :
    ¬wp (shrinkBlock p.addr count cut) noFault (Goal h lo hi p count) h := by
  have hc' : Chain h.mem lo hi ((l₁ ++ [p]) ++ n :: l₂) := by simpa using hc
  have hlt := hc'.head_lt
  have hn := hc.next
  have hpos := hc.place.2.2.1
  unfold Cell.fin heapBlockSize at hn
  have hnfin : n.fin = n.addr + 16 + n.size := rfl
  have hfin := tiled_le hc'.place.2.1
  have hnewb : u32 (heapData p.addr + count) = p.addr + 16 + count := by
    rw [heapData, heapBlockSize, u32_of_lt (n := p.addr + 16) (by omega), u32_of_lt (by omega)]
  have hfreew : load32 h.mem (first Cell.addr (n :: l₂) 0) &&& heapFlgUsed = 0 := by
    rw [first_cons, show load32 h.mem n.addr = n.flags from hc'.head.flags]
    exact hfree
  have hbeyond := hc.beyond
  have hbehind : first Cell.addr l₂ 0 ≠ 0 → n.addr + 16 ≤ first Cell.addr l₂ 0 ∧
      p.addr + 16 + count ≤ first Cell.addr l₂ 0 := by omega
  have heff := wp_shrinkBlock_free (E := noFault) hnewb hcut (by omega) (by omega) (by omega) (by omega) hc.head.next
    (by simp only [first_cons]; omega) (by simp only [first_cons]; omega) hfreew hc'.head.size hc'.head.next hbehind
  rw [wp_iff_of (c := False) heff]
  · exact not_false
  · rintro r t ⟨-, -, hsize, hnext, hsize', -⟩
    refine iff_false_intro fun hgoal => ?_
    obtain ⟨k, hfirst, hlink, -, htiled⟩ := hgoal.2.2.tail hsize hnext
    -- the new header is the next one of the chain, and its block ends beyond memory
    obtain ⟨rfl, hend⟩ | ⟨q, k, rfl, haddr, hle⟩ := tiled_cases htiled
    · simp only [first_nil] at hfirst
      omega
    · have hq : q.size = u32 (cut - 16 + u32 (16 + n.size)) := by
        rw [← hsize', ← haddr]
        exact hlink.1.size.symm
      have hsum : u32 (cut - 16 + u32 (16 + n.size)) = cut + n.size := by
        rw [u32_of_lt (n := 16 + n.size) (by omega), u32_of_lt (by omega)]
        omega
      omega

theorem wp_growWhole_iff (hc : Chain h.mem lo hi (l₁ ++ p :: n :: l₂)) (hle : p.size ≤ count)
    (hcount : count < 4294967296) :
    wp (growWhole p.addr n.addr count) noFault (Goal h lo hi p count) h ↔ count = p.size + n.size + 16 := by
  have hc' : Chain h.mem lo hi ((l₁ ++ [p]) ++ n :: l₂) := by simpa using hc
  have hlt := hc'.head_lt
  have hn := hc.next
  have hpos := hc.place.2.2.1
  unfold Cell.fin heapBlockSize at hn
  have hnfin : n.fin = n.addr + 16 + n.size := rfl
  have hbeyond := hc.beyond
  have hbehind : first Cell.addr l₂ 0 ≠ 0 → n.addr + 16 ≤ first Cell.addr l₂ 0 := by omega
  refine wp_iff_of (wp_growWhole hc'.head.next (by omega) hcount (by omega) hbehind) ?_
  rintro _ t ⟨rfl, hregs, hsize, hnext, hback, hsame⟩
  refine ⟨fun hgoal => ?_, fun heq => ⟨rfl, hregs, ?_⟩⟩
  · obtain ⟨k, hfirst, -, -, htiled⟩ := hgoal.2.2.tail hsize hnext
    have heq := tiled_end_eq (by omega) (by omega) htiled hc'.place.2.1 hfirst
    omega
  · have hsplit : Chain h.mem lo hi (l₁ ++ ([p, n] ++ l₂)) := hc
    refine resized_of_split [] hsplit (e := n.fin) ⟨rfl, hc.next, rfl⟩ hsame (fun w hw => ?_) hsize hnext trivial
      trivial ?_ fun hne => ?_
    · simp only [List.mem_append, List.mem_cons, List.not_mem_nil, or_false] at hw
      rcases hw with ((hw | hw) | hw) | hw
      · omega
      · obtain ⟨h0, rfl⟩ := mem_backWord hw
        obtain ⟨h1, -⟩ | ⟨h1, hne, -⟩ := hbeyond
        · exact absurd h1 h0
        · exact .inr (.inr (.inr ⟨hne, by rw [h1]⟩))
      · omega
      · omega
    · change _ = _
      omega
    · obtain ⟨-, rfl, -⟩ | ⟨h1, -⟩ := hbeyond
      · exact absurd rfl hne
      · rw [h1] at hback
        exact hback (by omega)

/-- Memory after a header was moved and the link that was read is the right one. -/
theorem relinked_kept {m : Mem} {it next newb nn : Nat}
    (hkept : load32 (store32 m (newb + 8) it) (next + 12) = nn) (hit : it < 4294967296) (hlt : newb < 4294967296)
    (hbehind : nn ≠ 0 → newb + 16 ≤ nn) : load32 (relinked m it next newb) (newb + 8) = it ∧
      load32 (relinked m it next newb) (newb + 12) = nn ∧
      (nn ≠ 0 → load32 (relinked m it next newb) (nn + 8) = newb) ∧
      SameBut m (relinked m it next newb) ([newb + 8, newb + 12] ++ backWord nn) := by
  have hnn : nn < 4294967296 := by
    rw [← hkept]
    exact load32_lt _ _
  have hlinks := (sameBut_store32 m (newb + 8) it).trans (sameBut_store32 (store32 m (newb + 8) it) (newb + 12) nn)
  unfold relinked backWord
  dsimp only
  rw [hkept]
  by_cases h0 : nn = 0
  · rw [if_neg (not_not_intro h0), if_pos h0]
    refine ⟨?_, load32_store32 hnn, fun hne => absurd h0 hne, hlinks⟩
    rw [load32_store32_of_disjoint (by omega), load32_store32 hit]
  · have hb := hbehind h0
    rw [if_pos h0, if_neg h0]
    refine ⟨?_, ?_, fun _ => load32_store32 hlt, hlinks.trans (sameBut_store32 _ _ _)⟩
    · rw [load32_store32_of_disjoint (by omega), load32_store32_of_disjoint (by omega), load32_store32 hit]
    · rw [load32_store32_of_disjoint (by omega), load32_store32 hnn]

/-- A link that was written over before it was read does not lead on to the block behind, at `fin`. -/
theorem relinked_stale {m : Mem} {it next newb d e z nn q s : Nat} (hit : it < newb) (hlt : newb < 4294967296)
    (hplace : next ≤ newb) (hs : load32 m (next + 4) = s) (hnext : load32 m (next + 12) = nn)
    (hfin : newb + 16 + sub32 s d = e)
    (hnn : nn = 0 ∧ e = z ∨ nn = e ∧ e + 16 ≤ z ∧ load32 m (e + 8) = next)
    (hprev : load32 (relinked m it next newb) (newb + 8) = it)
    (hq : q = newb + 16 + sub32 (load32 (relinked m it next newb) (next + 4)) d)
    (hk : load32 (relinked m it next newb) (newb + 12) = 0 ∧ q = z ∨
      load32 (relinked m it next newb) (newb + 12) = q ∧ q + 16 ≤ z ∧ load32 (relinked m it next newb) (q + 8) = newb) :
    load32 (store32 m (newb + 8) it) (next + 12) = nn := by
  by_contra hne
  have hx := load32_lt (store32 m (newb + 8) it) (next + 12)
  have hsame : newb = next → load32 (store32 m (newb + 8) it) (next + 12) = nn := by
    rintro rfl
    rw [load32_store32_of_disjoint (by omega), hnext]
  unfold relinked at hprev hq hk
  dsimp only at hprev hq hk
  generalize load32 (store32 m (newb + 8) it) (next + 12) = x at *
  by_cases h0 : x = 0
  · rw [if_neg (not_not_intro h0)] at hq hk
    rw [load32_store32 hx] at hk
    rw [load32_store32_of_disjoint (by omega), load32_store32_of_disjoint (by omega), hs, hfin] at hq
    omega
  · rw [if_pos h0] at hprev hq hk
    have hsize : newb ≤ x → q = e := fun hx => by
      rw [hq, load32_store32_of_disjoint (by omega), load32_store32_of_disjoint (by omega),
        load32_store32_of_disjoint (by omega), hs, hfin]
    by_cases hfar : x ≤ newb ∨ newb + 8 ≤ x
    · rw [load32_store32_of_disjoint (by omega), load32_store32 hx] at hk
      have hq' := hsize (by omega)
      omega
    · have hq' := hsize (by omega)
      subst hq'
      rcases hk with ⟨hlast, hend⟩ | ⟨-, hbehind, hback⟩
      · have hover := overlapping_links hit (by omega) (by omega) hprev hlast
        omega
      · rw [load32_store32_of_disjoint (by omega), load32_store32_of_disjoint (by omega),
          load32_store32_of_disjoint (by omega)] at hback
        have hback' : load32 m (q + 8) = next := by omega
        exact hne (hsame (hback.symm.trans hback'))

theorem wp_growSplit_iff (hc : Chain h.mem lo hi (l₁ ++ p :: n :: l₂)) (hle : p.size ≤ count)
    (hcount : count < p.size + n.size) : wp (growSplit p.addr n.addr count (count - p.size)) noFault (Goal h lo hi p count) h ↔
      LinkKept h.mem p count n := by
  have hc' : Chain h.mem lo hi ((l₁ ++ [p]) ++ n :: l₂) := by simpa using hc
  have hlt := hc'.head_lt
  have hn := hc.next
  have hpos := hc.place.2.2.1
  unfold Cell.fin heapBlockSize at hn
  have hnfin : n.fin = n.addr + 16 + n.size := rfl
  have hfinle := tiled_le hc'.place.2.1
  have hnewb : u32 (heapData p.addr + count) = p.addr + 16 + count := by
    rw [heapData, heapBlockSize, u32_of_lt (n := p.addr + 16) (by omega), u32_of_lt (by omega)]
  have hbeyond := hc.beyond
  have hnext := hc'.head.next
  have hs : load32 h.mem (n.addr + 4) = n.size := hc'.head.size
  have hdiff : sub32 n.size (count - p.size) = n.size - (count - p.size) := sub32_of_le hc'.head.size_lt (by omega)
  refine wp_iff_of (wp_growSplit hnewb (by omega) (by omega) (by omega)) ?_
  rintro _ t ⟨rfl, hregs, hflags, hsize', hsize, hlink, hsame⟩
  constructor
  · intro hgoal
    obtain ⟨k, hfirst, hlinked, hbacks, htiled⟩ := hgoal.2.2.tail hsize hlink
    obtain ⟨rfl, hend⟩ | ⟨q, k, rfl, haddr, hqle⟩ := tiled_cases htiled
    · simp only [first_nil] at hfirst
      omega
    · have hback : prevAt t.mem q.addr = p.addr := hbacks.1
      have hqfin : q.fin = q.addr + 16 + q.size := rfl
      have hqsize := hlinked.1.size
      have hqnext := hlinked.1.next
      simp only [prevAt, offPrev, offSize, offNext, haddr] at hback hqsize hqnext
      rw [hsame.load (by simp; omega)] at hback hqnext
      refine relinked_stale (d := count - p.size) (e := n.fin) (z := hi) (q := q.fin) (s := n.size) (by omega)
        (by omega) (by omega) hs hnext (by omega) ?_ hback (by rw [hqfin, haddr, ← hqsize, hsize']) ?_ |>.trans hnext.symm
      · rcases hbeyond with ⟨h1, -, h2⟩ | ⟨h1, -, h2, h3⟩
        · exact .inl ⟨h1, h2⟩
        · exact .inr ⟨h1, h2, h3⟩
      · obtain ⟨rfl, hend⟩ | ⟨c, k, rfl, hcaddr, hcle⟩ := tiled_cases htiled.2
        · exact .inl ⟨hqnext, hend⟩
        · have hcback : prevAt t.mem c.addr = q.addr := hbacks.2.1
          rw [prevAt, hcaddr, haddr, hsame.load (by simp [offPrev]; omega)] at hcback
          exact .inr ⟨hqnext.trans hcaddr, by omega, hcback⟩
  · intro hkept
    have hbehind : first Cell.addr l₂ 0 ≠ 0 → p.addr + 16 + count + 16 ≤ first Cell.addr l₂ 0 := by omega
    obtain ⟨hprev, hnew, hback, hmoved⟩ := relinked_kept (hkept.trans hnext) (by omega) (by omega) hbehind
    have hsplit : Chain h.mem lo hi (l₁ ++ ([p, n] ++ l₂)) := hc
    have hsizen : load32 (relinked h.mem p.addr n.addr (p.addr + 16 + count)) (n.addr + 4) = n.size := by
      rw [hmoved.load fun w hw => ?_, hs]
      simp only [List.mem_append, List.mem_cons, List.not_mem_nil, or_false] at hw
      rcases hw with hw | hw
      · omega
      · obtain ⟨h0, rfl⟩ := mem_backWord hw
        omega
    rw [hsizen, hdiff] at hsize'
    refine ⟨rfl, hregs, resized_of_split [⟨p.addr + 16 + count, n.size - (count - p.size), heapMagic⟩] hsplit
      (e := n.fin) ⟨rfl, hc.next, rfl⟩ (hmoved.trans hsame) (fun w hw => ?_) hsize hlink
      ⟨⟨hflags, hsize', ?_⟩, trivial⟩ ⟨?_, trivial⟩ ⟨rfl, ?_⟩ fun hne => ?_⟩
    · simp only [List.mem_append, List.mem_cons, List.not_mem_nil, or_false] at hw
      rcases hw with (hw | hw) | hw
      · omega
      · obtain ⟨h0, rfl⟩ := mem_backWord hw
        obtain ⟨h1, -⟩ | ⟨h1, hne, -⟩ := hbeyond
        · exact absurd h1 h0
        · exact .inr (.inr (.inr ⟨hne, by rw [h1]⟩))
      · omega
    · exact (hsame.load (by simp [offNext]; omega)).trans hnew
    · exact (hsame.load (by simp [offPrev]; omega)).trans hprev
    · change _ + _ + _ = _
      simp only [heapBlockSize]
      omega
    · obtain ⟨-, rfl, -⟩ | ⟨h1, -, hle', -⟩ := hbeyond
      · exact absurd rfl hne
      · rw [h1] at hback
        exact (hsame.load (by simp [offPrev]; omega)).trans (hback (by omega))

theorem not_wp_growBlock {diff : Nat} {Q : Nat → HeapMem → Prop} (hc : Chain h.mem lo hi (l₁ ++ p :: l₂))
    (hno : ∀ n ∈ l₂.head?, ¬n.Free) : ¬wp (growBlock p.addr count diff) noFault Q h := by
  rw [growBlock, wp_bind, wp_field, hc.head.next]
  cases l₂ with
  | nil =>
    rw [first_nil, if_pos rfl, wp_throw]
    exact not_false
  | cons n l₂ =>
    have hc' : Chain h.mem lo hi ((l₁ ++ [p]) ++ n :: l₂) := by simpa using hc
    have hused : n.flags &&& heapFlgUsed ≠ 0 := hno n rfl
    rw [first_cons, if_neg hc'.place.2.2.1.ne', wp_bind, wp_field, hc'.head.flags, if_pos hused, wp_throw]
    exact not_false

theorem wp_growBlock_iff {diff : Nat} {Q : Nat → HeapMem → Prop} (hc : Chain h.mem lo hi (l₁ ++ p :: n :: l₂))
    (hfree : n.Free) : wp (growBlock p.addr count diff) noFault Q h ↔
      if diff ≥ n.size ∧ sub32 diff heapBlockSize ≤ n.size then wp (growWhole p.addr n.addr count) noFault Q h
      else diff < n.size ∧ wp (growSplit p.addr n.addr count diff) noFault Q h := by
  have hc' : Chain h.mem lo hi ((l₁ ++ [p]) ++ n :: l₂) := by simpa using hc
  have hused : ¬n.flags &&& heapFlgUsed ≠ 0 := not_not_intro hfree
  rw [growBlock, wp_bind, wp_field, hc.head.next, first_cons, if_neg hc'.place.2.2.1.ne', wp_bind, wp_field,
    hc'.head.flags, if_neg hused, wp_bind, wp_field, hc'.head.size, wp_bind, wp_field, hc'.head.size]
  by_cases hwhole : diff ≥ n.size ∧ sub32 diff heapBlockSize ≤ n.size
  · rw [if_pos hwhole, if_pos hwhole]
  · rw [if_neg hwhole, if_neg hwhole, wp_bind, wp_field, hc'.head.size]
    by_cases hlt : diff < n.size
    · rw [if_pos hlt]
      exact (and_iff_right hlt).symm
    · rw [if_neg hlt, wp_throw]
      exact iff_of_false not_false fun h => hlt h.1

end Branches

section Whole

variable {h : HeapMem} {lo hi count : Nat} {l₁ l₂ : List Cell} {p n : Cell}

theorem wp_heapRealloc_iff {Q : Nat → HeapMem → Prop} (hc : Chain h.mem lo hi (l₁ ++ p :: l₂)) (haddr : p.addr < 4294967296) :
    wp (heapRealloc (heapData p.addr) count) noFault Q h ↔ p.Magic ∧
      if sub32 count p.size ≥ 2147483648 then
        wp (shrinkBlock p.addr count (sub32 0 (sub32 count p.size))) noFault Q h
      else wp (growBlock p.addr count (sub32 count p.size)) noFault Q h := by
  rw [heapRealloc, heapData_sub haddr, wp_bind, wp_field, hc.head.flags]
  by_cases hmagic : p.Magic
  · have hflags : ¬p.flags &&& heapMagic ≠ heapMagic := not_not_intro hmagic
    rw [if_neg hflags, wp_bind, wp_field, hc.head.size, and_iff_right hmagic]
    dsimp only
    by_cases hneg : sub32 count p.size ≥ 2147483648
    · rw [if_pos hneg, if_pos hneg]
    · rw [if_neg hneg, if_neg hneg]
  · have hflags : p.flags &&& heapMagic ≠ heapMagic := hmagic
    rw [if_pos hflags, wp_bind, wp_throw]
    exact iff_of_false not_false fun h => hmagic h.1

theorem sub32_neg {a b : Nat} (ha : a < 4294967296) (hlt : a < b) (hb : b < 4294967296) :
    sub32 a b = a + 4294967296 - b ∧ sub32 0 (sub32 a b) = b - a := by
  unfold sub32
  omega

theorem shrink_resizes_iff (hc : Chain h.mem lo hi (l₁ ++ p :: l₂)) (hlt : count < p.size) :
    wp (shrinkBlock p.addr count (p.size - count)) noFault (Goal h lo hi p count) h ↔
      (l₂ = [] → p.size < count + 16) := by
  have hle := hc.head_lt
  by_cases hsmall : p.size - count < 16
  · exact iff_of_true (wp_shrinkBlock_keep hc hsmall hlt.le) fun _ => by omega
  · cases l₂ with
    | nil => exact iff_of_false (wp_shrinkBlock_lost hc (by omega) (by omega)) fun h => hsmall (by have := h rfl; omega)
    | cons n l₂ =>
      have hc' : Chain h.mem lo hi ((l₁ ++ [p]) ++ n :: l₂) := by simpa using hc
      have hle' := hc'.head_lt
      have hn := hc.next
      unfold Cell.fin heapBlockSize at hn
      refine iff_of_true ?_ fun h => absurd h (by simp)
      by_cases hfree : n.Free
      · refine wp_shrinkBlock_join hc hfree (by omega) (by omega) (.inl (by omega)) ?_
        rw [u32_of_lt (n := 16 + n.size) (by omega), u32_of_lt (by omega)]
        omega
      · exact wp_shrinkBlock_split hc hfree (by omega) (by omega)

theorem overgrow_resizes_iff (hc : Chain h.mem lo hi (l₁ ++ p :: n :: l₂)) (htop : hi < 4294967296) (hfree : n.Free)
    (hask : count ≤ p.size + n.size + 16) (hbig : p.size + 2147483648 ≤ count) :
    wp (shrinkBlock p.addr count (4294967296 - (count - p.size))) noFault (Goal h lo hi p count) h ↔
      count ≤ p.size + n.size := by
  have hc' : Chain h.mem lo hi ((l₁ ++ [p]) ++ n :: l₂) := by simpa using hc
  have hle := hc'.head_lt
  have hn := hc.next
  have hpos := hc.place.2.2.1
  unfold Cell.fin heapBlockSize at hn
  by_cases hfits : count ≤ p.size + n.size
  · refine iff_of_true (wp_shrinkBlock_join hc hfree (by omega) (by omega) (.inr (by omega)) ?_) hfits
    rw [u32_of_lt (n := 16 + n.size) (by omega)]
    unfold u32
    omega
  · exact iff_of_false (wp_shrinkBlock_overrun hc htop hfree (by omega) (by omega) hask (by omega) (by omega)) hfits

theorem grow_resizes_iff (hc : Chain h.mem lo hi (l₁ ++ p :: n :: l₂)) (hfree : n.Free) (hle : p.size ≤ count)
    (hask : count ≤ p.size + n.size + 16) :
    wp (growBlock p.addr count (count - p.size)) noFault (Goal h lo hi p count) h ↔
      count = p.size + n.size + 16 ∨ count < p.size + n.size ∧ LinkKept h.mem p count n := by
  have hc' : Chain h.mem lo hi ((l₁ ++ [p]) ++ n :: l₂) := by simpa using hc
  have hlt := hc'.head_lt
  have hn := hc.next
  have hpos := hc.place.2.2.1
  unfold Cell.fin heapBlockSize at hn
  rw [wp_growBlock_iff hc hfree]
  by_cases hroom : count < p.size + n.size
  · have hwhole : ¬(count - p.size ≥ n.size ∧ sub32 (count - p.size) heapBlockSize ≤ n.size) := by omega
    rw [if_neg hwhole, wp_growSplit_iff hc hle hroom]
    constructor
    · exact fun hkept => .inr ⟨hroom, hkept.2⟩
    · exact fun hwell => ⟨by omega, (hwell.resolve_left (by omega)).2⟩
  · rw [or_iff_left fun h => hroom h.1]
    by_cases hhead : count - p.size < 16
    · have hwhole : ¬(count - p.size ≥ n.size ∧ sub32 (count - p.size) heapBlockSize ≤ n.size) := by
        unfold sub32 heapBlockSize
        omega
      rw [if_neg hwhole]
      exact iff_of_false (fun h => by omega) (by omega)
    · have hwhole : count - p.size ≥ n.size ∧ sub32 (count - p.size) heapBlockSize ≤ n.size := by
        rw [heapBlockSize, sub32_of_le (by omega) (by omega)]
        omega
      rw [if_pos hwhole]
      exact wp_growWhole_iff hc hle (by omega)

theorem realloc_smaller_iff (hc : Chain h.mem lo hi (l₁ ++ p :: l₂)) (hlt : count < p.size) :
    wp (heapRealloc (heapData p.addr) count) noFault (Goal h lo hi p count) h ↔ ResizesWell h.mem p count l₂ := by
  have hle := hc.head_lt
  obtain ⟨hdiff, hcut⟩ := sub32_neg (by omega) hlt (by omega)
  rw [wp_heapRealloc_iff hc (by omega)]
  by_cases hnear : p.size ≤ count + 2147483648
  · rw [if_pos (by omega), hcut, shrink_resizes_iff hc hlt]
    cases l₂ with
    | nil => simp [ResizesWell, hlt]
    | cons n l₂ => simp [ResizesWell, hlt, hnear]
  · rw [if_neg (by omega)]
    cases l₂ with
    | nil =>
      refine iff_of_false (fun h => not_wp_growBlock hc (by simp) h.2) fun h => ?_
      have hsmall := h.2.2
      omega
    | cons n l₂ =>
      have hc' : Chain h.mem lo hi ((l₁ ++ [p]) ++ n :: l₂) := by simpa using hc
      have hle' := hc'.head_lt
      have hn := hc.next
      unfold Cell.fin heapBlockSize at hn
      refine iff_of_false (fun h => ?_) fun h => by
        have hwell := h.2
        omega
      by_cases hfree : n.Free
      · have hgrow := (wp_growBlock_iff hc hfree).mp h.2
        rw [hdiff, heapBlockSize, sub32_of_le (by omega) (by omega), if_neg (by omega)] at hgrow
        omega
      · exact not_wp_growBlock hc (by simpa using hfree) h.2

theorem realloc_same_iff (hc : Chain h.mem lo hi (l₁ ++ p :: l₂))
    (hused : ∀ n, l₂.head? = some n → ¬n.Free) :
    wp (heapRealloc (heapData p.addr) p.size) noFault (Goal h lo hi p p.size) h ↔ ResizesWell h.mem p p.size l₂ := by
  have hle := hc.head_lt
  rw [wp_heapRealloc_iff hc (by omega), sub32_of_le (by omega) le_rfl, if_neg (by omega)]
  refine iff_of_false (fun h => not_wp_growBlock hc hused h.2) fun h => ?_
  cases l₂ with
  | nil => exact (lt_irrefl _) h.2.1
  | cons n l₂ =>
    rcases h.2 with h | ⟨h, -⟩
    · exact (lt_irrefl _) h.1
    · exact hused n rfl h

theorem realloc_larger_iff (hc : Chain h.mem lo hi (l₁ ++ p :: n :: l₂)) (htop : hi < 4294967296) (hle : p.size ≤ count)
    (hfree : n.Free) (hroom : count ≤ p.size + n.size + 16) :
    wp (heapRealloc (heapData p.addr) count) noFault (Goal h lo hi p count) h ↔ ResizesWell h.mem p count (n :: l₂) := by
  have hc' : Chain h.mem lo hi ((l₁ ++ [p]) ++ n :: l₂) := by simpa using hc
  have hend := hc'.head_lt
  have hn := hc.next
  unfold Cell.fin heapBlockSize at hn
  have hdiff : sub32 count p.size = count - p.size := sub32_of_le (by omega) (by omega)
  have hneg : sub32 0 (count - p.size) = if count = p.size then 0 else 4294967296 - (count - p.size) := by
    unfold sub32
    split <;> omega
  rw [wp_heapRealloc_iff hc (by omega), ResizesWell, hdiff, and_congr_right_iff]
  intro _
  rw [and_iff_right hfree]
  by_cases hbig : p.size + 2147483648 ≤ count
  · rw [if_pos (by omega), hneg, if_neg (by omega), overgrow_resizes_iff hc htop hfree hroom hbig]
    omega
  · rw [if_neg (by omega), grow_resizes_iff hc hfree hle hroom]
    constructor
    · rintro (heq | ⟨hlt', hkept⟩)
      · exact .inr ⟨hle, .inl ⟨heq, by omega⟩⟩
      · exact .inr ⟨hle, .inr (.inl ⟨hlt', .inr hkept⟩)⟩
    · rintro (hshrink | ⟨-, ⟨heq, -⟩ | ⟨hlt', hbig' | hkept⟩ | ⟨-, hbig'⟩⟩)
      · exact absurd hshrink.1 (Nat.not_lt.mpr hle)
      · exact .inl heq
      · exact absurd hbig' hbig
      · exact .inr ⟨hlt', hkept⟩
      · exact absurd hbig' hbig

/-- `heap_realloc` resizes a block in place and keeps the chain in order just in these cases. -/
theorem heap_realloc_resizes_iff (hc : Chain h.mem lo hi (l₁ ++ p :: l₂)) (htop : hi < 4294967296)
    (hask : Asked p count l₂) :
    wp (heapRealloc (heapData p.addr) count) noFault (Goal h lo hi p count) h ↔ ResizesWell h.mem p count l₂ := by
  by_cases hlt : count < p.size
  · exact realloc_smaller_iff hc hlt
  by_cases hsome : ∃ n l, l₂ = n :: l ∧ n.Free
  · obtain ⟨n, l, rfl, hfree⟩ := hsome
    refine realloc_larger_iff hc htop (by omega) hfree ?_
    rcases hask with hle | ⟨d, hd, -, hle⟩
    · omega
    · obtain rfl : n = d := Option.some.inj hd
      exact hle
  · have hused : ∀ n, l₂.head? = some n → ¬n.Free := fun n hn hfree => by
      obtain ⟨l, rfl⟩ := List.head?_eq_some_iff.mp hn
      exact hsome ⟨n, l, rfl, hfree⟩
    obtain rfl : count = p.size := by
      rcases hask with hle | ⟨d, hd, hfree, -⟩
      · omega
      · exact absurd hfree (hused d hd)
    exact realloc_same_iff hc hused

end Whole

theorem heap_realloc_resizes_pair : wp (heapRealloc (heapData 0x1000) 200) noFault
    (Goal pairHeap 0x1000 0x10D8 usedCell 200) pairHeap :=
  have hc : Chain pairHeap.mem 0x1000 0x10D8 ([] ++ usedCell :: [freeCell]) := pairHeap_coalesced.chain
  (heap_realloc_resizes_iff hc (by decide) (.inr ⟨freeCell, rfl, by decide, by decide⟩)).mpr
    ⟨by decide, .inr ⟨by decide, by decide, .inl ⟨by decide, by decide⟩⟩⟩

def loneHeap : HeapMem := ⟨writeHead (fun _ => 0) usedCell 0 0, fun i => if i = 0 then 0x1000 else 0⟩

/-- To ask for the size that a block has is a panic. -/
theorem heap_realloc_panics_on_same_size : Chain loneHeap.mem 0x1000 0x1064 [usedCell] ∧ ¬usedCell.Free ∧
    ∃ count ≤ usedCell.size, (heapRealloc (heapData 0x1000) count loneHeap).map Prod.fst = .error (.panic "NYI\n") := by
  refine ⟨⟨by decide, by decide, ⟨⟨?_, ?_, ?_⟩, trivial⟩, ⟨?_, trivial⟩, ⟨rfl, rfl⟩⟩, by decide, 84, by decide, ?_⟩
  all_goals decide +kernel

end YggKernel.Heap
