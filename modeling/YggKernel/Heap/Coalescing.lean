import Mathlib.Data.Nat.Bitwise
import YggKernel.Heap.Cells

namespace YggKernel.Heap

open Lib.Program Lib.ByteMemory Lib.Chains

/-- The blocks of a list fill the room from `lo` to `hi` and are linked both ways. -/
structure Chain (m : Mem) (lo hi : Nat) (l : List Cell) : Prop where
  pos : 0 < lo
  top : hi ≤ 4294967296
  linked : Linked Cell.addr (HeadAt m) l 0
  backs : LinkedBack Cell.addr (fun c p => prevAt m c.addr = p) 0 l
  tiled : Tiled Cell.addr Cell.fin lo l hi

def total (l : List Cell) : Nat := (l.map fun c => c.size + heapBlockSize).sum

theorem tiled_total {lo hi : Nat} {l : List Cell} (h : Tiled Cell.addr Cell.fin lo l hi) : lo + total l = hi := by
  induction l generalizing lo with
  | nil => exact h
  | cons c l ih =>
    have hrest := ih h.2
    rw [← h.1, ← hrest, total, total, List.map_cons, List.sum_cons, Cell.fin]
    omega

def DataKept (m m' : Mem) (l : List Cell) : Prop := ∀ c ∈ l, ∀ x, c.addr + 16 ≤ x → x < c.fin → m' x = m x

section Chains

variable {m m' : Mem} {lo hi a e : Nat} {l l₁ l₂ mid mid' : List Cell} {b c : Cell}

theorem Chain.parts (h : Chain m lo hi (l₁ ++ (mid ++ l₂))) : ∃ a e, Tiled Cell.addr Cell.fin lo l₁ a ∧
    Tiled Cell.addr Cell.fin a mid e ∧ Tiled Cell.addr Cell.fin e l₂ hi := by
  obtain ⟨a, h₁, h'⟩ := tiled_append.mp h.tiled
  obtain ⟨e, hmid, h₂⟩ := tiled_append.mp h'
  exact ⟨a, e, h₁, hmid, h₂⟩

theorem tiled_mem {x : Cell} (h : Tiled Cell.addr Cell.fin lo l hi) (hx : x ∈ l) : lo ≤ x.addr ∧ x.fin ≤ hi :=
  h.ordered.mem (fun y _ => y.le_fin) hx

theorem tiled_le (h : Tiled Cell.addr Cell.fin lo l hi) : lo ≤ hi := h.ordered.le fun y _ => y.le_fin

/-- The first of some blocks is at their start, and the others are behind its header. -/
theorem tiled_first {x : Cell} (h : Tiled Cell.addr Cell.fin lo l hi) (hx : x ∈ l) : x.addr = lo ∨ lo + 16 ≤ x.addr := by
  cases l with
  | nil => cases hx
  | cons d l =>
    rcases List.mem_cons.mp hx with rfl | hx
    · exact .inl h.1
    · have hlo := (tiled_mem h.2 hx).1
      have hd := h.1
      unfold Cell.fin heapBlockSize at hlo
      exact .inr (by omega)

theorem last_ne_nil (hne : l ≠ []) (p q : Nat) : last Cell.addr p l = last Cell.addr q l := by
  cases l with
  | nil => exact absurd rfl hne
  | cons c l => rfl

/-- Some neighbours are replaced by others that fill the same room. Outside of it only the back
link of the block that follows is written. -/
theorem Chain.splice (mid' : List Cell) (h : Chain m lo hi (l₁ ++ (mid ++ l₂))) (h₁ : Tiled Cell.addr Cell.fin lo l₁ a)
    (hmid : Tiled Cell.addr Cell.fin a mid e) (h₂ : Tiled Cell.addr Cell.fin e l₂ hi) (hne : mid ≠ []) (hne' : mid' ≠ [])
    (hmid' : Tiled Cell.addr Cell.fin a mid' e) (hlinked : Linked Cell.addr (HeadAt m') mid' (first Cell.addr l₂ 0))
    (hbacks : LinkedBack Cell.addr (fun c p => prevAt m' c.addr = p) (last Cell.addr 0 l₁) mid')
    (hout : ∀ x, x < a ∨ e ≤ x → l₂ = [] ∨ x < e + 8 ∨ e + 12 ≤ x → m' x = m x)
    (hprev : l₂ ≠ [] → prevAt m' e = last Cell.addr 0 mid') : Chain m' lo hi (l₁ ++ (mid' ++ l₂)) := by
  obtain ⟨hpos, htop, hlink, hback, -⟩ := h
  simp only [linked_append, linkedBack_append, first_append] at hlink hback
  obtain ⟨hlink₁, -, hlink₂⟩ := hlink
  obtain ⟨hback₁, -, hback₂⟩ := hback
  have hfirst : first Cell.addr mid' (first Cell.addr l₂ 0) = first Cell.addr mid (first Cell.addr l₂ 0) := by
    rw [hmid'.first_eq, hmid.first_eq, if_neg hne, if_neg hne']
  have hbefore : ∀ d ∈ l₁, ∀ x, d.addr ≤ x → x < d.addr + 16 → m' x = m x := by
    intro d hd x h1 h2
    have hfin := (tiled_mem h₁ hd).2
    have hle := tiled_le hmid
    unfold Cell.fin heapBlockSize at hfin
    exact hout x (.inl (by omega)) (.inr (.inl (by omega)))
  have hbehind : ∀ d ∈ l₂, ∀ x, d.addr ≤ x → (x < d.addr + 8 ∨ d.addr + 12 ≤ x) → x < d.addr + 16 → m' x = m x := by
    intro d hd x h1 h2 h3
    have hlo := (tiled_mem h₂ hd).1
    have hfirst := tiled_first h₂ hd
    exact hout x (.inr (by omega)) (.inr (by omega))
  refine ⟨hpos, htop, ?_, ?_, tiled_append.mpr ⟨a, h₁, tiled_append.mpr ⟨e, hmid', h₂⟩⟩⟩
  · rw [linked_append, linked_append, first_append, hfirst]
    refine ⟨hlink₁.imp fun d hd n hn => ?_, hlinked, hlink₂.imp fun d hd n hn => ?_⟩
    · exact hn.congr fun x h1 h2 _ => hbefore d hd x h1 h2
    · exact hn.congr fun x h1 h2 h3 => hbehind d hd x h1 h3 h2
  · rw [linkedBack_append, linkedBack_append]
    refine ⟨hback₁.imp fun d hd n hn => ?_, hbacks, ?_⟩
    · rw [← hn]
      exact load32_congr fun x h1 h2 => hbefore d hd x (by omega) (by simp only [offPrev] at h2; omega)
    · cases l₂ with
      | nil => trivial
      | cons d l₂ =>
        refine ⟨?_, hback₂.2.imp fun y hy n hn => ?_⟩
        · change prevAt m' d.addr = _
          rw [h₂.1, hprev (by simp), last_ne_nil hne']
        · rw [← hn]
          have hy' := (tiled_mem h₂.2 hy).1
          have hd := h₂.1
          unfold Cell.fin heapBlockSize at hy'
          refine load32_congr fun x h1 h2 => ?_
          simp only [offPrev] at h1 h2
          exact hout x (.inr (by omega)) (.inr (.inr (by omega)))

theorem Chain.head (h : Chain m lo hi (l₁ ++ b :: l₂)) : HeadAt m b (first Cell.addr l₂ 0) := h.linked.at_of_append

theorem Chain.prev (h : Chain m lo hi (l₁ ++ b :: l₂)) : prevAt m b.addr = last Cell.addr 0 l₁ := h.backs.at_of_append

theorem Chain.place (h : Chain m lo hi (l₁ ++ b :: l₂)) : Tiled Cell.addr Cell.fin lo l₁ b.addr ∧
    Tiled Cell.addr Cell.fin b.fin l₂ hi ∧ 0 < b.addr ∧ b.fin ≤ 4294967296 := by
  obtain ⟨a, h₁, hb, h₂⟩ := tiled_append.mp h.tiled
  obtain rfl := hb
  have hlo := tiled_le h₁
  have hhi := tiled_le h₂
  have hpos := h.pos
  have htop := h.top
  exact ⟨h₁, h₂, by omega, by omega⟩

theorem Chain.next (h : Chain m lo hi (l₁ ++ b :: c :: l₂)) : c.addr = b.fin := h.place.2.1.1

theorem Chain.mergeable (h : Chain m lo hi (l₁ ++ b :: c :: l₂)) (hc : c.Free) :
    Mergeable m b c (first Cell.addr l₂ 0) := by
  have h' : Chain m lo hi ((l₁ ++ [b]) ++ c :: l₂) := by simpa using h
  obtain ⟨-, h₂, hpos, hfin⟩ := h'.place
  have hnext := h.next
  have hb := h.place.2.2.1
  unfold Cell.fin heapBlockSize at hnext hfin
  refine ⟨h.head, h'.head, hc, by omega, fun h0 => ?_, by omega⟩
  rw [h₂.first_eq] at h0 ⊢
  split at h0
  · exact absurd rfl h0
  · rw [if_neg ‹_›, Cell.fin, heapBlockSize]
    omega

theorem Chain.merge (h : Chain m lo hi (l₁ ++ b :: c :: l₂)) (hm : Merged m m' b c (first Cell.addr l₂ 0)) :
    Chain m' lo hi (l₁ ++ b.join c :: l₂) ∧ DataKept m m' (l₁ ++ l₂) ∧ ∀ x, x < b.addr → m' x = m x := by
  obtain ⟨h₁, hrest, hbpos, -⟩ := h.place
  obtain ⟨hc, h₂⟩ := hrest
  have hmid : Tiled Cell.addr Cell.fin b.addr [b, c] c.fin := ⟨rfl, hc, rfl⟩
  have hfin : (b.join c).fin = c.fin := by
    simp only [Cell.fin, Cell.join, heapBlockSize] at hc ⊢
    omega
  have hbc : b.addr + 16 + b.size = c.addr := hc.symm
  have hcle : c.addr + 16 ≤ c.fin := by
    unfold Cell.fin heapBlockSize
    omega
  have hnx : first Cell.addr l₂ 0 = if l₂ = [] then 0 else c.fin := h₂.first_eq 0
  have hout : ∀ x, x < b.addr ∨ c.fin ≤ x → l₂ = [] ∨ x < c.fin + 8 ∨ c.fin + 12 ≤ x → m' x = m x := by
    intro x hx hl
    refine hm.rest x (by omega) (by omega) (by omega) fun h0 => ?_
    rw [hnx] at h0 ⊢
    split at h0
    · exact absurd rfl h0
    · rename_i hne
      rw [if_neg hne]
      exact hl.resolve_left hne
  have hprev : prevAt m' b.addr = prevAt m b.addr := by
    refine load32_congr fun x h1 h2 => ?_
    simp only [offPrev] at h1 h2
    refine hm.rest x (by omega) (by omega) (by omega) fun h0 => ?_
    rw [hnx] at h0 ⊢
    split at h0
    · exact absurd rfl h0
    · rw [if_neg ‹_›]
      omega
  have hsplice : Chain m lo hi (l₁ ++ ([b, c] ++ l₂)) := h
  refine ⟨hsplice.splice [b.join c] h₁ hmid h₂ (by simp) (by simp) ⟨rfl, hfin⟩ ⟨hm.header, trivial⟩ ?_ hout
    fun hne => ?_, fun d hd x h1 h2 => ?_, fun x hx => hout x (.inl hx) (.inr (.inl (by omega)))⟩
  · exact ⟨hprev.trans h.prev, trivial⟩
  · rw [← if_neg (c := l₂ = []) hne (t := 0) (e := c.fin), ← hnx]
    refine hm.prev ?_
    rw [hnx, if_neg hne]
    omega
  · rcases List.mem_append.mp hd with hd | hd
    · have hd' := (tiled_mem h₁ hd).2
      exact hout x (.inl (by omega)) (.inr (.inl (by omega)))
    · have hd' := (tiled_mem h₂ hd).1
      exact hout x (.inr (by omega)) (.inr (.inr (by omega)))

theorem Chain.head_lt (h : Chain m lo hi (l₁ ++ b :: l₂)) : b.addr + 16 + b.size ≤ 4294967296 := h.place.2.2.2

theorem Chain.mark (h : Chain m lo hi (l₁ ++ b :: l₂)) {flags : Nat} (hlt : flags < 4294967296) :
    Chain (store32 m b.addr flags) lo hi (l₁ ++ { b with flags := flags } :: l₂) ∧
      ∀ x, x < b.addr ∨ b.addr + 4 ≤ x → store32 m b.addr flags x = m x := by
  obtain ⟨h₁, h₂, -, -⟩ := h.place
  obtain ⟨-, hsize, hnext⟩ := h.head
  have hout : ∀ x, x < b.addr ∨ b.addr + 4 ≤ x → store32 m b.addr flags x = m x :=
    fun x hx => store32_apply_of_outside hx
  have hle : b.addr + 16 ≤ b.fin := by
    unfold Cell.fin heapBlockSize
    omega
  have hsplice : Chain m lo hi (l₁ ++ ([b] ++ l₂)) := h
  refine ⟨hsplice.splice [{ b with flags := flags }] h₁ ⟨rfl, rfl⟩ h₂ (by simp) (by simp) ⟨rfl, rfl⟩
    ⟨⟨?_, ?_, ?_⟩, trivial⟩ ⟨?_, trivial⟩ (fun x hx _ => hout x (by omega)) fun hne => ?_, hout⟩
  · exact load32_store32 hlt
  · rw [load32_store32_of_disjoint (by simp only [offSize]; omega)]
    exact hsize
  · rw [load32_store32_of_disjoint (by simp only [offNext]; omega)]
    exact hnext
  · exact (load32_store32_of_disjoint (by simp only [offPrev]; omega)).trans h.prev
  · obtain ⟨d, l, rfl⟩ := List.exists_cons_of_ne_nil hne
    have h' : Chain m lo hi ((l₁ ++ [b]) ++ d :: l) := by simpa using h
    rw [← h₂.1]
    refine (load32_store32_of_disjoint ?_).trans (h'.prev.trans (by rw [last_append]; rfl))
    have hd := h₂.1
    simp only [offPrev]
    omega

end Chains

def Parted (l : List Cell) : Prop := l.IsChain fun c d => ¬(c.Free ∧ d.Free)

instance (l : List Cell) : Decidable (Parted l) := inferInstanceAs (Decidable (l.IsChain _))

structure Coalesced (m : Mem) (lo hi : Nat) (l : List Cell) : Prop where
  chain : Chain m lo hi l
  magic : ∀ c ∈ l, c.Magic
  parted : Parted l

section Freeing

variable {h : HeapMem} {lo hi : Nat} {l₁ l₂ : List Cell} {b c : Cell}

theorem heapData_sub {a : Nat} (h : a < 4294967296) : sub32 (heapData a) heapBlockSize = a := by
  unfold heapData sub32 u32 heapBlockSize
  omega

theorem wp_joinNext_chain (hc : Chain h.mem lo hi (l₁ ++ b :: l₂)) (hap : Parted l₂) :
    wp (joinNext b.addr) noFault (fun _ t => t.regions = h.regions ∧ ∃ ns k₂ f, l₂ = ns ++ k₂ ∧ (∀ c ∈ ns, c.Free) ∧
      (∀ c ∈ k₂.head?, ¬c.Free) ∧ f.addr = b.addr ∧ f.flags = b.flags ∧ Chain t.mem lo hi (l₁ ++ f :: k₂) ∧
      DataKept h.mem t.mem (l₁ ++ k₂)) h := by
  have hnone : (∀ c ∈ l₂.head?, ¬c.Free) → h.regions = h.regions ∧ ∃ ns k₂ f, l₂ = ns ++ k₂ ∧ (∀ c ∈ ns, c.Free) ∧
      (∀ c ∈ k₂.head?, ¬c.Free) ∧ f.addr = b.addr ∧ f.flags = b.flags ∧ Chain h.mem lo hi (l₁ ++ f :: k₂) ∧
      DataKept h.mem h.mem (l₁ ++ k₂) := fun hhead =>
    ⟨rfl, [], l₂, b, rfl, by simp, hhead, rfl, rfl, hc, fun _ _ _ _ _ => rfl⟩
  have hnext := hc.head.next
  cases l₂ with
  | nil =>
    rw [joinNext, wp_bind, wp_field, hnext, first_nil, if_neg (by simp), wp_pure]
    exact hnone (by simp)
  | cons c l₂ =>
    have hc' : Chain h.mem lo hi ((l₁ ++ [b]) ++ c :: l₂) := by simpa using hc
    by_cases hfree : c.Free
    · refine wp_imp (wp_joinNext_cells (hc.mergeable hfree)) ?_
      rintro _ t ⟨hregs, hm⟩
      obtain ⟨hchain, hdata, -⟩ := hc.merge hm
      refine ⟨hregs, [c], l₂, b.join c, rfl, by simpa using hfree, fun d hd hdfree => ?_, rfl, rfl, hchain, hdata⟩
      cases l₂ with
      | nil => cases hd
      | cons e l₂ =>
        obtain rfl : e = d := Option.some.inj hd
        exact (List.isChain_cons_cons.mp hap).1 ⟨hfree, hdfree⟩
    · have hpos := hc'.place.2.2.1
      have hused : ¬c.flags &&& heapFlgUsed = 0 := hfree
      rw [joinNext, wp_bind, wp_field, hnext, first_cons, if_pos hpos.ne', wp_bind, wp_field, hc'.head.flags,
        if_neg hused, wp_pure]
      exact hnone (by simpa using hfree)

theorem wp_joinPrev_chain {f : Cell} (hc : Chain h.mem lo hi (l₁ ++ f :: l₂)) (hap : Parted l₁) (hfree : f.Free) :
    wp (joinPrev f.addr) noFault (fun _ t => t.regions = h.regions ∧ ∃ k₁ ps g, l₁ = k₁ ++ ps ∧ (∀ c ∈ ps, c.Free) ∧
      (∀ c ∈ k₁.getLast?, ¬c.Free) ∧ g.Free ∧ (g.flags = f.flags ∨ ∃ p ∈ ps, g.flags = p.flags) ∧
      Chain t.mem lo hi (k₁ ++ g :: l₂) ∧ DataKept h.mem t.mem (k₁ ++ l₂)) h := by
  have hnone : (∀ c ∈ l₁.getLast?, ¬c.Free) → h.regions = h.regions ∧ ∃ k₁ ps g, l₁ = k₁ ++ ps ∧ (∀ c ∈ ps, c.Free) ∧
      (∀ c ∈ k₁.getLast?, ¬c.Free) ∧ g.Free ∧ (g.flags = f.flags ∨ ∃ p ∈ ps, g.flags = p.flags) ∧
      Chain h.mem lo hi (k₁ ++ g :: l₂) ∧ DataKept h.mem h.mem (k₁ ++ l₂) := fun hlast =>
    ⟨rfl, l₁, [], f, (List.append_nil _).symm, by simp, hlast, hfree, .inl rfl, hc, fun _ _ _ _ _ => rfl⟩
  have hprev := hc.prev
  rcases List.eq_nil_or_concat' l₁ with rfl | ⟨k₁, p, rfl⟩
  · rw [last_nil] at hprev
    rw [joinPrev, wp_bind, wp_field, show load32 h.mem (f.addr + offPrev) = 0 from hprev, if_neg (by simp), wp_pure]
    exact hnone (by simp)
  · have hc' : Chain h.mem lo hi (k₁ ++ p :: f :: l₂) := by simpa using hc
    have hpos := hc'.place.2.2.1
    rw [last_append] at hprev
    by_cases hpfree : p.Free
    · refine wp_imp (wp_joinPrev_cells (hc'.mergeable hfree) hprev hpos.ne' hpfree) ?_
      rintro _ t ⟨hregs, hm⟩
      obtain ⟨hchain, hdata, -⟩ := hc'.merge hm
      refine ⟨hregs, k₁, [p], p.join f, rfl, by simpa using hpfree, fun d hd hdfree => ?_, hpfree,
        .inr ⟨p, by simp, rfl⟩, hchain, hdata⟩
      rcases List.eq_nil_or_concat' k₁ with rfl | ⟨k, e, rfl⟩
      · cases hd
      · obtain rfl : e = d := by simpa using hd
        rw [Parted, List.append_assoc] at hap
        exact (List.isChain_append_cons_cons.mp hap).2.1 ⟨hdfree, hpfree⟩
    · have hused : ¬p.flags &&& heapFlgUsed = 0 := hpfree
      rw [joinPrev, wp_bind, wp_field, show load32 h.mem (f.addr + offPrev) = p.addr from hprev, if_pos hpos.ne', wp_bind,
        wp_field, hc'.head.flags, if_neg hused, wp_pure]
      exact hnone (by simpa using hpfree)

/-- The memory of a chain before and after `b` was freed. One free block takes the place of it and
of its free neighbours. -/
def Freed (m m' : Mem) (lo hi : Nat) (l₁ : List Cell) (b : Cell) (l₂ : List Cell) : Prop :=
  ∃ k₁ ps g ns k₂, l₁ = k₁ ++ ps ∧ l₂ = ns ++ k₂ ∧ (∀ c ∈ ps ++ ns, c.Free) ∧ g.Free ∧
    Tiled Cell.addr Cell.fin g.addr (ps ++ b :: ns) g.fin ∧ Coalesced m' lo hi (k₁ ++ g :: k₂) ∧
    total (k₁ ++ g :: k₂) = total (l₁ ++ b :: l₂) ∧ DataKept m m' (k₁ ++ k₂)

theorem used_flags {b : Cell} (hb : ¬b.Free) : (b.flags ^^^ heapFlgUsed) &&& heapFlgUsed = 0 := by
  have hbit : b.flags.testBit 4 = true := by
    by_contra hclear
    refine hb ?_
    rw [Cell.Free, heapFlgUsed, Nat.shiftLeft_eq, Nat.one_mul, Nat.and_two_pow, Bool.eq_false_iff.mpr hclear]
    rfl
  refine Nat.eq_of_testBit_eq fun i => ?_
  rw [Nat.testBit_and, Nat.testBit_xor, heapFlgUsed, Nat.shiftLeft_eq, Nat.one_mul, Nat.testBit_two_pow]
  by_cases hi : 4 = i
  · subst hi
    simp [hbit]
  · simp [hi]

theorem magic_flags {b : Cell} (hb : b.Magic) : (b.flags ^^^ heapFlgUsed) &&& heapMagic = heapMagic := by
  rw [Nat.and_xor_distrib_right, show b.flags &&& heapMagic = heapMagic from hb]
  rfl

/-- `heap_free_single` merges the freed block with the free blocks on both sides of it. -/
theorem heap_free_coalesces {b : Cell} (hc : Coalesced h.mem lo hi (l₁ ++ b :: l₂)) (hb : ¬b.Free) :
    wp (heapFreeSingle (heapData b.addr)) noFault
      (fun ok t => ok = true ∧ t.regions = h.regions ∧ Freed h.mem t.mem lo hi l₁ b l₂) h := by
  obtain ⟨hchain, hmagic, hparted⟩ := hc
  have haddr : b.addr < 4294967296 := by
    have := hchain.head_lt
    omega
  have hbmagic : b.Magic := hmagic b (by simp)
  have hlt : b.flags ^^^ heapFlgUsed < 4294967296 :=
    Nat.xor_lt_two_pow (n := 32) hchain.head.flags_lt (by decide)
  obtain ⟨hpart₁, hpart₂⟩ := List.isChain_split.mp hparted
  have hparted₁ : Parted l₁ := (List.isChain_append.mp hpart₁).1
  have hparted₂ : Parted l₂ := hpart₂.tail
  have haccept : b.flags &&& heapMagic = heapMagic ∧ b.flags &&& heapFlgUsed ≠ 0 := ⟨hbmagic, hb⟩
  rw [heapFreeSingle, heapData_sub haddr, wp_bind, wp_field, hchain.head.flags, if_pos haccept, wp_bind, wp_setField]
  obtain ⟨hmarked, hsame⟩ := hchain.mark hlt
  rw [wp_bind]
  refine wp_imp (wp_joinNext_chain (b := ⟨b.addr, b.size, b.flags ^^^ heapFlgUsed⟩) hmarked hparted₂) ?_
  rintro _ t ⟨hregs, ns, k₂, f, rfl, hns, hhead, hfaddr, hfflags, hchain₂, hdata₂⟩
  have hfree : f.Free := by
    rw [Cell.Free, hfflags]
    exact used_flags hb
  have hfmagic : f.Magic := by
    rw [Cell.Magic, hfflags]
    exact magic_flags hbmagic
  rw [wp_bind, ← hfaddr]
  refine wp_imp (wp_joinPrev_chain hchain₂ hparted₁ hfree) ?_
  rintro _ u ⟨hregs', k₁, ps, g, rfl, hps, hlast, hgfree, hgflags, hchain₃, hdata₃⟩
  rw [wp_pure]
  refine ⟨rfl, hregs'.trans hregs, k₁, ps, g, ns, k₂, rfl, rfl, fun c hc => ?_, hgfree, ?_, ⟨hchain₃, ?_, ?_⟩, ?_, ?_⟩
  · exact (List.mem_append.mp hc).elim (hps c) (hns c)
  · have hwhole : Chain h.mem lo hi (k₁ ++ ((ps ++ b :: ns) ++ k₂)) := by simpa using hchain
    obtain ⟨a, e, h₁, hmid, h₂⟩ := hwhole.parts
    obtain ⟨h₁', h₂', -, -⟩ := hchain₃.place
    obtain rfl : a = g.addr := (tiled_total h₁).symm.trans (tiled_total h₁')
    obtain rfl : e = g.fin := Nat.add_right_cancel ((tiled_total h₂).trans (tiled_total h₂').symm)
    exact hmid
  · intro c hc
    rcases List.mem_append.mp hc with hc | hc
    · exact hmagic c (by simp [hc])
    · rcases List.mem_cons.mp hc with rfl | hc
      · rcases hgflags with hg | ⟨p, hp, hg⟩
        · rw [Cell.Magic, hg]
          exact hfmagic
        · rw [Cell.Magic, hg]
          exact hmagic p (by simp [hp])
      · exact hmagic c (by simp [hc])
  · refine List.isChain_append.mpr ⟨(List.isChain_append.mp hparted₁).1, List.isChain_cons.mpr
      ⟨fun y hy hfree => hhead y hy hfree.2, (List.isChain_append.mp hparted₂).2.1⟩, fun x hx y _ hfree => ?_⟩
    exact hlast x hx hfree.1
  · have hnew := tiled_total hchain₃.tiled
    have hold := tiled_total hchain.tiled
    omega
  · intro c hc x h1 h2
    obtain ⟨h₁, h₂, -, -⟩ := hchain.place
    have hout : x < b.addr ∨ b.addr + 4 ≤ x := by
      rcases List.mem_append.mp hc with hc | hc
      · have hle := (tiled_mem h₁ (x := c) (by simp [hc])).2
        exact .inl (by omega)
      · have hle := (tiled_mem h₂ (x := c) (by simp [hc])).1
        unfold Cell.fin heapBlockSize at hle
        exact .inr (by omega)
    have hmem : c ∈ k₁ ++ ps ++ k₂ := by
      rcases List.mem_append.mp hc with hc | hc <;> simp [hc]
    rw [hdata₃ c hc x h1 h2, hdata₂ c hmem x h1 h2]
    exact hsame x hout

end Freeing

theorem pairHeap_coalesced : Coalesced pairHeap.mem 0x1000 0x10D8 [usedCell, freeCell] := by
  refine ⟨⟨by decide, by decide, ⟨⟨?_, ?_, ?_⟩, ⟨?_, ?_, ?_⟩, trivial⟩, ⟨?_, ?_, trivial⟩, ⟨rfl, rfl, rfl⟩⟩, ?_, ?_⟩
  all_goals decide +kernel

theorem heap_free_coalesces_pair : wp (heapFreeSingle (heapData 0x1000)) noFault
    (fun ok t => ok = true ∧ t.regions = pairHeap.regions ∧
      Freed pairHeap.mem t.mem 0x1000 0x10D8 [] usedCell [freeCell]) pairHeap :=
  @heap_free_coalesces pairHeap 0x1000 0x10D8 [] [freeCell] usedCell pairHeap_coalesced (by decide)

end YggKernel.Heap
