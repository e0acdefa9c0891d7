import YggKernel.Heap.Blocks
import YggKernel.Heap.FirstFit

namespace YggKernel.Heap

open Lib.Program Lib.ByteMemory Lib.Chains

def payloads (l : List Block) : List (Nat × Nat) :=
  (l.filter (·.used)).map fun b => (b.addr + 16, b.size)

@[simp] theorem payloads_nil : payloads [] = [] := rfl

@[simp] theorem payloads_append (l l' : List Block) :
    payloads (l ++ l') = payloads l ++ payloads l' := by
  simp [payloads]

theorem payloads_used {b : Block} (h : b.used = true) (l : List Block) :
    payloads (b :: l) = (b.addr + 16, b.size) :: payloads l := by
  simp [payloads, h]

theorem payloads_free {b : Block} (h : b.used = false) (l : List Block) :
    payloads (b :: l) = payloads l := by
  simp [payloads, h]

theorem mem_payloads {l : List Block} {p count : Nat} :
    (p, count) ∈ payloads l ↔ ∃ b ∈ l, b.used = true ∧ p = b.addr + 16 ∧ count = b.size := by
  simp only [payloads, List.mem_map, List.mem_filter, Prod.mk.injEq]
  constructor
  · rintro ⟨b, ⟨hb, hu⟩, rfl, rfl⟩
    exact ⟨b, hb, hu, rfl, rfl⟩
  · rintro ⟨b, hb, hu, rfl, rfl⟩
    exact ⟨b, ⟨hb, hu⟩, rfl, rfl⟩

def SameOutside (m m' : Mem) (lo hi : Nat) : Prop := ∀ x, x < lo ∨ hi ≤ x → m' x = m x

def Block.Fits (count : Nat) (b : Block) : Prop := b.used = false ∧ count ≤ b.size

/-- What stands in the place of a free block that was used for `count` bytes. -/
def Block.carve (count : Nat) (b : Block) : List Block :=
  ⟨b.addr, count, true⟩ :: if b.size < count + 16 then [] else [b.remainder count]

structure Carved (count lo hi : Nat) (l₁ : List Block) (b : Block) (l₂ : List Block) (h : HeapMem) (p : Nat)
    (t : HeapMem) : Prop where
  fits : b.Fits count
  result : p = b.addr + 16
  regions : t.regions = h.regions
  outside : SameOutside h.mem t.mem lo hi
  region : Region t.mem lo hi (l₁ ++ (b.carve count ++ l₂))

theorem payloads_carve {count : Nat} (b : Block) : payloads (b.carve count) = [(b.addr + 16, count)] := by
  have hrest : payloads (if b.size < count + 16 then [] else [b.remainder count]) = [] := by
    split
    · rfl
    · exact payloads_free rfl []
  rw [Block.carve, payloads_used rfl, hrest]

variable {h : HeapMem} {lo hi count : Nat} {l₁ l₂ : List Block} {b : Block}

theorem ordered_of_apart {l : List Block} (hap : l.Pairwise fun b c => b.fin ≤ c.addr) {lo : Nat} (hle : lo ≤ hi)
    (hin : ∀ b ∈ l, lo ≤ b.addr ∧ b.fin ≤ hi) : Ordered Cell.addr Cell.fin lo (l.map Block.cell) hi := by
  induction l generalizing lo with
  | nil => exact hle
  | cons b l ih =>
    rw [List.pairwise_cons] at hap
    have hb := hin b (List.mem_cons_self ..)
    exact ⟨hb.1, ih hap.2 hb.2 fun c hc => ⟨hap.1 c hc, (hin c (List.mem_cons_of_mem _ hc)).2⟩⟩

theorem Region.zone {m : Mem} {l : List Block} (hR : Region m lo hi l) : ZoneAt m ⟨lo, hi, l.map Block.cell⟩ := by
  have hne : l ≠ [] := by
    rintro rfl
    exact absurd hR.start (Nat.ne_of_lt hR.pos)
  obtain ⟨b, hb⟩ := List.exists_mem_of_ne_nil l hne
  obtain ⟨hlo, hhi⟩ := hR.within b hb
  refine ⟨hR.pos, hR.top, ?_, ?_, ordered_of_apart hR.apart ?_ hR.within⟩
  · rw [first_map]
    exact hR.start
  · rw [linked_map]
    exact hR.linked.imp fun c _ n hc => hc.head
  · have hle : lo ≤ hi := hlo.trans (by unfold Block.fin at hhi; omega)
    exact hle

theorem Region.length_le {m : Mem} {l : List Block} (hR : Region m lo hi l) : lo + 16 * l.length ≤ hi := by
  simpa using ordered_length hR.zone.ordered

theorem fits_cell : b.cell.Fits count ↔ b.Fits count := and_congr_left' (flags_free b)

theorem carve_cell (hb : b.used = false) : b.cell.carve count = (b.carve count).map Block.cell := by
  have hflags : b.flags ||| heapFlgUsed = (⟨b.addr, count, true⟩ : Block).flags := by
    simp [Block.flags, hb]
  have htake : b.cell.take count = (⟨b.addr, count, true⟩ : Block).cell := congrArg (Cell.mk b.addr count) hflags
  have hsize : b.cell.size = b.size := rfl
  rw [Cell.carve, Block.carve, htake, hsize]
  by_cases hwhole : b.size < count + 16
  · rw [if_pos hwhole, if_pos hwhole]
    rfl
  · rw [if_neg hwhole, if_neg hwhole]
    rfl

theorem carved_of_taken {p : Nat} {t : HeapMem} (hR : Region h.mem lo hi (l₁ ++ b :: l₂))
    (ht : Taken count h lo hi (l₁.map Block.cell) b.cell (l₂.map Block.cell) p t) : Carved count lo hi l₁ b l₂ h p t := by
  have hfits := fits_cell.mp ht.fits
  obtain ⟨_, _, hlo, hhi⟩ := hR.around
  have hlink := ht.zone.linked
  rw [carve_cell hfits.1, ← List.map_append, ← List.map_append, linked_map, Block.carve] at hlink
  refine ⟨hfits, ht.result, ht.regions, fun x hx => ht.same x ?_, ?_⟩
  · rcases hx with hx | hx
    · exact .inl (hx.trans_le hlo)
    · exact .inr (.inl (hhi.trans hx))
  · rw [Block.carve]
    by_cases hwhole : b.size < count + 16
    · rw [if_pos hwhole] at hlink ⊢
      exact hR.update rfl hfits.2 (headerAt_of_head hlink.at_of_append) ht.same
    · rw [if_neg hwhole] at hlink ⊢
      have hrest : Linked (Cell.addr ∘ Block.cell) (fun c n => HeadAt t.mem c.cell n)
          ((l₁ ++ [⟨b.addr, count, true⟩]) ++ b.remainder count :: l₂) 0 := by
        rwa [List.append_assoc]
      exact hR.split (by omega) (headerAt_of_head hlink.at_of_append) (headerAt_of_head hrest.at_of_append)
        (ht.back (show count + 16 ≤ b.size by omega)) ht.same

/-- The back link of a block may be followed when it is freed: it is unset, or leads
to a used block, or to one of the blocks before whose successor may be taken in. -/
def BackLinkGood (m : Mem) (l₁ : List Block) (b : Block) : Prop :=
  prevAt m b.addr = 0 ∨ load32 m (prevAt m b.addr + offFlags) &&& heapFlgUsed ≠ 0 ∨
    ∃ k₁ p k₂, l₁ = k₁ ++ p :: k₂ ∧ p.addr = prevAt m b.addr ∧ ∀ c ∈ k₂.head?, c.used = false

def Block.absorb (b : Block) : List Block → List Block
  | [] => [b]
  | c :: l => if c.used then b :: c :: l else b.join c :: l

def Block.freed (b : Block) : Block := ⟨b.addr, b.size, false⟩

@[simp] theorem freed_addr (b : Block) : b.freed.addr = b.addr := rfl

@[simp] theorem freed_size (b : Block) : b.freed.size = b.size := rfl

theorem absorb_cons (b : Block) (l : List Block) : ∃ b' l', b.absorb l = b' :: l' ∧ b'.addr = b.addr ∧ b'.used = b.used := by
  cases l with
  | nil => exact ⟨b, [], rfl, rfl, rfl⟩
  | cons c l =>
    cases hc : c.used with
    | true => exact ⟨b, c :: l, by rw [Block.absorb, hc]; rfl, rfl, rfl⟩
    | false => exact ⟨b.join c, l, by rw [Block.absorb, hc]; rfl, rfl, rfl⟩

theorem payloads_absorb {b : Block} (hb : b.used = false) (l : List Block) : payloads (b.absorb l) = payloads l := by
  cases l with
  | nil => exact payloads_free hb []
  | cons c l =>
    cases hc : c.used with
    | true =>
      rw [Block.absorb, hc]
      exact payloads_free hb (c :: l)
    | false =>
      have hjoin : (b.join c).used = false := hb
      rw [Block.absorb, hc, payloads_free hc]
      exact payloads_free hjoin l

/-- What the step back from a freed block makes of the blocks of its region: nothing, or the block its back link
leads to takes in what is behind that one. -/
inductive SteppedBack (m : Mem) (a : Nat) (l : List Block) : List Block → Prop
  | stay (h : prevAt m a = 0 ∨ load32 m (prevAt m a + offFlags) &&& heapFlgUsed ≠ 0) : SteppedBack m a l l
  | join (k₁ : List Block) (p c : Block) (k₂ : List Block) (hl : l = k₁ ++ p :: c :: k₂) (hp : p.addr = prevAt m a)
    (hpfree : p.used = false) (hcfree : c.used = false) : SteppedBack m a l (k₁ ++ p.join c :: k₂)

theorem SteppedBack.congr {m m' : Mem} {a : Nat} {l l' : List Block} (h : SteppedBack m' a l l')
    (hprev : prevAt m' a = prevAt m a)
    (hflags : prevAt m a ≠ 0 → load32 m' (prevAt m a + offFlags) = load32 m (prevAt m a + offFlags)) :
    SteppedBack m a l l' := by
  cases h with
  | stay h =>
    rw [hprev] at h
    refine .stay (or_iff_not_imp_left.mpr fun h0 => ?_)
    rw [← hflags h0]
    exact h.resolve_left h0
  | join k₁ p c k₂ hl hp hpfree hcfree => exact .join k₁ p c k₂ hl (hp.trans hprev) hpfree hcfree

theorem SteppedBack.payloads_eq {m : Mem} {a : Nat} {l l' : List Block} (h : SteppedBack m a l l') :
    payloads l' = payloads l := by
  cases h with
  | stay h => rfl
  | join k₁ p c k₂ hl hp hpfree hcfree =>
    have hjoin : (p.join c).used = false := hpfree
    rw [hl, payloads_append, payloads_append, payloads_free hjoin, payloads_free hpfree, payloads_free hcfree]

/-- After taking in a free block behind, the region still holds the blocks before
and the freed one, and nothing below that one has changed. -/
theorem wp_joinNext_region (hR : Region h.mem lo hi (l₁ ++ b :: l₂)) :
    wp (joinNext b.addr) noFault (fun _ t => t.regions = h.regions ∧
      (∀ x, x < b.addr ∨ hi ≤ x → t.mem x = h.mem x) ∧ prevAt t.mem b.addr = prevAt h.mem b.addr ∧
      Region t.mem lo hi (l₁ ++ b.absorb l₂)) h := by
  obtain ⟨hbf, hbs, hbn⟩ := hR.linked.at_of_append
  cases l₂ with
  | nil =>
    rw [joinNext, wp_bind, wp_field, hbn]
    exact ⟨rfl, fun _ _ => rfl, rfl, hR⟩
  | cons c l₂ =>
    cases hc : c.used with
    | true =>
      have hR' : Region h.mem lo hi ((l₁ ++ [b]) ++ c :: l₂) := by simpa using hR
      have hcf := hR'.linked.at_of_append.flags
      have hc0 : c.addr ≠ 0 := by
        have := hR.pos
        have := (hR.within c (by simp)).1
        omega
      have hcu : c.flags &&& heapFlgUsed ≠ 0 := (flags_used c).mpr hc
      simp only [joinNext, wp_bind, wp_field, hbn, first_cons, hc0, hcf, hcu, ne_eq,
        not_false_eq_true, if_true, if_false, wp_pure]
      rw [Block.absorb, hc]
      exact ⟨trivial, fun _ _ => trivial, trivial, hR⟩
    | false =>
      refine wp_imp (wp_joinNext (hR.joinable hc)) ?_
      rintro _ t ⟨hregs, hj⟩
      rw [Block.absorb, hc]
      exact ⟨hregs, fun x hx => hR.joined_rest hj (hx.imp_right .inr), hR.joined_prev hj, hR.join hj⟩

theorem wp_joinPrev_region {a : Nat} (hR : Region h.mem lo hi (l₁ ++ b :: l₂)) (ha : a = b.addr) (hb : b.used = false)
    (hgood : BackLinkGood h.mem l₁ b) :
    wp (joinPrev a) noFault (fun _ t => t.regions = h.regions ∧ SameOutside h.mem t.mem lo hi ∧
      ∃ l', SteppedBack h.mem a (l₁ ++ b :: l₂) l' ∧ Region t.mem lo hi l') h := by
  have hsame : prevAt h.mem b.addr = 0 ∨ load32 h.mem (prevAt h.mem b.addr + offFlags) &&& heapFlgUsed ≠ 0 →
      h.regions = h.regions ∧ SameOutside h.mem h.mem lo hi ∧
        ∃ l', SteppedBack h.mem b.addr (l₁ ++ b :: l₂) l' ∧ Region h.mem lo hi l' :=
    fun hstay => ⟨rfl, fun _ _ => rfl, _, .stay hstay, hR⟩
  subst ha
  by_cases h0 : prevAt h.mem b.addr = 0
  · have hsame := hsame (.inl h0)
    unfold prevAt at h0
    simpa only [joinPrev, wp_bind, wp_field, h0, ne_eq, not_true_eq_false, if_false, wp_pure] using hsame
  by_cases hused : load32 h.mem (prevAt h.mem b.addr + offFlags) &&& heapFlgUsed = 0
  · obtain ⟨k₁, p, k₂, rfl, hp, hhead⟩ := hgood.resolve_left h0 |>.resolve_left (not_not_intro hused)
    -- the block that follows `p` is free, whether it is `b` or a block before
    obtain ⟨c, k, hk, hc⟩ : ∃ c k, k₂ ++ b :: l₂ = c :: k ∧ c.used = false := by
      cases k₂ with
      | nil => exact ⟨b, l₂, rfl, hb⟩
      | cons c k => exact ⟨c, k ++ b :: l₂, rfl, hhead c rfl⟩
    rw [List.append_assoc, List.cons_append, hk] at hR ⊢
    have hpf := hR.linked.at_of_append.flags
    rw [← hp, hpf] at hused
    have hpfree := (flags_free p).mp hused
    refine wp_imp (wp_joinPrev (hR.joinable hc) hp.symm (hp ▸ h0) hpfree) ?_
    rintro _ t ⟨hregs, hj⟩
    have hlo := hR.around.2.2.1
    exact ⟨hregs, fun x hx => hR.joined_rest hj (by omega), _, .join k₁ p c k rfl hp hpfree hc, hR.join hj⟩
  · have hsame := hsame (.inr hused)
    unfold prevAt at h0 hused
    simpa only [joinPrev, wp_bind, wp_field, h0, hused, ne_eq, not_false_eq_true, if_true, if_false,
      wp_pure] using hsame

theorem wp_freeSingle (hR : Region h.mem lo hi (l₁ ++ b :: l₂)) (hb : b.used = true)
    (hgood : BackLinkGood h.mem l₁ b) :
    wp (heapFreeSingle (b.addr + 16)) noFault (fun ok t => ok = true ∧ t.regions = h.regions ∧
      SameOutside h.mem t.mem lo hi ∧
      ∃ l', SteppedBack h.mem b.addr (l₁ ++ b.freed.absorb l₂) l' ∧ Region t.mem lo hi l') h := by
  obtain ⟨_, _, hlo, hhi⟩ := hR.around
  obtain ⟨hbf, hbs, hbn⟩ := hR.linked.at_of_append
  have htop := hR.top
  unfold Block.fin heapBlockSize at hhi
  have hit : sub32 (b.addr + 16) heapBlockSize = b.addr := by
    rw [sub32_of_le (by omega) (by unfold heapBlockSize; omega)]
    rfl
  have haccept : b.flags &&& heapMagic = heapMagic ∧ b.flags &&& heapFlgUsed ≠ 0 :=
    ⟨flags_magic b, (flags_used b).mpr hb⟩
  have hflags : b.flags ^^^ heapFlgUsed = b.freed.flags := by
    simp [Block.flags, Block.freed, hb, heapMagic, heapFlgUsed]
  have hlt := flags_lt b.freed
  have hfin : b.fin = b.addr + 16 + b.size := rfl
  simp only [offFlags, offSize, offNext, Nat.add_zero] at hbf hbs hbn
  -- the block is marked free before its neighbours are looked at
  have hR₁ : Region (store32 h.mem b.addr b.freed.flags) lo hi (l₁ ++ b.freed :: l₂) := by
    refine hR.update rfl le_rfl ⟨?_, ?_, ?_⟩ fun x hx => ?_ <;>
      simp (disch := omega) only [freed_addr, freed_size, offFlags, offSize, offNext, Nat.add_zero, load32_store32,
        load32_store32_of_disjoint, store32_apply_of_outside, hbs, hbn]
  simp only [heapFreeSingle, hit, wp_bind, wp_field, offFlags, Nat.add_zero, hbf]
  rw [if_pos haccept, wp_bind, wp_setField, hflags, wp_bind]
  refine wp_imp (wp_joinNext_region (b := b.freed) hR₁) ?_
  rintro _ t ⟨hregs, hrest, hprev, hR₂⟩
  have haddr : b.freed.addr = b.addr := rfl
  rw [haddr] at hrest hprev
  have hbelow : ∀ x, x < b.addr ∨ hi ≤ x → t.mem x = h.mem x := fun x hx =>
    (hrest x hx).trans (store32_apply_of_outside (by omega))
  have hprev' : prevAt t.mem b.addr = prevAt h.mem b.addr :=
    hprev.trans (load32_store32_of_disjoint (by simp only [offPrev]; omega))
  have hlink := hR.prevs b (by simp)
  have hsame : prevAt h.mem b.addr ≠ 0 → load32 t.mem (prevAt h.mem b.addr + offFlags) =
      load32 h.mem (prevAt h.mem b.addr + offFlags) := fun hne => by
    obtain ⟨_, hle⟩ := hlink.resolve_left hne
    exact load32_congr fun x _ h2 => hbelow x (by simp only [offFlags] at h2; omega)
  obtain ⟨b', l', habsorb, haddr', hfree⟩ := absorb_cons b.freed l₂
  rw [habsorb] at hR₂ ⊢
  rw [wp_bind]
  refine wp_imp (wp_joinPrev_region hR₂ haddr'.symm hfree ?_) ?_
  · unfold BackLinkGood at hgood ⊢
    rw [haddr', haddr, hprev']
    rcases hgood with h0 | hused | hbefore
    · exact .inl h0
    · by_cases h0 : prevAt h.mem b.addr = 0
      · exact .inl h0
      · exact .inr (.inl (by rwa [hsame h0]))
    · exact .inr (.inr hbefore)
  · rintro _ u ⟨hregs', hout, l, hback, hRl⟩
    exact ⟨rfl, hregs'.trans hregs, fun x hx => (hout x hx).trans (hbelow x (by omega)), l,
      hback.congr hprev' hsame, hRl⟩

end YggKernel.Heap
