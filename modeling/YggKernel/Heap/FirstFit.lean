import Mathlib.Data.List.GetD
import YggKernel.Heap.Cells

namespace YggKernel.Heap

open Lib.Program Lib.ByteMemory Lib.Chains

def Cell.Fits (count : Nat) (c : Cell) : Prop := c.Free ∧ count ≤ c.size

def Cell.take (count : Nat) (c : Cell) : Cell := ⟨c.addr, count, c.flags ||| heapFlgUsed⟩

def Cell.rest (count : Nat) (c : Cell) : Cell := ⟨c.addr + 16 + count, c.size - count - 16, heapMagic⟩

def Cell.carve (count : Nat) (c : Cell) : List Cell := c.take count :: if c.size < count + 16 then [] else [c.rest count]

structure Zone where
  lo : Nat
  hi : Nat
  cells : List Cell

/-- The forward chain of a region goes through its blocks in the order of their addresses. -/
structure ZoneAt (m : Mem) (z : Zone) : Prop where
  pos : 0 < z.lo
  top : z.hi < 4294967296
  start : first Cell.addr z.cells 0 = z.lo
  linked : Linked Cell.addr (HeadAt m) z.cells 0
  ordered : Ordered Cell.addr Cell.fin z.lo z.cells z.hi

/-- The heap consists of these regions, listed in `s_heap_regions` in this order. -/
structure Zones (h : HeapMem) (zs : List Zone) : Prop where
  zone : ∀ z ∈ zs, ZoneAt h.mem z
  apart : zs.Pairwise fun y z => y.hi ≤ z.lo ∨ z.hi ≤ y.lo
  count : zs.length ≤ heapMax
  starts : ∀ i < heapMax, h.regions i = (zs.map Zone.lo).getD i 0

section Single

variable {h : HeapMem} {lo hi count nx : Nat} {l₁ l₂ : List Cell} {c : Cell}

/-- Block `c` is used for `count` bytes. Nothing outside of it is written, nor its own back link. -/
structure Taken (count : Nat) (h : HeapMem) (lo hi : Nat) (l₁ : List Cell) (c : Cell) (l₂ : List Cell) (p : Nat)
    (t : HeapMem) : Prop where
  fits : c.Fits count
  result : p = c.addr + 16
  regions : t.regions = h.regions
  zone : ZoneAt t.mem ⟨lo, hi, l₁ ++ (c.carve count ++ l₂)⟩
  back : count + 16 ≤ c.size → prevAt t.mem (c.addr + 16 + count) = c.addr
  same : ∀ x, x < c.addr ∨ c.fin ≤ x ∨ (c.addr + 8 ≤ x ∧ x < c.addr + 12) → t.mem x = h.mem x

theorem take_flags_lt (hlt : c.flags < 4294967296) : c.flags ||| heapFlgUsed < 4294967296 :=
  Nat.or_lt_two_pow (n := 32) hlt (by decide)

theorem wp_allocWhole_cells (hc : HeadAt h.mem c nx) (hlt : c.addr + 16 < 4294967296) (hcount : count < 4294967296) :
    wp (allocWhole c.addr count) noFault (fun p t => p = c.addr + 16 ∧ t.regions = h.regions ∧
      HeadAt t.mem (c.take count) nx ∧ ∀ x, x < c.addr ∨ c.addr + 8 ≤ x → t.mem x = h.mem x) h := by
  have hflags := take_flags_lt hc.flags_lt
  obtain ⟨hcf, hcs, hcn⟩ := hc
  simp only [offFlags, offSize, offNext, Nat.add_zero] at hcf hcs hcn
  simp only [allocWhole, offFlags, offSize, heapData, heapBlockSize, Nat.add_zero, wp_bind, wp_pure, wp_field,
    wp_setField, hcf]
  rw [u32_of_lt hlt]
  refine ⟨rfl, trivial, ⟨?_, ?_, ?_⟩, fun x hx => ?_⟩ <;>
    simp (disch := omega) only [Cell.take, offFlags, offSize, offNext, Nat.add_zero, load32_store32,
      load32_store32_of_disjoint, store32_apply_of_outside, hcn]

theorem wp_allocSplit_cells (hc : HeadAt h.mem c nx) (hlt : c.fin ≤ 4294967296) (hfit : count + 16 ≤ c.size) :
    wp (allocSplit c.addr count) noFault (fun p t => p = c.addr + 16 ∧ t.regions = h.regions ∧
      HeadAt t.mem (c.take count) (c.addr + 16 + count) ∧ HeadAt t.mem (c.rest count) nx ∧
      prevAt t.mem (c.addr + 16 + count) = c.addr ∧
      ∀ x, x < c.addr ∨ c.fin ≤ x ∨ (c.addr + 8 ≤ x ∧ x < c.addr + 12) → t.mem x = h.mem x) h := by
  have hflags := take_flags_lt hc.flags_lt
  have hnx := hc.next_lt
  obtain ⟨hcf, hcs, hcn⟩ := hc
  unfold Cell.fin heapBlockSize at hlt
  simp only [offFlags, offSize, offNext, Nat.add_zero] at hcf hcs hcn
  have hdata : heapData c.addr = c.addr + 16 := u32_of_lt (by unfold heapBlockSize; omega)
  have hnewb : u32 (c.addr + 16 + count) = c.addr + 16 + count := u32_of_lt (by omega)
  have hmagic : heapMagic < 4294967296 := by decide
  simp (disch := omega) only [allocSplit, offFlags, offSize, offNext, offPrev, heapBlockSize, Nat.add_zero, wp_bind,
    wp_pure, wp_field, wp_setField, hdata, hnewb, hcf, hcs, hcn, load32_store32_of_disjoint, sub32_of_le]
  refine ⟨trivial, trivial, ⟨?_, ?_, ?_⟩, ⟨?_, ?_, ?_⟩, ?_, fun x hx => ?_⟩
  on_goal 8 => unfold Cell.fin heapBlockSize at hx
  all_goals
    simp (disch := omega) only [Cell.take, Cell.rest, prevAt, offFlags, offSize, offPrev, offNext, Nat.add_zero,
      load32_store32, load32_store32_of_disjoint, store32_apply_of_outside]

theorem ZoneAt.splice {m m' : Mem} (new : List Cell) (hz : ZoneAt m ⟨lo, hi, l₁ ++ c :: l₂⟩)
    (hfirst : ∀ z, first Cell.addr new z = c.addr) (hlinked : Linked Cell.addr (HeadAt m') new (first Cell.addr l₂ 0))
    (hordered : Ordered Cell.addr Cell.fin c.addr new c.fin)
    (hsame : ∀ x, x < c.addr ∨ c.fin ≤ x → m' x = m x) : ZoneAt m' ⟨lo, hi, l₁ ++ (new ++ l₂)⟩ := by
  obtain ⟨hpos, htop, hstart, hlink, hord⟩ := hz
  obtain ⟨hord₁, hord₂⟩ := ordered_append.mp hord
  obtain ⟨hlink₁, -, hlink₂⟩ := (linked_append ..).mp hlink
  refine ⟨hpos, htop, ?_, ?_, hord₁.append (hordered.append hord₂)⟩
  · rw [first_append, first_append, hfirst]
    exact (first_append ..).symm.trans hstart
  · rw [linked_append, linked_append, first_append, hfirst]
    refine ⟨hlink₁.imp fun d hd n hn => hn.congr fun x h1 h2 _ => hsame x (.inl ?_), hlinked,
      hlink₂.imp fun d hd n hn => hn.congr fun x h1 h2 _ => hsame x (.inr ?_)⟩
    · have hd' := (hord₁.mem (fun y _ => y.le_fin) hd).2
      unfold Cell.fin heapBlockSize at hd'
      omega
    · exact ((hord₂.mem (fun y _ => y.le_fin) hd).1).trans h1

theorem ZoneAt.place {m : Mem} (hz : ZoneAt m ⟨lo, hi, l₁ ++ c :: l₂⟩) : lo ≤ c.addr ∧ c.fin ≤ hi :=
  hz.ordered.mem (fun y _ => y.le_fin) (by simp)

theorem taken_whole {t : HeapMem} (hz : ZoneAt h.mem ⟨lo, hi, l₁ ++ c :: l₂⟩) (hfits : c.Fits count)
    (hwhole : c.size < count + 16) (hregs : t.regions = h.regions) (hhead : HeadAt t.mem (c.take count) (first Cell.addr l₂ 0))
    (hsame : ∀ x, x < c.addr ∨ c.addr + 8 ≤ x → t.mem x = h.mem x) : Taken count h lo hi l₁ c l₂ (c.addr + 16) t := by
  have hle := hfits.2
  have hsame' : ∀ x, x < c.addr ∨ c.fin ≤ x ∨ (c.addr + 8 ≤ x ∧ x < c.addr + 12) → t.mem x = h.mem x :=
    fun x hx => hsame x (by
      unfold Cell.fin heapBlockSize at hx
      omega)
  have hzone := hz.splice [c.take count] (fun _ => rfl) ⟨hhead, trivial⟩ ⟨le_rfl, ?_⟩ fun x hx => hsame' x (by omega)
  · refine ⟨hfits, rfl, hregs, ?_, fun hsplit => absurd hwhole (by omega), hsame'⟩
    rwa [Cell.carve, if_pos hwhole]
  · simp only [Ordered, Cell.fin, Cell.take]
    omega

theorem taken_split {t : HeapMem} (hz : ZoneAt h.mem ⟨lo, hi, l₁ ++ c :: l₂⟩) (hfits : c.Fits count)
    (hsplit : count + 16 ≤ c.size) (hregs : t.regions = h.regions)
    (hhead : HeadAt t.mem (c.take count) (c.addr + 16 + count)) (hrest : HeadAt t.mem (c.rest count) (first Cell.addr l₂ 0))
    (hback : prevAt t.mem (c.addr + 16 + count) = c.addr)
    (hsame : ∀ x, x < c.addr ∨ c.fin ≤ x ∨ (c.addr + 8 ≤ x ∧ x < c.addr + 12) → t.mem x = h.mem x) :
    Taken count h lo hi l₁ c l₂ (c.addr + 16) t := by
  have hzone := hz.splice [c.take count, c.rest count] (fun _ => rfl) ⟨hhead, hrest, trivial⟩ ⟨le_rfl, ?_, ?_⟩
    fun x hx => hsame x (by omega)
  · refine ⟨hfits, rfl, hregs, ?_, fun _ => hback, hsame⟩
    rwa [Cell.carve, if_neg (by omega)]
  · simp only [Cell.fin, Cell.take, Cell.rest, heapBlockSize]
    exact le_rfl
  · simp only [Ordered, Cell.fin, Cell.rest, heapBlockSize]
    omega

/-- The walk over a region takes the first block that fits, if there is one. -/
theorem wp_allocSingle_cells (l₁ l₂ : List Cell) (fuel : Nat) (hz : ZoneAt h.mem ⟨lo, hi, l₁ ++ l₂⟩)
    (hfuel : l₂.length < fuel) : wp (heapAllocSingle fuel (first Cell.addr l₂ 0) count) noFault (fun p t =>
      (p = 0 ∧ t = h ∧ ∀ c ∈ l₂, ¬c.Fits count) ∨ ∃ k₁ c k₂, l₂ = k₁ ++ c :: k₂ ∧ (∀ d ∈ k₁, ¬d.Fits count) ∧
        Taken count h lo hi (l₁ ++ k₁) c k₂ p t) h := by
  induction l₂ generalizing l₁ fuel with
  | nil =>
    cases fuel with
    | zero => omega
    | succ fuel =>
      rw [heapAllocSingle, first_nil, if_pos rfl, wp_pure]
      exact .inl ⟨rfl, rfl, by simp⟩
  | cons c l₂ ih =>
    cases fuel with
    | zero => omega
    | succ fuel =>
      have hz' : ZoneAt h.mem ⟨lo, hi, (l₁ ++ [c]) ++ l₂⟩ := by simpa using hz
      have hhead : HeadAt h.mem c (first Cell.addr l₂ 0) := hz.linked.at_of_append
      obtain ⟨hlo, hhi⟩ := hz.place
      have hpos := hz.pos
      have htop := hz.top
      dsimp only at hpos htop
      have hfin : c.addr + 16 + c.size ≤ hi := hhi
      -- the walk goes on behind a block that does not fit
      have hnext : ¬c.Fits count → wp (heapAllocSingle fuel (first Cell.addr l₂ 0) count) noFault (fun p t =>
          (p = 0 ∧ t = h ∧ ∀ d ∈ c :: l₂, ¬d.Fits count) ∨ ∃ k₁ d k₂, c :: l₂ = k₁ ++ d :: k₂ ∧
            (∀ e ∈ k₁, ¬e.Fits count) ∧ Taken count h lo hi (l₁ ++ k₁) d k₂ p t) h := by
        intro hno
        refine wp_imp (ih _ fuel hz' (by simpa using hfuel)) ?_
        rintro p t (⟨hp, ht, hall⟩ | ⟨k₁, d, k₂, rfl, hk₁, htaken⟩)
        · exact .inl ⟨hp, ht, List.forall_mem_cons.mpr ⟨hno, hall⟩⟩
        · refine .inr ⟨c :: k₁, d, k₂, rfl, List.forall_mem_cons.mpr ⟨hno, hk₁⟩, ?_⟩
          rwa [List.append_assoc] at htaken
      rw [heapAllocSingle, first_cons, if_neg (by omega), wp_bind, wp_field, hhead.flags]
      by_cases hfree : c.Free
      · have hused : ¬c.flags &&& heapFlgUsed ≠ 0 := not_not_intro hfree
        rw [if_neg hused, wp_bind, wp_field, hhead.size]
        by_cases hlt : c.size < count
        · rw [if_pos hlt, wp_bind, wp_field, hhead.next]
          exact hnext fun hfits => absurd hfits.2 (by omega)
        · have hfits : c.Fits count := ⟨hfree, by omega⟩
          have hround : u32 (count + heapBlockSize) = count + 16 := u32_of_lt (by unfold heapBlockSize; omega)
          rw [if_neg hlt, wp_bind, wp_field, hhead.size, wp_bind, wp_field, hhead.size, hround]
          refine wp_imp (Q := fun p t => Taken count h lo hi (l₁ ++ []) c l₂ p t) ?_ fun p t ht =>
            .inr ⟨[], c, l₂, rfl, by simp, ht⟩
          rw [List.append_nil]
          by_cases hwhole : c.size ≥ count ∧ c.size < count + 16
          · rw [if_pos hwhole]
            refine wp_imp (wp_allocWhole_cells hhead (by omega) (by omega)) ?_
            rintro _ t ⟨rfl, hregs, hhead', hsame⟩
            exact taken_whole hz hfits hwhole.2 hregs hhead' hsame
          · rw [if_neg hwhole]
            refine wp_imp (wp_allocSplit_cells hhead (by omega) (by omega)) ?_
            rintro _ t ⟨rfl, hregs, hhead', hrest, hback, hsame⟩
            exact taken_split hz hfits (by omega) hregs hhead' hrest hback hsame
      · have hused : c.flags &&& heapFlgUsed ≠ 0 := hfree
        rw [if_pos hused, wp_bind, wp_field, hhead.next]
        exact hnext fun hfits => hfree hfits.1

end Single

section Whole

variable {h t : HeapMem} {count : Nat} {zs zs₁ zs₂ : List Zone} {z : Zone}

theorem regions_at {los los' : List Nat} {a : Nat} (hstarts : ∀ i < heapMax, h.regions i = (los ++ a :: los').getD i 0)
    (hcount : (los ++ a :: los').length ≤ heapMax) : los.length < heapMax ∧ h.regions los.length = a := by
  simp only [List.length_append, List.length_cons] at hcount
  refine ⟨by omega, ?_⟩
  rw [hstarts _ (by omega), List.getD_append_right _ _ _ _ le_rfl, Nat.sub_self]
  rfl

theorem Zones.start_at (hZ : Zones h (zs₁ ++ z :: zs₂)) : zs₁.length < heapMax ∧ h.regions zs₁.length = z.lo := by
  have hstarts := hZ.starts
  rw [List.map_append, List.map_cons] at hstarts
  have hat := regions_at hstarts (by simpa using hZ.count)
  rwa [List.length_map] at hat

theorem Zones.start_none (hZ : Zones h zs) {i : Nat} (hi : i < heapMax) (hlen : zs.length ≤ i) : h.regions i = 0 := by
  rw [hZ.starts _ hi, List.getD_eq_default _ _ (by simpa using hlen)]

theorem ZoneAt.frame {m m' : Mem} (hz : ZoneAt m z) (hsame : ∀ x, z.lo ≤ x → x < z.hi → m' x = m x) : ZoneAt m' z := by
  obtain ⟨hpos, htop, hstart, hlink, hord⟩ := hz
  refine ⟨hpos, htop, hstart, hlink.imp fun d hd n hn => hn.congr fun x h1 h2 _ => ?_, hord⟩
  obtain ⟨hlo, hhi⟩ := hord.mem (fun y _ => y.le_fin) hd
  unfold Cell.fin heapBlockSize at hhi
  exact hsame x (by omega) (by omega)

theorem ordered_length {lo hi : Nat} {l : List Cell} (hord : Ordered Cell.addr Cell.fin lo l hi) :
    lo + 16 * l.length ≤ hi := by
  induction l generalizing lo with
  | nil => exact hord
  | cons c l ih =>
    have hlo := hord.1
    have hrest := ih hord.2
    unfold Cell.fin heapBlockSize at hrest
    rw [List.length_cons]
    omega

theorem Zones.update (hZ : Zones h (zs₁ ++ z :: zs₂)) {cells : List Cell} (hregs : t.regions = h.regions)
    (hsame : ∀ x, x < z.lo ∨ z.hi ≤ x → t.mem x = h.mem x) (hz : ZoneAt t.mem ⟨z.lo, z.hi, cells⟩) :
    Zones t (zs₁ ++ ⟨z.lo, z.hi, cells⟩ :: zs₂) := by
  obtain ⟨hzone, hapart, hcount, hstarts⟩ := hZ
  have hap := hapart
  simp only [List.pairwise_append, List.pairwise_cons, List.mem_cons, forall_eq_or_imp] at hap
  obtain ⟨h₁, ⟨hz₂, h₂⟩, h₁₂⟩ := hap
  refine ⟨fun y hy => ?_, ?_, by simpa using hcount, fun i hi => ?_⟩
  · rcases List.mem_append.mp hy with hy | hy
    · have hyz := (h₁₂ y hy).1
      exact (hzone y (by simp [hy])).frame fun x h1 h2 => hsame x (by omega)
    · rcases List.mem_cons.mp hy with rfl | hy
      · exact hz
      · have hzy := hz₂ y hy
        exact (hzone y (by simp [hy])).frame fun x h1 h2 => hsame x (by omega)
  · simp only [List.pairwise_append, List.pairwise_cons, List.mem_cons, forall_eq_or_imp]
    exact ⟨h₁, ⟨hz₂, h₂⟩, h₁₂⟩
  · rw [hregs, hstarts i hi]
    simp

/-- The first block that fits was taken, in the order of the regions and their chains. -/
def FirstTaken (count : Nat) (h : HeapMem) (zs : List Zone) (p : Nat) (t : HeapMem) : Prop :=
  ∃ zs₁ z zs₂ l₁ c l₂, zs = zs₁ ++ z :: zs₂ ∧ z.cells = l₁ ++ c :: l₂ ∧ (∀ y ∈ zs₁, ∀ d ∈ y.cells, ¬d.Fits count) ∧
    (∀ d ∈ l₁, ¬d.Fits count) ∧ c.Fits count ∧ p = c.addr + 16 ∧
    (∃ rest, (rest = [] ∨ ∃ n : Cell, rest = [n] ∧ n.Free) ∧
      Zones t (zs₁ ++ ⟨z.lo, z.hi, l₁ ++ c.take count :: (rest ++ l₂)⟩ :: zs₂)) ∧
    ∀ y ∈ zs, ∀ d ∈ y.cells, d.addr ≠ c.addr → ∀ x, d.addr ≤ x → x < d.fin → t.mem x = h.mem x

theorem Zones.disjoint (hZ : Zones h zs) {y : Zone} (hz : z ∈ zs) (hy : y ∈ zs) (hne : y ≠ z) :
    y.hi ≤ z.lo ∨ z.hi ≤ y.lo :=
  haveI : Std.Symm fun y z : Zone => y.hi ≤ z.lo ∨ z.hi ≤ y.lo := ⟨fun _ _ h => h.symm⟩
  hZ.apart.forall hy hz hne

theorem Zones.cells_apart (hZ : Zones h zs) {y : Zone} {c d : Cell} (hz : z ∈ zs) (hy : y ∈ zs) (hc : c ∈ z.cells)
    (hd : d ∈ y.cells) (hne : d.addr ≠ c.addr) : d.fin ≤ c.addr ∨ c.fin ≤ d.addr := by
  have hzc := (hZ.zone z hz).ordered
  have hyd := (hZ.zone y hy).ordered
  obtain ⟨hclo, hchi⟩ := hzc.mem (fun y _ => y.le_fin) hc
  obtain ⟨hdlo, hdhi⟩ := hyd.mem (fun y _ => y.le_fin) hd
  by_cases hyz : y = z
  · subst hyz
    obtain ⟨l₁, l₂, hl⟩ := List.append_of_mem hc
    rw [hl] at hd hzc
    obtain ⟨hord₁, hord₂⟩ := ordered_append.mp hzc
    rcases List.mem_append.mp hd with hd | hd
    · exact .inl (hord₁.mem (fun y _ => y.le_fin) hd).2
    · rcases List.mem_cons.mp hd with rfl | hd
      · exact absurd rfl hne
      · exact .inr (hord₂.mem (fun y _ => y.le_fin) hd).1
  · have hdis := hZ.disjoint hz hy hyz
    omega

theorem firstTaken_of_taken {l₁ l₂ : List Cell} {c : Cell} {p : Nat} (hZ : Zones h (zs₁ ++ z :: zs₂))
    (hz : z.cells = l₁ ++ c :: l₂) (hno : ∀ y ∈ zs₁, ∀ d ∈ y.cells, ¬d.Fits count) (hno' : ∀ d ∈ l₁, ¬d.Fits count)
    (ht : Taken count h z.lo z.hi l₁ c l₂ p t) : FirstTaken count h (zs₁ ++ z :: zs₂) p t := by
  obtain ⟨hfits, hp, hregs, hzone, -, hsame⟩ := ht
  have hmem : c ∈ z.cells := by simp [hz]
  have hrest : (if c.size < count + 16 then [] else [c.rest count]) = [] ∨
      ∃ n : Cell, (if c.size < count + 16 then [] else [c.rest count]) = [n] ∧ n.Free := by
    by_cases hwhole : c.size < count + 16
    · exact .inl (if_pos hwhole)
    · exact .inr ⟨_, if_neg hwhole, (by decide : heapMagic &&& heapFlgUsed = 0)⟩
  obtain ⟨hlo, hhi⟩ := (hZ.zone z (by simp)).ordered.mem (fun y _ => y.le_fin) hmem
  have hout : ∀ x, x < z.lo ∨ z.hi ≤ x → t.mem x = h.mem x := fun x hx => hsame x (by omega)
  refine ⟨zs₁, z, zs₂, l₁, c, l₂, rfl, hz, hno, hno', hfits, hp, ⟨_, hrest, hZ.update hregs hout hzone⟩,
    fun y hy d hd hne x h1 h2 => hsame x ?_⟩
  have hap := hZ.cells_apart (z := z) (by simp) hy hmem hd hne
  omega

/-- The first block that fits was taken, with all that the blocks in its place hold. -/
def TakenFirst (count : Nat) (h : HeapMem) (zs : List Zone) (p : Nat) (t : HeapMem) : Prop :=
  ∃ zs₁ z zs₂ l₁ c l₂, zs = zs₁ ++ z :: zs₂ ∧ z.cells = l₁ ++ c :: l₂ ∧ (∀ y ∈ zs₁, ∀ d ∈ y.cells, ¬d.Fits count) ∧
    (∀ d ∈ l₁, ¬d.Fits count) ∧ Taken count h z.lo z.hi l₁ c l₂ p t

theorem wp_allocFrom_zones {k n : Nat} (hZ : Zones h (zs₁ ++ zs₂)) (hno : ∀ y ∈ zs₁, ∀ d ∈ y.cells, ¬d.Fits count)
    (hk : k = zs₁.length) (hn : k + n = heapMax) : wp (allocFrom count (List.range' k n)) noFault (fun p t =>
      (p = 0 ∧ t = h ∧ ∀ y ∈ zs₁ ++ zs₂, ∀ d ∈ y.cells, ¬d.Fits count) ∨
        (p ≠ 0 ∧ TakenFirst count h (zs₁ ++ zs₂) p t)) h := by
  induction n generalizing k zs₁ zs₂ with
  | zero =>
    have hcount := hZ.count
    simp only [List.length_append] at hcount
    obtain rfl : zs₂ = [] := List.length_eq_zero_iff.mp (by omega)
    exact .inl ⟨rfl, rfl, by simpa using hno⟩
  | succ n ih =>
    rw [List.range'_succ, allocFrom, wp_bind, wp_get]
    subst hk
    cases zs₂ with
    | nil =>
      rw [if_pos (hZ.start_none (by omega) (by simp)), wp_pure]
      exact .inl ⟨rfl, rfl, by simpa using hno⟩
    | cons z zs₂ =>
      have hz := hZ.zone z (by simp)
      have hpos := hz.pos
      have htop := hz.top
      have hlen := ordered_length hz.ordered
      rw [hZ.start_at.2, if_neg (by omega), wp_bind, ← hz.start]
      refine wp_imp (wp_allocSingle_cells [] z.cells chainFuel hz (by unfold chainFuel; omega)) ?_
      rintro p t (⟨rfl, rfl, hall⟩ | ⟨k₁, c, k₂, hcells, hk₁, htaken⟩)
      · have hZ' : Zones t ((zs₁ ++ [z]) ++ zs₂) := by simpa using hZ
        have hno' : ∀ y ∈ zs₁ ++ [z], ∀ d ∈ y.cells, ¬d.Fits count := by
          intro y hy
          rcases List.mem_append.mp hy with hy | hy
          · exact hno y hy
          · rw [List.mem_singleton.mp hy]
            exact hall
        rw [if_neg (by simp)]
        simpa using ih hZ' hno' (by simp) (by omega)
      · have hp : p ≠ 0 := by
          rw [htaken.result]
          omega
        rw [if_pos hp, wp_pure]
        exact .inr ⟨hp, zs₁, z, zs₂, k₁, c, k₂, rfl, hcells, hno, hk₁, htaken⟩

theorem wp_heapAlloc_zones (count : Nat) (hZ : Zones h zs) : wp (heapAlloc count) noFault (fun p t =>
    (p = 0 ∧ t = h ∧ ∀ y ∈ zs, ∀ d ∈ y.cells, ¬d.Fits count) ∨ (p ≠ 0 ∧ TakenFirst count h zs p t)) h := by
  have hZ' : Zones h ([] ++ zs) := hZ
  rw [heapAlloc, List.range_eq_range']
  exact wp_allocFrom_zones hZ' (by simp) rfl (Nat.zero_add heapMax)

/-- An allocation fails just when no free block is large enough, and takes the first such block otherwise. -/
theorem heap_alloc_first_fit (count : Nat) (hZ : Zones h zs) : wp (heapAlloc count) noFault (fun p t =>
    (p = 0 ↔ ∀ z ∈ zs, ∀ c ∈ z.cells, ¬c.Fits count) ∧ (p = 0 → t = h) ∧ (p ≠ 0 → FirstTaken count h zs p t)) h := by
  refine wp_imp (wp_heapAlloc_zones count hZ) ?_
  rintro p t (⟨rfl, rfl, hall⟩ | ⟨hp, zs₁, z, zs₂, l₁, c, l₂, rfl, hcells, hno, hno', htaken⟩)
  · exact ⟨iff_of_true rfl hall, fun _ => rfl, fun hp => absurd rfl hp⟩
  · refine ⟨iff_of_false hp fun hall => ?_, fun h0 => absurd h0 hp, fun _ => firstTaken_of_taken hZ hcells hno hno' htaken⟩
    exact hall z (by simp) c (by simp [hcells]) htaken.fits

end Whole

theorem pairHeap_zones : Zones pairHeap [⟨0x1000, 0x10D8, [usedCell, freeCell]⟩] := by
  refine ⟨fun z hz => ?_, List.pairwise_singleton _ _, by decide, by decide⟩
  rw [List.mem_singleton.mp hz]
  refine ⟨by decide, by decide, rfl, ⟨⟨?_, ?_, ?_⟩, ⟨?_, ?_, ?_⟩, trivial⟩, ⟨?_, ?_,
    (by decide : freeCell.fin ≤ 0x10D8)⟩⟩
  all_goals decide +kernel

theorem heap_alloc_first_fit_pair : wp (heapAlloc 40) noFault (fun p t =>
    (p = 0 ↔ ∀ z ∈ [⟨0x1000, 0x10D8, [usedCell, freeCell]⟩], ∀ c ∈ Zone.cells z, ¬c.Fits 40) ∧ (p = 0 → t = pairHeap) ∧
      (p ≠ 0 → FirstTaken 40 pairHeap [⟨0x1000, 0x10D8, [usedCell, freeCell]⟩] p t)) pairHeap :=
  heap_alloc_first_fit 40 pairHeap_zones

end YggKernel.Heap
