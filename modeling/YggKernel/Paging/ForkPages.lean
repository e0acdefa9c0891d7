import YggKernel.Paging.ForkCopies

namespace YggKernel.Paging

open Lib.Program Lib.ByteMemory Lib.BitWords Lib.Masks Lib.Runs Phys Pool

/-- The pages from number `P` on that a space maps below the kernel, by their numbers. -/
def pagesLeft (s : Machine) (pd P : Nat) : Finset Nat :=
  (Finset.range 786432).filter fun v => P ≤ v ∧ (translation s pd (4096 * v)).isSome

def FramesAhead (k : Nat) (s : Machine) : Prop :=
  ∀ i < k, nextFrame (takeFrame^[i] s) ≠ mmNaddr ∧ ∀ x < 4096, ¬InPaging s (nextFrame (takeFrame^[i] s) + x)

/-- A page of the source has its copy in a frame that was free, writable as the source's page is; a page that
the source does not map is not mapped. -/
def PageCopied (s t : Machine) (dst src a : Nat) : Prop :=
  (translation s src a = none ∧ translation t dst a = none) ∨
    ∃ p f n, translation s src a = some (p, f) ∧ translation t dst a = some (4096 * n, (f &&& mmFlgWr) ||| mmFlgUs) ∧
      bit s.phys.bitmap n = false ∧ bit t.phys.bitmap n = true ∧
      ∀ i < 4096, ¬InPaging s (4096 * n + i) ∧ t.mem (4096 * n + i) = s.mem (p + i)

/-- What a fork needs: what is mapped in the source is in use and holds no paging structure. -/
structure Forkable (spaces : List Nat) (s : Machine) (dst src : Nat) : Prop where
  neat : Neat spaces s
  low : KernelLow s
  dst_mem : dst ∈ spaces
  src_mem : src ∈ spaces
  apart : dst ≠ src
  kernel : dst ≠ s.mmKernel
  frames : ∀ v, 1024 ≤ v → v < 786432 → ∀ p f, translation s src (4096 * v) = some (p, f) →
    bit s.phys.bitmap (p / 4096) = true ∧ ∀ i < 4096, ¬InPaging s (p + i)

structure Forked (spaces : List Nat) (s : Machine) (dst src P : Nat) (t : Machine) : Prop where
  neat : Neat spaces t
  low : KernelLow t
  placed : Placed spaces s t
  grown : Grown s t
  others : ∀ pd ∈ spaces, pd ≠ dst → ∀ k < 1024, SlotSame s t pd k
  kernel : ∀ k, 768 ≤ k → k < 1024 → SlotSame s t dst k
  done : ∀ v, 1024 ≤ v → v < P → PageCopied s t dst src (4096 * v)
  rest : ∀ v, P ≤ v → v < 786432 → translation t dst (4096 * v) = none
  distinct : ∀ v w p f g, 1024 ≤ v → v < P → 1024 ≤ w → w < P → translation t dst (4096 * v) = some (p, f) →
    translation t dst (4096 * w) = some (p, g) → v = w
  mem : ∀ x, ¬InPaging s x → bit s.phys.bitmap (x / 4096) = true → t.mem x = s.mem x
  ahead : FramesAhead (pagesLeft s src P).card t

section Counts

variable {s t : Machine} {pd P n : Nat}

theorem card_pagesLeft (hP : P < 786432) (hmapped : (translation s pd (4096 * P)).isSome) :
    (pagesLeft s pd P).card = (pagesLeft s pd (P + 1)).card + 1 := by
  have hinsert : pagesLeft s pd P = insert P (pagesLeft s pd (P + 1)) := by
    ext v
    simp only [pagesLeft, Finset.mem_insert, Finset.mem_filter, Finset.mem_range]
    by_cases hv : v = P
    · rw [hv]
      exact ⟨fun _ => .inl rfl, fun _ => ⟨hP, le_rfl, hmapped⟩⟩
    · have hle : P ≤ v ↔ P + 1 ≤ v := by omega
      rw [hle]
      exact ⟨.inr, fun h => h.resolve_left hv⟩
  rw [hinsert, Finset.card_insert_of_notMem]
  simp [pagesLeft]

theorem pagesLeft_succ_le (s : Machine) (pd P : Nat) : (pagesLeft s pd (P + 1)).card ≤ (pagesLeft s pd P).card := by
  refine Finset.card_le_card fun v hv => ?_
  simp only [pagesLeft, Finset.mem_filter] at hv ⊢
  exact ⟨hv.1, by omega, hv.2.2⟩

theorem phys_iterate (hphys : t.phys = s.phys) (i : Nat) : (takeFrame^[i] t).phys = (takeFrame^[i] s).phys := by
  induction i with
  | zero => exact hphys
  | succ i ih =>
    rw [Function.iterate_succ_apply', Function.iterate_succ_apply']
    unfold takeFrame at ih ⊢
    rw [ih]

theorem nextFrame_congr (hphys : t.phys = s.phys) : nextFrame t = nextFrame s := by
  unfold nextFrame
  rw [hphys]

theorem FramesAhead.congr {k : Nat} (hphys : t.phys = s.phys) (hin : ∀ x, InPaging t x ↔ InPaging s x) (h : FramesAhead k s) :
    FramesAhead k t := by
  intro i hi
  rw [nextFrame_congr (phys_iterate hphys i)]
  exact ⟨(h i hi).1, fun x hx hpaging => (h i hi).2 x hx ((hin _).mp hpaging)⟩

theorem FramesAhead.mono {k m : Nat} (hle : m ≤ k) (h : FramesAhead k s) : FramesAhead m s := fun i hi => h i (by omega)

theorem FramesAhead.tail {k : Nat} (h : FramesAhead (k + 1) s) : FramesAhead k (takeFrame s) := by
  intro i hi
  rw [← Function.iterate_succ_apply]
  exact h (i + 1) (by omega)

theorem FramesAhead.next {k : Nat} (hhint : s.phys.allocLast < 4294967296) (h : FramesAhead (k + 1) s) :
    ∃ n, TookPage s.phys n (takeFrame s).phys ∧ nextFrame s = 4096 * n ∧ ∀ i < 4096, ¬InPaging s (4096 * n + i) := by
  obtain ⟨hsome, hout⟩ := h 0 (Nat.succ_pos k)
  rw [Function.iterate_zero_apply] at hsome hout
  rcases nextFrame_cases hhint with ⟨n, took, hnext⟩ | ⟨_, hnone, _⟩
  · refine ⟨n, took, hnext, fun i hi => ?_⟩
    rw [← hnext]
    exact hout i hi
  · exact absurd hnone hsome

end Counts

section Page

variable {s t u w : Machine} {spaces : List Nat} {dst src P p f n pte : Nat}

theorem fork_entry (n pte : Nat) :
    (4096 * n ||| leafFlags ((pte &&& mmFlgWr) ||| mmFlgUs)) / 4096 * 4096 = 4096 * n ∧
      (4096 * n ||| leafFlags ((pte &&& mmFlgWr) ||| mmFlgUs)) &&& (mmFlgUs ||| mmFlgWr) =
        (pte &&& (mmFlgUs ||| mmFlgWr) &&& mmFlgWr) ||| mmFlgUs := by
  have hlt := leafFlags_lt ((pte &&& mmFlgWr) ||| mmFlgUs)
  have hor : 4096 * n ||| leafFlags ((pte &&& mmFlgWr) ||| mmFlgUs) = 4096 * n + leafFlags ((pte &&& mmFlgWr) ||| mmFlgUs) :=
    page_or (Nat.mul_mod_right _ _) (by omega)
  refine ⟨by omega, ?_⟩
  have hpage : 4096 * n &&& (mmFlgUs ||| mmFlgWr) = 0 := by
    rw [and_mod_two_pow (show mmFlgUs ||| mmFlgWr < 2 ^ 3 by decide), show 4096 * n % 2 ^ 3 = 0 by omega, Nat.zero_and]
  have hflags : ∀ g < 8, leafFlags ((g &&& mmFlgWr) ||| mmFlgUs) &&& (mmFlgUs ||| mmFlgWr) =
      (g &&& (mmFlgUs ||| mmFlgWr) &&& mmFlgWr) ||| mmFlgUs := by decide
  have hmod : ∀ m, m < 8 → pte &&& m = pte % 8 &&& m := fun m hm => and_mod_two_pow (k := 3) hm
  rw [Nat.and_or_distrib_right, hpage, Nat.zero_or, hmod mmFlgWr (by decide), hmod (mmFlgUs ||| mmFlgWr) (by decide)]
  exact hflags _ (Nat.mod_lt _ (by decide))

/-- Page number `P` was mapped to frame `n` in the state `u` and filled in the state `w`. -/
structure Filled (t u w : Machine) (dst P p n pte : Nat) : Prop where
  took : TookPage t.phys n (takeFrame t).phys
  out : ∀ i < 4096, ¬InPaging t (4096 * n + i)
  mapped : Mapped (takeFrame t) u dst (4096 * P / 4194304) (4096 * P / 4096 % 1024)
    (4096 * n ||| leafFlags ((pte &&& mmFlgWr) ||| mmFlgUs))
  restored : Restored u w
  clean : CleanPool w
  mem : ∀ x, ¬InPaging u x → w.mem x = scatter u.mem (fun i => 4096 * n + i) (gather u.mem (fun i => p + i) 4096) x

section Step

variable (hf : Forkable spaces s dst src) (h : Forked spaces s dst src P t) (h1 : 1024 ≤ P) (h2 : P < 786432)
  (hp : translation s src (4096 * P) = some (p, pte &&& (mmFlgUs ||| mmFlgWr)))

include hf h h1 h2 in
theorem Forked.slots (hfill : Filled t u w dst P p n pte) {pd k : Nat} (hpd : pd ∈ spaces) (hk : k < 1024)
    (hne : ¬(pd = dst ∧ k = 4096 * P / 4194304)) : SlotSame t w pd k := by
  obtain ⟨owner, ht⟩ := h.neat.1.takeFrame.tree
  have hslot : 4096 * P / 4194304 < 1023 := by omega
  obtain ⟨owner', hu, _⟩ := hfill.mapped.tree ht hf.dst_mem hslot
  have hmapped : SlotSame (takeFrame t) u pd k :=
    (hfill.mapped.slotChange ht hf.dst_mem hslot).slotSame ht hf.dst_mem hslot hpd hk hne
  have hbefore : SlotSame t u pd k := ⟨hmapped.word, hmapped.info, hmapped.table⟩
  exact hbefore.trans (hfill.restored.slotSame hu hpd hk)

include hf h h1 h2 in
theorem Forked.translation_other (hfill : Filled t u w dst P p n pte) {v : Nat} (hv : v < 786432) (hne : v ≠ P) :
    translation w dst (4096 * v) = translation t dst (4096 * v) := by
  obtain ⟨owner, ht⟩ := h.neat.1.takeFrame.tree
  have hslot : 4096 * P / 4194304 < 1023 := by omega
  obtain ⟨owner', hu, _⟩ := hfill.mapped.tree ht hf.dst_mem hslot
  rw [hfill.restored.translation_eq hu hf.dst_mem (by omega)]
  have hmapped : translation u dst (4096 * v) = translation (takeFrame t) dst (4096 * v) :=
    hfill.mapped.translation_other ht hf.dst_mem hslot (by omega) (by omega) h.neat.takeFrame.2.clean
  exact hmapped

include hf h h1 h2 in
theorem Forked.translation_new (hfill : Filled t u w dst P p n pte) :
    translation w dst (4096 * P) = some (4096 * n, (pte &&& (mmFlgUs ||| mmFlgWr) &&& mmFlgWr) ||| mmFlgUs) := by
  obtain ⟨owner, ht⟩ := h.neat.1.takeFrame.tree
  have hslot : 4096 * P / 4194304 < 1023 := by omega
  obtain ⟨owner', hu, _⟩ := hfill.mapped.tree ht hf.dst_mem hslot
  have hn := hfill.took.lt
  obtain ⟨hframe, hflags⟩ := fork_entry n pte
  have hlt : 4096 * n ||| leafFlags ((pte &&& mmFlgWr) ||| mmFlgUs) < 4294967296 := entry_lt _ (by omega)
  rw [hfill.restored.translation_eq hu hf.dst_mem (by omega),
    hfill.mapped.translation_eq ht hf.dst_mem hslot hlt (or_odd (leafFlags_odd _)), hframe, hflags, Nat.mul_mod_right, Nat.add_zero]

include h in
theorem Forked.mem_other (hfill : Filled t u w dst P p n pte) {x : Nat} (hx : ¬InPaging s x) (hne : x / 4096 ≠ n) :
    w.mem x = t.mem x := by
  have hu : ∀ y, InPaging u y ↔ InPaging s y := fun y => (hfill.mapped.framed.inPaging_iff y).trans (h.placed.inPaging_iff y)
  rw [hfill.mem x fun hin => hx ((hu x).mp hin), scatter_outside fun i hi => ?_]
  · exact hfill.mapped.framed.mem x fun hin => hx ((h.placed.inPaging_iff x).mp hin)
  · rw [length_gather] at hi
    omega

include h in
theorem Forked.clear (hfill : Filled t u w dst P p n pte) : bit s.phys.bitmap n = false := by
  by_contra hset
  have hstill := h.grown n (by simpa using hset)
  rw [hfill.took.clear] at hstill
  cases hstill

include hf h h1 h2 hp

theorem Forked.mem_new (hfill : Filled t u w dst P p n pte) {i : Nat} (hi : i < 4096) : w.mem (4096 * n + i) = s.mem (p + i) := by
  have hn := hfill.took.lt
  have hu : ∀ y, InPaging u y ↔ InPaging s y := fun y => (hfill.mapped.framed.inPaging_iff y).trans (h.placed.inPaging_iff y)
  obtain ⟨hused, hapart⟩ := hf.frames P h1 h2 _ _ hp
  have haligned : p % 4096 = 0 := (translation_page (Nat.mul_mod_right _ _) (show 0 < 4096 by decide) hp).2
  have hout : ¬InPaging s (4096 * n + i) := fun hx => hfill.out i hi ((h.placed.inPaging_iff _).mpr hx)
  rw [hfill.mem _ fun hin => hout ((hu _).mp hin)]
  have hcopied : scatter u.mem (fun i => 4096 * n + i) (gather u.mem (fun i => p + i) 4096) (4096 * n + i) = u.mem (p + i) :=
    scatter_gather_at (φ := fun i => 4096 * n + i) (fun _ _ _ _ heq => Nat.add_left_cancel heq) hi
  rw [hcopied, hfill.mapped.framed.mem _ fun hin => hapart i hi ((h.placed.inPaging_iff _).mp hin)]
  have hframe : (p + i) / 4096 = p / 4096 := by omega
  exact h.mem _ (hapart i hi) (hframe ▸ hused)

theorem Forked.step (hfill : Filled t u w dst P p n pte) : Forked spaces s dst src (P + 1) w := by
  obtain ⟨owner, ht⟩ := h.neat.1.takeFrame.tree
  have hslot : 4096 * P / 4194304 < 1023 := by omega
  have hnew := h.translation_new hf h1 h2 hfill
  have hother : ∀ {v}, v < 786432 → v ≠ P → translation w dst (4096 * v) = translation t dst (4096 * v) :=
    h.translation_other hf h1 h2 hfill
  have hclear := h.clear hfill
  have hphys : w.phys = (takeFrame t).phys := hfill.restored.phys.trans hfill.mapped.phys
  have hkept : ∀ m, bit t.phys.bitmap m = true → bit w.phys.bitmap m = true := fun m hm => by
    rw [hphys, hfill.took.bit_eq, hm, Bool.true_or]
  have hfree := free_of_translation (h.rest P le_rfl h2)
  obtain ⟨hneat, _⟩ := hfill.mapped.neat h.neat.takeFrame hf.dst_mem (by omega) hslot (or_odd (leafFlags_odd _)) hfree
  obtain ⟨owner', hu⟩ := hneat.1.tree
  have hker := h.placed.mmKernel
  have hplaced := ((hfill.mapped.slotChange ht hf.dst_mem hslot).placed ht hf.dst_mem hslot).trans (hfill.restored.placed hu)
  refine ⟨⟨hfill.restored.sound hneat.1, hfill.restored.tidy hu hneat.2 hfill.clean⟩, ?_, ?_, ?_, ?_, ?_, ?_, ?_, ?_, ?_, ?_⟩
  · refine h.low.keep hplaced.mmKernel fun k hk => h.slots hf h1 h2 hfill ht.kernel (by omega) fun hh => ?_
    exact hf.kernel (hh.1.symm.trans hker)
  · exact h.placed.trans ⟨hplaced.mmKernel, hplaced.paddr, hplaced.info⟩
  · exact fun m hm => hkept m (h.grown m hm)
  · exact fun pd hpd hne k hk => (h.others pd hpd hne k hk).trans (h.slots hf h1 h2 hfill hpd hk fun hh => hne hh.1)
  · exact fun k hk1 hk2 => (h.kernel k hk1 hk2).trans (h.slots hf h1 h2 hfill hf.dst_mem hk2 (by omega))
  · intro v hv1 hv2
    by_cases hvP : v = P
    · subst hvP
      refine .inr ⟨p, _, n, hp, hnew, hclear, ?_, fun i hi => ⟨fun hx => hfill.out i hi ((h.placed.inPaging_iff _).mpr hx),
        h.mem_new hf h1 h2 hp hfill hi⟩⟩
      rw [hphys, hfill.took.bit_eq]
      simp
    · rcases h.done v hv1 (by omega) with ⟨hnone, hnone'⟩ | ⟨p', f', n', hmaps, hcopy, hfree', hset, hbytes⟩
      · exact .inl ⟨hnone, (hother (by omega) hvP).trans hnone'⟩
      · have hnn : n' ≠ n := by
          rintro rfl
          rw [hfill.took.clear] at hset
          cases hset
        refine .inr ⟨p', f', n', hmaps, (hother (by omega) hvP).trans hcopy, hfree', hkept n' hset, fun i hi => ?_⟩
        obtain ⟨hout, hbyte⟩ := hbytes i hi
        rw [h.mem_other hfill hout (by omega)]
        exact ⟨hout, hbyte⟩
  · exact fun v hv1 hv2 => (hother hv2 (by omega)).trans (h.rest v (by omega) hv2)
  · have hdiff : ∀ v p' f' g', 1024 ≤ v → v < P → translation w dst (4096 * v) = some (p', f') →
        translation w dst (4096 * P) ≠ some (p', g') := by
      intro v p' f' g' hv1 hv2 hv hPP
      rw [hother (by omega) (by omega)] at hv
      rw [hnew] at hPP
      obtain ⟨rfl, -⟩ := Prod.mk.inj (Option.some.inj hPP)
      rcases h.done v hv1 hv2 with ⟨_, hnone⟩ | ⟨_, _, n', _, hcopy, _, hset, _⟩
      · rw [hnone] at hv
        cases hv
      · rw [hcopy] at hv
        obtain ⟨hframe, -⟩ := Prod.mk.inj (Option.some.inj hv)
        obtain rfl : n' = n := by omega
        rw [hfill.took.clear] at hset
        cases hset
    intro v x p' f' g' hv1 hv2 hx1 hx2 hv hx
    by_cases hvP : v = P <;> by_cases hxP : x = P
    · rw [hvP, hxP]
    · rw [hvP] at hv
      exact absurd hv (hdiff x p' g' f' hx1 (by omega) hx)
    · rw [hxP] at hx
      exact absurd hx (hdiff v p' f' g' hv1 (by omega) hv)
    · rw [hother (by omega) hvP] at hv
      rw [hother (by omega) hxP] at hx
      exact h.distinct v x p' f' g' hv1 (by omega) hx1 (by omega) hv hx
  · intro x hx hused
    rw [h.mem_other hfill hx fun heq => ?_]
    · exact h.mem x hx hused
    · rw [heq, hclear] at hused
      cases hused
  · have hahead := h.ahead
    rw [card_pagesLeft h2 (by rw [hp]; rfl)] at hahead
    refine hahead.tail.congr hphys fun x => ?_
    exact (hfill.restored.inPaging_iff x).trans (hfill.mapped.framed.inPaging_iff x)

end Step

end Page

section Loops

variable {s t : Machine} {spaces : List Nat} {dst src P m p pte pdi pti : Nat}

theorem Forked.skip (h : Forked spaces s dst src P t) (hP : P < 786432) (hnone : translation s src (4096 * P) = none) :
    Forked spaces s dst src (P + 1) t := by
  have hfree := h.rest P le_rfl hP
  refine ⟨h.neat, h.low, h.placed, h.grown, h.others, h.kernel, fun v hv1 hv2 => ?_, fun v hv1 hv2 => h.rest v (by omega) hv2,
    fun v w p f g hv1 hv2 hw1 hw2 hv hw => ?_, h.mem, h.ahead.mono (pagesLeft_succ_le s src P)⟩
  · by_cases hvP : v = P
    · rw [hvP]
      exact .inl ⟨hnone, hfree⟩
    · exact h.done v hv1 (by omega)
  · have hne : ∀ x q e, translation t dst (4096 * x) = some (q, e) → x ≠ P := by
      rintro x q e hx rfl
      rw [hfree] at hx
      cases hx
    have hvP := hne v p f hv
    have hwP := hne w p g hw
    exact h.distinct v w p f g hv1 (by omega) hw1 (by omega) hv hw

theorem Forked.skip_many (h : Forked spaces s dst src P t) (hP : P + m ≤ 786432)
    (hnone : ∀ i < m, translation s src (4096 * (P + i)) = none) : Forked spaces s dst src (P + m) t := by
  induction m with
  | zero => exact h
  | succ m ih => exact (ih (by omega) fun i hi => hnone i (by omega)).skip (by omega) (hnone m (by omega))

theorem wp_forkMap (pte : Nat) (h : Neat spaces t) (hdst : dst ∈ spaces) {v : Nat} (hk : v / 4194304 < 1023) (hv : v < 4294967296) :
    wp (mmMapRange dst v 1 ((pte &&& mmFlgWr) ||| mmFlgUs)) anyFault (fun _ u =>
      Mapped (takeFrame t) u dst (v / 4194304) (v / 4096 % 1024) (nextFrame t ||| leafFlags ((pte &&& mmFlgWr) ||| mmFlgUs))) t := by
  obtain ⟨owner, ht⟩ := h.1.tree
  have hmerge : (pte &&& mmFlgWr ||| mmFlgUs) &&& mmFlgMerge = 0 := by
    rw [Nat.and_or_distrib_right, Nat.and_assoc]
    simp [mmFlgWr, mmFlgUs, mmFlgMerge]
  unfold mmMapRange
  by_cases hps : ((pte &&& mmFlgWr) ||| mmFlgUs) &&& mmFlgPs ≠ 0
  · rw [if_pos hps, wp_bind, wp_throw]
    trivial
  rw [if_neg hps, wp_bind, wp_kassert]
  refine ⟨fun _ => ?_, fun _ => trivial⟩
  rw [wp_bind, wp_infoEntry h.1 hdst, wp_bind, wp_forUp_one, Nat.zero_mul, Nat.add_zero, u32_of_lt hv]
  exact wp_mapRangePage _ ht hdst rfl hk rfl (nextFrame_lt h.1.hint) (fun _ _ _ => trivial) (fun _ _ => trivial)
    (fun _ _ hm => hm) fun _ _ hflag => absurd hmerge hflag

variable (hf : Forkable spaces s dst src)
include hf

theorem wp_forkPage (h : Forked spaces s dst src (1024 * pdi + pti) t) (h1 : 0 < pdi) (h2 : pdi < 768) (hpti : pti < 1024)
    (hp : translation s src (4096 * (1024 * pdi + pti)) = some (p, pte &&& (mmFlgUs ||| mmFlgWr))) :
    wp (forkPage dst src pdi pti pte) anyFault (fun _ u => Forked spaces s dst src (1024 * pdi + (pti + 1)) u) t := by
  have hv : 4194304 * pdi + 4096 * pti = 4096 * (1024 * pdi + pti) := by omega
  have hlow : 1024 ≤ 1024 * pdi + pti := by omega
  have hhigh : 1024 * pdi + pti < 786432 := by omega
  obtain ⟨P, hP⟩ : ∃ P, P = 1024 * pdi + pti := ⟨_, rfl⟩
  rw [forkPage, forkAddress hpti, hv, ← Nat.add_assoc]
  rw [← hP] at h hp hlow hhigh ⊢
  have hslot : 4096 * P / 4194304 < 1023 := by omega
  have hahead := h.ahead
  rw [card_pagesLeft hhigh (by rw [hp]; rfl)] at hahead
  obtain ⟨n, took, hnext, hout⟩ := hahead.next h.neat.1.hint
  rw [wp_bind, wp_discard]
  refine wp_imp (wp_forkMap pte h.neat hf.dst_mem hslot (by omega)) fun _ u hm => ?_
  rw [hnext] at hm
  have hfree := free_of_translation (h.rest P le_rfl hhigh)
  obtain ⟨hneat, _⟩ := hm.neat h.neat.takeFrame hf.dst_mem (by omega) hslot (or_odd (leafFlags_odd _)) hfree
  obtain ⟨owner, ht⟩ := h.neat.1.takeFrame.tree
  obtain ⟨owner', hu⟩ := hneat.1.tree
  have hin : ∀ y, InPaging u y ↔ InPaging s y := fun y => (hm.framed.inPaging_iff y).trans (h.placed.inPaging_iff y)
  have hsame : ∀ pd ∈ spaces, pd ≠ dst → ∀ k < 1024, SlotSame (takeFrame t) u pd k := fun pd hpd hne k hk =>
    (hm.slotChange ht hf.dst_mem hslot).slotSame ht hf.dst_mem hslot hpd hk fun hh => hne hh.1
  have hlowu : KernelLow u := by
    have hbefore : KernelLow (takeFrame t) := h.low
    refine hbefore.keep hm.framed.mmKernel fun k hk => hsame _ ht.kernel ?_ k (by omega)
    intro heq
    exact hf.kernel (heq.symm.trans h.placed.mmKernel)
  have hsrc : UserPage u src (4096 * P) p (pte &&& (mmFlgUs ||| mmFlgWr)) := by
    refine ⟨Nat.mul_mod_right _ _, by omega, by unfold kernelVirtBase; omega, ?_, fun i hi hx => ?_⟩
    · have htr : translation u src (4096 * P) = translation (takeFrame t) src (4096 * P) :=
        (hsame src hf.src_mem hf.apart.symm _ (by omega)).translation_eq
      rw [htr]
      exact ((h.others src hf.src_mem hf.apart.symm _ (by omega)).translation_eq).trans hp
    · exact (hf.frames P hlow hhigh _ _ hp).2 i hi ((hin _).mp hx)
  have hn := took.lt
  obtain ⟨hframe, hflags⟩ := fork_entry n pte
  have hdst : UserPage u dst (4096 * P) (4096 * n) ((pte &&& (mmFlgUs ||| mmFlgWr) &&& mmFlgWr) ||| mmFlgUs) := by
    refine ⟨Nat.mul_mod_right _ _, by omega, by unfold kernelVirtBase; omega, ?_, fun i hi hx => ?_⟩
    · rw [hm.translation_eq ht hf.dst_mem hslot (entry_lt _ (by omega)) (or_odd (leafFlags_odd _)), hframe, hflags,
        Nat.mul_mod_right, Nat.add_zero]
    · exact hout i hi ((hm.framed.inPaging_iff _).mp hx)
  refine wp_imp (wp_copyPage hu hneat.2.clean hlowu hneat.1.loaded hf.src_mem hf.dst_mem hsrc hdst) fun _ w hw => ?_
  exact h.step hf hlow hhigh hp ⟨took, hout, hm, hw.1, hw.2.1, hw.2.2⟩

theorem wp_forkTable (h : Forked spaces s dst src (1024 * pdi) t) (h1 : 0 < pdi) (h2 : pdi < 768) :
    wp (forkSlot dst src (infoOf s src) pdi) anyFault (fun _ u => Forked spaces s dst src (1024 * (pdi + 1)) u) t := by
  obtain ⟨owner, hs⟩ := hf.neat.1.tree
  obtain ⟨owner', ht⟩ := h.neat.1.tree
  have hdir := ht.dirPage hf.src_mem
  have hinfo := ht.infoPage hf.src_mem
  have hsame := h.others src hf.src_mem hf.apart.symm pdi (by omega)
  have hslot : ∀ i < 1024, 4096 * (1024 * pdi + i) / 4194304 = pdi ∧ 4096 * (1024 * pdi + i) / 4096 % 1024 = i := by omega
  rw [← h.placed.info src hf.src_mem, forkSlot, wp_bind, wp_entry ht.geometry hdir (by omega)]
  simp only [Ne, not_present_iff, not_huge_iff, ite_not]
  rw [hsame.word]
  by_cases hpr : word s src pdi % 2 = 0
  · rw [if_pos hpr, wp_pure]
    refine h.skip_many (m := 1024) (by omega) fun i hi => ?_
    exact translation_absent (if_pos hpr) (hslot i hi).1
  rw [if_neg hpr, wp_bind, wp_entry ht.geometry hdir (by omega), wp_bind, wp_kassert]
  refine ⟨fun hps => ?_, fun _ => trivial⟩
  have hps : word s src pdi / 128 % 2 = 0 := by
    rw [hsame.word] at hps
    exact of_decide_eq_true hps
  have hhas : HasTable s src pdi := ⟨by omega, hps⟩
  rw [wp_bind, wp_entry ht.geometry hinfo (by omega), wp_bind, wp_kassert]
  refine ⟨fun _ => ?_, fun _ => trivial⟩
  have htab : word t (infoOf t src) pdi &&& pageMask = tableOf s src pdi := by
    rw [and_pageMask (word_lt _ _ _), ← hsame.tableOf_eq]
    rfl
  rw [wp_bind, wp_entry ht.geometry hinfo (by omega), htab]
  have hrole := hs.tableRole hf.src_mem (by omega) (hhas.counted hs hf.src_mem (by omega))
  have htable : slotAt s src pdi = .table (entriesAt s (tableOf s src pdi)) := by
    unfold slotAt
    rw [if_neg hpr, if_neg (by omega)]
  refine wp_forUp (fun i u => Forked spaces s dst src (1024 * pdi + i) u) _ h (fun i u _ hi hu => ?_) fun u hu => hu
  obtain ⟨hk, hj⟩ := hslot i (by omega)
  obtain ⟨owner'', hut⟩ := hu.neat.1.tree
  have hpage : IsPage u (tableOf s src pdi) := by
    have hpage := hrole.isPage
    unfold IsPage at hpage ⊢
    rwa [hu.placed.mmKernel]
  have hword : word u (tableOf s src pdi) i = word s (tableOf s src pdi) i :=
    (hu.others src hf.src_mem hf.apart.symm pdi (by omega)).table hhas i (by omega)
  have htr : translation s src (4096 * (1024 * pdi + i)) = leaf (word s (tableOf s src pdi) i) (4096 * (1024 * pdi + i)) := by
    rw [translation_table htable hk hj, entriesAt, if_pos (by omega)]
  rw [wp_bind, wp_entry hut.geometry hpage (by omega), hword]
  by_cases hpte : word s (tableOf s src pdi) i % 2 = 0
  · rw [if_pos hpte, wp_pure]
    exact hu.skip (by omega) (htr.trans (leaf_even hpte _))
  · rw [if_neg hpte, wp_bind, wp_entry hut.geometry hpage (by omega), hword]
    exact wp_forkPage hf hu h1 h2 (by omega) (htr.trans (leaf_eq (word_lt _ _ _) (by omega) _))

theorem wp_forkTables (h : Forked spaces s dst src 1024 s) :
    wp (forUp 1 767 (forkSlot dst src (infoOf s src))) anyFault (fun _ u => Forked spaces s dst src 786432 u) s :=
  wp_forUp (fun i u => Forked spaces s dst src (1024 * i) u) _ h
    (fun _ _ hi1 hi2 hu => wp_forkTable hf hu (by omega) (by omega)) fun _ hu => hu

end Loops

end YggKernel.Paging
