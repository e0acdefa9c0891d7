import YggKernel.Paging.Removal

namespace YggKernel.Paging

open Lib.Program Lib.ByteMemory Lib.BitWords Lib.Masks Phys Pool

structure Sound (spaces : List Nat) (s : Machine) : Prop where
  tree : ∃ owner, Tree s spaces owner
  self : ∀ pd ∈ spaces, word s pd 0 = physOf s pd
  loaded : s.cr3 = physOf s s.mmKernel
  hint : s.phys.allocLast < 4294967296

section Frames

variable {s : Machine}

theorem nextFrame_cases (hp : s.phys.allocLast < 4294967296) :
    (∃ n, TookPage s.phys n (takeFrame s).phys ∧ nextFrame s = 4096 * n) ∨
      ((∀ n < 1048576, bit s.phys.bitmap n = true) ∧ nextFrame s = mmNaddr ∧ (takeFrame s).phys = s.phys) := by
  have hflags : ¬(0 &&& mmFlgPs ≠ 0) := by decide
  unfold nextFrame takeFrame mmAllocPhysicalPage
  rw [if_neg hflags]
  rcases allocPage_cases hp with ⟨n, q, took, heq⟩ | ⟨hfull, heq⟩
  · rw [heq]
    exact .inl ⟨n, took, rfl⟩
  · rw [heq]
    exact .inr ⟨hfull, rfl, rfl⟩

theorem nextFrame_lt (hp : s.phys.allocLast < 4294967296) : nextFrame s < 4294967296 := by
  rcases nextFrame_cases hp with ⟨n, took, heq⟩ | ⟨_, heq, _⟩
  · have := took.lt
    omega
  · rw [heq]
    decide

theorem takeFrame_hint (hp : s.phys.allocLast < 4294967296) : (takeFrame s).phys.allocLast < 4294967296 := by
  rcases nextFrame_cases hp with ⟨n, took, _⟩ | ⟨_, _, heq⟩
  · exact took.hint_lt
  · rwa [heq]

theorem freePhysicalPage_hint {p q : PhysAlloc} {page flags : Nat}
    (h : mmFreePhysicalPage p page flags = .ok q) : q.allocLast = p.allocLast := by
  unfold mmFreePhysicalPage at h
  dsimp only at h
  split at h <;> split at h <;> cases h <;> rfl

end Frames

section Keeping

variable {s t : Machine} {spaces : List Nat} {pd v k j : Nat}

theorem Sound.geometry (h : Sound spaces s) : Geometry s := h.tree.choose_spec.geometry

theorem Sound.phys (h : Sound spaces s) {q : PhysAlloc} (hq : q.allocLast < 4294967296) :
    Sound spaces { s with phys := q } :=
  ⟨h.tree.imp fun _ ht => ht.phys q, h.self, h.loaded, hq⟩

theorem Sound.takeFrame (h : Sound spaces s) : Sound spaces (takeFrame s) :=
  h.phys (takeFrame_hint h.hint)

/-- A change of a slot that is not the first one keeps the first slots. -/
theorem Sound.slotChange {owner : Owner} (h : Sound spaces s) (ht : Tree s spaces owner)
    (hpd : pd ∈ spaces) (hlow : 0 < k) (hc : SlotChange s t owner pd k) (hphys : t.phys = s.phys)
    (htree : ∃ owner', Tree t spaces owner') : Sound spaces t := by
  refine ⟨htree, fun pd' hpd' => ?_, ?_, ?_⟩
  · rw [hc.directory_eq ht hpd hpd' (by decide) (by omega), hc.framed.physOf_eq]
    exact h.self pd' hpd'
  · rw [hc.framed.cr3, hc.framed.mmKernel, hc.framed.physOf_eq]
    exact h.loaded
  · rw [hphys]
    exact h.hint

theorem Mapped.sound {e : Nat} (h : Sound spaces s) (hpd : pd ∈ spaces) (hlow : 0 < k) (hk : k < 1023)
    (hm : Mapped s t pd k j e) : Sound spaces t := by
  obtain ⟨owner, ht⟩ := h.tree
  obtain ⟨owner', ht', _⟩ := hm.tree ht hpd hk
  exact h.slotChange ht hpd hlow (hm.slotChange ht hpd hk) hm.phys ⟨owner', ht'⟩

theorem Unmapped.sound (h : Sound spaces s) (hpd : pd ∈ spaces) (hlow : 0 < k) (hk : k < 1023)
    (hu : Unmapped s t pd k j) : Sound spaces t := by
  obtain ⟨owner, ht⟩ := h.tree
  exact h.slotChange ht hpd hlow (hu.slotChange ht hpd hk) hu.phys (hu.tree ht hpd hk)

theorem DirSet.sound {e : Nat} (h : Sound spaces s) (hpd : pd ∈ spaces) (hlow : 0 < k) (hk : k < 1023)
    (hc : DirSet s t pd k e) (he : e % 2 = 0 ∨ e / 128 % 2 = 1) : Sound spaces t := by
  obtain ⟨owner, ht⟩ := h.tree
  exact h.slotChange ht hpd hlow hc.slotChange hc.phys ⟨owner, hc.tree ht hpd hk he⟩

theorem sound_mapRangePage (flags : Nat) (h : Sound spaces s) (hpd : pd ∈ spaces)
    (hlow : 0 < v / 4194304) (hhigh : v / 4194304 < 1023) :
    wp (mapRangePage pd (infoOf s pd) flags v) anyFault
      (fun _ t => Sound spaces t ∧ infoOf t pd = infoOf s pd) s := by
  obtain ⟨owner, ht⟩ := h.tree
  refine wp_mapRangePage flags ht hpd rfl hhigh rfl (nextFrame_lt h.hint) (fun _ _ _ => trivial)
    (fun _ _ => trivial) (fun t _ hm => ?_) fun _ _ _ => ?_
  · exact ⟨hm.sound h.takeFrame hpd hlow hhigh,
      (hm.slotChange ht.takeFrame hpd hhigh).infoOf_eq ht.takeFrame hpd hpd hhigh⟩
  · exact ⟨h.takeFrame, rfl⟩

theorem sound_mapPagesPage {page : Nat} (flags : Nat) (h : Sound spaces s) (hpd : pd ∈ spaces)
    (hlow : 0 < v / 4194304) (hhigh : v / 4194304 < 1023) (hpage : page < 4294967296) :
    wp (mapPagesPage pd (infoOf s pd) flags page v) anyFault
      (fun _ t => Sound spaces t ∧ infoOf t pd = infoOf s pd) s := by
  obtain ⟨owner, ht⟩ := h.tree
  refine wp_mapPagesPage flags ht hpd rfl hhigh rfl hpage (fun _ _ _ => trivial) (fun _ _ => trivial)
    fun t hm => ?_
  exact ⟨hm.sound h hpd hlow hhigh, (hm.slotChange ht hpd hhigh).infoOf_eq ht hpd hpd hhigh⟩

def SlotsIn (start count : Nat) : Prop :=
  ∀ i < count, 0 < u32 (start + i * 0x1000) / 4194304 ∧ u32 (start + i * 0x1000) / 4194304 < 1023

instance (start count : Nat) : Decidable (SlotsIn start count) :=
  inferInstanceAs (Decidable (∀ i < count, _ ∧ _))

theorem wp_infoEntry {E : Fault → Prop} {Q : Nat → Machine → Prop} (h : Sound spaces s)
    (hpd : pd ∈ spaces) : wp (entry pd 1023) E Q s ↔ Q (infoOf s pd) s := by
  obtain ⟨owner, ht⟩ := h.tree
  exact wp_entry ht.geometry (ht.dirPage hpd) (by decide)

theorem sound_mmMapRange {start count : Nat} (flags : Nat) (h : Sound spaces s) (hpd : pd ∈ spaces)
    (hslots : SlotsIn start count) :
    wp (mmMapRange pd start count flags) anyFault (fun _ t => Sound spaces t) s := by
  unfold mmMapRange
  by_cases hps : flags &&& mmFlgPs ≠ 0
  · rw [if_pos hps, wp_bind, wp_throw]
    trivial
  rw [if_neg hps, wp_bind, wp_kassert]
  refine ⟨fun _ => ?_, fun _ => trivial⟩
  rw [wp_bind, wp_infoEntry h hpd, wp_bind]
  refine wp_forUp (fun _ t => Sound spaces t ∧ infoOf t pd = infoOf s pd) _ ⟨h, rfl⟩ ?_ fun t ht => ht.1
  intro i t _ hi ht
  obtain ⟨h1, h2⟩ := hslots i (by omega)
  rw [← ht.2]
  exact sound_mapRangePage flags ht.1 hpd h1 h2

def HugeSlotsIn (first count : Nat) : Prop := ∀ i < count, 0 < first + i ∧ first + i < 1023

theorem hugeFlags_huge (flags : Nat) :
    ((flags &&& (mmFlgWr ||| mmFlgUs)) ||| x86MmFlgPs ||| x86MmFlgPr) / 128 % 2 = 1 := by
  have h : ∀ f < 8, ((f &&& (mmFlgWr ||| mmFlgUs)) ||| x86MmFlgPs ||| x86MmFlgPr) / 128 % 2 = 1 := by decide
  rw [and_mod_two_pow (show mmFlgWr ||| mmFlgUs < 2 ^ 3 by decide)]
  exact h _ (Nat.mod_lt _ (by decide))

theorem or_huge {p f : Nat} (hf : f / 128 % 2 = 1) : (p ||| f) / 128 % 2 = 1 := by
  have hbit : f.testBit 7 = true := by
    rw [Nat.testBit_eq_decide_div_mod_eq]
    exact decide_eq_true hf
  have hor : (p ||| f).testBit 7 = true := by rw [Nat.testBit_or, hbit, Bool.or_true]
  rw [Nat.testBit_eq_decide_div_mod_eq] at hor
  exact of_decide_eq_true hor

theorem or_odd {p f : Nat} (hf : f % 2 = 1) : (p ||| f) % 2 = 1 := by
  rw [Nat.or_mod_two_eq_one]
  exact .inr hf

theorem hugeFlags_lt (flags : Nat) :
    (flags &&& (mmFlgWr ||| mmFlgUs)) ||| x86MmFlgPs ||| x86MmFlgPr < 4294967296 := by
  have h : ∀ f < 8, (f &&& (mmFlgWr ||| mmFlgUs)) ||| x86MmFlgPs ||| x86MmFlgPr < 4294967296 := by decide
  rw [and_mod_two_pow (show mmFlgWr ||| mmFlgUs < 2 ^ 3 by decide)]
  exact h _ (Nat.mod_lt _ (by decide))

theorem sound_mapHugePages {start count : Nat} {pages : Nat → Nat} (flags : Nat) (h : Sound spaces s)
    (hpd : pd ∈ spaces) (hslots : HugeSlotsIn (start / 4194304) count)
    (hpages : ∀ i < count, pages i < 4294967296) :
    wp (mapHugePages pd start pages count flags) anyFault (fun _ t => Sound spaces t) s := by
  refine wp_forUp (fun _ t => Sound spaces t) _ h ?_ fun t ht => ht
  intro i t _ hi ht
  obtain ⟨owner, htree⟩ := ht.tree
  obtain ⟨h1, h2⟩ := hslots i (by omega)
  have hpage := htree.dirPage hpd
  rw [slot_of, wp_bind, wp_entry htree.geometry hpage (by omega), wp_bind, wp_kassert]
  refine ⟨fun _ => ?_, fun _ => trivial⟩
  rw [wp_setEntry htree.geometry _ hpage (by omega)]
  have hlt := Nat.or_lt_two_pow (n := 32) (hpages i (by omega)) (hugeFlags_lt flags)
  exact (dirSet_setWord htree.geometry hpage (by omega) hlt).sound ht hpd h1 h2
    (.inr (or_huge (hugeFlags_huge flags)))

theorem sound_mmMapRangePages {start count flags : Nat} {pages : Nat → Nat} (h : Sound spaces s)
    (hpd : pd ∈ spaces) (hpages : ∀ i < count, pages i < 4294967296)
    (hslots : if flags &&& mmFlgPs ≠ 0 then HugeSlotsIn (start / 4194304) count else SlotsIn start count) :
    wp (mmMapRangePages pd start pages count flags) anyFault (fun _ t => Sound spaces t) s := by
  unfold mmMapRangePages
  rw [wp_bind, wp_kassert]
  refine ⟨fun _ => ?_, fun _ => trivial⟩
  by_cases hps : flags &&& mmFlgPs ≠ 0
  · rw [if_pos hps] at hslots ⊢
    exact (wp_bind _ _ _).mpr (sound_mapHugePages flags h hpd hslots hpages)
  rw [if_neg hps] at hslots ⊢
  rw [wp_bind, wp_infoEntry h hpd, wp_bind]
  refine wp_forUp (fun _ t => Sound spaces t ∧ infoOf t pd = infoOf s pd) _ ⟨h, rfl⟩ ?_ fun t ht => ht.1
  intro i t _ hi ht
  obtain ⟨h1, h2⟩ := hslots i (by omega)
  rw [← ht.2]
  exact sound_mapPagesPage flags ht.1 hpd h1 h2 (hpages i (by omega))

def LinearSlotsIn (start count flags : Nat) : Prop :=
  if flags &&& mmFlgPs ≠ 0 then ∀ i < count,
    0 < u32 ((start &&& hugeMask) + i * 0x400000) / 4194304 ∧
      u32 ((start &&& hugeMask) + i * 0x400000) / 4194304 < 1023
  else SlotsIn (start &&& pageMask) count

theorem wp_discard {σ α : Type} {E : Fault → Prop} {Q : Unit → σ → Prop} {s : σ} (p : Prog Fault σ α) :
    wp (discard p) E Q s ↔ wp p E (fun _ t => Q () t) s := wp_map p (fun _ => ()) Q

theorem sound_mmMapRangeLinear {start pstart count flags : Nat} (h : Sound spaces s) (hpd : pd ∈ spaces)
    (hslots : LinearSlotsIn start count flags) :
    wp (mmMapRangeLinear pd start pstart count flags) anyFault (fun _ t => Sound spaces t) s := by
  unfold mmMapRangeLinear
  unfold LinearSlotsIn at hslots
  rw [wp_bind, wp_kassert]
  refine ⟨fun _ => ?_, fun _ => trivial⟩
  rw [wp_bind, wp_kassert]
  refine ⟨fun _ => ?_, fun _ => trivial⟩
  by_cases hps : flags &&& mmFlgPs ≠ 0
  · rw [if_pos hps] at hslots ⊢
    rw [wp_bind]
    refine wp_forUp (fun _ t => Sound spaces t) _ h ?_ fun t ht => ht
    intro i t _ hi ht
    rw [wp_discard]
    refine sound_mmMapRangePages ht hpd (fun _ _ => u32_lt _) ?_
    rw [if_pos hps]
    intro j hj
    rw [show j = 0 by omega, Nat.add_zero]
    exact hslots i (by omega)
  · rw [if_neg hps] at hslots ⊢
    rw [wp_bind]
    refine wp_forUp (fun _ t => Sound spaces t) _ h ?_ fun t ht => ht
    intro i t _ hi ht
    rw [wp_discard]
    refine sound_mmMapRangePages ht hpd (fun _ _ => u32_lt _) ?_
    rw [if_neg hps]
    intro j hj
    rw [show j = 0 by omega, Nat.zero_mul, Nat.add_zero, u32_of_lt (u32_lt _)]
    exact hslots i (by omega)

theorem Sound.bookkeeping (h : Sound spaces s) (hpd : pd ∈ spaces) (hk : k < 1024)
    (hout : ¬(0 < k ∧ k < 1023)) : word s pd k % 2 = 0 ∧ word s pd k / 128 % 2 = 0 := by
  obtain ⟨owner, ht⟩ := h.tree
  by_cases hk0 : k = 0
  · have hmod := physOf_isPage_aligned ht.geometry (ht.dirPage hpd)
    rw [hk0, h.self pd hpd]
    omega
  · have hmod := (isPage_bounds ht.geometry (ht.infoPage hpd)).1
    unfold infoOf at hmod
    rw [show k = 1023 by omega]
    omega

theorem sound_umapPage (flags : Nat) (h : Sound spaces s) (hpd : pd ∈ spaces)
    (hv : v < 4294967296) :
    wp (umapPage pd (infoOf s pd) flags v) anyFault
      (fun _ t => Sound spaces t ∧ infoOf t pd = infoOf s pd) s := by
  obtain ⟨owner, ht⟩ := h.tree
  by_cases hin : 0 < v / 4194304 ∧ v / 4194304 < 1023
  · refine wp_umapPage flags ht hpd rfl hin.2 rfl (fun _ _ => trivial) (fun _ _ _ => trivial) ?_
    intro q t hq hu
    have hhint : q.allocLast < 4294967296 := by
      by_cases hflag : flags &&& mmFlgNophys = 0
      · rw [if_pos hflag] at hq
        rw [freePhysicalPage_hint hq]
        exact h.hint
      · rw [if_neg hflag] at hq
        rw [hq]
        exact h.hint
    exact ⟨hu.sound (h.phys hhint) hpd hin.1 hin.2,
      (hu.slotChange (ht.phys q) hpd hin.2).infoOf_eq (ht.phys q) hpd hpd hin.2⟩
  · have hk : v / 4194304 < 1024 := by omega
    obtain ⟨heven, _⟩ := h.bookkeeping hpd hk hin
    rw [umapPage, wp_bind, slot_of, wp_entry ht.geometry (ht.dirPage hpd) hk, wp_bind, wp_kassert]
    refine ⟨fun hpr => ?_, fun _ => trivial⟩
    have hodd := of_decide_eq_true hpr
    rw [Ne, not_present_iff] at hodd
    exact absurd heven hodd

theorem sound_umapHugePage (flags : Nat) (h : Sound spaces s) (hpd : pd ∈ spaces)
    (hk : k < 1024) :
    wp (umapHugePage pd flags k) anyFault (fun _ t => Sound spaces t ∧ k < 1023) s := by
  obtain ⟨owner, ht⟩ := h.tree
  have hdir := ht.dirPage hpd
  rw [umapHugePage, wp_bind, wp_entry ht.geometry hdir hk, wp_bind, wp_kassert]
  refine ⟨fun hpr => ?_, fun _ => trivial⟩
  by_cases hin : 0 < k ∧ k < 1023
  · by_cases hflag : flags &&& mmFlgNophys = 0
    · rw [if_pos hflag, wp_bind, wp_entry ht.geometry hdir hk, wp_bind]
      refine wp_freePhysicalPage (fun _ _ => trivial) fun q hq => ?_
      have hq' : q.allocLast < 4294967296 := by
        rw [freePhysicalPage_hint hq]
        exact h.hint
      rw [wp_setEntry (ht.phys q).geometry _ hdir hk]
      exact ⟨(dirSet_setWord (ht.phys q).geometry hdir hk (by decide)).sound (h.phys hq') hpd hin.1 hin.2
        (.inl rfl), hin.2⟩
    · rw [if_neg hflag, wp_setEntry ht.geometry _ hdir hk]
      exact ⟨(dirSet_setWord ht.geometry hdir hk (by decide)).sound h hpd hin.1 hin.2 (.inl rfl), hin.2⟩
  · obtain ⟨h1, h2⟩ := h.bookkeeping hpd hk hin
    have hodd := of_decide_eq_true hpr
    have hboth : word s pd k &&& (x86MmFlgPr ||| x86MmFlgPs) = 0 := by
      rw [Nat.and_or_distrib_left, (not_present_iff _).mpr h1, (not_huge_iff _).mpr h2]
      rfl
    exact absurd hboth hodd

theorem sound_mmUmapRange {start count : Nat} (flags : Nat) (h : Sound spaces s)
    (hpd : pd ∈ spaces) (hstart : start < 4294967296) :
    wp (mmUmapRange pd start count flags) anyFault (fun _ t => Sound spaces t) s := by
  unfold mmUmapRange
  rw [wp_bind, wp_kassert]
  refine ⟨fun _ => ?_, fun _ => trivial⟩
  by_cases hps : flags &&& mmFlgPs ≠ 0
  · rw [if_pos hps, wp_bind]
    refine wp_forUp (fun i t => Sound spaces t ∧ start / 4194304 + i < 1024) _ ⟨h, by omega⟩ ?_
      fun t ht => ht.1
    intro i t _ hi ht
    rw [slot_of]
    exact wp_imp (sound_umapHugePage flags ht.1 hpd ht.2) fun _ u hu => ⟨hu.1, by omega⟩
  rw [if_neg hps, wp_bind, wp_infoEntry h hpd, wp_bind]
  refine wp_forUp (fun _ t => Sound spaces t ∧ infoOf t pd = infoOf s pd) _ ⟨h, rfl⟩ ?_ fun t ht => ht.1
  intro i t _ hi ht
  rw [← ht.2]
  exact sound_umapPage flags ht.1 hpd (u32_lt _)

end Keeping

end YggKernel.Paging
