import YggKernel.Paging.ForkPages

namespace YggKernel.Paging

open Lib.Program Lib.ByteMemory Lib.BitWords Lib.Masks Lib.Runs Phys Pool

structure Cloned (spaces : List Nat) (s : Machine) (dst src K : Nat) (t : Machine) : Prop where
  sound : Sound spaces t
  tidy : Tidy spaces s → Tidy spaces t
  placed : Placed spaces s t
  phys : t.phys = s.phys
  mem : ∀ x, ¬InPaging s x → t.mem x = s.mem x
  others : ∀ pd ∈ spaces, pd ≠ dst → ∀ k < 1024, SlotSame s t pd k
  half : ∀ k, 768 ≤ k → k < K → slotAt t dst k = slotAt s src k
  empty : ∀ k, 0 < k → k < 1023 → k < 768 ∨ K ≤ k → word t dst k = 0

section Clone

variable {s t u : Machine} {spaces : List Nat} {owner : Owner} {dst src pd k k' K : Nat}

theorem Wiped.slotSame (h : Tree s spaces owner) (hdst : dst ∈ spaces) (hc : Wiped s t dst) (hpd : pd ∈ spaces) (hne : pd ≠ dst)
    (hk : k < 1024) : SlotSame s t pd k := by
  have hok := h.spaces pd hpd
  refine ⟨hc.words_other h hdst hok.directory hk (by simp) fun hh => hne hh.1, ?_, fun hhas j hj => ?_⟩
  · unfold slotInfo
    rw [hc.infoOf_eq h hdst hpd]
    refine hc.words_other h hdst hok.info hk (by simpa using hne) fun hh => ?_
    exact hok.info.ne h.geometry (h.spaces dst hdst).directory (by simp) hh.1
  · have hlt := hhas.lt h hpd hk
    have hrole := h.tableRole hpd hlt (hhas.counted h hpd hlt)
    refine hc.words_other h hdst hrole hj (by simp) fun hh => ?_
    exact hrole.ne h.geometry (h.spaces dst hdst).directory (by simp) hh.1

theorem Wiped.cloned (h : Sound spaces s) (hdst : dst ∈ spaces) (hc : Wiped s t dst) : Cloned spaces s dst src 768 t := by
  obtain ⟨owner, ht⟩ := h.tree
  refine ⟨hc.sound h hdst, hc.tidy ht hdst (h.bookkeeping hdst (by decide) (by omega)).1, ⟨hc.framed.mmKernel, hc.framed.paddr, fun _ hpd => hc.infoOf_eq ht hdst hpd⟩, hc.phys,
    hc.framed.mem, fun pd hpd hne k hk => hc.slotSame ht hdst hpd hne hk, fun k h1 h2 => by omega, fun k h1 h2 _ => ?_⟩
  have hne := (ht.spaces dst hdst).directory.ne ht.geometry (ht.spaces dst hdst).info (by simp)
  rw [hc.words _ _ (ht.dirPage hdst) (by omega), if_neg hne, if_pos ⟨rfl, h1, h2⟩]

theorem Cloned.step (h : Cloned spaces s dst src k t) (ht : Tree t spaces owner) (hdst : dst ∈ spaces) (hk1 : 768 ≤ k)
    (hk : k < 1023) (hsound : Sound spaces u) (htidy : Tidy spaces t → Tidy spaces u) (hc : SlotChange t u owner dst k) (hphys : u.phys = t.phys)
    (hslot : slotAt u dst k = slotAt s src k) : Cloned spaces s dst src (k + 1) u := by
  have hsame : ∀ {pd k'}, pd ∈ spaces → k' < 1024 → ¬(pd = dst ∧ k' = k) → SlotSame t u pd k' := fun hpd hk' hne =>
    hc.slotSame ht hdst hk hpd hk' hne
  refine ⟨hsound, htidy ∘ h.tidy, h.placed.trans (hc.placed ht hdst hk), hphys.trans h.phys, fun x hx => ?_,
    fun pd hpd hne k' hk' => (h.others pd hpd hne k' hk').trans (hsame hpd hk' fun hh => hne hh.1), fun k' h1 h2 => ?_,
    fun k' h1 h2 h3 => ?_⟩
  · rw [hc.framed.mem x fun hin => hx ((h.placed.inPaging_iff x).mp hin)]
    exact h.mem x hx
  · by_cases hkk : k' = k
    · rw [hkk, hslot]
    · rw [(hsame hdst (by omega) fun hh => hkk hh.2).slotAt_eq]
      exact h.half k' h1 (by omega)
  · rw [(hsame hdst (by omega) fun hh => by omega).word]
    exact h.empty k' h1 h2 (by omega)

theorem Cloned.skip (h : Cloned spaces s dst src k t) (hdst : dst ∈ spaces) (hk1 : 768 ≤ k) (hk2 : k < 1024)
    (hempty : slotAt s src k = .absent) : Cloned spaces s dst src (k + 1) t := by
  obtain ⟨owner, ht⟩ := h.sound.tree
  refine ⟨h.sound, h.tidy, h.placed, h.phys, h.mem, h.others, fun k' h1 h2 => ?_, fun k' h1 h2 h3 => h.empty k' h1 h2 (by omega)⟩
  by_cases hkk : k' = k
  · rw [hkk, hempty]
    by_cases hlast : k = 1023
    · rw [hlast]
      exact slotAt_last ht hdst
    · refine if_pos ?_
      rw [h.empty k (by omega) (by omega) (by omega)]
  · exact h.half k' h1 (by omega)

/-- `mm_space_clone` makes the kernel half of the destination as the source's and clears the rest. -/
theorem wp_cloneKernel {flags : Nat} (h : Sound spaces s) (hdst : dst ∈ spaces) (hsrc : src ∈ spaces) (hne : dst ≠ src)
    (hflag : flags &&& mmFlgCloneKernel ≠ 0) : wp (mmSpaceClone dst src flags) anyFault (fun _ t => Cloned spaces s dst src 1024 t) s := by
  refine wp_mmSpaceClone _ h hdst hsrc fun u hwiped _ => ?_
  obtain ⟨owner, hs⟩ := h.tree
  rw [if_pos hflag]
  refine wp_forUp (fun k t => Cloned spaces s dst src k t) _ (hwiped.cloned h hdst) (fun k t hk1 hk2 hinv => ?_) fun t ht => ht
  have hk : k < 1024 := by omega
  obtain ⟨owner', ht⟩ := hinv.sound.tree
  have hsame := hinv.others src hsrc hne.symm k hk
  rw [hwiped.infoOf_eq hs hdst hsrc, hwiped.infoOf_eq hs hdst hdst, ← hinv.placed.info src hsrc, ← hinv.placed.info dst hdst]
  refine wp_cloneSlot ht hdst hsrc hk (fun _ _ _ _ => trivial) (fun heven => ?_) (fun hlt hpr hps v hc => ?_)
    fun hlt hpr hps n v hc => ?_
  · refine hinv.skip hdst hk1 hk (hsame.slotAt_eq.symm.trans (if_pos heven))
  · refine hinv.step ht hdst hk1 hlt (hc.sound hinv.sound hdst (by omega) hlt (.inr hps)) (hc.tidy ht hdst hlt (.inr hps))
      hc.slotChange hc.phys ?_
    have hword : word v dst k = word t src k := hc.entry_eq ht hdst (by omega)
    rw [← hsame.slotAt_eq]
    unfold slotAt
    rw [hword, if_neg (by omega), if_pos hps, if_neg (by omega), if_pos hps]
  · have hinfo := (((ht.spaces src hsrc).slots k hlt).entry hpr hps).1
    have hpos := (((ht.spaces src hsrc).slots k hlt).counted hinfo).2
    have hchange := hc.slotChange ht
    have hsound : Sound spaces v := hinv.sound.slotChange ht hdst (by omega) hchange hc.phys
      ⟨_, hc.tree ht hdst hlt hpos (Nat.mod_lt _ (by decide))⟩
    refine hinv.step ht hdst hk1 hlt hsound (hc.tidy_copy ht hdst hsrc hlt ⟨hpr, hps⟩) hchange hc.phys ?_
    rw [hc.slotAt_eq ht hdst hlt (Nat.mod_lt _ (by decide)), ← hsame.slotAt_eq]
    unfold slotAt
    rw [if_neg (by omega), if_neg (by omega)]
    rfl

end Clone

section Start

variable {s t : Machine} {spaces : List Nat} {dst src : Nat}

theorem Cloned.forkable (hf : Forkable spaces s dst src) (hc : Cloned spaces s dst src 1024 t) : Forkable spaces t dst src := by
  obtain ⟨owner, hs⟩ := hf.neat.1.tree
  have hin := hc.placed.inPaging_iff
  have htr : ∀ v, v < 786432 → translation t src (4096 * v) = translation s src (4096 * v) := fun v hv =>
    (hc.others src hf.src_mem hf.apart.symm _ (by omega)).translation_eq
  refine ⟨⟨hc.sound, hc.tidy hf.neat.2⟩, hf.low.keep hc.placed.mmKernel fun k hk => hc.others _ hs.kernel hf.kernel.symm k (by omega), hf.dst_mem,
    hf.src_mem, hf.apart, fun heq => hf.kernel (heq.trans hc.placed.mmKernel), fun v h1 h2 p f hp => ?_⟩
  rw [htr v h2] at hp
  rw [hc.phys]
  exact ⟨(hf.frames v h1 h2 p f hp).1, fun i hi hx => (hf.frames v h1 h2 p f hp).2 i hi ((hin _).mp hx)⟩

theorem Cloned.forked (hf : Forkable spaces s dst src) (hc : Cloned spaces s dst src 1024 t)
    (hahead : FramesAhead (pagesLeft s src 1024).card s) : Forked spaces t dst src 1024 t := by
  have hpages : pagesLeft t src 1024 = pagesLeft s src 1024 := by
    refine Finset.filter_congr fun v hv => ?_
    rw [(hc.others src hf.src_mem hf.apart.symm _ (by have := Finset.mem_range.mp hv; omega)).translation_eq]
  refine ⟨⟨hc.sound, hc.tidy hf.neat.2⟩, (hc.forkable hf).low, Placed.refl spaces t, Grown.refl t, fun pd _ _ k _ => SlotSame.refl t pd k,
    fun k _ _ => SlotSame.refl t dst k, fun v h1 h2 => by omega, fun v h1 h2 => ?_, fun v w p f g h1 h2 => by omega,
    fun _ _ _ => rfl, ?_⟩
  · refine translation_absent (k := 4096 * v / 4194304) (if_pos ?_) rfl
    rw [hc.empty _ (by omega) (by omega) (.inl (by omega))]
  · rw [hpages]
    exact hahead.congr hc.phys hc.placed.inPaging_iff

end Start

/-- What a fork leaves: the kernel half is shared, every user page has its own copy, and nothing else changes. -/
structure ForkResult (spaces : List Nat) (s t : Machine) (dst src : Nat) : Prop where
  kernel : ∀ a, kernelVirtBase ≤ a → a < 4294967296 → walk t dst a = walk s src a
  unmapped : ∀ a, a % 4096 = 0 → 0x400000 ≤ a → a < kernelVirtBase → walk s src a = none → walk t dst a = none
  copied : ∀ a p f, a % 4096 = 0 → 0x400000 ≤ a → a < kernelVirtBase → walk s src a = some (p, f) →
    ∃ n, walk t dst a = some (4096 * n, (f &&& mmFlgWr) ||| mmFlgUs) ∧ bit s.phys.bitmap n = false ∧
      bit t.phys.bitmap n = true ∧ ∀ i < 4096, t.mem (4096 * n + i) = s.mem (p + i)
  distinct : ∀ a b p f g, a % 4096 = 0 → 0x400000 ≤ a → a < kernelVirtBase → b % 4096 = 0 → 0x400000 ≤ b → b < kernelVirtBase →
    walk t dst a = some (p, f) → walk t dst b = some (p, g) → a = b
  tables : ∀ pd ∈ spaces, pd ≠ dst → ∀ k < 1023, ∀ k' < 1023, HasTable t dst k → HasTable t pd k' → tableOf t dst k ≠ tableOf t pd k'
  others : ∀ pd ∈ spaces, pd ≠ dst → ∀ a < 4294967296, walk t pd a = walk s pd a
  mem : ∀ x, ¬InPaging s x → bit s.phys.bitmap (x / 4096) = true → t.mem x = s.mem x

section Whole

variable {s t u : Machine} {spaces : List Nat} {dst src flags r : Nat}

theorem Forked.result (hf : Forkable spaces s dst src) (hc : Cloned spaces s dst src 1024 u)
    (h : Forked spaces u dst src 786432 t) : ForkResult spaces s t dst src := by
  obtain ⟨owner, hs⟩ := hf.neat.1.tree
  obtain ⟨owner', ht⟩ := h.neat.1.tree
  have hin := hc.placed.inPaging_iff
  have hwalk : ∀ {pd}, pd ∈ spaces → ∀ {a}, a < 4294967296 → walk s pd a = translation s pd a := fun hpd _ ha =>
    walk_translation hs hpd ha
  have hwalk' : ∀ {pd}, pd ∈ spaces → ∀ {a}, a < 4294967296 → walk t pd a = translation t pd a := fun hpd _ ha =>
    walk_translation ht hpd ha
  have hsame : ∀ pd ∈ spaces, pd ≠ dst → ∀ k < 1024, SlotSame s t pd k := fun pd hpd hne k hk =>
    (hc.others pd hpd hne k hk).trans (h.others pd hpd hne k hk)
  have hsrc : ∀ a, a < 4294967296 → translation u src a = translation s src a := fun a ha =>
    (hc.others src hf.src_mem hf.apart.symm _ (by omega)).translation_eq
  have hnumber : ∀ {a}, a % 4096 = 0 → 0x400000 ≤ a → a < kernelVirtBase →
      ∃ v, a = 4096 * v ∧ 1024 ≤ v ∧ v < 786432 := fun {a} h1 h2 h3 => by
    have h3' : a < 3221225472 := h3
    exact ⟨a / 4096, by omega, by omega, by omega⟩
  refine ⟨fun a h1 h2 => ?_, fun a h1 h2 h3 hnone => ?_, fun a p f h1 h2 h3 hmaps => ?_, fun a b p f g ha1 ha2 ha3 hb1 hb2 hb3 ha hb => ?_,
    fun pd hpd hne k hk k' hk' hhas hhas' heq => ?_, fun pd hpd hne a ha => ?_, fun x hx hused => ?_⟩
  · have h1' : 3221225472 ≤ a := h1
    rw [hwalk' hf.dst_mem h2, hwalk hf.src_mem h2, (h.kernel (a / 4194304) (by omega) (by omega)).translation_eq, translation,
      hc.half _ (by omega) (by omega)]
    rfl
  · obtain ⟨v, rfl, hv1, hv2⟩ := hnumber h1 h2 h3
    rw [hwalk hf.src_mem (by omega)] at hnone
    rw [hwalk' hf.dst_mem (by omega)]
    rcases h.done v hv1 hv2 with ⟨_, hgone⟩ | ⟨p, f, n, hmaps, _⟩
    · exact hgone
    · rw [hsrc _ (by omega), hnone] at hmaps
      cases hmaps
  · obtain ⟨v, rfl, hv1, hv2⟩ := hnumber h1 h2 h3
    rw [hwalk hf.src_mem (by omega)] at hmaps
    rcases h.done v hv1 hv2 with ⟨hnone, _⟩ | ⟨p', f', n, hmaps', hcopy, hfree, hset, hbytes⟩
    · rw [hsrc _ (by omega), hmaps] at hnone
      cases hnone
    · rw [hsrc _ (by omega), hmaps] at hmaps'
      obtain ⟨rfl, rfl⟩ := Prod.mk.inj (Option.some.inj hmaps')
      rw [hc.phys] at hfree
      refine ⟨n, (hwalk' hf.dst_mem (by omega)).trans hcopy, hfree, hset, fun i hi => ?_⟩
      rw [(hbytes i hi).2]
      exact hc.mem _ ((hf.frames v hv1 hv2 _ _ hmaps).2 i hi)
  · obtain ⟨v, rfl, hv1, hv2⟩ := hnumber ha1 ha2 ha3
    obtain ⟨w, rfl, hw1, hw2⟩ := hnumber hb1 hb2 hb3
    rw [hwalk' hf.dst_mem (by omega)] at ha hb
    rw [h.distinct v w p f g hv1 hv2 hw1 hw2 ha hb]
  · have hrole := ht.tableRole hf.dst_mem hk (hhas.counted ht hf.dst_mem hk)
    have hrole' := ht.tableRole hpd hk' (hhas'.counted ht hpd hk')
    refine hrole.ne ht.geometry hrole' (fun huse => ?_) heq
    injection huse with hpd'
    exact hne hpd'.symm
  · rw [hwalk' hpd ha, hwalk hpd ha]
    exact (hsame pd hpd hne _ (by omega)).translation_eq
  · have hused' : bit u.phys.bitmap (x / 4096) = true := hc.phys.symm ▸ hused
    rw [h.mem x (fun hx' => hx ((hin x).mp hx')) hused']
    exact hc.mem x hx

theorem wp_mmSpaceFork (hf : Forkable spaces s dst src) (hahead : FramesAhead (pagesLeft s src 1024).card s)
    (hkernel : flags &&& mmFlgCloneKernel ≠ 0) (huser : flags &&& mmFlgCloneUser ≠ 0) :
    wp (mmSpaceFork dst src flags) anyFault (fun r t => r = 0 ∧ ∃ u, Cloned spaces s dst src 1024 u ∧
      Forked spaces u dst src 786432 t) s := by
  unfold mmSpaceFork
  rw [if_pos hkernel, wp_bind]
  refine wp_imp (wp_cloneKernel hf.neat.1 hf.dst_mem hf.src_mem hf.apart (by decide)) fun _ u hc => ?_
  rw [wp_bind, wp_infoEntry hc.sound hf.src_mem, if_pos huser, wp_bind, show (kernelVirtBase >>> 22) - 1 = 767 by decide]
  exact wp_imp (wp_forkTables (hc.forkable hf) (hc.forked hf hahead)) fun _ t ht => ⟨rfl, u, hc, ht⟩

end Whole

end YggKernel.Paging
