import YggKernel.Paging.Fork

namespace YggKernel.Paging

open Lib.Program Lib.ByteMemory Lib.BitWords Lib.Masks Lib.Runs Phys Pool

structure Kept (spaces : List Nat) (W : Nat → Nat → Prop) (s t : Machine) : Prop where
  sound : Sound spaces t
  placed : Placed spaces s t
  same : ∀ pd ∈ spaces, ∀ k < 1024, ¬W pd k → SlotSame s t pd k

section Kept

variable {s t u : Machine} {spaces : List Nat} {owner : Owner} {W : Nat → Nat → Prop} {pd k v : Nat}

theorem Kept.refl (h : Sound spaces s) : Kept spaces W s s := ⟨h, Placed.refl spaces s, fun pd _ k _ _ => SlotSame.refl s pd k⟩

theorem Kept.trans (h : Kept spaces W s t) (h' : Kept spaces W t u) : Kept spaces W s u :=
  ⟨h'.sound, h.placed.trans h'.placed, fun pd hpd k hk hW => (h.same pd hpd k hk hW).trans (h'.same pd hpd k hk hW)⟩

theorem Kept.weaken {V : Nat → Nat → Prop} (h : Kept spaces V s t) (hVW : ∀ pd k, V pd k → W pd k) : Kept spaces W s t :=
  ⟨h.sound, h.placed, fun pd hpd k hk hW => h.same pd hpd k hk fun hV => hW (hVW pd k hV)⟩

theorem Kept.phys (h : Kept spaces W s t) {q : PhysAlloc} (hq : q.allocLast < 4294967296) : Kept spaces W s { t with phys := q } := by
  refine ⟨h.sound.phys hq, ⟨h.placed.mmKernel, h.placed.paddr, h.placed.info⟩, fun pd hpd k hk hW => ?_⟩
  have hsame := h.same pd hpd k hk hW
  exact ⟨hsame.word, hsame.info, hsame.table⟩

theorem Kept.poke (h : Kept spaces W s t) {m : Mem} (hm : ∀ x, InPaging t x → m x = t.mem x) :
    Kept spaces W s { t with mem := m } := by
  obtain ⟨owner, ht⟩ := h.sound.tree
  have hword : ∀ v i, IsPage t v → i < 1024 → word { t with mem := m } v i = word t v i := fun v i hv hi =>
    word_poke ht.geometry hm hv hi
  have hinfo : ∀ pd ∈ spaces, infoOf { t with mem := m } pd = infoOf t pd := fun pd hpd => hword _ _ (ht.dirPage hpd) (by decide)
  refine ⟨h.sound.poke hm, h.placed.trans ⟨rfl, rfl, hinfo⟩, fun pd hpd k hk hW => (h.same pd hpd k hk hW).trans ⟨?_, ?_, ?_⟩⟩
  · exact hword _ _ (ht.dirPage hpd) hk
  · unfold slotInfo
    rw [hinfo pd hpd]
    exact hword _ _ (ht.infoPage hpd) hk
  · exact fun hhas j hj => hword _ _ (ht.tableRole hpd (hhas.lt ht hpd hk) (hhas.counted ht hpd (hhas.lt ht hpd hk))).isPage hj

theorem Kept.change (h : Kept spaces W s t) (ht : Tree t spaces owner) (hpd : pd ∈ spaces) (hk : k < 1023) (hW : W pd k)
    (hu : Sound spaces u) (hc : SlotChange t u owner pd k) : Kept spaces W s u := by
  refine ⟨hu, h.placed.trans (hc.placed ht hpd hk), fun pd' hpd' k' hk' hW' => (h.same pd' hpd' k' hk' hW').trans ?_⟩
  refine hc.slotSame ht hpd hk hpd' hk' fun heq => hW' ?_
  rwa [heq.1, heq.2]

theorem Mapped.keeps {e j : Nat} (h : Kept spaces W s t) (hpd : pd ∈ spaces) (hlow : 0 < k) (hk : k < 1023) (hW : W pd k)
    (hm : Mapped t u pd k j e) : Kept spaces W s u := by
  obtain ⟨owner, ht⟩ := h.sound.tree
  exact h.change ht hpd hk hW (hm.sound h.sound hpd hlow hk) (hm.slotChange ht hpd hk)

theorem Unmapped.keeps {j : Nat} (h : Kept spaces W s t) (hpd : pd ∈ spaces) (hlow : 0 < k) (hk : k < 1023) (hW : W pd k)
    (hu : Unmapped t u pd k j) : Kept spaces W s u := by
  obtain ⟨owner, ht⟩ := h.sound.tree
  exact h.change ht hpd hk hW (hu.sound h.sound hpd hlow hk) (hu.slotChange ht hpd hk)

theorem DirSet.keeps {e : Nat} (h : Kept spaces W s t) (hpd : pd ∈ spaces) (hlow : 0 < k) (hk : k < 1023) (hW : W pd k)
    (he : e % 2 = 0 ∨ e / 128 % 2 = 1) (hc : DirSet t u pd k e) : Kept spaces W s u := by
  obtain ⟨owner, ht⟩ := h.sound.tree
  exact h.change ht hpd hk hW (hc.sound h.sound hpd hlow hk he) hc.slotChange

end Kept

section Calls

variable {s t : Machine} {spaces : List Nat} {owner : Owner} {W : Nat → Nat → Prop} {pd start count flags : Nat} {pages : Nat → Nat}

theorem kept_mmMapRange (flags : Nat) (h : Sound spaces s) (hpd : pd ∈ spaces) (hslots : SlotsIn start count)
    (hW : ∀ i < count, W pd (slotOf (page start i))) :
    wp (mmMapRange pd start count flags) anyFault (fun _ t => Kept spaces W s t) s := by
  unfold mmMapRange
  by_cases hps : flags &&& mmFlgPs ≠ 0
  · rw [if_pos hps, wp_bind, wp_throw]
    trivial
  rw [if_neg hps, wp_bind, wp_kassert]
  refine ⟨fun _ => ?_, fun _ => trivial⟩
  rw [wp_bind, wp_infoEntry h hpd, wp_bind]
  refine wp_forUp (fun _ t => Kept spaces W s t) _ (Kept.refl h) (fun i t _ hi ht => ?_) fun t ht => ht
  obtain ⟨hlow, hhigh⟩ := hslots i (by omega)
  obtain ⟨owner, htree⟩ := ht.sound.tree
  have hframe : Kept spaces W s (takeFrame t) := ht.phys (takeFrame_hint ht.sound.hint)
  rw [← ht.placed.info pd hpd]
  exact wp_mapRangePage flags htree hpd rfl hhigh rfl (nextFrame_lt ht.sound.hint) (fun _ _ _ => trivial) (fun _ _ => trivial)
    (fun u _ hm => hm.keeps hframe hpd hlow hhigh (hW i (by omega))) fun _ _ _ => hframe

theorem kept_mmMapRangePages (h : Sound spaces s) (hpd : pd ∈ spaces) (hpages : ∀ i < count, pages i < 4294967296)
    (hslots : if flags &&& mmFlgPs ≠ 0 then HugeSlotsIn (start / 4194304) count else SlotsIn start count)
    (hW : ∀ i < count, W pd (if flags &&& mmFlgPs ≠ 0 then start / 4194304 + i else slotOf (page start i))) :
    wp (mmMapRangePages pd start pages count flags) anyFault (fun _ t => Kept spaces W s t) s := by
  unfold mmMapRangePages
  rw [wp_bind, wp_kassert]
  refine ⟨fun _ => ?_, fun _ => trivial⟩
  by_cases hps : flags &&& mmFlgPs ≠ 0
  · simp only [if_pos hps] at hslots hW ⊢
    rw [wp_bind]
    refine wp_forUp (fun _ t => Kept spaces W s t) _ (Kept.refl h) (fun i t _ hi ht => ?_) fun t ht => ht
    obtain ⟨owner, htree⟩ := ht.sound.tree
    obtain ⟨h1, h2⟩ := hslots i (by omega)
    have hlt := Nat.or_lt_two_pow (n := 32) (hpages i (by omega)) (hugeFlags_lt flags)
    rw [slot_of]
    exact wp_hugeRound htree hpd (by omega) hlt fun u hc =>
      hc.keeps ht hpd h1 h2 (hW i (by omega)) (.inr (or_huge (hugeFlags_huge flags)))
  · simp only [if_neg hps] at hslots hW ⊢
    rw [wp_bind, wp_infoEntry h hpd, wp_bind]
    refine wp_forUp (fun _ t => Kept spaces W s t) _ (Kept.refl h) (fun i t _ hi ht => ?_) fun t ht => ht
    obtain ⟨owner, htree⟩ := ht.sound.tree
    obtain ⟨hlow, hhigh⟩ := hslots i (by omega)
    rw [← ht.placed.info pd hpd]
    exact wp_mapPagesPage flags htree hpd rfl hhigh rfl (hpages i (by omega)) (fun _ _ _ => trivial) (fun _ _ => trivial)
      fun u hm => hm.keeps ht hpd hlow hhigh (hW i (by omega))

def linearPage (start flags i : Nat) : Nat :=
  if flags &&& mmFlgPs ≠ 0 then u32 ((start &&& hugeMask) + i * 0x400000) else page (start &&& pageMask) i

theorem kept_mmMapRangeLinear {pstart : Nat} (h : Sound spaces s) (hpd : pd ∈ spaces) (hslots : LinearSlotsIn start count flags)
    (hW : ∀ i < count, W pd (slotOf (linearPage start flags i))) :
    wp (mmMapRangeLinear pd start pstart count flags) anyFault (fun _ t => Kept spaces W s t) s := by
  unfold mmMapRangeLinear
  unfold LinearSlotsIn at hslots
  unfold linearPage at hW
  rw [wp_bind, wp_kassert]
  refine ⟨fun _ => ?_, fun _ => trivial⟩
  rw [wp_bind, wp_kassert]
  refine ⟨fun _ => ?_, fun _ => trivial⟩
  by_cases hps : flags &&& mmFlgPs ≠ 0
  · simp only [if_pos hps] at hslots hW ⊢
    rw [wp_bind]
    refine wp_forUp (fun _ t => Kept spaces W s t) _ (Kept.refl h) (fun i t _ hi ht => ?_) fun t ht => ht
    rw [wp_discard]
    refine wp_imp (kept_mmMapRangePages ht.sound hpd (fun _ _ => u32_lt _) ?_ fun j hj => ?_) fun _ u hu => ht.trans hu
    · rw [if_pos hps]
      intro j hj
      rw [Nat.lt_one_iff.mp hj, Nat.add_zero]
      exact hslots i (by omega)
    · rw [if_pos hps, Nat.lt_one_iff.mp hj, Nat.add_zero]
      exact hW i (by omega)
  · simp only [if_neg hps] at hslots hW ⊢
    rw [wp_bind]
    refine wp_forUp (fun _ t => Kept spaces W s t) _ (Kept.refl h) (fun i t _ hi ht => ?_) fun t ht => ht
    have hpage : page (u32 ((start &&& pageMask) + i * 0x1000)) 0 = page (start &&& pageMask) i := by
      unfold page
      rw [Nat.zero_mul, Nat.add_zero, u32_of_lt (u32_lt _)]
    rw [wp_discard]
    refine wp_imp (kept_mmMapRangePages ht.sound hpd (fun _ _ => u32_lt _) ?_ fun j hj => ?_) fun _ u hu => ht.trans hu
    · rw [if_neg hps]
      intro j hj
      rw [Nat.lt_one_iff.mp hj]
      have hin : 0 < page (start &&& pageMask) i / 4194304 ∧ page (start &&& pageMask) i / 4194304 < 1023 := hslots i (by omega)
      rw [← hpage] at hin
      exact hin
    · rw [if_neg hps, Nat.lt_one_iff.mp hj, hpage]
      exact hW i (by omega)

theorem kept_umapPage {v : Nat} (flags : Nat) (h : Kept spaces W s t) (hpd : pd ∈ spaces) (hv : v < 4294967296)
    (hW : W pd (slotOf v)) : wp (umapPage pd (infoOf t pd) flags v) anyFault (fun _ u => Kept spaces W s u) t := by
  obtain ⟨owner, ht⟩ := h.sound.tree
  by_cases hin : 0 < v / 4194304 ∧ v / 4194304 < 1023
  · refine wp_umapPage flags ht hpd rfl hin.2 rfl (fun _ _ => trivial) (fun _ _ _ => trivial) fun q u hq hu => ?_
    have hhint : q.allocLast < 4294967296 := by
      by_cases hflag : flags &&& mmFlgNophys = 0
      · rw [if_pos hflag] at hq
        rw [freePhysicalPage_hint hq]
        exact h.sound.hint
      · rw [if_neg hflag] at hq
        rw [hq]
        exact h.sound.hint
    exact hu.keeps (h.phys hhint) hpd hin.1 hin.2 hW
  · have hk : v / 4194304 < 1024 := by omega
    obtain ⟨heven, _⟩ := h.sound.bookkeeping hpd hk hin
    rw [umapPage, wp_bind, slot_of, wp_entry ht.geometry (ht.dirPage hpd) hk, wp_bind, wp_kassert]
    refine ⟨fun hpr => ?_, fun _ => trivial⟩
    have hodd := of_decide_eq_true hpr
    rw [Ne, not_present_iff] at hodd
    exact absurd heven hodd

theorem kept_umapHugePage {k : Nat} (flags : Nat) (h : Kept spaces W s t) (hpd : pd ∈ spaces) (hk : k < 1024) (hW : W pd k) :
    wp (umapHugePage pd flags k) anyFault (fun _ u => Kept spaces W s u ∧ k < 1023) t := by
  refine wp_imp (wp_and (sound_umapHugePage flags h.sound hpd hk) (?_ : wp _ anyFault (fun _ u => k < 1023 →
    Sound spaces u → Kept spaces W s u) t)) fun _ u hu => ⟨hu.2 hu.1.2 hu.1.1, hu.1.2⟩
  obtain ⟨owner, ht⟩ := h.sound.tree
  have hdir := ht.dirPage hpd
  rw [umapHugePage, wp_bind, wp_entry ht.geometry hdir hk, wp_bind, wp_kassert]
  refine ⟨fun _ => ?_, fun _ => trivial⟩
  by_cases hflag : flags &&& mmFlgNophys = 0
  · rw [if_pos hflag, wp_bind, wp_entry ht.geometry hdir hk, wp_bind]
    refine wp_freePhysicalPage (fun _ _ => trivial) fun q hq => ?_
    have hq' : q.allocLast < 4294967296 := by
      rw [freePhysicalPage_hint hq]
      exact h.sound.hint
    rw [wp_setEntry (ht.phys q).geometry _ hdir hk]
    exact fun hin hu => (h.phys hq').change (ht.phys q) hpd hin hW hu
      (dirSet_setWord (ht.phys q).geometry hdir hk (by decide)).slotChange
  · rw [if_neg hflag, wp_setEntry ht.geometry _ hdir hk]
    exact fun hin hu => h.change ht hpd hin hW hu (dirSet_setWord ht.geometry hdir hk (by decide)).slotChange

theorem kept_mmUmapRange (flags : Nat) (h : Sound spaces s) (hpd : pd ∈ spaces) (hstart : start < 4294967296)
    (hW : ∀ i < count, W pd (if flags &&& mmFlgPs ≠ 0 then start / 4194304 + i else slotOf (page start i))) :
    wp (mmUmapRange pd start count flags) anyFault (fun _ t => Kept spaces W s t) s := by
  unfold mmUmapRange
  rw [wp_bind, wp_kassert]
  refine ⟨fun _ => ?_, fun _ => trivial⟩
  by_cases hps : flags &&& mmFlgPs ≠ 0
  · simp only [if_pos hps] at hW ⊢
    rw [wp_bind]
    refine wp_forUp (fun i t => Kept spaces W s t ∧ start / 4194304 + i < 1024) _ ⟨Kept.refl h, by omega⟩ (fun i t _ hi ht => ?_)
      fun t ht => ht.1
    rw [slot_of]
    exact wp_imp (kept_umapHugePage flags ht.1 hpd ht.2 (hW i (by omega))) fun _ u hu => ⟨hu.1, by omega⟩
  · simp only [if_neg hps] at hW ⊢
    rw [wp_bind, wp_infoEntry h hpd, wp_bind]
    refine wp_forUp (fun _ t => Kept spaces W s t) _ (Kept.refl h) (fun i t _ hi ht => ?_) fun t ht => ht
    rw [← ht.placed.info pd hpd]
    exact kept_umapPage flags ht hpd (u32_lt _) (hW i (by omega))

end Calls

section Copies

variable {s t : Machine} {spaces : List Nat} {W : Nat → Nat → Prop} {dst src pd v pdi pti : Nat}

theorem kept_mmSpaceClone (flags : Nat) (h : Sound spaces s) (hdst : dst ∈ spaces) (hsrc : src ∈ spaces) (hW : ∀ k, W dst k) :
    wp (mmSpaceClone dst src flags) anyFault (fun _ t => Kept spaces W s t ∧ t.phys = s.phys) s := by
  refine wp_mmSpaceClone flags h hdst hsrc fun u hwiped hsound => ?_
  obtain ⟨owner, ht⟩ := h.tree
  have hstart : Kept spaces W s u := by
    refine ⟨hsound, ⟨hwiped.framed.mmKernel, hwiped.framed.paddr, fun _ hpd => hwiped.infoOf_eq ht hdst hpd⟩,
      fun pd hpd k hk hnot => hwiped.slotSame ht hdst hpd (fun heq => hnot ?_) hk⟩
    rw [heq]
    exact hW k
  by_cases hflag : flags &&& mmFlgCloneKernel ≠ 0
  · rw [if_pos hflag]
    refine wp_forUp (fun _ t => Kept spaces W s t ∧ t.phys = s.phys) _ ⟨hstart, hwiped.phys⟩ (fun i t hi1 hi2 hinv => ?_)
      fun t ht => ht
    obtain ⟨hk, hph⟩ := hinv
    obtain ⟨owner', ht'⟩ := hk.sound.tree
    rw [hwiped.infoOf_eq ht hdst hsrc, hwiped.infoOf_eq ht hdst hdst, ← hk.placed.info src hsrc, ← hk.placed.info dst hdst]
    refine wp_cloneSlot ht' hdst hsrc (by omega) (fun _ _ _ _ => trivial) (fun _ => ⟨hk, hph⟩) (fun hlt hpr hps v hc => ?_)
      fun hlt hpr hps n v hc => ?_
    · exact ⟨hc.keeps hk hdst (by omega) hlt (hW i) (.inr hps), hc.phys.trans hph⟩
    · have hinfo := (((ht'.spaces src hsrc).slots i hlt).entry hpr hps).1
      have hpos := (((ht'.spaces src hsrc).slots i hlt).counted hinfo).2
      have hchange := hc.slotChange ht'
      exact ⟨hk.change ht' hdst hlt (hW i) (hk.sound.slotChange ht' hdst (by omega) hchange hc.phys
        ⟨_, hc.tree ht' hdst hlt hpos (Nat.mod_lt _ (by decide))⟩) hchange, hc.phys.trans hph⟩
  · rw [if_neg hflag, wp_pure]
    exact ⟨hstart, hwiped.phys⟩

theorem wp_readBytes_any {Q : List (BitVec 8) → Machine → Prop} (n : Nat) (hQ : ∀ bytes, Q bytes s) :
    wp (readBytes v n) anyFault Q s := by
  induction n generalizing v Q with
  | zero => exact hQ []
  | succ n ih =>
    rw [readBytes, wp_bind, access, wp_bind, wp_get]
    cases resolve s v with
    | none => trivial
    | some p =>
      dsimp only
      rw [wp_pure, wp_bind, wp_get, wp_bind]
      exact ih fun bytes => hQ _

variable (h : Sound spaces s) (hpd : pd ∈ spaces) (hv : v % 4096 = 0) (hlow : v + 4096 ≤ 0xC0000000)
  (hslot : 0 < v / 4194304) (hW : W s.mmKernel (v / 4194304))
include h hpd hv hlow hslot hW

theorem kept_readPage : wp (mmMemcpyUserToKernel pd v 0x1000) anyFault (fun _ t => Kept spaces W s t) s := by
  have hlt : v + 8192 ≤ 4294967296 := by omega
  have hk : v / 4194304 < 1023 := by omega
  obtain ⟨owner, ht⟩ := h.tree
  rw [mmMemcpyUserToKernel, copyPages_page _ _ _ hv hlt, wp_bind]
  refine wp_openWindow ht hpd hv (by omega) hk (fun _ _ _ => trivial) (fun _ _ => trivial) fun p f t _ _ _ _ hm => ?_
  have hopen : Kept spaces W s t := hm.keeps (Kept.refl h) ht.kernel hslot hk hW
  obtain ⟨owner', ht'⟩ := hopen.sound.tree
  rw [wp_bind, wp_bind]
  refine wp_readBytes_any _ fun bytes => ?_
  rw [wp_pure, wp_bind]
  refine wp_closeWindow ht' hv (by omega) hk (fun _ _ => trivial) fun u hu => ?_
  rw [wp_pure]
  exact hu.keeps hopen ht'.kernel hslot hk (by rwa [hopen.placed.mmKernel])

theorem kept_writePage (bytes : List (BitVec 8))
    (hapart : ∀ p f, translation s pd v = some (p, f) → ∀ x, p ≤ x → x < p + 4096 → ¬InPaging s x) :
    wp (mmMemcpyKernelToUser pd v bytes 0x1000) anyFault (fun _ t => Kept spaces W s t) s := by
  have hlt : v + 8192 ≤ 4294967296 := by omega
  have hk : v / 4194304 < 1023 := by omega
  obtain ⟨owner, ht⟩ := h.tree
  rw [mmMemcpyKernelToUser, copyPages_page _ _ _ hv hlt, List.drop_zero, wp_bind]
  refine wp_openWindow ht hpd hv (by omega) hk (fun _ _ _ => trivial) (fun _ _ => trivial) fun p f t htr _ hp _ hm => ?_
  have hopen : Kept spaces W s t := hm.keeps (Kept.refl h) ht.kernel hslot hk hW
  obtain ⟨owner', ht'⟩ := hopen.sound.tree
  have hker := hm.framed.mmKernel
  have htr' := hm.translation_eq ht ht.kernel hk (by omega) (by omega)
  have hle : (bytes.take 4096).length ≤ 4096 := List.length_take_le _ _
  have hreach : Reaches t (v + 0) ((p + 3) / 4096 * 4096 + v % 4096 + 0) (bytes.take 4096).length :=
    reaches_page ht' hopen.sound.loaded (by rwa [hker]) hv hlow (by omega)
  have hframe : (p + 3) / 4096 * 4096 + v % 4096 = p := by omega
  rw [Nat.add_zero, Nat.add_zero, hframe] at hreach
  have hout : ∀ i < (bytes.take 4096).length, ¬InPaging t (p + i) := by
    intro i hi
    rw [hm.framed.inPaging_iff]
    exact hapart p f htr _ (by omega) (by omega)
  have hkeep : ∀ x, InPaging t x → overlay t.mem p (bytes.take 4096) x = t.mem x := by
    intro x hx
    refine if_neg fun hin => hout (x - p) (by omega) ?_
    rwa [Nat.add_sub_cancel' hin.1]
  rw [wp_bind, wp_writeBytes hreach (by omega) hout, wp_bind]
  have hpoked := hopen.poke hkeep
  refine wp_closeWindow (ht'.poke hkeep) hv (by omega) hk (fun _ _ => trivial) fun u hu => ?_
  rw [wp_pure]
  exact hu.keeps hpoked ht'.kernel hslot hk (by rwa [hopen.placed.mmKernel])

end Copies

section Fork

variable {s t : Machine} {spaces : List Nat} {W : Nat → Nat → Prop} {dst src pdi pti : Nat}

/-- One page of fork writes its slot in the destination and in `mm_kernel` when its frame lies outside of the structures. -/
theorem kept_forkPage (pte : Nat) (h : Sound spaces s) (hdst : dst ∈ spaces) (hsrc : src ∈ spaces) (h1 : 0 < pdi) (h2 : pdi < 768)
    (hpti : pti < 1024) (hWd : W dst pdi) (hWk : W s.mmKernel pdi) :
    wp (forkPage dst src pdi pti pte) anyFault (fun _ t => FreshFrames s t → Kept spaces W s t) s := by
  rw [forkPage, forkAddress hpti]
  have hv : (4194304 * pdi + 4096 * pti) % 4096 = 0 := by omega
  have hlow : 4194304 * pdi + 4096 * pti + 4096 ≤ 0xC0000000 := by omega
  have hk : (4194304 * pdi + 4096 * pti) / 4194304 = pdi := by omega
  have hslot : 0 < (4194304 * pdi + 4096 * pti) / 4194304 := by omega
  have hpage : page (4194304 * pdi + 4096 * pti) 0 = 4194304 * pdi + 4096 * pti := by
    unfold page
    rw [Nat.zero_mul, Nat.add_zero, u32_of_lt (by omega)]
  rw [wp_bind, wp_discard]
  refine wp_imp (wp_and (sound_forkMap pte h hdst hv hlow hslot) (kept_mmMapRange (W := W) _ h hdst (fun i hi => ?_) fun i hi => ?_))
    fun _ u hu => ?_
  · rw [Nat.lt_one_iff.mp hi, Nat.zero_mul, Nat.add_zero, u32_of_lt (by omega)]
    omega
  · rw [Nat.lt_one_iff.mp hi, hpage, slotOf, hk]
    exact hWd
  obtain ⟨⟨hsound, hplaced, hphys, e, f, he, htr⟩, hkept⟩ := hu
  have hWk' : W u.mmKernel ((4194304 * pdi + 4096 * pti) / 4194304) := by rwa [hk, hplaced.mmKernel]
  by_cases hapart : ∀ x, e / 4096 * 4096 ≤ x → x < e / 4096 * 4096 + 4096 → ¬InPaging s x
  · rw [wp_bind]
    refine wp_imp (wp_and (sound_readPage hsound hsrc hv hlow hslot) (kept_readPage hsound hsrc hv hlow hslot hWk')) fun bytes w hw => ?_
    obtain ⟨⟨hsound', hplaced', hphys', htr'⟩, hkept'⟩ := hw
    refine wp_imp (kept_writePage hsound' hdst hv hlow hslot (by rwa [hplaced'.mmKernel]) bytes fun p f' hp x hx1 hx2 => ?_)
      fun _ t ht _ => (hkept.trans hkept').trans ht
    rw [htr' dst hdst] at hp
    split at hp
    · cases hp
    · rw [htr] at hp
      simp only [Option.some.injEq, Prod.mk.injEq] at hp
      rw [(hplaced.trans hplaced').inPaging_iff]
      exact hapart x (by omega) (by omega)
  · rcases nextFrame_cases h.hint with ⟨n, took, hnext⟩ | ⟨_, hnext, _⟩
    · refine wp_imp ((keeps_copies dst src _).run u) fun _ t ht hfresh => absurd (fun x hx1 hx2 => ?_) hapart
      have hflags := leafFlags_lt ((pte &&& mmFlgWr) ||| mmFlgUs)
      rw [he, hnext, page_or (by omega) (by omega)] at hx1 hx2
      have hset : bit t.phys.bitmap n = true := ht n (by rw [hphys, took.bit_eq]; simp)
      exact hfresh n took.clear hset x (by omega) (by omega)
    · refine absurd (fun x hx1 hx2 hin => ?_) hapart
      have hlt := inPaging_lt h.geometry hin
      have hall : ∀ g < 8, mmNaddr ||| g = mmNaddr := by decide
      rw [he, hnext, hall _ (leafFlags_lt _)] at hx1
      unfold mmNaddr at hx1
      omega

/-- While fork goes on the other slots are kept, as long as the frames handed out so far lie outside of the structures. -/
def ForkKept (s : Machine) (spaces : List Nat) (W : Nat → Nat → Prop) (t : Machine) : Prop :=
  Grown s t ∧ (FreshFrames s t → Kept spaces W s t)

theorem forkKept_step {α : Type} {p : Prog Fault Machine α} (hkeep : Keeps Grown p) (h : ForkKept s spaces W t)
    (hstep : Kept spaces W s t → wp p anyFault (fun _ u => FreshFrames t u → Kept spaces W t u) t) :
    wp p anyFault (fun _ u => ForkKept s spaces W u) t := by
  obtain ⟨hgrown, hkept⟩ := h
  by_cases hfresh : FreshFrames s t
  · have ht := hkept hfresh
    refine wp_imp (wp_and (hkeep.run t) (hstep ht)) fun _ u hu => ⟨Grown.trans s t u hgrown hu.1, fun hsu => ?_⟩
    refine ht.trans (hu.2 fun n h1 h2 x hx1 hx2 => ?_)
    rw [ht.placed.inPaging_iff]
    refine hsu n ?_ h2 x hx1 hx2
    by_contra hset
    rw [hgrown n (by simpa using hset)] at h1
    cases h1
  · refine wp_imp (hkeep.run t) fun _ u hu => ⟨Grown.trans s t u hgrown hu, fun hsu => absurd ?_ hfresh⟩
    exact fun n h1 h2 => hsu n h1 (hu n h2)

variable (hWd : ∀ k, 0 < k → k < 768 → W dst k) (hWk : ∀ k, 0 < k → k < 768 → W s.mmKernel k)
include hWd hWk

theorem kept_forkSlot (h : Sound spaces s) (hdst : dst ∈ spaces) (hsrc : src ∈ spaces) (h1 : 0 < pdi) (h2 : pdi < 768) :
    wp (forkSlot dst src (infoOf s src) pdi) anyFault (fun _ t => ForkKept s spaces W t) s := by
  obtain ⟨owner, ht⟩ := h.tree
  have hdone : ForkKept s spaces W s := ⟨Grown.refl s, fun _ => Kept.refl h⟩
  have hg := ht.geometry
  have hdir := ht.dirPage hsrc
  have hinfo := ht.infoPage hsrc
  rw [forkSlot, wp_bind, wp_entry hg hdir (by omega)]
  by_cases hpr : word s src pdi &&& x86MmFlgPr ≠ 0
  · rw [if_pos hpr, wp_bind, wp_entry hg hdir (by omega), wp_bind, wp_kassert]
    refine ⟨fun _ => ?_, fun _ => trivial⟩
    rw [wp_bind, wp_entry hg hinfo (by omega), wp_bind, wp_kassert]
    refine ⟨fun hne => ?_, fun _ => trivial⟩
    have hne' : slotInfo s src pdi ≠ 0 := of_decide_eq_true hne
    have htab : word s (infoOf s src) pdi &&& pageMask = tableOf s src pdi := and_pageMask (word_lt _ _ _)
    have hrole := ht.tableRole hsrc (show pdi < 1023 by omega) hne'
    rw [wp_bind, wp_entry hg hinfo (by omega), htab]
    refine wp_forUp (fun _ t => ForkKept s spaces W t) _ hdone (fun i t _ hi htinv => ?_) fun t htinv => htinv
    refine forkKept_step ?_ htinv fun hk => ?_
    · exact keeps_bind (keeps_entry _ _) fun _ => Keeps.ite
        (keeps_bind (keeps_entry _ _) fun _ => keeps_forkPage _ _ _ _ _) (keeps_pure _)
    · have hpg : IsPage t (tableOf s src pdi) := by
        have hpage := hrole.isPage
        unfold IsPage at hpage ⊢
        rwa [hk.placed.mmKernel]
      rw [wp_bind, wp_entry hk.sound.geometry hpg (by omega)]
      by_cases hpte : word t (tableOf s src pdi) i &&& x86MmFlgPr ≠ 0
      · rw [if_pos hpte, wp_bind, wp_entry hk.sound.geometry hpg (by omega)]
        refine kept_forkPage _ hk.sound hdst hsrc h1 h2 (by omega) (hWd pdi h1 h2) ?_
        rw [hk.placed.mmKernel]
        exact hWk pdi h1 h2
      · rw [if_neg hpte, wp_pure]
        exact fun _ => Kept.refl hk.sound
  · rw [if_neg hpr, wp_pure]
    exact hdone

theorem kept_forkRest (flags : Nat) (h : Sound spaces s) (hdst : dst ∈ spaces) (hsrc : src ∈ spaces) :
    wp (do
      let srcTableInfo ← entry src 1023
      if flags &&& mmFlgCloneUser ≠ 0 then
        forUp 1 ((kernelVirtBase >>> 22) - 1) (forkSlot dst src srcTableInfo)
      return 0) anyFault (fun _ t => FreshFrames s t → Kept spaces W s t) s := by
  rw [wp_bind, wp_infoEntry h hsrc]
  by_cases hflag : flags &&& mmFlgCloneUser ≠ 0
  · rw [if_pos hflag, wp_bind, show (kernelVirtBase >>> 22) - 1 = 767 by decide]
    have hdone : ForkKept s spaces W s := ⟨Grown.refl s, fun _ => Kept.refl h⟩
    refine wp_forUp (fun _ t => ForkKept s spaces W t) _ hdone (fun i t hi1 hi2 ht => ?_) fun t ht => ht.2
    refine forkKept_step (keeps_forkSlot _ _ _ _) ht fun hk => ?_
    rw [← hk.placed.info src hsrc]
    refine wp_imp (kept_forkSlot hWd (fun k h1 h2 => ?_) hk.sound hdst hsrc (by omega) (by omega)) fun _ u hu => hu.2
    rw [hk.placed.mmKernel]
    exact hWk k h1 h2
  · rw [if_neg hflag, wp_pure]
    exact fun _ => Kept.refl h

end Fork

section Whole

variable {s t u : Machine} {spaces : List Nat} {W : Nat → Nat → Prop} {dst src flags : Nat}

theorem freshFrames_of (hp : Placed spaces s u) (hphys : u.phys = s.phys) (h : FreshFrames s t) : FreshFrames u t := by
  intro n h1 h2 x hx1 hx2
  rw [hp.inPaging_iff]
  exact h n (by rw [← hphys]; exact h1) h2 x hx1 hx2

theorem kept_mmSpaceFork (flags : Nat) (h : Sound spaces s) (hdst : dst ∈ spaces) (hsrc : src ∈ spaces) (hWd : ∀ k, W dst k)
    (hWk : ∀ k, 0 < k → k < 768 → W s.mmKernel k) :
    wp (mmSpaceFork dst src flags) anyFault (fun _ t => FreshFrames s t → Kept spaces W s t) s := by
  unfold mmSpaceFork
  by_cases hflag : flags &&& mmFlgCloneKernel ≠ 0
  · rw [if_pos hflag, wp_bind]
    refine wp_imp (kept_mmSpaceClone mmFlgCloneKernel h hdst hsrc hWd) fun _ u hu => ?_
    obtain ⟨hkept, hphys⟩ := hu
    refine wp_imp (kept_forkRest (W := W) (fun k _ _ => hWd k) (fun k h1 h2 => ?_) flags hkept.sound hdst hsrc) fun _ t ht hfresh =>
      hkept.trans (ht (freshFrames_of hkept.placed hphys hfresh))
    rw [hkept.placed.mmKernel]
    exact hWk k h1 h2
  · rw [if_neg hflag]
    exact kept_forkRest (fun k _ _ => hWd k) hWk flags h hdst hsrc

theorem half_mmSpaceFork (h : Sound spaces s) (hdst : dst ∈ spaces) (hsrc : src ∈ spaces) (hne : dst ≠ src)
    (hflag : flags &&& mmFlgCloneKernel ≠ 0) : wp (mmSpaceFork dst src flags) anyFault (fun _ t => FreshFrames s t →
      Placed spaces s t ∧ ∀ k, 768 ≤ k → k < 1024 → slotAt t dst k = slotAt t src k) s := by
  unfold mmSpaceFork
  rw [if_pos hflag, wp_bind]
  refine wp_imp (wp_cloneKernel h hdst hsrc hne (by decide)) fun _ u hc => ?_
  refine wp_imp (kept_forkRest (W := fun _ k => k < 768) (fun k _ hk => hk) (fun k _ hk => hk) flags hc.sound hdst hsrc)
    fun _ t ht hfresh => ?_
  have hkept := ht (freshFrames_of hc.placed hc.phys hfresh)
  refine ⟨hc.placed.trans hkept.placed, fun k h1 h2 => ?_⟩
  rw [(hkept.same dst hdst k h2 (by omega)).slotAt_eq, (hkept.same src hsrc k h2 (by omega)).slotAt_eq, hc.half k h1 h2,
    (hc.others src hsrc hne.symm k h2).slotAt_eq]

end Whole

end YggKernel.Paging
