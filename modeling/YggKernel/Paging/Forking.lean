import YggKernel.Paging.Handout

namespace YggKernel.Paging

open Lib.Program Lib.ByteMemory Lib.BitWords Lib.Masks Phys Pool

structure Placed (spaces : List Nat) (s t : Machine) : Prop where
  mmKernel : t.mmKernel = s.mmKernel
  paddr : (t.pools 0).paddr = (s.pools 0).paddr
  info : ∀ pd ∈ spaces, infoOf t pd = infoOf s pd

theorem Placed.refl (spaces : List Nat) (s : Machine) : Placed spaces s s := ⟨rfl, rfl, fun _ _ => rfl⟩

theorem Placed.trans {spaces : List Nat} {s t u : Machine} (h : Placed spaces s t) (h' : Placed spaces t u) :
    Placed spaces s u :=
  ⟨h'.mmKernel.trans h.mmKernel, h'.paddr.trans h.paddr, fun pd hpd => (h'.info pd hpd).trans (h.info pd hpd)⟩

theorem SlotChange.placed {s t : Machine} {spaces : List Nat} {owner : Owner} {pd k : Nat}
    (h : Tree s spaces owner) (hc : SlotChange s t owner pd k) (hpd : pd ∈ spaces) (hk : k < 1023) :
    Placed spaces s t :=
  ⟨hc.framed.mmKernel, hc.framed.paddr, fun _ hpd' => hc.infoOf_eq h hpd hpd' hk⟩

theorem Placed.inPaging_iff {spaces : List Nat} {s t : Machine} (h : Placed spaces s t) (x : Nat) : InPaging t x ↔ InPaging s x := by
  unfold InPaging
  rw [h.mmKernel, h.paddr]

section Copies

variable {s t : Machine} {spaces : List Nat} {owner : Owner} {pd v : Nat}

theorem alignUp_page (hv : v % 4096 = 0) (hlt : v + 8192 ≤ 4294967296) : alignUpPage (u32 (v + 0x1000)) = v + 4096 := by
  have hsum : u32 (v + 0x1000) = v + 4096 := u32_of_lt (by omega)
  have hup : u32 (v + 4096 + 0x1000 - 1) = v + 8191 := u32_of_lt (by omega)
  rw [alignUpPage, hsum, hup, and_pageMask (by omega)]
  omega

theorem userPages_page (hv : v % 4096 = 0) (hlt : v + 8192 ≤ 4294967296) : userPages v 0x1000 = 1 := by
  unfold userPages
  rw [alignUp_page hv hlt, and_pageMask (by omega), sub32_of_le (by omega) (by omega)]
  omega

theorem userPart_page (hv : v % 4096 = 0) (hlt : v + 8192 ≤ 4294967296) : userPart v 0x1000 v = (0, 4096) := by
  unfold userPart
  rw [if_neg (by omega), u32_of_lt (by omega), sub32_of_le (by omega) (by omega), show v + 0x1000 - v = 4096 by omega]
  rfl

theorem firstPage (hv : v % 4096 = 0) (hlt : v + 8192 ≤ 4294967296) : u32 ((v &&& pageMask) + 0 * 0x1000) = v := by
  rw [and_pageMask (by omega), u32_of_lt (by omega)]
  omega

theorem copyPages_page {β : Type} (move : Nat → Nat → Nat → β → Prog Fault Machine β) (pd : Nat) (acc : β) (hv : v % 4096 = 0)
    (hlt : v + 8192 ≤ 4294967296) : copyPages move pd v 0x1000 0 (userPages v 0x1000) 0 acc = (do
      openWindow pd v
      let acc ← move v 0 0x1000 acc
      closeWindow v
      return acc) := by
  have hself : u32 (v + 0) = v := u32_of_lt (by omega)
  have hsize : sub32 4096 0 = 4096 := sub32_of_le (by decide) (by decide)
  rw [userPages_page hv hlt, copyPages, firstPage hv hlt, userPart_page hv hlt]
  dsimp only
  rw [hself, hsize]
  rfl

theorem Unmapped.translation_eq (h : Tree s spaces owner) (hpd : pd ∈ spaces) (hk : v / 4194304 < 1023)
    {entries : Nat → Nat} (hslot : slotAt s pd (v / 4194304) = .table entries)
    (hu : Unmapped s t pd (v / 4194304) (v / 4096 % 1024)) : translation t pd v = none := by
  have hpr : word s pd (v / 4194304) % 2 = 1 ∧ word s pd (v / 4194304) / 128 % 2 = 0 := by
    unfold slotAt at hslot
    by_cases h1 : word s pd (v / 4194304) % 2 = 0
    · rw [if_pos h1] at hslot
      cases hslot
    by_cases h2 : word s pd (v / 4194304) / 128 % 2 = 1
    · rw [if_neg h1, if_pos h2] at hslot
      cases hslot
    omega
  cases hu with
  | kept hinfo hmany hc =>
    rw [translation_table (hc.slotAt_eq h hpd hk hinfo (by omega) (Nat.mod_lt _ (by decide)) hpr.1 hpr.2) rfl rfl,
      Function.update_self]
    rfl
  | dropped n hinfo _ hc =>
    refine translation_absent ?_ rfl
    unfold slotAt
    rw [hc.entry_eq h hpd hk hinfo]
    rfl

theorem sound_closeWindow (h : Sound spaces s) (ht : Tree s spaces owner) (hv : v % 4096 = 0)
    (hlt : v < 4294967296) (hslot : 0 < v / 4194304) (hk : v / 4194304 < 1023) {entries : Nat → Nat}
    (hopen : slotAt s s.mmKernel (v / 4194304) = .table entries) :
    wp (closeWindow v) anyFault (fun _ t => Sound spaces t ∧ Placed spaces s t ∧ t.phys = s.phys ∧
      translation t s.mmKernel v = none ∧
      ∀ pd' ∈ spaces, pd' ≠ s.mmKernel → translation t pd' v = translation s pd' v) s := by
  refine wp_closeWindow ht hv hlt hk (fun _ _ => trivial) fun t hu => ?_
  have hc := hu.slotChange ht ht.kernel hk
  refine ⟨hu.sound h ht.kernel hslot hk, hc.placed ht ht.kernel hk, hu.phys, ?_, fun pd' hpd' hne => ?_⟩
  · exact hu.translation_eq ht ht.kernel hk hopen
  · exact hc.translation_eq ht ht.kernel hk hpd' hlt fun hh => hne hh.1

variable (h : Sound spaces s) (hpd : pd ∈ spaces) (hv : v % 4096 = 0) (hlow : v + 4096 ≤ 0xC0000000)
  (hslot : 0 < v / 4194304)
include h hpd hv hlow hslot

theorem sound_readPage :
    wp (mmMemcpyUserToKernel pd v 0x1000) anyFault (fun _ t => Sound spaces t ∧ Placed spaces s t ∧ t.phys = s.phys ∧
      ∀ pd' ∈ spaces, translation t pd' v = if pd' = s.mmKernel then none else translation s pd' v) s := by
  have hlt : v + 8192 ≤ 4294967296 := by omega
  have hk : v / 4194304 < 1023 := by omega
  obtain ⟨owner, ht⟩ := h.tree
  rw [mmMemcpyUserToKernel, copyPages_page _ _ _ hv hlt, wp_bind]
  refine wp_openWindow ht hpd hv (by omega) hk (fun _ _ _ => trivial) (fun _ _ => trivial)
    fun p f t htr hf hp hpl hm => ?_
  have hopen := hm.sound h ht.kernel hslot hk
  obtain ⟨owner', ht', _⟩ := hm.tree ht ht.kernel hk
  obtain ⟨entries, htable, _⟩ := hm.slotAt_eq ht ht.kernel hk (Nat.mod_lt _ (by decide))
  have hker := hm.framed.mmKernel
  have htr' := hm.translation_eq ht ht.kernel hk (by omega) (by omega)
  have hreach : Reaches t (v + 0) ((p + 3) / 4096 * 4096 + v % 4096 + 0) 4096 :=
    reaches_page ht' hopen.loaded (by rwa [hker]) hv hlow (by omega)
  rw [Nat.add_zero, Nat.add_zero] at hreach
  rw [wp_bind, wp_bind, wp_readBytes hreach (by omega), wp_pure, wp_bind]
  rw [← hker] at htable
  refine wp_imp (sound_closeWindow hopen ht' hv (by omega) hslot hk htable) fun _ u hu => ?_
  obtain ⟨hu1, hu2, hu3, hu4, hu5⟩ := hu
  rw [wp_pure]
  refine ⟨hu1, ((hm.slotChange ht ht.kernel hk).placed ht ht.kernel hk).trans hu2, hu3.trans hm.phys, fun pd' hpd' => ?_⟩
  by_cases hpk : pd' = s.mmKernel
  · rw [if_pos hpk, hpk, ← hker, hu4]
  · rw [if_neg hpk, hu5 pd' hpd' (by rwa [hker]),
      (hm.slotChange ht ht.kernel hk).translation_eq ht ht.kernel hk hpd' (by omega) fun hh => hpk hh.1]

/-- A page goes through the window to the frame that the space maps, when that lies
outside of the paging structures. -/
theorem sound_writePage (bytes : List (BitVec 8))
    (hapart : ∀ p f, translation s pd v = some (p, f) → ∀ x, p ≤ x → x < p + 4096 → ¬InPaging s x) :
    wp (mmMemcpyKernelToUser pd v bytes 0x1000) anyFault
      (fun _ t => Sound spaces t ∧ Placed spaces s t ∧ t.phys = s.phys) s := by
  have hlt : v + 8192 ≤ 4294967296 := by omega
  have hk : v / 4194304 < 1023 := by omega
  obtain ⟨owner, ht⟩ := h.tree
  rw [mmMemcpyKernelToUser, copyPages_page _ _ _ hv hlt, List.drop_zero, wp_bind]
  refine wp_openWindow ht hpd hv (by omega) hk (fun _ _ _ => trivial) (fun _ _ => trivial)
    fun p f t htr hf hp hpl hm => ?_
  have hopen := hm.sound h ht.kernel hslot hk
  obtain ⟨owner', ht', _⟩ := hm.tree ht ht.kernel hk
  obtain ⟨entries, htable, _⟩ := hm.slotAt_eq ht ht.kernel hk (Nat.mod_lt _ (by decide))
  have hker := hm.framed.mmKernel
  have htr' := hm.translation_eq ht ht.kernel hk (by omega) (by omega)
  have hle : (bytes.take 4096).length ≤ 4096 := List.length_take_le _ _
  have hreach : Reaches t (v + 0) ((p + 3) / 4096 * 4096 + v % 4096 + 0) (bytes.take 4096).length :=
    reaches_page ht' hopen.loaded (by rwa [hker]) hv hlow (by omega)
  have hframe : (p + 3) / 4096 * 4096 + v % 4096 = p := by omega
  rw [Nat.add_zero, Nat.add_zero, hframe] at hreach
  have hout : ∀ i < (bytes.take 4096).length, ¬InPaging t (p + i) := by
    intro i hi
    rw [hm.framed.inPaging_iff]
    exact hapart p f htr _ (by omega) (by omega)
  have hkeep : ∀ x, InPaging t x → overlay t.mem p (bytes.take 4096) x = t.mem x := by
    intro x hx
    refine if_neg fun hin => hout (x - p) (by omega) ?_
    rwa [Nat.add_sub_cancel' hin.1]
  rw [wp_bind, wp_writeBytes hreach (by omega) hout, wp_bind]
  have htable' : slotAt { t with mem := overlay t.mem p (bytes.take 4096) } t.mmKernel (v / 4194304) = .table entries := by
    rw [slotAt_congr ht' ht'.kernel (by omega) fun _ _ hw hi => word_poke ht'.geometry hkeep hw hi, hker]
    exact htable
  refine wp_imp (sound_closeWindow (hopen.poke hkeep) (ht'.poke hkeep) hv (by omega) hslot hk htable')
    fun _ u hu => ?_
  rw [wp_pure]
  have hpoke : Placed spaces t { t with mem := overlay t.mem p (bytes.take 4096) } :=
    ⟨rfl, rfl, fun pd' hpd' => word_poke ht'.geometry hkeep (ht'.dirPage hpd') (by decide)⟩
  exact ⟨hu.1, (((hm.slotChange ht ht.kernel hk).placed ht ht.kernel hk).trans hpoke).trans hu.2.1,
    hu.2.2.1.trans hm.phys⟩

end Copies

def FreshFrames (s t : Machine) : Prop :=
  ∀ n, bit s.phys.bitmap n = false → bit t.phys.bitmap n = true →
    ∀ x, 4096 * n ≤ x → x < 4096 * n + 4096 → ¬InPaging s x

section Fork

variable {s t : Machine} {spaces : List Nat} {dst src pdi pti : Nat}

theorem inPaging_lt (hg : Geometry s) {x : Nat} (hx : InPaging s x) : x < 0xFFFFF000 := by
  have h1 := hg.top
  have h2 := hg.pools.aligned
  have h3 := hg.low
  have h4 := hg.high
  unfold InPaging at hx
  unfold kernelVirtBase at *
  omega

theorem forkAddress (hpti : pti < 1024) : (pdi <<< 22) ||| (pti <<< 12) = 4194304 * pdi + 4096 * pti := by
  have hlt : pti <<< 12 < 2 ^ 22 := by
    rw [Nat.shiftLeft_eq]
    omega
  rw [← Nat.shiftLeft_add_eq_or_of_lt hlt, Nat.shiftLeft_eq, Nat.shiftLeft_eq]
  omega

theorem sound_forkMap (pte : Nat) (h : Sound spaces s) (hdst : dst ∈ spaces) {v : Nat} (hv : v % 4096 = 0)
    (hlow : v + 4096 ≤ 0xC0000000) (hslot : 0 < v / 4194304) :
    wp (mmMapRange dst v 1 ((pte &&& mmFlgWr) ||| mmFlgUs)) anyFault (fun _ t => Sound spaces t ∧ Placed spaces s t ∧
      t.phys = (takeFrame s).phys ∧
      ∃ e f, e = nextFrame s ||| leafFlags ((pte &&& mmFlgWr) ||| mmFlgUs) ∧
        translation t dst v = some (e / 4096 * 4096, f)) s := by
  obtain ⟨owner, ht⟩ := h.tree
  have hk : v / 4194304 < 1023 := by omega
  have hmerge : ∀ f : Nat, (f &&& mmFlgWr ||| mmFlgUs) &&& mmFlgMerge = 0 := by
    intro f
    rw [Nat.and_or_distrib_right, Nat.and_assoc]
    simp [mmFlgWr, mmFlgUs, mmFlgMerge]
  unfold mmMapRange
  by_cases hps : ((pte &&& mmFlgWr) ||| mmFlgUs) &&& mmFlgPs ≠ 0
  · rw [if_pos hps, wp_bind, wp_throw]
    trivial
  rw [if_neg hps, wp_bind, wp_kassert]
  refine ⟨fun _ => ?_, fun _ => trivial⟩
  rw [wp_bind, wp_infoEntry h hdst, wp_bind, wp_forUp_one, Nat.zero_mul, Nat.add_zero, u32_of_lt (by omega)]
  refine wp_mapRangePage _ ht hdst rfl hk rfl (nextFrame_lt h.hint) (fun _ _ _ => trivial) (fun _ _ => trivial)
    (fun t _ hm => ?_) fun _ _ hflag => absurd (hmerge pte) hflag
  have he : nextFrame s ||| leafFlags ((pte &&& mmFlgWr) ||| mmFlgUs) < 4294967296 := entry_lt _ (nextFrame_lt h.hint)
  have hodd : (nextFrame s ||| leafFlags ((pte &&& mmFlgWr) ||| mmFlgUs)) % 2 = 1 := or_odd (leafFlags_odd _)
  have htr := hm.translation_eq ht.takeFrame hdst hk he hodd
  rw [hv, Nat.add_zero] at htr
  have hplaced := (hm.slotChange ht.takeFrame hdst hk).placed ht.takeFrame hdst hk
  exact ⟨hm.sound h.takeFrame hdst hslot hk, ⟨hplaced.mmKernel, hplaced.paddr, hplaced.info⟩, hm.phys, _, _, rfl, htr⟩

/-- One page of fork keeps the structures when the frame it takes lies outside of them. -/
theorem sound_forkPage (pte : Nat) (h : Sound spaces s) (hdst : dst ∈ spaces) (hsrc : src ∈ spaces)
    (h1 : 0 < pdi) (h2 : pdi < 768) (hpti : pti < 1024) :
    wp (forkPage dst src pdi pti pte) anyFault
      (fun _ t => FreshFrames s t → Sound spaces t ∧ Placed spaces s t) s := by
  rw [forkPage, forkAddress hpti]
  have hv : (4194304 * pdi + 4096 * pti) % 4096 = 0 := by omega
  have hlow : 4194304 * pdi + 4096 * pti + 4096 ≤ 0xC0000000 := by omega
  have hslot : 0 < (4194304 * pdi + 4096 * pti) / 4194304 := by omega
  rw [wp_bind, wp_discard]
  refine wp_imp (sound_forkMap pte h hdst hv hlow hslot) fun _ u hu => ?_
  obtain ⟨hsound, hplaced, hphys, e, f, he, htr⟩ := hu
  by_cases hapart : ∀ x, e / 4096 * 4096 ≤ x → x < e / 4096 * 4096 + 4096 → ¬InPaging s x
  · rw [wp_bind]
    refine wp_imp (sound_readPage hsound hsrc hv hlow hslot) fun bytes w hw => ?_
    obtain ⟨hsound', hplaced', hphys', htr'⟩ := hw
    refine wp_imp (sound_writePage hsound' hdst hv hlow hslot bytes fun p f' hp x hx1 hx2 => ?_) fun _ t ht _ =>
      ⟨ht.1, (hplaced.trans hplaced').trans ht.2.1⟩
    rw [htr' dst hdst] at hp
    split at hp
    · cases hp
    · rw [htr] at hp
      simp only [Option.some.injEq, Prod.mk.injEq] at hp
      rw [(hplaced.trans hplaced').inPaging_iff]
      exact hapart x (by omega) (by omega)
  · rcases nextFrame_cases h.hint with ⟨n, took, hnext⟩ | ⟨_, hnext, _⟩
    · refine wp_imp ((keeps_copies dst src _).run u) fun _ t ht hfresh => absurd (fun x hx1 hx2 => ?_) hapart
      have hflags := leafFlags_lt ((pte &&& mmFlgWr) ||| mmFlgUs)
      rw [he, hnext, page_or (by omega) (by omega)] at hx1 hx2
      have hset : bit t.phys.bitmap n = true := ht n (by rw [hphys, took.bit_eq]; simp)
      exact hfresh n took.clear hset x (by omega) (by omega)
    · refine absurd (fun x hx1 hx2 hin => ?_) hapart
      have hlt := inPaging_lt h.geometry hin
      have hall : ∀ g < 8, mmNaddr ||| g = mmNaddr := by decide
      rw [he, hnext, hall _ (leafFlags_lt _)] at hx1
      unfold mmNaddr at hx1
      omega

/-- While fork goes on the structures are sound, as long as the frames handed out so
far lie outside of them. -/
def ForkInv (s : Machine) (spaces : List Nat) (t : Machine) : Prop :=
  Grown s t ∧ (FreshFrames s t → Sound spaces t ∧ Placed spaces s t)

theorem forkInv_step {α : Type} {p : Prog Fault Machine α} (hkeep : Keeps Grown p) (h : ForkInv s spaces t)
    (hstep : Sound spaces t → Placed spaces s t →
      wp p anyFault (fun _ u => FreshFrames t u → Sound spaces u ∧ Placed spaces t u) t) :
    wp p anyFault (fun _ u => ForkInv s spaces u) t := by
  obtain ⟨hgrown, hsound⟩ := h
  by_cases hfresh : FreshFrames s t
  · obtain ⟨hs, hp⟩ := hsound hfresh
    refine wp_imp (wp_and (hkeep.run t) (hstep hs hp)) fun _ u hu => ?_
    refine ⟨Grown.trans s t u hgrown hu.1, fun hsu => ?_⟩
    have htu : FreshFrames t u := fun n h1 h2 x hx1 hx2 => by
      rw [hp.inPaging_iff]
      refine hsu n ?_ h2 x hx1 hx2
      by_contra hset
      rw [hgrown n (by simpa using hset)] at h1
      cases h1
    obtain ⟨hs', hp'⟩ := hu.2 htu
    exact ⟨hs', hp.trans hp'⟩
  · refine wp_imp (hkeep.run t) fun _ u hu => ⟨Grown.trans s t u hgrown hu, fun hsu => absurd ?_ hfresh⟩
    exact fun n h1 h2 => hsu n h1 (hu n h2)

theorem sound_forkSlot (h : Sound spaces s) (hdst : dst ∈ spaces) (hsrc : src ∈ spaces)
    (h1 : 0 < pdi) (h2 : pdi < 768) :
    wp (forkSlot dst src (infoOf s src) pdi) anyFault (fun _ t => ForkInv s spaces t) s := by
  obtain ⟨owner, ht⟩ := h.tree
  have hdone : ForkInv s spaces s := ⟨Grown.refl s, fun _ => ⟨h, Placed.refl spaces s⟩⟩
  have hg := ht.geometry
  have hdir := ht.dirPage hsrc
  have hinfo := ht.infoPage hsrc
  rw [forkSlot, wp_bind, wp_entry hg hdir (by omega)]
  by_cases hpr : word s src pdi &&& x86MmFlgPr ≠ 0
  · rw [if_pos hpr, wp_bind, wp_entry hg hdir (by omega), wp_bind, wp_kassert]
    refine ⟨fun _ => ?_, fun _ => trivial⟩
    rw [wp_bind, wp_entry hg hinfo (by omega), wp_bind, wp_kassert]
    refine ⟨fun hne => ?_, fun _ => trivial⟩
    have hne' : slotInfo s src pdi ≠ 0 := of_decide_eq_true hne
    have htab : word s (infoOf s src) pdi &&& pageMask = tableOf s src pdi := and_pageMask (word_lt _ _ _)
    obtain ⟨n, hn, hpage⟩ : ∃ n < 1024, tableOf s src pdi = poolPage n := by
      rcases ht.tableRole hsrc (by omega) hne' with ⟨_, hu⟩ | ⟨n, hn, hpage, _⟩
      · cases hu
      · exact ⟨n, hn, hpage⟩
    rw [wp_bind, wp_entry hg hinfo (by omega), htab, hpage]
    refine wp_forUp (fun _ t => ForkInv s spaces t) _ hdone (fun i t _ hi htinv => ?_) fun t htinv => htinv
    refine forkInv_step ?_ htinv fun hs hp => ?_
    · exact keeps_bind (keeps_entry _ _) fun _ => Keeps.ite
        (keeps_bind (keeps_entry _ _) fun _ => keeps_forkPage _ _ _ _ _) (keeps_pure _)
    · have hpg : IsPage t (poolPage n) := isPage_poolPage hn
      rw [wp_bind, wp_entry hs.geometry hpg (by omega)]
      by_cases hpte : word t (poolPage n) i &&& x86MmFlgPr ≠ 0
      · rw [if_pos hpte, wp_bind, wp_entry hs.geometry hpg (by omega)]
        exact sound_forkPage _ hs hdst hsrc h1 h2 (by omega)
      · rw [if_neg hpte, wp_pure]
        exact fun _ => ⟨hs, Placed.refl spaces t⟩
  · rw [if_neg hpr, wp_pure]
    exact hdone

theorem sound_forkSlots (h : Sound spaces s) (hdst : dst ∈ spaces) (hsrc : src ∈ spaces) :
    wp (forUp 1 767 (forkSlot dst src (infoOf s src))) anyFault (fun _ t => ForkInv s spaces t) s := by
  have hdone : ForkInv s spaces s := ⟨Grown.refl s, fun _ => ⟨h, Placed.refl spaces s⟩⟩
  refine wp_forUp (fun _ t => ForkInv s spaces t) _ hdone (fun i t hi1 hi2 ht => ?_) fun t ht => ht
  refine forkInv_step (keeps_forkSlot _ _ _ _) ht fun hs hp => ?_
  rw [← hp.info src hsrc]
  exact wp_imp (sound_forkSlot hs hdst hsrc (by omega) (by omega)) fun _ u hu => hu.2

theorem sound_mmSpaceClone (flags : Nat) (h : Sound spaces s) (hdst : dst ∈ spaces) (hsrc : src ∈ spaces) :
    wp (mmSpaceClone dst src flags) anyFault
      (fun _ t => Sound spaces t ∧ Placed spaces s t ∧ t.phys = s.phys) s := by
  refine wp_mmSpaceClone flags h hdst hsrc fun u hwiped hsound => ?_
  obtain ⟨owner, ht⟩ := h.tree
  have hplaced : Placed spaces s u :=
    ⟨hwiped.framed.mmKernel, hwiped.framed.paddr, fun _ hpd => hwiped.infoOf_eq ht hdst hpd⟩
  by_cases hflag : flags &&& mmFlgCloneKernel ≠ 0
  · rw [if_pos hflag]
    refine wp_forUp (fun _ t => Sound spaces t ∧ Placed spaces s t ∧ t.phys = s.phys) _
      ⟨hsound, hplaced, hwiped.phys⟩ (fun i t hi1 hi2 hinv => ?_) fun t ht => ht
    obtain ⟨hs, hp, hph⟩ := hinv
    obtain ⟨owner', ht'⟩ := hs.tree
    rw [hplaced.info src hsrc, hplaced.info dst hdst, ← hp.info src hsrc, ← hp.info dst hdst]
    refine wp_cloneSlot ht' hdst hsrc (by omega) (fun _ _ _ _ => trivial) (fun _ => ⟨hs, hp, hph⟩)
      (fun hk hpr hps v hc => ?_) fun hk hpr hps n v hc => ?_
    · exact ⟨hc.sound hs hdst (by omega) hk (.inr hps), hp.trans (hc.slotChange.placed ht' hdst hk),
        hc.phys.trans hph⟩
    · have hchange := hc.slotChange ht'
      have hinfo := (((ht'.spaces src hsrc).slots i hk).entry hpr hps).1
      have hpos := (((ht'.spaces src hsrc).slots i hk).counted hinfo).2
      exact ⟨hs.slotChange ht' hdst (by omega) hchange hc.phys
        ⟨_, hc.tree ht' hdst hk hpos (Nat.mod_lt _ (by decide))⟩, hp.trans (hchange.placed ht' hdst hk),
        hc.phys.trans hph⟩
  · rw [if_neg hflag, wp_pure]
    exact ⟨hsound, hplaced, hwiped.phys⟩

theorem sound_mmSpaceFork (flags : Nat) (h : Sound spaces s) (hdst : dst ∈ spaces) (hsrc : src ∈ spaces) :
    wp (mmSpaceFork dst src flags) anyFault (fun _ t => FreshFrames s t → Sound spaces t) s := by
  have hcopy : ∀ u, Sound spaces u → Placed spaces s u → u.phys = s.phys →
      wp (do
        let srcTableInfo ← entry src 1023
        if flags &&& mmFlgCloneUser ≠ 0 then
          forUp 1 ((kernelVirtBase >>> 22) - 1) (forkSlot dst src srcTableInfo)
        return 0) anyFault (fun _ t => FreshFrames s t → Sound spaces t) u := by
    intro u hu hp hph
    rw [wp_bind, wp_infoEntry hu hsrc]
    by_cases hflag : flags &&& mmFlgCloneUser ≠ 0
    · rw [if_pos hflag, wp_bind, show (kernelVirtBase >>> 22) - 1 = 767 by decide]
      refine wp_imp (sound_forkSlots hu hdst hsrc) fun _ t ht hfresh => (ht.2 fun n h1 h2 x hx1 hx2 => ?_).1
      rw [hp.inPaging_iff]
      exact hfresh n (by rw [← hph]; exact h1) h2 x hx1 hx2
    · rw [if_neg hflag, wp_pure]
      exact fun _ => hu
  unfold mmSpaceFork
  by_cases hflag : flags &&& mmFlgCloneKernel ≠ 0
  · rw [if_pos hflag, wp_bind]
    exact wp_imp (sound_mmSpaceClone mmFlgCloneKernel h hdst hsrc) fun _ u hu => hcopy u hu.1 hu.2.1 hu.2.2
  · rw [if_neg hflag]
    exact hcopy s h (Placed.refl spaces s) rfl

end Fork

end YggKernel.Paging
