import YggKernel.Paging.Views

namespace YggKernel.Paging

open Lib.Program Lib.ByteMemory Lib.BitWords Lib.Masks Lib.Runs Phys Pool

/-- Every user page of every space has a frame of its own that is in use and holds no paging structure. -/
structure Exclusive (spaces : List Nat) (s : Machine) : Prop where
  used : ∀ pd ∈ spaces, ∀ v < 786432, ∀ p f, translation s pd (4096 * v) = some (p, f) →
    bit s.phys.bitmap (p / 4096) = true ∧ ∀ i < 4096, ¬InPaging s (p + i)
  apart : ∀ pd ∈ spaces, ∀ pd' ∈ spaces, ∀ v < 786432, ∀ v' < 786432, ∀ p f f', translation s pd (4096 * v) = some (p, f) →
    translation s pd' (4096 * v') = some (p, f') → pd = pd' ∧ v = v'

section Exclusive

variable {s t u : Machine} {spaces spaces' : List Nat} {owner : Owner} {pd v n e : Nat}

theorem Exclusive.shrink (h : Exclusive spaces s) (hp : ∀ x, InPaging t x ↔ InPaging s x) (hgrown : Grown s t)
    (hsub : ∀ pd ∈ spaces', ∀ v < 786432, translation t pd (4096 * v) = none ∨
      pd ∈ spaces ∧ translation t pd (4096 * v) = translation s pd (4096 * v)) : Exclusive spaces' t := by
  have hold : ∀ pd ∈ spaces', ∀ v < 786432, ∀ p f, translation t pd (4096 * v) = some (p, f) →
      pd ∈ spaces ∧ translation s pd (4096 * v) = some (p, f) := by
    intro pd hpd v hv p f hmaps
    rcases hsub pd hpd v hv with hnone | ⟨hmem, hsame⟩
    · rw [hmaps] at hnone
      cases hnone
    · exact ⟨hmem, hsame.symm.trans hmaps⟩
  refine ⟨fun pd hpd v hv p f hmaps => ?_, fun pd hpd pd' hpd' v hv v' hv' p f f' hmaps hmaps' => ?_⟩
  · obtain ⟨hmem, hbefore⟩ := hold pd hpd v hv p f hmaps
    obtain ⟨hused, hapart⟩ := h.used pd hmem v hv p f hbefore
    exact ⟨hgrown _ hused, fun i hi hx => hapart i hi ((hp _).mp hx)⟩
  · obtain ⟨hmem, hbefore⟩ := hold pd hpd v hv p f hmaps
    obtain ⟨hmem', hbefore'⟩ := hold pd' hpd' v' hv' p f' hmaps'
    exact h.apart pd hmem pd' hmem' v hv v' hv' p f f' hbefore hbefore'

theorem Exclusive.kept (h : Exclusive spaces s) {W : Nat → Nat → Prop} (hk : Kept spaces W s t) (hgrown : Grown s t)
    (hW : ∀ pd ∈ spaces, ∀ k < 768, ¬W pd k) : Exclusive spaces t :=
  h.shrink hk.placed.inPaging_iff hgrown fun pd hpd v hv =>
    .inr ⟨hpd, (hk.same pd hpd _ (by omega) (hW pd hpd _ (by omega))).translation_eq⟩

theorem Exclusive.taken (h : Exclusive spaces s) (hhint : s.phys.allocLast < 4294967296) : Exclusive spaces (takeFrame s) :=
  h.shrink (fun _ => Iff.rfl) (fun m hm => takeFrame_bits hhint m hm) fun _ hpd _ _ => .inr ⟨hpd, rfl⟩

theorem translation_first (h : Sound spaces s) (hpd : pd ∈ spaces) {a : Nat} (ha : a < 4194304) : translation s pd a = none :=
  translation_absent (h.slotAt_first hpd) (by omega)

theorem Created.exclusive {n m : Nat} (hs : Sound spaces s) (hc : Created s t n m) (h : Exclusive spaces s) :
    Exclusive (poolPage n :: spaces) t := by
  obtain ⟨owner, ht⟩ := hs.tree
  refine h.shrink hc.framed.inPaging_iff (grown_of_phys hc.phys) fun pd hpd v hv => ?_
  rcases List.mem_cons.mp hpd with rfl | hpd
  · refine .inl ?_
    by_cases hfirst : v < 1024
    · exact translation_first (hc.sound hs) hpd (by omega)
    · refine translation_absent (k := 4096 * v / 4194304) (if_pos ?_) rfl
      rw [hc.space.2.2.1 _ (by omega) (by omega)]
  · exact .inr ⟨hpd, (hc.slotSame ht hpd (by omega)).translation_eq⟩

theorem Destroyed.exclusive {n m : Nat} (hc : Destroyed s t pd n m) (h : Exclusive spaces s) :
    Exclusive (spaces.filter (· ≠ pd)) t :=
  h.shrink hc.framed.inPaging_iff (grown_of_phys hc.phys) fun pd' hpd' v _ =>
    .inr ⟨(List.mem_filter.mp hpd').1, (hc.slotSame pd' (4096 * v / 4194304)).translation_eq⟩

theorem Cloned.exclusive {dst src : Nat} (hdst : dst ∈ spaces) (hc : Cloned spaces s dst src 1024 t) (h : Exclusive spaces s) :
    Exclusive spaces t := by
  refine h.shrink hc.placed.inPaging_iff (grown_of_phys hc.phys) fun pd hpd v hv => ?_
  by_cases hne : pd = dst
  · subst hne
    refine .inl ?_
    by_cases hfirst : v < 1024
    · exact translation_first hc.sound hdst (by omega)
    · refine translation_absent (k := 4096 * v / 4194304) (if_pos ?_) rfl
      rw [hc.empty _ (by omega) (by omega) (.inl (by omega))]
  · exact .inr ⟨hpd, (hc.others pd hpd hne _ (by omega)).translation_eq⟩

theorem Mapped.translation_frame {flags : Nat} (h : Tree s spaces owner) (hpd : pd ∈ spaces) (hk : v / 4194304 < 1023) (hal : v % 4096 = 0)
    (hn : n < 1048576) (hm : Mapped s t pd (v / 4194304) (v / 4096 % 1024) (4096 * n ||| leafFlags flags)) :
    translation t pd v = some (4096 * n, (4096 * n ||| leafFlags flags) &&& (mmFlgUs ||| mmFlgWr)) := by
  have hlt := leafFlags_lt flags
  have hor : 4096 * n ||| leafFlags flags = 4096 * n + leafFlags flags := page_or (Nat.mul_mod_right _ _) (by omega)
  have he : 4096 * n ||| leafFlags flags < 4294967296 := by omega
  rw [hm.translation_eq h hpd hk he (or_odd (leafFlags_odd _)), hal, Nat.add_zero,
    show (4096 * n ||| leafFlags flags) / 4096 * 4096 = 4096 * n by omega]

theorem Exclusive.enter {flags : Nat} (h : Exclusive spaces s) (hneat : Neat spaces s) (hpd : pd ∈ spaces)
    (hv : v < 786432) (took : TookPage s.phys n (takeFrame s).phys) (hout : ∀ i < 4096, ¬InPaging s (4096 * n + i))
    (hm : Mapped (takeFrame s) t pd (4096 * v / 4194304) (4096 * v / 4096 % 1024) (4096 * n ||| leafFlags flags)) : Exclusive spaces t := by
  obtain ⟨owner, ht⟩ := hneat.1.takeFrame.tree
  have hk : 4096 * v / 4194304 < 1023 := by omega
  have hp : ∀ x, InPaging t x ↔ InPaging s x := hm.framed.inPaging_iff
  have hbits : ∀ m, bit t.phys.bitmap m = (bit s.phys.bitmap m || decide (m = n)) := fun m => by rw [hm.phys, took.bit_eq]
  have hnew := hm.translation_frame ht hpd hk (Nat.mul_mod_right _ _) took.lt
  have hother : ∀ pd' ∈ spaces, ∀ v' < 786432, ¬(pd' = pd ∧ v' = v) → translation t pd' (4096 * v') = translation s pd' (4096 * v') := by
    intro pd' hpd' v' hv' hne
    by_cases hpp : pd' = pd
    · have hsame : translation t pd (4096 * v') = translation (takeFrame s) pd (4096 * v') :=
        hm.translation_other ht hpd hk (by omega) (fun heq => hne ⟨hpp, by omega⟩) hneat.takeFrame.2.clean
      rw [hpp]
      exact hsame
    · exact (hm.slotChange ht hpd hk).translation_eq ht hpd hk hpd' (by omega) fun hh => hpp hh.1
  -- a page that was mapped before has a frame that was in use
  have hold : ∀ pd' ∈ spaces, ∀ v' < 786432, ∀ f, translation s pd' (4096 * v') ≠ some (4096 * n, f) := by
    intro pd' hpd' v' hv' f hmaps
    obtain ⟨hused, -⟩ := h.used pd' hpd' v' hv' _ f hmaps
    rw [Nat.mul_div_cancel_left n (by decide), took.clear] at hused
    cases hused
  refine ⟨fun pd' hpd' v' hv' p f hmaps => ?_, fun pd1 hpd1 pd2 hpd2 v1 hv1 v2 hv2 p f f' hmaps1 hmaps2 => ?_⟩
  · by_cases heq : pd' = pd ∧ v' = v
    · rw [heq.1, heq.2, hnew] at hmaps
      obtain ⟨rfl, -⟩ := Prod.mk.inj (Option.some.inj hmaps)
      refine ⟨?_, fun i hi hx => hout i hi ((hp _).mp hx)⟩
      rw [hbits, Nat.mul_div_cancel_left n (by decide), decide_eq_true rfl, Bool.or_true]
    · rw [hother pd' hpd' v' hv' heq] at hmaps
      obtain ⟨hused, hapart⟩ := h.used pd' hpd' v' hv' p f hmaps
      exact ⟨by rw [hbits, hused, Bool.true_or], fun i hi hx => hapart i hi ((hp _).mp hx)⟩
  · by_cases h1 : pd1 = pd ∧ v1 = v <;> by_cases h2 : pd2 = pd ∧ v2 = v
    · exact ⟨h1.1.trans h2.1.symm, h1.2.trans h2.2.symm⟩
    · rw [h1.1, h1.2, hnew] at hmaps1
      obtain ⟨rfl, -⟩ := Prod.mk.inj (Option.some.inj hmaps1)
      rw [hother pd2 hpd2 v2 hv2 h2] at hmaps2
      exact absurd hmaps2 (hold pd2 hpd2 v2 hv2 f')
    · rw [h2.1, h2.2, hnew] at hmaps2
      obtain ⟨rfl, -⟩ := Prod.mk.inj (Option.some.inj hmaps2)
      rw [hother pd1 hpd1 v1 hv1 h1] at hmaps1
      exact absurd hmaps1 (hold pd1 hpd1 v1 hv1 f)
    · rw [hother pd1 hpd1 v1 hv1 h1] at hmaps1
      rw [hother pd2 hpd2 v2 hv2 h2] at hmaps2
      exact h.apart pd1 hpd1 pd2 hpd2 v1 hv1 v2 hv2 p f f' hmaps1 hmaps2

end Exclusive

section Calls

variable {s t u : Machine} {spaces : List Nat} {owner : Owner} {pd dst src start count flags v p f : Nat} {pages : Nat → Nat}

theorem exclusive_mmMapRange (flags : Nat) (h : Exclusive spaces s) (hneat : Neat spaces s) (hpd : pd ∈ spaces)
    (hslots : SlotsIn start count) (hahead : FramesAhead count s) :
    wp (mmMapRange pd start count flags) anyFault (fun _ t => Exclusive spaces t) s := by
  unfold mmMapRange
  by_cases hps : flags &&& mmFlgPs ≠ 0
  · rw [if_pos hps, wp_bind, wp_throw]
    trivial
  rw [if_neg hps, wp_bind, wp_kassert]
  refine ⟨fun haligned => ?_, fun _ => trivial⟩
  rw [wp_bind, wp_infoEntry hneat.1 hpd, wp_bind]
  refine wp_forUp (fun i t => Neat spaces t ∧ infoOf t pd = infoOf s pd ∧ Exclusive spaces t ∧ FramesAhead (count - i) t) _
    ⟨hneat, rfl, h, hahead⟩ (fun i t _ hi ht => ?_) fun t ht => ht.2.2.1
  obtain ⟨hneat, hinfo, hx, hleft⟩ := ht
  obtain ⟨hlow, hhigh⟩ := hslots i (by omega)
  obtain ⟨owner, htree⟩ := hneat.1.tree
  rw [show count - i = count - (i + 1) + 1 by omega] at hleft
  obtain ⟨n, took, hnext, hout⟩ := hleft.next hneat.1.hint
  have hdiv : page start i = 4096 * (page start i / 4096) := by
    have hmod := page_aligned (of_decide_eq_true haligned) i
    exact (Nat.mul_div_cancel' (Nat.dvd_of_mod_eq_zero hmod)).symm
  have hlt := page_lt start i
  rw [← hinfo]
  refine wp_mapRangePage flags htree hpd rfl hhigh rfl (nextFrame_lt hneat.1.hint) (fun _ _ _ => trivial)
    (fun _ _ => trivial) (fun u hfree hm => ?_) fun _ _ _ => ⟨hneat.takeFrame, rfl, hx.taken hneat.1.hint, hleft.tail⟩
  obtain ⟨hneat', hinfo'⟩ := Mapped.neat (s := takeFrame t) hneat.takeFrame hpd hlow hhigh (or_odd (leafFlags_odd flags)) hfree hm
  refine ⟨hneat', hinfo', ?_, hleft.tail.congr hm.phys hm.framed.inPaging_iff⟩
  by_cases huser : page start i / 4096 < 786432
  · rw [hnext] at hm
    change Mapped _ _ _ (page start i / 4194304) (page start i / 4096 % 1024) _ at hm
    rw [hdiv] at hm
    exact hx.enter hneat hpd huser took hout hm
  · have hkept : Kept spaces (fun _ k => 768 ≤ k) (takeFrame t) u :=
      hm.keeps (Kept.refl hneat.takeFrame.1) hpd hlow hhigh (by unfold page at *; omega)
    exact (hx.taken hneat.1.hint).kept hkept (grown_of_phys hm.phys) fun _ _ k hk hle => by omega

theorem Exclusive.leave {q : PhysAlloc} (h : Exclusive spaces s) (hneat : Neat spaces s) (hpd : pd ∈ spaces) (hv : v < 4294967296)
    (hal : v % 4096 = 0) (htr : translation s pd v = some (p, f)) (hf : f / 128 % 2 = 0) (huser : flags &&& mmFlgNophys = 0 → v / 4194304 < 768)
    (hq : if flags &&& mmFlgNophys = 0 then mmFreePhysicalPage s.phys (p / 4096 * 4096) 0 = .ok q else q = s.phys)
    (hkeep : ∀ a < 4294967296, a / 4096 ≠ v / 4096 → translation t pd a = translation s pd a)
    (hu : Unmapped { s with phys := q } t pd (v / 4194304) (v / 4096 % 1024)) : Exclusive spaces t := by
  obtain ⟨owner, ht⟩ := hneat.1.tree
  obtain ⟨_, hhigh⟩ := slots_of_mapped hneat.1 hpd hv (by rw [htr]; exact Option.some_ne_none _)
  have hchange := hu.slotChange (ht.phys q) hpd hhigh
  have hp : ∀ x, InPaging t x ↔ InPaging s x := hchange.framed.inPaging_iff
  have hgone : translation t pd v = none := by
    obtain ⟨_, _, _, _, _, hslot, _⟩ := translation_small htr hf
    exact hu.translation_eq (ht.phys q) hpd hhigh hslot
  have hsub : ∀ pd' ∈ spaces, ∀ w < 786432, (pd' = pd ∧ 4096 * w = v ∧ translation t pd' (4096 * w) = none) ∨
      ¬(pd' = pd ∧ 4096 * w = v) ∧ translation t pd' (4096 * w) = translation s pd' (4096 * w) := by
    intro pd' hpd' w hw
    by_cases hpp : pd' = pd
    · subst hpp
      by_cases hwv : 4096 * w = v
      · exact .inl ⟨rfl, hwv, hwv ▸ hgone⟩
      · exact .inr ⟨fun hh => hwv hh.2, hkeep _ (by omega) (by omega)⟩
    · exact .inr ⟨fun hh => hpp hh.1, hchange.translation_eq (ht.phys q) hpd hhigh hpd' (by omega) fun hh => hpp hh.1⟩
  by_cases hflag : flags &&& mmFlgNophys = 0
  · rw [if_pos hflag, Nat.mul_comm] at hq
    obtain ⟨_, hbits, _⟩ := freePage_ok (by decide) hq
    obtain ⟨x, rfl⟩ : ∃ x, v = 4096 * x := ⟨v / 4096, by omega⟩
    have hx : x < 786432 := by
      have := huser hflag
      omega
    have hphys : ∀ m, bit t.phys.bitmap m = (bit s.phys.bitmap m && decide (m ≠ p / 4096)) := fun m => by
      rw [hu.phys]
      exact hbits m
    have hpal : p % 4096 = 0 := (translation_page hal (show 0 < 4096 by decide) htr).2
    have hold : ∀ pd' ∈ spaces, ∀ w < 786432, ∀ p' f', translation t pd' (4096 * w) = some (p', f') →
        translation s pd' (4096 * w) = some (p', f') ∧ p' ≠ p := by
      intro pd' hpd' w hw p' f' hmaps
      rcases hsub pd' hpd' w hw with ⟨_, _, hnone⟩ | ⟨hne, hsame⟩
      · rw [hmaps] at hnone
        cases hnone
      · rw [hsame] at hmaps
        refine ⟨hmaps, fun heq => hne ?_⟩
        rw [heq] at hmaps
        obtain ⟨h1, h2⟩ := h.apart pd' hpd' pd hpd w hw x hx p f' f hmaps htr
        exact ⟨h1, by rw [h2]⟩
    refine ⟨fun pd' hpd' w hw p' f' hmaps => ?_, fun pd1 hpd1 pd2 hpd2 v1 hv1 v2 hv2 p' f1 f2 hmaps1 hmaps2 => ?_⟩
    · obtain ⟨hbefore, hne⟩ := hold pd' hpd' w hw p' f' hmaps
      obtain ⟨hused, hapart⟩ := h.used pd' hpd' w hw p' f' hbefore
      have hpal' : p' % 4096 = 0 := (translation_page (Nat.mul_mod_right _ _) (show 0 < 4096 by decide) hbefore).2
      refine ⟨?_, fun i hi hx => hapart i hi ((hp _).mp hx)⟩
      rw [hphys, hused, Bool.true_and]
      exact decide_eq_true (by omega)
    · exact h.apart pd1 hpd1 pd2 hpd2 v1 hv1 v2 hv2 p' f1 f2 (hold pd1 hpd1 v1 hv1 p' f1 hmaps1).1 (hold pd2 hpd2 v2 hv2 p' f2 hmaps2).1
  · rw [if_neg hflag] at hq
    refine h.shrink hp (grown_of_phys (hu.phys.trans hq)) fun pd' hpd' w hw => ?_
    rcases hsub pd' hpd' w hw with ⟨_, _, hnone⟩ | ⟨_, hsame⟩
    · exact .inl hnone
    · exact .inr ⟨hpd', hsame⟩

theorem exclusive_mmUmapRange (h : Exclusive spaces s) (hneat : Neat spaces s) (hpd : pd ∈ spaces) (hsmall : flags &&& mmFlgPs = 0)
    (hmapped : RangeMapped s pd start count) (huser : flags &&& mmFlgNophys = 0 → ∀ i < count, slotOf (page start i) < 768) :
    wp (mmUmapRange pd start count flags) anyFault (fun _ t => Exclusive spaces t) s := by
  unfold mmUmapRange
  rw [wp_bind, wp_kassert]
  refine ⟨fun haligned => ?_, fun _ => trivial⟩
  obtain ⟨owner, h0⟩ := hneat.1.tree
  have hbefore : ∀ i < count, ∃ p f, translation s pd (page start i) = some (p, f) ∧ f / 128 % 2 = 0 := by
    intro i hi
    obtain ⟨p, f, hwalk, hf⟩ := hmapped i hi
    exact ⟨p, f, (walk_translation h0 hpd (page_lt start i)).symm.trans hwalk, (not_huge_flag_iff f).mp hf⟩
  have hslots : ∀ i < count, 0 < slotOf (page start i) := by
    intro i hi
    obtain ⟨p, f, htr, _⟩ := hbefore i hi
    exact (slots_of_mapped hneat.1 hpd (page_lt start i) (by rw [htr]; exact Option.some_ne_none _)).1
  rw [if_neg (not_not.mpr hsmall), wp_bind, wp_infoEntry hneat.1 hpd, wp_bind]
  refine wp_forUp (fun i t => Neat spaces t ∧ infoOf t pd = infoOf s pd ∧ Exclusive spaces t ∧
    ∀ i' < count, i ≤ i' → translation t pd (page start i') = translation s pd (page start i')) _
    ⟨hneat, rfl, h, fun _ _ _ => rfl⟩ (fun i t _ hi ht => ?_) fun t ht => ht.2.2.1
  obtain ⟨hneat, hinfo, hx, hrest⟩ := ht
  obtain ⟨p, f, htr, hf⟩ := hbefore i (by omega)
  have htr' := (hrest i (by omega) le_rfl).trans htr
  rw [← hinfo]
  refine wp_imp (wp_umapMapped hneat hpd (page_lt start i) htr' hf) fun _ u hu => ?_
  obtain ⟨hneat', hinfo', hkeep, q, hq, hun⟩ := hu
  refine ⟨hneat', hinfo', ?_, fun i' hi' hle => ?_⟩
  · exact hx.leave hneat hpd (page_lt start i) (page_aligned (of_decide_eq_true haligned) i) htr' hf
      (fun hflag => huser hflag i (by omega)) hq hkeep hun
  · have hapart := page_apart (of_decide_eq_true haligned) hslots (show i < count by omega) hi' (by omega)
    exact (hkeep _ (page_lt start i') hapart).trans (hrest i' hi' (by omega))

theorem Exclusive.forkable (h : Exclusive spaces s) (hneat : Neat spaces s) (hlow : KernelLow s) (hdst : dst ∈ spaces)
    (hsrc : src ∈ spaces) (hne : dst ≠ src) (hker : dst ≠ s.mmKernel) : Forkable spaces s dst src :=
  ⟨hneat, hlow, hdst, hsrc, hne, hker, fun v _ hv p f hmaps => h.used src hsrc v hv p f hmaps⟩

theorem Forked.exclusive (hdst : dst ∈ spaces) (h : Exclusive spaces s) (hf : Forked spaces s dst src 786432 t) :
    Exclusive spaces t := by
  have hp := hf.placed.inPaging_iff
  have hother : ∀ pd ∈ spaces, pd ≠ dst → ∀ v < 786432, translation t pd (4096 * v) = translation s pd (4096 * v) :=
    fun pd hpd hne v hv => (hf.others pd hpd hne _ (by omega)).translation_eq
  -- the pages of the destination have frames that were free
  have hnew : ∀ v < 786432, ∀ p f, translation t dst (4096 * v) = some (p, f) →
      1024 ≤ v ∧ ∃ n, p = 4096 * n ∧ bit s.phys.bitmap n = false ∧ bit t.phys.bitmap n = true ∧
        ∀ i < 4096, ¬InPaging s (4096 * n + i) := by
    intro v hv p f hmaps
    by_cases hfirst : v < 1024
    · rw [translation_first hf.neat.1 hdst (by omega)] at hmaps
      cases hmaps
    rcases hf.done v (by omega) hv with ⟨_, hnone⟩ | ⟨_, _, n, _, hcopy, hclear, hset, hbytes⟩
    · rw [hmaps] at hnone
      cases hnone
    · rw [hmaps] at hcopy
      exact ⟨by omega, n, (Prod.mk.inj (Option.some.inj hcopy)).1, hclear, hset, fun i hi => (hbytes i hi).1⟩
  have hold : ∀ pd ∈ spaces, pd ≠ dst → ∀ v < 786432, ∀ v' < 786432, ∀ p f f', translation t pd (4096 * v) = some (p, f) →
      translation t dst (4096 * v') ≠ some (p, f') := by
    intro pd hpd hne v hv v' hv' p f f' hmaps hmaps'
    rw [hother pd hpd hne v hv] at hmaps
    obtain ⟨_, n, rfl, hclear, _⟩ := hnew v' hv' p f' hmaps'
    obtain ⟨hused, -⟩ := h.used pd hpd v hv _ f hmaps
    rw [Nat.mul_div_cancel_left n (by decide), hclear] at hused
    cases hused
  refine ⟨fun pd hpd v hv p f hmaps => ?_, fun pd1 hpd1 pd2 hpd2 v1 hv1 v2 hv2 p f f' hmaps1 hmaps2 => ?_⟩
  · by_cases hne : pd = dst
    · subst hne
      obtain ⟨_, n, rfl, _, hset, hout⟩ := hnew v hv p f hmaps
      rw [Nat.mul_div_cancel_left n (by decide)]
      exact ⟨hset, fun i hi hx => hout i hi ((hp _).mp hx)⟩
    · rw [hother pd hpd hne v hv] at hmaps
      obtain ⟨hused, hapart⟩ := h.used pd hpd v hv p f hmaps
      exact ⟨hf.grown _ hused, fun i hi hx => hapart i hi ((hp _).mp hx)⟩
  · by_cases h1 : pd1 = dst <;> by_cases h2 : pd2 = dst
    · subst h1
      subst h2
      exact ⟨rfl, hf.distinct v1 v2 p f f' (hnew v1 hv1 p f hmaps1).1 hv1 (hnew v2 hv2 p f' hmaps2).1 hv2 hmaps1 hmaps2⟩
    · subst h1
      exact absurd hmaps1 (hold pd2 hpd2 h2 v2 hv2 v1 hv1 p f' f hmaps2)
    · subst h2
      exact absurd hmaps2 (hold pd1 hpd1 h1 v1 hv1 v2 hv2 p f f' hmaps1)
    · rw [hother pd1 hpd1 h1 v1 hv1] at hmaps1
      rw [hother pd2 hpd2 h2 v2 hv2] at hmaps2
      exact h.apart pd1 hpd1 pd2 hpd2 v1 hv1 v2 hv2 p f f' hmaps1 hmaps2

end Calls

end YggKernel.Paging
