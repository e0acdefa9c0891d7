import YggKernel.Paging.Exclusive

namespace YggKernel.Paging

open Lib.Program Lib.ByteMemory Lib.BitWords Lib.Masks Lib.Runs Phys Pool

/-- What a call is given: the pool hands out zero-filled pages and the allocator frames that nothing uses, only pages
that are mapped get unmapped, and nothing is mapped below the kernel in `mm_kernel` or without a frame of its own. -/
def Careful (s : SpaceState) : SpaceOp → Prop
  | .create | .destroy _ => True
  | .clone dst src flags => CleanPool s.machine ∧ dst ≠ src ∧ dst ≠ s.machine.mmKernel ∧ flags &&& mmFlgCloneKernel ≠ 0
  | .fork dst src flags => CleanPool s.machine ∧ dst ≠ src ∧ dst ≠ s.machine.mmKernel ∧ flags &&& mmFlgCloneKernel ≠ 0 ∧
    flags &&& mmFlgCloneUser ≠ 0 ∧ FramesAhead (pagesLeft s.machine src 1024).card s.machine
  | .mapRange pd start count _ => CleanPool s.machine ∧ SlotsIn start count ∧ FramesAhead count s.machine ∧
    (pd = s.machine.mmKernel → ∀ i < count, 768 ≤ slotOf (page start i))
  | .mapRangePages pd start _ count flags => CleanPool s.machine ∧
    (∀ i < count, 768 ≤ callSlot start flags i ∧ callSlot start flags i < 1023) ∧
    (flags &&& mmFlgPs = 0 → RangeFree s.machine pd start count)
  | .mapRangeLinear pd start _ count flags => CleanPool s.machine ∧
    (∀ i < count, 768 ≤ slotOf (linearPage start flags i) ∧ slotOf (linearPage start flags i) < 1023) ∧
    (flags &&& mmFlgPs = 0 → RangeFree s.machine pd (start &&& pageMask) count)
  | .umapRange pd start count flags => CleanPool s.machine ∧
    if flags &&& mmFlgPs ≠ 0 then flags &&& mmFlgNophys ≠ 0 ∧ ∀ i < count, 768 ≤ callSlot start flags i
    else RangeMapped s.machine pd start count ∧ (pd = s.machine.mmKernel → ∀ i < count, 768 ≤ callSlot start flags i) ∧
      (flags &&& mmFlgNophys = 0 → ∀ i < count, callSlot start flags i < 768)

/-- The counts of the tables are right, and so is the ownership of the user frames. -/
structure Accounted (spaces : List Nat) (s : Machine) : Prop where
  sound : Sound spaces s
  tallied : ∀ pd ∈ spaces, ∀ k < 1023, Tallied s pd k
  exclusive : Exclusive spaces s

/-- What careful calls keep. -/
structure Orderly (spaces : List Nat) (s : Machine) : Prop extends Accounted spaces s where
  low : KernelLow s

def SpaceState.Orderly (s : SpaceState) : Prop := Paging.Orderly s.spaces s.machine

/-- A run of careful calls. -/
def CarefulRun : SpaceState → SpaceState → Prop := Run (fun s op t => spaceStep s op = some t) fun s op _ => Careful s op

-- the search for a huge frame must not be run on the state while `wp` is taken apart
attribute [local irreducible] wp

section Boot

variable {s : SpaceState} {b : Machine} {dir : Nat}

/-- Nothing but the kernel and the chunk of the pool is mapped when `mm_init` is done. -/
theorem orderly_mmInit (hb : BootState b dir) : wp (mmInit dir) noFault (fun _ u => Orderly [dir] u) b := by
  refine wp_imp (wp_and (wp_mmInit hb) (wp_mmInit_started (Q := fun _ u => u.mmKernel = dir ∧
    (∀ k, 0 < k → k < 768 → word u dir k = 0) ∧ ∀ k < 1023, ¬HasTable u dir k ∧ slotInfo u dir k = 0) hb fun t g n ps u h took hinit _ => ?_))
    fun _ u hu => ?_
  · have hold : ∀ k < 1024, word { t with pools := ps } dir k = word t dir k := fun k _ => word_pools took.paddr dir k
    refine ⟨hinit.mmKernel.trans h.mmKernel, fun k h1 h2 => ?_, fun k hk => ⟨fun hhas => ?_, ?_⟩⟩
    · rw [hinit.directory k (by omega), if_neg (by omega), if_neg (by omega), hold k (by omega), word, physOf_kernel hb, h.mem,
        load32_store32_of_disjoint (by omega), hb.others k (by omega) (by omega)]
    · obtain ⟨hodd, hsmall⟩ := hhas
      rw [hinit.directory k (by omega), if_neg (show k ≠ 1023 by omega)] at hodd hsmall
      by_cases hk0 : k = 0
      · have hlow := hb.low
        have haligned := hb.aligned
        rw [if_pos hk0] at hodd
        unfold kernelVirtBase at *
        omega
      · rw [if_neg hk0, hold k (by omega)] at hodd hsmall
        have := h.word hb (k := k) (by omega)
        omega
    · rw [slotInfo, infoOf, hinit.directory 1023 (by decide)]
      exact hinit.info k (by omega)
  · obtain ⟨⟨hsound, hker⟩, _, hempty, htables⟩ := hu
    have hmem : dir ∈ [dir] := List.mem_singleton_self dir
    have hfree : ∀ v < 786432, translation u dir (4096 * v) = none := by
      intro v hv
      by_cases hfirst : v < 1024
      · exact translation_first hsound hmem (by omega)
      · refine translation_absent (k := 4096 * v / 4194304) (if_pos ?_) rfl
        rw [hempty _ (by omega) (by omega)]
    refine ⟨⟨hsound, fun pd hpd k hk => ?_, fun pd hpd v hv p f hmaps => ?_, fun pd hpd _ _ v hv _ _ p f _ hmaps _ => ?_⟩,
      fun k h1 h2 => ?_⟩
    · obtain rfl := List.mem_singleton.mp hpd
      exact ⟨fun hhas => absurd hhas (htables k hk).1, fun hhas => absurd hhas (htables k hk).1⟩
    · obtain rfl := List.mem_singleton.mp hpd
      rw [hfree v hv] at hmaps
      cases hmaps
    · obtain rfl := List.mem_singleton.mp hpd
      rw [hfree v hv] at hmaps
      cases hmaps
    · rw [hker]
      exact ⟨hempty k h1 h2, (htables k (by omega)).2⟩

/-- Where the memory above the kernel is filled with zeros, so are the pages of the pool. -/
theorem clean_mmInit (hb : BootState b dir) (hzero : ∀ x, 4194304 ≤ x → b.mem x = 0#8) :
    wp (mmInit dir) noFault (fun _ u => CleanPool u) b := by
  refine wp_mmInit_started hb fun t g n ps u h took hinit hothers m hm hclear j hj => ?_
  obtain ⟨hg1, hg2⟩ := h.lt
  have hhigh := hb.high
  unfold kernelVirtBase at hhigh
  have hmn : m ≠ n := by
    rintro rfl
    rw [hinit.pools] at hclear
    have hset : bit (ps 0).bitmap m = true := by rw [took.set, decide_eq_true rfl, Bool.or_true]
    rw [show bit (ps 0).bitmap m = false from hclear] at hset
    cases hset
  have hpaddr : (t.pools 0).paddr = 4194304 * g := by rw [h.first]
  rw [hothers m hm hmn j hj, word, physOf_poolPage, hpaddr, h.mem, load32_store32_of_disjoint (by unfold kernelVirtBase; omega), load32,
    hzero _ (by omega), hzero _ (by omega), hzero _ (by omega), hzero _ (by omega)]
  rfl

theorem clean_booted {m : Machine} (hb : BootState b dir) (hzero : ∀ x, 4194304 ≤ x → b.mem x = 0#8) (hrun : mmInit dir b = .ok ((), m)) :
    CleanPool m := of_run (clean_mmInit hb hzero) hrun

theorem orderly_booted (h : Booted s) : s.Orderly := by
  obtain ⟨b, dir, hb, hrun, hspaces⟩ := h
  have horderly : Paging.Orderly [dir] s.machine := of_run (orderly_mmInit hb) hrun
  unfold SpaceState.Orderly
  rwa [hspaces]

end Boot

section Steps

variable {s t : SpaceState} {op : SpaceOp} {pd dst src start pstart count flags : Nat} {pages : Nat → Nat}

theorem Careful.regular (hc : Careful s op) (hop : ∀ dst src flags, op ≠ .fork dst src flags) : Regular s op t := by
  cases op with
  | create | destroy _ | clone _ _ _ | umapRange _ _ _ _ => trivial
  | fork dst src flags => exact absurd rfl (hop dst src flags)
  | mapRange pd start count flags => exact hc.2.1
  | mapRangePages pd start pages count flags =>
    have hhigh := hc.2.1
    unfold callSlot slotOf at hhigh
    by_cases hps : flags &&& mmFlgPs ≠ 0
    · simp only [Regular, if_pos hps] at hhigh ⊢
      exact fun i hi => ⟨Nat.lt_of_lt_of_le (by decide) (hhigh i hi).1, (hhigh i hi).2⟩
    · simp only [Regular, if_neg hps] at hhigh ⊢
      exact fun i hi => ⟨Nat.lt_of_lt_of_le (by decide) (hhigh i hi).1, (hhigh i hi).2⟩
  | mapRangeLinear pd start pstart count flags =>
    have hhigh := hc.2.1
    unfold linearPage slotOf at hhigh
    by_cases hps : flags &&& mmFlgPs ≠ 0
    · simp only [Regular, LinearSlotsIn, if_pos hps] at hhigh ⊢
      exact fun i hi => ⟨Nat.lt_of_lt_of_le (by decide) (hhigh i hi).1, (hhigh i hi).2⟩
    · simp only [Regular, LinearSlotsIn, if_neg hps] at hhigh ⊢
      exact fun i hi => ⟨Nat.lt_of_lt_of_le (by decide) (hhigh i hi).1, (hhigh i hi).2⟩

theorem Careful.quiet (hc : Careful s op) (hop : ∀ dst src flags, op ≠ .fork dst src flags) {k : Nat} (hk : k < 768) :
    ¬Writes s op s.machine.mmKernel k := by
  cases op with
  | create | destroy _ => exact id
  | clone dst src flags => exact fun hw => hc.2.2.1 hw.symm
  | fork dst src flags => exact absurd rfl (hop dst src flags)
  | mapRange pd start count flags =>
    rintro ⟨hpd, i, hi, rfl⟩
    have := hc.2.2.2 hpd.symm i hi
    omega
  | mapRangePages pd start pages count flags =>
    rintro ⟨_, i, hi, rfl⟩
    have := (hc.2.1 i hi).1
    omega
  | mapRangeLinear pd start pstart count flags =>
    rintro ⟨_, i, hi, rfl⟩
    have := (hc.2.1 i hi).1
    omega
  | umapRange pd start count flags =>
    rintro ⟨hpd, i, hi, rfl⟩
    have hrest := hc.2
    split at hrest
    · have := hrest.2 i hi
      omega
    · have := hrest.2.1 hpd.symm i hi
      omega

def StaysAccounted (s t : SpaceState) : Prop :=
  Accounted t.spaces t.machine ∧ (CleanPool s.machine → CleanPool t.machine)

theorem stays_after {α : Type} {p : Prog Fault Machine α} (hafter : s.after p = some t)
    (hp : wp p anyFault (fun _ m => Neat s.spaces m ∧ Exclusive s.spaces m) s.machine) : StaysAccounted s t := by
  obtain ⟨⟨⟨hsound, hclean, htallied⟩, hx⟩, hspaces⟩ := after_of_wp hafter hp
  refine ⟨?_, fun _ => hclean⟩
  rw [hspaces]
  exact ⟨hsound, htallied, hx⟩

theorem stays_create (h : s.Orderly) (hstep : spaceStep s .create = some t) : StaysAccounted s t := by
  have hs : Paging.Orderly s.spaces s.machine := h
  obtain ⟨owner, ht⟩ := hs.sound.tree
  have hcreate : wp mmCreateSpace anyFault (fun pd m => pd ≠ 0 ∧ Accounted (pd :: s.spaces) m ∧
      (CleanPool s.machine → CleanPool m)) s.machine :=
    wp_mmCreateSpace ht.geometry (fun _ _ => trivial) (fun _ _ _ _ _ => trivial) fun n m u hc =>
      ⟨by unfold poolPage poolVaddr; omega, ⟨hc.sound hs.sound, hc.tallied ht hs.tallied, hc.exclusive hs.sound hs.exclusive⟩,
        fun hclean => (hc.tidy ht ⟨hclean, hs.tallied⟩).clean⟩
  simp only [spaceStep] at hstep
  cases hrun : mmCreateSpace s.machine with
  | error e => simp [hrun] at hstep
  | ok r =>
    simp only [hrun, Option.some.injEq] at hstep
    obtain ⟨hne, hacc, hclean⟩ := of_run hcreate hrun
    subst hstep
    refine ⟨?_, hclean⟩
    rwa [if_neg hne]

theorem accounted_destroy (h : s.Orderly) (hstep : spaceStep s (.destroy pd) = some t) : Accounted t.spaces t.machine := by
  have hs : Paging.Orderly s.spaces s.machine := h
  obtain ⟨owner, ht⟩ := hs.sound.tree
  obtain ⟨hpd, hrest⟩ := Option.ite_none_right_eq_some.mp hstep
  obtain ⟨u, hu, rfl⟩ := Option.map_eq_some_iff.mp hrest
  have hdestroy : wp (mmDestroySpace pd) anyFault (fun _ m => Accounted (s.spaces.filter (· ≠ pd)) m) s.machine :=
    wp_mmDestroySpace ht hpd (fun _ => trivial) fun n m u hd =>
      ⟨hd.sound hs.sound hpd, hd.tallied hs.tallied, hd.exclusive hs.exclusive⟩
  obtain ⟨hacc, hspaces⟩ := after_of_wp hu hdestroy
  dsimp only
  rwa [hspaces]

theorem stays_clone (h : s.Orderly) (hstep : spaceStep s (.clone dst src flags) = some t) (hc : Careful s (.clone dst src flags)) :
    StaysAccounted s t := by
  have hs : Paging.Orderly s.spaces s.machine := h
  obtain ⟨hclean, hne, _, hflag⟩ := hc
  obtain ⟨⟨hdst, hsrc⟩, hafter⟩ := Option.ite_none_right_eq_some.mp hstep
  exact stays_after hafter (wp_imp (wp_cloneKernel hs.sound hdst hsrc hne hflag) fun _ u hu =>
    ⟨⟨hu.sound, hu.tidy ⟨hclean, hs.tallied⟩⟩, hu.exclusive hdst hs.exclusive⟩)

theorem forked_step (h : s.Orderly) (hstep : spaceStep s (.fork dst src flags) = some t) (hc : Careful s (.fork dst src flags)) :
    Forkable s.spaces s.machine dst src ∧ ∃ u, Cloned s.spaces s.machine dst src 1024 u ∧
      Forked s.spaces u dst src 786432 t.machine ∧ t.spaces = s.spaces := by
  have hs : Paging.Orderly s.spaces s.machine := h
  obtain ⟨hclean, hne, hker, hkernel, huser, hahead⟩ := hc
  obtain ⟨⟨hdst, hsrc⟩, hafter⟩ := Option.ite_none_right_eq_some.mp hstep
  have hf := hs.exclusive.forkable ⟨hs.sound, hclean, hs.tallied⟩ hs.low hdst hsrc hne hker
  obtain ⟨⟨u, hcloned, hforked⟩, hspaces⟩ := after_of_wp hafter
    (wp_imp (wp_mmSpaceFork hf hahead hkernel huser) fun _ t ht => ht.2)
  exact ⟨hf, u, hcloned, hforked, hspaces⟩

theorem stays_fork (h : s.Orderly) (hstep : spaceStep s (.fork dst src flags) = some t) (hc : Careful s (.fork dst src flags)) :
    StaysAccounted s t ∧ KernelLow t.machine := by
  have hs : Paging.Orderly s.spaces s.machine := h
  obtain ⟨hf, u, hcloned, hforked, hspaces⟩ := forked_step h hstep hc
  refine ⟨⟨?_, fun _ => hforked.neat.2.clean⟩, hforked.low⟩
  rw [hspaces]
  exact ⟨hforked.neat.1, hforked.neat.2.tallied, hforked.exclusive hf.dst_mem (hcloned.exclusive hf.dst_mem hs.exclusive)⟩

theorem stays_mapRange (h : s.Orderly) (hstep : spaceStep s (.mapRange pd start count flags) = some t)
    (hc : Careful s (.mapRange pd start count flags)) : StaysAccounted s t := by
  have hs : Paging.Orderly s.spaces s.machine := h
  obtain ⟨hclean, hslots, hahead, _⟩ := hc
  obtain ⟨hpd, hafter⟩ := Option.ite_none_right_eq_some.mp hstep
  have hneat : Neat s.spaces s.machine := ⟨hs.sound, hclean, hs.tallied⟩
  exact stays_after hafter (wp_and (neat_mmMapRange flags hneat hpd hslots)
    (exclusive_mmMapRange flags hs.exclusive hneat hpd hslots hahead))

theorem exclusive_above {α : Type} {p : Prog Fault Machine α} (hs : Paging.Orderly s.spaces s.machine) {W : Nat → Nat → Prop}
    (hkept : wp p anyFault (fun _ m => Kept s.spaces W s.machine m) s.machine) (hgrown : Keeps Grown p)
    (hW : ∀ pd k, W pd k → 768 ≤ k) : wp p anyFault (fun _ m => Exclusive s.spaces m) s.machine :=
  wp_imp (wp_and hkept (hgrown.run s.machine)) fun _ _ hm =>
    hs.exclusive.kept hm.1 hm.2 fun pd _ k hk hWk => by have := hW pd k hWk; omega

theorem stays_mapRangePages (h : s.Orderly) (hstep : spaceStep s (.mapRangePages pd start pages count flags) = some t)
    (hc : Careful s (.mapRangePages pd start pages count flags)) : StaysAccounted s t := by
  have hs : Paging.Orderly s.spaces s.machine := h
  obtain ⟨hclean, hhigh, hfree⟩ := id hc
  obtain ⟨⟨hpd, hpages⟩, hafter⟩ := Option.ite_none_right_eq_some.mp hstep
  have hslots : Regular s (.mapRangePages pd start pages count flags) t := hc.regular nofun
  refine stays_after hafter (wp_and (neat_mmMapRangePages ⟨hs.sound, hclean, hs.tallied⟩ hpd hpages hslots hfree)
    (exclusive_above (W := fun _ k => 768 ≤ k) hs (kept_mmMapRangePages hs.sound hpd hpages hslots fun i hi => (hhigh i hi).1)
      (keeps_mmMapRangePages _ _ _ _ _) fun _ _ hk => hk))

theorem keeps_mmMapRangeLinear (pd start pstart count flags : Nat) : Keeps Grown (mmMapRangeLinear pd start pstart count flags) := by
  unfold mmMapRangeLinear
  refine keeps_bind (keeps_kassert _ _) fun _ => keeps_bind (keeps_kassert _ _) fun _ => Keeps.ite ?_ ?_ <;>
    exact keeps_bind (keeps_forUp (fun _ => keeps_discard (keeps_mmMapRangePages _ _ _ _ _)) _ _) fun _ => keeps_pure 0

theorem stays_mapRangeLinear (h : s.Orderly) (hstep : spaceStep s (.mapRangeLinear pd start pstart count flags) = some t)
    (hc : Careful s (.mapRangeLinear pd start pstart count flags)) : StaysAccounted s t := by
  have hs : Paging.Orderly s.spaces s.machine := h
  obtain ⟨hclean, hhigh, hfree⟩ := id hc
  obtain ⟨hpd, hafter⟩ := Option.ite_none_right_eq_some.mp hstep
  have hslots : Regular s (.mapRangeLinear pd start pstart count flags) t := hc.regular nofun
  refine stays_after hafter (wp_and (neat_mmMapRangeLinear ⟨hs.sound, hclean, hs.tallied⟩ hpd hslots hfree)
    (exclusive_above (W := fun _ k => 768 ≤ k) hs (kept_mmMapRangeLinear hs.sound hpd hslots fun i hi => (hhigh i hi).1)
      (keeps_mmMapRangeLinear _ _ _ _ _) fun _ _ hk => hk))

theorem keeps_umapHugePage {pd k : Nat} (hflag : flags &&& mmFlgNophys ≠ 0) : Keeps Grown (umapHugePage pd flags k) := by
  unfold umapHugePage
  rw [if_neg hflag]
  exact keeps_bind (keeps_entry _ _) fun _ => keeps_bind (keeps_kassert _ _) fun _ => keeps_setEntry _ _ _

theorem stays_umapRange (h : s.Orderly) (hstep : spaceStep s (.umapRange pd start count flags) = some t)
    (hc : Careful s (.umapRange pd start count flags)) : StaysAccounted s t := by
  have hs : Paging.Orderly s.spaces s.machine := h
  obtain ⟨hclean, hrest⟩ := hc
  obtain ⟨⟨hpd, hstart⟩, hafter⟩ := Option.ite_none_right_eq_some.mp hstep
  have hneat : Neat s.spaces s.machine := ⟨hs.sound, hclean, hs.tallied⟩
  by_cases hps : flags &&& mmFlgPs ≠ 0
  · rw [if_pos hps] at hrest
    have hgrown : Keeps Grown (mmUmapRange pd start count flags) := by
      unfold mmUmapRange
      rw [if_pos hps]
      exact keeps_bind (keeps_kassert _ _) fun _ =>
        keeps_bind (keeps_forUp (fun _ => keeps_umapHugePage hrest.1) _ _) fun _ => keeps_pure (-1)
    exact stays_after hafter (wp_and (neat_mmUmapRange hneat hpd hstart fun hno => absurd hno hps)
      (exclusive_above (W := fun _ k => 768 ≤ k) hs (kept_mmUmapRange flags hs.sound hpd hstart hrest.2) hgrown fun _ _ hk => hk))
  · rw [if_neg hps] at hrest
    have huser := hrest.2.2
    unfold callSlot at huser
    simp only [if_neg hps] at huser
    exact stays_after hafter (wp_and (neat_mmUmapRange hneat hpd hstart fun _ => hrest.1)
      (exclusive_mmUmapRange hs.exclusive hneat hpd (not_not.mp hps) hrest.1 huser))

theorem orderly_of (h : s.Orderly) (hstep : spaceStep s op = some t) (hc : Careful s op) (hacc : Accounted t.spaces t.machine)
    (hop : ∀ dst src flags, op ≠ .fork dst src flags) : t.Orderly := by
  have hs : Paging.Orderly s.spaces s.machine := h
  obtain ⟨owner, ht⟩ := hs.sound.tree
  obtain ⟨hker, hsame⟩ := frame_step hs.sound hstep (hc.regular hop)
  exact ⟨hacc, hs.low.keep hker fun k hk => hsame _ ht.kernel k (by omega) (hc.quiet hop hk)⟩

theorem orderly_step (h : s.Orderly) (hstep : spaceStep s op = some t) (hc : Careful s op) :
    t.Orderly ∧ ((∀ pd, op ≠ .destroy pd) → CleanPool s.machine → CleanPool t.machine) := by
  have hother : StaysAccounted s t → (∀ dst src flags, op ≠ .fork dst src flags) →
      t.Orderly ∧ ((∀ pd, op ≠ .destroy pd) → CleanPool s.machine → CleanPool t.machine) :=
    fun hstays hop => ⟨orderly_of h hstep hc hstays.1 hop, fun _ => hstays.2⟩
  cases op with
  | create => exact hother (stays_create h hstep) nofun
  | destroy pd => exact ⟨orderly_of h hstep hc (accounted_destroy h hstep) nofun, fun hop => absurd rfl (hop pd)⟩
  | clone dst src flags => exact hother (stays_clone h hstep hc) nofun
  | fork dst src flags =>
    obtain ⟨⟨hacc, hclean⟩, hlow⟩ := stays_fork h hstep hc
    exact ⟨⟨hacc, hlow⟩, fun _ => hclean⟩
  | mapRange pd start count flags => exact hother (stays_mapRange h hstep hc) nofun
  | mapRangePages pd start pages count flags => exact hother (stays_mapRangePages h hstep hc) nofun
  | mapRangeLinear pd start pstart count flags => exact hother (stays_mapRangeLinear h hstep hc) nofun
  | umapRange pd start count flags => exact hother (stays_umapRange h hstep hc) nofun

theorem orderly_run (hs : Booted s) (hrun : CarefulRun s t) : t.Orderly :=
  hrun.invariant SpaceState.Orderly (fun _ _ _ hu hstep hc => (orderly_step hu hstep hc).1) (orderly_booted hs)

end Steps

end YggKernel.Paging
