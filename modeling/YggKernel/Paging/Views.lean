import YggKernel.Paging.Isolation

namespace YggKernel.Paging

open Lib.Program Lib.ByteMemory Lib.BitWords Lib.Masks Lib.Runs Phys Pool

def callSlot (start flags i : Nat) : Nat := if flags &&& mmFlgPs ≠ 0 then start / 4194304 + i else slotOf (page start i)

def Writes (s : SpaceState) (op : SpaceOp) (pd k : Nat) : Prop :=
  match op with
  | .create | .destroy _ => False
  | .clone dst _ _ => pd = dst
  | .fork dst _ _ => pd = dst ∨ pd = s.machine.mmKernel ∧ 0 < k ∧ k < 768
  | .mapRange pd' start count _ => pd = pd' ∧ ∃ i < count, k = slotOf (page start i)
  | .mapRangePages pd' start _ count flags => pd = pd' ∧ ∃ i < count, k = callSlot start flags i
  | .mapRangeLinear pd' start _ count flags => pd = pd' ∧ ∃ i < count, k = slotOf (linearPage start flags i)
  | .umapRange pd' start count flags => pd = pd' ∧ ∃ i < count, k = callSlot start flags i

section Steps

variable {s t : SpaceState} {op : SpaceOp} {pd dst src flags k : Nat}

theorem Created.slotSame {s t : Machine} {spaces : List Nat} {owner : Owner} {n m : Nat} (h : Tree s spaces owner)
    (hc : Created s t n m) (hpd : pd ∈ spaces) (hk : k < 1024) : SlotSame s t pd k := by
  have hok := h.spaces pd hpd
  refine ⟨hc.words_old h hok.directory hk, ?_, fun hhas j hj => ?_⟩
  · unfold slotInfo
    rw [show infoOf t pd = infoOf s pd from hc.words_old h hok.directory (by decide)]
    exact hc.words_old h hok.info hk
  · exact hc.words_old h (h.tableRole hpd (hhas.lt h hpd hk) (hhas.counted h hpd (hhas.lt h hpd hk))) hj

theorem Destroyed.slotSame {s t : Machine} {n m : Nat} (hc : Destroyed s t dst n m) (pd k : Nat) : SlotSame s t pd k := by
  refine ⟨hc.words pd k, ?_, fun _ j _ => hc.words _ j⟩
  unfold slotInfo
  rw [show infoOf t pd = infoOf s pd from hc.words pd 1023]
  exact hc.words _ k

def CallFrame (s : SpaceState) (op : SpaceOp) (m : Machine) : Prop :=
  m.mmKernel = s.machine.mmKernel ∧ ∀ pd ∈ s.spaces, ∀ k < 1024, ¬Writes s op pd k → SlotSame s.machine m pd k

theorem callFrame_after {α : Type} {p : Prog Fault Machine α} (hafter : s.after p = some t)
    (hp : wp p anyFault (fun _ m => Kept s.spaces (Writes s op) s.machine m) s.machine) : CallFrame s op t.machine := by
  obtain ⟨hkept, _⟩ := after_of_wp hafter hp
  exact ⟨hkept.placed.mmKernel, hkept.same⟩

theorem frame_step (h : s.Sound) (hstep : spaceStep s op = some t) (hregular : Regular s op t) : CallFrame s op t.machine := by
  have hsound : Paging.Sound s.spaces s.machine := h
  obtain ⟨owner, hs⟩ := hsound.tree
  cases op with
  | create =>
    have hcreate : wp mmCreateSpace anyFault (fun _ m => CallFrame s .create m) s.machine :=
      wp_mmCreateSpace hs.geometry (fun _ _ => trivial) (fun _ _ _ _ _ => trivial) fun n m u hc =>
        ⟨hc.framed.mmKernel, fun pd hpd k hk _ => hc.slotSame hs hpd hk⟩
    simp only [spaceStep] at hstep
    cases hrun : mmCreateSpace s.machine with
    | error e => simp [hrun] at hstep
    | ok r =>
      simp only [hrun, Option.some.injEq] at hstep
      subst hstep
      exact of_run hcreate hrun
  | destroy pd' =>
    obtain ⟨hmem, hrest⟩ := Option.ite_none_right_eq_some.mp hstep
    obtain ⟨u, hu, rfl⟩ := Option.map_eq_some_iff.mp hrest
    have hdestroy : wp (mmDestroySpace pd') anyFault (fun _ m => CallFrame s (.destroy pd') m) s.machine :=
      wp_mmDestroySpace hs hmem (fun _ => trivial) fun n m u hd => ⟨hd.framed.mmKernel, fun pd _ k _ _ => hd.slotSame pd k⟩
    exact (after_of_wp hu hdestroy).1
  | clone dst src flags =>
    obtain ⟨⟨hdst, hsrc⟩, hafter⟩ := Option.ite_none_right_eq_some.mp hstep
    exact callFrame_after hafter (wp_imp (kept_mmSpaceClone flags hsound hdst hsrc fun _ => rfl) fun _ _ hm => hm.1)
  | fork dst src flags =>
    obtain ⟨⟨hdst, hsrc⟩, hafter⟩ := Option.ite_none_right_eq_some.mp hstep
    have hkept := (after_of_wp hafter (kept_mmSpaceFork (W := Writes s (.fork dst src flags))
      flags hsound hdst hsrc (fun _ => .inl rfl) fun k h1 h2 => .inr ⟨rfl, h1, h2⟩)).1
    exact ⟨(hkept hregular).placed.mmKernel, (hkept hregular).same⟩
  | mapRange pd' start count flags =>
    obtain ⟨hpd', hafter⟩ := Option.ite_none_right_eq_some.mp hstep
    exact callFrame_after hafter (kept_mmMapRange flags hsound hpd' hregular fun i hi => ⟨rfl, i, hi, rfl⟩)
  | mapRangePages pd' start pages count flags =>
    obtain ⟨⟨hpd', hpages⟩, hafter⟩ := Option.ite_none_right_eq_some.mp hstep
    exact callFrame_after hafter (kept_mmMapRangePages hsound hpd' hpages hregular fun i hi => ⟨rfl, i, hi, rfl⟩)
  | mapRangeLinear pd' start pstart count flags =>
    obtain ⟨hpd', hafter⟩ := Option.ite_none_right_eq_some.mp hstep
    exact callFrame_after hafter (kept_mmMapRangeLinear hsound hpd' hregular fun i hi => ⟨rfl, i, hi, rfl⟩)
  | umapRange pd' start count flags =>
    obtain ⟨⟨hpd', hstart⟩, hafter⟩ := Option.ite_none_right_eq_some.mp hstep
    exact callFrame_after hafter (kept_mmUmapRange flags hsound hpd' hstart fun i hi => ⟨rfl, i, hi, rfl⟩)

/-- A run in which a space lives and a slot of it is not written. -/
def QuietRun (pd k : Nat) : SpaceState → SpaceState → Prop :=
  Run (fun s op t => spaceStep s op = some t) fun s op t => Regular s op t ∧ pd ∈ t.spaces ∧ ¬Writes s op pd k

theorem QuietRun.same (h : s.Sound) (hpd : pd ∈ s.spaces) (hk : k < 1024) (hrun : QuietRun pd k s t) :
    t.Sound ∧ pd ∈ t.spaces ∧ SlotSame s.machine t.machine pd k :=
  hrun.invariant (fun u => u.Sound ∧ pd ∈ u.spaces ∧ SlotSame s.machine u.machine pd k)
    (fun _ _ _ hu hstep hc => ⟨sound_step hu.1 hstep hc.1, hc.2.1,
      hu.2.2.trans ((frame_step hu.1 hstep hc.1).2 pd hu.2.1 k hk hc.2.2)⟩)
    ⟨h, hpd, SlotSame.refl _ pd k⟩

theorem walk_of_sound (h : s.Sound) (hpd : pd ∈ s.spaces) {a : Nat} (ha : a < 4294967296) :
    walk s.machine pd a = translation s.machine pd a := by
  obtain ⟨owner, hs⟩ := Sound.tree h
  exact walk_translation hs hpd ha

end Steps

section Isolated

variable {s t u v : SpaceState} {pd k a dst src flags : Nat} {op : SpaceOp}

/-- What other calls do changes no translation of a space: a slot that no call of a run writes is translated
as before the run, whatever spaces come and go. -/
theorem slots_isolated (hs : Booted s) (hrun : SpaceRun s t) (hpd : pd ∈ t.spaces) (hquiet : QuietRun pd k t u)
    (ha : a < 4294967296) (hslot : slotOf a = k) : walk u.machine pd a = walk t.machine pd a := by
  have ht := sound_run hs hrun
  have hk : k < 1024 := by
    unfold slotOf at hslot
    omega
  obtain ⟨hu, hpdu, hsame⟩ := hquiet.same ht hpd hk
  rw [walk_of_sound hu hpdu ha, walk_of_sound ht hpd ha]
  rw [← hslot] at hsame
  exact hsame.translation_eq

/-- A page is mapped in one space and then at the same address in another. -/
theorem slots_isolated_two : ∃ t u, SpaceRun smallState t ∧ spaceStep t (.mapRange 0xC1004000 0x400000 1 mmFlgUs) = some u ∧
    walk t.machine 0xC1001000 0x400000 ≠ none ∧ walk u.machine 0xC1001000 0x400000 = walk t.machine 0xC1001000 0x400000 := by
  have hsteps : (spaceSteps smallState [.create, .mapRange 0xC1001000 0x400000 1 mmFlgUs, .create]).map (fun t => (t.spaces,
      (walk t.machine 0xC1001000 0x400000).isSome,
      (spaceStep t (.mapRange 0xC1004000 0x400000 1 mmFlgUs)).map SpaceState.spaces)) =
      some ([0xC1004000, 0xC1001000, 0xC0200000], true, some [0xC1004000, 0xC1001000, 0xC0200000]) := by decide +kernel
  obtain ⟨t, ht, heq⟩ := Option.map_eq_some_iff.mp hsteps
  obtain ⟨hspaces, hrest⟩ := Prod.mk.inj heq
  obtain ⟨hmapped, hnext⟩ := Prod.mk.inj hrest
  obtain ⟨u, hu, hspaces'⟩ := Option.map_eq_some_iff.mp hnext
  have hin : SlotsIn 0x400000 1 := by decide +kernel
  have hrun : SpaceRun smallState t := by
    refine spaceRun_steps (Run.refl _) (fun op hop v w => ?_) ht
    simp only [List.mem_cons, List.not_mem_nil, or_false] at hop
    rcases hop with rfl | rfl | rfl
    · trivial
    · exact hin
    · trivial
  have hquiet : QuietRun 0xC1001000 1 t u := by
    refine (Run.refl t).tail hu ⟨hin, ?_, fun hw => absurd hw.1 (by decide)⟩
    rw [hspaces']
    decide
  refine ⟨t, u, hrun, hu, ?_, slots_isolated smallState_booted hrun ?_ hquiet (by decide) (by decide)⟩
  · exact Option.isSome_iff_ne_none.mp hmapped
  · rw [hspaces]
    decide

/-- A clone or a fork makes the kernel half of a space as the source's. -/
theorem half_step (h : s.Sound) (hstep : spaceStep s op = some t) (hregular : Regular s op t)
    (hop : op = .clone dst src flags ∨ op = .fork dst src flags) (hne : dst ≠ src) (hflag : flags &&& mmFlgCloneKernel ≠ 0) :
    dst ∈ t.spaces ∧ src ∈ t.spaces ∧ ∀ k, 768 ≤ k → k < 1024 → slotAt t.machine dst k = slotAt t.machine src k := by
  have hsound : Paging.Sound s.spaces s.machine := h
  rcases hop with rfl | rfl
  · obtain ⟨⟨hdst, hsrc⟩, hafter⟩ := Option.ite_none_right_eq_some.mp hstep
    obtain ⟨hc, hspaces⟩ := after_of_wp hafter (wp_cloneKernel hsound hdst hsrc hne hflag)
    rw [hspaces]
    refine ⟨hdst, hsrc, fun k h1 h2 => ?_⟩
    rw [hc.half k h1 h2, (hc.others src hsrc hne.symm k h2).slotAt_eq]
  · obtain ⟨⟨hdst, hsrc⟩, hafter⟩ := Option.ite_none_right_eq_some.mp hstep
    obtain ⟨hhalf, hspaces⟩ := after_of_wp hafter (half_mmSpaceFork hsound hdst hsrc hne hflag)
    rw [hspaces]
    exact ⟨hdst, hsrc, (hhalf hregular).2⟩

/-- A space that was cloned or forked sees the kernel as its source does, for as long as both live and no call
writes the kernel half of either. -/
theorem kernel_view (hs : Booted s) (hrun : SpaceRun s t) (hstep : spaceStep t op = some u) (hregular : Regular t op u)
    (hop : op = .clone dst src flags ∨ op = .fork dst src flags) (hne : dst ≠ src) (hflag : flags &&& mmFlgCloneKernel ≠ 0)
    (hrest : Run (fun s op t => spaceStep s op = some t) (fun s op t => Regular s op t ∧ dst ∈ t.spaces ∧ src ∈ t.spaces ∧
      ∀ k, 768 ≤ k → ¬Writes s op dst k ∧ ¬Writes s op src k) u v) (hlow : kernelVirtBase ≤ a) (ha : a < 4294967296) :
    walk v.machine dst a = walk v.machine src a := by
  have ht := sound_run hs hrun
  obtain ⟨hdst, hsrc, hhalf⟩ := half_step ht hstep hregular hop hne hflag
  have hu := sound_step ht hstep hregular
  have hlow' : 3221225472 ≤ a := hlow
  have hk : a / 4194304 < 1024 := by omega
  have hquiet : ∀ pd, pd = dst ∨ pd = src → QuietRun pd (a / 4194304) u v := by
    intro pd hpd
    refine hrest.weaken fun x op y _ hc => ?_
    obtain ⟨hreg, h1, h2, hno⟩ := hc
    obtain ⟨hno1, hno2⟩ := hno (a / 4194304) (by omega)
    rcases hpd with rfl | rfl
    · exact ⟨hreg, h1, hno1⟩
    · exact ⟨hreg, h2, hno2⟩
  obtain ⟨hv, hdstv, hsamed⟩ := (hquiet dst (.inl rfl)).same hu hdst hk
  obtain ⟨_, hsrcv, hsames⟩ := (hquiet src (.inr rfl)).same hu hsrc hk
  rw [walk_of_sound hv hdstv ha, walk_of_sound hv hsrcv ha, translation, translation, hsamed.slotAt_eq, hsames.slotAt_eq,
    hhalf _ (by omega) hk]

theorem kernel_view_small : ∃ t, SpaceRun smallState t ∧
    walk t.machine 0xC0200000 0xC0100000 ≠ none ∧ walk t.machine 0xC1001000 0xC0100000 = walk t.machine 0xC0200000 0xC0100000 := by
  have hsteps : (spaceSteps smallState [.create, .clone 0xC1001000 0xC0200000 mmFlgCloneKernel,
      .mapRange 0xC1001000 0x400000 1 mmFlgUs]).map (fun u => (u.spaces, (walk u.machine 0xC0200000 0xC0100000).isSome)) =
      some ([0xC1001000, 0xC0200000], true) := by decide +kernel
  obtain ⟨u, hall, heq⟩ := Option.map_eq_some_iff.mp hsteps
  obtain ⟨hspaces, hmapped⟩ := Prod.mk.inj heq
  obtain ⟨s, hs, hrest⟩ := Option.bind_eq_some_iff.mp hall
  obtain ⟨t, ht, hlast⟩ := Option.bind_eq_some_iff.mp hrest
  obtain ⟨v, hu, hend⟩ := Option.bind_eq_some_iff.mp hlast
  rw [Option.some.inj hend] at hu
  have hin : SlotsIn 0x400000 1 := by decide +kernel
  have hrun : SpaceRun smallState s := (Run.refl _).tail hs trivial
  have hfirst : ∀ k, 768 ≤ k → ¬∃ i < 1, k = slotOf (page 0x400000 i) := by
    rintro k hk ⟨i, hi, rfl⟩
    rw [Nat.lt_one_iff.mp hi] at hk
    exact absurd hk (by decide +kernel)
  refine ⟨u, (hrun.tail ht trivial).tail hu hin, ?_, ?_⟩
  · exact Option.isSome_iff_ne_none.mp hmapped
  · refine kernel_view smallState_booted hrun ht trivial (.inl rfl) (by decide) (by decide)
      ((Run.refl t).tail hu ⟨hin, ?_, ?_, fun k hk => ⟨fun hw => hfirst k hk hw.2, fun hw => absurd hw.1 (by decide)⟩⟩)
      (by decide) (by decide)
    all_goals
      rw [hspaces]
      decide

end Isolated

end YggKernel.Paging
