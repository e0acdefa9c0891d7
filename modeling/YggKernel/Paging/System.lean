import YggKernel.Lib.Runs
import YggKernel.Paging.Boot

namespace YggKernel.Paging

open Lib.Program Lib.ByteMemory Lib.BitWords Lib.Runs Phys Pool

/-- The machine between two calls, and the directories of the living spaces. -/
structure SpaceState where
  machine : Machine
  spaces : List Nat

inductive SpaceOp
  | create
  | destroy (pd : Nat)
  | clone (dst src flags : Nat)
  | fork (dst src flags : Nat)
  | mapRange (pd start count flags : Nat)
  | mapRangePages (pd start : Nat) (pages : Nat → Nat) (count flags : Nat)
  | mapRangeLinear (pd start pstart count flags : Nat)
  | umapRange (pd start count flags : Nat)

def SpaceState.after {α : Type} (s : SpaceState) (p : Prog Fault Machine α) : Option SpaceState :=
  match p s.machine with
  | .ok (_, m) => some { s with machine := m }
  | .error _ => none

/-- One call. Only living spaces are passed, and a space that could not be created is none. -/
def spaceStep (s : SpaceState) : SpaceOp → Option SpaceState
  | .create =>
    match mmCreateSpace s.machine with
    | .ok (pd, m) => some ⟨m, if pd = 0 then s.spaces else pd :: s.spaces⟩
    | .error _ => none
  | .destroy pd =>
    if pd ∈ s.spaces then
      (s.after (mmDestroySpace pd)).map fun t => { t with spaces := t.spaces.filter (· ≠ pd) }
    else none
  | .clone dst src flags =>
    if dst ∈ s.spaces ∧ src ∈ s.spaces then s.after (mmSpaceClone dst src flags) else none
  | .fork dst src flags =>
    if dst ∈ s.spaces ∧ src ∈ s.spaces then s.after (mmSpaceFork dst src flags) else none
  | .mapRange pd start count flags =>
    if pd ∈ s.spaces then s.after (mmMapRange pd start count flags) else none
  | .mapRangePages pd start pages count flags =>
    if pd ∈ s.spaces ∧ ∀ i < count, pages i < 4294967296 then
      s.after (mmMapRangePages pd start pages count flags)
    else none
  | .mapRangeLinear pd start pstart count flags =>
    if pd ∈ s.spaces then s.after (mmMapRangeLinear pd start pstart count flags) else none
  | .umapRange pd start count flags =>
    if pd ∈ s.spaces ∧ start < 4294967296 then s.after (mmUmapRange pd start count flags) else none

/-- Nothing is mapped in the slots 0 and 1023 of a directory, and the frames that a fork
takes do not hold paging structures. -/
def Regular (s : SpaceState) : SpaceOp → SpaceState → Prop
  | .mapRange _ start count _, _ => SlotsIn start count
  | .mapRangePages _ start _ count flags, _ =>
    if flags &&& mmFlgPs ≠ 0 then HugeSlotsIn (start / 4194304) count else SlotsIn start count
  | .mapRangeLinear _ start _ count flags, _ => LinearSlotsIn start count flags
  | .fork _ _ _, t => FreshFrames s.machine t.machine
  | _, _ => True

def Booted (s : SpaceState) : Prop :=
  ∃ b dir, BootState b dir ∧ mmInit dir b = .ok ((), s.machine) ∧ s.spaces = [dir]

def SpaceState.Sound (s : SpaceState) : Prop := Paging.Sound s.spaces s.machine

section Steps

variable {s t : SpaceState} {op : SpaceOp}

theorem after_eq_some {α : Type} {p : Prog Fault Machine α} (h : s.after p = some t) :
    ∃ a, p s.machine = .ok (a, t.machine) ∧ t.spaces = s.spaces := by
  unfold SpaceState.after at h
  cases hp : p s.machine with
  | error e => simp [hp] at h
  | ok r =>
    simp only [hp, Option.some.injEq] at h
    subst h
    exact ⟨r.1, rfl, rfl⟩

/-- What holds of the machine after every run of a program holds after the call. -/
theorem after_of_wp {α : Type} {p : Prog Fault Machine α} {Q : Machine → Prop} (h : s.after p = some t)
    (hp : wp p anyFault (fun _ m => Q m) s.machine) : Q t.machine ∧ t.spaces = s.spaces := by
  obtain ⟨a, hrun, hspaces⟩ := after_eq_some h
  exact ⟨of_run hp hrun, hspaces⟩

theorem sound_after {α : Type} {p : Prog Fault Machine α} (h : s.after p = some t)
    (hp : wp p anyFault (fun _ m => Paging.Sound s.spaces m) s.machine) : t.Sound := by
  obtain ⟨hsound, hspaces⟩ := after_of_wp h hp
  unfold SpaceState.Sound
  rwa [hspaces]

theorem sound_booted (h : Booted s) : s.Sound := by
  obtain ⟨b, dir, hb, hrun, hspaces⟩ := h
  unfold SpaceState.Sound
  rw [hspaces]
  exact (sound_mmInit hb hrun).1

theorem sound_create (h : s.Sound) (hstep : spaceStep s .create = some t) : t.Sound := by
  obtain ⟨owner, ht⟩ := Sound.tree h
  have hcreate : wp mmCreateSpace anyFault (fun pd m => pd ≠ 0 ∧ Paging.Sound (pd :: s.spaces) m) s.machine :=
    wp_mmCreateSpace ht.geometry (fun _ _ => trivial) (fun _ _ _ _ _ => trivial)
      fun n m u hc => ⟨by unfold poolPage poolVaddr; omega, hc.sound h⟩
  simp only [spaceStep] at hstep
  cases hrun : mmCreateSpace s.machine with
  | error e => simp [hrun] at hstep
  | ok r =>
    simp only [hrun, Option.some.injEq] at hstep
    obtain ⟨hne, hsound⟩ := of_run hcreate hrun
    subst hstep
    simpa only [SpaceState.Sound, if_neg hne] using hsound

theorem sound_destroy {pd : Nat} (h : s.Sound) (hstep : spaceStep s (.destroy pd) = some t) : t.Sound := by
  obtain ⟨owner, ht⟩ := Sound.tree h
  by_cases hpd : pd ∈ s.spaces
  · have hdestroy : wp (mmDestroySpace pd) anyFault
        (fun _ m => Paging.Sound (s.spaces.filter (· ≠ pd)) m) s.machine :=
      wp_mmDestroySpace ht hpd (fun _ => trivial) fun n m u hd => hd.sound h hpd
    simp only [spaceStep, if_pos hpd, Option.map_eq_some_iff] at hstep
    obtain ⟨u, hu, rfl⟩ := hstep
    obtain ⟨hsound, hspaces⟩ := after_of_wp hu hdestroy
    simpa only [SpaceState.Sound, hspaces] using hsound
  · simp [spaceStep, hpd] at hstep

theorem sound_step (h : s.Sound) (hstep : spaceStep s op = some t) (hregular : Regular s op t) : t.Sound := by
  cases op with
  | create => exact sound_create h hstep
  | destroy pd => exact sound_destroy h hstep
  | clone dst src flags =>
    obtain ⟨⟨hdst, hsrc⟩, hafter⟩ := Option.ite_none_right_eq_some.mp hstep
    exact sound_after hafter (wp_imp (sound_mmSpaceClone flags h hdst hsrc) fun _ _ hm => hm.1)
  | fork dst src flags =>
    obtain ⟨⟨hdst, hsrc⟩, hafter⟩ := Option.ite_none_right_eq_some.mp hstep
    obtain ⟨hsound, hspaces⟩ := after_of_wp hafter (sound_mmSpaceFork flags h hdst hsrc)
    unfold SpaceState.Sound
    rw [hspaces]
    exact hsound hregular
  | mapRange pd start count flags =>
    obtain ⟨hpd, hafter⟩ := Option.ite_none_right_eq_some.mp hstep
    exact sound_after hafter (sound_mmMapRange flags h hpd hregular)
  | mapRangePages pd start pages count flags =>
    obtain ⟨⟨hpd, hpages⟩, hafter⟩ := Option.ite_none_right_eq_some.mp hstep
    exact sound_after hafter (sound_mmMapRangePages h hpd hpages hregular)
  | mapRangeLinear pd start pstart count flags =>
    obtain ⟨hpd, hafter⟩ := Option.ite_none_right_eq_some.mp hstep
    exact sound_after hafter (sound_mmMapRangeLinear h hpd hregular)
  | umapRange pd start count flags =>
    obtain ⟨⟨hpd, hstart⟩, hafter⟩ := Option.ite_none_right_eq_some.mp hstep
    exact sound_after hafter (sound_mmUmapRange flags h hpd hstart)

def SpaceRun : SpaceState → SpaceState → Prop := Run (fun s op t => spaceStep s op = some t) Regular

theorem sound_run (hs : Booted s) (hrun : SpaceRun s t) : t.Sound :=
  hrun.invariant SpaceState.Sound (fun _ _ _ hu hstep hregular => sound_step hu hstep hregular) (sound_booted hs)

end Steps

section Agreement

variable {s t : SpaceState} {pd a : Nat}

theorem Sound.entry_run {spaces : List Nat} {m : Machine} (h : Paging.Sound spaces m) (hpd : pd ∈ spaces) :
    entry pd 0 m = .ok (physOf m pd, m) := by
  obtain ⟨owner, ht⟩ := h.tree
  have hentry : wp (entry pd 0) noFault (fun e u => e = physOf m pd ∧ u = m) m :=
    (wp_entry ht.geometry (ht.dirPage hpd) (by decide)).mpr ⟨h.self pd hpd, rfl⟩
  obtain ⟨e, u, hrun, rfl, rfl⟩ := run_of_wp hentry
  exact hrun

theorem Sound.mmTranslate_run {spaces : List Nat} {m : Machine} (h : Paging.Sound spaces m) (hpd : pd ∈ spaces)
    (ha : a < 4294967296) :
    mmTranslate pd a m = .ok (answer (mmuWalk m.mem (physOf m pd) a), m) := by
  obtain ⟨owner, ht⟩ := h.tree
  have htranslate : wp (mmTranslate pd a) noFault (fun r u => r = answer (translation m pd a) ∧ u = m) m :=
    (wp_mmTranslate ht hpd ha).mpr ⟨rfl, rfl⟩
  obtain ⟨r, u, hrun, rfl, rfl⟩ := run_of_wp htranslate
  rw [hrun, mmuWalk_eq ht hpd ha]

theorem Sound.slotAt_first {spaces : List Nat} {m : Machine} (h : Paging.Sound spaces m) (hpd : pd ∈ spaces) :
    slotAt m pd 0 = .absent := by
  obtain ⟨owner, ht⟩ := h.tree
  have haligned := physOf_isPage_aligned ht.geometry (ht.dirPage hpd)
  refine if_pos ?_
  rw [h.self pd hpd]
  omega

theorem Sound.walk_bookkeeping {spaces : List Nat} {m : Machine} (h : Paging.Sound spaces m) (hpd : pd ∈ spaces)
    (ha : a < 4294967296) (hslot : a / 4194304 = 0 ∨ a / 4194304 = 1023) :
    mmuWalk m.mem (physOf m pd) a = none := by
  obtain ⟨owner, ht⟩ := h.tree
  rw [mmuWalk_eq ht hpd ha, translation]
  rcases hslot with hfirst | hlast
  · rw [hfirst, h.slotAt_first hpd]
    rfl
  · rw [hlast, slotAt_last ht hpd]
    rfl

end Agreement

section Example

def smallMachine : Machine where
  mem := store32 (fun _ => 0#8) (0x200000 + 4 * 768) 0x87
  phys := ⟨fun w => if 160 ≤ w ∧ w < 224 then 0#32 else full, 0, 2048⟩
  pools := fun _ => emptyPool
  cr3 := 0x200000
  mmKernel := 0

theorem smallMachine_boot : BootState smallMachine 0xC0200000 := by
  refine ⟨by decide, by decide, by decide, rfl, by decide +kernel, fun k hk hne => ?_, fun n hn => ?_, ?_, by decide⟩
  · refine (load32_store32_of_disjoint ?_).trans rfl
    unfold kernelVirtBase
    omega
  · unfold bit smallMachine at hn
    dsimp only at hn
    by_cases hin : 160 ≤ n / 32 ∧ n / 32 < 224
    · omega
    · rw [if_neg hin, getLsbD_full (Nat.mod_lt _ (by decide))] at hn
      cases hn
  · refine ⟨5, by decide, fun n hn => ?_⟩
    unfold bit smallMachine
    dsimp only
    rw [if_pos (by omega)]
    exact BitVec.getLsbD_zero

def smallState : SpaceState :=
  match mmInit 0xC0200000 smallMachine with
  | .ok (_, m) => ⟨m, [0xC0200000]⟩
  | .error _ => ⟨smallMachine, []⟩

theorem smallState_booted : Booted smallState := by
  obtain ⟨m, hrun⟩ := mmInit_returns smallMachine_boot
  have heq : smallState = ⟨m, [0xC0200000]⟩ := by
    unfold smallState
    rw [hrun]
  exact ⟨smallMachine, 0xC0200000, smallMachine_boot, by rw [heq, hrun], by rw [heq]⟩

def spaceSteps (s : SpaceState) : List SpaceOp → Option SpaceState
  | [] => some s
  | op :: ops => (spaceStep s op).bind fun t => spaceSteps t ops

theorem spaceRun_steps {s t u : SpaceState} {ops : List SpaceOp} (hrun : SpaceRun s t)
    (hops : ∀ op ∈ ops, ∀ v w, Regular v op w) (h : spaceSteps t ops = some u) : SpaceRun s u := by
  induction ops generalizing t with
  | nil =>
    obtain rfl := Option.some.inj h
    exact hrun
  | cons op ops ih =>
    obtain ⟨v, hstep, hrest⟩ := Option.bind_eq_some_iff.mp h
    exact ih (hrun.tail hstep (hops op (List.mem_cons_self ..) _ _))
      (fun op' hop' => hops op' (List.mem_cons_of_mem _ hop')) hrest

end Example

section Translate

variable {s t : SpaceState} {pd : Nat}

/-- `mm_translate` and the processor agree on every address of every space: the answer for
`none` is `MM_NADDR`, the answer otherwise the physical address and the permissions. -/
theorem mmTranslate_agrees (hs : Booted s) (hrun : SpaceRun s t) (hpd : pd ∈ t.spaces) :
    ∃ cr3, entry pd 0 t.machine = .ok (cr3, t.machine) ∧
      (∀ a < 4294967296,
        mmTranslate pd a t.machine = .ok (answer (mmuWalk t.machine.mem cr3 a), t.machine)) ∧
      ∀ a < 4294967296, a / 4194304 = 0 ∨ a / 4194304 = 1023 → mmuWalk t.machine.mem cr3 a = none := by
  have h : Paging.Sound t.spaces t.machine := sound_run hs hrun
  exact ⟨physOf t.machine pd, h.entry_run hpd, fun a ha => h.mmTranslate_run hpd ha,
    fun a ha hslot => h.walk_bookkeeping hpd ha hslot⟩

theorem mmTranslate_agrees_small : ∃ t cr3 pd, SpaceRun smallState t ∧ t.spaces = [pd, 0xC0200000] ∧
    entry pd 0 t.machine = .ok (cr3, t.machine) ∧
    mmTranslate pd 0xC0000000 t.machine = .ok (answer (mmuWalk t.machine.mem cr3 0xC0000000), t.machine) := by
  have hsteps : (spaceSteps smallState [.create]).map SpaceState.spaces = some [0xC1001000, 0xC0200000] := by
    decide +kernel
  obtain ⟨t, ht, hspaces⟩ := Option.map_eq_some_iff.mp hsteps
  have hrun : SpaceRun smallState t :=
    spaceRun_steps (Run.refl _) (fun op hop _ _ => by rw [List.mem_singleton.mp hop]; trivial) ht
  have hpd : 0xC1001000 ∈ t.spaces := by
    rw [hspaces]
    decide
  obtain ⟨cr3, hentry, hagree, _⟩ := mmTranslate_agrees smallState_booted hrun hpd
  exact ⟨t, cr3, 0xC1001000, hrun, hspaces, hentry, hagree _ (by decide)⟩

/-- A page in the last frame of the physical memory: the answer for its last byte is
`MM_NADDR`, and the page is present. -/
theorem mmTranslate_last_byte : ∃ s t pd cr3 a, Booted s ∧ SpaceRun s t ∧ pd ∈ t.spaces ∧ a < 4294967296 ∧
    entry pd 0 t.machine = .ok (cr3, t.machine) ∧ mmuWalk t.machine.mem cr3 a ≠ none ∧
    ∃ f, mmTranslate pd a t.machine = .ok ((mmNaddr, f), t.machine) := by
  have hsteps : (spaceSteps smallState
      [.create, .mapRangePages 0xC1001000 0x400000 (fun _ => 0xFFFFF000) 1 (mmFlgUs ||| mmFlgWr)]).map (fun t =>
        (t.spaces, mmuWalk t.machine.mem (physOf t.machine 0xC1001000) 0x400FFF)) =
      some ([0xC1001000, 0xC0200000], some (0xFFFFFFFF, mmFlgUs ||| mmFlgWr)) := by decide +kernel
  obtain ⟨t, ht, heq⟩ := Option.map_eq_some_iff.mp hsteps
  obtain ⟨hspaces, hwalk⟩ := Prod.mk.inj heq
  have hrun : SpaceRun smallState t := by
    refine spaceRun_steps (Run.refl _) (fun op hop v w => ?_) ht
    rcases List.mem_pair.mp hop with rfl | rfl
    · trivial
    · exact (by decide +kernel : SlotsIn 0x400000 1)
  have hpd : 0xC1001000 ∈ t.spaces := by
    rw [hspaces]
    decide
  have hsound : Paging.Sound t.spaces t.machine := sound_run smallState_booted hrun
  refine ⟨smallState, t, 0xC1001000, _, 0x400FFF, smallState_booted, hrun, hpd, by decide, hsound.entry_run hpd, ?_, ?_⟩
  · rw [hwalk]
    exact Option.some_ne_none _
  · refine ⟨some (mmFlgUs ||| mmFlgWr), ?_⟩
    rw [hsound.mmTranslate_run hpd (by decide), hwalk]
    rfl

end Translate

end YggKernel.Paging
