import YggKernel.Phys.Allocator
import YggKernel.Lib.Runs

namespace YggKernel.Phys

open Lib.BitWords Lib.Runs

/-- A frame in the hands of a caller: one small page or one huge page. -/
structure Frame where
  addr : Nat
  huge : Bool
  deriving DecidableEq

def Frame.size (f : Frame) : Nat := if f.huge then 0x400000 else 0x1000

def Frame.Covers (f : Frame) (a : Nat) : Prop := f.addr ≤ a ∧ a < f.addr + f.size

instance (f : Frame) (a : Nat) : Decidable (f.Covers a) := inferInstanceAs (Decidable (_ ∧ _))

structure FrameState where
  alloc : PhysAlloc
  live : List Frame

inductive FrameOp
  | alloc (huge : Bool)
  | free (f : Frame)

def pageFlags (huge : Bool) : Nat := if huge then mmFlgPs else 0

/-- One call of the allocator. Only frames handed out and not yet given back are
freed, with the flag they were allocated with. -/
def frameStep (s : FrameState) : FrameOp → Option FrameState
  | .alloc huge =>
    let r := mmAllocPhysicalPage s.alloc (pageFlags huge)
    some ⟨r.2, if r.1 = mmNaddr then s.live else ⟨r.1, huge⟩ :: s.live⟩
  | .free f =>
    if f ∈ s.live then
      match mmFreePhysicalPage s.alloc f.addr (pageFlags f.huge) with
      | .ok p => some ⟨p, s.live.erase f⟩
      | .error _ => none
    else none

theorem small_flags : pageFlags false &&& mmFlgPs = 0 := by decide

theorem huge_flags : pageFlags true &&& mmFlgPs ≠ 0 := by decide

def Apart (f g : Frame) : Prop := ∀ a, ¬(f.Covers a ∧ g.Covers a)

/-- No address is handed out twice, and every address handed out lies in a page
that was free at the start. -/
def FramesSafe (initial : Words) (s : FrameState) : Prop :=
  s.live.Pairwise Apart ∧ ∀ f ∈ s.live, ∀ a, f.Covers a → bit initial (a / 4096) = false

def HugeLive (live : List Frame) (n : Nat) : Prop := ⟨4194304 * (n / 1024), true⟩ ∈ live

/-- A huge allocation leaves the bits of its frame clear, so a later search may
meet them. It does not when another clear page, or another clear group, comes
first in the order of the search. -/
def NoClash (s : FrameState) : FrameOp → FrameState → Prop
  | .alloc false, _ => ∀ n < 1048576, bit s.alloc.bitmap n = false → HugeLive s.live n →
      ∃ m < 1048576, bit s.alloc.bitmap m = false ∧ ¬HugeLive s.live m ∧
        searchKey (s.alloc.allocLast >>> 17) m < searchKey (s.alloc.allocLast >>> 17) n
  | .alloc true, _ => ∀ g < 1024, GroupClear s.alloc.bitmap g → HugeLive s.live (1024 * g) →
      ∃ k < g, GroupClear s.alloc.bitmap k ∧ ¬HugeLive s.live (1024 * k)
  | .free _, _ => True

structure FrameInv (initial : Words) (s : FrameState) : Prop where
  safe : FramesSafe initial s
  small : ∀ f ∈ s.live, f.huge = false →
    ∃ n < 1048576, f.addr = 4096 * n ∧ bit s.alloc.bitmap n = true
  large : ∀ f ∈ s.live, f.huge = true → ∃ g < 1024, f.addr = 4194304 * g
  clear : ∀ n, bit s.alloc.bitmap n = false → bit initial n = false
  hint : s.alloc.allocLast < 4294967296

theorem covers_small {n a : Nat} : Frame.Covers ⟨4096 * n, false⟩ a ↔ a / 4096 = n := by
  simp only [Frame.Covers, Frame.size, Bool.false_eq_true, if_false]
  omega

theorem covers_huge {g a : Nat} : Frame.Covers ⟨4194304 * g, true⟩ a ↔ a / 4194304 = g := by
  simp only [Frame.Covers, Frame.size, if_true]
  omega

theorem FrameInv.forms {initial : Words} {s : FrameState} (h : FrameInv initial s) {f : Frame}
    (hf : f ∈ s.live) :
    (∃ n < 1048576, f = ⟨4096 * n, false⟩ ∧ bit s.alloc.bitmap n = true) ∨
      ∃ g < 1024, f = ⟨4194304 * g, true⟩ := by
  cases hb : f.huge with
  | false =>
    obtain ⟨n, hn, ha, hbit⟩ := h.small f hf hb
    exact .inl ⟨n, hn, by cases f; simp_all, hbit⟩
  | true =>
    obtain ⟨g, hg, ha⟩ := h.large f hf hb
    exact .inr ⟨g, hg, by cases f; simp_all⟩

theorem apart_comm {f g : Frame} (h : Apart f g) : Apart g f := fun a ha => h a ha.symm

/-- A page with a clear bit lies apart from all live frames when it lies in no
live huge frame. -/
theorem apart_small {initial : Words} {s : FrameState} (h : FrameInv initial s) {n : Nat}
    (hbit : bit s.alloc.bitmap n = false) :
    (∀ f ∈ s.live, Apart ⟨4096 * n, false⟩ f) ↔ ¬HugeLive s.live n := by
  constructor
  · intro hall hlive
    exact hall _ hlive (4096 * n) ⟨covers_small.mpr (by omega), covers_huge.mpr (by omega)⟩
  · rintro hno f hf a ⟨ha, hfa⟩
    rw [covers_small] at ha
    rcases h.forms hf with ⟨m, hm, rfl, hmbit⟩ | ⟨g, hg, rfl⟩
    · rw [covers_small] at hfa
      rw [← hfa, ha, hbit] at hmbit
      cases hmbit
    · rw [covers_huge] at hfa
      have hg' : n / 1024 = g := by omega
      rw [← hg'] at hf
      exact hno hf

theorem apart_huge {initial : Words} {s : FrameState} (h : FrameInv initial s) {g : Nat}
    (hclear : GroupClear s.alloc.bitmap g) :
    (∀ f ∈ s.live, Apart ⟨4194304 * g, true⟩ f) ↔ ¬HugeLive s.live (1024 * g) := by
  have hdiv : 1024 * g / 1024 = g := by omega
  constructor
  · intro hall hlive
    unfold HugeLive at hlive
    rw [hdiv] at hlive
    exact hall _ hlive (4194304 * g) ⟨covers_huge.mpr (by omega), covers_huge.mpr (by omega)⟩
  · rintro hno f hf a ⟨ha, hfa⟩
    rw [covers_huge] at ha
    rcases h.forms hf with ⟨m, hm, rfl, hmbit⟩ | ⟨k, hk, rfl⟩
    · rw [covers_small] at hfa
      rw [hclear m (by omega)] at hmbit
      cases hmbit
    · rw [covers_huge] at hfa
      have hk' : k = g := by omega
      subst hk'
      unfold HugeLive at hno
      rw [hdiv] at hno
      exact hno hf

theorem safe_cons {initial : Words} {s : FrameState} (h : FrameInv initial s) {f : Frame}
    {p : PhysAlloc} (hfree : ∀ a, f.Covers a → bit initial (a / 4096) = false) :
    FramesSafe initial ⟨p, f :: s.live⟩ ↔ ∀ g ∈ s.live, Apart f g := by
  unfold FramesSafe
  simp only [List.pairwise_cons, List.forall_mem_cons]
  exact ⟨fun hs => hs.1.1, fun hall => ⟨⟨hall, h.safe.1⟩, hfree, h.safe.2⟩⟩

theorem searchKey_inj {first m n : Nat} (hm : m < 1048576) (hn : n < 1048576)
    (h : searchKey first m = searchKey first n) : m = n := by
  unfold searchKey at h
  split at h <;> split at h <;> omega

/-- A small allocation keeps the live frames safe exactly when it does not run
into a live huge frame. -/
theorem allocSmall_safe_iff {initial : Words} {s t : FrameState} (h : FrameInv initial s)
    (hstep : frameStep s (.alloc false) = some t) :
    FramesSafe initial t ↔ NoClash s (.alloc false) t := by
  simp only [frameStep, mmAllocPhysicalPage, small_flags, ne_eq, not_true_eq_false, if_false,
    Option.some.injEq] at hstep
  rcases allocPage_cases h.hint with ⟨n, q, took, hp⟩ | ⟨hfull, hp⟩
  · have hlt := took.lt
    have hne : 4096 * n ≠ mmNaddr := by unfold mmNaddr; omega
    rw [hp] at hstep
    simp only [if_neg hne] at hstep
    subst hstep
    have hfree : ∀ a, Frame.Covers ⟨4096 * n, false⟩ a → bit initial (a / 4096) = false := by
      intro a ha
      rw [covers_small.mp ha]
      exact h.clear n took.clear
    rw [safe_cons h hfree, apart_small h took.clear]
    constructor
    · intro hno m hm hmbit hlive
      refine ⟨n, hlt, took.clear, hno, lt_of_le_of_ne (took.first m hm hmbit) fun heq => ?_⟩
      rw [searchKey_inj hlt hm heq] at hno
      exact hno hlive
    · intro hclash hlive
      obtain ⟨m, hm, hmbit, _, hlt⟩ := hclash n hlt took.clear hlive
      exact absurd (took.first m hm hmbit) (by omega)
  · rw [hp] at hstep
    simp only [if_true] at hstep
    subst hstep
    refine iff_of_true h.safe fun n hn hbit => ?_
    rw [hfull n hn] at hbit
    cases hbit

theorem allocHuge_safe_iff {initial : Words} {s t : FrameState} (h : FrameInv initial s)
    (hstep : frameStep s (.alloc true) = some t) :
    FramesSafe initial t ↔ NoClash s (.alloc true) t := by
  simp only [frameStep, mmAllocPhysicalPage, if_pos huge_flags, Option.some.injEq] at hstep
  rcases allocHuge_cases s.alloc with ⟨g, q, took, hp⟩ | ⟨hnone, hp⟩
  · have hlt := took.lt
    have hne : 4194304 * g ≠ mmNaddr := by unfold mmNaddr; omega
    rw [hp] at hstep
    simp only [if_neg hne] at hstep
    subst hstep
    have hfree : ∀ a, Frame.Covers ⟨4194304 * g, true⟩ a → bit initial (a / 4096) = false := by
      intro a ha
      have := covers_huge.mp ha
      exact h.clear _ (took.clear _ (by omega))
    rw [safe_cons h hfree, apart_huge h took.clear]
    constructor
    · intro hno k hk hkclear hlive
      refine ⟨g, lt_of_le_of_ne ?_ ?_, took.clear, hno⟩
      · by_contra hlt
        exact took.first k (by omega) hkclear
      · rintro rfl
        exact hno hlive
    · intro hclash hlive
      obtain ⟨k, hk, hkclear, _⟩ := hclash g hlt took.clear hlive
      exact took.first k hk hkclear
  · rw [hp] at hstep
    simp only [if_true] at hstep
    subst hstep
    exact iff_of_true h.safe fun g hg hclear => absurd hclear (hnone g hg)

theorem inv_allocSmall {initial : Words} {s t : FrameState} (h : FrameInv initial s)
    (hstep : frameStep s (.alloc false) = some t) (hsafe : FramesSafe initial t) :
    FrameInv initial t := by
  simp only [frameStep, mmAllocPhysicalPage, small_flags, ne_eq, not_true_eq_false, if_false,
    Option.some.injEq] at hstep
  rcases allocPage_cases h.hint with ⟨n, q, took, hp⟩ | ⟨_, hp⟩
  · have hlt := took.lt
    have hne : 4096 * n ≠ mmNaddr := by unfold mmNaddr; omega
    rw [hp] at hstep
    simp only [if_neg hne] at hstep
    subst hstep
    refine ⟨hsafe, ?_, ?_, ?_, took.hint_lt⟩
    · rintro f hf hb
      rcases List.mem_cons.mp hf with rfl | hf
      · exact ⟨n, hlt, rfl, by simp [took.bit_eq]⟩
      · obtain ⟨m, hm, ha, hmb⟩ := h.small f hf hb
        exact ⟨m, hm, ha, by simp [took.bit_eq, hmb]⟩
    · rintro f hf hb
      rcases List.mem_cons.mp hf with rfl | hf
      · cases hb
      · exact h.large f hf hb
    · intro m hm
      rw [took.bit_eq] at hm
      exact h.clear m (by simp_all)
  · rw [hp] at hstep
    simp only [if_true] at hstep
    subst hstep
    exact h

theorem inv_allocHuge {initial : Words} {s t : FrameState} (h : FrameInv initial s)
    (hstep : frameStep s (.alloc true) = some t) (hsafe : FramesSafe initial t) :
    FrameInv initial t := by
  simp only [frameStep, mmAllocPhysicalPage, if_pos huge_flags, Option.some.injEq] at hstep
  rcases allocHuge_cases s.alloc with ⟨g, q, took, hp⟩ | ⟨_, hp⟩
  · have hlt := took.lt
    have hne : 4194304 * g ≠ mmNaddr := by unfold mmNaddr; omega
    rw [hp] at hstep
    simp only [if_neg hne] at hstep
    subst hstep
    refine ⟨hsafe, ?_, ?_, ?_, took.hint_lt⟩
    · rintro f hf hb
      rcases List.mem_cons.mp hf with rfl | hf
      · cases hb
      · simpa only [took.bitmap] using h.small f hf hb
    · rintro f hf hb
      rcases List.mem_cons.mp hf with rfl | hf
      · exact ⟨g, hlt, rfl⟩
      · exact h.large f hf hb
    · intro m hm
      rw [took.bitmap] at hm
      exact h.clear m hm
  · rw [hp] at hstep
    simp only [if_true] at hstep
    subst hstep
    exact h

/-- A live frame other than the freed one stays clear of the bits that are freed. -/
theorem erased_apart {initial : Words} {s : FrameState} (h : FrameInv initial s) {f g : Frame}
    (hf : f ∈ s.live) (hg : g ∈ s.live.erase f) : Apart f g := by
  have hperm := List.perm_cons_erase hf
  have hpair := (hperm.pairwise_iff (fun {x y} => apart_comm)).mp h.safe.1
  exact (List.pairwise_cons.mp hpair).1 g hg

theorem safe_erase {initial : Words} {s : FrameState} (h : FrameInv initial s) (f : Frame)
    (p : PhysAlloc) : FramesSafe initial ⟨p, s.live.erase f⟩ :=
  ⟨h.safe.1.sublist List.erase_sublist, fun g hg => h.safe.2 g (List.mem_of_mem_erase hg)⟩

theorem inv_free {initial : Words} {s t : FrameState} (h : FrameInv initial s) {f : Frame}
    (hstep : frameStep s (.free f) = some t) : FrameInv initial t := by
  simp only [frameStep] at hstep
  by_cases hf : f ∈ s.live
  case neg => simp [hf] at hstep
  cases hr : mmFreePhysicalPage s.alloc f.addr (pageFlags f.huge) with
  | error e => simp [hr] at hstep
  | ok q =>
    simp only [hf, if_true, hr, Option.some.injEq] at hstep
    subst hstep
    rcases h.forms hf with ⟨n, hn, rfl, _⟩ | ⟨g, hg, rfl⟩
    · obtain ⟨_, hbits, hhint⟩ := freePage_ok small_flags hr
      refine ⟨safe_erase h _ _, ?_, ?_, ?_, hhint ▸ h.hint⟩
      · intro g hg hb
        obtain ⟨m, hm, ha, hmb⟩ := h.small g (List.mem_of_mem_erase hg) hb
        refine ⟨m, hm, ha, ?_⟩
        rw [hbits, hmb, Bool.true_and, decide_eq_true_eq]
        rintro rfl
        have hga : g = ⟨4096 * m, false⟩ := by cases g; simp_all
        subst hga
        exact erased_apart h hf hg (4096 * m)
          ⟨covers_small.mpr (by omega), covers_small.mpr (by omega)⟩
      · exact fun g hg => h.large g (List.mem_of_mem_erase hg)
      · intro m hm
        rw [hbits] at hm
        by_cases hmn : m = n
        · have := h.safe.2 _ hf (4096 * n) (covers_small.mpr (by omega))
          rw [hmn]
          rwa [show 4096 * n / 4096 = n by omega] at this
        · exact h.clear m (by simpa [hmn] using hm)
    · obtain ⟨hbits, hhint⟩ := freeHuge_ok huge_flags hr
      refine ⟨safe_erase h _ _, ?_, ?_, ?_, hhint ▸ h.hint⟩
      · intro k hk hb
        obtain ⟨m, hm, ha, hmb⟩ := h.small k (List.mem_of_mem_erase hk) hb
        refine ⟨m, hm, ha, ?_⟩
        rw [hbits, hmb, Bool.true_and, decide_eq_true_eq]
        intro hw
        have hka : k = ⟨4096 * m, false⟩ := by cases k; simp_all
        subst hka
        exact erased_apart h hf hk (4096 * m)
          ⟨covers_huge.mpr (by omega), covers_small.mpr (by omega)⟩
      · exact fun k hk => h.large k (List.mem_of_mem_erase hk)
      · intro m hm
        rw [hbits] at hm
        by_cases hw : m / 32 = 32 * g
        · have := h.safe.2 _ hf (4096 * m) (covers_huge.mpr (by omega))
          rwa [show 4096 * m / 4096 = m by omega] at this
        · exact h.clear m (by simpa [hw] using hm)

theorem inv_frameStep {initial : Words} (s : FrameState) (op : FrameOp) (t : FrameState)
    (h : FrameInv initial s) (hstep : frameStep s op = some t) (hc : NoClash s op t) :
    FrameInv initial t := by
  match op with
  | .alloc false => exact inv_allocSmall h hstep ((allocSmall_safe_iff h hstep).mpr hc)
  | .alloc true => exact inv_allocHuge h hstep ((allocHuge_safe_iff h hstep).mpr hc)
  | .free f => exact inv_free h hstep

def FrameRun (C : FrameState → FrameOp → FrameState → Prop) : FrameState → FrameState → Prop :=
  Run (fun s op t => frameStep s op = some t) C

def bootFrames (initial : Words) : FrameState := ⟨⟨initial, 0, 0⟩, []⟩

/-- Along every run whose allocations do not run into a live huge frame, frames
are handed out once. -/
theorem frames_safe_of_noClash (initial : Words) (s : FrameState)
    (hrun : FrameRun NoClash (bootFrames initial) s) : FramesSafe initial s := by
  have h0 : FrameInv initial (bootFrames initial) :=
    ⟨⟨List.Pairwise.nil, by simp [bootFrames]⟩, by simp [bootFrames], by simp [bootFrames],
      fun _ h => h, by simp [bootFrames]⟩
  exact (hrun.invariant (FrameInv initial) inv_frameStep h0).safe

/-- The bitmap of a machine with 32 MiB of memory: the pages above 16 MiB are free. -/
def smallMachine : Words := fun i => if i < 128 then full else if i = 128 then 1#32
  else if i < 256 then 0#32 else full

theorem frameStep_alloc (s : FrameState) (huge : Bool) (page : Nat)
    (h : (mmAllocPhysicalPage s.alloc (pageFlags huge)).1 = page) (hne : page ≠ mmNaddr) :
    frameStep s (.alloc huge) =
      some ⟨(mmAllocPhysicalPage s.alloc (pageFlags huge)).2, ⟨page, huge⟩ :: s.live⟩ := by
  simp only [frameStep, h, hne, if_false]

theorem frames_safe_small_then_huge :
    ∃ s, FrameRun NoClash (bootFrames smallMachine) s ∧
      s.live = [⟨0x1400000, true⟩, ⟨0x1001000, false⟩] ∧ FramesSafe smallMachine s := by
  have h1 := frameStep_alloc (bootFrames smallMachine) false 0x1001000 (by decide +kernel) (by decide)
  have h2 := frameStep_alloc ⟨(mmAllocPhysicalPage (bootFrames smallMachine).alloc (pageFlags false)).2,
      ⟨0x1001000, false⟩ :: (bootFrames smallMachine).live⟩ true 0x1400000 (by decide +kernel) (by decide)
  have hrun : FrameRun NoClash (bootFrames smallMachine) _ :=
    Run.tail (Run.tail (Run.refl _) h1 (by simp [NoClash, HugeLive, bootFrames])) h2
      (by simp [NoClash, HugeLive, bootFrames])
  exact ⟨_, hrun, rfl, frames_safe_of_noClash smallMachine _ hrun⟩

/-- Two huge allocations in a row return the same frame. -/
theorem huge_frame_handed_out_twice :
    ¬∀ initial s, FrameRun always (bootFrames initial) s → FramesSafe initial s := by
  intro hall
  have h1 := frameStep_alloc (bootFrames smallMachine) true 0x1400000 (by decide +kernel) (by decide)
  have h2 := frameStep_alloc ⟨(mmAllocPhysicalPage (bootFrames smallMachine).alloc (pageFlags true)).2,
      ⟨0x1400000, true⟩ :: (bootFrames smallMachine).live⟩ true 0x1400000 (by decide +kernel) (by decide)
  have hsafe := hall smallMachine _
    (Run.tail (Run.tail (Run.refl _) h1 trivial) h2 trivial)
  have hapart := (List.pairwise_cons.mp hsafe.1).1 _ (List.mem_cons_self ..)
  exact hapart 0x1400000 (by decide)

end YggKernel.Phys
