import YggKernel.Paging.Words

namespace YggKernel.Paging

open Lib.Program Lib.ByteMemory Lib.BitWords Lib.Masks Phys Pool

/-- What a page of the pool is used for. -/
inductive Use
  | directory
  | info (pd : Nat)
  | table (pd k : Nat)
  deriving DecidableEq

/-- The use of each page of the pool that is in use. -/
abbrev Owner := Nat → Option Use

def infoOf (s : Machine) (pd : Nat) : Nat := word s pd 1023

def slotInfo (s : Machine) (pd k : Nat) : Nat := word s (infoOf s pd) k

def tableOf (s : Machine) (pd k : Nat) : Nat := slotInfo s pd k / 4096 * 4096

def Role (s : Machine) (owner : Owner) (v : Nat) (u : Use) : Prop :=
  (v = s.mmKernel ∧ u = .directory) ∨ ∃ n < 1024, v = poolPage n ∧ owner n = some u

structure SlotOk (s : Machine) (owner : Owner) (pd k : Nat) : Prop where
  counted : slotInfo s pd k ≠ 0 → Role s owner (tableOf s pd k) (.table pd k) ∧ 0 < slotInfo s pd k % 4096
  entry : word s pd k % 2 = 1 → word s pd k / 128 % 2 = 0 →
    slotInfo s pd k ≠ 0 ∧ word s pd k = physOf s (tableOf s pd k) + 7

structure SpaceOk (s : Machine) (owner : Owner) (pd : Nat) : Prop where
  directory : Role s owner pd .directory
  info : Role s owner (infoOf s pd) (.info pd)
  slots : ∀ k < 1023, SlotOk s owner pd k

/-- The paging structures of the living spaces. A page may keep a use after its space
is gone. -/
structure Tree (s : Machine) (spaces : List Nat) (owner : Owner) : Prop where
  geometry : Geometry s
  kernel : s.mmKernel ∈ spaces
  taken : ∀ n < 1024, ∀ u, owner n = some u → bit (s.pools 0).bitmap n = true
  spaces : ∀ pd ∈ spaces, SpaceOk s owner pd

section Roles

variable {s : Machine} {owner : Owner} {v w n : Nat} {u u' : Use}

theorem poolPage_inj {m n : Nat} (h : poolPage m = poolPage n) : m = n := by
  unfold poolPage at h
  omega

theorem poolPage_ne_mmKernel (h : Geometry s) (n : Nat) : poolPage n ≠ s.mmKernel := by
  have h1 := h.high
  unfold poolPage poolVaddr
  unfold kernelVirtBase at h1
  omega

theorem isPage_poolPage {n : Nat} (hn : n < 1024) : IsPage s (poolPage n) := .inr ⟨n, hn, rfl⟩

theorem Role.isPage (h : Role s owner v u) : IsPage s v := by
  rcases h with ⟨h, _⟩ | ⟨n, hn, h, _⟩
  · exact .inl h
  · exact .inr ⟨n, hn, h⟩

theorem Role.unique (hg : Geometry s) (h : Role s owner v u) (h' : Role s owner v u') : u = u' := by
  rcases h with ⟨hv, hu⟩ | ⟨n, hn, hv, hu⟩ <;> rcases h' with ⟨hv', hu'⟩ | ⟨m, hm, hv', hu'⟩
  · rw [hu, hu']
  · exact absurd (hv'.symm.trans hv) (poolPage_ne_mmKernel hg m)
  · exact absurd (hv.symm.trans hv') (poolPage_ne_mmKernel hg n)
  · rw [poolPage_inj (hv.symm.trans hv'), hu'] at hu
    exact (Option.some.inj hu).symm

theorem Role.ne (hg : Geometry s) (h : Role s owner v u) (h' : Role s owner w u') (hne : u ≠ u') :
    v ≠ w := fun heq => hne (h.unique hg (heq ▸ h'))

theorem role_poolPage (hg : Geometry s) : Role s owner (poolPage n) u ↔ n < 1024 ∧ owner n = some u := by
  constructor
  · rintro (⟨h, _⟩ | ⟨m, hm, h, hu⟩)
    · exact absurd h (poolPage_ne_mmKernel hg n)
    · rw [poolPage_inj h]
      exact ⟨hm, hu⟩
  · exact fun ⟨hn, hu⟩ => .inr ⟨n, hn, rfl, hu⟩

end Roles

section Shape

variable {s : Machine} {spaces : List Nat} {owner : Owner} {pd k : Nat}

theorem Tree.role_taken (h : Tree s spaces owner) {n : Nat} {u : Use}
    (hr : Role s owner (poolPage n) u) : bit (s.pools 0).bitmap n = true := by
  obtain ⟨hn, hu⟩ := (role_poolPage h.geometry).mp hr
  exact h.taken n hn u hu

theorem Tree.ne_of_clear (h : Tree s spaces owner) {m n : Nat} {u : Use}
    (hclear : bit (s.pools 0).bitmap n = false) (hn : n < 1024) (hu : owner m = some u) : m ≠ n := by
  rintro rfl
  rw [h.taken m hn u hu] at hclear
  cases hclear

theorem Tree.fresh (h : Tree s spaces owner) {n v : Nat} {u : Use}
    (hclear : bit (s.pools 0).bitmap n = false) (hr : Role s owner v u) : v ≠ poolPage n := by
  rintro rfl
  rw [h.role_taken hr] at hclear
  cases hclear

theorem Tree.dirPage (h : Tree s spaces owner) (hpd : pd ∈ spaces) : IsPage s pd :=
  (h.spaces pd hpd).directory.isPage

theorem Tree.infoPage (h : Tree s spaces owner) (hpd : pd ∈ spaces) : IsPage s (infoOf s pd) :=
  (h.spaces pd hpd).info.isPage

theorem Tree.tableRole (h : Tree s spaces owner) (hpd : pd ∈ spaces) (hk : k < 1023)
    (hinfo : slotInfo s pd k ≠ 0) : Role s owner (tableOf s pd k) (.table pd k) :=
  (((h.spaces pd hpd).slots k hk).counted hinfo).1

theorem Tree.infoOf_even (h : Tree s spaces owner) (hpd : pd ∈ spaces) : infoOf s pd % 2 = 0 := by
  obtain ⟨halign, _⟩ := isPage_bounds h.geometry (h.infoPage hpd)
  omega

theorem physOf_isPage_aligned (hg : Geometry s) {v : Nat} (hv : IsPage s v) : physOf s v % 4096 = 0 := by
  have h1 := hg.pools.aligned
  have h2 := hg.aligned
  have h3 := hg.low
  have h4 := hg.high
  unfold physOf
  unfold IsPage poolPage at hv
  unfold poolVaddr kernelVirtBase at *
  rcases hv with rfl | ⟨n, hn, rfl⟩
  · rw [if_neg (by omega)]
    omega
  · rw [if_pos (by omega)]
    omega

theorem physOf_isPage_lt (hg : Geometry s) {v : Nat} (hv : IsPage s v) :
    physOf s v + 4096 < 4294967296 := by
  have h1 := hg.top
  have h3 := hg.low
  have h4 := hg.high
  unfold physOf
  unfold IsPage poolPage at hv
  unfold poolVaddr kernelVirtBase at *
  rcases hv with rfl | ⟨n, hn, rfl⟩
  · rw [if_neg (by omega)]
    omega
  · rw [if_pos (by omega)]
    omega

end Shape

/-- What one slot of a directory maps. -/
inductive Slot
  | absent
  | huge (e : Nat)
  | table (entries : Nat → Nat)

def entriesAt (s : Machine) (v : Nat) : Nat → Nat := fun j => if j < 1024 then word s v j else 0

def slotAt (s : Machine) (pd k : Nat) : Slot :=
  if word s pd k % 2 = 0 then .absent
  else if word s pd k / 128 % 2 = 1 then .huge (word s pd k)
  else .table (entriesAt s (tableOf s pd k))

/-- The page or the part of a huge page an entry leads to, and its permissions. -/
def leaf (e a : Nat) : Option (Nat × Nat) :=
  if e % 2 = 0 then none
  else some ((e &&& pageMask) ||| (a &&& 0xFFF), e &&& (mmFlgUs ||| mmFlgWr))

def Slot.translate (a : Nat) : Slot → Option (Nat × Nat)
  | .absent => none
  | .huge e => some ((e &&& hugeMask) ||| (a &&& 0x3FFFFF), (e &&& (mmFlgUs ||| mmFlgWr)) ||| mmFlgPs)
  | .table entries => leaf (entries (a / 4096 % 1024)) a

def translation (s : Machine) (pd a : Nat) : Option (Nat × Nat) := (slotAt s pd (a / 4194304)).translate a

def answer : Option (Nat × Nat) → Nat × Option Nat
  | none => (mmNaddr, none)
  | some (p, f) => (p, some f)

section Translation

variable {s : Machine} {spaces : List Nat} {owner : Owner} {pd a : Nat}

theorem slotAt_last (h : Tree s spaces owner) (hpd : pd ∈ spaces) : slotAt s pd 1023 = .absent :=
  if_pos (h.infoOf_even hpd)

theorem wp_mmTranslate {E : Fault → Prop} {Q : Nat × Option Nat → Machine → Prop}
    (h : Tree s spaces owner) (hpd : pd ∈ spaces) (ha : a < 4294967296) :
    wp (mmTranslate pd a) E Q s ↔ Q (answer (translation s pd a)) s := by
  have hg := h.geometry
  have hdir := h.dirPage hpd
  have hk : a / 4194304 < 1024 := by omega
  have hj : a / 4096 % 1024 < 1024 := Nat.mod_lt _ (by decide)
  unfold mmTranslate translation slotAt
  simp only [wp_bind, wp_entry hg hdir hk, slot_of, index_of, not_present_iff, Ne, not_huge_iff, ite_not]
  by_cases hpr : word s pd (a / 4194304) % 2 = 0
  · simp only [hpr, if_true, wp_pure]
    rfl
  by_cases hps : word s pd (a / 4194304) / 128 % 2 = 0
  · have hk' : a / 4194304 < 1023 := by
      refine lt_of_le_of_ne (by omega) fun heq => hpr ?_
      rw [heq]
      exact h.infoOf_even hpd
    obtain ⟨hinfo, _⟩ := ((h.spaces pd hpd).slots _ hk').entry (by omega) hps
    have hinfo' : word s (word s pd 1023) (a / 4194304) ≠ 0 := hinfo
    have hipage : IsPage s (word s pd 1023) := h.infoPage hpd
    have htab : word s (word s pd 1023) (a / 4194304) &&& pageMask = tableOf s pd (a / 4194304) :=
      and_pageMask (word_lt _ _ _)
    have htpage := (h.tableRole hpd hk' hinfo).isPage
    simp only [hpr, hps, if_false, if_true, wp_bind, wp_entry hg hdir hk, wp_entry hg hdir (show 1023 < 1024 by decide),
      wp_entry hg hipage hk, wp_kassert, decide_eq_true_eq, decide_eq_false_iff_not, not_not, hinfo',
      false_imp_iff, and_true, not_false_eq_true, true_imp_iff, htab, wp_entry hg htpage hj,
      show ¬(0 = 1) by decide, Slot.translate, leaf, entriesAt, hj]
    by_cases hpte : word s (tableOf s pd (a / 4194304)) (a / 4096 % 1024) % 2 = 0
    · simp only [hpte, if_true, wp_pure]
      rfl
    · simp only [hpte, if_false, wp_bind, wp_entry hg htpage hj, wp_pure]
      rfl
  · have hps' : word s pd (a / 4194304) / 128 % 2 = 1 := by omega
    simp only [hpr, hps', if_false, if_true, wp_bind, wp_entry hg hdir hk, show ¬(1 = 0) by decide, wp_pure]
    rfl

theorem mmuWalk_eq (h : Tree s spaces owner) (hpd : pd ∈ spaces) (ha : a < 4294967296) :
    mmuWalk s.mem (physOf s pd) a = translation s pd a := by
  have hg := h.geometry
  have hdir := h.dirPage hpd
  have hk : a / 4194304 < 1024 := by omega
  have hj : a / 4096 % 1024 < 1024 := Nat.mod_lt _ (by decide)
  have hlt := physOf_isPage_lt hg hdir
  have hmod := physOf_isPage_aligned hg hdir
  have hcr3 : physOf s pd &&& pageMask = physOf s pd := by
    rw [and_pageMask (by omega)]
    omega
  have hpde : load32 s.mem (physOf s pd + 4 * (a / 4194304)) = word s pd (a / 4194304) := rfl
  unfold mmuWalk translation slotAt
  simp only [slot_of, index_of, hcr3, not_present_iff, not_huge_iff, Ne, ite_not, hpde]
  by_cases hpr : word s pd (a / 4194304) % 2 = 0
  · simp only [hpr, if_true]
    rfl
  by_cases hps : word s pd (a / 4194304) / 128 % 2 = 0
  · have hk' : a / 4194304 < 1023 := by
      refine lt_of_le_of_ne (by omega) fun heq => hpr ?_
      rw [heq]
      exact h.infoOf_even hpd
    obtain ⟨hinfo, hentry⟩ := ((h.spaces pd hpd).slots _ hk').entry (by omega) hps
    have htpage := (h.tableRole hpd hk' hinfo).isPage
    have htmod := physOf_isPage_aligned hg htpage
    have htlt := physOf_isPage_lt hg htpage
    have hpt : word s pd (a / 4194304) &&& pageMask = physOf s (tableOf s pd (a / 4194304)) := by
      rw [and_pageMask (word_lt _ _ _), hentry]
      omega
    have hpte : load32 s.mem (physOf s (tableOf s pd (a / 4194304)) + 4 * (a / 4096 % 1024)) =
        word s (tableOf s pd (a / 4194304)) (a / 4096 % 1024) := rfl
    have hperm : ∀ e, word s pd (a / 4194304) &&& e &&& (mmFlgUs ||| mmFlgWr) =
        e &&& (mmFlgUs ||| mmFlgWr) := by
      intro e
      have h7 : (physOf s (tableOf s pd (a / 4194304)) + 7) &&& (mmFlgUs ||| mmFlgWr) = mmFlgUs ||| mmFlgWr := by
        rw [and_mod_two_pow (show mmFlgUs ||| mmFlgWr < 2 ^ 3 by decide),
          show (physOf s (tableOf s pd (a / 4194304)) + 7) % 2 ^ 3 = 7 by omega]
        decide
      rw [Nat.and_comm _ e, Nat.and_assoc, hentry, h7]
    simp only [hpr, hps, if_false, if_true, show ¬(0 = 1) by decide, hpt, hpte, hperm, Slot.translate, leaf,
      entriesAt, hj]
  · have hps' : word s pd (a / 4194304) / 128 % 2 = 1 := by omega
    simp only [hpr, hps', if_false, if_true]
    rfl

end Translation

end YggKernel.Paging
