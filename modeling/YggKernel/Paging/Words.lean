import YggKernel.Lib.Masks
import YggKernel.Paging.Space

namespace YggKernel.Paging

open Lib.Program Lib.ByteMemory Lib.BitWords Lib.Masks Phys Pool

section Entries

theorem not_present_iff (e : Nat) : e &&& x86MmFlgPr = 0 ↔ e % 2 = 0 := by
  rw [show x86MmFlgPr = 1 by rfl, Nat.and_one_is_mod]

theorem not_huge_iff (e : Nat) : e &&& x86MmFlgPs = 0 ↔ e / 128 % 2 = 0 := and_pow_eq_zero e 7

theorem not_huge_flag_iff (e : Nat) : e &&& mmFlgPs = 0 ↔ e / 128 % 2 = 0 := and_pow_eq_zero e 7

theorem and_pageMask {e : Nat} (h : e < 4294967296) : e &&& pageMask = e / 4096 * 4096 :=
  and_high_mask (show 12 ≤ 32 by decide) h

theorem and_hugeMask {e : Nat} (h : e < 4294967296) : e &&& hugeMask = e / 4194304 * 4194304 :=
  and_high_mask (show 22 ≤ 32 by decide) h

theorem and_offset (e : Nat) : e &&& 0xFFF = e % 4096 := Nat.and_two_pow_sub_one_eq_mod e 12

theorem and_index (e : Nat) : e &&& 0x3FF = e % 1024 := Nat.and_two_pow_sub_one_eq_mod e 10

theorem page_or {p f : Nat} (hp : p % 4096 = 0) (hf : f < 4096) : p ||| f = p + f :=
  or_eq_add (k := 12) hp hf

theorem slot_of (a : Nat) : a >>> 22 = a / 4194304 := Nat.shiftRight_eq_div_pow a 22

theorem index_of (a : Nat) : (a >>> 12) &&& 0x3FF = a / 4096 % 1024 := by
  rw [and_index, Nat.shiftRight_eq_div_pow]

def leafFlags (flags : Nat) : Nat := (flags &&& (mmFlgWr ||| mmFlgUs)) ||| x86MmFlgPr

theorem leafFlags_eq (flags : Nat) : leafFlags flags = leafFlags (flags % 2 ^ 3) := by
  unfold leafFlags
  rw [and_mod_two_pow (show mmFlgWr ||| mmFlgUs < 2 ^ 3 by decide)]

theorem leafFlags_lt (flags : Nat) : leafFlags flags < 8 := by
  have h : ∀ f < 8, leafFlags f < 8 := by decide
  rw [leafFlags_eq]
  exact h _ (Nat.mod_lt _ (by decide))

theorem leafFlags_odd (flags : Nat) : leafFlags flags % 2 = 1 := by
  have h : ∀ f < 8, leafFlags f % 2 = 1 := by decide
  rw [leafFlags_eq]
  exact h _ (Nat.mod_lt _ (by decide))

end Entries

/-- Where `mm_kernel` and the first chunk of the page pool are. -/
structure Geometry (s : Machine) : Prop where
  pools : FirstOnly s.pools
  chunk : 4194304 ≤ (s.pools 0).paddr
  top : (s.pools 0).paddr + 4194304 < 4294967296
  aligned : s.mmKernel % 4096 = 0
  low : kernelVirtBase ≤ s.mmKernel
  high : s.mmKernel < kernelVirtBase + 4194304

def poolPage (n : Nat) : Nat := poolVaddr + 4096 * n

def IsPage (s : Machine) (v : Nat) : Prop := v = s.mmKernel ∨ ∃ n < 1024, v = poolPage n

def physOf (s : Machine) (v : Nat) : Nat :=
  if poolVaddr ≤ v then (s.pools 0).paddr + (v - poolVaddr) else v - kernelVirtBase

def InPaging (s : Machine) (x : Nat) : Prop :=
  ((s.pools 0).paddr ≤ x ∧ x < (s.pools 0).paddr + 4194304) ∨
    (s.mmKernel - kernelVirtBase ≤ x ∧ x < s.mmKernel - kernelVirtBase + 4096)

def word (s : Machine) (v k : Nat) : Nat := load32 s.mem (physOf s v + 4 * k)

def setWord (s : Machine) (v k x : Nat) : Machine := { s with mem := store32 s.mem (physOf s v + 4 * k) x }

theorem linear_eq {s : Machine} (h : Geometry s) (v : Nat) :
    linear s v = if poolVaddr ≤ v ∧ v < poolVaddr + 4194304 then some (physOf s v)
      else if kernelVirtBase ≤ v ∧ v < kernelVirtBase + 4194304 then some (physOf s v) else none := by
  have hrest : (List.range' 1 15).find? (fun i => decide (Holds (s.pools i) v)) = none := by
    rw [List.find?_eq_none]
    intro i hi
    have hmem := List.mem_range'_1.mp hi
    simp [Holds, h.pools.rest i (by omega) (by omega)]
  have hfirst : Holds (s.pools 0) v ↔ poolVaddr ≤ v ∧ v < poolVaddr + 4194304 := by
    unfold Holds
    rw [h.pools.vaddr]
    unfold poolVaddr
    omega
  unfold linear physOf
  rw [show List.range x86MmPagePool = 0 :: List.range' 1 15 by decide, List.find?_cons, hrest]
  by_cases hin : poolVaddr ≤ v ∧ v < poolVaddr + 4194304
  · simp [hfirst.mpr hin, hin.1, hin.2, h.pools.vaddr]
  · have hno : ¬Holds (s.pools 0) v := fun hh => hin (hfirst.mp hh)
    simp only [hno, decide_false, hin, if_false]
    by_cases hk : kernelVirtBase ≤ v ∧ v < kernelVirtBase + 4194304
    · have hlow : ¬poolVaddr ≤ v := by
        unfold poolVaddr kernelVirtBase at *
        omega
      rw [if_pos hk, if_pos hk, if_neg hlow]
    · rw [if_neg hk, if_neg hk]

theorem isPage_bounds {s : Machine} (h : Geometry s) {v : Nat} (hv : IsPage s v) :
    v % 4096 = 0 ∧ v + 4096 ≤ 4294967296 ∧
      ((poolVaddr ≤ v ∧ v + 4096 ≤ poolVaddr + 4194304) ∨
        (v = s.mmKernel ∧ v + 4096 ≤ kernelVirtBase + 4194304 ∧ kernelVirtBase ≤ v)) := by
  have h1 := h.aligned
  have h2 := h.low
  have h3 := h.high
  unfold IsPage poolPage at hv
  unfold poolVaddr kernelVirtBase at *
  rcases hv with rfl | ⟨n, hn, rfl⟩ <;> omega

theorem linear_page {s : Machine} (h : Geometry s) {v k : Nat} (hv : IsPage s v) (hk : k < 4096) :
    linear s (v + k) = some (physOf s v + k) := by
  obtain ⟨_, _, hb⟩ := isPage_bounds h hv
  have hsum : physOf s (v + k) = physOf s v + k := by
    unfold physOf
    unfold poolVaddr kernelVirtBase at *
    split <;> split <;> omega
  rw [linear_eq h, hsum]
  rcases hb with hb | hb
  · rw [if_pos (by omega)]
  · rw [if_neg (by unfold poolVaddr kernelVirtBase at *; omega), if_pos (by omega)]

theorem resolve_page {s : Machine} (h : Geometry s) {v k : Nat} (hv : IsPage s v) (hk : k < 1024) :
    resolve s (u32 (v + 4 * k)) = some (physOf s v + 4 * k) := by
  obtain ⟨_, hle, _⟩ := isPage_bounds h hv
  rw [u32_of_lt (by omega), resolve, linear_page h hv (by omega)]

theorem wp_entry {E : Fault → Prop} {Q : Nat → Machine → Prop} {s : Machine} (h : Geometry s) {v k : Nat}
    (hv : IsPage s v) (hk : k < 1024) : wp (entry v k) E Q s ↔ Q (word s v k) s := by
  simp only [entry, access, wp_bind, wp_get, resolve_page h hv hk, wp_pure]
  rfl

theorem wp_setEntry {E : Fault → Prop} {Q : Unit → Machine → Prop} {s : Machine} (h : Geometry s)
    {v k : Nat} (x : Nat) (hv : IsPage s v) (hk : k < 1024) :
    wp (setEntry v k x) E Q s ↔ Q () (setWord s v k x) := by
  simp only [setEntry, access, wp_bind, wp_get, resolve_page h hv hk, wp_pure, wp_modify]
  rfl

theorem word_lt (s : Machine) (v k : Nat) : word s v k < 4294967296 := load32_lt _ _

theorem physOf_apart {s : Machine} (h : Geometry s) {v w : Nat} (hv : IsPage s v) (hw : IsPage s w)
    (hne : v ≠ w) : physOf s v + 4096 ≤ physOf s w ∨ physOf s w + 4096 ≤ physOf s v := by
  have h1 := h.chunk
  have h2 := h.aligned
  have h3 := h.low
  have h4 := h.high
  unfold physOf
  unfold IsPage poolPage at hv hw
  unfold poolVaddr kernelVirtBase at *
  rcases hv with rfl | ⟨n, hn, rfl⟩ <;> rcases hw with rfl | ⟨m, hm, rfl⟩
  · exact absurd rfl hne
  · rw [if_neg (by omega), if_pos (by omega)]
    omega
  · rw [if_pos (by omega), if_neg (by omega)]
    omega
  · rw [if_pos (by omega), if_pos (by omega)]
    omega

theorem inPaging_of_isPage {s : Machine} (h : Geometry s) {v x : Nat} (hv : IsPage s v)
    (h1 : physOf s v ≤ x) (h2 : x < physOf s v + 4096) : InPaging s x := by
  have h3 := h.low
  have h4 := h.high
  unfold InPaging
  unfold physOf at h1 h2
  unfold IsPage poolPage at hv
  unfold poolVaddr kernelVirtBase at *
  rcases hv with rfl | ⟨n, hn, rfl⟩
  · rw [if_neg (by omega)] at h1 h2
    omega
  · rw [if_pos (by omega)] at h1 h2
    omega

theorem word_setWord {s : Machine} (h : Geometry s) {v w k i x : Nat} (hv : IsPage s v) (hw : IsPage s w)
    (hk : k < 1024) (hi : i < 1024) (hx : x < 4294967296) :
    word (setWord s v k x) w i = if w = v ∧ i = k then x else word s w i := by
  unfold word setWord
  have hphys : physOf { s with mem := store32 s.mem (physOf s v + 4 * k) x } w = physOf s w := rfl
  rw [hphys]
  by_cases heq : w = v ∧ i = k
  · rw [if_pos heq, heq.1, heq.2, load32_store32 hx]
  · rw [if_neg heq, load32_store32_of_disjoint]
    by_cases hwv : w = v
    · subst hwv
      have hik : i ≠ k := fun hik => heq ⟨rfl, hik⟩
      omega
    · have := physOf_apart h hv hw (Ne.symm hwv)
      omega

theorem word_congr {s t : Machine} (hphys : ∀ v, physOf t v = physOf s v) {v k : Nat}
    (hmem : ∀ x, physOf s v ≤ x → x < physOf s v + 4096 → t.mem x = s.mem x) (hk : k < 1024) :
    word t v k = word s v k := by
  unfold word
  rw [hphys]
  exact load32_congr fun x h1 h2 => hmem x (by omega) (by omega)

end YggKernel.Paging
