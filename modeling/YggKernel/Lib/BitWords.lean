import Mathlib.Data.List.Range
import Mathlib.Tactic

namespace YggKernel.Lib.BitWords

/-- A set of naturals kept as 32-bit words. -/
abbrev Words := Nat → BitVec 32

def bit (w : Words) (n : Nat) : Bool := (w (n / 32)).getLsbD (n % 32)

def full : BitVec 32 := 0xFFFFFFFF#32

def mask (j : Nat) : BitVec 32 := 1#32 <<< j

def setBit (w : Words) (i j : Nat) : Words := Function.update w i (w i ||| mask j)

def clearBit (w : Words) (i j : Nat) : Words := Function.update w i (w i &&& ~~~mask j)

theorem getLsbD_mask (j k : Nat) (hk : k < 32) : (mask j).getLsbD k = decide (k = j) := by
  simp only [mask, BitVec.getLsbD_shiftLeft, hk, decide_true, Bool.true_and, BitVec.getLsbD_one]
  by_cases h : k < j
  · simp [h]
    omega
  · have : k - j = 0 ↔ k = j := by omega
    simp [h, this]

theorem and_mask_eq_zero (x : BitVec 32) {j : Nat} (hj : j < 32) :
    x &&& mask j = 0#32 ↔ x.getLsbD j = false := by
  constructor
  · intro h
    have hb := congrArg (fun y => y.getLsbD j) h
    simpa [getLsbD_mask j j hj] using hb
  · intro h
    apply BitVec.eq_of_getLsbD_eq
    intro k hk
    by_cases hkj : k = j
    · subst hkj
      simp [h]
    · simp [getLsbD_mask j k hk, hkj]

theorem and_mask_bne (x : BitVec 32) {j : Nat} (hj : j < 32) :
    (x &&& mask j != 0#32) = x.getLsbD j := by
  have h := and_mask_eq_zero x hj
  cases hb : x.getLsbD j with
  | false => simp [h.mpr hb]
  | true =>
    have hne : x &&& mask j ≠ 0#32 := fun h0 => by simp [h.mp h0] at hb
    simpa using hne

theorem getLsbD_or_mask (x : BitVec 32) (j : Nat) {k : Nat} (hk : k < 32) :
    (x ||| mask j).getLsbD k = (x.getLsbD k || decide (k = j)) := by
  rw [BitVec.getLsbD_or, getLsbD_mask j k hk]

theorem getLsbD_and_not_mask (x : BitVec 32) (j : Nat) {k : Nat} (hk : k < 32) :
    (x &&& ~~~mask j).getLsbD k = (x.getLsbD k && decide (k ≠ j)) := by
  rw [BitVec.getLsbD_and, BitVec.getLsbD_not, getLsbD_mask j k hk]
  simp [hk]

theorem getLsbD_full {j : Nat} (hj : j < 32) : full.getLsbD j = true := by
  rw [show full = BitVec.allOnes 32 by decide, BitVec.getLsbD_allOnes]
  simpa using hj

theorem and_not_and {x : BitVec 32} {j k : Nat} :
    (x &&& ~~~mask j) &&& mask k = if k = j then 0#32 else x &&& mask k := by
  refine BitVec.eq_of_getLsbD_eq fun i hi => ?_
  rw [BitVec.getLsbD_and, getLsbD_and_not_mask _ _ hi, getLsbD_mask _ _ hi]
  by_cases hik : i = k
  · by_cases hkj : k = j
    · simp [hik, hkj]
    · rw [if_neg hkj, BitVec.getLsbD_and, getLsbD_mask _ _ hi]
      simp [hik, hkj]
  · split
    · simp [hik]
    · rw [BitVec.getLsbD_and, getLsbD_mask _ _ hi]
      simp [hik]

theorem or_and_of_ne {x : BitVec 32} {j k : Nat} (hjk : k ≠ j) : (x ||| mask j) &&& mask k = x &&& mask k := by
  refine BitVec.eq_of_getLsbD_eq fun i hi => ?_
  rw [BitVec.getLsbD_and, BitVec.getLsbD_and, getLsbD_or_mask _ _ hi, getLsbD_mask _ _ hi]
  by_cases hik : i = k
  · simp [hik, hjk]
  · simp [hik]

theorem or_mask_and_ne {x : BitVec 32} {j : Nat} (hj : j < 32) : (x ||| mask j) &&& mask j ≠ 0#32 := by
  intro h
  rw [and_mask_eq_zero _ hj, getLsbD_or_mask _ _ hj] at h
  simp at h

theorem and_not_mask_of_clear {x : BitVec 32} {j : Nat} (hj : j < 32) (h : x &&& mask j = 0#32) :
    x &&& ~~~mask j = x := by
  have hbit := (and_mask_eq_zero x hj).mp h
  refine BitVec.eq_of_getLsbD_eq fun i hi => ?_
  rw [getLsbD_and_not_mask x j hi]
  by_cases hij : i = j
  · rw [hij, hbit]
    rfl
  · simp [hij]

theorem eq_full_iff (x : BitVec 32) : x = full ↔ ∀ j < 32, x.getLsbD j = true := by
  constructor
  · rintro rfl j hj
    exact getLsbD_full hj
  · intro h
    apply BitVec.eq_of_getLsbD_eq
    intro j hj
    rw [h j hj, getLsbD_full hj]

theorem bit_word (w : Words) (i : Nat) {j : Nat} (hj : j < 32) :
    bit w (32 * i + j) = (w i).getLsbD j := by
  unfold bit
  rw [show (32 * i + j) / 32 = i by omega, show (32 * i + j) % 32 = j by omega]

theorem bit_setBit (w : Words) (i : Nat) {j : Nat} (hj : j < 32) (n : Nat) :
    bit (setBit w i j) n = (bit w n || decide (n = 32 * i + j)) := by
  unfold bit setBit
  by_cases hi : n / 32 = i
  · subst hi
    have : n % 32 = j ↔ n = 32 * (n / 32) + j := by omega
    rw [Function.update_self, getLsbD_or_mask _ _ (Nat.mod_lt n (by decide))]
    simp [this]
  · have hn : n ≠ 32 * i + j := by omega
    simp [Function.update_of_ne hi, hn]

theorem bit_clearBit (w : Words) (i : Nat) {j : Nat} (hj : j < 32) (n : Nat) :
    bit (clearBit w i j) n = (bit w n && decide (n ≠ 32 * i + j)) := by
  unfold bit clearBit
  by_cases hi : n / 32 = i
  · subst hi
    have : n % 32 = j ↔ n = 32 * (n / 32) + j := by omega
    rw [Function.update_self, getLsbD_and_not_mask _ _ (Nat.mod_lt n (by decide))]
    simp [this]
  · have hn : n ≠ 32 * i + j := by omega
    simp [Function.update_of_ne hi, hn]

theorem bit_update (w : Words) (i : Nat) (x : BitVec 32) (n : Nat) :
    bit (Function.update w i x) n = if n / 32 = i then x.getLsbD (n % 32) else bit w n := by
  unfold bit
  by_cases hi : n / 32 = i
  · subst hi
    simp
  · simp [hi]

def firstClear (x : BitVec 32) : Option Nat :=
  (List.range 32).find? fun j => x &&& mask j = 0#32

theorem firstClear_some {x : BitVec 32} {j : Nat} (h : firstClear x = some j) :
    j < 32 ∧ x.getLsbD j = false ∧ ∀ k < j, x.getLsbD k = true := by
  unfold firstClear at h
  rw [List.find?_range_eq_some] at h
  obtain ⟨hj, hmem, hlt⟩ := h
  have hj32 : j < 32 := by simpa using hmem
  refine ⟨hj32, (and_mask_eq_zero x hj32).mp (by simpa using hj), fun k hk => ?_⟩
  have hk' : ¬x &&& mask k = 0#32 := by simpa using hlt k hk
  rw [and_mask_eq_zero x (by omega)] at hk'
  simpa using hk'

theorem firstClear_none {x : BitVec 32} (h : firstClear x = none) : x = full := by
  rw [eq_full_iff]
  intro j hj
  have hne := List.find?_eq_none.mp h j (by simpa using hj)
  have hne' : ¬x &&& mask j = 0#32 := by simpa using hne
  rw [and_mask_eq_zero x hj] at hne'
  simpa using hne'

theorem firstClear_of_ne_full {x : BitVec 32} (h : x ≠ full) : ∃ j, firstClear x = some j := by
  cases hf : firstClear x with
  | none => exact absurd (firstClear_none hf) h
  | some j => exact ⟨j, rfl⟩

def scan (w : Words) : List Nat → Option (Nat × Nat)
  | [] => none
  | i :: rest =>
    if w i = full then scan w rest
    else match firstClear (w i) with
      | some j => some (i, j)
      | none => scan w rest

theorem scan_some {w : Words} {is : List Nat} {i j : Nat} (h : scan w is = some (i, j)) :
    ∃ pre post, is = pre ++ i :: post ∧ (∀ k ∈ pre, w k = full) ∧ firstClear (w i) = some j := by
  induction is with
  | nil => simp [scan] at h
  | cons a rest ih =>
    unfold scan at h
    by_cases ha : w a = full
    · rw [if_pos ha] at h
      obtain ⟨pre, post, rfl, hpre, hj⟩ := ih h
      exact ⟨a :: pre, post, rfl, by simpa [ha] using hpre, hj⟩
    · obtain ⟨j', hj'⟩ := firstClear_of_ne_full ha
      simp only [if_neg ha, hj', Option.some.injEq, Prod.mk.injEq] at h
      obtain ⟨rfl, rfl⟩ := h
      exact ⟨[], rest, rfl, by simp, hj'⟩

theorem scan_none {w : Words} {is : List Nat} (h : scan w is = none) :
    ∀ i ∈ is, w i = full := by
  induction is with
  | nil => simp
  | cons a rest ih =>
    unfold scan at h
    by_cases ha : w a = full
    · rw [if_pos ha] at h
      simpa [ha] using ih h
    · obtain ⟨j', hj'⟩ := firstClear_of_ne_full ha
      simp [ha, hj'] at h

end YggKernel.Lib.BitWords
