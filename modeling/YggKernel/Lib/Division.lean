import Mathlib.Tactic

namespace YggKernel.Lib.Division

def gaps : Nat → List Nat → List Nat
  | _, [] => []
  | a, b :: l => (b - a) :: gaps b l

theorem getLastD_ge {a : Nat} {l : List Nat} (h : (a :: l).Pairwise (· ≤ ·)) : a ≤ l.getLastD a := by
  induction l generalizing a with
  | nil => exact le_rfl
  | cons b l ih =>
    obtain ⟨ha, hl⟩ := List.pairwise_cons.mp h
    rw [List.getLastD_cons]
    exact (ha b (by simp)).trans (ih hl)

theorem gaps_sum {a : Nat} {l : List Nat} (h : (a :: l).Pairwise (· ≤ ·)) : (gaps a l).sum = l.getLastD a - a := by
  induction l generalizing a with
  | nil => simp [gaps]
  | cons b l ih =>
    obtain ⟨ha, hl⟩ := List.pairwise_cons.mp h
    have hab := ha b (by simp)
    have hlast := getLastD_ge hl
    rw [gaps, List.sum_cons, ih hl, List.getLastD_cons]
    omega

theorem sum_div_add_mod (d : Nat) (l : List Nat) : d * (l.map (· / d)).sum + (l.map (· % d)).sum = l.sum := by
  induction l with
  | nil => simp
  | cons a l ih =>
    have ha := Nat.div_add_mod a d
    simp only [List.map_cons, List.sum_cons, Nat.mul_add]
    omega

/-- Dividing piece by piece loses nothing just when the remainders do not make up a whole. -/
theorem sum_div_eq_iff {d : Nat} (hd : 0 < d) (l : List Nat) :
    (l.map (· / d)).sum = l.sum / d ↔ (l.map (· % d)).sum < d := by
  have hsum := sum_div_add_mod d l
  generalize (l.map (· / d)).sum = q at *
  generalize (l.map (· % d)).sum = r at *
  rw [← hsum, Nat.mul_add_div hd, left_eq_add, Nat.div_eq_zero_iff]
  omega

theorem sum_div_le {d : Nat} (hd : 0 < d) (l : List Nat) : (l.map (· / d)).sum ≤ l.sum / d := by
  rw [Nat.le_div_iff_mul_le hd, Nat.mul_comm]
  have hsum := sum_div_add_mod d l
  omega

end YggKernel.Lib.Division
