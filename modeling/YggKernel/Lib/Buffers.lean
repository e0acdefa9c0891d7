import Mathlib.Data.Nat.Digits.Defs
import Mathlib.Tactic

namespace YggKernel.Lib.Buffers

variable {α : Type}

section Stores

variable {new b : List α} {x : α} {i : Nat}

/-- A store at an index, and none outside the buffer. -/
def store (b : List α) (i : Nat) (x : α) : Option (List α) :=
  if i < b.length then some (b.set i x) else none

def storeAll (b : List α) (i : Nat) : List α → Option (List α)
  | [] => some b
  | x :: xs => do storeAll (← store b i x) (i + 1) xs

theorem store_append (pre old : List α) (x y : α) : store (pre ++ y :: old) pre.length x = some (pre ++ x :: old) := by
  unfold store
  rw [if_pos (by rw [List.length_append, List.length_cons]; omega), List.set_append_right _ _ le_rfl,
    Nat.sub_self, List.set_cons_zero]

theorem store_none (h : b.length ≤ i) : store b i x = none := if_neg (by omega)

theorem storeAll_append (pre : List α) {old : List α} (h : new.length ≤ old.length) :
    storeAll (pre ++ old) pre.length new = some (pre ++ new ++ old.drop new.length) := by
  induction new generalizing pre old with
  | nil => rw [List.append_nil]; rfl
  | cons x new ih =>
    cases old with
    | nil => cases h
    | cons y old =>
      have hrest := ih (pre ++ [x]) (Nat.le_of_succ_le_succ h)
      rw [List.append_assoc, List.length_append] at hrest
      rw [storeAll, store_append]
      refine hrest.trans ?_
      rw [List.append_assoc pre [x] new]
      rfl

theorem storeAll_none (hi : i ≤ b.length) (h : b.length < i + new.length) : storeAll b i new = none := by
  induction new generalizing b i with
  | nil => exact absurd h (by rw [List.length_nil]; omega)
  | cons x new ih =>
    rw [List.length_cons] at h
    rw [storeAll]
    by_cases hin : i < b.length
    · have hset : store b i x = some (b.set i x) := if_pos hin
      rw [hset]
      exact ih (by rw [List.length_set]; omega) (by rw [List.length_set]; omega)
    · rw [store_none (by omega)]
      rfl

end Stores

section Reversal

variable {w : Nat} {pre mid post : List (BitVec w)} {x y : BitVec w}

def xorInto (b : List (BitVec w)) (i j : Nat) : Option (List (BitVec w)) := do
  store b i ((← b[i]?) ^^^ (← b[j]?))

def xorSwap (b : List (BitVec w)) (i j : Nat) : Option (List (BitVec w)) := do
  let b ← xorInto b i j
  let b ← xorInto b j i
  xorInto b i j

/-- The elements from the first index to the last are reversed. Each round brings the two
together, so the last index and two is enough fuel. -/
def reverseLoop : Nat → List (BitVec w) → Nat → Nat → Option (List (BitVec w))
  | 0, _, _, _ => none
  | n + 1, b, i, j => if i < j then do reverseLoop n (← xorSwap b i j) (i + 1) (j - 1) else some b

theorem xorInto_left {j : Nat} (hj : j = pre.length + 1 + mid.length) :
    xorInto (pre ++ x :: (mid ++ y :: post)) pre.length j = some (pre ++ (x ^^^ y) :: (mid ++ y :: post)) := by
  have hx : (pre ++ x :: (mid ++ y :: post))[pre.length]? = some x := by
    rw [List.getElem?_append_right le_rfl, Nat.sub_self]
    rfl
  have hy : (pre ++ x :: (mid ++ y :: post))[j]? = some y := by
    rw [List.getElem?_append_right (by omega), show j - pre.length = mid.length + 1 by omega,
      List.getElem?_cons_succ, List.getElem?_append_right le_rfl, Nat.sub_self]
    rfl
  unfold xorInto
  rw [hx, hy]
  exact store_append ..

theorem xorInto_right {j : Nat} (hj : j = pre.length + 1 + mid.length) :
    xorInto (pre ++ x :: (mid ++ y :: post)) j pre.length = some (pre ++ x :: (mid ++ (y ^^^ x) :: post)) := by
  have hx : (pre ++ x :: (mid ++ y :: post))[pre.length]? = some x := by
    rw [List.getElem?_append_right le_rfl, Nat.sub_self]
    rfl
  have hlen : (pre ++ x :: mid).length = j := by rw [List.length_append, List.length_cons]; omega
  have hsplit : ∀ z, pre ++ x :: (mid ++ z :: post) = (pre ++ x :: mid) ++ z :: post := fun z => by
    rw [List.append_assoc, List.cons_append]
  have hy : (pre ++ x :: (mid ++ y :: post))[j]? = some y := by
    rw [hsplit, List.getElem?_append_right hlen.le, hlen, Nat.sub_self]
    rfl
  unfold xorInto
  rw [hx, hy]
  dsimp only [bind, Option.bind]
  rw [hsplit, hsplit, ← hlen]
  exact store_append ..

theorem xorSwap_append {j : Nat} (hj : j = pre.length + 1 + mid.length) :
    xorSwap (pre ++ x :: (mid ++ y :: post)) pre.length j = some (pre ++ y :: (mid ++ x :: post)) := by
  have hright : y ^^^ (x ^^^ y) = x := by
    rw [BitVec.xor_comm x y, ← BitVec.xor_assoc, BitVec.xor_self, BitVec.zero_xor]
  have hleft : x ^^^ y ^^^ x = y := by
    rw [BitVec.xor_comm x y, BitVec.xor_assoc, BitVec.xor_self, BitVec.xor_zero]
  unfold xorSwap
  rw [xorInto_left hj]
  dsimp only [bind, Option.bind]
  rw [xorInto_right hj, hright]
  dsimp only
  rw [xorInto_left hj, hleft]

theorem reverseLoop_append (pre post : List (BitVec w)) {n : Nat} (hn : mid.length < n) :
    reverseLoop n (pre ++ mid ++ post) pre.length (pre.length + mid.length - 1) =
      some (pre ++ mid.reverse ++ post) := by
  induction n generalizing pre mid post with
  | zero => cases hn
  | succ n ih =>
    rw [reverseLoop]
    cases mid with
    | nil =>
      rw [List.length_nil, if_neg (by omega)]
      rfl
    | cons x mid =>
      rcases List.eq_nil_or_concat mid with rfl | ⟨mid, y, rfl⟩
      · rw [List.length_singleton, if_neg (by omega)]
        rfl
      · rw [List.concat_eq_append] at hn ⊢
        have hlen : (x :: (mid ++ [y])).length = mid.length + 2 := by
          rw [List.length_cons, List.length_append, List.length_singleton]
        rw [hlen] at hn ⊢
        have hsplit : ∀ u v : BitVec w, pre ++ u :: (mid ++ [v]) ++ post = pre ++ u :: (mid ++ v :: post) := by
          intro u v
          rw [List.append_assoc, List.cons_append, List.append_assoc]
          rfl
        have hrest := ih (pre ++ [y]) (x :: post) (show mid.length < n by omega)
        rw [if_pos (by omega), hsplit, xorSwap_append (by omega)]
        rw [List.length_append, List.length_singleton] at hrest
        refine Eq.trans ?_ (hrest.trans ?_)
        · dsimp only [bind, Option.bind]
          rw [List.append_assoc, List.append_assoc, show pre.length + (mid.length + 2) - 1 - 1 =
            pre.length + 1 + mid.length - 1 by omega]
          rfl
        · rw [List.reverse_cons, List.reverse_append, List.append_assoc, List.append_assoc, List.append_assoc,
            List.append_assoc]
          rfl

end Reversal

section Digits

variable {base : Nat}

/-- The digits of a number are stored from the last one on, until nothing is left of it. -/
def digitLoop (digit : Nat → α) (rest : Nat → Nat) : Nat → List α → Nat → Nat → Option (List α × Nat)
  | 0, _, _, _ => none
  | n + 1, b, c, v => if v = 0 then some (b, c) else do
      digitLoop digit rest n (← store b c (digit v)) (c + 1) (rest v)

theorem digitLoop_append (pre : List α) {old : List α} {digit : Nat → α} {rest : Nat → Nat} (ch : Nat → α)
    (hbase : 1 < base) (hdigit : ∀ v, digit v = ch (v % base)) (hrest : ∀ v, rest v = v / base) {n v : Nat}
    (hn : (Nat.digits base v).length < n) (hroom : (Nat.digits base v).length ≤ old.length) :
    digitLoop digit rest n (pre ++ old) pre.length v =
      some (pre ++ (Nat.digits base v).map ch ++ old.drop (Nat.digits base v).length,
        pre.length + (Nat.digits base v).length) := by
  induction n generalizing pre old v with
  | zero => cases hn
  | succ n ih =>
    rw [digitLoop]
    by_cases hv : v = 0
    · rw [if_pos hv, hv, Nat.digits_zero, List.map_nil, List.append_nil]
      rfl
    · have hdigits := Nat.digits_def' hbase (Nat.pos_of_ne_zero hv)
      rw [hdigits, List.length_cons] at hn hroom ⊢
      obtain ⟨y, old, rfl⟩ := List.exists_cons_of_length_pos (Nat.lt_of_lt_of_le (Nat.succ_pos _) hroom)
      rw [List.length_cons] at hroom
      have hloop := ih (pre ++ [digit v]) (show (Nat.digits base (v / base)).length < n by omega)
        (show (Nat.digits base (v / base)).length ≤ old.length by omega)
      rw [List.append_assoc, List.length_append, List.length_singleton] at hloop
      rw [if_neg hv, store_append, hrest]
      refine hloop.trans ?_
      rw [hdigit, List.append_assoc pre [ch (v % base)], List.map_cons, List.drop_succ_cons, Nat.add_assoc,
        Nat.add_comm 1]
      rfl

theorem reverse_digits {v : Nat} (hbase : 1 < base) (hv : v ≠ 0) :
    (Nat.digits base v).reverse.map Nat.digitChar = Nat.toDigits base v := by
  induction v using Nat.strong_induction_on with
  | _ v ih =>
    rw [Nat.digits_def' hbase (Nat.pos_of_ne_zero hv), List.reverse_cons, List.map_append]
    by_cases hlt : v < base
    · rw [Nat.div_eq_of_lt hlt, Nat.mod_eq_of_lt hlt, Nat.toDigits_of_lt_base hlt, Nat.digits_zero]
      rfl
    · have hdiv : v / base ≠ 0 := (Nat.div_pos (Nat.le_of_not_lt hlt) (by omega)).ne'
      rw [ih (v / base) (Nat.div_lt_self (Nat.pos_of_ne_zero hv) hbase) hdiv,
        Nat.toDigits_of_base_le hbase (Nat.le_of_not_lt hlt)]
      rfl

end Digits

end YggKernel.Lib.Buffers
