import YggKernel.Lib.Buffers

namespace YggKernel.Print

open Lib.Buffers

abbrev Byte := BitVec 8

def ascii (c : Char) : Byte := BitVec.ofNat 8 c.toNat

def bytes (s : List Char) : List Byte := s.map ascii

def set0 : List Byte :=
  bytes ['0', '1', '2', '3', '4', '5', '6', '7', '8', '9', 'a', 'b', 'c', 'd', 'e', 'f']

def set1 : List Byte :=
  bytes ['0', '1', '2', '3', '4', '5', '6', '7', '8', '9', 'A', 'B', 'C', 'D', 'E', 'F']

section Source

/-- Whether a sign is printed, and the number that the digits are taken of. Negation wraps around
in the width that it is made in. -/
def magnitude (x : BitVec 64) (s sz : Bool) : Bool × BitVec 64 :=
  if sz then
    if s ∧ x.toInt < 0 then (true, -x) else (false, x)
  else
    if s ∧ (x.setWidth 32).toInt < 0 then (true, (-x.setWidth 32).signExtend 64) else (false, x)

/-- The terminator, and the reversal of what stands before it. -/
def finish (res : List Byte) (c : Nat) : Option (List Byte × Nat) := do
  let res ← store res c 0
  let res ← reverseLoop (c + 1) res 0 (c - 1)
  return (res, c)

def printZero (res : List Byte) : Option (List Byte × Nat) := do
  let res ← store res 0 (ascii '0')
  let res ← store res 1 0
  return (res, 1)

/-- The body that the kernel and the C library share; the library also returns the length. A
64-bit number has no more than 64 digits in any base. -/
def printDs (x : BitVec 64) (res : List Byte) (s sz : Bool) : Option (List Byte × Nat) :=
  if x = 0 then printZero res
  else do
    let (s, v) := magnitude x s sz
    let (res, c) ← digitLoop (fun v => BitVec.ofNat 8 (48 + v % 10)) (· / 10) 65 res 0 v.toNat
    if s then finish (← store res c (ascii '-')) (c + 1) else finish res c

def printXs (v : BitVec 64) (res : List Byte) (set : List Byte) : Option (List Byte × Nat) :=
  if v = 0 then printZero res
  else do
    let (res, c) ← digitLoop (fun v => set.getD (v &&& 0xF) 0) (· >>> 4) 65 res 0 v.toNat
    finish res c

def debugDs (x : BitVec 64) (res : List Byte) (s sz : Bool) : Option (List Byte) :=
  (printDs x res s sz).map Prod.fst

def debugXs (v : BitVec 64) (res : List Byte) (set : List Byte) : Option (List Byte) :=
  (printXs v res set).map Prod.fst

def debugArg (sz : Bool) (x : BitVec 64) : BitVec 64 := if sz then x else x &&& 0xFFFFFFFF

end Source

section Numerals

def decimal (z : Int) : List Char :=
  if z < 0 then '-' :: Nat.toDigits 10 z.natAbs else Nat.toDigits 10 z.natAbs

def hexadecimal (upper : Bool) (n : Nat) : List Char :=
  if upper then (Nat.toDigits 16 n).map Char.toUpper else Nat.toDigits 16 n

def line (text : List Char) (res : List Byte) : List Byte := bytes text ++ 0 :: res.drop (text.length + 1)

/-- A 64-bit value read as signed or not, in 64 bits or in the lower 32. -/
def readAs (x : BitVec 64) (s sz : Bool) : Int :=
  if sz then
    if s then x.toInt else x.toNat
  else
    if s then (x.setWidth 32).toInt else (x.setWidth 32).toNat

theorem decimal_eq_toString (z : Int) : decimal z = (toString z).toList := by
  cases z with
  | ofNat n =>
    have hnonneg : ¬(Int.ofNat n < 0) := by simp
    rw [decimal, if_neg hnonneg]
    exact Nat.toList_repr.symm
  | negSucc n =>
    have hneg : Int.negSucc n < 0 := Int.negSucc_lt_zero n
    rw [decimal, if_pos hneg]
    simp [toString, Int.repr]

end Numerals

section Spec

variable {x : BitVec 64} {v : Nat} {res : List Byte}

theorem printZero_eq (h : 2 ≤ res.length) : printZero res = some (line ['0'] res, 1) := by
  match res, h with
  | y :: z :: res, _ => rfl

theorem finish_eq {ds : List Byte} {old : List Byte} (h : old ≠ []) :
    finish (ds ++ old) ds.length = some (ds.reverse ++ 0 :: old.tail, ds.length) := by
  obtain ⟨y, old, rfl⟩ := List.exists_cons_of_ne_nil h
  have hreverse := reverseLoop_append [] (0 :: old) (Nat.lt_succ_self ds.length)
  rw [List.length_nil, Nat.zero_add, List.nil_append, List.nil_append] at hreverse
  unfold finish
  rw [store_append]
  dsimp only [bind, Option.bind]
  rw [hreverse]
  rfl

def lowFirst (base : Nat) (ch : Nat → Byte) (v : Nat) : List Byte := (Nat.digits base v).map ch

theorem length_lowFirst {base k : Nat} (ch : Nat → Byte) (hbase : 1 < base) (h : v < base ^ k) :
    (lowFirst base ch v).length ≤ k := by
  rw [lowFirst, List.length_map]
  exact (Nat.digits_length_le_iff hbase v).mpr h

theorem reverse_lowFirst {base : Nat} {ch : Nat → Byte} (f : Char → Char) (hbase : 1 < base) (hv : v ≠ 0)
    (hch : ∀ d < base, ch d = ascii (f d.digitChar)) :
    (lowFirst base ch v).reverse = bytes ((Nat.toDigits base v).map f) := by
  rw [← reverse_digits hbase hv, lowFirst, ← List.map_reverse, bytes, List.map_map, List.map_map]
  refine List.map_congr_left fun d hd => hch d ?_
  exact Nat.digits_lt_base hbase (List.mem_reverse.mp hd)

theorem length_toDigits_le (hv : v < 2 ^ 64) : (Nat.toDigits 10 v).length ≤ 20 := by
  by_cases hzero : v = 0
  · rw [hzero]
    decide
  · rw [← reverse_digits (by decide) hzero, List.length_map, List.length_reverse]
    exact (Nat.digits_length_le_iff (b := 10) (k := 20) (by decide) v).mpr (hv.trans (by decide))

theorem decimalLoop_eq (hv : v < 2 ^ 64) (hroom : (Nat.digits 10 v).length ≤ res.length) :
    digitLoop (fun v => BitVec.ofNat 8 (48 + v % 10)) (· / 10) 65 res 0 v =
      some (lowFirst 10 (fun d => BitVec.ofNat 8 (48 + d)) v ++
        res.drop (lowFirst 10 (fun d => BitVec.ofNat 8 (48 + d)) v).length,
        (lowFirst 10 (fun d => BitVec.ofNat 8 (48 + d)) v).length) := by
  have hlen := (Nat.digits_length_le_iff (b := 10) (k := 20) (by decide) v).mpr (hv.trans (by decide))
  have hloop : digitLoop (fun v => BitVec.ofNat 8 (48 + v % 10)) (· / 10) 65 ([] ++ res) 0 v = _ :=
    digitLoop_append [] (fun d => BitVec.ofNat 8 (48 + d)) (by decide : 1 < 10) (fun _ => rfl) (fun _ => rfl)
      (by omega) (by omega)
  rw [List.nil_append, List.nil_append, List.length_nil, Nat.zero_add] at hloop
  rw [lowFirst, List.length_map]
  exact hloop

theorem hexLoop_eq (set : List Byte) (hv : v < 2 ^ 64) (hroom : 16 ≤ res.length) :
    digitLoop (fun v => set.getD (v &&& 0xF) 0) (· >>> 4) 65 res 0 v =
      some (lowFirst 16 (fun d => set.getD d 0) v ++ res.drop (lowFirst 16 (fun d => set.getD d 0) v).length,
        (lowFirst 16 (fun d => set.getD d 0) v).length) := by
  have hlen := (Nat.digits_length_le_iff (b := 16) (k := 16) (by decide) v).mpr (hv.trans_le (by decide))
  have hdigit : ∀ v, set.getD (v &&& 0xF) 0 = set.getD (v % 16) 0 := fun v => by
    rw [show (0xF : Nat) = 2 ^ 4 - 1 by decide, Nat.and_two_pow_sub_one_eq_mod]
  have hloop : digitLoop (fun v => set.getD (v &&& 0xF) 0) (· >>> 4) 65 ([] ++ res) 0 v = _ :=
    digitLoop_append [] (fun d => set.getD d 0) (by decide : 1 < 16) hdigit
      (fun v => Nat.shiftRight_eq_div_pow v 4) (by omega) (by omega)
  rw [List.nil_append, List.nil_append, List.length_nil, Nat.zero_add] at hloop
  rw [lowFirst, List.length_map]
  exact hloop

theorem drop_ne_nil {k : Nat} (h : k < res.length) : res.drop k ≠ [] := fun hnil => by
  have := List.drop_eq_nil_iff.mp hnil
  omega

theorem printXs_eq (x : BitVec 64) {upper : Bool} (hroom : 17 ≤ res.length) :
    printXs x res (if upper then set1 else set0) =
      some (line (hexadecimal upper x.toNat) res, (hexadecimal upper x.toNat).length) := by
  unfold printXs
  by_cases hx : x = 0
  · rw [if_pos hx, printZero_eq (by omega), hx]
    cases upper <;> rfl
  · have hv : x.toNat ≠ 0 := fun h => hx (BitVec.eq_of_toNat_eq h)
    have hlen := length_lowFirst (fun d => (if upper then set1 else set0).getD d 0) (by decide : 1 < 16)
      (x.isLt.trans_le (by decide : 2 ^ 64 ≤ 16 ^ 16))
    have htext : (lowFirst 16 (fun d => (if upper then set1 else set0).getD d 0) x.toNat).reverse =
        bytes (hexadecimal upper x.toNat) := by
      cases upper with
      | false =>
        rw [reverse_lowFirst id (by decide) hv (by decide), List.map_id]
        rfl
      | true => exact reverse_lowFirst Char.toUpper (by decide) hv (by decide)
    have hcount := congrArg List.length htext
    rw [List.length_reverse, bytes, List.length_map] at hcount
    rw [if_neg hx, hexLoop_eq _ x.isLt (by omega)]
    dsimp only [bind, Option.bind]
    rw [finish_eq (drop_ne_nil (by omega)), htext, List.tail_drop, hcount]
    rfl

theorem printDs_eq {s sz sign : Bool} {v : BitVec 64} (hx : x ≠ 0) (hmag : magnitude x s sz = (sign, v)) (hv : v ≠ 0)
    (hroom : ((if sign then ['-'] else []) ++ Nat.toDigits 10 v.toNat).length < res.length) : printDs x res s sz =
      some (line ((if sign then ['-'] else []) ++ Nat.toDigits 10 v.toNat) res,
        ((if sign then ['-'] else []) ++ Nat.toDigits 10 v.toNat).length) := by
  have hne : v.toNat ≠ 0 := fun h => hv (BitVec.eq_of_toNat_eq h)
  have htext : (lowFirst 10 (fun d => BitVec.ofNat 8 (48 + d)) v.toNat).reverse = _ :=
    reverse_lowFirst id (by decide : 1 < 10) hne (by decide)
  rw [List.map_id] at htext
  have hcount := congrArg List.length htext
  rw [List.length_reverse, bytes, List.length_map] at hcount
  have hdigits : (Nat.digits 10 v.toNat).length = (Nat.toDigits 10 v.toNat).length := by
    rw [← hcount, lowFirst, List.length_map]
  rw [List.length_append] at hroom
  unfold printDs
  rw [if_neg hx, hmag]
  dsimp only
  rw [decimalLoop_eq v.isLt (by omega)]
  dsimp only [bind, Option.bind]
  generalize lowFirst 10 (fun d => BitVec.ofNat 8 (48 + d)) v.toNat = ds at htext hcount ⊢
  cases sign with
  | false =>
    rw [if_neg (by decide), finish_eq (drop_ne_nil (by omega)), htext, List.tail_drop, hcount]
    rfl
  | true =>
    rw [if_pos rfl, List.length_singleton] at hroom
    obtain ⟨y, old, hold⟩ := List.exists_cons_of_ne_nil (drop_ne_nil (show ds.length < res.length by omega))
    have hrest : old = res.drop (ds.length + 1) := by rw [← List.tail_drop, hold]; rfl
    have hsign : ds ++ ascii '-' :: old = (ds ++ [ascii '-']) ++ old := by rw [List.append_assoc]; rfl
    have hlen' : ds.length + 1 = (ds ++ [ascii '-']).length := by rw [List.length_append, List.length_singleton]
    rw [if_pos rfl, hold, store_append]
    dsimp only
    rw [hsign, hlen', finish_eq (hrest ▸ drop_ne_nil (by omega)), List.reverse_append, htext, hrest, List.tail_drop,
      ← hlen', hcount]
    rfl

end Spec

section Modes

variable {x : BitVec 64} {s sz : Bool} {res : List Byte}

theorem debugArg_half (x : BitVec 64) : debugArg false x = (x.setWidth 32).setWidth 64 := by
  apply BitVec.eq_of_toNat_eq
  have hand : (debugArg false x).toNat = x.toNat % 2 ^ 32 := by
    rw [debugArg, if_neg (by decide), BitVec.toNat_and]
    exact Nat.and_two_pow_sub_one_eq_mod x.toNat 32
  have hlt := Nat.mod_lt x.toNat (by decide : 2 ^ 32 > 0)
  rw [hand, BitVec.toNat_setWidth, BitVec.toNat_setWidth]
  omega

theorem half_setWidth (y : BitVec 32) : (y.setWidth 64).setWidth 32 = y := by
  apply BitVec.eq_of_toNat_eq
  have := y.isLt
  rw [BitVec.toNat_setWidth, BitVec.toNat_setWidth]
  omega

theorem readAs_zero (h : debugArg sz x = 0) : readAs x s sz = 0 := by
  cases sz with
  | true =>
    have hx : x = 0 := h
    rw [hx]
    cases s <;> rfl
  | false =>
    rw [debugArg_half] at h
    have hy : x.setWidth 32 = 0 := by rw [← half_setWidth (x.setWidth 32), h]; rfl
    rw [readAs, if_neg (by decide), hy]
    cases s <;> rfl

def Spells (z : Int) (m : Bool × BitVec 64) : Prop :=
  m.2 ≠ 0 ∧ (if m.1 then ['-'] else []) ++ Nat.toDigits 10 m.2.toNat = decimal z

theorem spells_negative {z : Int} {v : BitVec 64} (hz : z < 0) (hv : (v.toNat : Int) = -z) : Spells z (true, v) := by
  have hnat : v.toNat = z.natAbs := by omega
  refine ⟨fun h => ?_, ?_⟩
  · have hzero : v.toNat = 0 := congrArg BitVec.toNat h
    omega
  · rw [decimal, if_pos hz, hnat]
    rfl

theorem spells_nonnegative {z : Int} {v : BitVec 64} (hne : v ≠ 0) (hv : (v.toNat : Int) = z) : Spells z (false, v) := by
  have hnat : v.toNat = z.natAbs := by omega
  have hz : ¬z < 0 := by omega
  refine ⟨hne, ?_⟩
  rw [decimal, if_neg hz, hnat]
  rfl

theorem magnitude_spells_whole (hx : x ≠ 0) : Spells (readAs x s true) (magnitude x s true) := by
  unfold magnitude readAs
  rw [if_pos rfl, if_pos rfl]
  cases s with
  | false =>
    rw [if_neg Bool.false_ne_true, if_neg fun h => Bool.false_ne_true h.1]
    exact spells_nonnegative hx rfl
  | true =>
    have hcond := BitVec.toInt_eq_toNat_cond x
    have hlt := x.isLt
    rw [if_pos rfl]
    by_cases hneg : x.toInt < 0
    · rw [if_pos ⟨rfl, hneg⟩]
      refine spells_negative hneg ?_
      rw [BitVec.toNat_neg]
      omega
    · rw [if_neg fun h => hneg h.2]
      exact spells_nonnegative hx (by omega)

theorem magnitude_spells_half {y : BitVec 32} (hy : y ≠ 0) (h : s = true → y ≠ BitVec.intMin 32) :
    Spells (if s then y.toInt else y.toNat) (magnitude (y.setWidth 64) s false) := by
  have hlt := y.isLt
  have hwide : (y.setWidth 64).toNat = y.toNat := by
    rw [BitVec.toNat_setWidth]
    omega
  have hne : y.setWidth 64 ≠ 0 := fun h0 => by
    have hzero := congrArg BitVec.toNat h0
    rw [hwide] at hzero
    exact hy (BitVec.eq_of_toNat_eq hzero)
  rw [magnitude, if_neg Bool.false_ne_true, half_setWidth]
  cases s with
  | false =>
    rw [if_neg Bool.false_ne_true, if_neg fun h => Bool.false_ne_true h.1]
    exact spells_nonnegative hne (congrArg _ hwide)
  | true =>
    have hcond := BitVec.toInt_eq_toNat_cond y
    rw [if_pos rfl]
    by_cases hneg : y.toInt < 0
    · rw [if_pos ⟨rfl, hneg⟩]
      have hwiden := BitVec.toInt_signExtend_of_le (x := -y) (by decide : 32 ≤ 64)
      rw [BitVec.toInt_neg_of_ne_intMin (h rfl)] at hwiden
      have hcond' := BitVec.toInt_eq_toNat_cond ((-y).signExtend 64)
      have hlt' := ((-y).signExtend 64).isLt
      exact spells_negative hneg (by omega)
    · rw [if_neg fun h => hneg h.2]
      exact spells_nonnegative hne (by omega)

theorem printDs_spells {z : Int} (hx : x ≠ 0) (h : Spells z (magnitude x s sz)) (hroom : 22 ≤ res.length) :
    printDs x res s sz = some (line (decimal z) res, (decimal z).length) := by
  cases hmag : magnitude x s sz with
  | mk sign v =>
    rw [hmag] at h
    obtain ⟨hne, htext⟩ := h
    have hsign : (if sign then ['-'] else []).length ≤ 1 := by cases sign <;> decide
    have hdigits := length_toDigits_le v.isLt
    rw [printDs_eq hx hmag hne (by rw [List.length_append]; omega), htext]

theorem printDs_zero (hroom : 2 ≤ res.length) : printDs 0 res s sz = some (line (decimal 0) res, (decimal 0).length) := by
  rw [printDs, if_pos rfl, printZero_eq hroom]
  rfl

theorem debugDs_lowest (hroom : 22 ≤ res.length) :
    debugDs (debugArg false ((BitVec.intMin 32).setWidth 64)) res true false ≠
      some (line (decimal (BitVec.intMin 32).toInt) res) := by
  have hmag : magnitude (debugArg false ((BitVec.intMin 32).setWidth 64)) true false = (true, 0xFFFFFFFF80000000) := by
    decide
  rw [debugDs, printDs_eq (by decide) hmag (by decide) (lt_of_lt_of_le (by decide) hroom)]
  intro h
  -- the second digit differs: 1 for 2^64 - 2^31, and 2 for 2^31
  have hsecond := congrArg (fun b => b[1]?) (Option.some.inj h)
  have hleft : (line (['-'] ++ Nat.toDigits 10 0xFFFFFFFF80000000) res)[1]? = some (ascii '1') := by
    rfl
  have hright : (line (decimal (BitVec.intMin 32).toInt) res)[1]? = some (ascii '2') := by
    rfl
  exact absurd (hleft.symm.trans (hsecond.trans hright)) (by decide)

theorem printDs_right (h : ¬(s = true ∧ sz = false ∧ x.setWidth 32 = BitVec.intMin 32)) (hroom : 22 ≤ res.length) :
    printDs (debugArg sz x) res s sz =
      some (line (decimal (readAs x s sz)) res, (decimal (readAs x s sz)).length) := by
  by_cases hzero : debugArg sz x = 0
  · rw [readAs_zero hzero, hzero]
    exact printDs_zero (by omega)
  · refine printDs_spells hzero ?_ hroom
    cases sz with
    | true => exact magnitude_spells_whole hzero
    | false =>
      rw [debugArg_half] at hzero ⊢
      exact magnitude_spells_half (fun h0 => hzero (by rw [h0]; rfl)) fun hs hmin => h ⟨hs, rfl, hmin⟩

theorem debugDs_right (h : ¬(s = true ∧ sz = false ∧ x.setWidth 32 = BitVec.intMin 32)) (hroom : 22 ≤ res.length) :
    debugDs (debugArg sz x) res s sz = some (line (decimal (readAs x s sz)) res) := by
  rw [debugDs, printDs_right h hroom]
  rfl

/-- Each value prints as its hexadecimal numeral, and in each mode as its decimal one but for the
lowest 32-bit number. -/
theorem numerals_printed_iff (x : BitVec 64) (res : List Byte) (hres : res.length = 64) :
    (∀ upper : Bool, debugXs x res (if upper then set1 else set0) = some (line (hexadecimal upper x.toNat) res)) ∧
      ∀ s sz : Bool, debugDs (debugArg sz x) res s sz = some (line (decimal (readAs x s sz)) res) ↔
        ¬(s = true ∧ sz = false ∧ x.setWidth 32 = BitVec.intMin 32) := by
  refine ⟨fun upper => ?_, fun s sz => ⟨fun h => ?_, fun h => debugDs_right h (by omega)⟩⟩
  · rw [debugXs, printXs_eq x (by omega)]
    rfl
  · rintro ⟨rfl, rfl, hmin⟩
    have harg : debugArg false x = debugArg false ((BitVec.intMin 32).setWidth 64) := by
      rw [debugArg_half, debugArg_half, half_setWidth, hmin]
    have hvalue : readAs x true false = (BitVec.intMin 32).toInt := by
      rw [← hmin]
      rfl
    rw [harg, hvalue] at h
    exact debugDs_lowest (by omega) h

theorem numeral_of_minus_two : (List.replicate 64 (0 : Byte)).length = 64 ∧
    debugDs (debugArg false (-2)) (List.replicate 64 0) true false = some (bytes ['-', '2'] ++ List.replicate 62 0) := by
  have hlen : (List.replicate 64 (0 : Byte)).length = 64 := List.length_replicate
  refine ⟨hlen, ((numerals_printed_iff (-2) _ hlen).2 true false).mpr (by decide) |>.trans ?_⟩
  decide

/-- The lowest number prints with twenty digits. -/
theorem lowest_misprinted : ∃ (x : BitVec 64) (s sz : Bool),
    debugDs (debugArg sz x) (List.replicate 64 0) s sz ≠ some (line (decimal (readAs x s sz)) (List.replicate 64 0)) :=
  ⟨(BitVec.intMin 32).setWidth 64, true, false, debugDs_lowest (by decide)⟩

end Modes

end YggKernel.Print
