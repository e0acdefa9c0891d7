import YggKernel.Print.Numerals
import YggKernel.Strings

namespace YggKernel.Net

open Lib.Buffers Print Strings

section Source

/-- None stands for an access behind the end of a buffer, a failed assertion, and an int that
overflows. -/
def atoiLoop : Nat → List Print.Byte → Option Nat
  | _, [] => none
  | r, c :: s =>
    if c ≠ 0 ∧ ascii '0' ≤ c ∧ c ≤ ascii '9' then
      if r * 10 + (c - ascii '0').toNat < 2 ^ 31 then atoiLoop (r * 10 + (c - ascii '0').toNat) s else none
    else some r

def atoi (s : List Print.Byte) : Option Nat := atoiLoop 0 s

def ntoaLoop (a : BitVec 32) : Nat → Nat → Nat → List Print.Byte → Option (List Print.Byte)
  | 0, _, _, out => some out
  | n + 1, i, l, out => do
    let out := out.take l ++ (← debugDs (((a >>> (i * 8)) &&& 0xFF).setWidth 64) (out.drop l) false false)
    let l ← strlen out
    if i ≠ 3 then
      let out ← store out l (ascii '.')
      ntoaLoop a n (i + 1) (l + 1) (← store out (l + 1) 0)
    else ntoaLoop a n (i + 1) l out

def inetNtoa (out : List Print.Byte) (a : BitVec 32) : Option (List Print.Byte) := ntoaLoop a 4 0 0 out

def atonLoop : Nat → Nat → List Print.Byte → BitVec 32 → Option (BitVec 32)
  | 0, _, _, r => some r
  | n + 1, i, p, r => do
    let octet := BitVec.ofNat 8 (← atoi p)
    let p ← if i ≠ 3 then (strchr p (ascii '.')).join.map List.tail else some p
    atonLoop n (i + 1) p (r ||| octet.setWidth 32 <<< (8 * i))

def inetAton (s : List Print.Byte) : Option (BitVec 32) := atonLoop 4 0 s 0

end Source

structure IsOctet (t : List Char) : Prop where
  digits : ∀ c ∈ t, c.isDigit = true
  lead : t.head? = some '0' → t = ['0']
  nonempty : t ≠ []
  small : Nat.ofDigitChars 10 t 0 ≤ 255

def dotted (t₀ t₁ t₂ t₃ : List Char) : List Char := t₀ ++ '.' :: (t₁ ++ '.' :: (t₂ ++ '.' :: t₃))

def IsQuad (text : List Char) : Prop :=
  ∃ t₀ t₁ t₂ t₃, IsOctet t₀ ∧ IsOctet t₁ ∧ IsOctet t₂ ∧ IsOctet t₃ ∧ text = dotted t₀ t₁ t₂ t₃

section Octets

variable {t : List Char} {n : Nat}

theorem digitChar_of_isDigit {c : Char} (h : c.isDigit = true) : ∃ d < 10, c = Nat.digitChar d := by
  have hrange : 48 ≤ c.toNat ∧ c.toNat ≤ 57 := by
    simp only [Char.isDigit, Bool.and_eq_true, decide_eq_true_eq] at h
    exact h
  refine ⟨c.toNat - 48, by omega, Char.toNat_inj.mp ?_⟩
  rw [Nat.toNat_digitChar_of_lt_ten (by omega)]
  omega

theorem head_toDigits (h : n ≠ 0) : (Nat.toDigits 10 n).head? ≠ some '0' := by
  have hne := Nat.digits_ne_nil_iff_ne_zero (b := 10).mpr h
  rw [← reverse_digits (by decide) h, List.head?_map, List.head?_reverse, List.getLast?_eq_some_getLast hne]
  intro hzero
  exact Nat.getLast_digit_ne_zero 10 h (Nat.digitChar_eq_zero.mp (Option.some.inj hzero))

theorem octet_toDigits (h : n < 256) : IsOctet (Nat.toDigits 10 n) := by
  refine ⟨fun c hc => Nat.isDigit_of_mem_toDigits (by decide) (by decide) hc, fun hlead => ?_, ?_, ?_⟩
  · by_cases hn : n = 0
    · rw [hn]
      rfl
    · exact absurd hlead (head_toDigits hn)
  · exact List.ne_nil_of_length_pos Nat.length_toDigits_pos
  · rw [Nat.ofDigitChars_ten_toDigits]
    omega

theorem toDigits_ofDigitChars (hdigits : ∀ c ∈ t, c.isDigit = true) (hlead : t.head? = some '0' → t = ['0'])
    (hne : t ≠ []) : Nat.toDigits 10 (Nat.ofDigitChars 10 t 0) = t := by
  induction t using List.reverseRecOn with
  | nil => exact absurd rfl hne
  | append_singleton s c ih =>
    obtain ⟨d, hd, rfl⟩ := digitChar_of_isDigit (hdigits c (by simp))
    rw [Nat.ofDigitChars_append, Nat.ofDigitChars_cons_digitChar_of_lt_ten hd, Nat.ofDigitChars_nil]
    by_cases hs : s = []
    · rw [hs, Nat.ofDigitChars_nil, Nat.mul_zero, Nat.zero_add, Nat.toDigits_of_lt_base hd]
      rfl
    have hhead : s.head? ≠ some '0' := fun h0 => by
      have hall := hlead (by rw [List.head?_append_of_ne_nil _ hs, h0])
      have hlen := congrArg List.length hall
      rw [List.length_append, List.length_singleton, List.length_singleton] at hlen
      exact hs (List.length_eq_zero_iff.mp (by omega))
    have hrest := ih (fun c hc => hdigits c (List.mem_append_left _ hc)) (fun h0 => absurd h0 hhead) hs
    have hpos : 0 < Nat.ofDigitChars 10 s 0 := Nat.pos_of_ne_zero fun h0 => by
      rw [h0] at hrest
      exact hhead (by rw [← hrest]; rfl)
    rw [← Nat.toDigits_append_toDigits (by decide) hpos hd, hrest, Nat.toDigits_of_lt_base hd]

theorem isOctet_iff : IsOctet t ↔ ∃ n < 256, t = Nat.toDigits 10 n := by
  refine ⟨fun h => ⟨Nat.ofDigitChars 10 t 0, Nat.lt_succ_of_le h.small, ?_⟩, ?_⟩
  · exact (toDigits_ofDigitChars h.digits h.lead h.nonempty).symm
  · rintro ⟨n, hn, rfl⟩
    exact octet_toDigits hn

theorem length_octet (h : IsOctet t) : t.length ≤ 3 := by
  obtain ⟨n, hn, rfl⟩ := isOctet_iff.mp h
  exact (Nat.length_toDigits_le_iff (by decide) (by decide)).mpr (by omega)

end Octets

section Strings

variable {t : List Char} {c : Print.Byte} {u v : List Print.Byte} {r : Nat}

theorem ascii_digit {d : Nat} (h : d < 10) : ascii d.digitChar ≠ 0 ∧ ascii '0' ≤ ascii d.digitChar ∧
    ascii d.digitChar ≤ ascii '9' ∧ (ascii d.digitChar - ascii '0').toNat = d ∧ ascii d.digitChar ≠ ascii '.' := by
  revert d
  decide

theorem noNul_digits (h : ∀ c ∈ t, c.isDigit = true) : (0 : Print.Byte) ∉ bytes t ∧ ascii '.' ∉ bytes t := by
  refine ⟨fun hmem => ?_, fun hmem => ?_⟩
  · obtain ⟨c, hc, h0⟩ := List.mem_map.mp hmem
    obtain ⟨d, hd, rfl⟩ := digitChar_of_isDigit (h c hc)
    exact (ascii_digit hd).1 h0
  · obtain ⟨c, hc, h0⟩ := List.mem_map.mp hmem
    obtain ⟨d, hd, rfl⟩ := digitChar_of_isDigit (h c hc)
    exact (ascii_digit hd).2.2.2.2 h0

theorem le_ofDigitChars (t : List Char) (r : Nat) : r ≤ Nat.ofDigitChars 10 t r := by
  rw [Nat.ofDigitChars_eq_ofDigitChars_zero]
  have hpow : 1 ≤ 10 ^ t.length := Nat.one_le_pow _ _ (by decide)
  have hmul := Nat.mul_le_mul_right r hpow
  omega

theorem atoiLoop_eq (h : ∀ c ∈ t, c.isDigit = true) (hc : ¬(c ≠ 0 ∧ ascii '0' ≤ c ∧ c ≤ ascii '9'))
    (hlt : Nat.ofDigitChars 10 t r < 2 ^ 31) : atoiLoop r (bytes t ++ c :: v) = some (Nat.ofDigitChars 10 t r) := by
  induction t generalizing r with
  | nil =>
    rw [Nat.ofDigitChars_nil]
    exact if_neg hc
  | cons x t ih =>
    obtain ⟨d, hd, rfl⟩ := digitChar_of_isDigit (h x (List.mem_cons_self ..))
    obtain ⟨h1, h2, h3, hvalue, -⟩ := ascii_digit hd
    rw [Nat.ofDigitChars_cons_digitChar_of_lt_ten hd, Nat.mul_comm] at hlt ⊢
    have hfirst := le_ofDigitChars t (r * 10 + d)
    have hrest := ih (fun c hc => h c (List.mem_cons_of_mem _ hc)) hlt
    change atoiLoop r (ascii d.digitChar :: (bytes t ++ c :: v)) = _
    rw [atoiLoop, if_pos ⟨h1, h2, h3⟩, hvalue, if_pos (by omega), hrest]

theorem atoi_octet (h : IsOctet t) (hc : ¬(c ≠ 0 ∧ ascii '0' ≤ c ∧ c ≤ ascii '9')) :
    atoi (bytes t ++ c :: v) = some (Nat.ofDigitChars 10 t 0) := by
  have hsmall := h.small
  exact atoiLoop_eq h.digits hc (by omega)

end Strings

section Printing

variable {a : BitVec 32} {i n : Nat} {pre rest : List Print.Byte}

def octet (a : BitVec 32) (i : Nat) : BitVec 8 := a.extractLsb' (8 * i) 8

def octetText (a : BitVec 32) (i : Nat) : List Char := Nat.toDigits 10 (octet a i).toNat

theorem isOctet_octetText (a : BitVec 32) (i : Nat) : IsOctet (octetText a i) := octet_toDigits (octet a i).isLt

theorem octet_eq (a : BitVec 32) (i : Nat) : (((a >>> (i * 8)) &&& 0xFF).setWidth 64).toNat = (octet a i).toNat := by
  have hand : ((a >>> (i * 8)) &&& 0xFF).toNat = (a.toNat >>> (i * 8)) % 256 := by
    rw [BitVec.toNat_and, BitVec.toNat_ushiftRight]
    exact Nat.and_two_pow_sub_one_eq_mod _ 8
  rw [BitVec.toNat_setWidth, hand, octet, BitVec.extractLsb'_toNat, Nat.mul_comm]
  omega

theorem debugDs_octet (res : List Print.Byte) (hroom : (octetText a i).length < res.length) :
    debugDs (((a >>> (i * 8)) &&& 0xFF).setWidth 64) res false false = some (line (octetText a i) res) := by
  have hvalue := octet_eq a i
  unfold debugDs
  by_cases hx : ((a >>> (i * 8)) &&& 0xFF).setWidth 64 = (0 : BitVec 64)
  · have hzero : octetText a i = ['0'] := by
      unfold octetText
      rw [← hvalue, hx]
      rfl
    rw [hzero] at hroom ⊢
    rw [hx, printDs_zero hroom]
    rfl
  · have hmag : magnitude (((a >>> (i * 8)) &&& 0xFF).setWidth 64) false false =
        (false, ((a >>> (i * 8)) &&& 0xFF).setWidth 64) := rfl
    unfold octetText at hroom ⊢
    rw [← hvalue] at hroom ⊢
    rw [printDs_eq hx hmag hx hroom]
    rfl

theorem noNul_octetText (a : BitVec 32) (i : Nat) : (0 : Print.Byte) ∉ bytes (octetText a i) :=
  (noNul_digits (isOctet_octetText a i).digits).1

theorem ntoaLoop_octet (hpre : (0 : Print.Byte) ∉ pre) (hroom : (octetText a i).length + 1 < rest.length) (hi : i ≠ 3) :
    ntoaLoop a (n + 1) i pre.length (pre ++ rest) =
      ntoaLoop a n (i + 1) (pre ++ bytes (octetText a i ++ ['.'])).length
        (pre ++ bytes (octetText a i ++ ['.']) ++ 0 :: rest.drop ((octetText a i ++ ['.']).length + 1)) := by
  have hprint := debugDs_octet (a := a) (i := i) rest (by omega)
  have hlen : strlen (pre ++ bytes (octetText a i) ++ 0 :: rest.drop ((octetText a i).length + 1)) =
      some (pre ++ bytes (octetText a i)).length := by
    apply strlen_eq
    rw [List.mem_append, not_or]
    exact ⟨hpre, noNul_octetText a i⟩
  obtain ⟨y, old, hold⟩ := List.exists_cons_of_ne_nil (drop_ne_nil hroom)
  have hrest : old = rest.drop ((octetText a i ++ ['.']).length + 1) := by
    rw [List.length_append, List.length_singleton, ← List.tail_drop, hold]
    rfl
  have htext : bytes (octetText a i ++ ['.']) = bytes (octetText a i) ++ [ascii '.'] := List.map_append
  have hdot := store_append (pre ++ bytes (octetText a i)) (y :: old) (ascii '.') 0
  have hnul : store (pre ++ bytes (octetText a i) ++ ascii '.' :: y :: old)
      ((pre ++ bytes (octetText a i)).length + 1) 0 = some (pre ++ bytes (octetText a i) ++ ascii '.' :: 0 :: old) := by
    have hstore := store_append (pre ++ bytes (octetText a i) ++ [ascii '.']) old 0 y
    rw [List.length_append, List.length_singleton, List.append_assoc _ [ascii '.'],
      List.append_assoc _ [ascii '.']] at hstore
    exact hstore
  rw [hold] at hlen
  rw [ntoaLoop, List.take_left, List.drop_left, hprint]
  dsimp only [bind, Option.bind]
  rw [line, hold, ← List.append_assoc, hlen]
  dsimp only
  rw [if_pos hi, hdot]
  dsimp only
  rw [hnul, htext, ← hrest, ← List.append_assoc, @List.length_append _ _ [ascii '.'], List.append_assoc _ [ascii '.']]
  rfl

theorem ntoaLoop_last (hpre : (0 : Print.Byte) ∉ pre) (hroom : (octetText a 3).length < rest.length) :
    ntoaLoop a 1 3 pre.length (pre ++ rest) =
      some (pre ++ bytes (octetText a 3) ++ 0 :: rest.drop ((octetText a 3).length + 1)) := by
  have hprint := debugDs_octet (a := a) (i := 3) rest (by omega)
  have hlen : strlen (pre ++ bytes (octetText a 3) ++ 0 :: rest.drop ((octetText a 3).length + 1)) =
      some (pre ++ bytes (octetText a 3)).length := by
    apply strlen_eq
    rw [List.mem_append, not_or]
    exact ⟨hpre, noNul_octetText a 3⟩
  rw [List.append_assoc] at hlen
  rw [ntoaLoop, List.take_left, List.drop_left, hprint]
  dsimp only [bind, Option.bind]
  rw [line, hlen]
  rw [List.append_assoc]
  rfl

def quad (a : BitVec 32) : List Char := dotted (octetText a 0) (octetText a 1) (octetText a 2) (octetText a 3)

theorem isQuad_quad (a : BitVec 32) : IsQuad (quad a) :=
  ⟨_, _, _, _, isOctet_octetText a 0, isOctet_octetText a 1, isOctet_octetText a 2, isOctet_octetText a 3, rfl⟩

theorem length_quad {text : List Char} (h : IsQuad text) : text.length ≤ 15 := by
  obtain ⟨t₀, t₁, t₂, t₃, h0, h1, h2, h3, rfl⟩ := h
  have l0 := length_octet h0
  have l1 := length_octet h1
  have l2 := length_octet h2
  have l3 := length_octet h3
  simp only [dotted, List.length_append, List.length_cons]
  omega

theorem inetNtoa_eq {out : List Print.Byte} (h : 16 ≤ out.length) : inetNtoa out a = some (line (quad a) out) := by
  have l0 := length_octet (isOctet_octetText a 0)
  have l1 := length_octet (isOctet_octetText a 1)
  have l2 := length_octet (isOctet_octetText a 2)
  have l3 := length_octet (isOctet_octetText a 3)
  have hnul : ∀ {i : Nat} {u : List Print.Byte}, (0 : Print.Byte) ∉ u → (0 : Print.Byte) ∉ u ++ bytes (octetText a i ++ ['.']) := by
    intro i u hu hmem
    rcases List.mem_append.mp hmem with hmem | hmem
    · exact hu hmem
    · rw [bytes, List.map_append] at hmem
      rcases List.mem_append.mp hmem with hmem | hmem
      · exact noNul_octetText a i hmem
      · exact absurd (List.mem_singleton.mp hmem) (by decide)
  have hfirst : inetNtoa out a = ntoaLoop a 4 0 ([] : List Print.Byte).length ([] ++ out) := rfl
  have h0 : (0 : Print.Byte) ∉ ([] : List Print.Byte) := List.not_mem_nil
  rw [hfirst, ntoaLoop_octet h0 (by omega) (by decide), ntoaLoop_octet (hnul h0) (by simp; omega) (by decide),
    ntoaLoop_octet (hnul (hnul h0)) (by simp; omega) (by decide), ntoaLoop_last (hnul (hnul (hnul h0))) (by simp; omega)]
  refine congrArg some ?_
  simp [line, quad, dotted, bytes]
  omega

end Printing

section Parsing

variable {t : List Char} {i n : Nat} {v : List Print.Byte} {r : BitVec 32}

def octetValue (t : List Char) : BitVec 8 := BitVec.ofNat 8 (Nat.ofDigitChars 10 t 0)

theorem atonLoop_octet (h : IsOctet t) (hi : i ≠ 3) : atonLoop (n + 1) i (bytes t ++ ascii '.' :: v) r =
    atonLoop n (i + 1) v (r ||| (octetValue t).setWidth 32 <<< (8 * i)) := by
  have hchars := noNul_digits h.digits
  rw [atonLoop, atoi_octet h (by decide)]
  dsimp only [bind, Option.bind]
  rw [if_pos hi, strchr_eq (by decide) hchars.1 hchars.2]
  rfl

theorem atonLoop_last (h : IsOctet t) : atonLoop 1 3 (bytes t ++ 0 :: v) r =
    some (r ||| (octetValue t).setWidth 32 <<< (8 * 3)) := by
  rw [atonLoop, atoi_octet h (by decide)]
  rfl

theorem joined (b₀ b₁ b₂ b₃ : BitVec 8) : 0#32 ||| b₀.setWidth 32 <<< (8 * 0) ||| b₁.setWidth 32 <<< (8 * 1) |||
    b₂.setWidth 32 <<< (8 * 2) ||| b₃.setWidth 32 <<< (8 * 3) = (b₃ ++ b₂ ++ b₁ ++ b₀ : BitVec 32) := by
  ext k hk
  simp
  grind

theorem inetAton_eq {t₀ t₁ t₂ t₃ : List Char} (h0 : IsOctet t₀) (h1 : IsOctet t₁) (h2 : IsOctet t₂) (h3 : IsOctet t₃) :
    inetAton (bytes (dotted t₀ t₁ t₂ t₃) ++ 0 :: v) =
      some (octetValue t₃ ++ octetValue t₂ ++ octetValue t₁ ++ octetValue t₀ : BitVec 32) := by
  have htext : bytes (dotted t₀ t₁ t₂ t₃) ++ 0 :: v = bytes t₀ ++ ascii '.' :: (bytes t₁ ++ ascii '.' :: (bytes t₂ ++
      ascii '.' :: (bytes t₃ ++ 0 :: v))) := by
    simp [bytes, dotted]
  rw [htext, inetAton, atonLoop_octet h0 (by decide), atonLoop_octet h1 (by decide), atonLoop_octet h2 (by decide),
    atonLoop_last h3, ← joined]
  rfl

end Parsing

section RoundTrip

theorem split_address (a : BitVec 32) : (octet a 3 ++ octet a 2 ++ octet a 1 ++ octet a 0 : BitVec 32) = a := by
  ext k hk
  simp [octet]
  grind

theorem octet_joined (b₀ b₁ b₂ b₃ : BitVec 8) :
    octet (b₃ ++ b₂ ++ b₁ ++ b₀ : BitVec 32) 0 = b₀ ∧ octet (b₃ ++ b₂ ++ b₁ ++ b₀ : BitVec 32) 1 = b₁ ∧
      octet (b₃ ++ b₂ ++ b₁ ++ b₀ : BitVec 32) 2 = b₂ ∧ octet (b₃ ++ b₂ ++ b₁ ++ b₀ : BitVec 32) 3 = b₃ := by
  refine ⟨?_, ?_, ?_, ?_⟩ <;> ext k hk <;> simp [octet] <;> grind

theorem octetValue_text (a : BitVec 32) (i : Nat) : octetValue (octetText a i) = octet a i := by
  rw [octetValue, octetText, Nat.ofDigitChars_ten_toDigits, BitVec.ofNat_toNat, BitVec.setWidth_eq]

theorem text_octetValue {t : List Char} (h : IsOctet t) : Nat.toDigits 10 (octetValue t).toNat = t := by
  have hsmall := h.small
  rw [octetValue, BitVec.toNat_ofNat, Nat.mod_eq_of_lt (by omega)]
  exact toDigits_ofDigitChars h.digits h.lead h.nonempty

/-- The printed text of an address is parsed back, and a parsed text is printed back. -/
theorem inet_round_trip :
    (∀ (a : BitVec 32) (out : List Print.Byte), 16 ≤ out.length → ∃ text, IsQuad text ∧ text.length ≤ 15 ∧
      inetNtoa out a = some (line text out) ∧ inetAton (line text out) = some a) ∧
    ∀ (text : List Char) (v out : List Print.Byte), IsQuad text → 16 ≤ out.length →
      ∃ a, inetAton (bytes text ++ 0 :: v) = some a ∧ inetNtoa out a = some (line text out) := by
  refine ⟨fun a out hout => ⟨quad a, isQuad_quad a, length_quad (isQuad_quad a), inetNtoa_eq hout, ?_⟩,
    fun text v out htext hout => ?_⟩
  · rw [line, quad, inetAton_eq (isOctet_octetText a 0) (isOctet_octetText a 1) (isOctet_octetText a 2)
      (isOctet_octetText a 3)]
    simp only [octetValue_text, split_address]
  · obtain ⟨t₀, t₁, t₂, t₃, h0, h1, h2, h3, rfl⟩ := htext
    refine ⟨_, inetAton_eq h0 h1 h2 h3, ?_⟩
    obtain ⟨e0, e1, e2, e3⟩ := octet_joined (octetValue t₀) (octetValue t₁) (octetValue t₂) (octetValue t₃)
    rw [inetNtoa_eq hout, quad]
    simp only [octetText, e0, e1, e2, e3, text_octetValue h0, text_octetValue h1, text_octetValue h2, text_octetValue h3]

theorem inet_round_trip_loopback : (∃ text, IsQuad text ∧ text.length ≤ 15 ∧
      inetNtoa (List.replicate 16 0) 0x0100007F = some (line text (List.replicate 16 0)) ∧
      inetAton (line text (List.replicate 16 0)) = some 0x0100007F) ∧
    ∃ a, inetAton (bytes (dotted ['1', '2', '7'] ['0'] ['0'] ['1']) ++ [0]) = some a ∧
      inetNtoa (List.replicate 16 0) a =
        some (line (dotted ['1', '2', '7'] ['0'] ['0'] ['1']) (List.replicate 16 0)) := by
  have hone : IsOctet ['1'] := octet_toDigits (n := 1) (by decide)
  have hzero : IsOctet ['0'] := octet_toDigits (n := 0) (by decide)
  have hmany : IsOctet ['1', '2', '7'] := octet_toDigits (n := 127) (by decide)
  exact ⟨inet_round_trip.1 0x0100007F (List.replicate 16 0) (by decide),
    inet_round_trip.2 _ [] _ ⟨_, _, _, _, hmany, hzero, hzero, hone, rfl⟩ (by decide)⟩

end RoundTrip

end YggKernel.Net
