import YggKernel.Print.Parsers

namespace YggKernel.Print.Parsers

open Lib.Buffers

section Stores

variable {b b' xs : List Byte} {i l : Nat}

theorem store_some {x : Byte} (h : store b i x = some b') : i < b.length ∧ b'.length = b.length := by
  unfold store at h
  by_cases hi : i < b.length
  · rw [if_pos hi] at h
    exact ⟨hi, by rw [← Option.some.inj h, List.length_set]⟩
  · rw [if_neg hi] at h
    cases h

theorem storeAll_some (h : storeAll b i xs = some b') : (xs = [] ∨ i + xs.length ≤ b.length) ∧ b'.length = b.length := by
  induction xs generalizing b i with
  | nil => exact ⟨.inl rfl, by rw [← Option.some.inj h]⟩
  | cons x xs ih =>
    obtain ⟨c, hstore, hrest⟩ := Option.bind_eq_some_iff.mp h
    obtain ⟨hi, hc⟩ := store_some hstore
    obtain ⟨hroom, hlen⟩ := ih hrest
    refine ⟨.inr ?_, hlen.trans hc⟩
    rw [List.length_cons]
    rcases hroom with rfl | hroom
    · exact hi
    · omega

end Stores

/-- A state of the output, and where the macros leave `p`: both have gone on, or both have ended. -/
structure Follows (room len : Nat) (o : Out) (r : Pos) : Prop where
  size : o.buf.length = room
  ended : o.ended = true → r = .ended ∧ o.p = len - 1
  goes : o.ended = false → r = .goes o.p ∧ o.p ≤ room

/-- A piece of output takes states with which a position goes along to such states. -/
def Moves (room len : Nat) (f : Out → Option Out) (g : Nat → Pos) : Prop :=
  ∀ o r o', Follows room len o r → f o = some o' → Follows room len o' (r.bind g)

def Counts (write : List Byte → Nat → Nat → Option (List Byte)) (count : Nat → Nat) : Prop :=
  ∀ b p n b', write b p n = some b' → (count n = 0 ∨ p + count n ≤ b.length) ∧ b'.length = b.length

section Pieces

variable {room len l : Nat} {o o' : Out} {r : Pos} {f f' : Out → Option Out} {g g' : Nat → Pos}

theorem Moves.bind (h : Moves room len f g) (h' : Moves room len f' g') :
    Moves room len (fun o => f o >>= f') fun p => (g p).bind g' := by
  intro o r o' hfollows hrun
  obtain ⟨o₁, hfirst, hsecond⟩ := Option.bind_eq_some_iff.mp hrun
  have hrest := h' o₁ _ o' (h o r o₁ hfollows hfirst) hsecond
  cases r with
  | goes p => exact hrest
  | ended => exact hrest
  | outside => exact hrest

theorem moves_skip : Moves room len some .goes := by
  intro o r o' hfollows hrun
  rw [← Option.some.inj hrun]
  cases r <;> exact hfollows

theorem moves_of_step (hended : ∀ o, o.ended = true → f o = some o)
    (hstep : ∀ o o', o.buf.length = room → o.p ≤ room → o.ended = false → f o = some o' → Follows room len o' (g o.p)) :
    Moves room len f g := by
  intro o r o' hfollows hrun
  cases hend : o.ended with
  | true =>
    rw [hended o hend] at hrun
    obtain ⟨rfl, hp⟩ := hfollows.ended hend
    rw [← Option.some.inj hrun]
    exact hfollows
  | false =>
    obtain ⟨rfl, hp⟩ := hfollows.goes hend
    exact hstep o o' hfollows.size hp hend hrun

section Bounds

variable (hpos : 0 < len) (hlen : len ≤ room) (hroom : room ≤ 2 ^ 31)
include hpos hlen hroom

theorem moves_putc (c : Byte) : Moves room len (putc len c) (putcAt room len) := by
  have hlast : sub32 len 1 = len - 1 := sub32_of_le (by omega) hpos
  refine moves_of_step (fun o hend => if_pos hend) fun o o' hsize hp hend hrun => ?_
  rw [putc, if_neg (by rw [hend]; decide)] at hrun
  unfold putcAt
  rw [hlast]
  by_cases hfull : o.p = len - 1
  · rw [if_pos hfull] at hrun
    rw [if_pos hfull, ← Option.some.inj hrun]
    exact ⟨hsize, fun _ => ⟨rfl, hfull⟩, fun hgoes => Bool.noConfusion hgoes⟩
  · rw [if_neg hfull] at hrun
    obtain ⟨b, hstore, hout⟩ := Option.bind_eq_some_iff.mp hrun
    obtain ⟨hinside, hb⟩ := store_some hstore
    have hnext : u32 (o.p + 1) = o.p + 1 := u32_of_lt (by omega)
    rw [if_neg hfull, stored, if_pos (.inr (by omega)), hnext, ← Option.some.inj hout]
    exact ⟨hb.trans hsize, fun hended => Bool.noConfusion hended, fun _ => ⟨rfl, show o.p + 1 ≤ room by omega⟩⟩

theorem moves_piece {write : List Byte → Nat → Nat → Option (List Byte)} {count : Nat → Nat} (hcounts : Counts write count)
    (hl : count l = l) (hsmall : l < 2 ^ 31) : Moves room len (piece len l write) (pieceAt room len count l) := by
  have hlast : sub32 len 1 = len - 1 := sub32_of_le (by omega) hpos
  refine moves_of_step (fun o hend => if_pos hend) fun o o' hsize hp hend hrun => ?_
  rw [piece, if_neg (by rw [hend]; decide)] at hrun
  unfold pieceAt
  rw [hlast, u32_of_lt (show o.p + l < 4294967296 by omega), u32_of_lt (show len + 1 < 4294967296 by omega)]
  by_cases hfits : o.p + l < len + 1
  · rw [if_pos hfits] at hrun
    obtain ⟨b, hwrite, hout⟩ := Option.bind_eq_some_iff.mp hrun
    obtain ⟨hinside, hb⟩ := hcounts _ _ _ _ hwrite
    rw [if_pos hfits, stored, if_pos (by rwa [← hsize]), ← Option.some.inj hout]
    refine ⟨hb.trans hsize, fun hended => Bool.noConfusion hended, fun _ => ⟨rfl, show o.p + l ≤ room by omega⟩⟩
  · rw [if_neg hfits] at hrun
    obtain ⟨b, hwrite, hout⟩ := Option.bind_eq_some_iff.mp hrun
    obtain ⟨hinside, hb⟩ := hcounts _ _ _ _ hwrite
    rw [if_neg hfits, stored, if_pos (by rwa [← hsize]), ← Option.some.inj hout]
    exact ⟨hb.trans hsize, fun _ => ⟨rfl, rfl⟩, fun hgoes => Bool.noConfusion hgoes⟩

theorem moves_pad (padc : Byte) (hsmall : l < 2 ^ 31) : Moves room len (putPad len padc l) (padAt room len l) := by
  refine moves_piece hpos hlen hroom (fun b p n b' hwrite => ?_) rfl hsmall
  obtain ⟨hinside, hb⟩ := storeAll_some hwrite
  rw [List.length_replicate] at hinside
  exact ⟨hinside.imp (fun hnil => by simpa using hnil) id, hb⟩

theorem moves_text (s : List Byte) (hsmall : s.length < 2 ^ 31) :
    Moves room len (putText len s s.length) (textAt room len s.length) := by
  refine moves_piece hpos hlen hroom (fun b p n b' hwrite => ?_) (if_neg (lt_irrefl _)) hsmall
  obtain ⟨c, hfront, hrest⟩ := Option.bind_eq_some_iff.mp hwrite
  obtain ⟨hinside, hc⟩ := storeAll_some hfront
  by_cases hshort : s.length < n
  · rw [if_pos hshort] at hrest
    obtain ⟨hlast, hb⟩ := store_some hrest
    rw [if_pos hshort]
    exact ⟨.inr (by omega), hb.trans hc⟩
  · rw [if_neg hshort] at hrest
    rw [if_neg hshort]
    rw [List.length_take, Nat.min_eq_left (not_lt.mp hshort)] at hinside
    refine ⟨hinside.imp (fun hnil => ?_) id, (Option.some.inj hrest) ▸ hc⟩
    have hzero := congrArg List.length hnil
    rwa [List.length_take, Nat.min_eq_left (not_lt.mp hshort)] at hzero

theorem moves_puts (int : Bool) {padn : Int} {w : BitVec 32} (hw : w.toInt = padn) (hleast : -2 ^ 31 < padn) (padc : Byte)
    (s : List Byte) (hsmall : s.length < 2 ^ 31) :
    Moves room len (puts len padn padc s s.length) (putsAt room len int w s.length) := by
  have htext := moves_text hpos hlen hroom s hsmall
  have hmost := BitVec.toInt_lt (x := w)
  have hpadded : ∀ {k : Int}, k = padn ∨ k = -padn → Moves room len
      (fun o => if (s.length : Int) < k then putPad len padc (k - s.length).toNat o else some o)
      fun p => if s.length < k.toNat then padAt room len (k.toNat - s.length) p else .goes p := by
    intro k hk
    by_cases hlt : (s.length : Int) < k
    · have hcount : k.toNat - s.length = (k - s.length).toNat := by omega
      simp only [if_pos hlt, if_pos (show s.length < k.toNat by omega), hcount]
      exact moves_pad hpos hlen hroom padc (by omega)
    · simp only [if_neg hlt, if_neg (show ¬s.length < k.toNat by omega)]
      exact moves_skip
  unfold puts putsAt
  rw [hw]
  by_cases hsign : 0 ≤ padn
  · have hnat : w.toNat = padn.toNat := by
      rw [← hw, BitVec.toInt_eq_toNat_of_lt]
      · rfl
      · have := BitVec.toInt_eq_toNat_cond w
        split at this <;> omega
    simp only [if_pos hsign, ge_iff_le, hnat]
    refine fun o r o' hfollows hrun => (hpadded (.inl rfl)).bind htext o r o' hfollows ?_
    rw [← hrun]
    dsimp only
    by_cases hlt : (s.length : Int) < padn
    · rw [if_pos hlt, if_pos hlt]
    · rw [if_neg hlt, if_neg hlt]
  · have hint : (-w).toInt = -padn := by
      rw [BitVec.toInt_neg_of_ne_intMin, hw]
      rintro rfl
      rw [← hw] at hleast
      exact absurd hleast (by decide)
    have hnat : (-w).toNat = (-padn).toNat := by
      rw [← hint, BitVec.toInt_eq_toNat_of_lt]
      · rfl
      · have := BitVec.toInt_eq_toNat_cond (-w)
        split at this <;> omega
    have hcompared : (if int = true then (s.length : Int) < -padn else s.length < (-padn).toNat) ↔
        s.length < (-padn).toNat := by
      cases int with
      | true =>
        rw [if_pos rfl]
        omega
      | false => rfl
    simp only [if_neg hsign, ge_iff_le, hint, hnat, hcompared]
    exact htext.bind (hpadded (.inr rfl))

end Bounds

end Pieces

section Conversions

variable {room len : Nat} {cbuf : List Byte} {padn : Int} {w : BitVec 32} {padc c : Byte} {o o' : Out} {args args' : List Arg}

theorem length_localBuf : localBuf.length = 64 := List.length_replicate

theorem length_decimal_le {z : Int} (h : z.natAbs < 2 ^ 64) : (decimal z).length ≤ 21 := by
  have hdigits := length_toDigits_le h
  unfold decimal
  split
  · exact Nat.succ_le_succ hdigits
  · omega

theorem length_hexadecimal_le (upper : Bool) (v : BitVec 32) : (hexadecimal upper v.toNat).length ≤ 8 := by
  have hdigits : (Nat.toDigits 16 v.toNat).length ≤ 8 :=
    (Nat.length_toDigits_le_iff (by decide) (by decide)).mpr (v.isLt.trans_le (by decide))
  unfold hexadecimal
  split
  · rwa [List.length_map]
  · exact hdigits

structure Printed (x : List Byte → Option (List Byte × Nat)) (t : List Char) : Prop where
  line : ∀ cbuf, cbuf.length = 64 → x cbuf = some (line t cbuf, t.length)
  noNul : (0 : Byte) ∉ bytes t
  short : t.length ≤ 21

theorem printed_signed (v : BitVec 32) : Printed (printDs (v.signExtend 64) · true true) (decimal v.toInt) := by
  have hlow := BitVec.le_toInt v
  have hhigh := BitVec.toInt_lt (x := v)
  exact ⟨fun _ hcbuf => printDs_signed hcbuf v, decimal_noNul _, length_decimal_le (by omega)⟩

theorem printed_unsigned (v : BitVec 32) : Printed (printDs (v.setWidth 64) · false true) (decimal v.toNat) := by
  have hlt := v.isLt
  exact ⟨fun _ hcbuf => printDs_unsigned hcbuf v, decimal_noNul _, length_decimal_le (by omega)⟩

theorem printed_hexadecimal (upper : Bool) {set : List Byte} (hset : (if upper then set1 else set0) = set) (v : BitVec 32) :
    Printed (printXs (v.setWidth 64) · set) (hexadecimal upper v.toNat) :=
  ⟨fun _ hcbuf => hset ▸ printXs_word hcbuf upper v, hexadecimal_noNul _ _,
    (length_hexadecimal_le upper v).trans (by decide)⟩

theorem word_of_convert (hs : c ≠ ascii 's') (hl : c ≠ ascii 'l') (hmem : c ∈ bytes ['p', 'i', 'd', 'u', 'x', 'X', 'c'])
    (h : convert len cbuf padn padc c args o = some (o', args')) : ∃ v rest, args = .word v :: rest := by
  unfold convert at h
  rw [if_neg hs, if_neg hl] at h
  cases args with
  | nil =>
    dsimp only at h
    rw [if_pos hmem] at h
    cases h
  | cons a args =>
    cases a with
    | str s =>
      dsimp only at h
      rw [if_pos hmem] at h
      cases h
    | word v => exact ⟨v, args, rfl⟩

theorem convert_unknown (hs : c ≠ ascii 's') (hl : c ≠ ascii 'l') (hmem : c ∉ bytes ['p', 'i', 'd', 'u', 'x', 'X', 'c']) :
    convert len cbuf padn padc c args o = do return (← putc len c (← putc len (ascii '%') o), args) := by
  unfold convert
  rw [if_neg hs, if_neg hl]
  cases args with
  | nil =>
    dsimp only
    rw [if_neg hmem]
  | cons a args =>
    cases a with
    | str s =>
      dsimp only
      rw [if_neg hmem]
    | word v =>
      simp only [bytes, List.map_cons, List.map_nil, List.mem_cons, List.not_mem_nil, or_false, not_or] at hmem
      obtain ⟨h1, h2, h3, h4, h5, h6, h7⟩ := hmem
      dsimp only
      rw [if_neg h1, if_neg (not_or.mpr ⟨h2, h3⟩), if_neg h4, if_neg h5, if_neg h6, if_neg h7]

theorem goes_puts {f : Nat → Except Misread Pos} {g : Nat → Pos} (h : ∀ p, f p = .ok (g p)) (q : Pos) :
    (match q with
      | .goes p => f p
      | r => .ok r) = .ok (q.bind g) := by
  cases q with
  | goes p => exact h p
  | ended => rfl
  | outside => rfl

section Bounds

variable (hpos : 0 < len) (hlen : len ≤ room) (hroom : room ≤ 2 ^ 31) (hcbuf : cbuf.length = 64)
include hpos hlen hroom

theorem percent_follows {r : Pos} (hf : Follows room len o r)
    (h : (do return (← putc len c (← putc len (ascii '%') o), args)) = some (o', args')) :
    Follows room len o' (r.bind fun p => (putcAt room len p).bind (putcAt room len)) ∧ args' = args := by
  obtain ⟨o₁, hfirst, hrest⟩ := Option.bind_eq_some_iff.mp h
  obtain ⟨o₂, hsecond, hout⟩ := Option.bind_eq_some_iff.mp hrest
  obtain ⟨rfl, rfl⟩ := Prod.mk.inj (Option.some.inj hout)
  have htwo := (moves_putc hpos hlen hroom (ascii '%')).bind (moves_putc hpos hlen hroom c)
  exact ⟨htwo o r o₂ hf (Option.bind_eq_some_iff.mpr ⟨o₁, hfirst, hsecond⟩), rfl⟩

theorem text_follows (hstrings : ∀ s, .str (some s) ∈ args → s.length < 2 ^ 31) (hw : w.toInt = padn)
    (hleast : -2 ^ 31 < padn) (hf : Follows room len o (.goes o.p))
    (h : convert len cbuf padn padc (ascii 's') args o = some (o', args')) :
    ∃ r, vsnprintfConversion room len w (ascii 's') args o.p = .ok (r, args') ∧ Follows room len o' r ∧ args' <:+ args := by
  have hnull : (bytes ['(', 'n', 'u', 'l', 'l', ')']).length = 6 := rfl
  unfold vsnprintfConversion
  unfold convert at h
  rw [if_pos rfl] at h
  rw [if_neg (by decide), if_pos rfl]
  cases args with
  | nil => cases h
  | cons a args =>
    cases a with
    | word v => cases h
    | str s =>
      cases s with
      | none =>
        obtain ⟨o₁, hputs, hout⟩ := Option.bind_eq_some_iff.mp h
        obtain ⟨rfl, rfl⟩ := Prod.mk.inj (Option.some.inj hout)
        have hmoves := moves_puts hpos hlen hroom true hw hleast padc (bytes ['(', 'n', 'u', 'l', 'l', ')']) (by rw [hnull]; decide)
        exact ⟨_, rfl, hmoves o _ o₁ hf hputs, List.suffix_cons ..⟩
      | some s =>
        obtain ⟨o₁, hputs, hout⟩ := Option.bind_eq_some_iff.mp h
        obtain ⟨rfl, rfl⟩ := Prod.mk.inj (Option.some.inj hout)
        have hmoves := moves_puts hpos hlen hroom false hw hleast padc s (hstrings s (List.mem_cons_self ..))
        exact ⟨_, rfl, hmoves o _ o₁ hf hputs, List.suffix_cons ..⟩

include hcbuf

theorem number_follows {x : List Byte → Option (List Byte × Nat)} {t : List Char} {r : Pos} (hx : Printed x t)
    (hw : w.toInt = padn) (hleast : -2 ^ 31 < padn) (hf : Follows room len o r)
    (h : ((x cbuf).bind fun b => (puts len padn padc (cstr b.1) b.2 o).bind fun o => some (o, args)) = some (o', args')) :
    (∀ p, putsNumber room len w (x localBuf) p = .ok (putsAt room len true w t.length p)) ∧
      Follows room len o' (r.bind (putsAt room len true w t.length)) ∧ args' = args := by
  have hsize : t.length = (bytes t).length := (List.length_map _).symm
  have hshort := hx.short
  rw [hx.line cbuf hcbuf, Option.bind_some] at h
  obtain ⟨o₁, hputs, hout⟩ := Option.bind_eq_some_iff.mp h
  obtain ⟨rfl, rfl⟩ := Prod.mk.inj (Option.some.inj hout)
  rw [cstr_line hx.noNul, hsize] at hputs
  rw [hx.line localBuf length_localBuf, hsize]
  exact ⟨fun p => rfl, moves_puts hpos hlen hroom true hw hleast padc (bytes t) (by omega) o r o₁ hf hputs, rfl⟩

theorem word_follows {v : BitVec 32} (hc : isOneOf ['p', 'i', 'd', 'u', 'x', 'X', 'c'] c) (hw : w.toInt = padn)
    (hleast : -2 ^ 31 < padn) (hf : Follows room len o (.goes o.p))
    (h : convert len cbuf padn padc c (.word v :: args) o = some (o', args')) :
    ∃ r, vsnprintfWord room len w c v o.p = .ok r ∧ Follows room len o' r ∧ args' = args := by
  have hs : c ≠ ascii 's' := by
    rintro rfl
    exact absurd hc (by decide)
  have hl : c ≠ ascii 'l' := by
    rintro rfl
    exact absurd hc (by decide)
  unfold convert at h
  rw [if_neg hs, if_neg hl] at h
  dsimp only at h
  unfold vsnprintfWord
  by_cases hpointer : c = ascii 'p'
  · rw [if_pos hpointer] at h ⊢
    obtain ⟨o₁, hfirst, hrest⟩ := Option.bind_eq_some_iff.mp h
    obtain ⟨o₂, hsecond, hnumber⟩ := Option.bind_eq_some_iff.mp hrest
    have htwo := (moves_putc hpos hlen hroom (ascii '0')).bind (moves_putc hpos hlen hroom (ascii 'x'))
    have hf₂ := htwo o _ o₂ hf (Option.bind_eq_some_iff.mpr ⟨o₁, hfirst, hsecond⟩)
    obtain ⟨hputs, hf', hargs⟩ := number_follows hpos hlen hroom hcbuf (printed_hexadecimal false rfl v)
      (w := 8) rfl (by decide) hf₂ hnumber
    exact ⟨_, goes_puts hputs _, hf', hargs⟩
  rw [if_neg hpointer] at h ⊢
  by_cases hsigned : c = ascii 'i' ∨ c = ascii 'd'
  · rw [if_pos hsigned] at h ⊢
    obtain ⟨hputs, hf', hargs⟩ := number_follows hpos hlen hroom hcbuf (printed_signed v) hw hleast hf h
    exact ⟨_, hputs o.p, hf', hargs⟩
  rw [if_neg hsigned] at h ⊢
  by_cases hunsigned : c = ascii 'u'
  · rw [if_pos hunsigned] at h ⊢
    obtain ⟨hputs, hf', hargs⟩ := number_follows hpos hlen hroom hcbuf (printed_unsigned v) hw hleast hf h
    exact ⟨_, hputs o.p, hf', hargs⟩
  rw [if_neg hunsigned] at h ⊢
  by_cases hlower : c = ascii 'x'
  · rw [if_pos hlower] at h ⊢
    obtain ⟨hputs, hf', hargs⟩ := number_follows hpos hlen hroom hcbuf (printed_hexadecimal false rfl v) hw hleast hf h
    exact ⟨_, hputs o.p, hf', hargs⟩
  rw [if_neg hlower] at h ⊢
  by_cases hupper : c = ascii 'X'
  · rw [if_pos hupper] at h ⊢
    obtain ⟨hputs, hf', hargs⟩ := number_follows hpos hlen hroom hcbuf (printed_hexadecimal true rfl v) hw hleast hf h
    exact ⟨_, hputs o.p, hf', hargs⟩
  rw [if_neg hupper] at h ⊢
  have hchar : c = ascii 'c' := by
    simp only [isOneOf, List.any_cons, List.any_nil, Bool.or_eq_true, decide_eq_true_eq, Bool.or_false] at hc
    tauto
  rw [if_pos hchar] at h
  obtain ⟨o₁, hputc, hout⟩ := Option.bind_eq_some_iff.mp h
  obtain ⟨rfl, rfl⟩ := Prod.mk.inj (Option.some.inj hout)
  exact ⟨_, rfl, moves_putc hpos hlen hroom _ o _ o₁ hf hputc, rfl⟩

theorem convert_follows (hstrings : ∀ s, .str (some s) ∈ args → s.length < 2 ^ 31) (hw : w.toInt = padn)
    (hleast : -2 ^ 31 < padn) (hf : Follows room len o (.goes o.p)) (h : convert len cbuf padn padc c args o = some (o', args')) :
    ∃ r, vsnprintfConversion room len w c args o.p = .ok (r, args') ∧ Follows room len o' r ∧ args' <:+ args := by
  by_cases hs : c = ascii 's'
  · subst hs
    exact text_follows hpos hlen hroom hstrings hw hleast hf h
  by_cases hl : c = ascii 'l'
  · unfold convert at h
    rw [if_neg hs, if_pos hl] at h
    cases h
  unfold vsnprintfConversion
  rw [if_neg hl, if_neg hs]
  by_cases hc : isOneOf ['p', 'i', 'd', 'u', 'x', 'X', 'c'] c
  · rw [if_pos hc]
    have hmem : c ∈ bytes ['p', 'i', 'd', 'u', 'x', 'X', 'c'] := by
      simpa [isOneOf, bytes] using hc
    obtain ⟨v, rest, rfl⟩ := word_of_convert hs hl hmem h
    obtain ⟨r, hword, hf', rfl⟩ := word_follows hpos hlen hroom hcbuf hc hw hleast hf h
    dsimp only
    rw [hword]
    exact ⟨r, rfl, hf', List.suffix_cons ..⟩
  · rw [if_neg hc]
    have hmem : c ∉ bytes ['p', 'i', 'd', 'u', 'x', 'X', 'c'] := fun hmem => hc (by
      simpa [isOneOf, bytes] using hmem)
    rw [convert_unknown hs hl hmem] at h
    obtain ⟨hf', rfl⟩ := percent_follows hpos hlen hroom hf h
    exact ⟨_, rfl, hf', List.suffix_rfl⟩

end Bounds

end Conversions

section Directives

variable {fmt rest : List Byte} {padn : Int} {padc padc' c : Byte} {n v : Nat}

theorem digit_value {c : Byte} (h : ascii '0' ≤ c ∧ c ≤ ascii '9') : (c - ascii '0').toNat ≤ 9 := by
  obtain ⟨hlow, hhigh⟩ := h
  rw [BitVec.le_def] at hlow hhigh
  rw [BitVec.toNat_sub_of_le (BitVec.le_def.mpr hlow)]
  have hzero : (ascii '0').toNat = 48 := rfl
  have hnine : (ascii '9').toNat = 57 := rfl
  omega

theorem width_follows (h : width n fmt = some (v, c :: rest)) :
    widthLoop 1 (BitVec.ofNat 32 n) (fmt ++ [0]) = .ok (BitVec.ofNat 32 v, c, rest ++ [0]) ∧ c :: rest <:+ fmt ∧
      (n < 2 ^ 31 → v < 2 ^ 31) := by
  induction fmt generalizing n with
  | nil => cases h
  | cons d fmt ih =>
    rw [width] at h
    rw [List.cons_append, widthLoop]
    by_cases hd : ascii '0' ≤ d ∧ d ≤ ascii '9'
    · rw [if_pos hd] at h
      have hdigit := digit_value hd
      by_cases hsmall : n * 10 + (d - ascii '0').toNat < 2 ^ 31
      · rw [if_pos hsmall] at h
        obtain ⟨hrest, hsuffix, hv⟩ := ih h
        have hnext : BitVec.ofNat 32 n * 10 + 1 * (d - ascii '0').setWidth 32 =
            BitVec.ofNat 32 (n * 10 + (d - ascii '0').toNat) := by
          have hone : 1 * (d - ascii '0').setWidth 32 = (d - ascii '0').setWidth 32 := BitVec.one_mul _
          have hten : (10 : BitVec 32).toNat = 10 := rfl
          apply BitVec.eq_of_toNat_eq
          rw [hone, BitVec.toNat_add, BitVec.toNat_mul, BitVec.toNat_setWidth, BitVec.toNat_ofNat, BitVec.toNat_ofNat, hten]
          omega
        rw [isDigit, if_pos (decide_eq_true hd), hnext]
        exact ⟨hrest, hsuffix.trans (List.suffix_cons ..), fun _ => hv hsmall⟩
      · rw [if_neg hsmall] at h
        cases h
    · rw [if_neg hd] at h
      obtain ⟨rfl, hcons⟩ := Prod.mk.inj (Option.some.inj h)
      obtain ⟨rfl, rfl⟩ := List.cons.inj hcons
      rw [isDigit, if_neg fun hdec => hd (of_decide_eq_true hdec)]
      exact ⟨rfl, List.suffix_rfl, id⟩

theorem sized_follows {pads : Int} {s : BitVec 32} (hpads : pads = 1 ∧ s = 1 ∨ pads = -1 ∧ s = -1) (h : sized pads padc' fmt = some (padn, padc, c, rest)) :
    ∃ w : BitVec 32, widthLoop 1 0 (fmt ++ [0]) = .ok (w, c, rest ++ [0]) ∧ c :: rest <:+ fmt ∧
      (w * s).toInt = padn ∧ -2 ^ 31 < padn := by
  obtain ⟨⟨v, out⟩, hwidth, hout⟩ := Option.bind_eq_some_iff.mp h
  cases out with
  | nil => cases hout
  | cons d out =>
    obtain ⟨rfl, hrest⟩ := Prod.mk.inj (Option.some.inj hout)
    obtain ⟨rfl, rfl⟩ := Prod.mk.inj (Prod.mk.inj hrest).2
    obtain ⟨hloop, hsuffix, hv⟩ := width_follows hwidth
    have hsmall := hv (by decide)
    have hnat : (BitVec.ofNat 32 v).toNat = v := by
      rw [BitVec.toNat_ofNat]
      omega
    have hint : (BitVec.ofNat 32 v).toInt = v := by
      rw [BitVec.toInt_eq_toNat_of_lt (by omega), hnat]
    have hone : BitVec.ofNat 32 v * 1 = BitVec.ofNat 32 v := BitVec.mul_one _
    have hneg : BitVec.ofNat 32 v * -1 = -BitVec.ofNat 32 v := (BitVec.mul_neg _ _).trans (congrArg Neg.neg hone)
    refine ⟨_, hloop, hsuffix, ?_, ?_⟩
    · rcases hpads with ⟨rfl, rfl⟩ | ⟨rfl, rfl⟩
      · rw [hone, hint, mul_one]
      · have hmin : BitVec.ofNat 32 v ≠ BitVec.intMin 32 := fun hmin => by
          rw [hmin] at hint
          have : (BitVec.intMin 32).toInt = -2147483648 := rfl
          omega
        rw [hneg, BitVec.toInt_neg_of_ne_intMin hmin, hint]
        omega
    · rcases hpads with ⟨rfl, -⟩ | ⟨rfl, -⟩ <;> omega

theorem aligned_follows (h : aligned padc' fmt = some (padn, padc, c, rest)) :
    ∃ w : BitVec 32, widthLoop 1 0 (skip (ascii '-') (fmt ++ [0])) = .ok (w, c, rest ++ [0]) ∧ c :: rest <:+ fmt ∧
      (w * sign (fmt ++ [0])).toInt = padn ∧ -2 ^ 31 < padn := by
  unfold aligned at h
  rw [skip_append (by decide), sign_append, skip, sign]
  by_cases hminus : fmt.head? = some (ascii '-')
  · rw [if_pos hminus] at h
    rw [if_pos hminus, if_pos hminus]
    obtain ⟨w, hloop, hsuffix, hw⟩ := sized_follows (.inr ⟨rfl, rfl⟩) h
    exact ⟨w, hloop, hsuffix.trans (List.tail_suffix fmt), hw⟩
  · rw [if_neg hminus] at h
    rw [if_neg hminus, if_neg hminus]
    exact sized_follows (.inl ⟨rfl, rfl⟩) h

theorem directive_follows (h : directive fmt = some (padn, padc, c, rest)) :
    ∃ w : BitVec 32, widthLoop 1 0 (skip (ascii '-') (skip (ascii '0') (fmt ++ [0]))) = .ok (w, c, rest ++ [0]) ∧
      c :: rest <:+ fmt ∧ (w * sign (skip (ascii '0') (fmt ++ [0]))).toInt = padn ∧ -2 ^ 31 < padn := by
  rw [skip_append (by decide)]
  unfold directive at h
  by_cases hzero : fmt.head? = some (ascii '0')
  · have hskip : skip (ascii '0') fmt = fmt.tail := if_pos hzero
    rw [if_pos hzero] at h
    obtain ⟨w, hloop, hsuffix, hw⟩ := aligned_follows h
    rw [hskip]
    exact ⟨w, hloop, hsuffix.trans (List.tail_suffix fmt), hw⟩
  · have hskip : skip (ascii '0') fmt = fmt := if_neg hzero
    rw [if_neg hzero] at h
    rw [hskip]
    exact aligned_follows h

end Directives

section Calls

variable {len room : Nat} {buf b cbuf fmt : List Byte} {o o' : Out} {args : List Arg} {r : Int}

/-- Behind an output that has ended the one loop stops, and the other jumps to its end. -/
theorem Follows.resume {k n : Nat} {q : Pos} (hpos : 0 < len) (hlen : len ≤ 2 ^ 31) (hf : Follows room len o q)
    (h : formatLoop len cbuf n fmt args o = some o')
    (hrest : o.ended = false → vsnprintfLoop room len k (fmt ++ [0]) args o.p = .ok o'.p) :
    (match q with
      | .goes p => vsnprintfLoop room len k (fmt ++ [0]) args p
      | .ended => .ok (sub32 len 1)
      | .outside => .error .buffer) = .ok o'.p := by
  have hlast : sub32 len 1 = len - 1 := sub32_of_le (by omega) hpos
  cases hend : o.ended with
  | true =>
    obtain ⟨rfl, hp⟩ := hf.ended hend
    cases n with
    | zero => cases h
    | succ n =>
      rw [formatLoop_ended n fmt args hend] at h
      dsimp only
      rw [hlast, ← hp, Option.some.inj h]
  | false =>
    obtain ⟨rfl, -⟩ := hf.goes hend
    exact hrest hend

theorem loop_follows {n k : Nat} (hpos : 0 < len) (hlen : len ≤ room) (hroom : room ≤ 2 ^ 31) (hcbuf : cbuf.length = 64)
    (hnul : (0 : Byte) ∉ fmt) (hstrings : ∀ s, .str (some s) ∈ args → s.length < 2 ^ 31) (hgoing : o.ended = false)
    (hf : Follows room len o (.goes o.p)) (h : formatLoop len cbuf n fmt args o = some o') (hk : n ≤ k) :
    vsnprintfLoop room len k (fmt ++ [0]) args o.p = .ok o'.p := by
  induction n generalizing k fmt args o with
  | zero => cases h
  | succ n ih =>
    obtain ⟨k, rfl⟩ := Nat.exists_eq_add_one.mpr (show 0 < k by omega)
    have hnext : ∀ {fmt' : List Byte} {args' : List Arg} {o₁ : Out} {q : Pos}, fmt' <:+ fmt → args' <:+ args →
        Follows room len o₁ q → formatLoop len cbuf n fmt' args' o₁ = some o' → (match q with
          | .goes p => vsnprintfLoop room len k (fmt' ++ [0]) args' p
          | .ended => .ok (sub32 len 1)
          | .outside => .error .buffer) = .ok o'.p := by
      intro fmt' args' o₁ q hfmt hargs hf₁ hloop
      refine hf₁.resume hpos (hlen.trans hroom) hloop fun hgoing₁ => ?_
      have hq := (hf₁.goes hgoing₁).1
      exact ih (fun hmem => hnul (hfmt.subset hmem)) (fun s hs => hstrings s (hargs.subset hs)) hgoing₁ (hq ▸ hf₁) hloop
        (by omega)
    cases fmt with
    | nil =>
      rw [formatLoop, if_neg (by rw [hgoing]; decide)] at h
      rw [← Option.some.inj h]
      rfl
    | cons c fmt =>
      rw [List.mem_cons, not_or] at hnul
      rw [List.cons_append, vsnprintfLoop, if_neg (Ne.symm hnul.1)]
      by_cases hpercent : c = ascii '%'
      · subst hpercent
        rw [formatLoop_percent n fmt hgoing] at h
        obtain ⟨⟨padn, padc, c, rest⟩, hdirective, h⟩ := Option.bind_eq_some_iff.mp h
        obtain ⟨⟨o₁, args₁⟩, hconvert, h⟩ := Option.bind_eq_some_iff.mp h
        obtain ⟨w, hwidth, hsuffix, hw, hleast⟩ := directive_follows hdirective
        obtain ⟨q, hconversion, hf₁, hargs⟩ := convert_follows hpos hlen hroom hcbuf hstrings hw hleast hf hconvert
        rw [if_pos rfl]
        dsimp only [bind, Except.bind]
        rw [hwidth]
        dsimp only
        rw [hconversion]
        exact hnext (((List.suffix_cons c rest).trans hsuffix).trans (List.suffix_cons ..)) hargs hf₁ h
      · rw [formatLoop_char n fmt hgoing hpercent] at h
        obtain ⟨o₁, hputc, h⟩ := Option.bind_eq_some_iff.mp h
        rw [if_neg hpercent]
        exact hnext (List.suffix_cons ..) List.suffix_rfl (moves_putc hpos hlen hroom c o _ o₁ hf hputc) h

/-- Where the model with the contents of the buffer has a result, the model without them has the position of
the terminator, which is that result. -/
theorem vsnprintf_follows (hpos : 0 < len) (hlen : len ≤ buf.length) (hroom : buf.length ≤ 2 ^ 31) (hcbuf : cbuf.length = 64)
    (hnul : (0 : Byte) ∉ fmt) (hstrings : ∀ s, .str (some s) ∈ args → s.length < 2 ^ 31)
    (h : Print.vsnprintf buf len cbuf fmt args = some (r, b)) :
    ∃ p, vsnprintf buf.length len (fmt ++ [0]) args = .ok p ∧ r = (p : Int).bmod (2 ^ 32) := by
  obtain ⟨o, hloop, h⟩ := Option.bind_eq_some_iff.mp h
  obtain ⟨b', -, hout⟩ := Option.bind_eq_some_iff.mp h
  refine ⟨o.p, ?_, (Prod.mk.inj (Option.some.inj hout)).1.symm⟩
  rw [vsnprintf, List.length_append]
  exact loop_follows (o := ⟨buf, 0, false⟩) hpos hlen hroom hcbuf hnul hstrings rfl
    ⟨rfl, fun hended => Bool.noConfusion hended, fun _ => ⟨rfl, Nat.zero_le _⟩⟩ hloop (Nat.le_succ _)

end Calls

end YggKernel.Print.Parsers
