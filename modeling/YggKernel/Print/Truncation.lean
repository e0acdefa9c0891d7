import YggKernel.Print.Format

namespace YggKernel.Print

open Lib.Buffers

section Pieces

variable {len : Nat} {o : Out}

def Piece.run (len : Nat) : Piece → Out → Option Out
  | .char c => putc len c
  | .pad c padd => putPad len c padd
  | .text s => putText len s s.length
  | .overflow => fun o => if o.ended then some o else none

def runPieces (len : Nat) : List Piece → Out → Option Out
  | [], o => some o
  | q :: qs, o => do runPieces len qs (← q.run len o)

theorem run_ended (q : Piece) (h : o.ended = true) : q.run len o = some o := by
  cases q <;> exact if_pos h

theorem runPieces_ended (qs : List Piece) (h : o.ended = true) : runPieces len qs o = some o := by
  induction qs with
  | nil => rfl
  | cons q qs ih => rw [runPieces, run_ended q h]; exact ih

theorem runPieces_append (qs rs : List Piece) (o : Out) :
    runPieces len (qs ++ rs) o = (runPieces len qs o).bind (runPieces len rs) := by
  induction qs generalizing o with
  | nil => rfl
  | cons q qs ih =>
    rw [List.cons_append, runPieces, runPieces]
    cases q.run len o with
    | none => rfl
    | some o' => exact ih o'

theorem runPieces_singleton (q : Piece) (o : Out) : runPieces len [q] o = q.run len o := by
  rw [runPieces]
  cases q.run len o <;> rfl

theorem puts_eq (left : Bool) (padn : Nat) (padc : Byte) (s : List Byte) (o : Out) :
    puts len (padn * if left then -1 else 1) padc s s.length o = runPieces len (padded left padn padc s) o := by
  unfold puts padded
  by_cases hpad : s.length < padn
  · cases left with
    | false =>
      have hcount : ((padn : Int) * 1 - s.length).toNat = padn - s.length := by omega
      rw [if_neg Bool.false_ne_true, if_pos hpad, if_neg Bool.false_ne_true, if_pos (by omega), if_pos (by omega), hcount,
        runPieces]
      dsimp only [bind, Option.bind, Piece.run]
      cases putPad len padc (padn - s.length) o with
      | none => rfl
      | some o' => exact (runPieces_singleton (.text s) o').symm
    | true =>
      have hcount : (-((padn : Int) * -1) - s.length).toNat = padn - s.length := by omega
      rw [if_pos rfl, if_pos hpad, if_pos rfl, if_neg (by omega), hcount, runPieces]
      dsimp only [bind, Option.bind, Piece.run]
      cases putText len s s.length o with
      | none => rfl
      | some o' =>
        dsimp only
        rw [if_pos (by omega)]
        exact (runPieces_singleton (.pad padc (padn - s.length)) o').symm
  · rw [if_neg hpad, runPieces_singleton]
    cases left with
    | false =>
      rw [if_neg Bool.false_ne_true, if_pos (by omega), if_neg (by omega)]
      rfl
    | true =>
      rw [if_pos rfl]
      by_cases hzero : padn = 0
      · rw [if_pos (by omega), if_neg (by omega)]
        rfl
      · rw [if_neg (by omega)]
        dsimp only [bind, Option.bind, Piece.run]
        cases putText len s s.length o with
        | none => rfl
        | some o' => exact if_neg (by omega)

end Pieces

section Parsing

variable {opts : Options} {k : Byte} {rest : List Byte}

def IsLetter (k : Byte) : Prop := ¬(ascii '0' ≤ k ∧ k ≤ ascii '9') ∧ k ≠ ascii '-'

instance (k : Byte) : Decidable (IsLetter k) :=
  inferInstanceAs (Decidable (¬(ascii '0' ≤ k ∧ k ≤ ascii '9') ∧ k ≠ ascii '-'))

theorem digitByte_range (d : Fin 10) : ascii '0' ≤ digitByte d ∧ digitByte d ≤ ascii '9' := by
  revert d
  decide

theorem digitByte_value (d : Fin 10) : (digitByte d - ascii '0').toNat = d.val := by
  revert d
  decide

theorem digitByte_ne_dash (d : Fin 10) : digitByte d ≠ ascii '-' := by
  revert d
  decide

theorem digitByte_eq_zero {d : Fin 10} (h : digitByte d = ascii '0') : d = 0 := by
  revert d
  decide

theorem le_foldl_width (ds : List (Fin 10)) (n : Nat) : n ≤ ds.foldl (fun n d => n * 10 + d.val) n := by
  induction ds generalizing n with
  | nil => exact le_rfl
  | cons d ds ih =>
    have h := ih (n * 10 + d.val)
    rw [List.foldl_cons]
    omega

theorem width_eq (hk : IsLetter k) (ds : List (Fin 10)) (n : Nat) :
    width n (ds.map digitByte ++ k :: rest) =
      if ds.foldl (fun n d => n * 10 + d.val) n < 2 ^ 31 ∨ ds = [] then
        some (ds.foldl (fun n d => n * 10 + d.val) n, k :: rest) else none := by
  induction ds generalizing n with
  | nil =>
    rw [if_pos (.inr rfl)]
    exact if_neg hk.1
  | cons d ds ih =>
    have hgrow := le_foldl_width ds (n * 10 + d.val)
    rw [List.map_cons, List.cons_append, width, if_pos (digitByte_range d), digitByte_value, ih, List.foldl_cons]
    by_cases hlt : n * 10 + d.val < 2 ^ 31
    · rw [if_pos hlt]
      by_cases hds : ds = []
      · rw [hds, if_pos (.inr rfl), if_pos (.inl hlt)]
      · by_cases hall : ds.foldl (fun n d => n * 10 + d.val) (n * 10 + d.val) < 2 ^ 31
        · rw [if_pos (.inl hall), if_pos (.inl hall)]
        · rw [if_neg fun h => h.elim hall hds, if_neg fun h => h.elim hall (List.cons_ne_nil d ds)]
    · rw [if_neg hlt, if_neg fun h => h.elim (fun h => hlt (by omega)) (List.cons_ne_nil d ds)]

theorem head_width (hk : IsLetter k) (ds : List (Fin 10)) : (ds.map digitByte ++ k :: rest).head? ≠ some (ascii '-') := by
  cases ds with
  | nil => exact fun h => hk.2 (Option.some.inj h)
  | cons d ds => exact fun h => digitByte_ne_dash d (Option.some.inj h)

theorem head_noZero (hk : IsLetter k) (h : opts.zero = false) :
    ((if opts.minus then [ascii '-'] else []) ++ opts.width.map digitByte ++ k :: rest).head? ≠ some (ascii '0') := by
  have hlead := opts.lead h
  cases hminus : opts.minus with
  | true => exact fun h => absurd (Option.some.inj h) (by decide)
  | false =>
    rw [if_neg Bool.false_ne_true, List.nil_append]
    cases hwidth : opts.width with
    | nil =>
      intro h
      have hdigit : k = ascii '0' := Option.some.inj h
      rw [hdigit] at hk
      exact absurd hk (by decide)
    | cons d ds =>
      intro h
      have hd := digitByte_eq_zero (Option.some.inj h)
      exact hlead hminus (by rw [hwidth, hd]; rfl)

theorem sized_eq (hk : IsLetter k) (pads : Int) (padc : Byte) : sized pads padc (opts.width.map digitByte ++ k :: rest) =
    if opts.value < 2 ^ 31 then some (opts.value * pads, padc, k, rest) else none := by
  have hvalue : (opts.width.foldl (fun n d => n * 10 + d.val) 0 < 2 ^ 31 ∨ opts.width = []) ↔ opts.value < 2 ^ 31 := by
    refine ⟨fun h => h.elim id fun h => ?_, .inl⟩
    rw [Options.value, h]
    decide
  unfold sized
  rw [width_eq hk]
  by_cases hlt : opts.value < 2 ^ 31
  · rw [if_pos (hvalue.mpr hlt), if_pos hlt]
    rfl
  · rw [if_neg fun h => hlt (hvalue.mp h), if_neg hlt]
    rfl

theorem aligned_eq (hk : IsLetter k) (padc : Byte) :
    aligned padc ((if opts.minus then [ascii '-'] else []) ++ opts.width.map digitByte ++ k :: rest) =
      if opts.value < 2 ^ 31 then some ((opts.value : Int) * (if opts.minus then -1 else 1), padc, k, rest) else none := by
  unfold aligned
  cases opts.minus with
  | true => exact (if_pos rfl).trans (sized_eq hk (-1) padc)
  | false =>
    rw [if_neg Bool.false_ne_true, List.nil_append, if_neg (head_width hk _)]
    exact sized_eq hk 1 padc

theorem directive_eq (hk : IsLetter k) : directive (opts.bytes ++ k :: rest) =
    if opts.value < 2 ^ 31 then
      some ((opts.value : Int) * (if opts.minus then -1 else 1), if opts.zero then ascii '0' else ascii ' ', k, rest)
    else none := by
  unfold directive Options.bytes
  cases hzero : opts.zero with
  | true => exact (if_pos rfl).trans (aligned_eq hk (ascii '0'))
  | false =>
    rw [if_neg Bool.false_ne_true, List.nil_append, if_neg (head_noZero hk hzero)]
    exact aligned_eq hk (ascii ' ')

end Parsing

section Conversions

variable {len : Nat} {cbuf : List Byte} {opts : Options} {o : Out} {v : BitVec 32} {args : List Arg}

theorem toDigits_mem {base n : Nat} {c : Char} (hbase : 1 < base) (h : c ∈ Nat.toDigits base n) :
    ∃ d < base, c = d.digitChar := by
  by_cases hn : n = 0
  · rw [hn, Nat.toDigits_zero] at h
    exact ⟨0, by omega, List.mem_singleton.mp h⟩
  · rw [← reverse_digits hbase hn] at h
    obtain ⟨d, hd, rfl⟩ := List.mem_map.mp h
    exact ⟨d, Nat.digits_lt_base hbase (List.mem_reverse.mp hd), rfl⟩

theorem decimal_noNul (z : Int) : (0 : Byte) ∉ bytes (decimal z) := by
  have hdigit : ∀ d < 10, (0 : Byte) ≠ ascii (Nat.digitChar d) := by decide
  have hdigits : ∀ n, (0 : Byte) ∉ bytes (Nat.toDigits 10 n) := fun n h => by
    obtain ⟨c, hc, h0⟩ := List.mem_map.mp h
    obtain ⟨d, hd, rfl⟩ := toDigits_mem (by decide : 1 < 10) hc
    exact hdigit d hd h0.symm
  unfold decimal
  split
  · exact fun h => (List.mem_cons.mp h).elim (by decide) (hdigits _)
  · exact hdigits _

theorem hexadecimal_noNul (upper : Bool) (n : Nat) : (0 : Byte) ∉ bytes (hexadecimal upper n) := by
  have hlow : ∀ d < 16, (0 : Byte) ≠ ascii (Nat.digitChar d) := by decide
  have hup : ∀ d < 16, (0 : Byte) ≠ ascii (Nat.digitChar d).toUpper := by decide
  intro h
  obtain ⟨c, hc, h0⟩ := List.mem_map.mp h
  cases upper with
  | false =>
    obtain ⟨d, hd, rfl⟩ := toDigits_mem (by decide : 1 < 16) hc
    exact hlow d hd h0.symm
  | true =>
    rw [hexadecimal, if_pos rfl] at hc
    obtain ⟨c, hlow, rfl⟩ := List.mem_map.mp hc
    obtain ⟨d, hd, rfl⟩ := toDigits_mem (by decide : 1 < 16) hlow
    exact hup d hd h0.symm

theorem cstr_line {t : List Char} (h : (0 : Byte) ∉ bytes t) : cstr (line t cbuf) = bytes t := by
  unfold cstr line
  have hall : ∀ c ∈ bytes t, decide (c ≠ 0) = true := fun c hc => decide_eq_true fun h0 => h (h0 ▸ hc)
  rw [List.takeWhile_append_of_pos hall, List.takeWhile_cons_of_neg (by decide), List.append_nil]

/-- A number that was printed to the local buffer is put out as its numeral. -/
theorem puts_line {t : List Char} (h : (0 : Byte) ∉ bytes t) (left : Bool) (padn : Nat) (padc : Byte) :
    (do return (← puts len (padn * if left then -1 else 1) padc (cstr (line t cbuf)) t.length o, args)) =
      (runPieces len (padded left padn padc (bytes t)) o).map (·, args) := by
  have hlen : t.length = (bytes t).length := (List.length_map _).symm
  rw [cstr_line h, hlen, puts_eq]
  exact Option.map_eq_bind.symm

theorem printDs_signed (hcbuf : cbuf.length = 64) (v : BitVec 32) : printDs (v.signExtend 64) cbuf true true =
    some (line (decimal v.toInt) cbuf, (decimal v.toInt).length) := by
  have h := @printDs_right (v.signExtend 64) true true cbuf (by rintro ⟨-, h, -⟩; cases h) (by omega)
  have hvalue : readAs (v.signExtend 64) true true = v.toInt := BitVec.toInt_signExtend_of_le (by decide)
  rwa [hvalue] at h

theorem printDs_unsigned (hcbuf : cbuf.length = 64) (v : BitVec 32) : printDs (v.setWidth 64) cbuf false true =
    some (line (decimal v.toNat) cbuf, (decimal v.toNat).length) := by
  have h := @printDs_right (v.setWidth 64) false true cbuf (by rintro ⟨h, -⟩; cases h) (by omega)
  have hvalue : readAs (v.setWidth 64) false true = v.toNat := by
    have hlt := v.isLt
    have hwide : (v.setWidth 64).toNat = v.toNat := by rw [BitVec.toNat_setWidth]; omega
    exact congrArg _ hwide
  rwa [hvalue] at h

theorem printXs_word (hcbuf : cbuf.length = 64) (upper : Bool) (v : BitVec 32) :
    printXs (v.setWidth 64) cbuf (if upper then set1 else set0) =
      some (line (hexadecimal upper v.toNat) cbuf, (hexadecimal upper v.toNat).length) := by
  have hlt := v.isLt
  have hwide : (v.setWidth 64).toNat = v.toNat := by rw [BitVec.toNat_setWidth]; omega
  rw [printXs_eq _ (by omega), hwide]

theorem convert_eq (hcbuf : cbuf.length = 64) (k : Letter) :
    convert len cbuf (opts.value * if opts.minus then -1 else 1) (if opts.zero then ascii '0' else ascii ' ')
      (ascii k.char) (.word v :: args) o = (runPieces len (k.pieces opts v) o).map (·, args) := by
  cases k with
  | p =>
    unfold convert
    rw [if_neg (by decide), if_neg (by decide)]
    dsimp only
    rw [if_pos (by decide)]
    simp only [Letter.pieces, runPieces, Piece.run]
    cases putc len (ascii '0') o with
    | none => rfl
    | some o =>
      dsimp only [bind, Option.bind]
      cases putc len (ascii 'x') o with
      | none => rfl
      | some o =>
        have hhex := printXs_word (v := v) hcbuf false
        rw [if_neg Bool.false_ne_true] at hhex
        dsimp only
        rw [hhex]
        exact puts_line (hexadecimal_noNul _ _) false 8 _
  | i =>
    unfold convert
    rw [if_neg (by decide), if_neg (by decide)]
    dsimp only
    rw [if_neg (by decide), if_pos (by decide), printDs_signed hcbuf]
    exact puts_line (decimal_noNul _) _ _ _
  | d =>
    unfold convert
    rw [if_neg (by decide), if_neg (by decide)]
    dsimp only
    rw [if_neg (by decide), if_pos (by decide), printDs_signed hcbuf]
    exact puts_line (decimal_noNul _) _ _ _
  | u =>
    unfold convert
    rw [if_neg (by decide), if_neg (by decide)]
    dsimp only
    rw [if_neg (by decide), if_neg (by decide), if_pos (by decide), printDs_unsigned hcbuf]
    exact puts_line (decimal_noNul _) _ _ _
  | x =>
    have hhex := printXs_word (v := v) hcbuf false
    rw [if_neg Bool.false_ne_true] at hhex
    unfold convert
    rw [if_neg (by decide), if_neg (by decide)]
    dsimp only
    rw [if_neg (by decide), if_neg (by decide), if_neg (by decide), if_pos (by decide), hhex]
    exact puts_line (hexadecimal_noNul _ _) _ _ _
  | X =>
    have hhex := printXs_word (v := v) hcbuf true
    rw [if_pos rfl] at hhex
    unfold convert
    rw [if_neg (by decide), if_neg (by decide)]
    dsimp only
    rw [if_neg (by decide), if_neg (by decide), if_neg (by decide), if_neg (by decide), if_pos (by decide), hhex]
    exact puts_line (hexadecimal_noNul _ _) _ _ _
  | c =>
    unfold convert
    rw [if_neg (by decide), if_neg (by decide)]
    dsimp only
    rw [if_neg (by decide), if_neg (by decide), if_neg (by decide), if_neg (by decide), if_neg (by decide),
      if_pos (by decide), Letter.pieces, runPieces_singleton]
    exact Option.map_eq_bind.symm

theorem convert_str {s : Option (List Byte)} :
    convert len cbuf (opts.value * if opts.minus then -1 else 1) (if opts.zero then ascii '0' else ascii ' ')
      (ascii 's') (.str s :: args) o =
        (runPieces len (opts.pieces (s.getD (bytes ['(', 'n', 'u', 'l', 'l', ')']))) o).map (·, args) := by
  unfold convert
  rw [if_pos rfl]
  cases s with
  | none =>
    rw [Option.getD_none, Options.pieces, ← puts_eq]
    exact Option.map_eq_bind.symm
  | some s =>
    rw [Option.getD_some, Options.pieces, ← puts_eq]
    exact Option.map_eq_bind.symm

theorem formatLoop_ended (n : Nat) (fmt : List Byte) (args : List Arg) (h : o.ended = true) :
    formatLoop len cbuf (n + 1) fmt args o = some o := by
  unfold formatLoop
  rw [if_pos h]

theorem formatLoop_nil (n : Nat) (args : List Arg) : formatLoop len cbuf (n + 1) [] args o = some o := by
  unfold formatLoop
  split <;> rfl

theorem formatLoop_char {c : Byte} (n : Nat) (fmt : List Byte) (h : o.ended = false) (hc : c ≠ ascii '%') :
    formatLoop len cbuf (n + 1) (c :: fmt) args o = (putc len c o).bind (formatLoop len cbuf n fmt args) := by
  rw [formatLoop.eq_def]
  dsimp only
  rw [h, if_neg Bool.false_ne_true, if_neg hc]
  rfl

theorem formatLoop_percent (n : Nat) (fmt : List Byte) (h : o.ended = false) :
    formatLoop len cbuf (n + 1) (ascii '%' :: fmt) args o = (directive fmt).bind fun d =>
      (convert len cbuf d.1 d.2.1 d.2.2.1 args o).bind fun r => formatLoop len cbuf n d.2.2.2 r.2 r.1 := by
  rw [formatLoop.eq_def]
  dsimp only
  rw [h, if_neg Bool.false_ne_true, if_pos rfl]
  rfl

theorem formatLoop_conversion {pieces : List Piece} {k : Byte} {a : Arg} (n : Nat) (fmt : List Byte)
    (h : o.ended = false) (hk : IsLetter k)
    (hconvert : convert len cbuf (opts.value * if opts.minus then -1 else 1) (if opts.zero then ascii '0' else ascii ' ')
      k (a :: args) o = (runPieces len pieces o).map (·, args)) :
    formatLoop len cbuf (n + 1) (ascii '%' :: (opts.bytes ++ [k]) ++ fmt) (a :: args) o =
      (runPieces len (if 2 ^ 31 ≤ opts.value then [.overflow] else pieces) o).bind (formatLoop len cbuf n fmt args) := by
  rw [List.cons_append, List.append_assoc, formatLoop_percent _ _ h, List.singleton_append, directive_eq hk]
  by_cases hlt : opts.value < 2 ^ 31
  · rw [if_pos hlt, if_neg (Nat.not_le.mpr hlt), Option.bind_some, hconvert]
    cases runPieces len pieces o <;> rfl
  · have hoverflow : Piece.overflow.run len o = none := by
      dsimp only [Piece.run]
      rw [h]
      rfl
    rw [if_neg hlt, if_pos (Nat.le_of_not_lt hlt), runPieces_singleton, hoverflow]
    rfl

theorem formatLoop_eq (hcbuf : cbuf.length = 64) (items : List Item) {n : Nat} (hn : items.length < n) (extra : List Arg)
    (o : Out) : formatLoop len cbuf n (formatOf items) (argsOf items ++ extra) o = runPieces len (piecesOf items) o := by
  induction items generalizing n o with
  | nil =>
    obtain ⟨n, rfl⟩ := Nat.exists_eq_add_one.mpr hn
    exact formatLoop_nil n _
  | cons item items ih =>
    obtain ⟨n, rfl⟩ := Nat.exists_eq_add_one.mpr (Nat.zero_lt_of_lt hn)
    have hrest : formatLoop len cbuf n (formatOf items) (argsOf items ++ extra) = runPieces len (piecesOf items) :=
      funext fun o => ih (Nat.lt_of_succ_lt_succ hn) o
    have hpieces : piecesOf (item :: items) = item.pieces ++ piecesOf items := List.flatMap_cons
    have hformat : formatOf (item :: items) = item.format ++ formatOf items := List.flatMap_cons
    have hargs : argsOf (item :: items) = item.arg ++ argsOf items := List.flatMap_cons
    cases hended : o.ended with
    | true => rw [formatLoop_ended _ _ _ hended, runPieces_ended _ hended]
    | false =>
      rw [hpieces, hformat, hargs, runPieces_append, ← hrest]
      cases item with
      | lit c hnul hpercent =>
        rw [Item.pieces, runPieces_singleton]
        exact formatLoop_char n _ hended hpercent
      | str opts s hnul => exact formatLoop_conversion n _ hended (by decide) convert_str
      | word opts k v =>
        exact formatLoop_conversion n _ hended (by cases k <;> decide) (convert_eq hcbuf k)

end Conversions

section Runs

variable {buf t xs : List Byte} {o : Out} {write : List Byte → Nat → Nat → Option (List Byte)}

/-- The text so far stands at the front of the buffer, and output goes on behind it. -/
structure Written (buf t : List Byte) (o : Out) : Prop where
  contents : o.buf = t ++ buf.drop t.length
  position : o.p = t.length
  running : o.ended = false

/-- The front of a text, as much as the buffer holds next to the terminator. -/
structure Final (buf t : List Byte) (o : Out) : Prop where
  contents : o.buf = t.take (min (buf.length - 1) t.length) ++ buf.drop (min (buf.length - 1) t.length)
  position : o.p = min (buf.length - 1) t.length

structure Cut (buf t : List Byte) (o : Out) : Prop where
  ended : o.ended = true
  long : buf.length ≤ t.length
  final : Final buf t o

theorem final_of_written (h : Written buf t o) (hlt : t.length < buf.length) : Final buf t o := by
  have hmin : min (buf.length - 1) t.length = t.length := by omega
  refine ⟨?_, h.position.trans hmin.symm⟩
  rw [hmin, List.take_length]
  exact h.contents

structure Stores (xs : List Byte) (write : List Byte → Nat → Nat → Option (List Byte)) : Prop where
  front : ∀ b p l, l ≤ xs.length → write b p l = storeAll b p (xs.take l)
  behind : ∀ b l, 0 < l → xs ≠ [] → write b b.length l = none

theorem stores_memset (c : Byte) (padd : Nat) : Stores (List.replicate padd c) fun b p l => Strings.memset b p c l := by
  refine ⟨fun b p l hl => ?_, fun b l hl _ => storeAll_none le_rfl (by rw [List.length_replicate]; omega)⟩
  rw [List.length_replicate] at hl
  rw [List.take_replicate, Nat.min_eq_left hl]
  rfl

theorem stores_strncpy (s : List Byte) : Stores s fun b p l => strncpy b p s l := by
  refine ⟨fun b p l hl => ?_, fun b l hl hs => ?_⟩
  · unfold strncpy
    cases storeAll b p (s.take l) with
    | none => rfl
    | some b' => exact if_neg (by omega)
  · have hpos := List.length_pos_of_ne_nil hs
    unfold strncpy
    rw [storeAll_none le_rfl (by rw [List.length_take]; omega)]
    rfl

theorem piece_fits (hs : Stores xs write) (h : Written buf t o) (hfits : t.length + xs.length ≤ buf.length) :
    ∃ o', piece buf.length xs.length write o = some o' ∧ Written buf (t ++ xs) o' := by
  have hroom : xs.length ≤ (buf.drop t.length).length := by
    rw [List.length_drop]
    omega
  have hrest : (buf.drop t.length).drop xs.length = buf.drop (t ++ xs).length := by
    rw [List.drop_drop, List.length_append]
  have hstore := storeAll_append t hroom
  rw [← h.contents, hrest] at hstore
  refine ⟨⟨t ++ xs ++ buf.drop (t ++ xs).length, o.p + xs.length, false⟩, ?_, rfl, ?_, rfl⟩
  · unfold piece
    rw [h.running, if_neg Bool.false_ne_true, if_pos (by rw [h.position]; omega), hs.front _ _ _ le_rfl,
      List.take_length, h.position, hstore]
    rfl
  · rw [h.position, List.length_append]

theorem piece_cut (hs : Stores xs write) (h : Written buf t o) (hlt : t.length < buf.length)
    (hbound : buf.length ≤ kernelVirtBase) (hcut : buf.length < t.length + xs.length) :
    ∃ o', piece buf.length xs.length write o = some o' ∧ Cut buf (t ++ xs) o' := by
  have hbound' : buf.length ≤ 3221225472 := hbound
  have hcount : sub32 (buf.length - 1) o.p = buf.length - 1 - t.length := by
    rw [h.position, sub32_of_le (by omega) (by omega)]
  have hlen : (xs.take (buf.length - 1 - t.length)).length = buf.length - 1 - t.length := by
    rw [List.length_take]
    omega
  have hroom : (xs.take (buf.length - 1 - t.length)).length ≤ (buf.drop t.length).length := by
    rw [hlen, List.length_drop]
    omega
  have hstore := storeAll_append t hroom
  rw [← h.contents, hlen, List.drop_drop, show t.length + (buf.length - 1 - t.length) =
    buf.length - 1 by omega] at hstore
  have hmin : min (buf.length - 1) (t ++ xs).length = buf.length - 1 := by
    rw [List.length_append]
    omega
  have htake : (t ++ xs).take (buf.length - 1) = t ++ xs.take (buf.length - 1 - t.length) := by
    rw [List.take_append, List.take_of_length_le (by omega)]
  refine ⟨⟨t ++ xs.take (buf.length - 1 - t.length) ++ buf.drop (buf.length - 1), buf.length - 1, true⟩, ?_, rfl,
    by rw [List.length_append]; omega, ?_, hmin.symm⟩
  · unfold piece
    rw [h.running, if_neg Bool.false_ne_true, if_neg (by rw [h.position]; omega), hcount, hs.front _ _ _ (by omega),
      h.position, hstore]
    rfl
  · rw [hmin, htake]

theorem piece_full (hs : Stores xs write) (h : Written buf t o) (hfull : t.length = buf.length) (hpos : 0 < buf.length)
    (hxs : xs ≠ []) : piece buf.length xs.length write o = none := by
  have hlen : o.buf.length = buf.length := by
    rw [h.contents, hfull, List.drop_length, List.append_nil, hfull]
  have hxpos := List.length_pos_of_ne_nil hxs
  have hcount : 0 < sub32 (buf.length - 1) o.p := by
    rw [h.position, hfull]
    unfold sub32
    omega
  have hbehind : write o.buf o.p (sub32 (buf.length - 1) o.p) = none := by
    have hend : o.p = o.buf.length := by rw [h.position, hfull, hlen]
    have hnone := hs.behind o.buf _ hcount hxs
    rwa [← hend] at hnone
  unfold piece
  rw [h.running, if_neg Bool.false_ne_true, if_neg (by rw [h.position]; omega), hbehind]
  rfl

/-- No padding and no text of a conversion ends where the buffer ends, and no width overflows. -/
def Piece.Clear (len p : Nat) : Piece → Prop
  | .char _ => True
  | .pad _ padd => p + padd ≠ len
  | .text s => p + s.length ≠ len
  | .overflow => False

def Clear (len : Nat) : Nat → List Piece → Prop
  | _, [] => True
  | p, q :: qs => (p < len → q.Clear len p) ∧ Clear len (p + q.bytes.length) qs

theorem putc_run (c : Byte) (h : Written buf t o) (hlt : t.length < buf.length) :
    ∃ o', putc buf.length c o = some o' ∧ ((Written buf (t ++ [c]) o' ∧ (t ++ [c]).length < buf.length) ∨
      Cut buf (t ++ [c]) o') := by
  have hlen : (t ++ [c]).length = t.length + 1 := by rw [List.length_append, List.length_singleton]
  by_cases hlast : o.p = buf.length - 1
  · have hp := h.position
    have hmin : min (buf.length - 1) (t ++ [c]).length = t.length := by omega
    refine ⟨{ o with ended := true }, ?_, .inr ⟨rfl, by omega, ?_, by rw [hmin]; exact hp⟩⟩
    · unfold putc
      rw [h.running, if_neg Bool.false_ne_true, if_pos hlast]
    · rw [hmin, List.take_left']
      · exact h.contents
      · rfl
  · have hp := h.position
    obtain ⟨y, old, hold⟩ : ∃ y old, buf.drop t.length = y :: old :=
      List.exists_cons_of_length_pos (by rw [List.length_drop]; omega)
    have hrest : old = buf.drop (t ++ [c]).length := by rw [hlen, ← List.tail_drop, hold]; rfl
    have hstore : store o.buf o.p c = some (t ++ [c] ++ buf.drop (t ++ [c]).length) := by
      rw [h.contents, hold, hp, store_append, hrest, List.append_assoc]
      rfl
    refine ⟨⟨t ++ [c] ++ buf.drop (t ++ [c]).length, o.p + 1, false⟩, ?_, .inl ⟨⟨rfl, by rw [hlen]; exact congrArg _ hp, rfl⟩,
      by omega⟩⟩
    unfold putc
    rw [h.running, if_neg Bool.false_ne_true, if_neg hlast, hstore]
    rfl

theorem piece_run (hs : Stores xs write) (h : Written buf t o) (hlt : t.length < buf.length)
    (hbound : buf.length ≤ kernelVirtBase) (hclear : t.length + xs.length ≠ buf.length) :
    ∃ o', piece buf.length xs.length write o = some o' ∧ ((Written buf (t ++ xs) o' ∧ (t ++ xs).length < buf.length) ∨
      Cut buf (t ++ xs) o') := by
  by_cases hfits : t.length + xs.length ≤ buf.length
  · obtain ⟨o', hrun, hw⟩ := piece_fits hs h hfits
    exact ⟨o', hrun, .inl ⟨hw, by rw [List.length_append]; omega⟩⟩
  · obtain ⟨o', hrun, hcut⟩ := piece_cut hs h hlt hbound (by omega)
    exact ⟨o', hrun, .inr hcut⟩

theorem run_clear {q : Piece} (h : Written buf t o) (hlt : t.length < buf.length) (hbound : buf.length ≤ kernelVirtBase)
    (hclear : q.Clear buf.length t.length) :
    ∃ o', q.run buf.length o = some o' ∧ ((Written buf (t ++ q.bytes) o' ∧ (t ++ q.bytes).length < buf.length) ∨
      Cut buf (t ++ q.bytes) o') := by
  cases q with
  | char c => exact putc_run c h hlt
  | pad c padd =>
    have hrun := piece_run (stores_memset c padd) h hlt hbound (by rw [List.length_replicate]; exact hclear)
    rwa [List.length_replicate] at hrun
  | text s => exact piece_run (stores_strncpy s) h hlt hbound hclear
  | overflow => exact hclear.elim

def Overrun (buf : List Byte) (r : Option Out) : Prop := ∀ o ∈ r, ∃ t, Written buf t o ∧ t.length = buf.length

theorem piece_overrun (hs : Stores xs write) (h : Written buf t o) (hpos : 0 < buf.length)
    (hend : t.length + xs.length = buf.length ∨ t.length = buf.length) :
    Overrun buf (piece buf.length xs.length write o) := by
  intro o' ho'
  by_cases hfits : t.length + xs.length = buf.length
  · obtain ⟨o'', hrun, hw⟩ := piece_fits hs h hfits.le
    rw [hrun] at ho'
    obtain rfl := Option.some.inj ho'
    exact ⟨t ++ xs, hw, by rw [List.length_append]; exact hfits⟩
  · have hfull := hend.resolve_left hfits
    have hxs : xs ≠ [] := by
      rintro rfl
      exact hfits hfull
    rw [piece_full hs h hfull hpos hxs] at ho'
    cases ho'

theorem run_overrun {q : Piece} (h : Written buf t o) (hpos : 0 < buf.length)
    (hend : (t.length < buf.length ∧ ¬q.Clear buf.length t.length) ∨ t.length = buf.length) :
    Overrun buf (q.run buf.length o) := by
  cases q with
  | char c =>
    have hfull := hend.resolve_left fun hclear => hclear.2 trivial
    have hlen : o.buf.length = buf.length := by
      rw [h.contents, hfull, List.drop_length, List.append_nil, hfull]
    have hnone : putc buf.length c o = none := by
      unfold putc
      rw [h.running, if_neg Bool.false_ne_true, if_neg (by rw [h.position]; omega),
        store_none (by rw [h.position]; omega)]
      rfl
    intro o' ho'
    rw [Piece.run, hnone] at ho'
    cases ho'
  | pad c padd =>
    have hrun := piece_overrun (stores_memset c padd) h hpos (hend.imp_left fun hclear => by
      rw [List.length_replicate]
      exact not_not.mp hclear.2)
    rwa [List.length_replicate] at hrun
  | text s => exact piece_overrun (stores_strncpy s) h hpos (hend.imp_left fun hclear => not_not.mp hclear.2)
  | overflow =>
    intro o' ho'
    dsimp only [Piece.run] at ho'
    rw [h.running] at ho'
    cases ho'

theorem runPieces_full (qs : List Piece) (h : Written buf t o) (hpos : 0 < buf.length) (hfull : t.length = buf.length) :
    Overrun buf (runPieces buf.length qs o) := by
  induction qs generalizing t o with
  | nil =>
    rintro o' ho'
    obtain rfl := Option.some.inj ho'
    exact ⟨t, h, hfull⟩
  | cons q qs ih =>
    have hstep := run_overrun (q := q) h hpos (.inr hfull)
    rw [runPieces]
    cases hq : q.run buf.length o with
    | none => exact fun o' ho' => nomatch ho'
    | some o₁ =>
      obtain ⟨t₁, h₁, hfull₁⟩ := hstep o₁ hq
      exact ih h₁ hfull₁

theorem cut_append (us : List Byte) (h : Cut buf t o) : Final buf (t ++ us) o := by
  have hlong := h.long
  have hmin : min (buf.length - 1) t.length = buf.length - 1 := by omega
  have hmin' : min (buf.length - 1) (t ++ us).length = buf.length - 1 := by
    rw [List.length_append]
    omega
  obtain ⟨hcontents, hposition⟩ := h.final
  rw [hmin] at hcontents hposition
  refine ⟨?_, by rw [hmin']; exact hposition⟩
  rw [hmin', List.take_append_of_le_length (by omega)]
  exact hcontents

theorem runPieces_clear (qs : List Piece) (h : Written buf t o) (hlt : t.length < buf.length)
    (hbound : buf.length ≤ kernelVirtBase) (hclear : Clear buf.length t.length qs) :
    ∃ o', runPieces buf.length qs o = some o' ∧ Final buf (t ++ textOf qs) o' := by
  induction qs generalizing t o with
  | nil =>
    rw [textOf, List.flatMap_nil, List.append_nil]
    exact ⟨o, rfl, final_of_written h hlt⟩
  | cons q qs ih =>
    have htext : t ++ textOf (q :: qs) = t ++ q.bytes ++ textOf qs := by
      rw [textOf, List.flatMap_cons, List.append_assoc]
      rfl
    obtain ⟨hq, hqs⟩ := hclear
    obtain ⟨o₁, hrun, hw | hcut⟩ := run_clear h hlt hbound (hq hlt)
    · obtain ⟨o', hrest, hfin⟩ := ih hw.1 hw.2 (by rwa [List.length_append])
      rw [runPieces, hrun, htext]
      exact ⟨o', hrest, hfin⟩
    · rw [runPieces, hrun, htext]
      exact ⟨o₁, runPieces_ended qs hcut.ended, cut_append _ hcut⟩

theorem clear_of_long {len p : Nat} (qs : List Piece) (h : len ≤ p) : Clear len p qs := by
  induction qs generalizing p with
  | nil => trivial
  | cons q qs ih => exact ⟨fun hlt => by omega, ih (by omega)⟩

theorem runPieces_unclear (qs : List Piece) (h : Written buf t o) (hlt : t.length < buf.length)
    (hbound : buf.length ≤ kernelVirtBase) (hclear : ¬Clear buf.length t.length qs) :
    Overrun buf (runPieces buf.length qs o) := by
  induction qs generalizing t o with
  | nil => exact absurd trivial hclear
  | cons q qs ih =>
    rw [runPieces]
    by_cases hq : q.Clear buf.length t.length
    · have hqs : ¬Clear buf.length (t ++ q.bytes).length qs := by
        rw [List.length_append]
        exact fun hqs => hclear ⟨fun _ => hq, hqs⟩
      obtain ⟨o₁, hrun, hw | hcut⟩ := run_clear h hlt hbound hq
      · rw [hrun]
        exact ih hw.1 hw.2 hqs
      · exact absurd (clear_of_long qs hcut.long) hqs
    · have hstep := run_overrun h (Nat.zero_lt_of_lt hlt) (.inl ⟨hlt, hq⟩)
      cases hrun : q.run buf.length o with
      | none => exact fun o' ho' => nomatch ho'
      | some o₁ =>
        obtain ⟨t₁, h₁, hfull⟩ := hstep o₁ hrun
        exact runPieces_full qs h₁ (Nat.zero_lt_of_lt hlt) hfull

end Runs

section Calls

variable {buf cbuf : List Byte} {items : List Item} {extra : List Arg}

/-- The result of a call that leaves as much of a text as fits in the buffer, with its terminator. -/
def truncated (buf t : List Byte) : Option (Int × List Byte) :=
  some ((min (buf.length - 1) t.length : Nat), t.take (min (buf.length - 1) t.length) ++
    0 :: buf.drop (min (buf.length - 1) t.length + 1))

theorem vsnprintf_eq (hcbuf : cbuf.length = 64) : vsnprintf buf buf.length cbuf (formatOf items) (argsOf items ++ extra) =
    (runPieces buf.length (piecesOf items) ⟨buf, 0, false⟩).bind fun o =>
      (store o.buf o.p 0).map fun b => ((o.p : Int).bmod (2 ^ 32), b) := by
  have hlen : items.length ≤ (formatOf items).length := by
    induction items with
    | nil => exact le_rfl
    | cons item items ih =>
      have hitem : 1 ≤ item.format.length := by cases item <;> exact Nat.succ_pos _
      have hformat : formatOf (item :: items) = item.format ++ formatOf items := List.flatMap_cons
      rw [hformat, List.length_append, List.length_cons]
      omega
  unfold vsnprintf
  rw [formatLoop_eq hcbuf items (by omega)]
  cases runPieces buf.length (piecesOf items) ⟨buf, 0, false⟩ with
  | none => rfl
  | some o => exact Option.map_eq_bind.symm

theorem written_nil : Written buf [] ⟨buf, 0, false⟩ := ⟨rfl, rfl, rfl⟩

theorem bmod_iff {k : Nat} (h : k < 4294967296) : (k : Int).bmod (2 ^ 32) = k ↔ k < 2 ^ 31 := by
  have hmod : (k : Int) % ((2 ^ 32 : Nat) : Int) = k := by omega
  have hhalf : (((2 ^ 32 : Nat) : Int) + 1) / 2 = 2 ^ 31 := by decide
  rw [Int.bmod_def, hmod, hhalf]
  split <;> omega

theorem vsnprintf_clear (hcbuf : cbuf.length = 64) (hpos : 0 < buf.length) (hbound : buf.length ≤ kernelVirtBase)
    (hclear : Clear buf.length 0 (piecesOf items)) :
    vsnprintf buf buf.length cbuf (formatOf items) (argsOf items ++ extra) =
      (truncated buf (textOf (piecesOf items))).map fun r => (r.1.bmod (2 ^ 32), r.2) := by
  obtain ⟨o, hrun, hfin⟩ := runPieces_clear (piecesOf items) written_nil hpos hbound hclear
  rw [List.nil_append] at hfin
  obtain ⟨hcontents, hposition⟩ := hfin
  have hlen : ((textOf (piecesOf items)).take (min (buf.length - 1) (textOf (piecesOf items)).length)).length =
      min (buf.length - 1) (textOf (piecesOf items)).length := by
    rw [List.length_take]
    omega
  obtain ⟨y, old, hold⟩ : ∃ y old, buf.drop (min (buf.length - 1) (textOf (piecesOf items)).length) = y :: old :=
    List.exists_cons_of_length_pos (by rw [List.length_drop]; omega)
  have hrest : old = buf.drop (min (buf.length - 1) (textOf (piecesOf items)).length + 1) := by
    rw [← List.tail_drop, hold]
    rfl
  have hstore : store o.buf o.p 0 = some ((textOf (piecesOf items)).take
      (min (buf.length - 1) (textOf (piecesOf items)).length) ++
        0 :: buf.drop (min (buf.length - 1) (textOf (piecesOf items)).length + 1)) := by
    have hfront := store_append ((textOf (piecesOf items)).take
      (min (buf.length - 1) (textOf (piecesOf items)).length)) old 0 y
    rw [hlen] at hfront
    rw [hcontents, hold, hposition, ← hrest]
    exact hfront
  rw [vsnprintf_eq hcbuf, hrun, Option.bind_some, hstore, hposition]
  rfl

theorem vsnprintf_unclear (hcbuf : cbuf.length = 64) (hpos : 0 < buf.length) (hbound : buf.length ≤ kernelVirtBase)
    (hclear : ¬Clear buf.length 0 (piecesOf items)) :
    vsnprintf buf buf.length cbuf (formatOf items) (argsOf items ++ extra) = none := by
  have hover := runPieces_unclear (piecesOf items) written_nil hpos hbound hclear
  rw [vsnprintf_eq hcbuf]
  cases hrun : runPieces buf.length (piecesOf items) ⟨buf, 0, false⟩ with
  | none => rfl
  | some o =>
    obtain ⟨t, h, hfull⟩ := hover o hrun
    have hlen : o.buf.length = o.p := by
      rw [h.contents, h.position, hfull, List.drop_length, List.append_nil, hfull]
    rw [Option.bind_some, store_none hlen.le]
    rfl

/-- A text that is shorter than the buffer is written whole, unless a width overflows. -/
theorem clear_of_short {len p : Nat} (qs : List Piece) (h : p + (textOf qs).length < len) (hno : Piece.overflow ∉ qs) :
    Clear len p qs := by
  induction qs generalizing p with
  | nil => trivial
  | cons q qs ih =>
    have htext : textOf (q :: qs) = q.bytes ++ textOf qs := List.flatMap_cons
    rw [htext, List.length_append] at h
    refine ⟨fun _ => ?_, ih (by omega) (List.not_mem_of_not_mem_cons hno)⟩
    cases q with
    | char c => trivial
    | pad c padd =>
      rw [Piece.bytes, List.length_replicate] at h
      exact (show p + padd < len by omega).ne
    | text s =>
      rw [Piece.bytes] at h
      exact (show p + s.length < len by omega).ne
    | overflow => exact hno (List.mem_cons_self ..)

/-- A call leaves the front of the text that fits and nothing else, just when no padding or text
ends at the buffer's end, no width that is reached overflows, and the length is an int. The text is
what every buffer longer than it receives. -/
theorem vsnprintf_truncates_iff (items : List Item) (extra : List Arg) (cbuf : List Byte) (hcbuf : cbuf.length = 64) :
    (∀ buf : List Byte, 1 ≤ buf.length → buf.length ≤ kernelVirtBase →
      (vsnprintf buf buf.length cbuf (formatOf items) (argsOf items ++ extra) = truncated buf (unboundedText items) ↔
        Clear buf.length 0 (piecesOf items) ∧ min (buf.length - 1) (unboundedText items).length < 2 ^ 31)) ∧
    ∀ buf : List Byte, (unboundedText items).length < buf.length → buf.length ≤ kernelVirtBase →
      (unboundedText items).length < 2 ^ 31 → .overflow ∉ piecesOf items →
        vsnprintf buf buf.length cbuf (formatOf items) (argsOf items ++ extra) =
          some (((unboundedText items).length : Int), unboundedText items ++ 0 :: buf.drop ((unboundedText items).length + 1)) := by
  have hiff : ∀ buf : List Byte, 1 ≤ buf.length → buf.length ≤ kernelVirtBase →
      (vsnprintf buf buf.length cbuf (formatOf items) (argsOf items ++ extra) = truncated buf (unboundedText items) ↔
        Clear buf.length 0 (piecesOf items) ∧ min (buf.length - 1) (unboundedText items).length < 2 ^ 31) := by
    intro buf hpos hbound
    have hbound' : buf.length ≤ 3221225472 := hbound
    have hint := bmod_iff (k := min (buf.length - 1) (unboundedText items).length) (by omega)
    by_cases hclear : Clear buf.length 0 (piecesOf items)
    · rw [vsnprintf_clear hcbuf hpos hbound hclear, ← hint]
      refine ⟨fun h => ⟨hclear, (Prod.mk.inj (Option.some.inj h)).1⟩, fun h => ?_⟩
      rw [← unboundedText, truncated, Option.map_some, h.2]
    · rw [vsnprintf_unclear hcbuf hpos hbound hclear]
      exact ⟨(fun h => nomatch h), fun h => absurd h.1 hclear⟩
  refine ⟨hiff, fun buf hlong hbound hint hno => ?_⟩
  have hmin : min (buf.length - 1) (unboundedText items).length = (unboundedText items).length := by omega
  have hshort : 0 + (textOf (piecesOf items)).length < buf.length := by
    rw [Nat.zero_add]
    exact hlong
  have hcall := (hiff buf (by omega) hbound).mpr ⟨clear_of_short _ hshort hno, by omega⟩
  rw [hcall, truncated, hmin, List.take_length]

def plain : Options := ⟨false, false, [], fun _ _ => by decide⟩

/-- A letter and a number, cut by a buffer of three bytes. -/
theorem number_cut : (List.replicate 64 (0 : Byte)).length = 64 ∧
    vsnprintf [9, 9, 9] 3 (List.replicate 64 0)
      (formatOf [.lit (ascii 'a') (by decide) (by decide), .word plain .u 170])
      (argsOf [.lit (ascii 'a') (by decide) (by decide), .word plain .u 170] ++ []) =
        some (2, [ascii 'a', ascii '1', 0]) := by
  have hcbuf : (List.replicate 64 (0 : Byte)).length = 64 := List.length_replicate
  have hclear : Clear 3 0 [.char (ascii 'a'), .text (bytes ['1', '7', '0'])] :=
    ⟨fun _ => trivial, fun _ => (by decide : 1 + 3 ≠ 3), trivial⟩
  have hcall := ((vsnprintf_truncates_iff [.lit (ascii 'a') (by decide) (by decide), .word plain .u 170] []
    (List.replicate 64 0) hcbuf).1 [9, 9, 9] (by decide) (by decide)).mpr ⟨hclear, by decide⟩
  exact ⟨hcbuf, hcall⟩

/-- A string of three bytes in a buffer of three: the terminator is stored behind the buffer. -/
theorem terminator_behind_buffer : ∃ (items : List Item) (buf cbuf : List Byte), 1 ≤ buf.length ∧ cbuf.length = 64 ∧
    vsnprintf buf buf.length cbuf (formatOf items) (argsOf items) ≠ truncated buf (unboundedText items) := by
  refine ⟨[.str plain (some (bytes ['a', 'b', 'c'])) (by decide)], [9, 9, 9], List.replicate 64 0, by decide, by decide, ?_⟩
  decide +kernel

end Calls

end YggKernel.Print
