import YggKernel.Print.Truncation

namespace YggKernel.Print.Parsers

section Source

/-- The ways in which a parser does not end at the terminator of its format: a read of the format behind
it, an argument that is not there, a store outside a buffer, the assertion against `l`, and rounds without
an end. -/
inductive Misread
  | format
  | argument
  | buffer
  | long
  | endless
  deriving DecidableEq

def isDigit (c : Byte) : Bool := decide (ascii '0' ≤ c ∧ c ≤ ascii '9')

def isOneOf (letters : List Char) (c : Byte) : Bool := letters.any fun x => decide (c = ascii x)

/-- The loop over the digits of a width: the width, the character behind it and the rest. -/
def widthLoop (padd : BitVec 32) : BitVec 32 → List Byte → Except Misread (BitVec 32 × Byte × List Byte)
  | _, [] => .error .format
  | padn, c :: fmt =>
    if isDigit c then widthLoop padd (padn * 10 + padd * (c - ascii '0').setWidth 32) fmt else .ok (padn, c, fmt)

def skip (c : Byte) (fmt : List Byte) : List Byte := if fmt.head? = some c then fmt.tail else fmt

def sign (fmt : List Byte) : BitVec 32 := if fmt.head? = some (ascii '-') then -1 else 1

inductive DebugArg
  | str (s : Option (List Byte))
  | word (v : BitVec 32)
  | long (v : BitVec 64)

def debugspl (s : List Byte) (p : Byte) (c : Nat) : List Byte := List.replicate (c - s.length) p ++ s

def debugspr (s : List Byte) (p : Byte) (c : Nat) : List Byte := s ++ List.replicate (c - s.length) p

def debugsp (s : List Byte) (padc : Byte) (padl : BitVec 32) : List Byte :=
  if 0 < padl.toInt then debugspl s padc padl.toNat else debugspr s padc (-padl).toNat

def printed (buf : Option (List Byte)) (put : List Byte → List Byte) : Except Misread (List Byte) :=
  buf.elim (.error .buffer) fun b => .ok (put (cstr b))

/-- What a local buffer holds before a number is printed to it does not matter. -/
def localBuf : List Byte := List.replicate 64 0

def debugLongNumber (padc : Byte) (padn : BitVec 32) (c : Byte) (v : BitVec 64) : Except Misread (List Byte) :=
  if c = ascii 'd' then printed (debugDs v localBuf true true) (debugsp · padc padn)
  else if c = ascii 'u' then printed (debugDs v localBuf false true) (debugsp · padc padn)
  else if c = ascii 'x' then printed (debugXs v localBuf set0) (debugsp · padc padn)
  else if c = ascii 'X' then printed (debugXs v localBuf set1) (debugsp · padc padn)
  else printed (debugXs v localBuf set0) fun s => bytes ['0', 'x'] ++ debugspl s (ascii '0') 16

/-- The conversions behind `l`: the characters that are printed, and the arguments that are left. -/
def debugLong (padc : Byte) (padn : BitVec 32) (c : Byte) (args : List DebugArg) :
    Except Misread (List Byte × List DebugArg) :=
  if isOneOf ['d', 'u', 'x', 'X', 'p'] c then
    match args with
    | .long v :: args => do return (← debugLongNumber padc padn c v, args)
    | _ => .error .argument
  else .ok ([ascii '%', ascii 'l', c], args)

def debugShortNumber (padc : Byte) (padn : BitVec 32) (c : Byte) (v : BitVec 32) : Except Misread (List Byte) :=
  if c = ascii 'c' then .ok [v.setWidth 8]
  else if c = ascii 'd' then
    printed (debugDs (v.signExtend 64 &&& 0xFFFFFFFF) localBuf true false) (debugsp · padc padn)
  else if c = ascii 'u' then printed (debugDs (v.setWidth 64) localBuf false false) (debugsp · padc padn)
  else if c = ascii 'x' then printed (debugXs (v.setWidth 64) localBuf set0) (debugsp · padc padn)
  else if c = ascii 'X' then printed (debugXs (v.setWidth 64) localBuf set1) (debugsp · padc padn)
  else printed (debugXs (v.setWidth 64) localBuf set0) fun s => bytes ['0', 'x'] ++ debugspl s (ascii '0') 8

def debugShort (padc : Byte) (padn : BitVec 32) (c : Byte) (args : List DebugArg) :
    Except Misread (List Byte × List DebugArg) :=
  if c = ascii 's' then
    match args with
    | .str s :: args => .ok (debugsp (s.getD (bytes ['(', 'n', 'u', 'l', 'l', ')'])) padc padn, args)
    | _ => .error .argument
  else if isOneOf ['c', 'd', 'u', 'x', 'X', 'p'] c then
    match args with
    | .word v :: args => do return (← debugShortNumber padc padn c v, args)
    | _ => .error .argument
  else .ok ([ascii '%', c], args)

def debugLetter (padc : Byte) (padn : BitVec 32) (c : Byte) (fmt : List Byte) (args : List DebugArg) :
    Except Misread (List Byte × List DebugArg × List Byte) :=
  if c = ascii 'l' then
    match fmt with
    | [] => .error .format
    | c :: fmt => do
      let (out, args) ← debugLong padc padn c args
      return (out, args, fmt)
  else do
    let (out, args) ← debugShort padc padn c args
    return (out, args, fmt)

/-- A conversion of `debugfv`, from the character behind the percent sign on. -/
def debugConversion (fmt : List Byte) (args : List DebugArg) :
    Except Misread (List Byte × List DebugArg × List Byte) := do
  let padc := if fmt.head? = some (ascii '0') then ascii '0' else ascii ' '
  let (padn, c, rest) ← widthLoop (sign fmt) 0 (skip (ascii '-') fmt)
  debugLetter padc padn c rest args

/-- The characters that go to `debugc`. The format is given with its terminator. -/
def debugfvLoop : Nat → List Byte → List DebugArg → Except Misread (List Byte)
  | 0, _, _ => .error .endless
  | _ + 1, [], _ => .error .format
  | n + 1, c :: fmt, args =>
    if c = 0 then .ok []
    else if c = ascii '%' then do
      let (out, args, fmt) ← debugConversion fmt args
      return out ++ (← debugfvLoop n fmt args)
    else do return c :: (← debugfvLoop n fmt args)

def debugfv (fmt : List Byte) (args : List DebugArg) : Except Misread (List Byte) :=
  debugfvLoop (fmt.length + 1) fmt args

/-- Where the output macros leave the variable `p`: further on, at the jump to `__end`, or nowhere, when a store
falls outside the buffer. -/
inductive Pos
  | goes (p : Nat)
  | ended
  | outside
  deriving DecidableEq

def Pos.bind (r : Pos) (f : Nat → Pos) : Pos :=
  match r with
  | .goes p => f p
  | .ended => .ended
  | .outside => .outside

def stored (room p n : Nat) (r : Pos) : Pos := if n = 0 ∨ p + n ≤ room then r else .outside

/-- The macro `__putc`. -/
def putcAt (room len p : Nat) : Pos := if p = sub32 len 1 then .ended else stored room p 1 (.goes (u32 (p + 1)))

def pieceAt (room len : Nat) (count : Nat → Nat) (l p : Nat) : Pos :=
  if u32 (p + l) < u32 (len + 1) then stored room p (count l) (.goes (u32 (p + l)))
  else stored room p (count (sub32 (sub32 len 1) p)) .ended

def padAt (room len l p : Nat) : Pos := pieceAt room len id l p

/-- `strncpy` stores a terminator behind a text that is shorter than its count. -/
def textAt (room len l p : Nat) : Pos := pieceAt room len (fun n => if l < n then l + 1 else n) l p

/-- The macro `__puts`. Whether the length is an int decides how it is compared with a negative width. -/
def putsAt (room len : Nat) (int : Bool) (padn : BitVec 32) (l p : Nat) : Pos :=
  if 0 ≤ padn.toInt then
    (if l < padn.toNat then padAt room len (padn.toNat - l) p else .goes p).bind (textAt room len l)
  else
    let padn' := -padn
    (textAt room len l p).bind fun p =>
      if (if int then (l : Int) < padn'.toInt else l < padn'.toNat) then padAt room len (padn'.toNat - l) p else .goes p

def putsNumber (room len : Nat) (padn : BitVec 32) (r : Option (List Byte × Nat)) (p : Nat) : Except Misread Pos :=
  r.elim (.error .buffer) fun b => .ok (putsAt room len true padn b.2 p)

def vsnprintfWord (room len : Nat) (padn : BitVec 32) (c : Byte) (v : BitVec 32) (p : Nat) : Except Misread Pos :=
  if c = ascii 'p' then
    match (putcAt room len p).bind (putcAt room len) with
    | .goes p => putsNumber room len 8 (printXs (v.setWidth 64) localBuf set0) p
    | r => .ok r
  else if c = ascii 'i' ∨ c = ascii 'd' then putsNumber room len padn (printDs (v.signExtend 64) localBuf true true) p
  else if c = ascii 'u' then putsNumber room len padn (printDs (v.setWidth 64) localBuf false true) p
  else if c = ascii 'x' then putsNumber room len padn (printXs (v.setWidth 64) localBuf set0) p
  else if c = ascii 'X' then putsNumber room len padn (printXs (v.setWidth 64) localBuf set1) p
  else .ok (putcAt room len p)

def vsnprintfConversion (room len : Nat) (padn : BitVec 32) (c : Byte) (args : List Arg) (p : Nat) :
    Except Misread (Pos × List Arg) :=
  if c = ascii 'l' then .error .long
  else if c = ascii 's' then
    match args with
    | .str (some s) :: args => .ok (putsAt room len false padn s.length p, args)
    | .str none :: args => .ok (putsAt room len true padn 6 p, args)
    | _ => .error .argument
  else if isOneOf ['p', 'i', 'd', 'u', 'x', 'X', 'c'] c then
    match args with
    | .word v :: args => do return (← vsnprintfWord room len padn c v p, args)
    | _ => .error .argument
  else .ok ((putcAt room len p).bind (putcAt room len), args)

/-- The value of `p` behind the loop of `vsnprintf`, of which what is stored is left out. -/
def vsnprintfLoop (room len : Nat) : Nat → List Byte → List Arg → Nat → Except Misread Nat
  | 0, _, _, _ => .error .endless
  | _ + 1, [], _, _ => .error .format
  | n + 1, c :: fmt, args, p =>
    if c = 0 then .ok p
    else if c = ascii '%' then do
      let fmt := skip (ascii '0') fmt
      let (padn, c, rest) ← widthLoop 1 0 (skip (ascii '-') fmt)
      let (r, args) ← vsnprintfConversion room len (padn * sign fmt) c args p
      match r with
      | .goes p => vsnprintfLoop room len n rest args p
      | .ended => .ok (sub32 len 1)
      | .outside => .error .buffer
    else
      match putcAt room len p with
      | .goes p => vsnprintfLoop room len n fmt args p
      | .ended => .ok (sub32 len 1)
      | .outside => .error .buffer

/-- The main loop of `vsnprintf` with a buffer of `room` bytes. -/
def vsnprintf (room len : Nat) (fmt : List Byte) (args : List Arg) : Except Misread Nat :=
  vsnprintfLoop room len (fmt.length + 1) fmt args 0

end Source

section Tokens

/-- What a format consists of: characters, conversions with the arguments that they take, and a conversion
that the end of the format cuts. -/
inductive Token (κ α : Type)
  | lit (c : Byte)
  | conv (k : κ) (args : List α)
  | cut

/-- A format reads as tokens, and the arguments are those that its conversions take. What stands behind
a percent sign is split by `next`, which finds no conversion where it is cut. -/
inductive Reads {κ α : Type} (next : List Byte → Option (κ × List Byte)) (takes : κ → List α → Prop) :
    List Byte → List α → List (Token κ α) → Prop
  | done (args : List α) : Reads next takes [] args []
  | lit {c : Byte} {fmt : List Byte} {args : List α} {ts : List (Token κ α)} :
    c ≠ ascii '%' → Reads next takes fmt args ts → Reads next takes (c :: fmt) args (.lit c :: ts)
  | cut {fmt : List Byte} {args : List α} : next fmt = none → Reads next takes (ascii '%' :: fmt) args [.cut]
  | conv {fmt rest : List Byte} {k : κ} {taken args : List α} {ts : List (Token κ α)} :
    next fmt = some (k, rest) → takes k taken → Reads next takes rest args ts →
      Reads next takes (ascii '%' :: fmt) (taken ++ args) (.conv k taken :: ts)

/-- Behind a minus sign and digits a conversion of `debugfv` has a letter, with or without an `l` before it. -/
def debugNext (fmt : List Byte) : Option ((Bool × Byte) × List Byte) :=
  match (skip (ascii '-') fmt).dropWhile isDigit with
  | [] => none
  | c :: rest =>
    if c = ascii 'l' then
      match rest with
      | [] => none
      | d :: rest => some ((true, d), rest)
    else some ((false, c), rest)

def debugTakes : Bool × Byte → List DebugArg → Prop
  | (true, c), taken => if isOneOf ['d', 'u', 'x', 'X', 'p'] c then ∃ v, taken = [.long v] else taken = []
  | (false, c), taken =>
    if c = ascii 's' then ∃ s, taken = [.str s]
    else if isOneOf ['c', 'd', 'u', 'x', 'X', 'p'] c then ∃ v, taken = [.word v]
    else taken = []

def widthOf (fmt : List Byte) : BitVec 32 :=
  (fmt.takeWhile isDigit).foldl (fun n c => n * 10 + (c - ascii '0').setWidth 32) 0

def vsnprintfNext (fmt : List Byte) : Option ((BitVec 32 × Byte) × List Byte) :=
  let fmt := skip (ascii '0') fmt
  let sized := skip (ascii '-') fmt
  match sized.dropWhile isDigit with
  | [] => none
  | c :: rest => some ((widthOf sized * sign fmt, c), rest)

def vsnprintfTakes : BitVec 32 × Byte → List Arg → Prop
  | (_, c), taken =>
    c ≠ ascii 'l' ∧
      if c = ascii 's' then ∃ s, taken = [.str s]
      else if isOneOf ['p', 'i', 'd', 'u', 'x', 'X', 'c'] c then ∃ v, taken = [.word v]
      else taken = []

/-- A step of the output: a character, padding or a text. -/
inductive Size
  | char
  | pad (l : Nat)
  | text (l : Nat)

def Size.advance (room len : Nat) : Size → Nat → Pos
  | .char => putcAt room len
  | .pad l => padAt room len l
  | .text l => textAt room len l

/-- Steps one behind the other, until one ends the output or falls outside the buffer. -/
def runSizes (room len : Nat) : List Size → Nat → Pos
  | [], p => .goes p
  | q :: qs, p => (q.advance room len p).bind (runSizes room len qs)

def fieldSizes (int : Bool) (padn : BitVec 32) (l : Nat) : List Size :=
  if 0 ≤ padn.toInt then (if l < padn.toNat then [.pad (padn.toNat - l)] else []) ++ [.text l]
  else
    let padn' := -padn
    .text l :: if (if int then (l : Int) < padn'.toInt else l < padn'.toNat) then [.pad (padn'.toNat - l)] else []

def convSizes : BitVec 32 × Byte → List Arg → List Size
  | (padn, _), [.str (some s)] => fieldSizes false padn s.length
  | (padn, _), [.str none] => fieldSizes true padn 6
  | (padn, c), [.word v] =>
    if c = ascii 'p' then .char :: .char :: fieldSizes true 8 (hexadecimal false v.toNat).length
    else if c = ascii 'i' ∨ c = ascii 'd' then fieldSizes true padn (decimal v.toInt).length
    else if c = ascii 'u' then fieldSizes true padn (decimal v.toNat).length
    else if c = ascii 'x' then fieldSizes true padn (hexadecimal false v.toNat).length
    else if c = ascii 'X' then fieldSizes true padn (hexadecimal true v.toNat).length
    else [.char]
  | _, _ => [.char, .char]

/-- Of a conversion that is cut, the percent sign and the terminator are put out. -/
def tokenSizes : Token (BitVec 32 × Byte) Arg → List Size
  | .lit _ => [.char]
  | .conv k taken => convSizes k taken
  | .cut => [.char, .char]

/-- A test of the output ends it before the format does. -/
def EndsOutput (room len : Nat) (ts : List (Token (BitVec 32 × Byte) Arg)) : Prop :=
  runSizes room len (ts.flatMap tokenSizes) 0 = .ended

/-- No step up to the end of the output stores outside the buffer. -/
def StaysInside (room len : Nat) (ts : List (Token (BitVec 32 × Byte) Arg)) : Prop :=
  runSizes room len (ts.flatMap tokenSizes) 0 ≠ .outside

end Tokens

section Reading

variable {fmt : List Byte} {c : Byte}

theorem widthLoop_append (padd padn : BitVec 32) (fmt : List Byte) :
    widthLoop padd padn (fmt ++ [0]) =
      .ok ((fmt.takeWhile isDigit).foldl (fun n c => n * 10 + padd * (c - ascii '0').setWidth 32) padn,
        (fmt.dropWhile isDigit ++ [0]).headD 0, (fmt.dropWhile isDigit ++ [0]).tail) := by
  induction fmt generalizing padn with
  | nil => rfl
  | cons c fmt ih =>
    rw [List.cons_append, widthLoop]
    by_cases hc : isDigit c = true
    · rw [if_pos hc, ih, List.takeWhile_cons_of_pos hc, List.dropWhile_cons_of_pos hc, List.foldl_cons]
    · rw [if_neg hc, List.takeWhile_cons_of_neg hc, List.dropWhile_cons_of_neg hc]
      rfl

theorem head_append (hc : c ≠ 0) : (fmt ++ [0]).head? = some c ↔ fmt.head? = some c := by
  cases fmt with
  | nil => exact ⟨fun h => absurd (Option.some.inj h).symm hc, fun h => nomatch h⟩
  | cons x fmt => rfl

theorem skip_append (hc : c ≠ 0) : skip c (fmt ++ [0]) = skip c fmt ++ [0] := by
  unfold skip
  by_cases h : fmt.head? = some c
  · rw [if_pos h, if_pos ((head_append hc).mpr h)]
    cases fmt with
    | nil => cases h
    | cons x fmt => rfl
  · rw [if_neg h, if_neg fun h' => h ((head_append hc).mp h')]

theorem sign_append : sign (fmt ++ [0]) = sign fmt := by
  unfold sign
  rw [if_congr (head_append (by decide)) rfl rfl]

theorem skip_suffix : skip c fmt <:+ fmt := by
  unfold skip
  split
  · exact List.tail_suffix fmt
  · exact List.suffix_rfl

end Reading

section Debug

variable {fmt rest : List Byte} {args taken : List DebugArg} {c padc : Byte} {padn : BitVec 32} {x : BitVec 64} {s sz : Bool}

theorem magnitude_ne_zero (hx : x ≠ 0) : (magnitude x s sz).2 ≠ 0 := by
  unfold magnitude
  cases sz with
  | true =>
    rw [if_pos rfl]
    split
    · exact fun h0 => hx (BitVec.neg_eq_zero_iff.mp h0)
    · exact hx
  | false =>
    rw [if_neg Bool.false_ne_true]
    split
    · next hneg =>
      intro h0
      have hwide := BitVec.toInt_signExtend_of_le (x := -x.setWidth 32) (by decide : 32 ≤ 64)
      have hzero : -x.setWidth 32 = 0 := by
        refine BitVec.eq_of_toInt_eq (hwide.symm.trans ?_)
        dsimp only at h0
        rw [h0]
        rfl
      rw [BitVec.neg_eq_zero_iff.mp hzero] at hneg
      exact absurd hneg.2 (by decide)
    · exact hx

theorem debugDs_some (x : BitVec 64) (s sz : Bool) : ∃ b, debugDs x localBuf s sz = some b := by
  have hlen : localBuf.length = 64 := List.length_replicate
  by_cases hx : x = 0
  · rw [hx, debugDs, printDs_zero (by omega)]
    exact ⟨_, rfl⟩
  · cases hmag : magnitude x s sz with
    | mk sign v =>
      have hv : v ≠ 0 := by
        have hne : (magnitude x s sz).2 ≠ 0 := magnitude_ne_zero hx
        rwa [hmag] at hne
      have hdigits := length_toDigits_le v.isLt
      have hsign : (if sign then ['-'] else []).length ≤ 1 := by cases sign <;> decide
      rw [debugDs, printDs_eq hx hmag hv (by rw [List.length_append]; omega)]
      exact ⟨_, rfl⟩

theorem debugXs_some (x : BitVec 64) (upper : Bool) : ∃ b, debugXs x localBuf (if upper then set1 else set0) = some b := by
  have hlen : localBuf.length = 64 := List.length_replicate
  rw [debugXs, printXs_eq x (by omega)]
  exact ⟨_, rfl⟩

theorem printed_ok {buf : Option (List Byte)} (h : ∃ b, buf = some b) (put : List Byte → List Byte) :
    ∃ out, printed buf put = .ok out := by
  obtain ⟨b, rfl⟩ := h
  exact ⟨put (cstr b), rfl⟩

theorem debugLongNumber_ok (v : BitVec 64) : ∃ out, debugLongNumber padc padn c v = .ok out := by
  unfold debugLongNumber
  split
  · exact printed_ok (debugDs_some _ _ _) _
  split
  · exact printed_ok (debugDs_some _ _ _) _
  split
  · exact printed_ok (debugXs_some _ false) _
  split
  · exact printed_ok (debugXs_some _ true) _
  · exact printed_ok (debugXs_some _ false) _

theorem debugShortNumber_ok (v : BitVec 32) : ∃ out, debugShortNumber padc padn c v = .ok out := by
  unfold debugShortNumber
  split
  · exact ⟨_, rfl⟩
  split
  · exact printed_ok (debugDs_some _ _ _) _
  split
  · exact printed_ok (debugDs_some _ _ _) _
  split
  · exact printed_ok (debugXs_some _ false) _
  split
  · exact printed_ok (debugXs_some _ true) _
  · exact printed_ok (debugXs_some _ false) _

theorem debugLong_ok (h : debugTakes (true, c) taken) : ∃ out, debugLong padc padn c (taken ++ args) = .ok (out, args) := by
  dsimp only [debugTakes] at h
  unfold debugLong
  by_cases hc : isOneOf ['d', 'u', 'x', 'X', 'p'] c
  · rw [if_pos hc] at h ⊢
    obtain ⟨v, rfl⟩ := h
    obtain ⟨out, hout⟩ : ∃ out, debugLongNumber padc padn c v = .ok out := debugLongNumber_ok v
    rw [List.singleton_append]
    dsimp only
    rw [hout]
    exact ⟨out, rfl⟩
  · rw [if_neg hc] at h ⊢
    rw [h]
    exact ⟨_, rfl⟩

theorem debugShort_ok (h : debugTakes (false, c) taken) : ∃ out, debugShort padc padn c (taken ++ args) = .ok (out, args) := by
  dsimp only [debugTakes] at h
  unfold debugShort
  by_cases hs : c = ascii 's'
  · rw [if_pos hs] at h ⊢
    obtain ⟨s, rfl⟩ := h
    exact ⟨_, rfl⟩
  rw [if_neg hs] at h ⊢
  by_cases hc : isOneOf ['c', 'd', 'u', 'x', 'X', 'p'] c
  · rw [if_pos hc] at h ⊢
    obtain ⟨v, rfl⟩ := h
    obtain ⟨out, hout⟩ : ∃ out, debugShortNumber padc padn c v = .ok out := debugShortNumber_ok v
    rw [List.singleton_append]
    dsimp only
    rw [hout]
    exact ⟨out, rfl⟩
  · rw [if_neg hc] at h ⊢
    rw [h]
    exact ⟨_, rfl⟩

theorem debugConversion_append (fmt : List Byte) (args : List DebugArg) : ∃ padc padn,
    debugConversion (fmt ++ [0]) args =
      debugLetter padc padn (((skip (ascii '-') fmt).dropWhile isDigit ++ [0]).headD 0)
        ((skip (ascii '-') fmt).dropWhile isDigit ++ [0]).tail args := by
  unfold debugConversion
  rw [skip_append (by decide), widthLoop_append]
  exact ⟨_, _, rfl⟩

theorem debugConversion_cut (h : debugNext fmt = none) (args : List DebugArg) :
    ∃ out, debugConversion (fmt ++ [0]) args = .ok (out, args, []) := by
  obtain ⟨padc, padn, hconv⟩ := debugConversion_append fmt args
  rw [hconv]
  unfold debugNext at h
  match (skip (ascii '-') fmt).dropWhile isDigit, h with
  | [], _ => exact ⟨[ascii '%', 0], rfl⟩
  | [c], h =>
    by_cases hl : c = ascii 'l'
    · rw [hl]
      exact ⟨[ascii '%', ascii 'l', 0], rfl⟩
    · dsimp only at h
      rw [if_neg hl] at h
      cases h
  | c :: d :: rest, h =>
    dsimp only at h
    split at h <;> cases h

theorem debugConversion_conv {k : Bool × Byte} (h : debugNext fmt = some (k, rest)) (htakes : debugTakes k taken) :
    ∃ out, debugConversion (fmt ++ [0]) (taken ++ args) = .ok (out, args, rest ++ [0]) := by
  obtain ⟨padc, padn, hconv⟩ := debugConversion_append fmt (taken ++ args)
  rw [hconv]
  unfold debugNext at h
  match (skip (ascii '-') fmt).dropWhile isDigit, h with
  | [], h => cases h
  | c :: tail, h =>
    show ∃ out, debugLetter padc padn c (tail ++ [0]) (taken ++ args) = _
    unfold debugLetter
    dsimp only at h
    by_cases hl : c = ascii 'l'
    · rw [if_pos hl] at h ⊢
      match tail, h with
      | [], h => cases h
      | d :: tail, h =>
        obtain ⟨rfl, rfl⟩ := Prod.mk.inj (Option.some.inj h)
        obtain ⟨out, hout⟩ : ∃ out, debugLong padc padn d (taken ++ args) = .ok (out, args) := debugLong_ok htakes
        rw [List.cons_append]
        dsimp only
        rw [hout]
        exact ⟨out, rfl⟩
    · rw [if_neg hl] at h ⊢
      obtain ⟨rfl, rfl⟩ := Prod.mk.inj (Option.some.inj h)
      obtain ⟨out, hout⟩ : ∃ out, debugShort padc padn c (taken ++ args) = .ok (out, args) := debugShort_ok htakes
      rw [hout]
      exact ⟨out, rfl⟩

theorem debugNext_rest {k : Bool × Byte} (h : debugNext fmt = some (k, rest)) :
    rest <:+ fmt ∧ rest.length < fmt.length := by
  have hsuffix : (skip (ascii '-') fmt).dropWhile isDigit <:+ fmt := (List.dropWhile_suffix _).trans skip_suffix
  unfold debugNext at h
  match (skip (ascii '-') fmt).dropWhile isDigit, h, hsuffix with
  | [], h, _ => cases h
  | c :: tail, h, hsuffix =>
    have hlen := hsuffix.length_le
    rw [List.length_cons] at hlen
    dsimp only at h
    by_cases hl : c = ascii 'l'
    · rw [if_pos hl] at h
      match tail, h, hsuffix, hlen with
      | [], h, _, _ => cases h
      | d :: tail, h, hsuffix, hlen =>
        obtain ⟨-, rfl⟩ := Prod.mk.inj (Option.some.inj h)
        rw [List.length_cons] at hlen
        exact ⟨((List.suffix_cons d _).trans (List.suffix_cons c _)).trans hsuffix, by omega⟩
    · rw [if_neg hl] at h
      obtain ⟨-, rfl⟩ := Prod.mk.inj (Option.some.inj h)
      exact ⟨(List.suffix_cons c _).trans hsuffix, hlen⟩

/-- The kernel's parser ends exactly where no conversion is cut, and where one is it reads on. -/
theorem debugfvLoop_reads {ts : List (Token (Bool × Byte) DebugArg)} (h : Reads debugNext debugTakes fmt args ts)
    (hnul : 0 ∉ fmt) {n : Nat} (hn : fmt.length + 1 < n) :
    (.cut ∉ ts → ∃ out, debugfvLoop n (fmt ++ [0]) args = .ok out) ∧
      (.cut ∈ ts → debugfvLoop n (fmt ++ [0]) args = .error .format) := by
  induction h generalizing n with
  | done args =>
    obtain ⟨n, rfl⟩ := Nat.exists_eq_add_one_of_ne_zero (show n ≠ 0 by omega)
    exact ⟨fun _ => ⟨[], rfl⟩, fun h => nomatch h⟩
  | @lit c fmt args ts hc _ ih =>
    obtain ⟨n, rfl⟩ := Nat.exists_eq_add_one_of_ne_zero (show n ≠ 0 by omega)
    obtain ⟨hc0, hnul⟩ := not_or.mp (List.mem_cons.not.mp hnul)
    rw [List.length_cons] at hn
    obtain ⟨hends, hcut⟩ := ih hnul (n := n) (by omega)
    rw [List.cons_append, debugfvLoop, if_neg (Ne.symm hc0), if_neg hc]
    constructor
    · intro hno
      obtain ⟨out, hout⟩ := hends fun hin => hno (List.mem_cons_of_mem _ hin)
      rw [hout]
      exact ⟨_, rfl⟩
    · intro hin
      rw [hcut ((List.mem_cons.mp hin).resolve_left (by rintro ⟨⟩))]
      rfl
  | @cut fmt args hnext =>
    obtain ⟨n, rfl⟩ := Nat.exists_eq_add_of_le (show 2 ≤ n by omega)
    obtain ⟨out, hout⟩ := debugConversion_cut hnext args
    refine ⟨fun hno => absurd (List.mem_singleton_self _) hno, fun _ => ?_⟩
    rw [List.cons_append, Nat.add_comm, debugfvLoop, if_neg (by decide), if_pos rfl, hout]
    rfl
  | @conv fmt rest k taken args ts hnext htakes _ ih =>
    obtain ⟨n, rfl⟩ := Nat.exists_eq_add_one_of_ne_zero (show n ≠ 0 by omega)
    obtain ⟨hsuffix, hlen⟩ := debugNext_rest hnext
    rw [List.length_cons] at hn
    obtain ⟨hends, hcut⟩ := ih (fun hin => hnul (List.mem_cons_of_mem _ (hsuffix.subset hin))) (n := n) (by omega)
    obtain ⟨out, hout⟩ : ∃ out, debugConversion (fmt ++ [0]) (taken ++ args) = .ok (out, args, rest ++ [0]) :=
      debugConversion_conv hnext htakes
    rw [List.cons_append, debugfvLoop, if_neg (by decide), if_pos rfl, hout]
    constructor
    · intro hno
      obtain ⟨out', hout'⟩ := hends fun hin => hno (List.mem_cons_of_mem _ hin)
      refine ⟨out ++ out', ?_⟩
      dsimp only [bind, Except.bind]
      rw [hout']
      rfl
    · intro hin
      dsimp only [bind, Except.bind]
      rw [hcut ((List.mem_cons.mp hin).resolve_left (by rintro ⟨⟩))]

end Debug

section Library

variable {fmt rest : List Byte} {args taken : List Arg} {c : Byte} {padn : BitVec 32} {room len p : Nat}

theorem Pos.bind_congr {r : Pos} {f g : Nat → Pos} (h : ∀ p, f p = g p) : r.bind f = r.bind g := by
  cases r with
  | goes p => exact h p
  | ended => rfl
  | outside => rfl

theorem runSizes_append (qs rs : List Size) (p : Nat) :
    runSizes room len (qs ++ rs) p = (runSizes room len qs p).bind (runSizes room len rs) := by
  induction qs generalizing p with
  | nil => rfl
  | cons q qs ih =>
    rw [List.cons_append, runSizes, runSizes]
    cases q.advance room len p with
    | goes p' => exact ih p'
    | ended => rfl
    | outside => rfl

theorem runSizes_singleton (q : Size) (p : Nat) : runSizes room len [q] p = q.advance room len p := by
  rw [runSizes]
  cases q.advance room len p <;> rfl

theorem putsAt_eq (int : Bool) (padn : BitVec 32) (l p : Nat) :
    putsAt room len int padn l p = runSizes room len (fieldSizes int padn l) p := by
  unfold putsAt fieldSizes
  by_cases hpos : 0 ≤ padn.toInt
  · rw [if_pos hpos, if_pos hpos, runSizes_append]
    by_cases hpad : l < padn.toNat
    · rw [if_pos hpad, if_pos hpad, runSizes_singleton]
      exact Pos.bind_congr fun p' => (runSizes_singleton (.text l) p').symm
    · rw [if_neg hpad, if_neg hpad]
      exact (runSizes_singleton (.text l) p).symm
  · rw [if_neg hpos, if_neg hpos]
    dsimp only
    rw [runSizes]
    refine Pos.bind_congr fun p' => ?_
    by_cases hpad : if int then (l : Int) < (-padn).toInt else l < (-padn).toNat
    · rw [if_pos hpad, if_pos hpad]
      exact (runSizes_singleton (.pad _) p').symm
    · rw [if_neg hpad, if_neg hpad]
      rfl

theorem putsNumber_eq {t : List Char} (p : Nat) : putsNumber room len padn (some (line t localBuf, t.length)) p =
    .ok (runSizes room len (fieldSizes true padn t.length) p) :=
  congrArg Except.ok (putsAt_eq true padn t.length p)

theorem vsnprintfWord_eq (v : BitVec 32) (p : Nat) :
    vsnprintfWord room len padn c v p = .ok (runSizes room len (convSizes (padn, c) [.word v]) p) := by
  have hlen : localBuf.length = 64 := List.length_replicate
  have hhex := fun upper => printXs_word hlen upper v
  have hlow := hhex false
  have hup := hhex true
  rw [if_neg Bool.false_ne_true] at hlow
  rw [if_pos rfl] at hup
  unfold vsnprintfWord
  dsimp only [convSizes]
  by_cases hp : c = ascii 'p'
  · rw [if_pos hp, if_pos hp, hlow, runSizes]
    dsimp only [Size.advance]
    cases putcAt room len p with
    | ended => rfl
    | outside => rfl
    | goes p' =>
      dsimp only [Pos.bind]
      rw [runSizes]
      dsimp only [Size.advance]
      cases putcAt room len p' with
      | ended => rfl
      | outside => rfl
      | goes q => exact putsNumber_eq q
  rw [if_neg hp, if_neg hp]
  by_cases hid : c = ascii 'i' ∨ c = ascii 'd'
  · rw [if_pos hid, if_pos hid, printDs_signed hlen]
    exact putsNumber_eq p
  rw [if_neg hid, if_neg hid]
  by_cases hu : c = ascii 'u'
  · rw [if_pos hu, if_pos hu, printDs_unsigned hlen]
    exact putsNumber_eq p
  rw [if_neg hu, if_neg hu]
  by_cases hx : c = ascii 'x'
  · rw [if_pos hx, if_pos hx, hlow]
    exact putsNumber_eq p
  rw [if_neg hx, if_neg hx]
  by_cases hX : c = ascii 'X'
  · rw [if_pos hX, if_pos hX, hup]
    exact putsNumber_eq p
  · rw [if_neg hX, if_neg hX, runSizes_singleton]
    rfl

theorem putcAt_twice (p : Nat) : (putcAt room len p).bind (putcAt room len) = runSizes room len [.char, .char] p := by
  rw [runSizes]
  exact Pos.bind_congr fun p' => (runSizes_singleton .char p').symm

theorem vsnprintfConversion_eq (room len : Nat) (args : List Arg) (h : vsnprintfTakes (padn, c) taken) (p : Nat) :
    vsnprintfConversion room len padn c (taken ++ args) p = .ok (runSizes room len (convSizes (padn, c) taken) p, args) := by
  obtain ⟨hl, h⟩ := h
  unfold vsnprintfConversion
  rw [if_neg hl]
  by_cases hs : c = ascii 's'
  · rw [if_pos hs] at h ⊢
    obtain ⟨s, rfl⟩ := h
    cases s with
    | none => exact congrArg (fun r => Except.ok (r, args)) (putsAt_eq true padn 6 p)
    | some s => exact congrArg (fun r => Except.ok (r, args)) (putsAt_eq false padn s.length p)
  rw [if_neg hs] at h ⊢
  by_cases hc : isOneOf ['p', 'i', 'd', 'u', 'x', 'X', 'c'] c
  · rw [if_pos hc] at h ⊢
    obtain ⟨v, rfl⟩ := h
    rw [List.singleton_append]
    dsimp only
    rw [vsnprintfWord_eq v]
    rfl
  · rw [if_neg hc] at h ⊢
    rw [h]
    exact congrArg (fun r => Except.ok (r, args)) (putcAt_twice p)

theorem vsnprintfNext_eq (fmt : List Byte) :
    vsnprintfNext fmt = match (skip (ascii '-') (skip (ascii '0') fmt)).dropWhile isDigit with
      | [] => none
      | c :: rest => some ((widthOf (skip (ascii '-') (skip (ascii '0') fmt)) * sign (skip (ascii '0') fmt), c), rest) :=
  rfl

theorem vsnprintfNext_rest {k : BitVec 32 × Byte} (h : vsnprintfNext fmt = some (k, rest)) :
    rest <:+ fmt ∧ rest.length < fmt.length := by
  have hsuffix : (skip (ascii '-') (skip (ascii '0') fmt)).dropWhile isDigit <:+ fmt :=
    (List.dropWhile_suffix _).trans (skip_suffix.trans skip_suffix)
  rw [vsnprintfNext_eq] at h
  match (skip (ascii '-') (skip (ascii '0') fmt)).dropWhile isDigit, h, hsuffix with
  | [], h, _ => cases h
  | c :: tail, h, hsuffix =>
    have hlen := hsuffix.length_le
    rw [List.length_cons] at hlen
    obtain ⟨-, rfl⟩ := Prod.mk.inj (Option.some.inj h)
    exact ⟨(List.suffix_cons c _).trans hsuffix, hlen⟩

def goesOn (room len n : Nat) (fmt : List Byte) (args : List Arg) : Pos → Except Misread Nat
  | .goes p => vsnprintfLoop room len n fmt args p
  | .ended => .ok (sub32 len 1)
  | .outside => .error .buffer

theorem vsnprintfLoop_char (n : Nat) (hc0 : c ≠ 0) (hc : c ≠ ascii '%') :
    vsnprintfLoop room len (n + 1) (c :: fmt) args p = goesOn room len n fmt args (putcAt room len p) := by
  rw [vsnprintfLoop, if_neg hc0, if_neg hc]
  cases putcAt room len p <;> rfl

theorem vsnprintfLoop_percent (n : Nat) :
    vsnprintfLoop room len (n + 1) (ascii '%' :: (fmt ++ [0])) args p = (do
      let d := (skip (ascii '-') (skip (ascii '0') fmt)).dropWhile isDigit ++ [0]
      let (r, args) ← vsnprintfConversion room len
        (widthOf (skip (ascii '-') (skip (ascii '0') fmt)) * sign (skip (ascii '0') fmt)) (d.headD 0) args p
      goesOn room len n d.tail args r) := by
  have hone : ∀ fmt : List Byte,
      (fmt.takeWhile isDigit).foldl (fun n c => n * 10 + 1 * (c - ascii '0').setWidth 32) 0 = widthOf fmt := by
    intro fmt
    have hunit : ∀ x : BitVec 32, 1 * x = x := BitVec.one_mul
    unfold widthOf
    simp only [hunit]
  rw [vsnprintfLoop, if_neg (by decide), if_pos rfl, skip_append (by decide)]
  dsimp only
  rw [skip_append (by decide), sign_append, widthLoop_append, hone]
  dsimp only [bind, Except.bind]
  cases vsnprintfConversion room len _ _ args p with
  | error e => rfl
  | ok res =>
    obtain ⟨r, args'⟩ := res
    cases r <;> rfl

theorem vsnprintfTakes_nul (padn : BitVec 32) : vsnprintfTakes (padn, 0) [] := by
  refine ⟨by decide, ?_⟩
  rw [if_neg (by decide), if_neg (by decide)]

/-- What becomes of the loop on a format that reads as tokens, by where their output goes. -/
structure LoopEnds (len : Nat) (ts : List (Token (BitVec 32 × Byte) Arg)) (r : Pos) (res : Except Misread Nat) : Prop where
  whole : ∀ q, r = .goes q → .cut ∉ ts → res = .ok q
  cut : ∀ q, r = .goes q → .cut ∈ ts → res = .error .format
  ended : r = .ended → res = .ok (sub32 len 1)
  outside : r = .outside → res = .error .buffer

theorem LoopEnds.of_ended {ts : List (Token (BitVec 32 × Byte) Arg)} : LoopEnds len ts .ended (.ok (sub32 len 1)) :=
  ⟨by rintro _ ⟨⟩, by rintro _ ⟨⟩, fun _ => rfl, by rintro ⟨⟩⟩

theorem LoopEnds.of_outside {ts : List (Token (BitVec 32 × Byte) Arg)} : LoopEnds len ts .outside (.error .buffer) :=
  ⟨by rintro _ ⟨⟩, by rintro _ ⟨⟩, by rintro ⟨⟩, fun _ => rfl⟩

theorem LoopEnds.cons {t : Token (BitVec 32 × Byte) Arg} {ts : List (Token (BitVec 32 × Byte) Arg)} {r : Pos}
    {n : Nat} (ht : t ≠ .cut) (h : ∀ q, r = .goes q →
      LoopEnds len ts (runSizes room len (ts.flatMap tokenSizes) q) (vsnprintfLoop room len n fmt args q)) :
    LoopEnds len (t :: ts) (r.bind (runSizes room len (ts.flatMap tokenSizes))) (goesOn room len n fmt args r) := by
  cases r with
  | goes q =>
    obtain ⟨hwhole, hcut, hended, houtside⟩ := h q rfl
    exact ⟨fun p hp hno => hwhole p hp fun hin => hno (List.mem_cons_of_mem _ hin),
      fun p hp hin => hcut p hp ((List.mem_cons.mp hin).resolve_left (Ne.symm ht)), hended, houtside⟩
  | ended => exact .of_ended
  | outside => exact .of_outside

/-- The library's parser goes on while its output does, and then it ends where no conversion is cut. -/
theorem vsnprintfLoop_reads (room len : Nat) {ts : List (Token (BitVec 32 × Byte) Arg)}
    (h : Reads vsnprintfNext vsnprintfTakes fmt args ts) (hnul : 0 ∉ fmt) {n : Nat} (hn : fmt.length + 1 < n) (p : Nat) :
    LoopEnds len ts (runSizes room len (ts.flatMap tokenSizes) p) (vsnprintfLoop room len n (fmt ++ [0]) args p) := by
  induction h generalizing n p with
  | done args =>
    obtain ⟨n, rfl⟩ := Nat.exists_eq_add_one_of_ne_zero (show n ≠ 0 by omega)
    exact ⟨fun q hq _ => congrArg Except.ok (Pos.goes.inj hq), fun _ _ h => (List.not_mem_nil h).elim, by rintro ⟨⟩,
      by rintro ⟨⟩⟩
  | @lit c fmt args ts hc _ ih =>
    obtain ⟨n, rfl⟩ := Nat.exists_eq_add_one_of_ne_zero (show n ≠ 0 by omega)
    obtain ⟨hc0, hnul⟩ := not_or.mp (List.mem_cons.not.mp hnul)
    rw [List.length_cons] at hn
    have hsizes : runSizes room len (tokenSizes (.lit c)) p = putcAt room len p := runSizes_singleton .char p
    rw [List.cons_append, vsnprintfLoop_char n (Ne.symm hc0) hc, List.flatMap_cons, runSizes_append, hsizes]
    exact .cons (by rintro ⟨⟩) fun q _ => ih hnul (by omega) q
  | @cut fmt args hnext =>
    obtain ⟨n, rfl⟩ := Nat.exists_eq_add_of_le (show 2 ≤ n by omega)
    have hnone : (skip (ascii '-') (skip (ascii '0') fmt)).dropWhile isDigit = [] := by
      rw [vsnprintfNext_eq] at hnext
      match (skip (ascii '-') (skip (ascii '0') fmt)).dropWhile isDigit, hnext with
      | [], _ => rfl
      | _ :: _, h => cases h
    have hconv := vsnprintfConversion_eq room len args
      (vsnprintfTakes_nul (widthOf (skip (ascii '-') (skip (ascii '0') fmt)) * sign (skip (ascii '0') fmt))) p
    rw [List.nil_append] at hconv
    rw [List.cons_append, Nat.add_comm, vsnprintfLoop_percent, hnone]
    dsimp only [List.nil_append, List.headD_cons, List.tail_cons]
    rw [hconv]
    change LoopEnds len _ (runSizes room len [.char, .char] p) (goesOn room len (n + 1) [] args (runSizes room len [.char, .char] p))
    cases runSizes room len [.char, .char] p with
    | goes q =>
      exact ⟨fun _ _ hno => absurd (List.mem_singleton_self _) hno, fun _ _ _ => rfl, by rintro ⟨⟩, by rintro ⟨⟩⟩
    | ended => exact .of_ended
    | outside => exact .of_outside
  | @conv fmt rest k taken args ts hnext htakes _ ih =>
    obtain ⟨n, rfl⟩ := Nat.exists_eq_add_one_of_ne_zero (show n ≠ 0 by omega)
    obtain ⟨hsuffix, hlen⟩ := vsnprintfNext_rest hnext
    rw [List.length_cons] at hn
    rw [List.cons_append, vsnprintfLoop_percent, List.flatMap_cons, runSizes_append]
    rw [vsnprintfNext_eq] at hnext
    match (skip (ascii '-') (skip (ascii '0') fmt)).dropWhile isDigit, hnext with
    | c :: tail, hnext =>
      obtain ⟨rfl, rfl⟩ := Prod.mk.inj (Option.some.inj hnext)
      dsimp only [List.cons_append, List.headD_cons, List.tail_cons, tokenSizes]
      rw [vsnprintfConversion_eq room len args htakes]
      exact .cons (by rintro ⟨⟩) fun q _ =>
        ih (fun hin => hnul (List.mem_cons_of_mem _ (hsuffix.subset hin))) (by omega) q

end Library

section Formats

/-- Arguments can be given for each format of a kind that is kept by what follows a token. -/
theorem exists_reads {κ α : Type} {next : List Byte → Option (κ × List Byte)} {takes : κ → List α → Prop}
    {P : List Byte → Prop} (htail : ∀ c fmt, P (c :: fmt) → P fmt)
    (hnext : ∀ fmt k rest, P fmt → next fmt = some (k, rest) →
      P rest ∧ rest.length < fmt.length ∧ ∃ taken, takes k taken) :
    ∀ n fmt, fmt.length < n → P fmt → ∃ args ts, Reads next takes fmt args ts := by
  intro n
  induction n with
  | zero => exact fun fmt hlen => absurd hlen (Nat.not_lt_zero _)
  | succ n ih =>
    intro fmt hlen hP
    cases fmt with
    | nil => exact ⟨[], [], .done []⟩
    | cons c fmt =>
      rw [List.length_cons] at hlen
      by_cases hc : c = ascii '%'
      · cases hsplit : next fmt with
        | none => exact ⟨[], [.cut], hc ▸ .cut hsplit⟩
        | some r =>
          obtain ⟨hrest, hshort, taken, htaken⟩ := hnext fmt r.1 r.2 (htail c fmt hP) hsplit
          obtain ⟨args, ts, hreads⟩ := ih r.2 (by omega) hrest
          exact ⟨taken ++ args, .conv r.1 taken :: ts, hc ▸ .conv hsplit htaken hreads⟩
      · obtain ⟨args, ts, hreads⟩ := ih fmt (by omega) (htail c fmt hP)
        exact ⟨args, .lit c :: ts, .lit hc hreads⟩

theorem debugfv_reads (fmt : List Byte) : ∃ args ts, Reads debugNext debugTakes fmt args ts := by
  refine exists_reads (P := fun _ => True) (fun _ _ _ => trivial) ?_ _ fmt (Nat.lt_succ_self _) trivial
  rintro fmt ⟨l, c⟩ rest - hnext
  refine ⟨trivial, (debugNext_rest hnext).2, ?_⟩
  cases l with
  | true =>
    by_cases hc : isOneOf ['d', 'u', 'x', 'X', 'p'] c
    · exact ⟨[.long 0], (if_pos hc).mpr ⟨0, rfl⟩⟩
    · exact ⟨[], (if_neg hc).mpr rfl⟩
  | false =>
    by_cases hs : c = ascii 's'
    · exact ⟨[.str none], (if_pos hs).mpr ⟨none, rfl⟩⟩
    by_cases hc : isOneOf ['c', 'd', 'u', 'x', 'X', 'p'] c
    · exact ⟨[.word 0], ((if_neg hs).trans (if_pos hc)).mpr ⟨0, rfl⟩⟩
    · exact ⟨[], ((if_neg hs).trans (if_neg hc)).mpr rfl⟩

theorem vsnprintf_reads {fmt : List Byte} (hl : ascii 'l' ∉ fmt) :
    ∃ args ts, Reads vsnprintfNext vsnprintfTakes fmt args ts := by
  refine exists_reads (P := (ascii 'l' ∉ ·)) (fun _ _ h => (not_or.mp (List.mem_cons.not.mp h)).2) ?_ _ fmt
    (Nat.lt_succ_self _) hl
  rintro fmt ⟨padn, c⟩ rest hl hnext
  obtain ⟨hsuffix, hlen⟩ := vsnprintfNext_rest hnext
  refine ⟨fun hin => hl (hsuffix.subset hin), hlen, ?_⟩
  have hc : c ≠ ascii 'l' := by
    have hdrop : (skip (ascii '-') (skip (ascii '0') fmt)).dropWhile isDigit <:+ fmt :=
      (List.dropWhile_suffix _).trans (skip_suffix.trans skip_suffix)
    rw [vsnprintfNext_eq] at hnext
    match (skip (ascii '-') (skip (ascii '0') fmt)).dropWhile isDigit, hnext, hdrop with
    | d :: tail, hnext, hdrop =>
      obtain ⟨hk, -⟩ := Prod.mk.inj (Option.some.inj hnext)
      rw [← (Prod.mk.inj hk).2]
      exact fun heq => hl (hdrop.subset (heq ▸ List.mem_cons_self))
  by_cases hs : c = ascii 's'
  · exact ⟨[.str none], hc, (if_pos hs).mpr ⟨none, rfl⟩⟩
  by_cases hw : isOneOf ['p', 'i', 'd', 'u', 'x', 'X', 'c'] c
  · exact ⟨[.word 0], hc, ((if_neg hs).trans (if_pos hw)).mpr ⟨0, rfl⟩⟩
  · exact ⟨[], hc, ((if_neg hs).trans (if_neg hw)).mpr rfl⟩

/-- The parsers end without a read behind the terminator exactly where no conversion is cut, or where the
output of the library ends before, and where the library does not store outside its buffer until then. -/
theorem parsers_stop_iff (fmt : List Byte) (hnul : 0 ∉ fmt) :
    (∀ args ts, Reads debugNext debugTakes fmt args ts →
      ((∃ out, debugfv (fmt ++ [0]) args = .ok out) ↔ .cut ∉ ts)) ∧
    ∀ room len args ts, Reads vsnprintfNext vsnprintfTakes fmt args ts →
      ((∃ p, vsnprintf room len (fmt ++ [0]) args = .ok p) ↔
        StaysInside room len ts ∧ (.cut ∉ ts ∨ EndsOutput room len ts)) := by
  constructor
  · intro args ts h
    obtain ⟨hends, hcut⟩ := debugfvLoop_reads h hnul (n := (fmt ++ [0]).length + 1)
      (by rw [List.length_append, List.length_singleton]; omega)
    refine ⟨?_, hends⟩
    rintro ⟨out, hout⟩ hin
    exact nomatch (hcut hin).symm.trans hout
  · intro room len args ts h
    have hends := vsnprintfLoop_reads room len h hnul (n := (fmt ++ [0]).length + 1)
      (by rw [List.length_append, List.length_singleton]; omega) 0
    have hcall : vsnprintf room len (fmt ++ [0]) args = vsnprintfLoop room len ((fmt ++ [0]).length + 1) (fmt ++ [0]) args 0 := rfl
    unfold StaysInside EndsOutput
    rw [hcall]
    cases hr : runSizes room len (ts.flatMap tokenSizes) 0 with
    | goes q =>
      have hinside : Pos.goes q ≠ .outside := by rintro ⟨⟩
      by_cases hin : .cut ∈ ts
      · rw [hends.cut q hr hin]
        constructor
        · rintro ⟨_, ⟨⟩⟩
        · rintro ⟨_, hno | hend⟩
          · exact absurd hin hno
          · cases hend
      · rw [hends.whole q hr hin]
        exact ⟨fun _ => ⟨hinside, .inl hin⟩, fun _ => ⟨q, rfl⟩⟩
    | ended =>
      have hinside : Pos.ended ≠ .outside := by rintro ⟨⟩
      rw [hends.ended hr]
      exact ⟨fun _ => ⟨hinside, .inr rfl⟩, fun _ => ⟨_, rfl⟩⟩
    | outside =>
      rw [hends.outside hr]
      constructor
      · rintro ⟨_, ⟨⟩⟩
      · exact fun h => absurd rfl h.1

/-- A signed number in a field of four characters, and the character `l` for the kernel. -/
theorem parsers_stop_number :
    (∃ out, debugfv (bytes ['%', '4', 'l', 'd'] ++ [0]) [.long (-5)] = .ok out) ∧
      ∃ p, vsnprintf 16 16 (bytes ['%', '4', 'd'] ++ [0]) [.word (-5)] = .ok p := by
  have hdebug : Reads debugNext debugTakes (bytes ['%', '4', 'l', 'd']) ([.long (-5)] ++ []) [.conv (true, ascii 'd') [.long (-5)]] :=
    .conv (show debugNext (bytes ['4', 'l', 'd']) = some ((true, ascii 'd'), []) by decide) ⟨-5, rfl⟩ (.done [])
  have hlibrary : Reads vsnprintfNext vsnprintfTakes (bytes ['%', '4', 'd']) ([.word (-5)] ++ [])
      [.conv (4, ascii 'd') [.word (-5)]] :=
    .conv (show vsnprintfNext (bytes ['4', 'd']) = some ((4, ascii 'd'), []) by decide) ⟨by decide, -5, rfl⟩ (.done [])
  have hinside : StaysInside 16 16 [.conv (4, ascii 'd') [.word (-5)]] := by
    unfold StaysInside
    decide +kernel
  exact ⟨((parsers_stop_iff _ (by decide)).1 _ _ hdebug).mpr (by rintro (_ | ⟨_, ⟨⟩⟩)),
    ((parsers_stop_iff _ (by decide)).2 16 16 _ _ hlibrary).mpr ⟨hinside, .inl (by rintro (_ | ⟨_, ⟨⟩⟩))⟩⟩

/-- A percent sign at the end of the format. -/
theorem cut_format_read_on :
    Reads debugNext debugTakes (bytes ['%']) [] [.cut] ∧ debugfv (bytes ['%'] ++ [0]) [] = .error .format ∧
      Reads vsnprintfNext vsnprintfTakes (bytes ['%']) [] [.cut] ∧
        vsnprintf 16 16 (bytes ['%'] ++ [0]) [] = .error .format :=
  ⟨.cut rfl, rfl, .cut rfl, by decide +kernel⟩

/-- Padding behind a text that fills the buffer is stored without end. -/
example : vsnprintf 3 3 (bytes ['%', '-', '5', 's'] ++ [0]) [.str (some (bytes ['a', 'b', 'c']))] = .error .buffer := by
  decide +kernel

end Formats

end YggKernel.Print.Parsers
