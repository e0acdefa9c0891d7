import YggKernel.Fault
import YggKernel.Print.Numerals
import YggKernel.Strings

namespace YggKernel.Print

open Lib.Buffers Strings

/-- An argument of a call: a string, which may be the null pointer, or a 32-bit word. -/
inductive Arg
  | str (s : Option (List Byte))
  | word (v : BitVec 32)

/-- The variables that the output macros share, and whether one of them has left for `__end`. -/
structure Out where
  buf : List Byte
  p : Nat
  ended : Bool

section Source

def cstr (b : List Byte) : List Byte := b.takeWhile (· ≠ 0)

def strncpy (b : List Byte) (p : Nat) (s : List Byte) (l : Nat) : Option (List Byte) := do
  let b ← storeAll b p (s.take l)
  if s.length < l then store b (p + s.length) 0 else return b

def putc (len : Nat) (ch : Byte) (o : Out) : Option Out :=
  if o.ended then some o
  else if o.p = len - 1 then some { o with ended := true }
  else do return ⟨← store o.buf o.p ch, o.p + 1, false⟩

/-- The four tests of `__puts`: a piece that is too long is cut and ends the output. A size that
would be negative wraps around. -/
def piece (len l : Nat) (write : List Byte → Nat → Nat → Option (List Byte)) (o : Out) : Option Out :=
  if o.ended then some o
  else if o.p + l < len + 1 then do return ⟨← write o.buf o.p l, o.p + l, false⟩
  else do return ⟨← write o.buf o.p (sub32 (len - 1) o.p), len - 1, true⟩

def putPad (len : Nat) (padc : Byte) (padd : Nat) : Out → Option Out :=
  piece len padd fun b p l => memset b p padc l

def putText (len : Nat) (s : List Byte) (l : Nat) : Out → Option Out :=
  piece len l fun b p n => strncpy b p s n

def puts (len : Nat) (padn : Int) (padc : Byte) (s : List Byte) (l : Nat) (o : Out) : Option Out :=
  if padn ≥ 0 then do
    let o ← if l < padn then putPad len padc (padn - l).toNat o else some o
    putText len s l o
  else do
    let o ← putText len s l o
    if l < -padn then putPad len padc (-padn - l).toNat o else some o

/-- The width in decimal. A width that an int cannot hold overflows, which has no defined result. -/
def width : Nat → List Byte → Option (Nat × List Byte)
  | padn, [] => some (padn, [])
  | padn, c :: fmt =>
    if ascii '0' ≤ c ∧ c ≤ ascii '9' then
      if padn * 10 + (c - ascii '0').toNat < 2 ^ 31 then width (padn * 10 + (c - ascii '0').toNat) fmt
      else none
    else some (padn, c :: fmt)

def sized (pads : Int) (padc : Byte) (fmt : List Byte) : Option (Int × Byte × Byte × List Byte) := do
  match ← width 0 fmt with
  | (_, []) => none
  | (padn, c :: fmt) => return (padn * pads, padc, c, fmt)

def aligned (padc : Byte) (fmt : List Byte) : Option (Int × Byte × Byte × List Byte) :=
  if fmt.head? = some (ascii '-') then sized (-1) padc fmt.tail else sized 1 padc fmt

def directive (fmt : List Byte) : Option (Int × Byte × Byte × List Byte) :=
  if fmt.head? = some (ascii '0') then aligned (ascii '0') fmt.tail else aligned (ascii ' ') fmt

/-- One conversion. Whatever stands in `cbuf` before it is not read. -/
def convert (len : Nat) (cbuf : List Byte) (padn : Int) (padc c : Byte) (args : List Arg) (o : Out) :
    Option (Out × List Arg) :=
  if c = ascii 's' then
    match args with
    | .str (some s) :: args => do return (← puts len padn padc s s.length o, args)
    | .str none :: args => do return (← puts len padn padc (bytes ['(', 'n', 'u', 'l', 'l', ')']) 6 o, args)
    | _ => none
  else if c = ascii 'l' then none
  else match args with
    | .word v :: rest =>
      if c = ascii 'p' then do
        let o ← putc len (ascii '0') o
        let o ← putc len (ascii 'x') o
        let (cbuf, clen) ← printXs (v.setWidth 64) cbuf set0
        return (← puts len 8 (ascii '0') (cstr cbuf) clen o, rest)
      else if c = ascii 'i' ∨ c = ascii 'd' then do
        let (cbuf, clen) ← printDs (v.signExtend 64) cbuf true true
        return (← puts len padn padc (cstr cbuf) clen o, rest)
      else if c = ascii 'u' then do
        let (cbuf, clen) ← printDs (v.setWidth 64) cbuf false true
        return (← puts len padn padc (cstr cbuf) clen o, rest)
      else if c = ascii 'x' then do
        let (cbuf, clen) ← printXs (v.setWidth 64) cbuf set0
        return (← puts len padn padc (cstr cbuf) clen o, rest)
      else if c = ascii 'X' then do
        let (cbuf, clen) ← printXs (v.setWidth 64) cbuf set1
        return (← puts len padn padc (cstr cbuf) clen o, rest)
      else if c = ascii 'c' then do return (← putc len (v.setWidth 8) o, rest)
      else do return (← putc len c (← putc len (ascii '%') o), args)
    | _ =>
      if c ∈ bytes ['p', 'i', 'd', 'u', 'x', 'X', 'c'] then none
      else do return (← putc len c (← putc len (ascii '%') o), args)

/-- Each round takes a character of the format at least, so its length and one is enough fuel. -/
def formatLoop (len : Nat) (cbuf : List Byte) : Nat → List Byte → List Arg → Out → Option Out
  | 0, _, _, _ => none
  | n + 1, fmt, args, o =>
    if o.ended then some o
    else match fmt with
      | [] => some o
      | c :: fmt =>
        if c = ascii '%' then do
          let (padn, padc, c, fmt) ← directive fmt
          let (o, args) ← convert len cbuf padn padc c args o
          formatLoop len cbuf n fmt args o
        else do formatLoop len cbuf n fmt args (← putc len c o)

/-- The result is an int. None stands for a store outside the buffer and for what has no defined
result; the format and the strings are given without their terminators. -/
def vsnprintf (buf : List Byte) (len : Nat) (cbuf fmt : List Byte) (args : List Arg) : Option (Int × List Byte) := do
  let o ← formatLoop len cbuf (fmt.length + 1) fmt args ⟨buf, 0, false⟩
  let buf ← store o.buf o.p 0
  return ((o.p : Int).bmod (2 ^ 32), buf)

end Source

section Calls

inductive Letter
  | p | i | d | u | x | X | c
  deriving DecidableEq

def Letter.char : Letter → Char
  | .p => 'p'
  | .i => 'i'
  | .d => 'd'
  | .u => 'u'
  | .x => 'x'
  | .X => 'X'
  | .c => 'c'

/-- The optional part of a conversion. A width without a flag before it starts with no zero. -/
structure Options where
  zero : Bool
  minus : Bool
  width : List (Fin 10)
  lead : zero = false → minus = false → width.head? ≠ some 0

/-- A piece of a format string, with the argument that it takes. -/
inductive Item
  | lit (c : Byte) (hnul : c ≠ 0) (hpercent : c ≠ ascii '%')
  | str (opts : Options) (s : Option (List Byte)) (hnul : ∀ t ∈ s, (0 : Byte) ∉ t)
  | word (opts : Options) (k : Letter) (v : BitVec 32)

def digitByte (d : Fin 10) : Byte := BitVec.ofNat 8 (48 + d.val)

def Options.bytes (opts : Options) : List Byte :=
  (if opts.zero then [ascii '0'] else []) ++ (if opts.minus then [ascii '-'] else []) ++ opts.width.map digitByte

def Item.format : Item → List Byte
  | .lit c _ _ => [c]
  | .str opts _ _ => ascii '%' :: (opts.bytes ++ [ascii 's'])
  | .word opts k _ => ascii '%' :: (opts.bytes ++ [ascii k.char])

def Item.arg : Item → List Arg
  | .lit _ _ _ => []
  | .str _ s _ => [.str s]
  | .word _ _ v => [.word v]

def formatOf (items : List Item) : List Byte := items.flatMap Item.format

def argsOf (items : List Item) : List Arg := items.flatMap Item.arg

/-- The pieces of output in their order: a character by itself, padding or the text of a
conversion, and a width that overflows. -/
inductive Piece
  | char (c : Byte)
  | pad (c : Byte) (padd : Nat)
  | text (s : List Byte)
  | overflow

def Piece.bytes : Piece → List Byte
  | .char c => [c]
  | .pad c padd => List.replicate padd c
  | .text s => s
  | .overflow => []

def Options.value (opts : Options) : Nat := opts.width.foldl (fun n d => n * 10 + d.val) 0

def padded (left : Bool) (padn : Nat) (padc : Byte) (s : List Byte) : List Piece :=
  if s.length < padn then
    if left then [.text s, .pad padc (padn - s.length)] else [.pad padc (padn - s.length), .text s]
  else [.text s]

def Options.pieces (opts : Options) (s : List Byte) : List Piece :=
  padded opts.minus opts.value (if opts.zero then ascii '0' else ascii ' ') s

def Letter.pieces (opts : Options) (v : BitVec 32) : Letter → List Piece
  | .p => .char (ascii '0') :: .char (ascii 'x') :: padded false 8 (ascii '0') (Print.bytes (hexadecimal false v.toNat))
  | .i => opts.pieces (Print.bytes (decimal v.toInt))
  | .d => opts.pieces (Print.bytes (decimal v.toInt))
  | .u => opts.pieces (Print.bytes (decimal v.toNat))
  | .x => opts.pieces (Print.bytes (hexadecimal false v.toNat))
  | .X => opts.pieces (Print.bytes (hexadecimal true v.toNat))
  | .c => [.char (v.setWidth 8)]

def Item.pieces : Item → List Piece
  | .lit c _ _ => [.char c]
  | .str opts s _ =>
    if 2 ^ 31 ≤ opts.value then [.overflow]
    else opts.pieces (s.getD (Print.bytes ['(', 'n', 'u', 'l', 'l', ')']))
  | .word opts k v => if 2 ^ 31 ≤ opts.value then [.overflow] else k.pieces opts v

def piecesOf (items : List Item) : List Piece := items.flatMap Item.pieces

def textOf (pieces : List Piece) : List Byte := pieces.flatMap Piece.bytes

def unboundedText (items : List Item) : List Byte := textOf (piecesOf items)

end Calls

end YggKernel.Print
