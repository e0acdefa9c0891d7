import YggKernel.Fault
import YggKernel.Strings

namespace YggKernel.Dev

open Lib.ByteMemory Strings

def tarFile : Int := 0
def tarDir : Int := 5
def tarUndef : Int := 7

/-- The fields of a header lie at these offsets from it. -/
def offName : Nat := 0
def offSize : Nat := 124
def offTypeflag : Nat := 156
def offMagic : Nat := 257

def tarSize : Nat := 512

def octRound (res : BitVec 32) (c : BitVec 8) : BitVec 32 :=
  if c = 0 then res else (res <<< 3) ||| (c.signExtend 32 - 48)

def tarOct2u32 (m : Mem) (oct len : Nat) : BitVec 32 := (loadBytes m oct len).foldl octRound 0

def ustar : List (BitVec 8) := [0x75, 0x73, 0x74, 0x61, 0x72]

def tarIsUstar (m : Mem) (t : Nat) : Bool := strncmpAt m (t + offMagic) ustar 5 = 0

def tarType (m : Mem) (t : Nat) (isUstar : Bool) : Int :=
  if isUstar then
    if m (t + offTypeflag) = 0 then tarFile
    else if (m (t + offTypeflag)).toInt - 48 < 7 then (m (t + offTypeflag)).toInt - 48
    else tarUndef
  else if (List.range 100).any fun i => m (t + offName + i) = 0x2F ∧ (i = 99 ∨ m (t + offName + (i + 1)) = 0) then
    tarDir
  else tarFile

def mmAlignUp (p a : BitVec 32) : BitVec 32 := (p + a - 1) &&& ~~~(a - 1)

/-- The loop of `initrd_find_file`. -/
def findLoop (m : Mem) (name : List (BitVec 8)) : Nat → Nat → Nat → Except Fault Nat
  | 0, _, _ => .error .hang
  | n + 1, it, zb =>
    if m (it + offName) = 0 then
      if zb ≠ 0 then .ok mmNaddr
      else findLoop m name n (u32 (it + tarSize)) (zb + 1)
    else if tarType m it (tarIsUstar m it) = tarFile then
      if strncmpAt m (it + offName) name 100 = 0 then .ok it
      else
        let filesz := tarOct2u32 m (it + offSize) 12
        findLoop m name n (u32 (it + tarSize * ((mmAlignUp filesz 512 / 512).toNat + 1))) 0
    else findLoop m name n (u32 (it + tarSize)) 0

/-- The pointer moves by multiples of 512 bytes and memory does not change, so a loop that runs
for this many rounds repeats itself. -/
def allRounds : Nat := 2 ^ 24

def initrdFindFile (m : Mem) (base : Nat) (name : List (BitVec 8)) : Except Fault Nat :=
  findLoop m name allRounds base 0

/-- Memory, and the fields of the open file that track the position. -/
structure OpenFile where
  mem : Mem
  pos0 : Nat
  pos1 : Nat

def initramfsOpen (base : Nat) (path : List (BitVec 8)) (s : OpenFile) : Except Fault (Int × OpenFile) := do
  let loc ← initrdFindFile s.mem base path
  if loc = mmNaddr then return (-1, s)
  else return (0, { s with pos0 := u32 (loc + tarSize), pos1 := (tarOct2u32 s.mem (loc + offSize) 12).toNat })

def memcpy (m : Mem) (dst src len : Nat) : Mem := copyUp m dst src len

def initramfsRead (data len : Nat) (s : OpenFile) : Int × OpenFile :=
  let l := if len > s.pos1 then s.pos1 else len
  ((BitVec.ofNat 32 l).toInt, ⟨memcpy s.mem data s.pos0 l, u32 (s.pos0 + l), s.pos1 - l⟩)

end YggKernel.Dev
