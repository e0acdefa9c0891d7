import YggKernel.Fault
import YggKernel.Lib.ByteMemory

namespace YggKernel.Heap

open Lib.Program Lib.ByteMemory

def heapMax : Nat := 16
def heapMagic : Nat := 0xDEADF00D
def heapFlgUsed : Nat := 1 <<< 4

/-- Memory, and the array `s_heap_regions` of first headers. -/
structure HeapMem where
  mem : Mem
  regions : Nat → Nat

/-- The fields of a header lie at these offsets from it. -/
def offFlags : Nat := 0
def offSize : Nat := 4
def offPrev : Nat := 8
def offNext : Nat := 12

def heapBlockSize : Nat := 16

def heapData (b : Nat) : Nat := u32 (b + heapBlockSize)

def field (off b : Nat) : Prog Fault HeapMem Nat := do
  pure (load32 (← get).mem (b + off))

def setField (off b v : Nat) : Prog Fault HeapMem Unit :=
  modify fun h => { h with mem := store32 h.mem (b + off) v }

def mmAlignUp (p a : Nat) : Nat := u32 (p + a - 1) &&& (0xFFFFFFFF - (a - 1))

def heapInit : Prog Fault HeapMem Unit :=
  modify fun h => { h with regions := fun i => if i < heapMax then 0 else h.regions i }

def addRegionAt (heap : Nat) : List Nat → Prog Fault HeapMem Unit
  | [] => throw (.panic "No free heap regions left to allocate\n")
  | i :: rest => do
    if (← get).regions i = 0 then
      modify fun h => { h with regions := Function.update h.regions i heap }
    else addRegionAt heap rest

def heapAddRegion (a b : Nat) : Prog Fault HeapMem Unit := do
  let a := mmAlignUp a 8
  let sz := sub32 (sub32 b a) heapBlockSize
  setField offFlags a heapMagic
  setField offSize a sz
  setField offPrev a 0
  setField offNext a 0
  addRegionAt a (List.range heapMax)

/-- Case 1 of `heap_alloc_single`: the block is used as a whole. -/
def allocWhole (it count : Nat) : Prog Fault HeapMem Nat := do
  setField offFlags it ((← field offFlags it) ||| heapFlgUsed)
  setField offSize it count
  return heapData it

/-- Case 2 of `heap_alloc_single`: a new header cuts off the rest of the block. The
back link of the block behind is left as it is. -/
def allocSplit (it count : Nat) : Prog Fault HeapMem Nat := do
  let newb := u32 (heapData it + count)
  setField offNext newb (← field offNext it)
  setField offPrev newb it
  setField offNext it newb
  setField offSize newb (sub32 (sub32 (← field offSize it) count) heapBlockSize)
  setField offSize it count
  setField offFlags it ((← field offFlags it) ||| heapFlgUsed)
  setField offFlags newb heapMagic
  return heapData it

/-- The walk over the blocks of one region. A chain that is longer than memory
has addresses never ends. -/
def heapAllocSingle : Nat → Nat → Nat → Prog Fault HeapMem Nat
  | 0, _, _ => throw .hang
  | fuel + 1, it, count => do
    if it = 0 then return 0
    if (← field offFlags it) &&& heapFlgUsed ≠ 0 then
      heapAllocSingle fuel (← field offNext it) count
    else if (← field offSize it) < count then
      heapAllocSingle fuel (← field offNext it) count
    else if (← field offSize it) ≥ count ∧ (← field offSize it) < u32 (count + heapBlockSize) then
      allocWhole it count
    else allocSplit it count

/-- The part of `heap_free_single` that takes in a free block that follows. -/
def joinNext (it : Nat) : Prog Fault HeapMem Unit := do
  let nx ← field offNext it
  if nx ≠ 0 then
    if (← field offFlags nx) &&& heapFlgUsed = 0 then
      setField offSize it (u32 ((← field offSize it) + u32 ((← field offSize nx) + heapBlockSize)))
      let nxnx ← field offNext nx
      if nxnx ≠ 0 then setField offPrev nxnx it
      let nx ← field offNext it
      setField offFlags nx ((← field offFlags nx) &&& (0xFFFFFFFF ^^^ heapMagic))
      setField offNext it (← field offNext (← field offNext it))

/-- The part of `heap_free_single` that goes back to a free block before and takes
in what follows that one. -/
def joinPrev (it : Nat) : Prog Fault HeapMem Unit := do
  let pr ← field offPrev it
  if pr ≠ 0 then
    if (← field offFlags pr) &&& heapFlgUsed = 0 then
      let nx ← field offNext pr
      setField offSize pr (u32 ((← field offSize pr) + u32 ((← field offSize nx) + heapBlockSize)))
      let nx ← field offNext pr
      setField offFlags nx ((← field offFlags nx) &&& (0xFFFFFFFF ^^^ heapMagic))
      setField offNext pr (← field offNext (← field offNext pr))
      let nx ← field offNext pr
      if nx ≠ 0 then setField offPrev nx pr

/-- Whether the pointer was accepted, zero in the source. -/
def heapFreeSingle (ptr : Nat) : Prog Fault HeapMem Bool := do
  let it := sub32 ptr heapBlockSize
  let flags ← field offFlags it
  if flags &&& heapMagic = heapMagic ∧ flags &&& heapFlgUsed ≠ 0 then
    setField offFlags it (flags ^^^ heapFlgUsed)
    joinNext it
    joinPrev it
    return true
  else
    return false

def chainFuel : Nat := 4294967296

def allocFrom (count : Nat) : List Nat → Prog Fault HeapMem Nat
  | [] => return 0
  | i :: rest => do
    let region := (← get).regions i
    if region = 0 then return 0
    let res ← heapAllocSingle chainFuel region count
    if res ≠ 0 then return res
    allocFrom count rest

def heapAlloc (count : Nat) : Prog Fault HeapMem Nat := allocFrom count (List.range heapMax)

def freeFrom (ptr : Nat) : List Nat → Prog Fault HeapMem Unit
  | [] => throw (.panic "Heap: invalid pointer\n")
  | i :: rest => do
    let region := (← get).regions i
    if region = 0 then throw (.panic "Heap: invalid pointer\n")
    if ptr > region then
      if ← heapFreeSingle ptr then return ()
    freeFrom ptr rest

def heapFree (ptr : Nat) : Prog Fault HeapMem Unit :=
  if ptr = 0 then return () else freeFrom ptr (List.range heapMax)

end YggKernel.Heap
