import YggKernel.Lib.ByteMemory
import YggKernel.Phys.Allocator
import YggKernel.Pool.Allocator

namespace YggKernel.Paging

open Lib.Program Lib.ByteMemory Phys Pool

/-- Physical memory, the two page allocators, the loaded directory and `mm_kernel`. -/
structure Machine where
  mem : Mem
  phys : PhysAlloc
  pools : Nat → PagePool
  cr3 : Nat
  mmKernel : Nat

def x86MmFlgPr : Nat := 1 <<< 0
def x86MmFlgWr : Nat := 1 <<< 1
def x86MmFlgUs : Nat := 1 <<< 2
def x86MmFlgPs : Nat := 1 <<< 7

def pageMask : Nat := 0xFFFFF000

def hugeMask : Nat := 0xFFC00000

/-- The two-level walk of the processor from the directory at physical address `cr3`:
the physical address and the effective permissions, or nothing when an entry on the
way is not present. -/
def mmuWalk (m : Mem) (cr3 a : Nat) : Option (Nat × Nat) :=
  let pde := load32 m ((cr3 &&& pageMask) + 4 * (a >>> 22))
  if pde &&& x86MmFlgPr = 0 then none
  else if pde &&& x86MmFlgPs ≠ 0 then
    some ((pde &&& hugeMask) ||| (a &&& 0x3FFFFF), (pde &&& (mmFlgUs ||| mmFlgWr)) ||| mmFlgPs)
  else
    let pte := load32 m ((pde &&& pageMask) + 4 * ((a >>> 12) &&& 0x3FF))
    if pte &&& x86MmFlgPr = 0 then none
    else some ((pte &&& pageMask) ||| (a &&& 0xFFF), pde &&& pte &&& (mmFlgUs ||| mmFlgWr))

/-- The kernel image and the page pools stand at the same addresses in every space. -/
def linear (s : Machine) (v : Nat) : Option Nat :=
  match (List.range x86MmPagePool).find? fun i => Holds (s.pools i) v with
  | some i => some ((s.pools i).paddr + (v - (s.pools i).vaddr))
  | none => if kernelVirtBase ≤ v ∧ v < kernelVirtBase + 0x400000 then some (v - kernelVirtBase) else none

/-- Where an access to a virtual address goes: other addresses than these are looked
up in the loaded directory. -/
def resolve (s : Machine) (v : Nat) : Option Nat :=
  match linear s v with
  | some p => some p
  | none => (mmuWalk s.mem s.cr3 v).map Prod.fst

def access (v : Nat) : Prog Fault Machine Nat := do
  match resolve (← get) v with
  | some p => return p
  | none => throw (.pageFault v)

def entry (v k : Nat) : Prog Fault Machine Nat := do
  let p ← access (u32 (v + 4 * k))
  return load32 (← get).mem p

def setEntry (v k x : Nat) : Prog Fault Machine Unit := do
  let p ← access (u32 (v + 4 * k))
  modify fun s => { s with mem := store32 s.mem p x }

def memsetl (v count : Nat) : Prog Fault Machine Unit := do
  let p ← access v
  modify fun s => { s with mem := fun x => if p ≤ x ∧ x < p + 4 * count then 0#8 else s.mem x }

def memcpyPage (dst src : Nat) : Prog Fault Machine Unit := do
  let p ← access dst
  let q ← access src
  modify fun s => { s with mem := fun x => if p ≤ x ∧ x < p + 4096 then s.mem (q + (x - p)) else s.mem x }

def readBytes (v : Nat) : Nat → Prog Fault Machine (List (BitVec 8))
  | 0 => return []
  | n + 1 => do
    let p ← access v
    let b := (← get).mem p
    let rest ← readBytes (u32 (v + 1)) n
    return b :: rest

def writeBytes (v : Nat) : List (BitVec 8) → Prog Fault Machine Unit
  | [] => return ()
  | b :: rest => do
    let p ← access v
    modify fun s => { s with mem := store8 s.mem p b }
    writeBytes (u32 (v + 1)) rest

def allocPhysicalPage (flags : Nat) : Prog Fault Machine Nat := do
  let (page, q) := mmAllocPhysicalPage (← get).phys flags
  modify fun s => { s with phys := q }
  return page

def freePhysicalPage (page flags : Nat) : Prog Fault Machine Unit := do
  match mmFreePhysicalPage (← get).phys page flags with
  | .ok q => modify fun s => { s with phys := q }
  | .error e => throw e

/-- The part of `mm_map_range_pages` for 4 MiB pages. -/
def mapHugePages (pd start : Nat) (pages : Nat → Nat) (count flags : Nat) : Prog Fault Machine Unit :=
  let dstFlags := (flags &&& (mmFlgWr ||| mmFlgUs)) ||| x86MmFlgPs ||| x86MmFlgPr
  forUp 0 count fun i => do
    kassert ((← entry pd ((start >>> 22) + i)) &&& x86MmFlgPr = 0)
      "!(pd[(start >> 22) + i] & X86_MM_FLG_PR)"
    setEntry pd ((start >>> 22) + i) (pages i ||| dstFlags)

/-- A new chunk of the page pool is a huge frame that is mapped in `mm_kernel`. -/
def poolHost : PoolHost Machine where
  pool := Machine.pools
  setPool i p s := { s with pools := Function.update s.pools i p }
  newChunk vaddr := do
    let paddr ← allocPhysicalPage mmFlgPs
    mapHugePages (← get).mmKernel vaddr (fun _ => paddr) 1 (mmFlgPs ||| mmFlgWr)
    return paddr

end YggKernel.Paging
