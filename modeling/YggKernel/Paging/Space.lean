import YggKernel.Paging.Map

namespace YggKernel.Paging

open Lib.Program Lib.ByteMemory Phys Pool

def mmFlgCloneKernel : Nat := 1 <<< 0
def mmFlgCloneUser : Nat := 1 <<< 1

def mmSet (pd : Nat) : Prog Fault Machine Unit := do
  let cr3 ← entry pd 0
  modify fun s => { s with cr3 := cr3 }

/-- `mm_init` without the search for usable memory: `mm_kernel` becomes the directory
of the boot stage. -/
def mmInit (bootPageDirectory : Nat) : Prog Fault Machine Unit := do
  modify fun s => { s with pools := fun _ => emptyPool, mmKernel := bootPageDirectory }
  match ← x86PagePoolAllocate poolHost with
  | none => throw (assertionFailed "(uintptr_t) kernel_table_info != MM_NADDR")
  | some (kernelTableInfo, _) => do
    memsetl kernelTableInfo 1024
    setEntry bootPageDirectory 1023 kernelTableInfo
    setEntry bootPageDirectory 0 (sub32 bootPageDirectory kernelVirtBase)

/-- The new space, or zero. -/
def mmCreateSpace : Prog Fault Machine Nat := do
  match ← x86PagePoolAllocate poolHost with
  | none => return 0
  | some (space, phys) => do
    memsetl space 1024
    let tableInfo ← x86PagePoolAllocate poolHost
    let tableInfo := (tableInfo.map Prod.fst).getD mmNaddr
    memsetl tableInfo 1024
    setEntry space 0 phys
    setEntry space 1023 tableInfo
    return space

def mmDestroySpace (pd : Nat) : Prog Fault Machine Unit := do
  x86PagePoolFree poolHost (← entry pd 1023)
  x86PagePoolFree poolHost pd

/-- One round of the loop of `mm_space_clone` over the kernel half. -/
def cloneSlot (dst src srcTableInfo dstTableInfo pdi : Nat) : Prog Fault Machine Unit := do
  if (← entry src pdi) &&& x86MmFlgPr ≠ 0 then
    if (← entry src pdi) &&& x86MmFlgPs ≠ 0 then
      setEntry dst pdi (← entry src pdi)
    else
      kassert ((← entry srcTableInfo pdi) ≠ 0) "src_table_info[pdi]"
      let srcPt := (← entry srcTableInfo pdi) &&& pageMask
      match ← x86PagePoolAllocate poolHost with
      | none => throw (assertionFailed "(uintptr_t) dst_pt != MM_NADDR")
      | some (dstPt, dstPtPhys) => do
        setEntry dstTableInfo pdi (dstPt ||| ((← entry srcTableInfo pdi) &&& 0xFFF))
        setEntry dst pdi (dstPtPhys ||| (x86MmFlgPr ||| x86MmFlgWr ||| x86MmFlgUs))
        memcpyPage dstPt srcPt

def mmSpaceClone (dst src flags : Nat) : Prog Fault Machine Unit := do
  memsetl (u32 (dst + 4)) 1022
  let srcTableInfo ← entry src 1023
  let dstTableInfo ← entry dst 1023
  memsetl dstTableInfo 1024
  if flags &&& mmFlgCloneKernel ≠ 0 then
    forUp (kernelVirtBase >>> 22) (1024 - (kernelVirtBase >>> 22))
      (cloneSlot dst src srcTableInfo dstTableInfo)

/-- The four addresses of one round of a user copy: the page, and the first byte and
the end of the part of it that is copied. -/
def userPart (user count page : Nat) : Nat × Nat :=
  let userStart := if user > page then sub32 user page else 0
  let userEnd := sub32 (u32 (user + count)) page
  (userStart, if userEnd > 0x1000 then 0x1000 else userEnd)

def alignUpPage (a : Nat) : Nat := u32 (a + 0x1000 - 1) &&& pageMask

def userPages (user count : Nat) : Nat :=
  sub32 (alignUpPage (u32 (user + count))) (user &&& pageMask) / 0x1000

def openWindow (pd page : Nat) : Prog Fault Machine Unit := do
  let (phys, rflags) ← mmTranslate pd page
  kassert (phys ≠ mmNaddr) "user_page_phys != MM_NADDR"
  kassert (rflags.getD 0 &&& mmFlgPs = 0) "!(user_rflags & MM_FLG_PS)"
  discard (mmMapRangePages (← get).mmKernel page (fun _ => phys) 1 mmFlgWr)

def closeWindow (page : Nat) : Prog Fault Machine Unit := do
  discard (mmUmapRange (← get).mmKernel page 1 mmFlgNophys)

/-- The loop of the two user copies. `move` copies one part, given its user address, the number of bytes
copied before it and its size. -/
def copyPages {β : Type} (move : Nat → Nat → Nat → β → Prog Fault Machine β) (pd user count : Nat) :
    Nat → Nat → Nat → β → Prog Fault Machine β
  | _, 0, _, acc => return acc
  | i, n + 1, copied, acc => do
    let page := u32 ((user &&& pageMask) + i * 0x1000)
    let (userStart, userEnd) := userPart user count page
    openWindow pd page
    let acc ← move (u32 (page + userStart)) copied (sub32 userEnd userStart) acc
    closeWindow page
    copyPages move pd user count (i + 1) n (u32 (copied + sub32 userEnd userStart)) acc

/-- A copy to a local buffer, whose bytes are collected. -/
def mmMemcpyUserToKernel (pd src count : Nat) : Prog Fault Machine (List (BitVec 8)) :=
  copyPages (fun user _ size bytes => do return bytes ++ (← readBytes user size)) pd src count 0 (userPages src count) 0 []

/-- A copy from a local buffer. -/
def mmMemcpyKernelToUser (pd dst : Nat) (src : List (BitVec 8)) (count : Nat) : Prog Fault Machine Unit :=
  copyPages (fun user copied size _ => writeBytes user ((src.drop copied).take size)) pd dst count 0 (userPages dst count) 0 ()

/-- The part of `mm_space_fork` that copies one user page. -/
def forkPage (dst src pdi pti pte : Nat) : Prog Fault Machine Unit := do
  let vpage := (pdi <<< 22) ||| (pti <<< 12)
  discard (mmMapRange dst vpage 1 ((pte &&& mmFlgWr) ||| mmFlgUs))
  let tmpBuf ← mmMemcpyUserToKernel src vpage 0x1000
  mmMemcpyKernelToUser dst vpage tmpBuf 0x1000

/-- The part of `mm_space_fork` that goes through one table. -/
def forkSlot (dst src srcTableInfo pdi : Nat) : Prog Fault Machine Unit := do
  if (← entry src pdi) &&& x86MmFlgPr ≠ 0 then
    kassert ((← entry src pdi) &&& x86MmFlgPs = 0) "!(src[pdi] & (1 << 7))"
    kassert ((← entry srcTableInfo pdi) ≠ 0) "src_table_info[pdi]"
    let srcPt := (← entry srcTableInfo pdi) &&& pageMask
    forUp 0 1024 fun pti => do
      if (← entry srcPt pti) &&& x86MmFlgPr ≠ 0 then
        forkPage dst src pdi pti (← entry srcPt pti)

def mmSpaceFork (dst src flags : Nat) : Prog Fault Machine Nat := do
  if flags &&& mmFlgCloneKernel ≠ 0 then mmSpaceClone dst src mmFlgCloneKernel
  let srcTableInfo ← entry src 1023
  if flags &&& mmFlgCloneUser ≠ 0 then
    forUp 1 ((kernelVirtBase >>> 22) - 1) (forkSlot dst src srcTableInfo)
  return 0

end YggKernel.Paging
