import YggKernel.Paging.Machine

namespace YggKernel.Paging

open Lib.Program Lib.ByteMemory Phys Pool

def mapNewTable (pd tableInfo pdi pti e : Nat) : Prog Fault Machine Unit := do
  match ← x86PagePoolAllocate poolHost with
  | none => throw (assertionFailed "(uintptr_t) pt != MM_NADDR")
  | some (pt, ptPhys) => do
    setEntry tableInfo pdi (pt ||| 1)
    setEntry pd pdi (ptPhys ||| (x86MmFlgPr ||| x86MmFlgWr ||| x86MmFlgUs))
    setEntry pt pti e

/-- One round of the loop of `mm_map_range`. -/
def mapRangePage (pd tableInfo flags vpage : Nat) : Prog Fault Machine Unit := do
  let dstFlags := (flags &&& (mmFlgWr ||| mmFlgUs)) ||| x86MmFlgPr
  let pdi := vpage >>> 22
  let pti := (vpage >>> 12) &&& 0x3FF
  kassert ((← entry pd pdi) &&& x86MmFlgPs = 0) "!(pd[pdi] & X86_MM_FLG_PS)"
  let pagePhys ← allocPhysicalPage 0
  if (← entry pd pdi) &&& x86MmFlgPr ≠ 0 then
    kassert ((← entry tableInfo pdi) ≠ 0) "table_info[pdi]"
    let pt := (← entry tableInfo pdi) &&& pageMask
    kassert ((← entry tableInfo pdi) &&& 0xFFF ≠ 0xFFF) "(table_info[pdi] & 0xFFF) != 0xFFF"
    if (← entry pt pti) &&& x86MmFlgPr = 0 then
      setEntry tableInfo pdi (u32 ((← entry tableInfo pdi) + 1))
      setEntry pt pti (pagePhys ||| dstFlags)
    else kassert (flags &&& mmFlgMerge ≠ 0) "flags & MM_FLG_MERGE"
  else mapNewTable pd tableInfo pdi pti (pagePhys ||| dstFlags)

def mmMapRange (pd start count flags : Nat) : Prog Fault Machine Nat := do
  if flags &&& mmFlgPs ≠ 0 then
    throw (.panic "Not yet implemented: mm_map_range with MM_FLG_PS\n")
  kassert (start &&& 0xFFF = 0) "!(start & 0xFFF)"
  let tableInfo ← entry pd 1023
  forUp 0 count fun i => mapRangePage pd tableInfo flags (u32 (start + i * 0x1000))
  return 0

/-- One round of the loop of `mm_map_range_pages` over 4 KiB pages. -/
def mapPagesPage (pd tableInfo flags page vpage : Nat) : Prog Fault Machine Unit := do
  let dstFlags := (flags &&& (mmFlgWr ||| mmFlgUs)) ||| x86MmFlgPr
  let pdi := vpage >>> 22
  let pti := (vpage >>> 12) &&& 0x3FF
  let pde ← entry pd pdi
  kassert (pde &&& x86MmFlgPs = 0) "!(pde & X86_MM_FLG_PS)"
  if pde &&& x86MmFlgPr ≠ 0 then
    kassert ((← entry tableInfo pdi) ≠ 0) "table_info[pdi]"
    let pt := (← entry tableInfo pdi) &&& pageMask
    kassert ((← entry tableInfo pdi) &&& 0xFFF ≠ 0xFFF) "(table_info[pdi] & 0xFFF) != 0xFFF"
    setEntry tableInfo pdi (u32 ((← entry tableInfo pdi) + 1))
    setEntry pt pti (page ||| dstFlags)
  else mapNewTable pd tableInfo pdi pti (page ||| dstFlags)

def mmMapRangePages (pd start : Nat) (pages : Nat → Nat) (count flags : Nat) : Prog Fault Machine Nat := do
  kassert (start &&& 0xFFF = 0) "!(start & 0xFFF)"
  if flags &&& mmFlgPs ≠ 0 then
    mapHugePages pd start pages count flags
    return 0
  else
    let tableInfo ← entry pd 1023
    forUp 0 count fun i => mapPagesPage pd tableInfo flags (pages i) (u32 (start + i * 0x1000))
    return 0

/-- The result of `mm_map_range_pages` is always zero, so the error path of the loops
is left out. -/
def mmMapRangeLinear (pd start pstart count flags : Nat) : Prog Fault Machine Nat := do
  kassert (start &&& 0xFFF = 0) "!(start & 0xFFF)"
  kassert (pstart &&& 0xFFF = 0) "!(pstart & 0xFFF)"
  if flags &&& mmFlgPs ≠ 0 then
    let start := start &&& hugeMask
    forUp 0 count fun i => do
      let ppage := u32 (pstart + i * 0x400000)
      discard (mmMapRangePages pd (u32 (start + i * 0x400000)) (fun _ => ppage) 1 flags)
  else
    let start := start &&& pageMask
    forUp 0 count fun i => do
      let ppage := u32 (pstart + i * 0x1000)
      discard (mmMapRangePages pd (u32 (start + i * 0x1000)) (fun _ => ppage) 1 flags)
  return 0

/-- One round of the loop of `mm_umap_range` over 4 MiB pages. -/
def umapHugePage (pd flags pdi : Nat) : Prog Fault Machine Unit := do
  kassert ((← entry pd pdi) &&& (x86MmFlgPr ||| x86MmFlgPs) ≠ 0)
    "pd[(start >> 22) + i] & (X86_MM_FLG_PR | X86_MM_FLG_PS)"
  if flags &&& mmFlgNophys = 0 then
    freePhysicalPage ((← entry pd pdi) &&& hugeMask) mmFlgPs
  setEntry pd pdi 0

/-- One round of the loop of `mm_umap_range` over 4 KiB pages. -/
def umapPage (pd tableInfo flags vpage : Nat) : Prog Fault Machine Unit := do
  let pdi := vpage >>> 22
  let pti := (vpage >>> 12) &&& 0x3FF
  let pde ← entry pd pdi
  kassert (pde &&& x86MmFlgPr ≠ 0) "pde & X86_MM_FLG_PR"
  kassert ((← entry tableInfo pdi) ≠ 0) "table_info[pdi]"
  let pt := (← entry tableInfo pdi) &&& pageMask
  if flags &&& mmFlgNophys = 0 then
    freePhysicalPage ((← entry pt pti) &&& pageMask) 0
  kassert ((← entry tableInfo pdi) &&& 0xFFF ≠ 0) "(table_info[pdi] & 0xFFF) != 0"
  setEntry pt pti 0
  setEntry tableInfo pdi (sub32 (← entry tableInfo pdi) 1)
  if (← entry tableInfo pdi) &&& 0xFFF = 0 then
    setEntry pd pdi 0
    setEntry tableInfo pdi 0
    x86PagePoolFree poolHost pt

/-- The source returns -1 on every path. -/
def mmUmapRange (pd start count flags : Nat) : Prog Fault Machine Int := do
  kassert (start &&& 0xFFF = 0) "!(start & 0xFFF)"
  if flags &&& mmFlgPs ≠ 0 then
    forUp 0 count fun i => umapHugePage pd flags ((start >>> 22) + i)
  else
    let tableInfo ← entry pd 1023
    forUp 0 count fun i => umapPage pd tableInfo flags (u32 (start + i * 0x1000))
  return -1

/-- The physical address, or `MM_NADDR`, with the flags where the call sets them. -/
def mmTranslate (pd addr : Nat) : Prog Fault Machine (Nat × Option Nat) := do
  let pdi := addr >>> 22
  let pti := (addr >>> 12) &&& 0x3FF
  if (← entry pd pdi) &&& x86MmFlgPr = 0 then return (mmNaddr, none)
  if (← entry pd pdi) &&& x86MmFlgPs ≠ 0 then
    return (((← entry pd pdi) &&& hugeMask) ||| (addr &&& 0x3FFFFF),
      some (((← entry pd pdi) &&& (mmFlgUs ||| mmFlgWr)) ||| mmFlgPs))
  let tableInfo ← entry pd 1023
  kassert ((← entry tableInfo pdi) ≠ 0) "table_info[pdi]"
  let pt := (← entry tableInfo pdi) &&& pageMask
  if (← entry pt pti) &&& x86MmFlgPr = 0 then return (mmNaddr, none)
  return (((← entry pt pti) &&& pageMask) ||| (addr &&& 0xFFF),
    some ((← entry pt pti) &&& (mmFlgUs ||| mmFlgWr)))

end YggKernel.Paging
