import YggKernel.Paging.Window

namespace YggKernel.Paging

open Lib.Program Lib.ByteMemory Lib.BitWords Lib.Masks Phys Pool

def Grown (s t : Machine) : Prop := ∀ n, bit s.phys.bitmap n = true → bit t.phys.bitmap n = true

theorem Grown.refl (s : Machine) : Grown s s := fun _ h => h

theorem Grown.trans (s t u : Machine) (h : Grown s t) (h' : Grown t u) : Grown s u := fun n hn => h' n (h n hn)

theorem grown_of_phys {s t : Machine} (h : t.phys = s.phys) : Grown s t := fun n hn => by rwa [h]

section Programs

variable {α : Type}

theorem keeps_bind {β : Type} {p : Prog Fault Machine α} {f : α → Prog Fault Machine β} (hp : Keeps Grown p)
    (hf : ∀ a, Keeps Grown (f a)) : Keeps Grown (p >>= f) := Keeps.bind Grown.trans hp hf

theorem keeps_pure (a : α) : Keeps Grown (pure a : Prog Fault Machine α) := Keeps.pure Grown.refl a

theorem keeps_throw (e : Fault) : Keeps Grown (throw e : Prog Fault Machine α) := Keeps.throw e

theorem keeps_get : Keeps Grown (get : Prog Fault Machine Machine) := Keeps.get Grown.refl

theorem keeps_modify {f : Machine → Machine} (hf : ∀ s, (f s).phys = s.phys) :
    Keeps Grown (modify f : Prog Fault Machine PUnit) := ⟨fun s => grown_of_phys (hf s)⟩

theorem keeps_kassert (c : Bool) (cond : String) : Keeps Grown (kassert c cond : Prog Fault Machine Unit) :=
  Keeps.ite (keeps_pure ()) (keeps_throw _)

theorem keeps_discard {p : Prog Fault Machine α} (hp : Keeps Grown p) : Keeps Grown (discard p) :=
  ⟨fun s => (wp_discard p).mpr (hp.run s)⟩

theorem keeps_forUp {body : Nat → Prog Fault Machine Unit} (hbody : ∀ i, Keeps Grown (body i))
    (first count : Nat) : Keeps Grown (forUp first count body) := Keeps.forUp Grown.refl Grown.trans hbody first count

theorem keeps_access (v : Nat) : Keeps Grown (access v) := by
  refine keeps_bind keeps_get fun s => ?_
  cases resolve s v with
  | none => exact keeps_throw _
  | some p => exact keeps_pure p

theorem keeps_entry (v k : Nat) : Keeps Grown (entry v k) :=
  keeps_bind (keeps_access _) fun _ => keeps_bind keeps_get fun _ => keeps_pure _

theorem keeps_setEntry (v k x : Nat) : Keeps Grown (setEntry v k x) :=
  keeps_bind (keeps_access _) fun _ => keeps_modify fun _ => rfl

theorem keeps_readBytes (v n : Nat) : Keeps Grown (readBytes v n) := by
  induction n generalizing v with
  | zero => exact keeps_pure []
  | succ n ih =>
    exact keeps_bind (keeps_access v) fun _ => keeps_bind keeps_get fun _ =>
      keeps_bind (ih _) fun _ => keeps_pure _

theorem keeps_writeBytes (v : Nat) (bytes : List (BitVec 8)) : Keeps Grown (writeBytes v bytes) := by
  induction bytes generalizing v with
  | nil => exact keeps_pure ()
  | cons b bytes ih =>
    exact keeps_bind (keeps_access v) fun _ => keeps_bind (keeps_modify fun _ => rfl) fun _ => ih _

theorem grown_alloc (p : PhysAlloc) (flags n : Nat) (hn : bit p.bitmap n = true) :
    bit (mmAllocPhysicalPage p flags).2.bitmap n = true := by
  rw [mmAllocPhysicalPage]
  by_cases hps : flags &&& mmFlgPs ≠ 0
  · rw [if_pos hps]
    rcases allocHuge_cases p with ⟨g, q, took, heq⟩ | ⟨_, heq⟩
    · rw [heq, took.bitmap]
      exact hn
    · rw [heq]
      exact hn
  · rw [if_neg hps, x86MmAllocPhysicalPage]
    cases hit : searchPage p with
    | none => exact hn
    | some ij =>
      have hj : ij.2 < 32 := by
        rw [searchPage_eq] at hit
        obtain ⟨_, _, _, _, hclear⟩ := scan_some hit
        exact (firstClear_some hclear).1
      dsimp only
      rw [bit_setBit _ _ hj, hn, Bool.true_or]

theorem keeps_allocPhysicalPage (flags : Nat) : Keeps Grown (allocPhysicalPage flags) :=
  ⟨fun s n hn => grown_alloc s.phys flags n hn⟩

theorem keeps_mapHugePages (pd start : Nat) (pages : Nat → Nat) (count flags : Nat) :
    Keeps Grown (mapHugePages pd start pages count flags) := by
  unfold mapHugePages
  refine keeps_forUp (fun i => ?_) 0 count
  exact keeps_bind (keeps_entry _ _) fun _ => keeps_bind (keeps_kassert _ _) fun _ => keeps_setEntry _ _ _

theorem keeps_initPool (i : Nat) : Keeps Grown (initPool poolHost i) := by
  have hchunk : ∀ v, Keeps Grown (do
      let paddr ← allocPhysicalPage mmFlgPs
      mapHugePages (← get).mmKernel v (fun _ => paddr) 1 (mmFlgPs ||| mmFlgWr)
      return paddr) := fun v =>
    keeps_bind (keeps_allocPhysicalPage _) fun _ => keeps_bind keeps_get fun _ =>
      keeps_bind (keeps_mapHugePages _ _ _ _ _) fun _ => keeps_pure _
  unfold initPool
  exact keeps_bind (hchunk _) fun _ => keeps_modify fun _ => rfl

theorem keeps_allocateFrom (l : List Nat) : Keeps Grown (allocateFrom poolHost l) := by
  induction l with
  | nil => exact keeps_pure none
  | cons i l ih =>
    rw [allocateFrom]
    refine keeps_bind keeps_get fun s => Keeps.ite (keeps_bind (keeps_initPool i) fun _ => keeps_bind keeps_get fun t => ?_)
      (keeps_bind keeps_get fun t => ?_)
    all_goals
      dsimp only
      cases searchPool (poolHost.pool t i) with
      | error e => exact keeps_throw e
      | ok r =>
        cases r with
        | none => exact ih
        | some jk => exact keeps_bind (keeps_modify fun _ => rfl) fun _ => keeps_pure _

theorem keeps_freeFrom (v : Nat) (l : List Nat) : Keeps Grown (freeFrom poolHost v l) := by
  induction l with
  | nil => exact keeps_throw _
  | cons i l ih =>
    have hclear : ∀ (c : Bool) cond p, Keeps Grown (do
        kassert c cond
        modify (poolHost.setPool i p) : Prog Fault Machine PUnit) := fun c cond p =>
      keeps_bind (keeps_kassert _ _) fun _ => keeps_modify fun _ => rfl
    rw [freeFrom]
    refine keeps_bind keeps_get fun s => ?_
    dsimp only
    refine Keeps.ite ?_ ih
    by_cases hle : 32 ≤ (v - (poolHost.pool s i).vaddr) >>> 17
    · rw [if_pos hle]
      exact keeps_bind (keeps_throw _) fun _ => hclear _ _ _
    · rw [if_neg hle]
      exact hclear _ _ _

theorem keeps_mapNewTable (pd tableInfo pdi pti e : Nat) : Keeps Grown (mapNewTable pd tableInfo pdi pti e) := by
  unfold mapNewTable
  refine keeps_bind (keeps_allocateFrom _) fun r => ?_
  cases r with
  | none => exact keeps_throw _
  | some page =>
    exact keeps_bind (keeps_setEntry _ _ _) fun _ => keeps_bind (keeps_setEntry _ _ _) fun _ => keeps_setEntry _ _ _

theorem keeps_mapRangePage (pd tableInfo flags v : Nat) : Keeps Grown (mapRangePage pd tableInfo flags v) := by
  unfold mapRangePage
  refine keeps_bind (keeps_entry _ _) fun _ => keeps_bind (keeps_kassert _ _) fun _ =>
    keeps_bind (keeps_allocPhysicalPage 0) fun _ => keeps_bind (keeps_entry _ _) fun _ =>
    Keeps.ite ?_ (keeps_mapNewTable _ _ _ _ _)
  refine keeps_bind (keeps_entry _ _) fun _ => keeps_bind (keeps_kassert _ _) fun _ =>
    keeps_bind (keeps_entry _ _) fun _ => keeps_bind (keeps_entry _ _) fun _ =>
    keeps_bind (keeps_kassert _ _) fun _ => keeps_bind (keeps_entry _ _) fun _ => Keeps.ite ?_ (keeps_kassert _ _)
  exact keeps_bind (keeps_entry _ _) fun _ => keeps_bind (keeps_setEntry _ _ _) fun _ => keeps_setEntry _ _ _

theorem keeps_mmMapRange (pd start count flags : Nat) : Keeps Grown (mmMapRange pd start count flags) := by
  have hrest : Keeps Grown (do
      kassert (start &&& 0xFFF = 0) "!(start & 0xFFF)"
      let tableInfo ← entry pd 1023
      forUp 0 count fun i => mapRangePage pd tableInfo flags (u32 (start + i * 0x1000))
      return 0) :=
    keeps_bind (keeps_kassert _ _) fun _ => keeps_bind (keeps_entry _ _) fun _ =>
      keeps_bind (keeps_forUp (fun _ => keeps_mapRangePage _ _ _ _) _ _) fun _ => keeps_pure 0
  unfold mmMapRange
  exact Keeps.ite (keeps_bind (keeps_throw _) fun _ => hrest) hrest

theorem keeps_mapPagesPage (pd tableInfo flags page v : Nat) :
    Keeps Grown (mapPagesPage pd tableInfo flags page v) := by
  unfold mapPagesPage
  refine keeps_bind (keeps_entry _ _) fun _ => keeps_bind (keeps_kassert _ _) fun _ =>
    Keeps.ite ?_ (keeps_mapNewTable _ _ _ _ _)
  exact keeps_bind (keeps_entry _ _) fun _ => keeps_bind (keeps_kassert _ _) fun _ =>
    keeps_bind (keeps_entry _ _) fun _ => keeps_bind (keeps_entry _ _) fun _ =>
    keeps_bind (keeps_kassert _ _) fun _ => keeps_bind (keeps_entry _ _) fun _ =>
    keeps_bind (keeps_setEntry _ _ _) fun _ => keeps_setEntry _ _ _

theorem keeps_mmMapRangePages (pd start : Nat) (pages : Nat → Nat) (count flags : Nat) :
    Keeps Grown (mmMapRangePages pd start pages count flags) := by
  unfold mmMapRangePages
  refine keeps_bind (keeps_kassert _ _) fun _ => Keeps.ite ?_ ?_
  · exact keeps_bind (keeps_mapHugePages _ _ _ _ _) fun _ => keeps_pure 0
  · exact keeps_bind (keeps_entry _ _) fun _ =>
      keeps_bind (keeps_forUp (fun _ => keeps_mapPagesPage _ _ _ _ _) _ _) fun _ => keeps_pure 0

theorem keeps_mmTranslate (pd a : Nat) : Keeps Grown (mmTranslate pd a) := by
  have hsmall : Keeps Grown (do
      let tableInfo ← entry pd 1023
      kassert ((← entry tableInfo (a >>> 22)) ≠ 0) "table_info[pdi]"
      let pt := (← entry tableInfo (a >>> 22)) &&& pageMask
      if (← entry pt ((a >>> 12) &&& 0x3FF)) &&& x86MmFlgPr = 0 then return (mmNaddr, none)
      return (((← entry pt ((a >>> 12) &&& 0x3FF)) &&& pageMask) ||| (a &&& 0xFFF),
        some ((← entry pt ((a >>> 12) &&& 0x3FF)) &&& (mmFlgUs ||| mmFlgWr)))) :=
    keeps_bind (keeps_entry _ _) fun _ => keeps_bind (keeps_entry _ _) fun _ =>
      keeps_bind (keeps_kassert _ _) fun _ => keeps_bind (keeps_entry _ _) fun _ =>
      keeps_bind (keeps_entry _ _) fun _ => Keeps.ite (keeps_pure _)
        (keeps_bind (keeps_entry _ _) fun _ => keeps_bind (keeps_entry _ _) fun _ => keeps_pure _)
  unfold mmTranslate
  refine keeps_bind (keeps_entry _ _) fun _ => Keeps.ite (keeps_pure _)
    (keeps_bind (keeps_entry _ _) fun _ => Keeps.ite ?_ hsmall)
  exact keeps_bind (keeps_entry _ _) fun _ => keeps_bind (keeps_entry _ _) fun _ => keeps_pure _

theorem keeps_umapPage (pd tableInfo v : Nat) : Keeps Grown (umapPage pd tableInfo mmFlgNophys v) := by
  have hflag : ¬mmFlgNophys &&& mmFlgNophys = 0 := by decide
  unfold umapPage
  refine keeps_bind (keeps_entry _ _) fun _ => keeps_bind (keeps_kassert _ _) fun _ =>
    keeps_bind (keeps_entry _ _) fun _ => keeps_bind (keeps_kassert _ _) fun _ => keeps_bind (keeps_entry _ _) fun _ => ?_
  rw [if_neg hflag]
  refine keeps_bind (keeps_entry _ _) fun _ => keeps_bind (keeps_kassert _ _) fun _ =>
    keeps_bind (keeps_setEntry _ _ _) fun _ => keeps_bind (keeps_entry _ _) fun _ =>
    keeps_bind (keeps_setEntry _ _ _) fun _ => keeps_bind (keeps_entry _ _) fun _ => Keeps.ite ?_ (keeps_pure _)
  exact keeps_bind (keeps_setEntry _ _ _) fun _ => keeps_bind (keeps_setEntry _ _ _) fun _ => keeps_freeFrom _ _

theorem keeps_openWindow (pd page : Nat) : Keeps Grown (openWindow pd page) := by
  unfold openWindow
  exact keeps_bind (keeps_mmTranslate _ _) fun _ => keeps_bind (keeps_kassert _ _) fun _ =>
    keeps_bind (keeps_kassert _ _) fun _ => keeps_bind keeps_get fun _ =>
    keeps_discard (keeps_mmMapRangePages _ _ _ _ _)

theorem keeps_closeWindow (page : Nat) : Keeps Grown (closeWindow page) := by
  have hps : ¬mmFlgNophys &&& mmFlgPs ≠ 0 := by decide
  unfold closeWindow
  refine keeps_bind keeps_get fun _ => keeps_discard ?_
  unfold mmUmapRange
  refine keeps_bind (keeps_kassert _ _) fun _ => ?_
  rw [if_neg hps]
  exact keeps_bind (keeps_entry _ _) fun _ =>
    keeps_bind (keeps_forUp (fun _ => keeps_umapPage _ _ _) _ _) fun _ => keeps_pure _

theorem keeps_copyPages {β : Type} {move : Nat → Nat → Nat → β → Prog Fault Machine β} (pd user count n : Nat)
    (hmove : ∀ v c size acc, Keeps Grown (move v c size acc)) (i c : Nat) (acc : β) :
    Keeps Grown (copyPages move pd user count i n c acc) := by
  induction n generalizing i c acc with
  | zero => exact keeps_pure acc
  | succ n ih =>
    rw [copyPages]
    exact keeps_bind (keeps_openWindow _ _) fun _ => keeps_bind (hmove _ _ _ _) fun _ =>
      keeps_bind (keeps_closeWindow _) fun _ => ih _ _ _

theorem keeps_copies (dst src v : Nat) : Keeps Grown (do
    let tmpBuf ← mmMemcpyUserToKernel src v 0x1000
    mmMemcpyKernelToUser dst v tmpBuf 0x1000) :=
  keeps_bind (keeps_copyPages _ _ _ _ (fun _ _ _ _ => keeps_bind (keeps_readBytes _ _) fun _ => keeps_pure _) _ _ _) fun _ =>
    keeps_copyPages _ _ _ _ (fun _ _ _ _ => keeps_writeBytes _ _) _ _ _

theorem keeps_forkPage (dst src pdi pti pte : Nat) : Keeps Grown (forkPage dst src pdi pti pte) := by
  unfold forkPage
  exact keeps_bind (keeps_discard (keeps_mmMapRange _ _ _ _)) fun _ => keeps_copies _ _ _

theorem keeps_forkSlot (dst src srcTableInfo pdi : Nat) : Keeps Grown (forkSlot dst src srcTableInfo pdi) := by
  unfold forkSlot
  refine keeps_bind (keeps_entry _ _) fun _ => Keeps.ite ?_ (keeps_pure _)
  refine keeps_bind (keeps_entry _ _) fun _ => keeps_bind (keeps_kassert _ _) fun _ =>
    keeps_bind (keeps_entry _ _) fun _ => keeps_bind (keeps_kassert _ _) fun _ =>
    keeps_bind (keeps_entry _ _) fun _ => keeps_forUp (fun i => ?_) 0 1024
  exact keeps_bind (keeps_entry _ _) fun _ => Keeps.ite
    (keeps_bind (keeps_entry _ _) fun _ => keeps_forkPage _ _ _ _ _) (keeps_pure _)

end Programs

end YggKernel.Paging
