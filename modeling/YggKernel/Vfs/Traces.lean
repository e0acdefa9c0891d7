import YggKernel.Vfs.Sightings

namespace YggKernel.Vfs

section Outcomes

variable {Fs Dev : Type}

/-- After a failed call each path is looked up as before, after a successful one there is one more
record. A call that does not return may not have written behind its record. -/
def LeavesNoTrace (mem : Memory Fs Dev) (dst : CString) (slots : List (Entry Fs Dev)) :
    Res (Int × List (Entry Fs Dev)) → Prop
  | .error fault => fault ≠ overrun
  | .ok (res, slots') =>
    if res = 0 then WellFormed slots' ∧ ∃ e, e.dst = dst.text ∧ mounted slots' = mounted slots ++ [e]
    else ∀ path : CString, Agrees SameFound (vfsLookup mem path.ptr slots) (vfsLookup mem path.ptr slots')

/-- Both strings fit the record, a mount point that is taken has a name, and one that the file system
refuses has none. -/
structure Harmless (cb : Callbacks Fs Dev) (src : Option CString) (dst : CString) (fsType : Fs) (opts : Nat)
    (dev : Option Dev) :
    Prop where
  source : ¬Missing src dev → ∀ s ∈ src, s.text.length < pathSize
  target : ¬Missing src dev → dst.text.length < pathSize
  taken : ¬Missing src dev → (cb.mountResult fsType (newEntry src dst fsType dev) opts).1 = 0 → dst.text ≠ []
  refused : ¬Missing src dev → (cb.mountResult fsType (newEntry src dst fsType dev) opts).1 ≠ 0 → dst.text = []

def Fails (cb : Callbacks Fs Dev) (src : Option CString) (dst : CString) (fsType : Fs) (opts : Nat) (dev : Option Dev) :
    Prop :=
  Missing src dev ∨ (cb.mountResult fsType (newEntry src dst fsType dev) opts).1 ≠ 0

/-- No mount point is told from the earlier ones by what the call leaves in the record behind them. -/
def Unseen (mem : Memory Fs Dev) (slots : List (Entry Fs Dev)) (e : Entry Fs Dev) : Prop :=
  branches [] (mem.records 0 (replace slots e)) = branches [] (mem.records 0 slots)

/-- The memory is known as far as the mount points differ: none goes on where another one ends. -/
def Far (mem : Memory Fs Dev) (slots : List (Entry Fs Dev)) (e : Entry Fs Dev) : Prop :=
  ∀ m ∈ mem.records 0 slots ++ mem.records 0 (replace slots e),
    ∀ m' ∈ mem.records 0 slots ++ mem.records 0 (replace slots e),
    m.entry.dst ≠ ['/'] → m'.entry.dst ≠ ['/'] → components m.ptr <+: components m'.ptr →
    components m.ptr = components m'.ptr

end Outcomes

section Calls

variable {Fs Dev : Type} {mem : Memory Fs Dev} {cb : Callbacks Fs Dev} {src : Option CString} {dst : CString} {fsType : Fs}
variable {opts : Nat}
variable {slots : List (Entry Fs Dev)} {e : Entry Fs Dev} {dev : Option Dev}

/-- Lookups in a table with another record behind those that are used, which stays unused. -/
theorem lookup_unseen (hw : WellFormed slots) (hroom : (mounted slots).length < 16) (he : e.dst = [])
    (h : Unseen mem slots e)
    (path : CString) : Agrees SameFound (vfsLookup mem path.ptr slots) (vfsLookup mem path.ptr (replace slots e)) := by
  obtain ⟨x, hx, hslots⟩ := replace_self hw hroom
  have hl : ∀ m ∈ mounted slots, Fits m ∧ m.dst ≠ [] := fun m hm => ⟨fits_of_mounted hw m hm, mounted_used hm⟩
  have hb : branches [] (mem.records 0 (replace slots x)) = branches [] (mem.records 0 (replace slots e)) := by
    rw [← hslots]
    exact h.symm
  have hstart : Alike 0 0 (⟨0, false, none⟩ : LookupState (Record Fs Dev)) ⟨0, false, none⟩ :=
    ⟨Counted.zero, Counted.zero, Iff.rfl, rfl, rfl⟩
  have hloop := lookupLoop_alike path hl hx he hb rfl rfl hstart
  unfold vfsLookup vfsLookupFile
  nth_rewrite 1 [hslots]
  refine Agrees.bind hloop fun t t' ⟨hzero, hfound⟩ => .ok ?_
  by_cases hnone : t.lmatch = 0
  · rw [if_pos hnone, if_pos (hzero.mp hnone)]
    rfl
  · rw [if_neg hnone, if_neg fun h => hnone (hzero.mpr h)]
    exact hfound

theorem unseen_of_lookups (hw : WellFormed slots) (hroom : (mounted slots).length < 16) (hfits : Fits e) (he : e.dst = [])
    (hfar : Far mem slots e)
    (h : ∀ path : CString, Agrees SameFound (vfsLookup mem path.ptr slots) (vfsLookup mem path.ptr (replace slots e))) :
    Unseen mem slots e := by
  have hw' : WellFormed (replace slots e) := wellFormed_replace hw hroom hfits fun m hm => by
    rw [he]
    exact mounted_used hm
  have hentries : (mem.records 0 slots).map Record.entry = (mem.records 0 (replace slots e)).map Record.entry := by
    rw [records_entries, records_entries, mounted_replace hw, if_pos he]
  exact (branches_kept (records_standing hw) (records_standing hw') hentries hfar h).symm

theorem lookups_differ (hw : WellFormed slots) (hroom : (mounted slots).length < 16) (hfits : Fits e) (he : e.dst ≠ [])
    (hnew : ∀ m ∈ mounted slots, m.dst ≠ e.dst) :
    ∃ path : CString, ¬Agrees SameFound (vfsLookup mem path.ptr slots) (vfsLookup mem path.ptr (replace slots e)) := by
  have hw' := wellFormed_replace hw hroom hfits hnew
  have hentries : (mem.records 0 (replace slots e)).map Record.entry = (mem.records 0 slots).map Record.entry ++ [e] := by
    rw [records_entries, records_entries, mounted_replace hw, if_neg he]
  obtain ⟨l₁, l₂, hsplit, hfirst, hlast⟩ := List.map_eq_append_iff.mp hentries
  obtain ⟨m, rfl, rfl⟩ := List.map_eq_singleton_iff.mp hlast
  have hl' : Standing (mem.records 0 (replace slots m.entry)) := records_standing hw'
  unfold vfsLookup
  rw [hsplit] at hl' ⊢
  refine lookup_visible (records_standing hw) hl' hfirst.symm he hfits.target fun x hx => ?_
  have hin : x.entry ∈ mounted slots := by
    have hmap : (mem.records 0 slots).map Record.entry = mounted slots := records_entries
    rw [← hmap]
    exact List.mem_map_of_mem hx
  exact hnew _ hin

/-- No two mount points look alike up to the ends of their records. -/
def Distinct (slots : List (Entry Fs Dev)) : Prop :=
  (mounted slots).Pairwise fun e e' => e.dst ≠ ['/'] → e'.dst ≠ ['/'] → (compare (front e') (front e)).isSome

theorem parting_of_fronts {fs prev : List (List (List Char))} {f u : List (List Char)}
    (hfs : List.Forall₂ (· <+: ·) fs prev)
    (hne : f ≠ []) (hf : ∀ g ∈ fs, (compare f g).isSome) :
    ∃ k < f.length, parting fs f = some k ∧ parting prev (f ++ u) = some k := by
  induction hfs with
  | nil => exact ⟨0, List.length_pos_of_ne_nil hne, rfl, rfl⟩
  | @cons g a fs prev hpre _ ih =>
    obtain ⟨i, hi, hparting, hparting'⟩ := ih fun g hg => hf g (List.mem_cons_of_mem _ hg)
    obtain ⟨j, hj⟩ := Option.isSome_iff_exists.mp (hf g (List.mem_cons_self ..))
    have hleads := compare_of_leads hj hpre
    rw [compare_comm] at hleads
    have hj' := (compare_comm _ _).trans (compare_of_leads hleads (List.prefix_append f u))
    exact ⟨max j i, max_lt (compare_lt hj).1 hi, parting_of_cons hj hparting, parting_of_cons hj' hparting'⟩

theorem branch_of_fronts {fs prev prev' : List (List (List Char))} {f u u' : List (List Char)}
    (hfs : List.Forall₂ (· <+: ·) fs prev) (hfs' : List.Forall₂ (· <+: ·) fs prev') (hne : f ≠ [])
    (hf : ∀ g ∈ fs, (compare f g).isSome) (hu : u ≠ []) (hu' : u' ≠ []) : branch prev (f ++ u) = branch prev' (f ++ u') := by
  have htake : ∀ {v : List (List Char)} {k : Nat}, v ≠ [] → k < f.length →
      k + 1 < (f ++ v).length ∧ (f ++ v).take (k + 1) = f.take (k + 1) := fun hv hk => by
    rw [List.length_append]
    have := List.length_pos_of_ne_nil hv
    exact ⟨by omega, List.take_append_of_le_length hk⟩
  obtain ⟨k, hk, hparting, hleft⟩ := parting_of_fronts (u := u) hfs hne hf
  obtain ⟨k', _, hparting', hright⟩ := parting_of_fronts (u := u') hfs' hne hf
  obtain rfl := Option.some.inj (hparting.symm.trans hparting')
  rw [branch_eq_some.mpr ⟨k, hleft, htake hu hk⟩, branch_eq_some.mpr ⟨k, hright, htake hu' hk⟩]

theorem branches_of_fronts {fs prev prev' : List (List (List Char))} {l rest : List (Entry Fs Dev)} {x x' : Entry Fs Dev}
    {i : Nat}
    (hfs : List.Forall₂ (· <+: ·) fs prev) (hfs' : List.Forall₂ (· <+: ·) fs prev') (hx : x.dst = []) (hx' : x'.dst = [])
    (hl : ∀ e ∈ l, Fits e ∧ e.dst ≠ [])
    (happart : l.Pairwise fun e e' => e.dst ≠ ['/'] → e'.dst ≠ ['/'] → (compare (front e') (front e)).isSome)
    (hearlier : ∀ e ∈ l, e.dst ≠ ['/'] → ∀ g ∈ fs, (compare (front e) g).isSome) :
    branches prev (mem.records i (l ++ x :: rest)) = branches prev' (mem.records i (l ++ x' :: rest)) := by
  induction l generalizing i fs prev prev' with
  | nil =>
    rw [List.nil_append, List.nil_append, Memory.records, Memory.records, if_neg fun h => used_iff.mp h hx,
      if_neg fun h => used_iff.mp h hx']
    rfl
  | cons e l ih =>
    obtain ⟨hfits, hne⟩ := hl e (List.mem_cons_self ..)
    obtain ⟨hfirst, hlater⟩ := List.pairwise_cons.mp happart
    have hrest := fun e' (he' : e' ∈ l) => hl e' (List.mem_cons_of_mem _ he')
    obtain ⟨u, hu, hdst⟩ : ∃ u, u ≠ [] ∧ components (mem.dst e (l ++ x :: rest)) = front e ++ u :=
      components_dst_append e x l rest
    obtain ⟨u', hu', hdst'⟩ : ∃ u, u ≠ [] ∧ components (mem.dst e (l ++ x' :: rest)) = front e ++ u :=
      components_dst_append e x' l rest
    rw [List.cons_append, List.cons_append, records_cons hne, records_cons hne, branches, branches]
    unfold along
    by_cases hroot : e.dst = ['/']
    · rw [if_pos hroot, if_pos hroot, if_pos hroot, if_pos hroot]
      exact congrArg _ (ih hfs hfs' hrest hlater fun e' he' => hearlier e' (List.mem_cons_of_mem _ he'))
    · rw [if_neg hroot, if_neg hroot, if_neg hroot, if_neg hroot]
      dsimp only
      have hfront : front e ≠ [] := List.ne_nil_of_length_pos (Nat.lt_of_lt_of_le Nat.two_pos (two_le_front hfits hne))
      rw [hdst, hdst', branch_of_fronts hfs hfs' hfront (hearlier e (List.mem_cons_self ..) hroot) hu hu']
      refine congrArg _ (ih (hfs.cons (List.prefix_append _ _)) (hfs'.cons (List.prefix_append _ _)) hrest hlater fun e' he' hroot' g hg => ?_)
      rcases List.mem_cons.mp hg with rfl | hg
      · exact hfirst e' he' hroot hroot'
      · exact hearlier e' (List.mem_cons_of_mem _ he') hroot' g hg

/-- Where no two mount points look alike, nothing that a failing call leaves is seen. -/
theorem unseen_of_apart (hw : WellFormed slots) (hroom : (mounted slots).length < 16) (he : e.dst = []) (h : Distinct slots) :
    Unseen mem slots e := by
  obtain ⟨x, hx, hslots⟩ := replace_self hw hroom
  have hl : ∀ m ∈ mounted slots, Fits m ∧ m.dst ≠ [] := fun m hm => ⟨fits_of_mounted hw m hm, mounted_used hm⟩
  have hb : branches [] (mem.records 0 (replace slots e)) = branches [] (mem.records 0 (replace slots x)) :=
    branches_of_fronts .nil .nil he hx hl h fun _ _ _ _ hg => absurd hg List.not_mem_nil
  rwa [← hslots] at hb

theorem vfsMount_reached (hw : WellFormed slots) (h : Reaches mem cb src dst slots dev) :
    vfsMount mem cb (src.map CString.ptr) dst.ptr fsType opts slots =
      if Missing src dev then .ok (-1, replace slots (leftEntry cb src dst fsType opts dev))
      else if (∀ s ∈ src, s.text.length < pathSize) ∧ dst.text.length < pathSize then
        .ok ((cb.mountResult fsType (newEntry src dst fsType dev) opts).1,
          replace slots (leftEntry cb src dst fsType opts dev))
      else .error overrun := by
  rw [vfsMount_room mem cb _ fsType opts hw h.absent h.room, fillEntry_reached fsType opts h]
  by_cases hmissing : Missing src dev
  · rw [if_pos hmissing, if_pos hmissing]
    rfl
  · rw [if_neg hmissing, if_neg hmissing]
    by_cases hshort : (∀ s ∈ src, s.text.length < pathSize) ∧ dst.text.length < pathSize
    · rw [if_pos hshort, if_pos hshort]
      rfl
    · rw [if_neg hshort, if_neg hshort]
      rfl

theorem leaves_harmless (hw : WellFormed slots) (h : Reaches mem cb src dst slots dev)
    (hleaves : LeavesNoTrace mem dst slots (vfsMount mem cb (src.map CString.ptr) dst.ptr fsType opts slots)) :
    Harmless cb src dst fsType opts dev := by
  rw [vfsMount_reached hw h] at hleaves
  by_cases hmissing : Missing src dev
  · exact ⟨absurd hmissing, absurd hmissing, absurd hmissing, absurd hmissing⟩
  rw [if_neg hmissing] at hleaves
  by_cases hshort : (∀ s ∈ src, s.text.length < pathSize) ∧ dst.text.length < pathSize
  · rw [if_pos hshort] at hleaves
    unfold LeavesNoTrace at hleaves
    dsimp only at hleaves
    refine ⟨fun _ => hshort.1, fun _ => hshort.2, fun _ hzero => ?_, fun _ hres => ?_⟩
    · rw [if_pos hzero] at hleaves
      obtain ⟨_, e, he, hmore⟩ := hleaves
      rw [← he]
      exact mounted_used (hmore ▸ List.mem_append_right _ (List.mem_singleton_self e))
    · rw [if_neg hres] at hleaves
      by_contra hne
      have hdst : (leftEntry cb src dst fsType opts dev).dst = dst.text := by rw [leftEntry_filled hmissing]; rfl
      have hfits : Fits (leftEntry cb src dst fsType opts dev) := leftEntry_fits hshort.1 hshort.2
      obtain ⟨path, hpath⟩ : ∃ path : CString, ¬Agrees SameFound (vfsLookup mem path.ptr slots)
          (vfsLookup mem path.ptr (replace slots (leftEntry cb src dst fsType opts dev))) :=
        lookups_differ hw h.room hfits (hdst ▸ hne) (hdst ▸ h.absent)
      exact hpath (hleaves path)
  · rw [if_neg hshort] at hleaves
    exact absurd rfl hleaves

theorem leaves_unseen (hw : WellFormed slots) (h : Reaches mem cb src dst slots dev)
    (hleaves : LeavesNoTrace mem dst slots (vfsMount mem cb (src.map CString.ptr) dst.ptr fsType opts slots))
    (hfails : Fails cb src dst fsType opts dev) (hfar : Far mem slots (leftEntry cb src dst fsType opts dev)) :
    Unseen mem slots (leftEntry cb src dst fsType opts dev) := by
  have hharm := leaves_harmless hw h hleaves
  rw [vfsMount_reached hw h] at hleaves
  by_cases hmissing : Missing src dev
  · rw [if_pos hmissing] at hleaves
    have hzero : leftEntry cb src dst fsType opts dev = .zero := if_pos hmissing
    refine unseen_of_lookups hw h.room ?_ ?_ hfar hleaves
    · rw [hzero]
      exact fits_zero
    · rw [hzero]
      rfl
  · have hres := hfails.resolve_left hmissing
    have hdst : (leftEntry cb src dst fsType opts dev).dst = dst.text := by rw [leftEntry_filled hmissing]; rfl
    have hshort := And.intro (hharm.source hmissing) (hharm.target hmissing)
    rw [if_neg hmissing, if_pos hshort] at hleaves
    unfold LeavesNoTrace at hleaves
    dsimp only at hleaves
    rw [if_neg hres] at hleaves
    exact unseen_of_lookups hw h.room (leftEntry_fits hshort.1 hshort.2) (hdst.trans (hharm.refused hmissing hres)) hfar hleaves

theorem harmless_leaves (hw : WellFormed slots) (h : Reaches mem cb src dst slots dev)
    (hharm : Harmless cb src dst fsType opts dev)
    (hunseen : Fails cb src dst fsType opts dev → Unseen mem slots (leftEntry cb src dst fsType opts dev)) :
    LeavesNoTrace mem dst slots (vfsMount mem cb (src.map CString.ptr) dst.ptr fsType opts slots) := by
  rw [vfsMount_reached hw h]
  by_cases hmissing : Missing src dev
  · have hzero : leftEntry cb src dst fsType opts dev = .zero := if_pos hmissing
    have hdst : (leftEntry cb src dst fsType opts dev).dst = [] := by rw [hzero]; rfl
    rw [if_pos hmissing]
    exact lookup_unseen hw h.room hdst (hunseen (.inl hmissing))
  · have hdst : (leftEntry cb src dst fsType opts dev).dst = dst.text := by rw [leftEntry_filled hmissing]; rfl
    have hshort := And.intro (hharm.source hmissing) (hharm.target hmissing)
    rw [if_neg hmissing, if_pos hshort]
    unfold LeavesNoTrace
    dsimp only
    by_cases hres : (cb.mountResult fsType (newEntry src dst fsType dev) opts).1 = 0
    · have hne := hharm.taken hmissing hres
      rw [if_pos hres]
      refine ⟨wellFormed_replace hw h.room (leftEntry_fits hshort.1 hshort.2) (hdst ▸ h.absent), _, hdst, ?_⟩
      rw [mounted_replace hw, if_neg (hdst ▸ hne)]
    · rw [if_neg hres]
      exact lookup_unseen hw h.room (hdst.trans (hharm.refused hmissing hres)) (hunseen (.inr hres))

/-- A call that does not get to the record behind the table leaves the table as it is, or does not return. -/
theorem unreached_leaves (cb : Callbacks Fs Dev) (src : Option CString) (dst : CString) (fsType : Fs) (opts : Nat)
    (hw : WellFormed slots)
    (h : ∀ dev, ¬Reaches mem cb src dst slots dev) :
    LeavesNoTrace mem dst slots (vfsMount mem cb (src.map CString.ptr) dst.ptr fsType opts slots) := by
  have hfailed : LeavesNoTrace mem dst slots (.ok (-1, slots)) := fun path => by
    cases vfsLookup mem path.ptr slots with
    | error fault => exact .fault fault
    | ok r => exact .ok rfl
  by_cases hexists : ∃ m ∈ mounted slots, m.dst = dst.text
  · rw [vfsMount_exists hw hexists]
    exact hfailed
  have habsent : ∀ m ∈ mounted slots, m.dst ≠ dst.text := fun m hm heq => hexists ⟨m, hm, heq⟩
  by_cases hfull : (mounted slots).length = 16
  · rw [vfsMount_full hw habsent hfull]
    exact hfailed
  have hroom : (mounted slots).length < 16 := by
    have hle : (mounted slots).length ≤ slots.length := (List.takeWhile_sublist _).length_le
    rw [hw.size] at hle
    exact lt_of_le_of_ne hle hfull
  cases src with
  | none => exact absurd ⟨habsent, hroom, rfl⟩ (h none)
  | some s =>
    cases hdev : vfsGetBlkdev mem cb s.ptr (replace slots .zero) with
    | ok dev => exact absurd ⟨habsent, hroom, hdev⟩ (h dev)
    | error fault =>
      have hstays := vfsGetBlkdev_stays mem cb s.ptr (replace slots .zero)
      rw [hdev] at hstays
      rw [vfsMount_room mem cb _ fsType opts hw habsent hroom, Option.map_some, fillEntry, openSource, hdev]
      exact fun hover => hstays (congrArg _ hover)

/-- A call that leaves no trace does not get to the record behind the table, or both strings fit, an
accepted mount point is not empty, one that the file system refuses is empty, and no mount point is
told from the others by what a failing call leaves in the record, as far as the memory is known. Where
all this holds a call leaves no trace. -/
theorem mount_traceless (mem : Memory Fs Dev) (cb : Callbacks Fs Dev) (src : Option CString) (dst : CString) (fsType : Fs)
    (opts : Nat)
    (hw : WellFormed slots) :
    (LeavesNoTrace mem dst slots (vfsMount mem cb (src.map CString.ptr) dst.ptr fsType opts slots) →
      ∀ dev, Reaches mem cb src dst slots dev → Harmless cb src dst fsType opts dev ∧
        (Fails cb src dst fsType opts dev → Far mem slots (leftEntry cb src dst fsType opts dev) →
          Unseen mem slots (leftEntry cb src dst fsType opts dev))) ∧
    ((∀ dev, Reaches mem cb src dst slots dev → Harmless cb src dst fsType opts dev ∧
        (Fails cb src dst fsType opts dev → Unseen mem slots (leftEntry cb src dst fsType opts dev))) →
      LeavesNoTrace mem dst slots (vfsMount mem cb (src.map CString.ptr) dst.ptr fsType opts slots)) := by
  refine ⟨fun hleaves dev h => ⟨leaves_harmless hw h hleaves, leaves_unseen hw h hleaves⟩, fun hall => ?_⟩
  by_cases hreached : ∃ dev, Reaches mem cb src dst slots dev
  · obtain ⟨dev, h⟩ := hreached
    obtain ⟨hharm, hunseen⟩ := hall dev h
    exact harmless_leaves hw h hharm hunseen
  · exact unreached_leaves cb src dst fsType opts hw fun dev h => hreached ⟨dev, h⟩

end Calls

section Refusal

def answering (res : Int) : Callbacks Unit Unit := ⟨fun _ => none, fun _ => some fun _ _ => (res, 0)⟩

def zeroMemory : Memory Unit Unit := ⟨fun _ => 0xC0100000, fun _ => 0, [], by decide⟩

def mntString : CString := ⟨buffered ['/', 'm', 'n', 't'], ['/', 'm', 'n', 't'], holds_buffered (by decide) (by decide)⟩

def noString : CString := ⟨buffered [], [], holds_buffered (by decide) (by decide)⟩

def rootTable : List (Entry Unit Unit) := replace (List.replicate 16 .zero) ⟨some (), none, [], ['/'], 0⟩

/-- Behind the root directory a file system that takes the mount point, and one that refuses an empty one. -/
theorem mount_accepted : WellFormed rootTable ∧
    LeavesNoTrace zeroMemory mntString rootTable (vfsMount zeroMemory (answering 0) none mntString.ptr () 0 rootTable) ∧
    LeavesNoTrace zeroMemory noString rootTable (vfsMount zeroMemory (answering (-1)) none noString.ptr () 0 rootTable) := by
  have hroot : WellFormed rootTable := wellFormed_replace wellFormed_zero (by decide) ⟨by decide, by decide, by decide⟩
    fun m hm => absurd hm List.not_mem_nil
  have hunseen : ∀ (e : Entry Unit Unit) rest, e.dst = [] →
      branches [] (zeroMemory.records 0 (⟨some (), none, [], ['/'], 0⟩ :: e :: rest)) = [none] := by
    intro e rest he
    rw [records_cons (List.cons_ne_nil _ _), Memory.records, if_neg fun hused => used_iff.mp hused he]
    rfl
  refine ⟨hroot, (mount_traceless zeroMemory (answering 0) none mntString () 0 hroot).2 fun dev _ => ⟨⟨?_, ?_, ?_, ?_⟩, ?_⟩,
    (mount_traceless zeroMemory (answering (-1)) none noString () 0 hroot).2 fun dev _ => ⟨⟨?_, ?_, ?_, ?_⟩, fun _ => ?_⟩⟩
  · exact fun _ s hs => absurd hs (Option.not_mem_none s)
  · exact fun _ => by decide
  · exact fun _ _ => by decide
  · exact fun _ hne => absurd rfl hne
  · rintro (hmissing | hres)
    · exact Bool.noConfusion hmissing.1
    · exact absurd rfl hres
  · exact fun _ s hs => absurd hs (Option.not_mem_none s)
  · exact fun _ => by decide
  · exact fun _ hzero => absurd hzero (by decide : (-1 : Int) ≠ 0)
  · exact fun _ _ => rfl
  · exact (hunseen _ _ rfl).trans (hunseen _ _ rfl).symm

/-- A file system that refuses the mount point is found there all the same. -/
theorem mount_refused : ∃ (dst : CString) (slots : List (Entry Unit Unit)), WellFormed slots ∧
    ¬LeavesNoTrace zeroMemory dst slots (vfsMount zeroMemory (answering (-1)) none dst.ptr () 0 slots) := by
  refine ⟨mntString, List.replicate 16 .zero, wellFormed_zero, fun h => ?_⟩
  have hsame : ∀ path : CString, Agrees SameFound (vfsLookup zeroMemory path.ptr (List.replicate 16 .zero))
    (vfsLookup zeroMemory path.ptr (⟨some (), none, [], mntString.text, 0⟩ :: List.replicate 15 .zero)) := h
  have hfound := (hsame mntString).of_ok
  cases hfound

end Refusal

end YggKernel.Vfs
