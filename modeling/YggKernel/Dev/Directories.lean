import YggKernel.Dev.Listing
import YggKernel.Dev.Reading
import Mathlib.Data.List.TakeWhile

namespace YggKernel.Dev

open Lib.ByteMemory

/-- An entry that lies in the directory, or that the comparison of paths accepts, has a name that
does not fill its field and goes on with a slash behind the directory. -/
def Entry.Fits (d : List (BitVec 8)) (e : Entry) : Prop :=
  ChildOf d e.path ∨ PathMatch d e.shown → e.shown = e.name ∧ dirPrefix d <+: e.name

/-- The root is not listed up to a directory at the end of the archive. -/
def LastKept (d : List (BitVec 8)) (entries : List Entry) : Prop :=
  d ≠ [] ∨ ∃ e, entries.getLast? = some e ∧ (e.IsFile ∨ ¬ChildOf d e.path)

structure ChildName (x : List (BitVec 8)) : Prop where
  nonempty : x ≠ []
  unslashed : x ≠ [slash]
  flat : innerSlashes x = 0

section Names

variable {d : List (BitVec 8)} {e : Entry}

theorem Entry.name_cases (e : Entry) : e.name = e.path ∨ e.name = e.path ++ [slash] := by
  unfold Entry.path
  by_cases hdir : ¬e.IsFile ∧ e.name.getLast? = some slash
  · rw [if_pos hdir]
    exact .inr (List.dropLast_append_getLast? slash hdir.2).symm
  · rw [if_neg hdir]
    exact .inl rfl

theorem Entry.innerSlashes_name (h : e.Named) : innerSlashes e.name = countSlashes e.path := by
  rcases e.name_cases with hname | hname
  · rw [hname, innerSlashes_of_unslashed h.unslashed]
  · rw [hname, innerSlashes_append_slash]

theorem countSlashes_append (p q : List (BitVec 8)) : countSlashes (p ++ q) = countSlashes p + countSlashes q :=
  List.count_append

theorem countSlashes_eq_zero {p : List (BitVec 8)} : countSlashes p = 0 ↔ slash ∉ p := List.count_eq_zero

theorem countSlashes_dirPrefix (d : List (BitVec 8)) :
    countSlashes (dirPrefix d) = (if d ≠ [] then 1 else 0) + countSlashes d := by
  unfold dirPrefix
  by_cases hd : d = []
  · rw [if_pos hd, if_neg (not_not_intro hd), hd]
    rfl
  · rw [if_neg hd, if_pos hd, countSlashes_append, Nat.add_comm]
    rfl

theorem prefix_dirPrefix (d : List (BitVec 8)) : d <+: dirPrefix d := by
  unfold dirPrefix
  by_cases hd : d = []
  · rw [if_pos hd, hd]
  · rw [if_neg hd]
    exact List.prefix_append ..

theorem ChildOf.split {p : List (BitVec 8)} (h : ChildOf d p) :
    ∃ c, p = dirPrefix d ++ c ∧ c ≠ [] ∧ slash ∉ c := by
  obtain ⟨⟨c, rfl⟩, hne, hflat⟩ := h
  rw [List.drop_left] at hne hflat
  exact ⟨c, rfl, hne, hflat⟩

theorem childOf_append {c : List (BitVec 8)} (hne : c ≠ []) (hflat : slash ∉ c) : ChildOf d (dirPrefix d ++ c) := by
  refine ⟨List.prefix_append .., ?_, ?_⟩
  · rwa [List.drop_left]
  · rwa [List.drop_left]

theorem pathMatch_of_child (h : e.Named) (hchild : ChildOf d e.path) : PathMatch d e.name := by
  obtain ⟨c, hc, hne, hflat⟩ := hchild.split
  refine ⟨?_, ?_⟩
  · have hleads : e.path <+: e.name := by
      rcases e.name_cases with hname | hname
      · rw [hname]
      · rw [hname]
        exact List.prefix_append ..
    rw [hc] at hleads
    exact ((prefix_dirPrefix d).trans (List.prefix_append ..)).trans hleads
  · rw [Entry.innerSlashes_name h, hc, countSlashes_append, countSlashes_dirPrefix,
      countSlashes_eq_zero.mpr hflat, Nat.add_zero]

theorem child_of_pathMatch (h : e.Named) (hleads : dirPrefix d <+: e.name) (hmatch : PathMatch d e.name) :
    ChildOf d e.path := by
  have hcount : countSlashes e.path = countSlashes (dirPrefix d) := by
    rw [← Entry.innerSlashes_name h, ← hmatch.2, countSlashes_dirPrefix]
  have hpath : dirPrefix d <+: e.path := by
    rcases e.name_cases with hname | hname
    · rwa [hname] at hleads
    · rw [hname] at hleads
      rcases List.prefix_concat_iff.mp hleads with heq | hshort
      · rw [heq, countSlashes_append] at hcount
        have hone : countSlashes [slash] = 1 := by decide
        omega
      · exact hshort
  obtain ⟨c, hc⟩ := hpath
  have hflat : slash ∉ c := by
    rw [← hc, countSlashes_append] at hcount
    exact countSlashes_eq_zero.mp (by omega)
  have hne : c ≠ [] := by
    rintro rfl
    rw [List.append_nil] at hc
    have hlast := h.unslashed
    rw [← hc] at hlast
    unfold dirPrefix at hlast
    by_cases hd : d = []
    · rw [hd] at hc
      exact h.nonempty hc.symm
    · rw [if_neg hd, List.getLast?_concat] at hlast
      exact hlast rfl
  rw [← hc]
  exact childOf_append hne hflat

theorem childName_of_child (h : ChildOf d e.path) : ChildName (e.name.drop (dirPrefix d).length) := by
  obtain ⟨c, hc, hne, hflat⟩ := h.split
  have hlast : c.getLast? ≠ some slash := fun hslash => hflat (List.mem_of_getLast? hslash)
  have hzero : countSlashes c = 0 := countSlashes_eq_zero.mpr hflat
  rcases e.name_cases with hname | hname
  · rw [hname, hc, List.drop_left]
    refine ⟨hne, ?_, ?_⟩
    · rintro rfl
      exact hflat (List.mem_singleton_self _)
    · rw [innerSlashes_of_unslashed hlast, hzero]
  · rw [hname, hc, List.append_assoc, List.drop_left]
    refine ⟨by simp, ?_, ?_⟩
    · intro hslash
      have hlength := congrArg List.length hslash
      rw [List.length_append, List.length_singleton] at hlength
      exact hne (List.eq_nil_of_length_eq_zero (by omega))
    · rw [innerSlashes_append_slash, hzero]

/-- A match that is shown by the name of a child goes on with a slash. -/
theorem prefix_of_childName (h : e.Named) (hmatch : PathMatch d e.name)
    (hchild : ChildName (e.name.drop (dirPrefix d).length)) : dirPrefix d <+: e.name := by
  by_cases hd : d = []
  · rw [dirPrefix, if_pos hd]
    exact List.nil_prefix
  · obtain ⟨⟨t, ht⟩, hcount⟩ := hmatch
    rw [length_dirPrefix, if_pos hd, ← ht, ← List.drop_drop, List.drop_left] at hchild
    rw [Entry.innerSlashes_name h, if_pos hd] at hcount
    cases t with
    | nil => exact absurd rfl hchild.nonempty
    | cons x t =>
      rw [List.drop_succ_cons, List.drop_zero] at hchild
      have hone : countSlashes (d ++ x :: t) = countSlashes d + countSlashes [x] + countSlashes t := by
        rw [List.append_cons, countSlashes_append, countSlashes_append]
      have hslash : countSlashes [x] = 1 := by
        rcases e.name_cases with hname | hname
        · have hlast : t.getLast? ≠ some slash := by
            have hunslashed := h.unslashed
            rwa [← hname, ← ht, List.append_cons, List.getLast?_append_of_ne_nil _ hchild.nonempty] at hunslashed
          have hflat := hchild.flat
          rw [innerSlashes_of_unslashed hlast] at hflat
          rw [← hname, ← ht, hone, hflat] at hcount
          omega
        · obtain ⟨t', y, rfl⟩ := (List.eq_nil_or_concat t).resolve_left hchild.nonempty
          rw [List.concat_eq_append] at ht hchild
          rw [hname, ← List.cons_append, ← List.append_assoc] at ht
          obtain ⟨hpath, hy⟩ := List.append_inj' ht rfl
          have hflat := hchild.flat
          rw [List.singleton_inj.mp hy, innerSlashes_append_slash] at hflat
          rw [← hpath, List.append_cons, countSlashes_append, countSlashes_append, hflat] at hcount
          omega
      have hx : x = slash := by
        by_contra hne
        simp [countSlashes, hne] at hslash
      rw [← ht, dirPrefix, if_neg hd, hx, List.append_cons d slash t]
      exact List.prefix_append ..

theorem fits_iff (h : e.Named) : e.Fits d → (PathMatch d e.shown ↔ ChildOf d e.path) := by
  intro hfits
  constructor
  · intro hmatch
    obtain ⟨hshown, hleads⟩ := hfits (.inr hmatch)
    rw [hshown] at hmatch
    exact child_of_pathMatch h hleads hmatch
  · intro hchild
    obtain ⟨hshown, -⟩ := hfits (.inl hchild)
    rw [hshown]
    exact pathMatch_of_child h hchild

end Names

section Exact

variable {m : Mem} {base : Nat} {d : List (BitVec 8)} {entries : List Entry}

theorem found_eq_children (hnamed : ∀ e ∈ entries, e.Named) (hfits : ∀ e ∈ entries, e.Fits d) :
    found d entries = children d entries := by
  have hfilter : (entries.filter fun e => PathMatch d e.shown) = entries.filter fun e => ChildOf d e.path :=
    List.filter_congr fun e he => decide_eq_decide.mpr (fits_iff (hnamed e he) (hfits e he))
  rw [found, children, hfilter]
  refine List.map_congr_left fun e he => ?_
  obtain ⟨hmem, hchild⟩ := List.mem_filter.mp he
  rw [(hfits e hmem (.inl (of_decide_eq_true hchild))).1]

theorem length_name (e : Entry) : e.name.length ≤ 100 := by
  have hle := (List.takeWhile_sublist (p := (· ≠ 0)) (l := (e.header.drop offName).take 100)).length_le
  rw [List.length_take] at hle
  exact hle.trans (Nat.min_le_left ..)

theorem takeWhile_take {p : BitVec 8 → Bool} {l : List (BitVec 8)} {n : Nat} (h : (l.takeWhile p).length ≤ n) :
    (l.take n).takeWhile p = l.takeWhile p := by
  induction l generalizing n with
  | nil => rw [List.take_nil]
  | cons c l ih =>
    by_cases hc : p c = true
    · rw [List.takeWhile_cons_of_pos hc, List.length_cons] at h
      cases n with
      | zero => cases h
      | succ n =>
        rw [List.take_succ_cons, List.takeWhile_cons_of_pos hc, List.takeWhile_cons_of_pos hc,
          ih (Nat.le_of_succ_le_succ h)]
    · cases n with
      | zero =>
        rw [List.takeWhile_cons_of_neg hc]
        rfl
      | succ n => rw [List.take_succ_cons, List.takeWhile_cons_of_neg hc, List.takeWhile_cons_of_neg hc]

theorem shown_eq_name {e : Entry} (h : e.shown.length ≤ 100) : e.shown = e.name := (takeWhile_take h).symm

theorem fits_of_perm (hnamed : ∀ e ∈ entries, e.Named) (hperm : (found d entries).Perm (children d entries)) :
    ∀ e ∈ entries, e.Fits d := by
  have hmatched : ∀ e ∈ entries, PathMatch d e.shown → e.shown = e.name ∧ dirPrefix d <+: e.name := by
    intro e he hmatch
    have hmem : (⟨e.shown.drop (dirPrefix d).length, e.dtype⟩ : VfsDirent) ∈ children d entries :=
      hperm.subset (List.mem_map_of_mem (List.mem_filter.mpr ⟨he, decide_eq_true hmatch⟩))
    obtain ⟨x, hx, hsame⟩ := List.mem_map.mp hmem
    have hname : x.name.drop (dirPrefix d).length = e.shown.drop (dirPrefix d).length := congrArg VfsDirent.name hsame
    have hchild := childName_of_child (of_decide_eq_true (List.mem_filter.mp hx).2)
    have hshown : e.shown = e.name := by
      have hlength := congrArg List.length hname
      have hpos := List.length_pos_iff.mpr hchild.nonempty
      rw [List.length_drop] at hpos
      rw [List.length_drop, List.length_drop] at hlength
      have := length_name x
      have := hmatch.length_le
      exact shown_eq_name (by omega)
    rw [hname, hshown] at hchild
    rw [hshown] at hmatch
    exact ⟨hshown, prefix_of_childName (hnamed e he) hmatch hchild⟩
  have hsub : ∀ e ∈ entries, PathMatch d e.shown → ChildOf d e.path := by
    intro e he hmatch
    obtain ⟨hshown, hleads⟩ := hmatched e he hmatch
    rw [hshown] at hmatch
    exact child_of_pathMatch (hnamed e he) hleads hmatch
  -- As many entries match as lie in the directory, so every one that lies there matches.
  have hall : ∀ e ∈ entries.filter fun e => ChildOf d e.path, decide (PathMatch d e.shown) = true := by
    have hfilter : (entries.filter fun e => ChildOf d e.path).filter (fun e => PathMatch d e.shown) =
        entries.filter fun e => PathMatch d e.shown := by
      rw [List.filter_filter]
      refine List.filter_congr fun e he => ?_
      by_cases hmatch : PathMatch d e.shown
      · simp [hmatch, hsub e he hmatch]
      · simp [hmatch]
    have hlength := hperm.length_eq
    rw [found, children, List.length_map, List.length_map, ← hfilter] at hlength
    exact List.length_filter_eq_length_iff.mp hlength
  rintro e he (hchild | hmatch)
  · exact hmatched e he (of_decide_eq_true (hall e (List.mem_filter.mpr ⟨he, decide_eq_true hchild⟩)))
  · exact hmatched e he hmatch

theorem endSeen_iff (hnamed : ∀ e ∈ entries, e.Named) (hfits : ∀ e ∈ entries, e.Fits d) :
    EndSeen d entries ↔ LastKept d entries := by
  have hsame : ∀ e ∈ entries, (e.IsFile ∨ ¬PathMatch d e.shown ↔ e.IsFile ∨ ¬ChildOf d e.path) := fun e he => by
    rw [fits_iff (hnamed e he) (hfits e he)]
  unfold EndSeen LastKept
  refine or_congr_right (exists_congr fun e => ?_)
  exact and_congr_right fun hlast => hsame e (List.mem_of_getLast? hlast)

/-- A path that is the path of a directory in the archive, or the root. -/
def Present (d : List (BitVec 8)) (entries : List Entry) : Prop := d = [] ∨ ∃ e ∈ entries, ¬e.IsFile ∧ e.path = d

theorem Present.opened (h : Present d entries) (flags : BitVec 32) (a : Nat) : Opened ⟨flags ||| vfsFlgDir, d, a⟩ := by
  have hpath : (∀ c ∈ d, c ≠ 0) ∧ d.length ≤ 100 := by
    rcases h with rfl | ⟨e, -, -, rfl⟩
    · exact ⟨fun c hc => absurd hc List.not_mem_nil, Nat.zero_le _⟩
    · have hleads : e.path <+: e.name := by
        rcases e.name_cases with hname | hname
        · rw [hname]
        · rw [hname]
          exact List.prefix_append ..
      refine ⟨fun c hc => ?_, hleads.length_le.trans (length_name e)⟩
      simpa using List.mem_takeWhile_imp (hleads.subset hc)
  refine ⟨?_, hpath.1, hpath.2.trans (by decide)⟩
  have hbit : (flags ||| vfsFlgDir).getLsbD 21 = true := by simp [vfsFlgDir]
  intro hzero
  have hand : ((flags ||| vfsFlgDir) &&& vfsFlgDir).getLsbD 21 = false := by
    dsimp only at hzero
    rw [hzero]
    decide
  rw [BitVec.getLsbD_and, hbit] at hand
  exact absurd hand (by decide)

theorem vfsOpendir_eq (devInitrd base : Nat) (d : List (BitVec 8)) (block : VfsDir) :
    vfsOpendir devInitrd base devInitrd d block = .ok ⟨block.flags ||| vfsFlgDir, d, base⟩ := if_pos rfl

/-- Reading a directory to its end yields its entries, each once, exactly when no name fills its
field or goes on from the path otherwise, and a directory does not end the listing of the root. -/
theorem readdir_exact_iff (m : Mem) (base devInitrd : Nat) (entries : List Entry) (d : List (BitVec 8))
    (hload : Loaded m base (archive entries)) (hnamed : ∀ e ∈ entries, e.Named) (hd : Present d entries)
    (block : VfsDir) : ∃ dir, vfsOpendir devInitrd base devInitrd d block = .ok dir ∧
      ((∃ l, Lists m dir l ∧ l.Perm (children d entries)) ↔ (∀ e ∈ entries, e.Fits d) ∧ LastKept d entries) := by
  have hopened := hd.opened block.flags base
  refine ⟨⟨block.flags ||| vfsFlgDir, d, base⟩, vfsOpendir_eq .., ⟨?_, ?_⟩⟩
  · rintro ⟨l, hl, hperm⟩
    have hend : EndSeen d entries := by
      by_contra hunseen
      have hmem := hperm.subset (lists_unnamed hopened hnamed hload hunseen hl)
      obtain ⟨x, hx, hsame⟩ := List.mem_map.mp hmem
      exact (childName_of_child (of_decide_eq_true (List.mem_filter.mp hx).2)).nonempty (congrArg VfsDirent.name hsame)
    have hfound := lists_found hopened hnamed hload hend
    rw [hl.unique hfound] at hperm
    have hfits := fits_of_perm hnamed hperm
    exact ⟨hfits, (endSeen_iff hnamed hfits).mp hend⟩
  · rintro ⟨hfits, hlast⟩
    refine ⟨found d entries, lists_found hopened hnamed hload ((endSeen_iff hnamed hfits).mpr hlast), ?_⟩
    rw [found_eq_children hnamed hfits]

end Exact

def closedDir : VfsDir := ⟨0, [], 0⟩

def folder : Entry where
  header := [0x61, 0x2F] ++ List.replicate 154 0 ++ [0x35] ++ List.replicate 100 0 ++ ustar ++ List.replicate 250 0
  contents := []
  padding := []
  block := by decide +kernel
  named := by decide +kernel
  magic := by decide +kernel
  typed := by decide +kernel
  sized := fun h => absurd (by decide +kernel) h
  directory := fun _ => rfl
  small := by decide
  padded := by decide

def emptyHeader (name : List (BitVec 8)) (type : BitVec 8) : List (BitVec 8) :=
  name ++ List.replicate (124 - name.length) 0 ++ [0x30] ++ List.replicate 31 0 ++ [type] ++ List.replicate 100 0 ++ ustar ++
    List.replicate 250 0

def innerFile : Entry where
  header := emptyHeader [0x61, 0x2F, 0x62] 0x30
  contents := []
  padding := []
  block := by decide +kernel
  named := by decide +kernel
  magic := by decide +kernel
  typed := by decide +kernel
  sized := fun _ => ⟨[0], by decide, rfl, 10, by decide +kernel⟩
  directory := fun _ => rfl
  small := by decide
  padded := by decide

def innerFolder : Entry where
  header := emptyHeader [0x61, 0x2F, 0x63, 0x2F] 0x35
  contents := []
  padding := []
  block := by decide +kernel
  named := by decide +kernel
  magic := by decide +kernel
  typed := by decide +kernel
  sized := fun h => absurd (by decide +kernel) h
  directory := fun _ => rfl
  small := by decide
  padded := by decide

def deepFile : Entry where
  header := emptyHeader [0x61, 0x2F, 0x63, 0x2F, 0x64] 0x30
  contents := []
  padding := []
  block := by decide +kernel
  named := by decide +kernel
  magic := by decide +kernel
  typed := by decide +kernel
  sized := fun _ => ⟨[0], by decide, rfl, 10, by decide +kernel⟩
  directory := fun _ => rfl
  small := by decide
  padded := by decide

def nestedEntries : List Entry := [folder, innerFile, innerFolder, deepFile]

/-- The directory "a" has a file and a directory in it, and the file in that one is not listed. -/
theorem readdir_exact_nested : ∃ dir l, vfsOpendir 1 0x100000 1 [0x61] closedDir = .ok dir ∧
    Lists (memoryOf 0x100000 (archive nestedEntries)) dir l ∧ l.Perm [⟨[0x62], vfsDtReg⟩, ⟨[0x63, 0x2F], vfsDtDir⟩] := by
  have hlength : (archive nestedEntries).length = 3072 := by decide +kernel
  have hload : Loaded (memoryOf 0x100000 (archive nestedEntries)) 0x100000 (archive nestedEntries) :=
    loaded_memoryOf (by rw [hlength]; decide)
  have hnames : ∀ e ∈ nestedEntries, e.path ≠ [] ∧ e.path.getLast? ≠ some slash ∧ 0 ∈ e.header := by decide +kernel
  have hnamed : ∀ e ∈ nestedEntries, e.Named := fun e he => ⟨(hnames e he).1, (hnames e he).2.1, (hnames e he).2.2⟩
  have hfits : ∀ e ∈ nestedEntries, e.Fits [0x61] := by
    unfold Entry.Fits
    decide +kernel
  have hpresent : Present [0x61] nestedEntries := .inr ⟨folder, by simp [nestedEntries], by decide +kernel, by decide +kernel⟩
  obtain ⟨dir, hdir, hexact⟩ := readdir_exact_iff _ 0x100000 1 nestedEntries [0x61] hload hnamed hpresent closedDir
  obtain ⟨l, hl, hperm⟩ := hexact.mpr ⟨hfits, .inl (by decide)⟩
  have hchildren : children [0x61] nestedEntries = [⟨[0x62], vfsDtReg⟩, ⟨[0x63, 0x2F], vfsDtDir⟩] := by decide +kernel
  rw [hchildren] at hperm
  exact ⟨dir, l, hdir, hl, hperm⟩

/-- The root of an archive that ends with a directory lists an entry without a name. -/
theorem root_lists_zero_block : Loaded (memoryOf 0x100000 (archive [folder])) 0x100000 (archive [folder]) ∧ folder.Named ∧
    ∃ dir, vfsOpendir 1 0x100000 1 [] closedDir = .ok dir ∧
      ¬∃ l, Lists (memoryOf 0x100000 (archive [folder])) dir l ∧ l.Perm (children [] [folder]) := by
  have hlength : (archive [folder]).length = 1536 := by decide +kernel
  have hload : Loaded (memoryOf 0x100000 (archive [folder])) 0x100000 (archive [folder]) :=
    loaded_memoryOf (by rw [hlength]; decide)
  have hnamed : folder.Named := ⟨by decide +kernel, by decide +kernel, by decide +kernel⟩
  have hunseen : ¬EndSeen [] [folder] := by
    rw [endSeen_single]
    decide +kernel
  have hall : ∀ e ∈ [folder], e.Named := fun e he => List.mem_singleton.mp he ▸ hnamed
  refine ⟨hload, hnamed, ⟨0 ||| vfsFlgDir, [], 0x100000⟩, vfsOpendir_eq .., ?_⟩
  rintro ⟨l, hl, hperm⟩
  have hroot : Present [] [folder] := .inl rfl
  have hmem := hperm.subset (lists_unnamed (hroot.opened 0 0x100000) hall hload hunseen hl)
  have hchildren : children [] [folder] = [⟨[0x61, 0x2F], vfsDtDir⟩] := by decide +kernel
  rw [hchildren] at hmem
  exact absurd hmem (by decide)

end YggKernel.Dev
