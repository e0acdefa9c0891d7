import YggKernel.Dev.Archive
import YggKernel.Dev.Readdir

namespace YggKernel.Dev

open Lib.ByteMemory Strings

/-- The string at the start of the header, which is the name unless that fills its field. -/
def Entry.shown (e : Entry) : List (BitVec 8) := e.header.takeWhile (· ≠ 0)

/-- The path of an entry: the name of a directory may end with a slash. -/
def Entry.path (e : Entry) : List (BitVec 8) :=
  if ¬e.IsFile ∧ e.name.getLast? = some slash then e.name.dropLast else e.name

structure Entry.Named (e : Entry) : Prop where
  nonempty : e.path ≠ []
  unslashed : e.path.getLast? ≠ some slash
  terminated : 0 ∈ e.header

def dirPrefix (d : List (BitVec 8)) : List (BitVec 8) := if d = [] then [] else d ++ [slash]

def ChildOf (d p : List (BitVec 8)) : Prop :=
  dirPrefix d <+: p ∧ p.drop (dirPrefix d).length ≠ [] ∧ slash ∉ p.drop (dirPrefix d).length

instance (d p : List (BitVec 8)) : Decidable (ChildOf d p) := inferInstanceAs (Decidable (_ ∧ _ ∧ _))

def Entry.dtype (e : Entry) : Nat := if e.IsFile then vfsDtReg else vfsDtDir

def children (d : List (BitVec 8)) (entries : List Entry) : List VfsDirent :=
  (entries.filter fun e => ChildOf d e.path).map fun e => ⟨e.name.drop (dirPrefix d).length, e.dtype⟩

/-- The comparison of `initramfs_check_path_match`. -/
def PathMatch (d s : List (BitVec 8)) : Prop :=
  d <+: s ∧ (if d ≠ [] then 1 else 0) + countSlashes d = innerSlashes s

instance (d s : List (BitVec 8)) : Decidable (PathMatch d s) := inferInstanceAs (Decidable (_ ∧ _))

def found (d : List (BitVec 8)) (entries : List Entry) : List VfsDirent :=
  (entries.filter fun e => PathMatch d e.shown).map fun e => ⟨e.shown.drop (dirPrefix d).length, e.dtype⟩

/-- The zero block behind the last entry is not read as one. -/
def EndSeen (d : List (BitVec 8)) (entries : List Entry) : Prop :=
  d ≠ [] ∨ ∃ e, entries.getLast? = some e ∧ (e.IsFile ∨ ¬PathMatch d e.shown)

section Strings

variable {m : Mem} {a n : Nat} {l rest : List (BitVec 8)}

theorem Loaded.cons {c : BitVec 8} (h : Loaded m a (c :: l)) : m a = c ∧ Loaded m (a + 1) l := by
  obtain ⟨hfirst, hrest⟩ := Loaded.append (l := [c]) h
  exact ⟨List.head_eq_of_cons_eq hfirst.bytes, hrest⟩

theorem cstringAt_eq (hl : ∀ c ∈ l, c ≠ 0) (h : Loaded m a (l ++ 0 :: rest)) : cstringAt m a = l := by
  have hread : ∀ n, l.length < n → cstring m n a = l := by
    induction l generalizing a with
    | nil =>
      intro n hn
      obtain ⟨k, rfl⟩ := Nat.exists_eq_add_of_lt hn
      rw [cstring, if_pos h.cons.1]
    | cons c l ih =>
      intro n hn
      obtain ⟨k, rfl⟩ := Nat.exists_eq_add_of_lt hn
      obtain ⟨hc, hrest⟩ := h.cons
      have hne : m a ≠ 0 := hc ▸ hl c (List.mem_cons_self ..)
      rw [cstring, if_neg hne, hc, ih (fun x hx => hl x (List.mem_cons_of_mem _ hx)) hrest]
      rw [List.length_cons]
      omega
  have hfits := h.fits
  rw [List.length_append, List.length_cons] at hfits
  exact hread _ (by omega)

theorem strncmpAt_length (hl : ∀ c ∈ l, c ≠ 0) (hn : l.length ≤ n) :
    strncmpAt m a l l.length = 0 ↔ l <+: cstring m n a := by
  induction l generalizing a n with
  | nil => exact ⟨fun _ => List.nil_prefix, fun _ => rfl⟩
  | cons c l ih =>
    have hc := hl c (List.mem_cons_self ..)
    cases n with
    | zero => cases hn
    | succ n =>
      have hrest := ih (a := a + 1) (fun x hx => hl x (List.mem_cons_of_mem _ hx)) (Nat.le_of_succ_le_succ hn)
      rw [List.length_cons, strncmpAt, cstring, List.headD_cons, List.tail_cons]
      by_cases hzero : m a = 0
      · have hne : m a ≠ c := hzero ▸ Ne.symm hc
        rw [if_neg fun h => h.1 hzero, if_pos hne, if_pos hzero]
        simp
      · rw [if_pos ⟨hzero, hc⟩, if_neg hzero, List.cons_prefix_cons, ← hrest]
        by_cases heq : m a = c
        · simp [heq]
        · simp [heq, Ne.symm heq]

theorem checkPathMatch_eq_zero {d : List (BitVec 8)} (hd : ∀ c ∈ d, c ≠ 0) (hlen : d.length ≤ 4294967296) :
    initramfsCheckPathMatch m d a = 0 ↔ PathMatch d (cstringAt m a) := by
  rw [initramfsCheckPathMatch, PathMatch, cstringAt, ← strncmpAt_length hd hlen]
  by_cases hcmp : strncmpAt m a d d.length = 0
  · rw [if_neg (not_not_intro hcmp)]
    split <;> simp_all
  · rw [if_pos hcmp]
    exact ⟨fun h => absurd h (by decide), fun h => absurd h.1 hcmp⟩

theorem innerSlashes_append_slash (p : List (BitVec 8)) : innerSlashes (p ++ [slash]) = countSlashes p := by
  induction p with
  | nil => rfl
  | cons c p ih =>
    rw [List.cons_append, innerSlashes, ih, countSlashes, countSlashes, List.count_cons]
    by_cases hc : c = slash <;> simp [hc, Nat.add_comm]

theorem innerSlashes_of_unslashed {p : List (BitVec 8)} (h : p.getLast? ≠ some slash) :
    innerSlashes p = countSlashes p := by
  induction p with
  | nil => rfl
  | cons c p ih =>
    cases p with
    | nil =>
      have hc : c ≠ slash := fun hc => h (by rw [hc]; rfl)
      simp [innerSlashes, countSlashes, hc]
    | cons x p =>
      rw [List.getLast?_cons_cons] at h
      rw [innerSlashes, ih h, countSlashes, countSlashes, List.count_cons (a := slash) (b := c)]
      by_cases hc : c = slash <;> simp [hc, Nat.add_comm]

theorem innerSlashes_le (p : List (BitVec 8)) : innerSlashes p ≤ countSlashes p := by
  induction p with
  | nil => exact le_rfl
  | cons c p ih =>
    rw [innerSlashes, countSlashes, List.count_cons]
    unfold countSlashes at ih
    by_cases hc : c = slash
    · rw [if_pos (beq_iff_eq.mpr hc)]
      split <;> omega
    · rw [if_neg fun h => hc h.1]
      omega

theorem length_dirPrefix (d : List (BitVec 8)) : (dirPrefix d).length = if d ≠ [] then d.length + 1 else 0 := by
  unfold dirPrefix
  by_cases hd : d = []
  · rw [if_pos hd, if_neg (not_not_intro hd)]
    rfl
  · rw [if_neg hd, if_pos hd, List.length_append]
    rfl

end Strings

section Headers

variable {m : Mem} {a : Nat} {e : Entry} {d rest : List (BitVec 8)}

theorem takeWhile_split {l : List (BitVec 8)} (h : 0 ∈ l) :
    (∀ c ∈ l.takeWhile (· ≠ 0), c ≠ 0) ∧ ∃ rest, l = l.takeWhile (· ≠ 0) ++ 0 :: rest := by
  induction l with
  | nil => cases h
  | cons c l ih =>
    by_cases hc : c = 0
    · rw [List.takeWhile_cons, if_neg (by simp [hc]), hc]
      exact ⟨fun x hx => absurd hx List.not_mem_nil, l, rfl⟩
    · obtain ⟨hall, rest, hrest⟩ := ih ((List.mem_cons.mp h).resolve_left (Ne.symm hc))
      rw [List.takeWhile_cons, if_pos (by simpa using hc)]
      refine ⟨List.forall_mem_cons.mpr ⟨hc, hall⟩, rest, ?_⟩
      rw [List.cons_append, ← hrest]

theorem Entry.shown_nonzero (h : e.Named) : ∀ c ∈ e.shown, c ≠ 0 := (takeWhile_split h.terminated).1

theorem cstringAt_shown (h : e.Named) (hload : Loaded m a e.header) : cstringAt m a = e.shown := by
  obtain ⟨rest, hrest⟩ := (takeWhile_split h.terminated).2
  rw [hrest] at hload
  exact cstringAt_eq (Entry.shown_nonzero h) hload

/-- The rest of the string, from a character on that is not behind its terminator. -/
theorem cstringAt_drop (h : e.Named) (hload : Loaded m a e.header) {k : Nat} (hk : k ≤ e.shown.length) :
    cstringAt m (a + k) = e.shown.drop k := by
  obtain ⟨rest, hrest⟩ := (takeWhile_split h.terminated).2
  have hsplit : e.header = e.shown.take k ++ (e.shown.drop k ++ 0 :: rest) := by
    rw [← List.append_assoc, List.take_append_drop]
    exact hrest
  rw [hsplit] at hload
  have hbehind := hload.append.2
  rw [List.length_take_of_le hk] at hbehind
  exact cstringAt_eq (fun c hc => Entry.shown_nonzero h c (List.mem_of_mem_drop hc)) hbehind

theorem PathMatch.length_le {d s : List (BitVec 8)} (h : PathMatch d s) : (dirPrefix d).length ≤ s.length := by
  obtain ⟨⟨t, rfl⟩, hcount⟩ := h
  rw [length_dirPrefix]
  by_cases hd : d = []
  · rw [if_neg (not_not_intro hd)]
    exact Nat.zero_le _
  · rw [if_pos hd] at hcount ⊢
    cases t with
    | nil =>
      rw [List.append_nil] at hcount
      have := innerSlashes_le d
      omega
    | cons c t =>
      rw [List.length_append, List.length_cons]
      omega

theorem nextHeader_entry (h : Loaded m a (e.bytes ++ rest)) : nextHeader m true a = u32 (a + e.bytes.length) := by
  have hheader := Entry.loaded_header h
  have htype := tarType_entry hheader
  rw [tarIsUstar_entry hheader] at htype
  rw [nextHeader, htype]
  by_cases hfile : e.IsFile
  · have hsmall := e.small
    rw [if_pos hfile, if_pos rfl, tarOct2u32_entry hheader hfile]
    dsimp only
    rw [mmAlignUp_block (by omega), Nat.add_comm 1, ← e.length_bytes]
  · have hempty : e.contents = [] := e.directory (not_not.mp hfile)
    rw [if_neg hfile, if_neg (by decide), e.length_bytes, hempty]
    rfl

theorem next_zero {entries : List Entry} (h : Loaded m a (archive entries)) :
    a + 1024 ≤ 4294967296 ∧ (m (a + offName) = 0 ↔ entries = []) := by
  have hfits := h.fits
  have hlong := length_archive entries
  refine ⟨by omega, ?_⟩
  cases entries with
  | nil =>
    refine ⟨fun _ => rfl, fun _ => ?_⟩
    have hzero := h.getD (i := 0) (by rw [archive, List.length_append, List.length_replicate]; omega)
    exact hzero
  | cons e entries =>
    have hload : Loaded m a (e.bytes ++ archive entries) := by
      rw [archive, ← List.append_assoc, ← List.flatMap_cons]
      exact h
    refine ⟨fun hzero => absurd hzero ?_, fun hnil => absurd hnil (List.cons_ne_nil _ _)⟩
    rw [(Entry.loaded_header hload).getD (by rw [e.block]; decide)]
    exact e.named

end Headers

section Iteration

variable {m : Mem} {a : Nat} {dir : VfsDir} {e : Entry} {entries : List Entry}

def seek (d : List (BitVec 8)) : Nat → List Entry → Option Nat
  | _, [] => none
  | a, e :: entries => if PathMatch d e.shown then some a else seek d (a + e.bytes.length) entries

theorem Loaded.entry (h : Loaded m a (archive (e :: entries))) : Loaded m a (e.bytes ++ archive entries) := by
  rw [archive, ← List.append_assoc, ← List.flatMap_cons]
  exact h

theorem readdirLoop_archive {d : List (BitVec 8)} (hd : ∀ c ∈ d, c ≠ 0) (hlen : d.length ≤ 4294967296)
    (hnamed : ∀ e ∈ entries, e.Named) (hload : Loaded m a (archive entries)) (hne : entries ≠ []) {n : Nat}
    (hn : entries.length ≤ n) : readdirLoop m d true n a = .ok (seek d a entries) := by
  induction entries generalizing a n with
  | nil => exact absurd rfl hne
  | cons e entries ih =>
    cases n with
    | zero => cases hn
    | succ n =>
      have hbytes := hload.entry
      have hrest := hbytes.append.2
      have hcheck := checkPathMatch_eq_zero (m := m) (a := a + offName) hd hlen
      rw [cstringAt_shown (a := a + offName) (hnamed e (List.mem_cons_self ..)) (Entry.loaded_header hbytes)] at hcheck
      rw [readdirLoop, seek]
      by_cases hmatch : PathMatch d e.shown
      · rw [if_neg (not_not_intro (hcheck.mpr hmatch)), if_pos hmatch]
      · obtain ⟨hfits, hzero⟩ := next_zero hrest
        rw [if_pos fun h => hmatch (hcheck.mp h), if_neg hmatch, nextHeader_entry hbytes, u32_of_lt (by omega)]
        by_cases hlast : entries = []
        · rw [if_pos (hzero.mpr hlast), hlast]
          rfl
        · rw [if_neg fun h => hlast (hzero.mp h)]
          exact ih (fun x hx => hnamed x (List.mem_cons_of_mem _ hx)) hrest hlast (Nat.le_of_succ_le_succ hn)

structure Opened (dir : VfsDir) : Prop where
  flag : dir.flags &&& vfsFlgDir ≠ 0
  nonzero : ∀ c ∈ dir.path, c ≠ 0
  length : dir.path.length ≤ 4294967296

def openAt (dir : VfsDir) (a : Nat) : VfsDir := { dir with devPriv := a }

theorem vfsReaddir_opened (h : Opened dir) (m : Mem) (a : Nat) (ha : a ≠ mmNaddr) :
    vfsReaddir m (openAt dir a) = (readdirLoop m dir.path (tarIsUstar m a) allRounds a).map fun
      | none => (-1, openAt dir mmNaddr, none)
      | some hdr => fillEntry m (tarIsUstar m a) (openAt dir a) hdr := by
  have hflag : (openAt dir a).flags &&& vfsFlgDir ≠ 0 := h.flag
  have hstart : (openAt dir a).devPriv ≠ mmNaddr := ha
  rw [vfsReaddir, if_pos hflag, initramfsReaddir, if_neg hstart]
  dsimp only [openAt]
  cases readdirLoop m dir.path (tarIsUstar m a) allRounds a with
  | error e => rfl
  | ok hdr => cases hdr <;> rfl

theorem readdir_archive (h : Opened dir) (hnamed : ∀ e ∈ entries, e.Named) (hload : Loaded m a (archive entries))
    (hne : entries ≠ []) : vfsReaddir m (openAt dir a) =
      match seek dir.path a entries with
      | none => .ok (-1, openAt dir mmNaddr, none)
      | some hdr => .ok (fillEntry m true (openAt dir a) hdr) := by
  have hfits := hload.fits
  have hlong := length_archive entries
  have hstart : a ≠ mmNaddr := by
    unfold mmNaddr
    omega
  have hustar : tarIsUstar m a = true := by
    cases entries with
    | nil => exact absurd rfl hne
    | cons e entries => exact tarIsUstar_entry (Entry.loaded_header hload.entry)
  have hloop := readdirLoop_archive h.nonzero h.length hnamed hload hne (n := allRounds) (by unfold allRounds; omega)
  rw [vfsReaddir_opened h m a hstart, hustar, hloop]
  cases seek dir.path a entries <;> rfl

theorem fillEntry_name (hnamed : e.Named) (hheader : Loaded m a e.header) (hmatch : PathMatch dir.path e.shown) :
    cstringAt m (a + offName + if (openAt dir a).path ≠ [] then (openAt dir a).path.length + 1 else 0) =
      e.shown.drop (dirPrefix dir.path).length := by
  rw [← length_dirPrefix]
  exact cstringAt_drop hnamed hheader hmatch.length_le

theorem tarType_named (hheader : Loaded m a e.header) : tarType m a true = if e.IsFile then tarFile else tarDir := by
  have htype := tarType_entry hheader
  rwa [tarIsUstar_entry hheader] at htype

theorem fillEntry_next (hnamed : e.Named) (hload : Loaded m a (archive (e :: entries))) (hmatch : PathMatch dir.path e.shown)
    (hnext : e.IsFile → entries ≠ []) : fillEntry m true (openAt dir a) a =
      (0, openAt dir (a + e.bytes.length), some ⟨e.shown.drop (dirPrefix dir.path).length, e.dtype⟩) := by
  have hbytes := hload.entry
  have hheader := Entry.loaded_header hbytes
  obtain ⟨hfits, hzero⟩ := next_zero hbytes.append.2
  rw [fillEntry, fillEntry_name hnamed hheader hmatch, nextHeader_entry hbytes, u32_of_lt (by omega),
    tarType_named hheader, Entry.dtype]
  by_cases hfile : e.IsFile
  · rw [if_pos hfile, if_pos hfile, if_pos rfl, if_neg fun h => hnext hfile (hzero.mp h)]
    rfl
  · rw [if_neg hfile, if_neg hfile, if_neg (by decide)]
    rfl

theorem zero_blocks (hload : Loaded m a (archive [])) : ∀ i < 1024, m (a + i) = 0 := by
  intro i hi
  have hblock : archive [] = List.replicate 1024 0 := rfl
  rw [hload.getD (by rwa [hblock, List.length_replicate]), hblock, List.getD_eq_getElem?_getD, List.getElem?_replicate,
    if_pos hi]
  rfl

theorem fillEntry_last (hnamed : e.Named) (hload : Loaded m a (archive [e])) (hmatch : PathMatch dir.path e.shown)
    (hfile : e.IsFile) : fillEntry m true (openAt dir a) a =
      (0, openAt dir mmNaddr, some ⟨e.shown.drop (dirPrefix dir.path).length, e.dtype⟩) := by
  have hbytes := hload.entry
  have hheader := Entry.loaded_header hbytes
  have hblocks := zero_blocks hbytes.append.2
  obtain ⟨hfits, hzero⟩ := next_zero hbytes.append.2
  have hsecond : m (u32 (a + e.bytes.length + tarSize) + offName) = 0 := by
    have hsize : tarSize < 1024 := by decide
    rw [u32_of_lt (by omega)]
    exact hblocks tarSize hsize
  rw [fillEntry, fillEntry_name hnamed hheader hmatch, nextHeader_entry hbytes, u32_of_lt (by omega),
    tarType_named hheader, Entry.dtype, if_pos hfile, if_pos hfile, if_pos rfl, if_pos (hzero.mpr rfl), if_pos hsecond]
  rfl

/-- Behind the last entry a path finds nothing, but the root finds the zero block. -/
theorem readdir_end (h : Opened dir) (hload : Loaded m a (archive [])) :
    if dir.path = [] then ∃ dir', vfsReaddir m (openAt dir a) = .ok (0, dir', some ⟨[], vfsDtReg⟩)
    else vfsReaddir m (openAt dir a) = .ok (-1, openAt dir mmNaddr, none) := by
  have hblocks := zero_blocks hload
  obtain ⟨hfits, -⟩ := next_zero hload
  have hstart : a ≠ mmNaddr := by
    unfold mmNaddr
    omega
  have hname : cstringAt m (a + offName) = [] :=
    cstringAt_eq (l := []) (fun _ hc => absurd hc List.not_mem_nil) (show Loaded m a ([] ++ 0 :: List.replicate 1023 0) from hload)
  have hustar : tarIsUstar m a = false := by
    have hmagic : m (a + offMagic) = 0 := hblocks offMagic (by decide)
    simp [tarIsUstar, ustar, strncmpAt, hmagic]
  have htype : tarType m a false = tarFile := by
    have hnone : ∀ i < 100, m (a + offName + i) ≠ 0x2F := fun i hi => by
      rw [show m (a + offName + i) = 0 from hblocks i (by omega)]
      decide
    rw [tarType, if_neg (by decide), if_neg]
    rw [List.any_eq_true]
    rintro ⟨i, hi, hslash⟩
    exact hnone i (List.mem_range.mp hi) (of_decide_eq_true hslash).1
  have hsize : tarOct2u32 m (a + offSize) 12 = 0 := by
    have hfield := hload.field (k := offSize) (n := 12) (by decide +kernel)
    have hzeros : loadBytes m (a + offSize) 12 = List.replicate 12 0 := by
      rw [hfield]
      decide +kernel
    exact tarOct2u32_eq ⟨[], fun d hd => absurd hd List.not_mem_nil, rfl, 11, hzeros⟩
  have hnext : nextHeader m false a = a + tarSize := by
    have hblock : tarSize * (1 + (mmAlignUp 0 512 / 512).toNat) = tarSize := by decide
    have hlt : tarSize < 1024 := by decide
    rw [nextHeader, htype, if_pos rfl]
    dsimp only
    rw [hsize, hblock, u32_of_lt (by omega)]
  have hcheck := checkPathMatch_eq_zero (m := m) (a := a + offName) h.nonzero h.length
  have hrounds : allRounds = 16777215 + 1 := rfl
  rw [hname] at hcheck
  rw [vfsReaddir_opened h m a hstart, hustar, hrounds, readdirLoop]
  by_cases hroot : dir.path = []
  · have hmatch : PathMatch dir.path [] := by
      rw [hroot]
      decide
    rw [if_pos hroot, if_neg (not_not_intro (hcheck.mpr hmatch))]
    have hroot' : (openAt dir a).path = [] := hroot
    refine ⟨(fillEntry m false (openAt dir a) a).2.1, ?_⟩
    dsimp only [Except.map]
    rw [fillEntry, htype, if_pos rfl, hroot', if_neg (not_not_intro rfl), Nat.add_zero, hname]
    dsimp only
    split
    · split <;> rfl
    · rfl
  · have hmiss : ¬PathMatch dir.path [] := fun hmatch => hroot (List.prefix_nil.mp hmatch.1)
    have hzero : m (a + tarSize + offName) = 0 := hblocks tarSize (by decide)
    rw [if_neg hroot, if_pos fun h => hmiss (hcheck.mp h), hnext, if_pos hzero]
    rfl

theorem Lists.of_readdir {dir' : VfsDir} {l : List VfsDirent} (h : vfsReaddir m dir = vfsReaddir m dir')
    (hl : Lists m dir' l) : Lists m dir l := by
  cases hl with
  | ended hr hread => exact .ended hr (h.trans hread)
  | entry hread hrest => exact .entry (h.trans hread) hrest

theorem Lists.unique {l l' : List VfsDirent} (h : Lists m dir l) (h' : Lists m dir l') : l = l' := by
  induction h generalizing l' with
  | ended hr hread =>
    cases h' with
    | ended => rfl
    | entry hread' =>
      rw [hread] at hread'
      cases hread'
      exact absurd rfl hr
  | entry hread _ ih =>
    cases h' with
    | ended hr' hread' =>
      rw [hread] at hread'
      cases hread'
      exact absurd rfl hr'
    | entry hread' hrest' =>
      rw [hread] at hread'
      cases hread'
      rw [ih hrest']

theorem lists_ended (h : Opened dir) : Lists m (openAt dir mmNaddr) [] := by
  have hflag : (openAt dir mmNaddr).flags &&& vfsFlgDir ≠ 0 := h.flag
  have hread : vfsReaddir m (openAt dir mmNaddr) = .ok (-1, openAt dir mmNaddr, none) := by
    rw [vfsReaddir, if_pos hflag, initramfsReaddir, if_pos (show (openAt dir mmNaddr).devPriv = mmNaddr from rfl)]
    rfl
  exact .ended (by decide) hread

theorem readdir_skip (h : Opened dir) (hnamed : ∀ x ∈ e :: entries, x.Named) (hload : Loaded m a (archive (e :: entries)))
    (hne : entries ≠ []) (hmiss : ¬PathMatch dir.path e.shown) :
    vfsReaddir m (openAt dir a) = vfsReaddir m (openAt dir (a + e.bytes.length)) := by
  rw [readdir_archive h hnamed hload (List.cons_ne_nil _ _), seek, if_neg hmiss,
    readdir_archive h (fun x hx => hnamed x (List.mem_cons_of_mem _ hx)) hload.entry.append.2 hne]
  rfl

theorem endSeen_cons {d : List (BitVec 8)} (hne : entries ≠ []) : EndSeen d (e :: entries) ↔ EndSeen d entries := by
  cases entries with
  | nil => exact absurd rfl hne
  | cons x entries => rw [EndSeen, EndSeen, List.getLast?_cons_cons]

theorem endSeen_single {d : List (BitVec 8)} : EndSeen d [e] ↔ d ≠ [] ∨ e.IsFile ∨ ¬PathMatch d e.shown := by
  simp [EndSeen]

theorem found_cons (d : List (BitVec 8)) (e : Entry) (entries : List Entry) : found d (e :: entries) =
    if PathMatch d e.shown then ⟨e.shown.drop (dirPrefix d).length, e.dtype⟩ :: found d entries else found d entries := by
  unfold found
  by_cases hmatch : PathMatch d e.shown
  · rw [if_pos hmatch, List.filter_cons_of_pos (by simpa using hmatch), List.map_cons]
  · rw [if_neg hmatch, List.filter_cons_of_neg (by simpa using hmatch)]

theorem readdir_match (h : Opened dir) (hnamed : ∀ x ∈ e :: entries, x.Named) (hload : Loaded m a (archive (e :: entries)))
    (hmatch : PathMatch dir.path e.shown) :
    vfsReaddir m (openAt dir a) = .ok (fillEntry m true (openAt dir a) a) := by
  rw [readdir_archive h hnamed hload (List.cons_ne_nil _ _), seek, if_pos hmatch]

/-- The calls yield every match, and no other entry if the end of the archive is seen. -/
theorem lists_found (h : Opened dir) (hnamed : ∀ x ∈ entries, x.Named) (hload : Loaded m a (archive entries))
    (hend : EndSeen dir.path entries) : Lists m (openAt dir a) (found dir.path entries) := by
  induction entries generalizing a with
  | nil =>
    have hpath : dir.path ≠ [] := by
      rcases hend with hpath | ⟨e, he, -⟩
      · exact hpath
      · cases he
    have hread := readdir_end h hload
    rw [if_neg hpath] at hread
    exact .ended (by decide) hread
  | cons e entries ih =>
    have he := hnamed e (List.mem_cons_self ..)
    have hrest : ∀ x ∈ entries, x.Named := fun x hx => hnamed x (List.mem_cons_of_mem _ hx)
    have hbehind := hload.entry.append.2
    rw [found_cons]
    by_cases hmatch : PathMatch dir.path e.shown
    · rw [if_pos hmatch]
      have hread := readdir_match h hnamed hload hmatch
      by_cases hlast : e.IsFile ∧ entries = []
      · obtain ⟨hfile, rfl⟩ := hlast
        rw [fillEntry_last he hload hmatch hfile] at hread
        exact .entry hread (lists_ended h)
      · rw [fillEntry_next he hload hmatch fun hfile hnil => hlast ⟨hfile, hnil⟩] at hread
        refine .entry hread (ih hrest hbehind ?_)
        by_cases hnil : entries = []
        · subst hnil
          have hdir : ¬e.IsFile := fun hfile => hlast ⟨hfile, rfl⟩
          exact .inl ((endSeen_single.mp hend).resolve_right fun hor => hor.elim hdir fun hmiss => hmiss hmatch)
        · exact (endSeen_cons hnil).mp hend
    · rw [if_neg hmatch]
      by_cases hnil : entries = []
      · subst hnil
        have hread := readdir_archive h hnamed hload (List.cons_ne_nil _ _)
        rw [seek, if_neg hmatch] at hread
        exact .ended (by decide) hread
      · exact (ih hrest hbehind ((endSeen_cons hnil).mp hend)).of_readdir (readdir_skip h hnamed hload hnil hmatch)

theorem lists_unnamed (h : Opened dir) (hnamed : ∀ x ∈ entries, x.Named) (hload : Loaded m a (archive entries))
    (hend : ¬EndSeen dir.path entries) {l : List VfsDirent} (hl : Lists m (openAt dir a) l) :
    (⟨[], vfsDtReg⟩ : VfsDirent) ∈ l := by
  induction entries generalizing a l with
  | nil =>
    have hpath : dir.path = [] := not_not.mp fun hpath => hend (.inl hpath)
    have hread := readdir_end h hload
    rw [if_pos hpath] at hread
    obtain ⟨dir', hread⟩ := hread
    cases hl with
    | ended hr hread' =>
      rw [hread] at hread'
      cases hread'
      exact absurd rfl hr
    | entry hread' =>
      rw [hread] at hread'
      cases hread'
      exact List.mem_cons_self ..
  | cons e entries ih =>
    have he := hnamed e (List.mem_cons_self ..)
    have hrest : ∀ x ∈ entries, x.Named := fun x hx => hnamed x (List.mem_cons_of_mem _ hx)
    have hbehind := hload.entry.append.2
    have hend' : ¬EndSeen dir.path entries := fun hseen => by
      by_cases hnil : entries = []
      · subst hnil
        rcases hseen with hpath | ⟨x, hx, -⟩
        · exact hend (.inl hpath)
        · cases hx
      · exact hend ((endSeen_cons hnil).mpr hseen)
    by_cases hmatch : PathMatch dir.path e.shown
    · have hnext : e.IsFile → entries ≠ [] := by
        rintro hfile rfl
        exact hend (endSeen_single.mpr (.inr (.inl hfile)))
      have hread := readdir_match h hnamed hload hmatch
      rw [fillEntry_next he hload hmatch hnext] at hread
      cases hl with
      | ended hr hread' =>
        rw [hread] at hread'
        cases hread'
        exact absurd rfl hr
      | entry hread' hl' =>
        rw [hread] at hread'
        cases hread'
        exact List.mem_cons_of_mem _ (ih hrest hbehind hend' hl')
    · have hnil : entries ≠ [] := by
        rintro rfl
        exact hend (endSeen_single.mpr (.inr (.inr hmatch)))
      exact ih hrest hbehind hend' (hl.of_readdir (readdir_skip h hnamed hload hnil hmatch).symm)

end Iteration

end YggKernel.Dev
