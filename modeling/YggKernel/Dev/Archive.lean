import YggKernel.Dev.Initrd
import YggKernel.Lib.Masks

namespace YggKernel.Dev

open Lib.ByteMemory Strings

/-- A name as it may stand in a header: it is terminated unless it fills its field. -/
structure FileName where
  chars : List (BitVec 8)
  nonzero : ∀ c ∈ chars, c ≠ 0
  short : chars.length ≤ 100

def octalValue (digits : List Nat) : Nat := digits.foldl (fun r d => 8 * r + d) 0

def OctalField (field : List (BitVec 8)) (n : Nat) : Prop :=
  ∃ digits : List Nat, (∀ d ∈ digits, d < 8) ∧ octalValue digits = n ∧
    ∃ k, field = digits.map (fun d => BitVec.ofNat 8 (48 + d)) ++ List.replicate (k + 1) 0

structure Entry where
  header : List (BitVec 8)
  contents : List (BitVec 8)
  padding : List (BitVec 8)
  block : header.length = tarSize
  named : header.getD offName 0 ≠ 0
  magic : (header.drop offMagic).take 5 = ustar
  typed : header.getD offTypeflag 0 ∈ [0x30#8, 0x00#8, 0x35#8]
  sized : header.getD offTypeflag 0 ≠ 0x35 → OctalField ((header.drop offSize).take 12) contents.length
  directory : header.getD offTypeflag 0 = 0x35 → contents = []
  small : contents.length < 2 ^ 32 - 512
  padded : padding.length < 512 ∧ (contents.length + padding.length) % 512 = 0

def Entry.IsFile (e : Entry) : Prop := e.header.getD offTypeflag 0 ≠ 0x35

instance (e : Entry) : Decidable e.IsFile := inferInstanceAs (Decidable (_ ≠ _))

def Entry.name (e : Entry) : List (BitVec 8) := ((e.header.drop offName).take 100).takeWhile (· ≠ 0)

def Entry.bytes (e : Entry) : List (BitVec 8) := e.header ++ e.contents ++ e.padding

def archive (entries : List Entry) : List (BitVec 8) := entries.flatMap Entry.bytes ++ List.replicate 1024 0

structure Loaded (m : Mem) (a : Nat) (l : List (BitVec 8)) : Prop where
  bytes : loadBytes m a l.length = l
  fits : a + l.length ≤ 4294967296

def firstFile (entries : List Entry) (name : FileName) : Option Entry :=
  entries.find? fun e => e.IsFile ∧ e.name = name.chars

section Fields

variable {m : Mem} {a : Nat} {l l' : List (BitVec 8)}

theorem Loaded.append (h : Loaded m a (l ++ l')) : Loaded m a l ∧ Loaded m (a + l.length) l' := by
  have hbytes := h.bytes
  have hfits := h.fits
  rw [List.length_append, loadBytes_add] at hbytes
  obtain ⟨hl, hl'⟩ := List.append_inj hbytes (length_loadBytes ..)
  rw [List.length_append] at hfits
  exact ⟨⟨hl, by omega⟩, hl', by omega⟩

theorem Loaded.getD (h : Loaded m a l) {i : Nat} (hi : i < l.length) : m (a + i) = l.getD i 0 := by
  rw [← getD_loadBytes m a hi, h.bytes]

theorem Loaded.field (h : Loaded m a l) {k n : Nat} (hk : k + n ≤ l.length) :
    loadBytes m (a + k) n = (l.drop k).take n := by
  rw [← drop_take_loadBytes m a hk, h.bytes]

theorem octRound_digit (r : Nat) {d : Nat} (hd : d < 8) :
    octRound (BitVec.ofNat 32 r) (BitVec.ofNat 8 (48 + d)) = BitVec.ofNat 32 (8 * r + d) := by
  have hdigit : BitVec.ofNat 8 (48 + d) ≠ 0 ∧ (BitVec.ofNat 8 (48 + d)).signExtend 32 - 48 = BitVec.ofNat 32 d := by
    revert d
    decide
  have hor : 8 * r + d = (r <<< 3) ||| d := by
    rw [← Nat.shiftLeft_add_eq_or_of_lt (by omega : d < 2 ^ 3), Nat.shiftLeft_eq]
    omega
  rw [octRound, if_neg hdigit.1, hdigit.2, hor, BitVec.ofNat_or]
  congr 1
  apply BitVec.eq_of_toNat_eq
  simp [Nat.shiftLeft_eq]

theorem foldl_octRound_digits (digits : List Nat) (hd : ∀ d ∈ digits, d < 8) (r : Nat) :
    (digits.map fun d => BitVec.ofNat 8 (48 + d)).foldl octRound (BitVec.ofNat 32 r) =
      BitVec.ofNat 32 (digits.foldl (fun r d => 8 * r + d) r) := by
  induction digits generalizing r with
  | nil => rfl
  | cons d digits ih =>
    rw [List.map_cons, List.foldl_cons, octRound_digit r (hd d (List.mem_cons_self ..)), List.foldl_cons]
    exact ih (fun x hx => hd x (List.mem_cons_of_mem _ hx)) _

theorem foldl_octRound_zeros (k : Nat) (res : BitVec 32) : (List.replicate k 0).foldl octRound res = res := by
  induction k with
  | zero => rfl
  | succ k ih => rwa [List.replicate_succ, List.foldl_cons, octRound, if_pos rfl]

theorem tarOct2u32_eq {n k : Nat} (h : OctalField (loadBytes m a k) n) : tarOct2u32 m a k = BitVec.ofNat 32 n := by
  obtain ⟨digits, hd, hvalue, j, hfield⟩ := h
  have hdigits := foldl_octRound_digits digits hd 0
  rw [tarOct2u32, hfield, List.foldl_append, foldl_octRound_zeros, ← hvalue]
  exact hdigits

theorem mmAlignUp_block {n : Nat} (h : n + 511 < 4294967296) :
    (mmAlignUp (BitVec.ofNat 32 n) 512 / 512).toNat = (n + 511) / 512 := by
  have hsum : (BitVec.ofNat 32 n + 512 - 1).toNat = n + 511 := by
    simp only [BitVec.toNat_sub, BitVec.toNat_add, BitVec.toNat_ofNat, BitVec.ofNat_eq_ofNat]
    omega
  have hmask := Lib.Masks.and_high_mask (k := 9) (by decide) h
  rw [BitVec.toNat_udiv, mmAlignUp, BitVec.toNat_and, hsum]
  have hconst : (~~~(512 - 1) : BitVec 32).toNat = 2 ^ 32 - 2 ^ 9 := by decide
  rw [hconst, hmask]
  exact Nat.mul_div_cancel _ (by decide)

end Fields

section Walk

variable {m : Mem} {a : Nat} {e : Entry} {rest : List (BitVec 8)}

theorem Entry.length_bytes (e : Entry) :
    e.bytes.length = tarSize * ((e.contents.length + 511) / 512 + 1) := by
  have hblock := e.block
  obtain ⟨hlt, hmod⟩ := e.padded
  unfold tarSize at hblock ⊢
  rw [Entry.bytes, List.length_append, List.length_append, hblock]
  omega

theorem Entry.loaded_header (h : Loaded m a (e.bytes ++ rest)) : Loaded m a e.header := by
  rw [Entry.bytes, List.append_assoc, List.append_assoc] at h
  exact h.append.1

theorem Entry.loaded_contents (h : Loaded m a (e.bytes ++ rest)) : Loaded m (a + tarSize) e.contents := by
  rw [Entry.bytes, List.append_assoc, List.append_assoc] at h
  have hbehind := h.append.2
  rw [e.block] at hbehind
  exact hbehind.append.1

theorem tarIsUstar_entry (h : Loaded m a e.header) : tarIsUstar m a = true := by
  have hfield := h.field (k := offMagic) (n := 5) (by rw [e.block]; decide)
  have hzero : strncmpAt m (a + offMagic) ustar 5 = 0 := by
    rw [strncmpAt_eq_zero (by decide) (by decide), hfield, e.magic]
    decide
  simp [tarIsUstar, hzero]

theorem tarType_entry (h : Loaded m a e.header) : tarType m a (tarIsUstar m a) = if e.IsFile then tarFile else tarDir := by
  have hflag := h.getD (i := offTypeflag) (by rw [e.block]; decide)
  have htyped := e.typed
  simp only [List.mem_cons, List.not_mem_nil, or_false] at htyped
  rw [tarIsUstar_entry h, tarType, if_pos rfl, hflag]
  rcases htyped with ht | ht | ht
  · have hfile : e.IsFile := by
      rw [Entry.IsFile, ht]
      decide
    rw [if_pos hfile, ht]
    rfl
  · have hfile : e.IsFile := by
      rw [Entry.IsFile, ht]
      decide
    rw [if_pos hfile, ht]
    rfl
  · rw [if_neg (fun hfile : e.IsFile => hfile ht), ht]
    rfl

theorem tarOct2u32_entry (h : Loaded m a e.header) (hfile : e.IsFile) :
    tarOct2u32 m (a + offSize) 12 = BitVec.ofNat 32 e.contents.length := by
  have hfield := h.field (k := offSize) (n := 12) (by rw [e.block]; decide)
  exact tarOct2u32_eq (by rw [hfield]; exact e.sized hfile)

theorem strncmpAt_entry (h : Loaded m a e.header) (name : FileName) :
    strncmpAt m (a + offName) name.chars 100 = 0 ↔ e.name = name.chars := by
  have hfield := h.field (k := offName) (n := 100) (by rw [e.block]; decide)
  rw [strncmpAt_eq_zero name.nonzero name.short, hfield]
  rfl

/-- One round of the loop moves on to the next header, unless the entry is the file. -/
theorem findLoop_entry (h : Loaded m a (e.bytes ++ rest)) (name : FileName) (n zb : Nat) :
    findLoop m name.chars (n + 1) a zb = if e.IsFile ∧ e.name = name.chars then .ok a
      else findLoop m name.chars n (u32 (a + e.bytes.length)) 0 := by
  have hheader := Entry.loaded_header h
  have hnamed : m (a + offName) ≠ 0 := by
    rw [hheader.getD (by rw [e.block]; decide)]
    exact e.named
  rw [findLoop, if_neg hnamed, tarType_entry hheader]
  by_cases hfile : e.IsFile
  · have hsmall := e.small
    rw [if_pos hfile, if_pos rfl, tarOct2u32_entry hheader hfile]
    dsimp only
    rw [mmAlignUp_block (by omega), ← e.length_bytes]
    by_cases hname : e.name = name.chars
    · rw [if_pos ((strncmpAt_entry hheader name).mpr hname), if_pos ⟨hfile, hname⟩]
    · rw [if_neg fun hzero => hname ((strncmpAt_entry hheader name).mp hzero), if_neg fun hboth => hname hboth.2]
  · have hempty : e.contents = [] := e.directory (not_not.mp hfile)
    have hlength : e.bytes.length = tarSize := by
      rw [e.length_bytes, hempty]
      rfl
    rw [if_neg hfile, if_neg (by decide), if_neg fun hboth => hfile hboth.1, hlength]

theorem findLoop_end (h : Loaded m a (List.replicate 1024 0)) (name : FileName) (n : Nat) :
    findLoop m name.chars (n + 2) a 0 = .ok mmNaddr := by
  have hfits := h.fits
  rw [List.length_replicate] at hfits
  have hzero : ∀ i < 1024, m (a + i) = 0 := fun i hi => by
    rw [h.getD (by rwa [List.length_replicate]), List.getD_eq_getElem?_getD, List.getElem?_replicate, if_pos hi]
    rfl
  have hfirst : m (a + offName) = 0 := hzero 0 (by decide)
  have hsecond : m (a + tarSize + offName) = 0 := hzero tarSize (by decide)
  rw [findLoop, if_pos hfirst, if_neg (by decide), u32_of_lt (by unfold tarSize; omega), findLoop, if_pos hsecond,
    if_pos (by decide)]

def entryAt (name : FileName) : Nat → List Entry → Nat
  | _, [] => mmNaddr
  | a, e :: rest => if e.IsFile ∧ e.name = name.chars then a else entryAt name (a + e.bytes.length) rest

theorem findLoop_archive {entries : List Entry} (h : Loaded m a (archive entries)) (name : FileName) {n : Nat}
    (hn : entries.length + 2 ≤ n) : findLoop m name.chars n a 0 = .ok (entryAt name a entries) := by
  induction entries generalizing a n with
  | nil =>
    obtain ⟨k, rfl⟩ := Nat.exists_eq_add_of_le' hn
    exact findLoop_end h name k
  | cons e entries ih =>
    obtain ⟨k, rfl⟩ := Nat.exists_eq_add_of_le' hn
    have hload : Loaded m a (e.bytes ++ archive entries) := by
      rw [archive, ← List.append_assoc, ← List.flatMap_cons]
      exact h
    have hrest := hload.append.2
    have hfits := hrest.fits
    have hpos : 0 < (archive entries).length := by
      rw [archive, List.length_append, List.length_replicate]
      omega
    rw [List.length_cons, ← Nat.add_assoc, Nat.add_right_comm, ← Nat.add_assoc, findLoop_entry hload name, entryAt,
      u32_of_lt (by omega)]
    by_cases hfound : e.IsFile ∧ e.name = name.chars
    · rw [if_pos hfound, if_pos hfound]
    · rw [if_neg hfound, if_neg hfound]
      exact ih hrest (by omega)

theorem length_archive (entries : List Entry) : 512 * entries.length + 1024 ≤ (archive entries).length := by
  induction entries with
  | nil => rw [archive, List.length_append, List.length_replicate]; rfl
  | cons e entries ih =>
    have hlength := e.length_bytes
    rw [archive, List.length_append, List.length_replicate] at ih ⊢
    rw [List.flatMap_cons, List.length_append, List.length_cons, hlength]
    unfold tarSize
    omega

theorem entryAt_none {entries : List Entry} {name : FileName} (h : firstFile entries name = none) (a : Nat) :
    entryAt name a entries = mmNaddr := by
  induction entries generalizing a with
  | nil => rfl
  | cons e entries ih =>
    rw [firstFile, List.find?_cons] at h
    by_cases hfound : e.IsFile ∧ e.name = name.chars
    · simp [hfound] at h
    · rw [entryAt, if_neg hfound]
      simp only [decide_eq_false hfound] at h
      exact ih h _

theorem entryAt_some {entries : List Entry} {name : FileName} (h : firstFile entries name = some e)
    (hload : Loaded m a (archive entries)) : e.IsFile ∧ ∃ rest, Loaded m (entryAt name a entries) (e.bytes ++ rest) ∧
      a ≤ entryAt name a entries ∧ entryAt name a entries + e.bytes.length + 1024 ≤ a + (archive entries).length := by
  induction entries generalizing a with
  | nil => cases h
  | cons d entries ih =>
    have hload' : Loaded m a (d.bytes ++ archive entries) := by
      rw [archive, ← List.append_assoc, ← List.flatMap_cons]
      exact hload
    have hlength : (archive (d :: entries)).length = d.bytes.length + (archive entries).length := by
      rw [archive, List.flatMap_cons, List.append_assoc, List.length_append]
      rfl
    rw [firstFile, List.find?_cons] at h
    by_cases hfound : d.IsFile ∧ d.name = name.chars
    · simp only [decide_eq_true hfound, Option.some.injEq] at h
      subst h
      have hlong := length_archive entries
      rw [entryAt, if_pos hfound]
      exact ⟨hfound.1, archive entries, hload', le_rfl, by omega⟩
    · simp only [decide_eq_false hfound] at h
      obtain ⟨hfile, rest, hrest, hlow, hhigh⟩ := ih h hload'.append.2
      rw [entryAt, if_neg hfound]
      exact ⟨hfile, rest, hrest, by omega, by omega⟩

end Walk

end YggKernel.Dev
