import YggKernel.Dev.Archive

namespace YggKernel.Dev

open Lib.ByteMemory

section Reading

structure ReadCall where
  data : Nat
  len : Nat

def readAll : List ReadCall → OpenFile → List (Int × List (BitVec 8))
  | [], _ => []
  | c :: cs, s =>
    let r := initramfsRead c.data c.len s
    (r.1, loadBytes r.2.mem c.data r.1.toNat) :: readAll cs r.2

def Buffered (base total : Nat) : Nat → List ReadCall → Prop
  | _, [] => True
  | left, c :: cs =>
    (c.data + min c.len left ≤ base ∨ base + total ≤ c.data) ∧ c.data + min c.len left ≤ 4294967296 ∧
      Buffered base total (left - min c.len left) cs

def slices : List (BitVec 8) → List Nat → List (List (BitVec 8))
  | _, [] => []
  | l, n :: ns => l.take n :: slices (l.drop n) ns

/-- The results of reads of the given lengths: slices of the contents one behind the other, each as
long as requested or as what is left, which make up the contents and are empty from then on. -/
structure Reads (contents : List (BitVec 8)) (lens : List Nat) (results : List (Int × List (BitVec 8))) : Prop where
  sliced : results = (slices contents lens).map fun l => ((l.length : Int), l)
  whole : (results.map Prod.snd).flatten = contents.take lens.sum
  ended : ∀ k, contents.length ≤ (lens.take k).sum → ∀ r ∈ results.drop k, r = (0, [])

theorem flatten_slices (l : List (BitVec 8)) (ns : List Nat) : (slices l ns).flatten = l.take ns.sum := by
  induction ns generalizing l with
  | nil => rfl
  | cons n ns ih => rw [slices, List.flatten_cons, ih, List.sum_cons, List.take_add]

theorem drop_slices (l : List (BitVec 8)) (ns : List Nat) (k : Nat) :
    (slices l ns).drop k = slices (l.drop (ns.take k).sum) (ns.drop k) := by
  induction k generalizing l ns with
  | zero => rfl
  | succ k ih =>
    cases ns with
    | nil => rfl
    | cons n ns => rw [slices, List.drop_succ_cons, ih, List.take_succ_cons, List.sum_cons, List.drop_succ_cons,
        List.drop_drop]

theorem slices_nil {r : List (BitVec 8)} {ns : List Nat} (h : r ∈ slices [] ns) : r = [] := by
  induction ns with
  | nil => cases h
  | cons n ns ih =>
    rw [slices, List.take_nil, List.drop_nil] at h
    rcases List.mem_cons.mp h with rfl | h
    · rfl
    · exact ih h

theorem reads_slices (l : List (BitVec 8)) (ns : List Nat) :
    Reads l ns ((slices l ns).map fun l => ((l.length : Int), l)) := by
  refine ⟨rfl, ?_, fun k hk r hr => ?_⟩
  · rw [List.map_map]
    exact (congrArg List.flatten (List.map_id _)).trans (flatten_slices l ns)
  · rw [← List.map_drop, drop_slices, List.drop_of_length_le hk] at hr
    obtain ⟨r', hr', rfl⟩ := List.mem_map.mp hr
    rw [slices_nil hr']
    rfl

structure AtRest (base total : Nat) (left : List (BitVec 8)) (s : OpenFile) : Prop where
  loaded : Loaded s.mem s.pos0 left
  pos1 : s.pos1 = left.length
  low : base ≤ s.pos0
  high : s.pos0 + left.length + 1024 ≤ base + total

variable {base total : Nat} {left : List (BitVec 8)} {s : OpenFile}

theorem initramfsRead_slice (h : AtRest base total left s) (hfits : base + total ≤ 4294967296) {data len : Nat}
    (hbuf : data + min len left.length ≤ base ∨ base + total ≤ data) (hdata : data + min len left.length ≤ 4294967296) :
    (initramfsRead data len s).1 = ((left.take len).length : Int) ∧
      loadBytes (initramfsRead data len s).2.mem data (left.take len).length = left.take len ∧
      AtRest base total (left.drop len) (initramfsRead data len s).2 := by
  have hlow := h.low
  have hhigh := h.high
  have hlen : (if len > s.pos1 then s.pos1 else len) = min len left.length := by
    rw [h.pos1]
    split <;> omega
  have htake : (left.take len).length = min len left.length := List.length_take
  unfold initramfsRead
  dsimp only
  rw [hlen, htake, u32_of_lt (by omega)]
  have hbytes := h.loaded.bytes
  have hsplit : left = left.take len ++ left.drop len := (List.take_append_drop len left).symm
  have hboth := h.loaded
  rw [hsplit] at hboth
  obtain ⟨hfirst, hrest⟩ := hboth.append
  rw [htake] at hrest
  refine ⟨?_, ?_, ?_, ?_, ?_, ?_⟩
  · rw [BitVec.toInt_eq_toNat_of_lt]
    · rw [BitVec.toNat_ofNat, Nat.mod_eq_of_lt (by omega)]
    · rw [BitVec.toNat_ofNat, Nat.mod_eq_of_lt (by omega)]
      omega
  · have hapart : data + min len left.length ≤ s.pos0 ∨ s.pos0 + min len left.length ≤ data := by omega
    rw [memcpy, loadBytes_copyUp hapart, ← htake]
    exact hfirst.bytes
  · refine ⟨?_, hrest.fits⟩
    have hsame : loadBytes (memcpy s.mem data s.pos0 (min len left.length)) (s.pos0 + min len left.length)
        (left.drop len).length = loadBytes s.mem (s.pos0 + min len left.length) (left.drop len).length := by
      refine loadBytes_congr fun x h1 h2 => copyUp_apply_of_outside ?_
      rw [List.length_drop] at h2
      omega
    rw [hsame]
    exact hrest.bytes
  · rw [h.pos1, List.length_drop]
    dsimp only
    omega
  · dsimp only
    omega
  · rw [List.length_drop]
    dsimp only
    omega

theorem readAll_slices (hfits : base + total ≤ 4294967296) {calls : List ReadCall} (h : AtRest base total left s)
    (hbuf : Buffered base total left.length calls) :
    readAll calls s = (slices left (calls.map ReadCall.len)).map fun l => ((l.length : Int), l) := by
  induction calls generalizing left s with
  | nil => rfl
  | cons c calls ih =>
    obtain ⟨hapart, hdata, hrest⟩ := hbuf
    obtain ⟨hret, hbytes, hnext⟩ := initramfsRead_slice h hfits hapart hdata
    have hleft : left.length - min c.len left.length = (left.drop c.len).length := by
      rw [List.length_drop]
      omega
    rw [hleft] at hrest
    rw [readAll, List.map_cons, slices, List.map_cons, ← ih hnext hrest]
    rw [hret, Int.toNat_natCast, hbytes]

end Reading

section Initramfs

variable {s : OpenFile} {base : Nat} {entries : List Entry}

theorem find_archive (hload : Loaded s.mem base (archive entries)) (name : FileName) :
    initrdFindFile s.mem base name.chars = .ok (entryAt name base entries) := by
  have hfits := hload.fits
  have hlong := length_archive entries
  refine findLoop_archive hload name ?_
  unfold allRounds
  omega

theorem initramfsOpen_none (hload : Loaded s.mem base (archive entries)) {name : FileName}
    (h : firstFile entries name = none) : initramfsOpen base name.chars s = .ok (-1, s) := by
  unfold initramfsOpen
  rw [find_archive hload, entryAt_none h]
  rfl

theorem initramfsOpen_some (hload : Loaded s.mem base (archive entries)) {name : FileName} {e : Entry}
    (h : firstFile entries name = some e) :
    ∃ t, initramfsOpen base name.chars s = .ok (0, t) ∧ AtRest base (archive entries).length e.contents t := by
  obtain ⟨hfile, rest, hentry, hlow, hhigh⟩ := entryAt_some h hload
  have hfits := hload.fits
  have hlength : tarSize + e.contents.length ≤ e.bytes.length := by
    rw [Entry.bytes, List.length_append, List.length_append, e.block]
    omega
  have hpos : 0 < tarSize := by decide
  have hsmall := e.small
  have hfound : entryAt name base entries ≠ mmNaddr := by
    unfold mmNaddr
    omega
  refine ⟨⟨s.mem, entryAt name base entries + tarSize, e.contents.length⟩, ?_, ?_, rfl, ?_, ?_⟩
  · unfold initramfsOpen
    rw [find_archive hload]
    dsimp only [bind, Except.bind, pure, Except.pure]
    rw [if_neg hfound, tarOct2u32_entry (Entry.loaded_header hentry) hfile, u32_of_lt (by omega), BitVec.toNat_ofNat,
      Nat.mod_eq_of_lt (by omega)]
  · exact Entry.loaded_contents hentry
  · dsimp only
    omega
  · dsimp only
    omega

theorem firstFile_isSome (name : FileName) :
    (∃ e, firstFile entries name = some e) ↔ ∃ e ∈ entries, e.IsFile ∧ e.name = name.chars := by
  rw [← Option.isSome_iff_exists, firstFile, List.find?_isSome]
  simp

/-- The files of an archive in memory are what can be opened, and reads return their contents. -/
theorem initramfs_shows_files (s : OpenFile) (base : Nat) (entries : List Entry)
    (hload : Loaded s.mem base (archive entries)) (name : FileName) :
    ((∃ t, initramfsOpen base name.chars s = .ok (0, t)) ↔ ∃ e ∈ entries, e.IsFile ∧ e.name = name.chars) ∧
      (firstFile entries name = none → initramfsOpen base name.chars s = .ok (-1, s)) ∧
      ∀ e, firstFile entries name = some e → ∃ t, initramfsOpen base name.chars s = .ok (0, t) ∧
        ∀ calls : List ReadCall, Buffered base (archive entries).length e.contents.length calls →
          Reads e.contents (calls.map ReadCall.len) (readAll calls t) := by
  refine ⟨?_, initramfsOpen_none hload, fun e he => ?_⟩
  · rw [← firstFile_isSome]
    constructor
    · rintro ⟨t, ht⟩
      refine Option.ne_none_iff_exists'.mp fun hnone => ?_
      rw [initramfsOpen_none hload hnone] at ht
      cases ht
    · rintro ⟨e, he⟩
      obtain ⟨t, ht, -⟩ := initramfsOpen_some hload he
      exact ⟨t, ht⟩
  · obtain ⟨t, ht, hrest⟩ := initramfsOpen_some hload he
    refine ⟨t, ht, fun calls hbuf => ?_⟩
    rw [readAll_slices hload.fits hrest hbuf]
    exact reads_slices _ _

end Initramfs

section Greeting

def memoryOf (a : Nat) (l : List (BitVec 8)) : Mem := fun x => l.getD (x - a) 0

theorem loaded_memoryOf {a : Nat} {l : List (BitVec 8)} (h : a + l.length ≤ 4294967296) : Loaded (memoryOf a l) a l := by
  refine ⟨List.ext_getElem (length_loadBytes ..) fun i h1 h2 => ?_, h⟩
  have hget := getD_loadBytes (memoryOf a l) a h2
  rw [List.getD_eq_getElem _ _ h1, memoryOf, Nat.add_sub_cancel_left, List.getD_eq_getElem _ _ h2] at hget
  exact hget

def greeting : Entry where
  header := [0x61] ++ List.replicate 123 0 ++ ([0x33] ++ List.replicate 11 0) ++ List.replicate 20 0 ++ [0x30] ++
    List.replicate 100 0 ++ ustar ++ List.replicate 250 0
  contents := [0x68, 0x69, 0x21]
  padding := List.replicate 509 0
  block := by decide +kernel
  named := by decide +kernel
  magic := by decide +kernel
  typed := by decide +kernel
  sized := fun _ => ⟨[3], by decide, rfl, 10, by decide +kernel⟩
  directory := fun h => absurd h (by decide +kernel)
  small := by decide
  padded := by decide +kernel

def greetingName : FileName := ⟨[0x61], by decide, by decide⟩

def greetingStart : OpenFile := ⟨memoryOf 0x100000 (archive [greeting]), 0, 0⟩

theorem length_greeting : (archive [greeting]).length = 2048 := by decide +kernel

theorem loaded_greeting : Loaded greetingStart.mem 0x100000 (archive [greeting]) := by
  have hfits : 0x100000 + (archive [greeting]).length ≤ 4294967296 := by
    rw [length_greeting]
    decide
  have hmem : greetingStart.mem = memoryOf 0x100000 (archive [greeting]) := by rw [greetingStart]
  rw [hmem]
  exact loaded_memoryOf hfits

theorem initramfs_shows_greeting : ∃ t, initramfsOpen 0x100000 greetingName.chars greetingStart = .ok (0, t) ∧
    readAll [⟨0x1000, 2⟩, ⟨0x2000, 5⟩, ⟨0x3000, 1⟩] t = [(2, [0x68, 0x69]), (1, [0x21]), (0, [])] := by
  have hopen := (initramfs_shows_files greetingStart 0x100000 [greeting] loaded_greeting greetingName).2.2
  have hfirst : firstFile [greeting] greetingName = some greeting := by
    rw [firstFile, List.find?_cons]
    have hfound : greeting.IsFile ∧ greeting.name = greetingName.chars := by decide +kernel
    rw [decide_eq_true hfound]
  obtain ⟨t, ht, hread⟩ := hopen greeting hfirst
  have hbuf : Buffered 0x100000 (archive [greeting]).length greeting.contents.length
      [⟨0x1000, 2⟩, ⟨0x2000, 5⟩, ⟨0x3000, 1⟩] :=
    ⟨.inl (by decide +kernel), by decide +kernel, .inl (by decide +kernel), by decide +kernel, .inl (by decide +kernel),
      by decide +kernel, trivial⟩
  exact ⟨t, ht, (hread _ hbuf).sliced⟩

end Greeting

end YggKernel.Dev
