import YggKernel.Vfs.Branches
import YggKernel.Vfs.Mounting

namespace YggKernel.Vfs

section Agreement

variable {α β γ δ : Type} {R : α → β → Prop} {S : γ → δ → Prop}

/-- Two computations that go alike. One that gets to the end of the memory that is known goes like any
other. -/
inductive Agrees (R : α → β → Prop) : Res α → Res β → Prop
  | left (y : Res β) : Agrees R behind y
  | right (x : Res α) : Agrees R x behind
  | fault (f : Fault) : Agrees R (.error f) (.error f)
  | ok {a : α} {b : β} (h : R a b) : Agrees R (.ok a) (.ok b)

theorem Agrees.bind {x : Res α} {y : Res β} {f : α → Res γ} {g : β → Res δ} (h : Agrees R x y)
    (hfg : ∀ a b, R a b → Agrees S (f a) (g b)) : Agrees S (x >>= f) (y >>= g) := by
  cases h with
  | left y => exact .left _
  | right x => exact .right _
  | fault fault => exact .fault fault
  | ok h => exact hfg _ _ h

theorem Agrees.symm {R : α → α → Prop} (hR : ∀ a b, R a b → R b a) {x y : Res α} (h : Agrees R x y) : Agrees R y x := by
  cases h with
  | left y => exact .right y
  | right x => exact .left x
  | fault fault => exact .fault fault
  | ok h => exact .ok (hR _ _ h)

theorem Agrees.of_ok {a : α} {b : β} (h : Agrees R (.ok a) (.ok b)) : R a b := by
  cases h with
  | ok h => exact h

end Agreement

section Searches

variable {Fs Dev : Type}

/-- The same record of the table and the same relative part, or none in both. -/
def SameFound (r r' : Option (Record Fs Dev × Option Ptr)) : Prop :=
  r.map (fun x => (x.1.index, x.2)) = r'.map fun x => (x.1.index, x.2)

/-- What a mount point is compared with, besides those that were seen before. The root directory is
compared with nothing. -/
def along (prev : List (List (List Char))) (m : Record Fs Dev) : List (List (List Char)) :=
  if m.entry.dst = ['/'] then prev else components m.ptr :: prev

/-- For each record the components of the memory from its mount point on, up to the first that tells
it from all earlier records. -/
def branches (prev : List (List (List Char))) : List (Record Fs Dev) → List (Option (List (List Char)))
  | [] => []
  | m :: l => (if m.entry.dst = ['/'] then none else branch prev (components m.ptr)) :: branches (along prev m) l

end Searches

section Records

variable {Fs Dev : Type} {mem : Memory Fs Dev} {slots l rest : List (Entry Fs Dev)} {e x : Entry Fs Dev} {i : Nat}

theorem records_cons (he : e.dst ≠ []) :
    mem.records i (e :: rest) = ⟨i, e, mem.dst e rest⟩ :: mem.records (i + 1) rest := by
  rw [Memory.records, if_pos (used_iff.mpr he)]

theorem records_entries : (mem.records i slots).map Record.entry = mounted slots := by
  induction slots generalizing i with
  | nil => rfl
  | cons e slots ih =>
    rw [Memory.records, mounted]
    cases hused : e.used with
    | true => rw [if_pos rfl, List.map_cons, ih, List.takeWhile_cons_of_pos hused, mounted]
    | false =>
      rw [if_neg Bool.false_ne_true, List.takeWhile_cons_of_neg (by rw [hused]; exact Bool.false_ne_true)]
      rfl

theorem records_index {j : Nat} {m : Record Fs Dev} (h : (mem.records i slots)[j]? = some m) : m.index = i + j := by
  induction slots generalizing i j with
  | nil => cases h
  | cons e slots ih =>
    rw [Memory.records] at h
    cases hused : e.used with
    | true =>
      rw [hused, if_pos rfl] at h
      cases j with
      | zero => rw [← Option.some.inj h]; rfl
      | succ j =>
        rw [List.getElem?_cons_succ] at h
        rw [ih h]
        omega
    | false =>
      rw [hused, if_neg Bool.false_ne_true] at h
      cases h

theorem records_ptr {m : Record Fs Dev} (h : m ∈ mem.records i slots) :
    ∃ rest, m.ptr = mem.dst m.entry rest ∧ rest <:+ slots ∧ m.entry ∈ slots := by
  induction slots generalizing i with
  | nil => cases h
  | cons e slots ih =>
    rw [Memory.records] at h
    cases hused : e.used with
    | true =>
      rw [hused, if_pos rfl] at h
      rcases List.mem_cons.mp h with rfl | h
      · exact ⟨slots, rfl, List.suffix_cons e slots, List.mem_cons_self ..⟩
      · obtain ⟨rest, hptr, hsuffix, hmem⟩ := ih h
        exact ⟨rest, hptr, hsuffix.trans (List.suffix_cons e slots), List.mem_cons_of_mem _ hmem⟩
    | false =>
      rw [hused, if_neg Bool.false_ne_true] at h
      cases h

theorem length_word (n : Nat) : (word n).length = 4 := rfl

theorem length_array {t : List Char} (h : t.length < pathSize) : (array t).length = pathSize := by
  unfold array
  rw [List.length_append, List.length_replicate]
  omega

theorem length_bytes (h : Fits e) : (mem.bytes e).length = 528 := by
  unfold Memory.bytes
  rw [List.length_append, List.length_append, List.length_append, List.length_append, List.length_append, length_word,
    length_word, length_word, length_word, length_array h.source, length_array h.target]
  rfl

theorem length_dst (he : Fits e) (hrest : ∀ m ∈ rest, Fits m) :
    (mem.dst e rest).length = 261 + 528 * rest.length + mem.beyond.length := by
  have hbytes : (rest.flatMap mem.bytes).length = 528 * rest.length := by
    rw [List.length_flatMap, List.map_congr_left fun m hm => length_bytes (hrest m hm), List.map_const', List.sum_replicate,
      Nat.mul_comm]
    rfl
  unfold Memory.dst
  rw [List.length_append, List.length_append, List.length_append, List.length_append, length_array he.target, length_word,
    hbytes,
    List.length_singleton]
  have hsize : pathSize = 256 := rfl
  omega

def reach : Nat := 0x40004000

structure Standing (l : List (Record Fs Dev)) : Prop where
  holds : ∀ m ∈ l, Holds m.ptr m.entry.dst
  index : ∀ (j : Nat) (m : Record Fs Dev), l[j]? = some m → m.index = j
  least : ∀ m ∈ l, 261 ≤ m.ptr.length
  most : ∀ m ∈ l, m.ptr.length < reach

theorem records_standing (hw : WellFormed slots) : Standing (mem.records 0 slots) := by
  have hptr : ∀ m ∈ mem.records 0 slots, ∃ rest, m.ptr = mem.dst m.entry rest ∧ Fits m.entry ∧ (∀ e ∈ rest, Fits e) ∧
    rest.length ≤ 16 := by
    intro m hm
    obtain ⟨rest, hptr, hsuffix, hmem⟩ := records_ptr hm
    exact ⟨rest, hptr, hw.fits _ hmem, fun e he => hw.fits e (hsuffix.subset he), hw.size ▸ hsuffix.length_le⟩
  refine ⟨fun m hm => ?_, fun j m hj => (records_index hj).trans (Nat.zero_add j), fun m hm => ?_, fun m hm => ?_⟩
  · obtain ⟨rest, hptr, hfits, _, _⟩ := hptr m hm
    rw [hptr]
    exact dst_holds hfits
  · obtain ⟨rest, hptr, hfits, hrest, _⟩ := hptr m hm
    rw [hptr, length_dst hfits hrest]
    omega
  · obtain ⟨rest, hptr, hfits, hrest, hsize⟩ := hptr m hm
    have hsmall := mem.small
    rw [hptr, length_dst hfits hrest]
    unfold reach
    omega

end Records

section Alongside

variable {Fs Dev : Type} {mem : Memory Fs Dev} {l rest : List (Entry Fs Dev)} {e x x' : Entry Fs Dev} {i best best' : Nat}
variable {m m' : Record Fs Dev} {s s' : LookupState (Record Fs Dev)} {p : Ptr} {d : List Char}
variable {prev prev' : List (List (List Char))}

theorem components_ne_nil (h : 2 ≤ p.length) : components p ≠ [] := by
  intro hnil
  have hextent := (extent_components p).1
  rw [hnil] at hextent
  have hzero : extent [] = 0 := rfl
  omega

def front (e : Entry Fs Dev) : List (List Char) := components (buffered (array e.dst ++ word e.fsPriv))

theorem two_le_front (he : Fits e) (hne : e.dst ≠ []) : 2 ≤ (front e).length := by
  have harray : array e.dst ++ word e.fsPriv =
      e.dst ++ '\x00' :: (List.replicate (pathSize - 1 - e.dst.length) '\x00' ++ word e.fsPriv) := by
    have htarget := he.target
    have hsize : pathSize - e.dst.length = (pathSize - 1 - e.dst.length) + 1 := by omega
    unfold array
    rw [hsize, List.replicate_succ, List.append_assoc, List.cons_append]
  have hfirst : components (buffered e.dst) ≠ [] := components_ne_nil (by
    unfold buffered
    rw [List.length_append, List.length_singleton]
    exact Nat.succ_le_succ (List.length_pos_of_ne_nil hne))
  have hsecond : pieces (buffered (List.replicate (pathSize - 1 - e.dst.length) '\x00' ++ word e.fsPriv)) ≠ [] :=
    pieces_ne_nil (List.append_ne_nil_of_right_ne_nil _ (List.cons_ne_nil _ _))
  have hsplit : front e = components (buffered e.dst) ++
      pieces (buffered (List.replicate (pathSize - 1 - e.dst.length) '\x00' ++ word e.fsPriv)) := by
    unfold front
    rw [← components_append hne, harray]
    unfold buffered
    rw [List.append_assoc, List.cons_append]
  rw [hsplit, List.length_append]
  have := List.length_pos_of_ne_nil hfirst
  have := List.length_pos_of_ne_nil hsecond
  omega

/-- The records behind do not change the components up to the end of a record, which more come behind. -/
theorem components_dst (e x : Entry Fs Dev) (rest : List (Entry Fs Dev)) :
    ∃ u, u ≠ [] ∧ components (mem.dst e (x :: rest)) = front e ++ u := by
  obtain ⟨v, hv⟩ : ∃ v, mem.bytes x = '\x00' :: v := ⟨_, rfl⟩
  have hdst : mem.dst e (x :: rest) =
      array e.dst ++ word e.fsPriv ++ '\x00' :: (v ++ rest.flatMap mem.bytes ++ mem.beyond ++ ['\x00']) := by
    unfold Memory.dst
    rw [List.flatMap_cons, hv]
    simp only [List.append_assoc, List.cons_append]
  have hword : word e.fsPriv ≠ [] := List.cons_ne_nil _ _
  refine ⟨pieces (v ++ rest.flatMap mem.bytes ++ mem.beyond ++ ['\x00']),
    pieces_ne_nil (List.append_ne_nil_of_right_ne_nil _ (List.cons_ne_nil _ _)), ?_⟩
  rw [hdst, components_append (List.append_ne_nil_of_right_ne_nil _ hword)]
  rfl

theorem components_dst_append (e x : Entry Fs Dev) (l rest : List (Entry Fs Dev)) :
    ∃ u, u ≠ [] ∧ components (mem.dst e (l ++ x :: rest)) = front e ++ u := by
  cases l with
  | nil => exact components_dst e x rest
  | cons y l => exact components_dst e y (l ++ x :: rest)

structure Alike (best best' : Nat) (s s' : LookupState (Record Fs Dev)) : Prop where
  left : Counted best s
  right : Counted best' s'
  zero : best = 0 ↔ best' = 0
  root : s.ismatchs = s'.ismatchs
  found : SameFound s.found s'.found

theorem Counted.lmatch_eq_zero (h : Counted best s) : s.lmatch = 0 ↔ best = 0 ∧ s.ismatchs = false := by
  cases hs : s.ismatchs with
  | true =>
    obtain ⟨hmatch, _⟩ := h.root hs
    rw [hmatch]
    exact ⟨fun h => absurd h Nat.one_ne_zero, fun h => Bool.noConfusion h.2⟩
  | false =>
    rw [h.other hs]
    exact ⟨fun h => ⟨h, rfl⟩, And.left⟩

theorem Alike.none (h : Alike best best' s s') : s.lmatch = 0 ↔ s'.lmatch = 0 := by
  rw [h.left.lmatch_eq_zero, h.right.lmatch_eq_zero, h.zero, h.root]

/-- Where two mount points have their first two components in common, the relative part is the same. -/
theorem relSearch_front {c c' : Nat} {qs ms ms' : List (List Char)} (hfront : ∃ f, 2 ≤ f.length ∧ f <+: ms ∧ f <+: ms')
    (hc : compare qs ms = some c) (hc' : compare qs ms' = some c') (hpos : 0 < c) (hpos' : 0 < c') (rel : Option Ptr) :
    relSearch c rel = relSearch c' rel := by
  obtain ⟨f, hlen, hf, hf'⟩ := hfront
  have hcut : ms.take 2 = ms'.take 2 := by
    obtain ⟨v, hv⟩ := hf
    obtain ⟨w, hw⟩ := hf'
    rw [← hv, ← hw, List.take_append_of_le_length hlen, List.take_append_of_le_length hlen]
  have htwo : 2 ≤ c ↔ 2 ≤ c' := by
    rw [← compare_take hc, ← compare_take hc', hcut]
  by_cases hc2 : 2 ≤ c
  · have hc2' := htwo.mp hc2
    have hmany := relSearch_more rel (c - 2) (c' - 2)
    rwa [Nat.sub_add_cancel hc2, Nat.sub_add_cancel hc2'] at hmany
  · have hc2' := fun h => hc2 (htwo.mpr h)
    rw [show c = 1 by omega, show c' = 1 by omega]

theorem lookupStep_alike (hp : Holds p d) (hm : Holds m.ptr m.entry.dst) (hm' : Holds m'.ptr m'.entry.dst)
    (hindex : m.index = m'.index)
    (hentry : m.entry = m'.entry) (hfront : ∃ f, 2 ≤ f.length ∧ f <+: components m.ptr ∧ f <+: components m'.ptr)
    (hbranch : m.entry.dst ≠ ['/'] → branch prev (components m.ptr) = branch prev' (components m'.ptr))
    (hbest : parting prev (components p) = some best) (hbest' : parting prev' (components p) = some best') (hs : Alike best best' s s') :
    Agrees (fun t t' => ∃ b b', parting (along prev m) (components p) = some b ∧
      parting (along prev' m') (components p) = some b' ∧
      Alike b b' t t') (lookupStep p m s) (lookupStep p m' s') := by
  rw [lookupStep_eq hp hm hs.left, lookupStep_eq hp hm' hs.right]
  unfold along
  rw [← hentry]
  by_cases hroot : m.entry.dst = ['/']
  · rw [if_pos hroot, if_pos hroot, if_pos hroot, if_pos hroot]
    refine .ok ⟨best, best', hbest, hbest', ?_⟩
    by_cases hzero : best = 0
    · rw [if_pos hzero, if_pos (hs.zero.mp hzero)]
      refine ⟨⟨fun _ => ⟨rfl, hzero⟩, fun h => Bool.noConfusion h⟩,
        ⟨fun _ => ⟨rfl, hs.zero.mp hzero⟩, fun h => Bool.noConfusion h⟩,
        hs.zero, rfl, ?_⟩
      unfold SameFound
      rw [Option.map_some, Option.map_some, hindex]
    · rw [if_neg hzero, if_neg fun h => hzero (hs.zero.mpr h)]
      exact hs
  · rw [if_neg hroot, if_neg hroot, if_neg hroot, if_neg hroot]
    have hbuffer : MountPoint.buffer m = m.ptr := rfl
    have hbuffer' : MountPoint.buffer m' = m'.ptr := rfl
    rw [hbuffer, hbuffer']
    cases hc : compare (components p) (components m.ptr) with
    | none => exact .left _
    | some c =>
      cases hc' : compare (components p) (components m'.ptr) with
      | none => exact .right _
      | some c' =>
        have htaken : best < c ↔ best' < c' := by
          rw [branch_taken hbest hc, branch_taken hbest' hc', hbranch hroot]
        have hnext := parting_of_cons hc hbest
        have hnext' := parting_of_cons hc' hbest'
        dsimp only
        by_cases hmore : best < c
        · have hmore' := htaken.mp hmore
          have hrel := relSearch_front hfront hc hc' (by omega) (by omega) (some p.tail)
          rw [if_pos hmore, if_pos hmore', hrel]
          rw [max_eq_left hmore.le] at hnext
          rw [max_eq_left hmore'.le] at hnext'
          cases relSearch c' (some p.tail) with
          | error fault => exact .fault fault
          | ok r =>
            refine .ok ⟨c, c', hnext, hnext', ⟨fun h => Bool.noConfusion h, fun _ => rfl⟩,
              ⟨fun h => Bool.noConfusion h, fun _ => rfl⟩,
              ⟨fun h => by omega, fun h => by omega⟩, rfl, ?_⟩
            unfold SameFound
            rw [Option.map_some, Option.map_some, hindex]
        · have hmore' := fun h => hmore (htaken.mpr h)
          rw [if_neg hmore, if_neg hmore']
          rw [max_eq_right (not_lt.mp hmore)] at hnext
          rw [max_eq_right (not_lt.mp hmore')] at hnext'
          exact .ok ⟨best, best', hnext, hnext', hs⟩

theorem lookupLoop_alike (path : CString) (hl : ∀ e ∈ l, Fits e ∧ e.dst ≠ []) (hx : x.dst = []) (hx' : x'.dst = [])
    (hb : branches prev (mem.records i (l ++ x :: rest)) = branches prev' (mem.records i (l ++ x' :: rest)))
    (hbest : parting prev (components path.ptr) = some best) (hbest' : parting prev' (components path.ptr) = some best')
    (hs : Alike best best' s s') :
    Agrees (fun t t' => (t.lmatch = 0 ↔ t'.lmatch = 0) ∧ SameFound t.found t'.found)
      (lookupLoop path.ptr (mem.records i (l ++ x :: rest)) s) (lookupLoop path.ptr (mem.records i (l ++ x' :: rest)) s') := by
  induction l generalizing i prev prev' best best' s s' with
  | nil =>
    rw [List.nil_append, List.nil_append, Memory.records, Memory.records, if_neg fun h => used_iff.mp h hx,
      if_neg fun h => used_iff.mp h hx']
    exact .ok ⟨hs.none, hs.found⟩
  | cons e l ih =>
    obtain ⟨hfits, hne⟩ := hl e (List.mem_cons_self ..)
    rw [List.cons_append, List.cons_append, records_cons hne, records_cons hne] at hb ⊢
    obtain ⟨hfirst, hb⟩ := List.cons.inj hb
    have hstr : ∀ r, strcmp (MountPoint.buffer (⟨i, e, mem.dst e r⟩ : Record Fs Dev)) path.ptr = .ok (if e.dst = path.text then 0 else 1) :=
      fun r => strcmp_holds (dst_holds hfits) path.holds
    rw [lookupLoop, lookupLoop, hstr, hstr]
    by_cases heq : e.dst = path.text
    · rw [if_pos heq]
      exact .ok ⟨Iff.rfl, rfl⟩
    · rw [if_neg heq]
      have hfront : ∀ y : Entry Fs Dev, front e <+: components (mem.dst e (l ++ y :: rest)) := by
        intro y
        obtain ⟨u, _, hu⟩ : ∃ u, u ≠ [] ∧ components (mem.dst e (l ++ y :: rest)) = front e ++ u :=
          components_dst_append e y l rest
        exact ⟨u, hu.symm⟩
      change Agrees _ (lookupStep path.ptr _ s >>= _) (lookupStep path.ptr _ s' >>= _)
      refine Agrees.bind (lookupStep_alike path.holds (dst_holds hfits) (dst_holds hfits) rfl rfl
        ⟨front e, two_le_front hfits hne, hfront x, hfront x'⟩ (fun hroot => ?_) hbest hbest' hs) fun t t' ⟨b, b', hnext,
          hnext', ht⟩ =>
          ih (fun e he => hl e (List.mem_cons_of_mem _ he)) hb hnext hnext' ht
      rwa [if_neg hroot, if_neg hroot] at hfirst

end Alongside

section Winning

variable {Fs Dev : Type} {l l₁ l₂ : List (Record Fs Dev)} {m : Record Fs Dev} {s : LookupState (Record Fs Dev)}
variable {d u : List Char} {prev : List (List (List Char))} {path : List (List Char)} {best : Nat}

def alongAll (prev : List (List (List Char))) (l : List (Record Fs Dev)) : List (List (List Char)) := l.foldl along prev

def Taken (path : List (List Char)) (prev : List (List (List Char))) (m : Record Fs Dev) : Prop :=
  if m.entry.dst = ['/'] then parting prev path = some 0
  else ∃ q, branch prev (components m.ptr) = some q ∧ q <+: path

/-- A mount point that is not the path and parts from it before the components of its text end. -/
structure Compared (d u : List Char) (m : Record Fs Dev) : Prop where
  holds : Holds m.ptr m.entry.dst
  other : m.entry.dst ≠ d
  parted : m.entry.dst ≠ ['/'] → ∃ k ≤ (components (buffered d)).length,
    compare (components (d ++ '\x00' :: u)) (components m.ptr) = some k

structure Searched (path : List (List Char)) (prev : List (List (List Char))) (s : LookupState (Record Fs Dev)) : Prop where
  counted : ∃ best, parting prev path = some best ∧ Counted best s
  none : s.lmatch = 0 → s.found = none

theorem lookupStep_compared (hp : Holds (d ++ '\x00' :: u) d) (hne : d ≠ []) (hm : Compared d u m)
    (hs : Searched (components (d ++ '\x00' :: u)) prev s) :
    ∃ s', lookupStep (d ++ '\x00' :: u) m s = .ok s' ∧ Searched (components (d ++ '\x00' :: u)) (along prev m) s' ∧
      (Taken (components (d ++ '\x00' :: u)) prev m → ∃ r, s'.found = some (m, r)) ∧
      (¬Taken (components (d ++ '\x00' :: u)) prev m → s' = s) := by
  obtain ⟨best, hbest, hcounted⟩ := hs.counted
  rw [lookupStep_eq hp hm.holds hcounted]
  unfold along Taken
  by_cases hroot : m.entry.dst = ['/']
  · rw [if_pos hroot, if_pos hroot, if_pos hroot, hbest]
    refine ⟨_, rfl, ?_⟩
    by_cases hzero : best = 0
    · rw [if_pos hzero, hzero]
      exact ⟨⟨⟨0, hzero ▸ hbest, fun _ => ⟨rfl, rfl⟩, fun h => Bool.noConfusion h⟩, fun h => absurd h Nat.one_ne_zero⟩,
        fun _ => ⟨_, rfl⟩, fun h => absurd rfl h⟩
    · rw [if_neg hzero]
      exact ⟨⟨⟨best, hbest, hcounted⟩, hs.none⟩, fun h => absurd (Option.some.inj h) hzero, fun _ => rfl⟩
  · obtain ⟨k, hk, hcompare⟩ := hm.parted hroot
    obtain ⟨r, hr⟩ := relSearch_ok hp.terminated hne hk u
    have hnext := parting_of_cons hcompare hbest
    have htaken := branch_taken hbest hcompare
    rw [if_neg hroot, if_neg hroot, if_neg hroot, show compare (components (d ++ '\x00' :: u)) (components (MountPoint.buffer m)) = some k
      from hcompare, ← htaken]
    dsimp only
    by_cases hmore : best < k
    · rw [max_eq_left hmore.le] at hnext
      rw [if_pos hmore, hr]
      exact ⟨_, rfl, ⟨⟨k, hnext, fun h => Bool.noConfusion h, fun _ => rfl⟩, fun h => absurd h (Nat.ne_zero_of_lt hmore)⟩,
        fun _ => ⟨_, rfl⟩, fun h => absurd hmore h⟩
    · rw [max_eq_right (not_lt.mp hmore)] at hnext
      rw [if_neg hmore]
      exact ⟨s, rfl, ⟨⟨best, hnext, hcounted⟩, hs.none⟩, fun h => absurd h hmore, fun _ => rfl⟩

/-- A search that gets past the mount points found the last whose branch the path leads along. -/
theorem lookupLoop_compared (hp : Holds (d ++ '\x00' :: u) d) (hne : d ≠ []) (hl : ∀ m ∈ l, Compared d u m)
    (hs : Searched (components (d ++ '\x00' :: u)) prev s) :
    ∃ s', (∀ rest, lookupLoop (d ++ '\x00' :: u) (l ++ rest) s = lookupLoop (d ++ '\x00' :: u) rest s') ∧
      Searched (components (d ++ '\x00' :: u)) (alongAll prev l) s' ∧
      (s'.found = s.found ∨ ∃ l₁ m l₂ r, l = l₁ ++ m :: l₂ ∧
        Taken (components (d ++ '\x00' :: u)) (alongAll prev l₁) m ∧ s'.found = some (m, r)) := by
  induction l generalizing prev s with
  | nil => exact ⟨s, fun _ => rfl, hs, .inl rfl⟩
  | cons m l ih =>
    obtain ⟨s₁, hstep, hs₁, htaken, hkept⟩ := lookupStep_compared hp hne (hl m (List.mem_cons_self ..)) hs
    obtain ⟨s', hloop, hs', hfound⟩ := ih (fun m' hm' => hl m' (List.mem_cons_of_mem _ hm')) hs₁
    have hm := hl m (List.mem_cons_self ..)
    refine ⟨s', fun rest => ?_, hs', ?_⟩
    · rw [List.cons_append, lookupLoop, show strcmp (MountPoint.buffer m) (d ++ '\x00' :: u) = _ from strcmp_holds hm.holds hp,
        if_neg hm.other, hstep]
      exact hloop rest
    · rcases hfound with hsame | ⟨l₁, m', l₂, r, rfl, htaken', hfound⟩
      · by_cases ht : Taken (components (d ++ '\x00' :: u)) prev m
        · obtain ⟨r, hr⟩ := htaken ht
          exact .inr ⟨[], m, l, r, rfl, ht, hsame.trans hr⟩
        · rw [hkept ht] at hsame
          exact .inl hsame
      · exact .inr ⟨m :: l₁, m', l₂, r, rfl, htaken', hfound⟩

theorem searched_start : Searched path [] (⟨0, false, none⟩ : LookupState (Record Fs Dev)) :=
  ⟨⟨0, rfl, Counted.zero⟩, fun _ => rfl⟩

theorem vfsLookupFile_compared (hp : Holds (d ++ '\x00' :: u) d) (hne : d ≠ []) (hl : ∀ m ∈ l, Compared d u m) :
    ∃ r, vfsLookupFile (d ++ '\x00' :: u) l = .ok r ∧ ∀ m rel, r = some (m, rel) →
      ∃ l₁ l₂, l = l₁ ++ m :: l₂ ∧ Taken (components (d ++ '\x00' :: u)) (alongAll [] l₁) m := by
  obtain ⟨s, hloop, hs, hfound⟩ := lookupLoop_compared hp hne hl searched_start
  have hall := hloop []
  rw [List.append_nil] at hall
  unfold vfsLookupFile
  rw [hall]
  refine ⟨_, rfl, fun m rel hr => ?_⟩
  by_cases hzero : s.lmatch = 0
  · rw [if_pos hzero] at hr
    cases hr
  · rw [if_neg hzero] at hr
    rcases hfound with hnone | ⟨l₁, m', l₂, r, hsplit, htaken, hfound⟩
    · rw [hnone] at hr
      cases hr
    · rw [hfound] at hr
      obtain ⟨rfl, rfl⟩ := Prod.mk.inj (Option.some.inj hr)
      exact ⟨l₁, l₂, hsplit, htaken⟩

theorem vfsLookupFile_last (hp : Holds (d ++ '\x00' :: u) d) (hne : d ≠ []) (hl : ∀ x ∈ l₁ ++ m :: l₂, Compared d u x)
    (htaken : Taken (components (d ++ '\x00' :: u)) (alongAll [] l₁) m)
    (hlast : ∀ a x b, l₂ = a ++ x :: b → ¬Taken (components (d ++ '\x00' :: u)) (alongAll (along (alongAll [] l₁) m) a) x) :
    ∃ rel, vfsLookupFile (d ++ '\x00' :: u) (l₁ ++ m :: l₂) = .ok (some (m, rel)) := by
  obtain ⟨s₁, hloop₁, hs₁, _⟩ := lookupLoop_compared hp hne (fun x hx => hl x (List.mem_append_left _ hx)) searched_start
  have hm := hl m (List.mem_append_right _ (List.mem_cons_self ..))
  obtain ⟨s₂, hstep, hs₂, hfound₂, _⟩ := lookupStep_compared hp hne hm hs₁
  obtain ⟨rel, hrel⟩ := hfound₂ htaken
  obtain ⟨s₃, hloop₃, hs₃, hfound₃⟩ := lookupLoop_compared hp hne
    (fun x hx => hl x (List.mem_append_right _ (List.mem_cons_of_mem _ hx))) hs₂
  have hfound : s₃.found = some (m, rel) := by
    rcases hfound₃ with hsame | ⟨a, x, b, r, hsplit, htaken', _⟩
    · rw [hsame, hrel]
    · exact absurd htaken' (hlast a x b hsplit)
  have hend := hloop₃ []
  rw [List.append_nil] at hend
  have hloop : lookupLoop (d ++ '\x00' :: u) (l₁ ++ m :: l₂) ⟨0, false, none⟩ = .ok s₃ := by
    rw [hloop₁, lookupLoop, show strcmp (MountPoint.buffer m) (d ++ '\x00' :: u) = _ from strcmp_holds hm.holds hp,
      if_neg hm.other, hstep]
    exact hend
  refine ⟨rel, ?_⟩
  unfold vfsLookupFile
  rw [hloop]
  refine congrArg Except.ok ?_
  have hsome : s₃.lmatch ≠ 0 := fun hzero => by
    rw [hs₃.none hzero] at hfound
    cases hfound
  rw [if_neg hsome, hfound]

end Winning

section Visibility

variable {Fs Dev : Type} {l l' l₁ l₂ : List (Record Fs Dev)} {m : Record Fs Dev} {q : List (List Char)}
variable {prev : List (List (List Char))} {i : Nat}

theorem branches_getElem? : (branches prev l)[i]? = l[i]?.map fun m =>
    if m.entry.dst = ['/'] then none else branch (alongAll prev (l.take i)) (components m.ptr) := by
  induction l generalizing prev i with
  | nil => rfl
  | cons m l ih =>
    cases i with
    | zero => rfl
    | succ i =>
      rw [branches, List.getElem?_cons_succ, List.getElem?_cons_succ, ih, List.take_succ_cons]
      rfl

theorem mem_along {a : List (List Char)} (h : a ∈ prev) : a ∈ along prev m := by
  unfold along
  by_cases hroot : m.entry.dst = ['/']
  · rwa [if_pos hroot]
  · rw [if_neg hroot]
    exact List.mem_cons_of_mem _ h

theorem mem_alongAll_of_mem {a : List (List Char)} (h : a ∈ prev) : a ∈ alongAll prev l := by
  induction l generalizing prev with
  | nil => exact h
  | cons m l ih => exact ih (mem_along h)

theorem mem_alongAll (h : m ∈ l) (hroot : m.entry.dst ≠ ['/']) : components m.ptr ∈ alongAll prev l := by
  induction l generalizing prev with
  | nil => cases h
  | cons x l ih =>
    rcases List.mem_cons.mp h with rfl | h
    · refine mem_alongAll_of_mem (l := l) ?_
      unfold along
      rw [if_neg hroot]
      exact List.mem_cons_self ..
    · exact ih h

def freshName : List Char := List.replicate reach 'a'

theorem length_freshName : freshName.length = reach := List.length_replicate

theorem fresh_noStop : ∀ x ∈ freshName, ¬IsStop x := fun x hx => by
  rw [List.eq_of_mem_replicate hx]
  decide

theorem fresh_not_mem (hl : Standing l) (hm : m ∈ l) : freshName ∉ components m.ptr := by
  intro h
  have hlen := length_lt_extent h
  have hextent := (extent_components m.ptr).2
  have hmost := hl.most m hm
  rw [length_freshName] at hlen
  omega

theorem dst_short (hl : Standing l) (hm : m ∈ l) : m.entry.dst.length < m.ptr.length := by
  obtain ⟨rest, hptr⟩ := (hl.holds m hm).buffer
  rw [hptr, List.length_append, List.length_cons]
  omega

/-- A path that goes on with a new component behind a part of a mount point is compared with all of them. -/
theorem compare_fresh (hl : Standing l) (hm : m ∈ l) (hq : ¬components m.ptr <+: q) :
    ∃ k, compare (q ++ [freshName]) (components m.ptr) = some k := by
  cases hc : compare (q ++ [freshName]) (components m.ptr) with
  | some k => exact ⟨k, rfl⟩
  | none =>
    have hnot := fresh_not_mem hl hm
    have hlast : freshName ∈ q ++ [freshName] := List.mem_append_right _ (List.mem_singleton_self _)
    rcases compare_eq_none.mp hc with hpre | hpre
    · exact absurd (hpre.subset hlast) hnot
    · rcases List.prefix_concat_iff.mp hpre with heq | hpre
      · rw [heq] at hnot
        exact absurd hlast hnot
      · exact absurd hpre hq

/-- A part of the components of a mount point that leads along a path with a new component behind. -/
theorem prefix_of_fresh (hl : Standing l) (hm : m ∈ l) {q' : List (List Char)} (h : q' <+: components m.ptr)
    (hpre : q' <+: q ++ [freshName]) : q' <+: q := by
  rcases List.prefix_concat_iff.mp hpre with heq | hpre
  · exact absurd (h.subset (heq ▸ List.mem_append_right _ (List.mem_singleton_self _))) (fresh_not_mem hl hm)
  · exact hpre

def freshPath (q : List (List Char)) : List Char := joined (q ++ [freshName])

theorem length_freshPath : (freshPath q).length = extent q + (reach + 1) := by
  unfold freshPath
  rw [length_joined]
  unfold extent
  rw [List.map_append, List.sum_append, List.map_singleton, List.sum_singleton, length_freshName]

theorem freshPath_noStop (h : ∀ c ∈ q, ∀ x ∈ c, ¬IsStop x) : ∀ c ∈ q ++ [freshName], ∀ x ∈ c, ¬IsStop x := fun c hc => by
  rcases List.mem_append.mp hc with hc | hc
  · exact h c hc
  · rw [List.mem_singleton.mp hc]
    exact fresh_noStop

theorem freshPath_components (h : ∀ c ∈ q, ∀ x ∈ c, ¬IsStop x) : components (freshPath q ++ ['\x00']) = q ++ [freshName] :=
  components_joined (List.append_ne_nil_of_right_ne_nil _ (List.cons_ne_nil _ _)) (freshPath_noStop h)

theorem freshPath_holds (h : ∀ c ∈ q, ∀ x ∈ c, ¬IsStop x) (hlen : extent q ≤ reach) :
    Holds (freshPath q ++ ['\x00']) (freshPath q) := by
  refine holds_buffered (terminated_joined (freshPath_noStop h)) ?_
  rw [length_freshPath]
  unfold reach at hlen ⊢
  omega

theorem freshPath_ne_nil : freshPath q ≠ [] := fun hnil => by
  have hlen := length_freshPath (q := q)
  rw [hnil, List.length_nil] at hlen
  omega

theorem freshPath_compared (hl : Standing l) (h : ∀ c ∈ q, ∀ x ∈ c, ¬IsStop x)
    (hnot : ∀ m ∈ l, m.entry.dst ≠ ['/'] → ¬components m.ptr <+: q) : ∀ m ∈ l, Compared (freshPath q) [] m := by
  intro m hm
  refine ⟨hl.holds m hm, fun heq => ?_, fun hroot => ?_⟩
  · have hdst := dst_short hl hm
    have hmost := hl.most m hm
    rw [heq, length_freshPath] at hdst
    omega
  · obtain ⟨k, hk⟩ := compare_fresh hl hm (hnot m hm hroot)
    refine ⟨k, ?_, ?_⟩
    · rw [show components (buffered (freshPath q)) = _ from freshPath_components h]
      exact (compare_lt hk).1.le
    · rwa [freshPath_components h]

/-- No later mount point is found on a path along the branch of an earlier one. -/
theorem not_taken_later (hl : Standing l) {x : Record Fs Dev} (hx : x ∈ l) (hearlier : components m.ptr ∈ prev)
    (hpre : q <+: components m.ptr) (hne : q ≠ []) : ¬Taken (q ++ [freshName]) prev x := by
  intro htaken
  unfold Taken at htaken
  by_cases hroot : x.entry.dst = ['/']
  · rw [if_pos hroot] at htaken
    obtain ⟨c, hc⟩ := compare_of_parting htaken hearlier
    have hzero := compare_le_parting htaken hearlier hc
    have hfirst : (components m.ptr).take 1 <+: q := by
      rw [List.prefix_iff_eq_take.mp hpre]
      exact List.take_prefix_take_left (List.length_pos_of_ne_nil hne)
    have hone := (compare_take hc).mp (hfirst.trans (List.prefix_append _ _))
    omega
  · rw [if_neg hroot] at htaken
    obtain ⟨q', hq', hpre'⟩ := htaken
    obtain ⟨k, hk, _, hcut⟩ := branch_eq_some.mp hq'
    obtain ⟨j, hj⟩ := compare_of_parting hk hearlier
    have hle := compare_le_parting hk hearlier hj
    have hin : q' <+: components m.ptr := (prefix_of_fresh hl hx (hcut ▸ List.take_prefix _ _) hpre').trans hpre
    rw [compare_comm] at hj
    have hmore := (compare_take hj).mp (hcut ▸ hin)
    omega

/-- A path along the own branch of a mount point that goes on with a new component leads to it. -/
theorem freshPath_found (hl : Standing l) (hm : l[i]? = some m) (hroot : m.entry.dst ≠ ['/'])
    (hq : branch (alongAll [] (l.take i)) (components m.ptr) = some q) (hstop : ∀ c ∈ q, ∀ x ∈ c, ¬IsStop x)
    (hholds : Holds (freshPath q ++ ['\x00']) (freshPath q)) (hcompared : ∀ x ∈ l, Compared (freshPath q) [] x) :
    ∃ rel, vfsLookupFile (freshPath q ++ ['\x00']) l = .ok (some (m, rel)) := by
  obtain ⟨k, _, hless, hcut⟩ := branch_eq_some.mp hq
  have hpath := freshPath_components hstop
  have hsplit : l = l.take i ++ m :: l.drop (i + 1) := by
    obtain ⟨hi, hget⟩ := List.getElem?_eq_some_iff.mp hm
    rw [← hget, List.cons_getElem_drop_succ, List.take_append_drop]
  rw [hsplit] at hcompared ⊢
  refine vfsLookupFile_last hholds freshPath_ne_nil hcompared ?_ fun a x b hdrop => ?_
  · unfold Taken
    rw [if_neg hroot, hpath]
    exact ⟨q, hq, List.prefix_append _ _⟩
  · have hall : alongAll (along (alongAll [] (l.take i)) m) a = alongAll [] (l.take i ++ m :: a) := by
      unfold alongAll
      rw [List.foldl_append, List.foldl_cons]
    have hx : x ∈ l := by
      rw [hsplit, hdrop]
      exact List.mem_append_right _ (List.mem_cons_of_mem _ (List.mem_append_right _ (List.mem_cons_self ..)))
    have hne : q ≠ [] := by
      rintro rfl
      have hlen := congrArg List.length hcut
      rw [List.length_take] at hlen
      simp only [List.length_nil] at hlen
      omega
    rw [hpath, hall]
    exact not_taken_later hl hx (mem_alongAll (List.mem_append_right _ (List.mem_cons_self ..)) hroot)
      (hcut ▸ List.take_prefix _ _) hne

/-- Where lookups have the same results in two tables, a branch of one leads along one of the other. -/
theorem branch_kept (hl : Standing l) (hl' : Standing l') (hentries : l.map Record.entry = l'.map Record.entry)
    (hfar : ∀ x ∈ l ++ l', x.entry.dst ≠ ['/'] → components x.ptr <+: components m.ptr →
      components x.ptr = components m.ptr)
    (hsame : ∀ path : CString, Agrees SameFound (vfsLookupFile path.ptr l) (vfsLookupFile path.ptr l'))
    (hm : l[i]? = some m) (hroot : m.entry.dst ≠ ['/']) (hq : branch (alongAll [] (l.take i)) (components m.ptr) = some q) :
    ∃ m' q', l'[i]? = some m' ∧ branch (alongAll [] (l'.take i)) (components m'.ptr) = some q' ∧ q' <+: q := by
  obtain ⟨k, _, hless, hcut⟩ := branch_eq_some.mp hq
  have hmem : m ∈ l := List.mem_of_getElem? hm
  have hpre : q <+: components m.ptr := hcut ▸ List.take_prefix _ _
  have hlen : q.length = k + 1 := by
    rw [← hcut, List.length_take]
    omega
  have hnot : ∀ x ∈ l ++ l', x.entry.dst ≠ ['/'] → ¬components x.ptr <+: q := fun x hx hxroot hxq => by
    have hxlen := hxq.length_le
    rw [hfar x hx hxroot (hxq.trans hpre)] at hxlen
    omega
  have hstop : ∀ c ∈ q, ∀ x ∈ c, ¬IsStop x := fun c hc => noStop_of_components (hpre.subset hc)
  have hholds := freshPath_holds hstop (by
    have hle := (extent_mono hpre).trans (extent_components m.ptr).2
    have hmost := hl.most m hmem
    omega)
  have hpath := freshPath_components hstop
  -- in the first table the path leads to the mount point
  obtain ⟨rel, hfound⟩ := freshPath_found hl hm hroot hq hstop hholds
    (freshPath_compared hl hstop fun x hx => hnot x (List.mem_append_left _ hx))
  -- so it leads to the same record of the other one
  obtain ⟨r', hfound', htaken⟩ := vfsLookupFile_compared hholds freshPath_ne_nil
    (freshPath_compared hl' hstop fun x hx => hnot x (List.mem_append_right _ hx))
  have hagrees := hsame ⟨_, _, hholds⟩
  dsimp only at hagrees
  rw [hfound, hfound'] at hagrees
  have hkeys := hagrees.of_ok
  unfold SameFound at hkeys
  cases r' with
  | none => cases hkeys
  | some r' =>
    obtain ⟨m', rel'⟩ := r'
    obtain ⟨l₁, l₂, hsplit', htaken⟩ := htaken m' rel' rfl
    have hindex : m.index = m'.index := (Prod.mk.inj (Option.some.inj hkeys)).1
    have hget : l'[l₁.length]? = some m' := by
      rw [hsplit', List.getElem?_append_right le_rfl, Nat.sub_self]
      rfl
    have hi : l₁.length = i := by
      rw [← hl'.index _ _ hget, ← hindex, hl.index _ _ hm]
    rw [hi] at hget
    have htake : l'.take i = l₁ := by
      rw [hsplit', ← hi, List.take_left']
      rfl
    have hentry : m'.entry = m.entry := by
      have hmap := congrArg (fun r => r[i]?) hentries
      rw [List.getElem?_map, List.getElem?_map, hm, hget] at hmap
      exact (Option.some.inj hmap).symm
    unfold Taken at htaken
    rw [hentry, if_neg hroot, hpath] at htaken
    obtain ⟨q', hq', hpre'⟩ := htaken
    obtain ⟨k', _, _, hcut'⟩ := branch_eq_some.mp hq'
    exact ⟨m', q', hget, htake ▸ hq', prefix_of_fresh hl' (List.mem_of_getElem? hget) (hcut' ▸ List.take_prefix _ _) hpre'⟩

theorem branches_kept (hl : Standing l) (hl' : Standing l') (hentries : l.map Record.entry = l'.map Record.entry)
    (hfar : ∀ m ∈ l ++ l', ∀ m' ∈ l ++ l', m.entry.dst ≠ ['/'] → m'.entry.dst ≠ ['/'] →
      components m.ptr <+: components m'.ptr → components m.ptr = components m'.ptr)
    (hsame : ∀ path : CString, Agrees SameFound (vfsLookupFile path.ptr l) (vfsLookupFile path.ptr l')) :
    branches [] l = branches [] l' := by
  have hback : ∀ path : CString, Agrees SameFound (vfsLookupFile path.ptr l') (vfsLookupFile path.ptr l) :=
    fun path => (hsame path).symm fun _ _ h => Eq.symm h
  refine List.ext_getElem? fun i => ?_
  rw [branches_getElem?, branches_getElem?]
  have hmap := congrArg (fun r => r[i]?) hentries
  rw [List.getElem?_map, List.getElem?_map] at hmap
  cases hm : l[i]? with
  | none =>
    rw [hm] at hmap
    rw [Option.map_eq_none_iff.mp hmap.symm]
    rfl
  | some m =>
    rw [hm] at hmap
    obtain ⟨m', hm', hentry⟩ := Option.map_eq_some_iff.mp hmap.symm
    rw [hm', Option.map_some, Option.map_some, hentry]
    by_cases hroot : m.entry.dst = ['/']
    · rw [if_pos hroot, if_pos hroot]
    · have hroot' : m'.entry.dst ≠ ['/'] := by rwa [hentry]
      have hmem := List.mem_append_left l' (List.mem_of_getElem? hm)
      have hmem' := List.mem_append_right l (List.mem_of_getElem? hm')
      have hfar' : ∀ x ∈ l' ++ l, x.entry.dst ≠ ['/'] → components x.ptr <+: components m'.ptr →
        components x.ptr = components m'.ptr :=
        fun x hx hxroot => hfar x (List.mem_append.mpr (List.mem_append.mp hx).symm) m' hmem' hxroot hroot'
      rw [if_neg hroot, if_neg hroot]
      have hto : ∀ q, branch (alongAll [] (l.take i)) (components m.ptr) = some q →
          ∃ q', branch (alongAll [] (l'.take i)) (components m'.ptr) = some q' ∧ q' <+: q := by
        intro q hq
        obtain ⟨x, q', hx, hq', hpre⟩ := branch_kept hl hl' hentries (fun x hx hxroot => hfar x hx m hmem hxroot hroot) hsame hm hroot hq
        rw [hm'] at hx
        obtain rfl := Option.some.inj hx
        exact ⟨q', hq', hpre⟩
      have hfrom : ∀ q', branch (alongAll [] (l'.take i)) (components m'.ptr) = some q' →
          ∃ q, branch (alongAll [] (l.take i)) (components m.ptr) = some q ∧ q <+: q' := by
        intro q' hq'
        obtain ⟨x, q, hx, hq, hpre⟩ := branch_kept hl' hl hentries.symm hfar' hback hm' hroot' hq'
        rw [hm] at hx
        obtain rfl := Option.some.inj hx
        exact ⟨q, hq, hpre⟩
      cases hq : branch (alongAll [] (l.take i)) (components m.ptr) with
      | none =>
        cases hq' : branch (alongAll [] (l'.take i)) (components m'.ptr) with
        | none => rfl
        | some q' =>
          obtain ⟨q, hsome, _⟩ := hfrom q' hq'
          rw [hq] at hsome
          cases hsome
      | some q =>
        obtain ⟨q', hq', hpre⟩ := hto q hq
        obtain ⟨q'', hq'', hpre'⟩ := hfrom q' hq'
        obtain rfl := Option.some.inj (hq.symm.trans hq'')
        rw [hq', hpre.eq_of_length (le_antisymm hpre.length_le hpre'.length_le)]

theorem dst_holds_fresh (hm : Holds m.ptr m.entry.dst) :
    Holds (m.entry.dst ++ '\x00' :: (freshName ++ ['\x00'])) m.entry.dst := by
  refine ⟨hm.terminated, ⟨_, rfl⟩, ?_, hm.short⟩
  rw [← List.cons_append, ← List.append_assoc]
  exact closed_append _

/-- A mount point with a new component behind it in memory parts from all other ones. -/
theorem dst_compared (hl : Standing l) {d : List Char} (hne : d ≠ []) (hd : d.length < pathSize)
    (hnew : ∀ x ∈ l, x.entry.dst ≠ d) :
    ∀ x ∈ l, Compared d (freshName ++ ['\x00']) x := by
  intro x hx
  refine ⟨hl.holds x hx, hnew x hx, fun _ => ?_⟩
  have hpath : components (d ++ '\x00' :: (freshName ++ ['\x00'])) = components (buffered d) ++ [freshName] := by
    have hfresh : pieces (freshName ++ ['\x00']) = [freshName] := pieces_append fresh_noStop (.inr rfl)
    rw [components_append hne, hfresh]
  have hnot : ¬components x.ptr <+: components (buffered d) := fun hpre => by
    have hle := extent_mono hpre
    have hleast := hl.least x hx
    have hmore := (extent_components x.ptr).1
    have hless := (extent_components (buffered d)).2
    have hlen : (buffered d).length = d.length + 1 := List.length_append
    have hsize : pathSize = 256 := rfl
    omega
  obtain ⟨k, hk⟩ := compare_fresh hl hx hnot
  have hlt := (compare_lt hk).1
  rw [List.length_append, List.length_singleton] at hlt
  exact ⟨k, Nat.le_of_lt_succ hlt, by rwa [hpath]⟩

/-- A new mount point is found on its own path, where no other one is. -/
theorem lookup_visible (hl : Standing l) (hl' : Standing (l₁ ++ [m])) (hentries : l.map Record.entry = l₁.map Record.entry)
    (hne : m.entry.dst ≠ []) (hfits : m.entry.dst.length < pathSize) (hnew : ∀ x ∈ l, x.entry.dst ≠ m.entry.dst) :
    ∃ path : CString, ¬Agrees SameFound (vfsLookupFile path.ptr l) (vfsLookupFile path.ptr (l₁ ++ [m])) := by
  have hm := hl'.holds m (List.mem_append_right _ (List.mem_singleton_self _))
  have hholds := dst_holds_fresh hm
  have hstanding : Standing l₁ := ⟨fun x hx => hl'.holds x (List.mem_append_left _ hx),
    fun j x hj => hl'.index j x ((List.getElem?_append_left (List.getElem?_eq_some_iff.mp hj).1).trans hj),
    fun x hx => hl'.least x (List.mem_append_left _ hx), fun x hx => hl'.most x (List.mem_append_left _ hx)⟩
  have hnew₁ : ∀ x ∈ l₁, x.entry.dst ≠ m.entry.dst := by
    intro x hx
    have hin : x.entry ∈ l.map Record.entry := hentries ▸ List.mem_map_of_mem hx
    obtain ⟨y, hy, heq⟩ := List.mem_map.mp hin
    exact heq ▸ hnew y hy
  obtain ⟨r, hbefore, hfound⟩ := vfsLookupFile_compared hholds hne (dst_compared hl hne hfits hnew)
  obtain ⟨s, hloop, _, _⟩ := lookupLoop_compared hholds hne (dst_compared hstanding hne hfits hnew₁) searched_start
  have hafter : vfsLookupFile (m.entry.dst ++ '\x00' :: (freshName ++ ['\x00'])) (l₁ ++ [m]) =
      .ok (some (m, some (strEnd (m.entry.dst ++ '\x00' :: (freshName ++ ['\x00']))))) := by
    unfold vfsLookupFile
    rw [hloop, lookupLoop, show strcmp (MountPoint.buffer m) (m.entry.dst ++ '\x00' :: (freshName ++ ['\x00'])) = _ from strcmp_holds hm hholds,
      if_pos rfl]
    rfl
  refine ⟨⟨_, _, hholds⟩, fun hagrees => ?_⟩
  dsimp only at hagrees
  rw [hbefore, hafter] at hagrees
  have hkeys := hagrees.of_ok
  unfold SameFound at hkeys
  cases r with
  | none => cases hkeys
  | some r =>
    obtain ⟨x, rel⟩ := r
    obtain ⟨a, b, hsplit, _⟩ := hfound x rel rfl
    have hx : l[a.length]? = some x := by
      rw [hsplit, List.getElem?_append_right le_rfl, Nat.sub_self]
      rfl
    have hlast : (l₁ ++ [m])[l₁.length]? = some m := by
      rw [List.getElem?_append_right le_rfl, Nat.sub_self]
      rfl
    have hindex : x.index = m.index := (Prod.mk.inj (Option.some.inj hkeys)).1
    have hsize := congrArg List.length hentries
    rw [List.length_map, List.length_map] at hsize
    rw [hl.index _ _ hx, hl'.index _ _ hlast, ← hsize] at hindex
    have hlt := (List.getElem?_eq_some_iff.mp hx).1
    omega

end Visibility

end YggKernel.Vfs
