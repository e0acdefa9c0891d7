import YggKernel.Vfs.Components

namespace YggKernel.Vfs

section Pieces

variable {a u : List Char} {x : Char} {p : Ptr} {c : List Char} {as bs cs : List (List Char)}

theorem pieces_ne_nil (h : p ≠ []) : pieces p ≠ [] := by
  cases p with
  | nil => exact absurd rfl h
  | cons c p =>
    rw [pieces]
    by_cases hc : IsStop c
    · rw [if_pos hc]
      exact List.cons_ne_nil _ _
    · rw [if_neg hc]
      cases pieces p <;> exact List.cons_ne_nil _ _

theorem pieces_stop (hx : IsStop x) : pieces (a ++ x :: u) = pieces (a ++ [x]) ++ pieces u := by
  induction a with
  | nil => rw [List.nil_append, List.nil_append, pieces, if_pos hx, pieces, if_pos hx]; rfl
  | cons c a ih =>
    rw [List.cons_append, List.cons_append, pieces, pieces, ih]
    by_cases hc : IsStop c
    · rw [if_pos hc, if_pos hc]
      rfl
    · rw [if_neg hc, if_neg hc]
      cases h : pieces (a ++ [x]) with
      | nil => exact absurd h (pieces_ne_nil (List.append_ne_nil_of_right_ne_nil _ (List.cons_ne_nil _ _)))
      | cons d ds => rfl

theorem components_append {d : List Char} (hd : d ≠ []) (u : List Char) :
    components (d ++ '\x00' :: u) = components (buffered d) ++ pieces u := by
  obtain ⟨c, d, rfl⟩ := List.exists_cons_of_ne_nil hd
  unfold buffered
  rw [List.cons_append, List.cons_append]
  by_cases hc : c = '/'
  · rw [hc, components_slash, components_slash]
    exact pieces_stop (.inr rfl)
  · rw [components_other hc, components_other hc, ← List.cons_append, ← List.cons_append]
    exact pieces_stop (.inr rfl)

def extent (cs : List (List Char)) : Nat := (cs.map fun c => c.length + 1).sum

theorem extent_cons (c : List Char) (cs : List (List Char)) : extent (c :: cs) = c.length + 1 + extent cs := List.sum_cons

theorem extent_mono (h : as <+: bs) : extent as ≤ extent bs := by
  obtain ⟨t, rfl⟩ := h
  unfold extent
  rw [List.map_append, List.sum_append]
  exact Nat.le_add_right _ _

theorem length_lt_extent (h : c ∈ cs) : c.length < extent cs :=
  Nat.lt_of_succ_le (List.le_sum_of_mem (List.mem_map_of_mem (f := fun c => c.length + 1) h))

theorem extent_pieces (p : Ptr) : p.length ≤ extent (pieces p) ∧ extent (pieces p) ≤ p.length + 1 := by
  induction p with
  | nil => exact ⟨Nat.zero_le _, Nat.zero_le _⟩
  | cons c p ih =>
    rw [pieces, List.length_cons]
    by_cases hc : IsStop c
    · rw [if_pos hc, extent_cons, List.length_nil]
      omega
    · rw [if_neg hc]
      cases hp : pieces p with
      | nil =>
        rw [hp] at ih
        have hnil : extent [[c]] = 2 := rfl
        have hzero : extent [] = 0 := rfl
        dsimp only
        omega
      | cons d ds =>
        rw [hp, extent_cons] at ih
        dsimp only
        rw [extent_cons, List.length_cons]
        omega

theorem extent_components (p : Ptr) :
    p.length ≤ extent (components p) + 1 ∧ extent (components p) ≤ p.length + 1 := by
  unfold components
  by_cases hslash : p.head? = some '/'
  · have htail := extent_pieces p.tail
    rw [List.length_tail] at htail
    rw [if_pos hslash]
    omega
  · have hall := extent_pieces p
    rw [if_neg hslash]
    omega

theorem noStop_of_pieces (h : c ∈ pieces p) : ∀ x ∈ c, ¬IsStop x := by
  induction p generalizing c with
  | nil => cases h
  | cons d p ih =>
    rw [pieces] at h
    by_cases hd : IsStop d
    · rw [if_pos hd] at h
      rcases List.mem_cons.mp h with rfl | h
      · exact fun x hx => absurd hx List.not_mem_nil
      · exact ih h
    · rw [if_neg hd] at h
      cases hp : pieces p with
      | nil =>
        rw [hp] at h
        rw [List.mem_singleton.mp h]
        intro x hx
        rwa [List.mem_singleton.mp hx]
      | cons e es =>
        rw [hp] at h ih
        rcases List.mem_cons.mp h with rfl | h
        · intro x hx
          rcases List.mem_cons.mp hx with rfl | hx
          · exact hd
          · exact ih (List.mem_cons_self ..) x hx
        · exact ih (List.mem_cons_of_mem _ h)

theorem noStop_of_components (h : c ∈ components p) : ∀ x ∈ c, ¬IsStop x := noStop_of_pieces h

def joined (cs : List (List Char)) : List Char := cs.flatMap fun c => '/' :: c

theorem length_joined (cs : List (List Char)) : (joined cs).length = extent cs := by
  unfold joined extent
  rw [List.length_flatMap]
  rfl

theorem terminated_joined (h : ∀ c ∈ cs, ∀ x ∈ c, ¬IsStop x) : Terminated (joined cs) := by
  intro x hx
  obtain ⟨c, hc, hx⟩ := List.mem_flatMap.mp hx
  rcases List.mem_cons.mp hx with rfl | hx
  · decide
  · exact fun hzero => h c hc x hx (.inr hzero)

theorem components_joined (hcs : cs ≠ []) (h : ∀ c ∈ cs, ∀ x ∈ c, ¬IsStop x) : components (buffered (joined cs)) = cs := by
  obtain ⟨c, cs, rfl⟩ := List.exists_cons_of_ne_nil hcs
  have hjoined : buffered (joined (c :: cs)) = '/' :: (c ++ buffered (joined cs)) := by
    unfold buffered joined
    rw [List.flatMap_cons, List.cons_append, List.cons_append, List.append_assoc]
  rw [hjoined, components_slash]
  clear hjoined hcs
  induction cs generalizing c with
  | nil => exact pieces_append (h c (List.mem_cons_self ..)) (.inr rfl)
  | cons d ds ih =>
    have hjoined : buffered (joined (d :: ds)) = '/' :: (d ++ buffered (joined ds)) := by
      unfold buffered joined
      rw [List.flatMap_cons, List.cons_append, List.cons_append, List.append_assoc]
    rw [hjoined, pieces_append (h c (List.mem_cons_self ..)) (.inl rfl),
      ih d fun e he => h e (List.mem_cons_of_mem _ he)]

end Pieces

section Branches

variable {as bs p a b q : List (List Char)} {prev : List (List (List Char))} {c k m n : Nat}

theorem compare_comm (as bs : List (List Char)) : compare as bs = compare bs as := by
  induction as generalizing bs with
  | nil => cases bs <;> rfl
  | cons a as ih =>
    cases bs with
    | nil => rfl
    | cons b bs =>
      rw [compare, compare, ih bs]
      by_cases hab : a = b
      · rw [if_pos hab, if_pos hab.symm]
      · rw [if_neg hab, if_neg (Ne.symm hab)]

/-- As many components of the second list as are alike are those of the first one. -/
theorem compare_take (h : compare as bs = some k) : bs.take n <+: as ↔ n ≤ k := by
  induction as generalizing bs k n with
  | nil => cases h
  | cons a as ih =>
    cases bs with
    | nil => cases h
    | cons b bs =>
      cases n with
      | zero => exact ⟨fun _ => Nat.zero_le _, fun _ => List.nil_prefix⟩
      | succ n =>
        rw [List.take_succ_cons, List.cons_prefix_cons]
        rw [compare] at h
        by_cases hab : a = b
        · rw [if_pos hab] at h
          obtain ⟨j, hj, rfl⟩ := Option.map_eq_some_iff.mp h
          rw [ih hj, Nat.add_le_add_iff_right]
          exact ⟨fun h => h.2, fun h => ⟨hab.symm, h⟩⟩
        · rw [if_neg hab] at h
          obtain rfl := Option.some.inj h
          exact ⟨fun h => absurd h.1.symm hab, fun h => absurd h (Nat.not_succ_le_zero n)⟩

theorem compare_cut (h : compare as bs = some k) (hk : k < n) : compare (as.take n) bs = some k := by
  induction as generalizing bs k n with
  | nil => cases h
  | cons a as ih =>
    cases bs with
    | nil => cases h
    | cons b bs =>
      obtain ⟨n, rfl⟩ := Nat.exists_eq_add_one.mpr (Nat.zero_lt_of_lt hk)
      rw [List.take_succ_cons, compare]
      rw [compare] at h
      by_cases hab : a = b
      · rw [if_pos hab] at h ⊢
        obtain ⟨j, hj, rfl⟩ := Option.map_eq_some_iff.mp h
        rw [ih hj (Nat.lt_of_succ_lt_succ hk)]
        rfl
      · rwa [if_neg hab] at h ⊢

theorem compare_of_cut (h : compare a b = some k) (hk : k < n) (hp : a.take n <+: p) : compare p b = some k := by
  have hcut := compare_cut h hk
  rw [compare_comm] at hcut ⊢
  exact compare_of_leads hcut hp

/-- A list that shares more with another than with a third parts from the third where the other does. -/
theorem compare_of_lt (hb : compare p b = some k) (ha : compare p a = some c) (h : k < c) : compare a b = some k := by
  have hpre := (compare_take ha).mpr le_rfl
  have hlen : (a.take c).length = c := List.length_take_of_le (compare_lt ha).2.le
  have hsame : p.take c = a.take c := by
    rw [List.prefix_iff_eq_take.mp hpre, hlen]
  refine compare_of_cut hb h ?_
  rw [hsame]
  exact List.take_prefix _ _

def parting : List (List (List Char)) → List (List Char) → Option Nat
  | [], _ => some 0
  | b :: prev, a => do return max (← compare a b) (← parting prev a)

theorem parting_cons (h : parting (b :: prev) a = some m) :
    ∃ j k, compare a b = some j ∧ parting prev a = some k ∧ m = max j k := by
  rw [parting] at h
  obtain ⟨j, hj, h⟩ := Option.bind_eq_some_iff.mp h
  obtain ⟨k, hk, h⟩ := Option.bind_eq_some_iff.mp h
  exact ⟨j, k, hj, hk, (Option.some.inj h).symm⟩

theorem parting_of_cons {j : Nat} (hj : compare a b = some j) (hk : parting prev a = some k) :
    parting (b :: prev) a = some (max j k) := by
  rw [parting, hj, hk]
  rfl

theorem compare_le_parting {j : Nat} (h : parting prev a = some m) (hb : b ∈ prev) (hj : compare a b = some j) : j ≤ m := by
  induction prev generalizing m with
  | nil => cases hb
  | cons b' prev ih =>
    obtain ⟨i, k, hi, hk, rfl⟩ := parting_cons h
    rcases List.mem_cons.mp hb with rfl | hb
    · rw [Option.some.inj (hj.symm.trans hi)]
      exact le_max_left _ _
    · exact (ih hk hb).trans (le_max_right _ _)

theorem compare_of_parting (h : parting prev a = some m) (hb : b ∈ prev) : ∃ j, compare a b = some j := by
  induction prev generalizing m with
  | nil => cases hb
  | cons b' prev ih =>
    obtain ⟨i, k, hi, hk, rfl⟩ := parting_cons h
    rcases List.mem_cons.mp hb with rfl | hb
    · exact ⟨i, hi⟩
    · exact ih hk hb

theorem parting_of_lt (hp : parting prev p = some m) (hc : compare p a = some c) (h : m < c) : parting prev a = some m := by
  induction prev generalizing m with
  | nil => exact hp
  | cons b prev ih =>
    obtain ⟨j, k, hj, hk, rfl⟩ := parting_cons hp
    exact parting_of_cons (compare_of_lt hj hc ((le_max_left _ _).trans_lt h)) (ih hk ((le_max_right _ _).trans_lt h))

theorem parting_of_cut (ha : parting prev a = some m) (hm : m < n) (hp : a.take n <+: p) : parting prev p = some m := by
  induction prev generalizing m with
  | nil => exact ha
  | cons b prev ih =>
    obtain ⟨j, k, hj, hk, rfl⟩ := parting_cons ha
    exact parting_of_cons (compare_of_cut hj ((le_max_left _ _).trans_lt hm) hp) (ih hk ((le_max_right _ _).trans_lt hm))

/-- The components of a list up to the first that tells it from all earlier ones, none where there is
no other component behind these. -/
def branch (prev : List (List (List Char))) (a : List (List Char)) : Option (List (List Char)) := do
  let k ← parting prev a
  if k + 1 < a.length then return a.take (k + 1) else none

theorem branch_eq_some : branch prev a = some q ↔ ∃ k, parting prev a = some k ∧ k + 1 < a.length ∧ a.take (k + 1) = q := by
  unfold branch
  refine Option.bind_eq_some_iff.trans (exists_congr fun k => and_congr_right fun _ => ?_)
  by_cases hk : k + 1 < a.length
  · rw [if_pos hk]
    exact ⟨fun h => ⟨hk, Option.some.inj h⟩, fun h => congrArg some h.2⟩
  · rw [if_neg hk]
    exact ⟨fun h => absurd h.symm (Option.some_ne_none q), fun h => absurd h.1 hk⟩

/-- A list shares more components with a path than all earlier ones just when the path leads along its
own branch. -/
theorem branch_taken (hp : parting prev p = some m) (hc : compare p a = some c) :
    m < c ↔ ∃ q, branch prev a = some q ∧ q <+: p := by
  constructor
  · intro h
    refine ⟨_, branch_eq_some.mpr ⟨m, parting_of_lt hp hc h, lt_of_le_of_lt h (compare_lt hc).2, rfl⟩, ?_⟩
    exact (compare_take hc).mpr h
  · rintro ⟨q, hq, hpre⟩
    obtain ⟨k, hk, _, rfl⟩ := branch_eq_some.mp hq
    have hm := parting_of_cut hk (Nat.lt_succ_self k) hpre
    obtain rfl := Option.some.inj (hm.symm.trans hp)
    exact (compare_take hc).mp hpre

end Branches

section Search

variable {M : Type} {p : Ptr} {d t : List Char} {m : M} {s : LookupState M} {best c k : Nat}

/-- How many components the best match so far shares with the path, the root directory apart. -/
structure Counted (best : Nat) (s : LookupState M) : Prop where
  root : s.ismatchs = true → s.lmatch = 1 ∧ best = 0
  other : s.ismatchs = false → s.lmatch = best

theorem Counted.better (h : Counted best s) : Better c s ↔ best < c := by
  unfold Better
  cases hs : s.ismatchs with
  | true =>
    obtain ⟨hmatch, hbest⟩ := h.root hs
    rw [hmatch, hbest]
    constructor
    · rintro (h | ⟨h, _⟩) <;> omega
    · exact fun h => .inr ⟨h, rfl⟩
  | false =>
    rw [h.other hs]
    exact ⟨fun h => h.resolve_right fun h => Bool.noConfusion h.2, .inl⟩

theorem Counted.zero : Counted 0 (⟨0, false, none⟩ : LookupState M) := ⟨fun h => Bool.noConfusion h, fun _ => rfl⟩

/-- What a mount point that is not the path itself does to the variables of the search. -/
theorem lookupStep_eq [MountPoint M] (hp : Holds p d) (hm : Holds (MountPoint.buffer m) t) (hs : Counted best s) :
    lookupStep p m s =
      if t = ['/'] then .ok (if best = 0 then ⟨1, true, some (m, some p.tail)⟩ else s)
      else match compare (components p) (components (MountPoint.buffer m)) with
        | none => behind
        | some c =>
          if best < c then (relSearch c (some p.tail)).map fun e => ⟨c, false, some (m, e.map List.tail)⟩
          else .ok s := by
  unfold lookupStep
  rw [componentsMatch_eq hp hm, strcmp_holds hm holds_root]
  by_cases hroot : t = ['/']
  · rw [if_pos hroot, if_pos hroot, if_pos hroot]
    dsimp only [bind, Except.bind, pure, Except.pure]
    have hbetter : Better 1 s ↔ best = 0 := hs.better.trans Nat.lt_one_iff
    by_cases hbest : best = 0
    · rw [if_pos (show 1 > s.lmatch ∨ (1 ≥ s.lmatch ∧ s.ismatchs = true) from hbetter.mpr hbest), if_pos hbest]
      rfl
    · rw [if_neg (show ¬(1 > s.lmatch ∨ (1 ≥ s.lmatch ∧ s.ismatchs = true)) from fun h => hbest (hbetter.mp h)),
        if_neg hbest]
  · rw [if_neg hroot, if_neg hroot, if_neg hroot]
    cases compare (components p) (components (MountPoint.buffer m)) with
    | none => rfl
    | some c =>
      dsimp only [bind, Except.bind, pure, Except.pure, outcome]
      by_cases hbest : best < c
      · rw [if_pos (show c > s.lmatch ∨ (c ≥ s.lmatch ∧ s.ismatchs = true) from hs.better.mpr hbest), if_pos hbest]
        cases relSearch c (some p.tail) <;> rfl
      · rw [if_neg (show ¬(c > s.lmatch ∨ (c ≥ s.lmatch ∧ s.ismatchs = true)) from fun h => hbest (hs.better.mp h)),
          if_neg hbest]

theorem strchr_ok {a : List Char} (ha : Terminated a) (u : List Char) (c : Char) :
    ∃ r, strchr (a ++ '\x00' :: u) c = .ok r := by
  obtain ⟨r, hr⟩ := Strings.strchr_terminated ha.noNul u c
  exact ⟨r, congrArg inBuffer hr⟩

/-- The search for the relative part, as often as components of the path can match. -/
theorem relSearch_ok (hd : Terminated d) (hne : d ≠ []) (hk : k ≤ (components (buffered d)).length) (u : List Char) :
    ∃ r, relSearch k (some (d ++ '\x00' :: u).tail) = .ok r := by
  obtain ⟨c, t, rfl⟩ := List.exists_cons_of_ne_nil hne
  have ht : Terminated t := fun x hx => hd x (List.mem_cons_of_mem _ hx)
  rw [List.cons_append, List.tail_cons]
  rcases Nat.lt_or_ge 1 k with hmore | hless
  · obtain ⟨pre, post, hsplit, hno⟩ := List.eq_append_cons_of_mem (slash_mem hd (hmore.trans_le hk))
    rw [List.tail_cons] at hsplit
    have hpre : Terminated pre := fun x hx => ht x (by
      rw [hsplit]
      exact List.mem_append_left _ hx)
    have hfirst : strchr (t ++ '\x00' :: u) '/' = .ok (some ('/' :: (post ++ '\x00' :: u))) := by
      rw [hsplit, List.append_assoc, List.cons_append]
      exact strchr_eq (by decide) hpre hno
    obtain ⟨j, rfl⟩ := Nat.exists_eq_add_one.mpr (show 0 < k by omega)
    rw [relSearch, hfirst]
    exact ⟨_, relSearch_slash j _⟩
  · obtain ⟨r, hr⟩ := strchr_ok ht u '/'
    cases k with
    | zero => exact ⟨_, rfl⟩
    | succ k =>
      obtain rfl : k = 0 := by omega
      rw [relSearch, hr]
      exact ⟨r, rfl⟩

theorem strchr_found {r : Ptr} {x : Char} (h : strchr p x = .ok (some r)) : ∃ u, r = x :: u := by
  cases hfound : Strings.strchr p x with
  | none =>
    rw [strchr, hfound] at h
    cases h
  | some r' =>
    rw [strchr, hfound] at h
    exact Strings.strchr_found (hfound.trans (congrArg some (Except.ok.inj h)))

/-- Behind its first step the search for the relative part stays where it is, or fails. -/
theorem relSearch_more (e : Option Ptr) (j k : Nat) : relSearch (j + 2) e = relSearch (k + 2) e := by
  cases e with
  | none => rfl
  | some e =>
    rw [relSearch, relSearch]
    cases hfirst : strchr e '/' with
    | error fault => rfl
    | ok r =>
      dsimp only [bind, Except.bind]
      cases r with
      | none => rfl
      | some r =>
        obtain ⟨u, rfl⟩ := strchr_found hfirst
        rw [relSearch_slash, relSearch_slash]

end Search

end YggKernel.Vfs
