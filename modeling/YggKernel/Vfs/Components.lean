import YggKernel.Vfs.Lookup

namespace YggKernel.Vfs

section Pieces

variable {a u : List Char} {x : Char}

def IsStop (c : Char) : Prop := c = '/' ∨ c = '\x00'

instance (c : Char) : Decidable (IsStop c) := inferInstanceAs (Decidable (c = '/' ∨ c = '\x00'))

def pieces : Ptr → List (List Char)
  | [] => []
  | x :: s =>
    if IsStop x then [] :: pieces s
    else match pieces s with
      | [] => [[x]]
      | c :: cs => (x :: c) :: cs

theorem pieces_append (ha : ∀ c ∈ a, ¬IsStop c) (hx : IsStop x) : pieces (a ++ x :: u) = a :: pieces u := by
  induction a with
  | nil => exact if_pos hx
  | cons c a ih =>
    have hc := ha c (List.mem_cons_self ..)
    rw [List.cons_append, pieces, if_neg hc, ih fun d hd => ha d (List.mem_cons_of_mem _ hd)]

def Closed (p : Ptr) : Prop := p = [] ∨ p.getLast? = some '\x00'

theorem closed_append (q : List Char) : Closed (q ++ ['\x00']) := .inr (by rw [List.getLast?_append]; rfl)

theorem closed_cases {p : Ptr} (h : Closed p) (hne : p ≠ []) :
    ∃ a x u, p = a ++ x :: u ∧ (∀ c ∈ a, ¬IsStop c) ∧ IsStop x ∧ Closed u := by
  induction p with
  | nil => exact absurd rfl hne
  | cons c p ih =>
    have htail : Closed p := by
      rcases h with h | h
      · cases h
      · cases p with
        | nil => exact .inl rfl
        | cons d p => exact .inr (by rwa [List.getLast?_cons_cons] at h)
    by_cases hc : IsStop c
    · exact ⟨[], c, p, rfl, (fun _ hd => nomatch hd), hc, htail⟩
    · have hp : p ≠ [] := by
        rintro rfl
        have hlast := h.resolve_left (List.cons_ne_nil c [])
        exact hc (.inr (Option.some.inj hlast))
      obtain ⟨a, x, u, rfl, ha, hx, hu⟩ := ih htail hp
      refine ⟨c :: a, x, u, rfl, fun d hd => ?_, hx, hu⟩
      rcases List.mem_cons.mp hd with rfl | hd
      · exact hc
      · exact ha d hd

theorem terminated_of_noStop (ha : ∀ c ∈ a, ¬IsStop c) : Terminated a := fun c hc h => ha c hc (.inr h)

theorem strchrnul_stop (ha : ∀ c ∈ a, ¬IsStop c) (hx : IsStop x) : strchrnul (a ++ x :: u) '/' = .ok (x :: u) := by
  rw [strchrnul_skip (terminated_of_noStop ha) fun h => ha '/' h (.inl rfl)]
  exact strchrnul_here hx.symm

end Pieces

section Comparison

variable {as bs : List (List Char)}

/-- How many pieces are alike before the first that differs, none where one list ends first. -/
def compare : List (List Char) → List (List Char) → Option Nat
  | a :: as, b :: bs => if a = b then (compare as bs).map (· + 1) else some 0
  | _, _ => none

theorem compare_eq_none : compare as bs = none ↔ as <+: bs ∨ bs <+: as := by
  induction as generalizing bs with
  | nil => exact ⟨fun _ => .inl List.nil_prefix, fun _ => rfl⟩
  | cons a as ih =>
    cases bs with
    | nil => exact ⟨fun _ => .inr List.nil_prefix, fun _ => rfl⟩
    | cons b bs =>
      rw [compare, List.cons_prefix_cons, List.cons_prefix_cons]
      by_cases hab : a = b
      · rw [if_pos hab, Option.map_eq_none_iff, ih]
        simp [hab]
      · simp [hab, Ne.symm hab]

theorem compare_lt {k : Nat} (h : compare as bs = some k) : k < as.length ∧ k < bs.length := by
  induction as generalizing bs k with
  | nil => cases h
  | cons a as ih =>
    cases bs with
    | nil => cases h
    | cons b bs =>
      rw [compare] at h
      by_cases hab : a = b
      · rw [if_pos hab] at h
        obtain ⟨j, hj, rfl⟩ := Option.map_eq_some_iff.mp h
        have := ih hj
        exact ⟨Nat.succ_lt_succ this.1, Nat.succ_lt_succ this.2⟩
      · rw [if_neg hab] at h
        obtain rfl := Option.some.inj h
        exact ⟨Nat.succ_pos _, Nat.succ_pos _⟩

/-- A list that goes on behind another is compared alike where the other one differs. -/
theorem compare_of_leads {cs : List (List Char)} {k : Nat} (h : compare as bs = some k) (hpre : bs <+: cs) :
    compare as cs = some k := by
  induction as generalizing bs cs k with
  | nil => cases h
  | cons a as ih =>
    cases bs with
    | nil => cases h
    | cons b bs =>
      obtain ⟨t, rfl⟩ := hpre
      rw [List.cons_append, compare]
      rw [compare] at h
      by_cases hab : a = b
      · rw [if_pos hab] at h ⊢
        obtain ⟨j, hj, rfl⟩ := Option.map_eq_some_iff.mp h
        rw [ih hj (List.prefix_append bs t)]
        rfl
      · rwa [if_neg hab] at h ⊢

def outcome : Option Nat → Res Nat
  | some k => .ok k
  | none => behind

theorem matchLoop_eq {n : Nat} {p0 p1 : Ptr} (hn : p0.length < n) (h0 : Closed p0) (h1 : Closed p1) :
    matchLoop n p0 p1 = outcome (compare (pieces p0) (pieces p1)) := by
  induction n generalizing p0 p1 with
  | zero => cases hn
  | succ n ih =>
    rw [matchLoop]
    by_cases hp0 : p0 = []
    · rw [hp0]
      rfl
    obtain ⟨a, x, u, rfl, ha, hx, hu⟩ := closed_cases h0 hp0
    rw [strchrnul_stop ha hx, pieces_append ha hx]
    by_cases hp1 : p1 = []
    · rw [hp1]
      rfl
    obtain ⟨b, y, v, rfl, hb, hy, hv⟩ := closed_cases h1 hp1
    rw [strchrnul_stop hb hy, pieces_append hb hy, compare]
    dsimp only [bind, Except.bind, pure, Except.pure]
    rw [List.length_append, List.length_append, Nat.add_sub_cancel, Nat.add_sub_cancel]
    by_cases hlen : a.length = b.length
    · rw [if_pos hlen.symm, strncmp_prefix (terminated_of_noStop ha) (terminated_of_noStop hb) hlen]
      dsimp only
      by_cases hab : a = b
      · rw [List.length_append, List.length_cons] at hn
        rw [if_pos hab, if_pos rfl, if_pos hab, List.tail_cons, List.tail_cons, ih (by omega) hu hv]
        cases compare (pieces u) (pieces v) <;> rfl
      · rw [if_neg hab, if_neg (by decide), if_neg hab]
        rfl
    · rw [if_neg (Ne.symm hlen), if_neg fun hab => hlen (by rw [hab])]
      rfl

end Comparison

section Matching

variable {M : Type} [MountPoint M] {path : Ptr} {m : M} {s : LookupState M}

def components (p : Ptr) : List (List Char) := pieces (if p.head? = some '/' then p.tail else p)

/-- The contents of a buffer and what stands behind its terminator, which ends in a zero too. -/
structure Holds (p : Ptr) (text : List Char) : Prop where
  terminated : Terminated text
  buffer : ∃ rest, p = text ++ '\x00' :: rest
  closed : Closed p
  short : text.length < 0xFFFFFFFF

theorem holds_tail {p : Ptr} {text : List Char} (h : Holds p text) :
    ∃ q, skipSlash p = .ok q ∧ pieces q = components p ∧ Closed q ∧ q.length ≤ p.length := by
  obtain ⟨rest, hp⟩ := h.buffer
  cases p with
  | nil => exact absurd hp (by cases text <;> exact fun hh => nomatch hh)
  | cons c p =>
    by_cases hc : c = '/'
    · refine ⟨p, by rw [skipSlash, if_pos hc], by rw [components, List.head?_cons, if_pos (by rw [hc])]; rfl, ?_,
        Nat.le_succ _⟩
      have hclosed := h.closed
      cases p with
      | nil => exact .inl rfl
      | cons d p =>
        rcases hclosed with hnil | hlast
        · cases hnil
        · exact .inr (by rwa [List.getLast?_cons_cons] at hlast)
    · exact ⟨c :: p, by rw [skipSlash, if_neg hc], by rw [components, List.head?_cons, if_neg fun hh => hc (Option.some.inj hh)],
        h.closed, le_rfl⟩

theorem strcmp_holds {p q : Ptr} {a b : List Char} (hp : Holds p a) (hq : Holds q b) :
    strcmp p q = .ok (if a = b then 0 else 1) := by
  obtain ⟨u, rfl⟩ := hp.buffer
  obtain ⟨v, rfl⟩ := hq.buffer
  exact strcmp_eq hp.terminated hq.terminated hp.short

theorem holds_root : Holds ['/', '\x00'] ['/'] := ⟨by decide, ⟨[], rfl⟩, .inr rfl, by decide⟩

theorem componentsMatch_eq {p q : Ptr} {a b : List Char} (hp : Holds p a) (hq : Holds q b) : vfsComponentsMatch p q =
    if b = ['/'] then .ok 1 else outcome (compare (components p) (components q)) := by
  obtain ⟨p', hskip, hpieces, hclosed, _⟩ := holds_tail hp
  obtain ⟨q', hskip', hpieces', hclosed', _⟩ := holds_tail hq
  unfold vfsComponentsMatch
  rw [strcmp_holds hq holds_root]
  dsimp only [bind, Except.bind, pure, Except.pure]
  by_cases hroot : b = ['/']
  · rw [if_pos hroot, if_pos hroot, if_pos rfl]
  · rw [if_neg hroot, if_neg hroot, if_neg (by decide), hskip, hskip']
    dsimp only
    rw [matchLoop_eq (Nat.lt_succ_self _) hclosed hclosed', hpieces, hpieces']

end Matching

section Steps

variable {M : Type} [MountPoint M] {t : List Char} {m : M} {s : LookupState M}

def buffered (t : List Char) : Ptr := t ++ ['\x00']

theorem holds_buffered (ht : Terminated t) (hlen : t.length < 0xFFFFFFFF) : Holds (buffered t) t :=
  ⟨ht, ⟨[], rfl⟩, closed_append t, hlen⟩

theorem pieces_single {w : List Char} (hw : Terminated w) (hno : '/' ∉ w) : pieces (buffered w) = [w] :=
  pieces_append (fun c hc hstop => hstop.elim (fun h => hno (h ▸ hc)) (hw c hc)) (.inr rfl)

theorem components_slash (t : List Char) : components ('/' :: t) = pieces t := by
  unfold components
  exact congrArg pieces (if_pos rfl)

theorem components_other {c : Char} (hc : c ≠ '/') (t : List Char) : components (c :: t) = pieces (c :: t) := by
  unfold components
  exact congrArg pieces (if_neg fun hh => hc (Option.some.inj hh))

/-- A path of more than one component has a slash that is not its first character. -/
theorem slash_mem (ht : Terminated t) (h : 1 < (components (buffered t)).length) : '/' ∈ t.tail := by
  by_contra hno
  cases t with
  | nil => exact absurd h (by decide)
  | cons c t =>
    have hno' : '/' ∉ t := hno
    have htail : Terminated t := fun d hd => ht d (List.mem_cons_of_mem _ hd)
    by_cases hc : c = '/'
    · rw [hc] at h
      have hone : components (buffered ('/' :: t)) = [t] := (components_slash _).trans (pieces_single htail hno')
      rw [hone] at h
      exact absurd h (Nat.lt_irrefl 1)
    · have hno'' : '/' ∉ c :: t := fun hmem => (List.mem_cons.mp hmem).elim (fun h => hc h.symm) hno'
      have hone : components (buffered (c :: t)) = [c :: t] := (components_other hc _).trans (pieces_single ht hno'')
      rw [hone] at h
      exact absurd h (Nat.lt_irrefl 1)

/-- The relative part that is looked for after at least one match lies in the path. -/
theorem relSearch_inside {k : Nat} (ht : Terminated t) (hk : 0 < k) (h : k < (components (buffered t)).length) :
    ∃ u, u ≠ [] ∧ u <:+ buffered t ∧ relSearch k (some (buffered t).tail) = .ok (some ('/' :: u)) := by
  obtain ⟨pre, post, hsplit, hno⟩ := List.eq_append_cons_of_mem (slash_mem ht (by omega))
  obtain ⟨c, t, rfl⟩ : ∃ c r, t = c :: r := by
    cases t with
    | nil => cases pre <;> cases hsplit
    | cons c t => exact ⟨c, t, rfl⟩
  rw [List.tail_cons] at hsplit
  have htail : (buffered (c :: t)).tail = pre ++ '/' :: buffered post := by
    rw [buffered, List.cons_append, List.tail_cons, hsplit, List.append_assoc]
    rfl
  have hpre : Terminated pre := fun d hd => ht d (by
    rw [hsplit]
    exact List.mem_cons_of_mem _ (List.mem_append_left _ hd))
  have hfirst : strchr (pre ++ '/' :: buffered post) '/' = .ok (some ('/' :: buffered post)) :=
    strchr_eq (by decide) hpre hno
  obtain ⟨j, rfl⟩ := Nat.exists_eq_add_one.mpr hk
  refine ⟨buffered post, List.append_ne_nil_of_right_ne_nil _ (by decide), ⟨c :: (pre ++ ['/']), ?_⟩, ?_⟩
  · rw [List.cons_append, List.append_assoc, List.singleton_append, ← htail]
    rfl
  · rw [htail, relSearch, hfirst]
    exact relSearch_slash j _

def Better (count : Nat) (s : LookupState M) : Prop := count > s.lmatch ∨ (count ≥ s.lmatch ∧ s.ismatchs = true)

instance (count : Nat) (s : LookupState M) : Decidable (Better count s) :=
  inferInstanceAs (Decidable (count > s.lmatch ∨ (count ≥ s.lmatch ∧ s.ismatchs = true)))

theorem lookupStep_root {d : List Char} (ht : Holds (buffered t) t) (hm : Holds (MountPoint.buffer m) d) (hroot : d = ['/']) :
    lookupStep (buffered t) m s =
      .ok (if Better 1 s then ⟨1, true, some (m, some (buffered t).tail)⟩ else s) := by
  unfold lookupStep
  rw [componentsMatch_eq ht hm, if_pos hroot, strcmp_holds hm holds_root, if_pos hroot]
  dsimp only [bind, Except.bind, pure, Except.pure]
  by_cases hbetter : Better 1 s
  · rw [if_pos hbetter]
    exact (if_pos hbetter).trans rfl
  · rw [if_neg hbetter]
    exact if_neg hbetter

theorem lookupStep_behind {d : List Char} (ht : Holds (buffered t) t) (hm : Holds (MountPoint.buffer m) d) (hroot : d ≠ ['/'])
    (hnone : compare (components (buffered t)) (components (MountPoint.buffer m)) = none) :
    lookupStep (buffered t) m s = behind := by
  unfold lookupStep
  rw [componentsMatch_eq ht hm, if_neg hroot, hnone]
  rfl

theorem lookupStep_matched {d : List Char} {k : Nat} (ht : Holds (buffered t) t) (hm : Holds (MountPoint.buffer m) d)
    (hroot : d ≠ ['/']) (hs : RootCounted s)
    (hk : compare (components (buffered t)) (components (MountPoint.buffer m)) = some k) :
    ∃ u, u ≠ [] ∧ u <:+ buffered t ∧ lookupStep (buffered t) m s =
      .ok (if Better k s then ⟨k, false, some (m, some u)⟩ else s) := by
  unfold lookupStep
  rw [componentsMatch_eq ht hm, if_neg hroot, hk, strcmp_holds hm holds_root, if_neg hroot]
  dsimp only [bind, Except.bind, pure, Except.pure, outcome]
  by_cases hbetter : Better k s
  · have hpos : 0 < k := by
      rcases hbetter with h | ⟨h, hflag⟩
      · omega
      · have := hs hflag
        omega
    obtain ⟨u, hne, hsuffix, hrel⟩ := relSearch_inside ht.terminated hpos (compare_lt hk).1
    refine ⟨u, hne, hsuffix, ?_⟩
    rw [hrel, if_pos hbetter]
    exact if_pos hbetter
  · refine ⟨buffered t, List.append_ne_nil_of_right_ne_nil _ (by decide), List.suffix_rfl, ?_⟩
    rw [if_neg hbetter]
    exact if_neg hbetter

end Steps

end YggKernel.Vfs
