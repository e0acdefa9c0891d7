import YggKernel.Vfs.Lookup

namespace YggKernel.Vfs

/-- What one mount point does to the variables of the search, when the path does not lie above it. -/
def pick (p : Path) (s : LookupState Mount) (m : Mount) : LookupState Mount :=
  if m.dst = [] then
    if 1 > s.lmatch ∨ (1 ≥ s.lmatch ∧ s.ismatchs = true) then ⟨1, true, some (m, some (relative p ++ ['\x00']))⟩ else s
  else if common p m.dst > s.lmatch ∨ (common p m.dst ≥ s.lmatch ∧ s.ismatchs = true) then
    ⟨common p m.dst, false, some (m, some (relative p.tail ++ ['\x00']))⟩
  else s

def start : LookupState Mount := ⟨0, false, none⟩

theorem rootCounted_start : RootCounted start := fun h => Bool.noConfusion h

section Loop

variable {p : Path} {m : Mount} {s : LookupState Mount} {mounts : List Mount}

theorem common_nil (p : Path) : common p [] = 0 := by cases p <;> rfl

theorem pick_rootCounted (h : RootCounted s) : RootCounted (pick p s m) := by
  unfold pick
  split
  · split
    · exact fun _ => le_rfl
    · exact h
  · split
    · exact fun hfalse => Bool.noConfusion hfalse
    · exact h

/-- A path with a common component that does not lie above the mount point goes on behind it. -/
theorem tail_ne_nil {p d : Path} (hpre : ¬p <+: d) (hcommon : 0 < common p d) :
    ∃ c cs, p = c :: cs ∧ cs ≠ [] := by
  cases p with
  | nil => exact absurd List.nil_prefix hpre
  | cons c cs =>
    refine ⟨c, cs, rfl, fun hcs => ?_⟩
    cases d with
    | nil => cases hcommon
    | cons e es =>
      by_cases hce : c = e
      · rw [hcs, hce] at hpre
        exact hpre (List.cons_prefix_cons.mpr ⟨rfl, List.nil_prefix⟩)
      · rw [common, if_neg hce] at hcommon
        cases hcommon

theorem lookupStep_apart (hp : p ≠ []) (hpre : ¬p <+: m.dst) (hs : RootCounted s) :
    lookupStep (pathBuffer p) m s = .ok (pick p s m) := by
  unfold lookupStep pick
  rw [mountPoint_buffer]
  by_cases hroot : m.dst = []
  · rw [componentsMatch_root hroot, strcmp_root, if_pos hroot, if_pos hroot]
    dsimp only [bind, Except.bind, pure, Except.pure]
    by_cases hbetter : 1 > s.lmatch ∨ (1 ≥ s.lmatch ∧ s.ismatchs = true)
    · rw [if_pos hbetter, if_pos hbetter, if_neg (by decide)]
      rfl
    · rw [if_neg hbetter, if_neg hbetter]
  · rw [componentsMatch_apart hp hroot hpre, strcmp_root, if_neg hroot, if_neg hroot]
    dsimp only [bind, Except.bind, pure, Except.pure]
    by_cases hbetter : common p m.dst > s.lmatch ∨ (common p m.dst ≥ s.lmatch ∧ s.ismatchs = true)
    · have hpos : 0 < common p m.dst := by
        rcases hbetter with h | ⟨h, hflag⟩
        · omega
        · exact (hs hflag).trans h
      obtain ⟨c, cs, rfl, hcs⟩ := tail_ne_nil hpre hpos
      rw [if_pos hbetter, if_pos hbetter, if_pos (by decide)]
      have hrel := relSearch_path hpos c hcs ['\x00']
      unfold pathBuffer absolute
      rw [List.cons_append, List.tail_cons, hrel]
      rfl
    · rw [if_neg hbetter, if_neg hbetter]

theorem lookupStep_below (hp : p ≠ []) (hne : m.dst ≠ p) (hpre : p <+: m.dst) :
    lookupStep (pathBuffer p) m s = behind := by
  unfold lookupStep
  rw [mountPoint_buffer, componentsMatch_below hp hne hpre]
  rfl

theorem lookupStep_top (hroot : m.dst ≠ []) : lookupStep (pathBuffer []) m start = .ok start := by
  unfold lookupStep
  rw [mountPoint_buffer, componentsMatch_top hroot]
  rfl

theorem lookupLoop_cons (hne : m.dst ≠ p) :
    lookupLoop (pathBuffer p) (m :: mounts) s = (lookupStep (pathBuffer p) m s).bind (lookupLoop (pathBuffer p) mounts) := by
  rw [lookupLoop, mountPoint_buffer, strcmp_path, if_neg hne]
  rfl

theorem lookupLoop_found (heq : m.dst = p) :
    lookupLoop (pathBuffer p) (m :: mounts) s = .ok ⟨10000, s.ismatchs, some (m, some ['\x00'])⟩ := by
  have hend : strEnd (pathBuffer p) = ['\x00'] := strEnd_append (terminated_absolute p)
  rw [lookupLoop, mountPoint_buffer, strcmp_path, if_pos heq, hend]
  rfl

theorem lookupLoop_append {l : List Mount} (hp : p ≠ []) (hl : ∀ m ∈ l, ¬p <+: m.dst) (hs : RootCounted s) :
    lookupLoop (pathBuffer p) (l ++ mounts) s = lookupLoop (pathBuffer p) mounts (l.foldl (pick p) s) := by
  induction l generalizing s with
  | nil => rfl
  | cons m l ih =>
    have hpre := hl m (List.mem_cons_self ..)
    rw [List.cons_append, lookupLoop_cons fun h => hpre (h ▸ List.prefix_rfl), lookupStep_apart hp hpre hs]
    exact ih (fun m' hm' => hl m' (List.mem_cons_of_mem _ hm')) (pick_rootCounted hs)

/-- A mount point below the path, met before the path itself, ends the loop with a fault. -/
theorem lookupLoop_below (hp : p ≠ []) (hne : ∀ m ∈ mounts, m.dst ≠ p) (hbelow : ∃ m ∈ mounts, p <+: m.dst)
    (hs : RootCounted s) (l : List Mount) : lookupLoop (pathBuffer p) (mounts ++ l) s = behind := by
  induction mounts generalizing s with
  | nil => exact absurd hbelow fun ⟨_, h, _⟩ => nomatch h
  | cons m rest ih =>
    have hm := hne m (List.mem_cons_self ..)
    rw [List.cons_append, lookupLoop_cons hm]
    by_cases hpre : p <+: m.dst
    · rw [lookupStep_below hp hm hpre]
      rfl
    · rw [lookupStep_apart hp hpre hs]
      refine ih (fun m' hm' => hne m' (List.mem_cons_of_mem _ hm')) ?_ (pick_rootCounted hs)
      obtain ⟨m', hm', hpre'⟩ := hbelow
      rcases List.mem_cons.mp hm' with rfl | h
      · exact absurd hpre' hpre
      · exact ⟨m', h, hpre'⟩

end Loop

section Choice

variable {p : Path} {mounts : List Mount}

structure Quiet (p : Path) (l : List Mount) (s : LookupState Mount) : Prop where
  apart : ∀ m ∈ l, common p m.dst = 0
  state : (s = start ∧ ∀ m ∈ l, m.dst ≠ []) ∨
    ∃ m ∈ l, m.dst = [] ∧ s = ⟨1, true, some (m, some (relative p ++ ['\x00']))⟩

structure Picked (p : Path) (l₁ : List Mount) (m : Mount) (l₂ : List Mount) (s : LookupState Mount) : Prop where
  shared : 0 < common p m.dst
  before : ∀ m' ∈ l₁, common p m'.dst < common p m.dst
  after : ∀ m' ∈ l₂, common p m'.dst ≤ common p m.dst
  state : s = ⟨common p m.dst, false, some (m, some (relative p.tail ++ ['\x00']))⟩

def Chosen (p : Path) (l : List Mount) (s : LookupState Mount) : Prop :=
  Quiet p l s ∨ ∃ l₁ m l₂, l = l₁ ++ m :: l₂ ∧ Picked p l₁ m l₂ s

theorem quiet_pick {l : List Mount} {s : LookupState Mount} {m : Mount} (h : Quiet p l s) :
    Chosen p (l ++ [m]) (pick p s m) := by
  by_cases hroot : m.dst = []
  · have hzero : common p m.dst = 0 := by rw [hroot, common_nil]
    have hstate : pick p s m = ⟨1, true, some (m, some (relative p ++ ['\x00']))⟩ := by
      unfold pick
      rw [if_pos hroot]
      rcases h.state with ⟨rfl, _⟩ | ⟨_, _, _, rfl⟩
      · exact if_pos (.inl (by decide))
      · exact if_pos (.inr ⟨le_rfl, rfl⟩)
    refine .inl ⟨fun m' hm' => ?_, .inr ⟨m, List.mem_append_right _ (List.mem_singleton_self m), hroot, hstate⟩⟩
    rcases List.mem_append.mp hm' with hm' | hm'
    · exact h.apart m' hm'
    · rw [List.mem_singleton.mp hm', hzero]
  by_cases hzero : common p m.dst = 0
  · have hstate : pick p s m = s := by
      unfold pick
      rw [if_neg hroot, hzero]
      rcases h.state with ⟨rfl, _⟩ | ⟨_, _, _, rfl⟩
      · exact if_neg (by decide)
      · refine if_neg fun hor => ?_
        dsimp only at hor
        omega
    rw [hstate]
    refine .inl ⟨fun m' hm' => ?_, ?_⟩
    · rcases List.mem_append.mp hm' with hm' | hm'
      · exact h.apart m' hm'
      · rw [List.mem_singleton.mp hm', hzero]
    · rcases h.state with ⟨hs, hall⟩ | ⟨m', hm', hroot', hs⟩
      · refine .inl ⟨hs, fun m' hm' => ?_⟩
        rcases List.mem_append.mp hm' with hm' | hm'
        · exact hall m' hm'
        · rw [List.mem_singleton.mp hm']
          exact hroot
      · exact .inr ⟨m', List.mem_append_left _ hm', hroot', hs⟩
  · have hpos : 0 < common p m.dst := Nat.pos_of_ne_zero hzero
    have hstate : pick p s m = ⟨common p m.dst, false, some (m, some (relative p.tail ++ ['\x00']))⟩ := by
      unfold pick
      rw [if_neg hroot]
      rcases h.state with ⟨rfl, _⟩ | ⟨_, _, _, rfl⟩
      · exact if_pos (.inl hpos)
      · exact if_pos (.inr ⟨hpos, rfl⟩)
    refine .inr ⟨l, m, [], rfl, hpos, fun m' hm' => ?_, (fun m' hm' => nomatch hm'), hstate⟩
    rw [h.apart m' hm']
    exact hpos

theorem picked_pick {l₁ l₂ : List Mount} {s : LookupState Mount} {m m' : Mount} (h : Picked p l₁ m l₂ s) :
    Chosen p (l₁ ++ m :: l₂ ++ [m']) (pick p s m') := by
  have hshared := h.shared
  by_cases hmore : common p m.dst < common p m'.dst
  · have hroot : m'.dst ≠ [] := by
      intro hroot
      rw [hroot, common_nil] at hmore
      omega
    have hstate : pick p s m' = ⟨common p m'.dst, false, some (m', some (relative p.tail ++ ['\x00']))⟩ := by
      rw [h.state, pick, if_neg hroot]
      exact if_pos (.inl hmore)
    refine .inr ⟨_, m', [], rfl, by omega, fun x hx => ?_, (fun x hx => nomatch hx), hstate⟩
    rcases List.mem_append.mp hx with hx | hx
    · exact (h.before x hx).trans hmore
    · rcases List.mem_cons.mp hx with rfl | hx
      · exact hmore
      · exact (h.after x hx).trans_lt hmore
  · have hstate : pick p s m' = s := by
      rw [h.state, pick]
      by_cases hroot : m'.dst = []
      · rw [if_pos hroot]
        refine if_neg fun hor => hor.elim (fun h1 => ?_) fun h2 => Bool.noConfusion h2.2
        dsimp only at h1
        omega
      · rw [if_neg hroot]
        exact if_neg fun hor => hor.elim (fun h1 => hmore h1) fun h2 => Bool.noConfusion h2.2
    rw [hstate, List.append_assoc, List.cons_append]
    refine .inr ⟨l₁, m, l₂ ++ [m'], rfl, hshared, h.before, fun x hx => ?_, h.state⟩
    rcases List.mem_append.mp hx with hx | hx
    · exact h.after x hx
    · rw [List.mem_singleton.mp hx]
      omega

theorem chosen_foldl (p : Path) (l : List Mount) : Chosen p l (l.foldl (pick p) start) := by
  induction l using List.reverseRecOn with
  | nil => exact .inl ⟨(fun m hm => nomatch hm), .inl ⟨rfl, fun m hm => nomatch hm⟩⟩
  | append_singleton l m ih =>
    rw [List.foldl_append]
    rcases ih with h | ⟨l₁, m', l₂, hl, h⟩
    · exact quiet_pick h
    · rw [hl]
      rw [hl] at h
      exact picked_pick h

end Choice

section Lookup

variable {p : Path} {mounts : List Mount}

/-- The mount point that the path lies in, and with the most components. -/
structure IsLongest (mounts : List Mount) (p : Path) (m : Mount) : Prop where
  mem : m ∈ mounts
  isPrefix : m.dst <+: p
  longest : ∀ m' ∈ mounts, m'.dst <+: p → m'.dst.length ≤ m.dst.length

/-- The answer that path resolution ought to give. -/
def LookupRight (mounts : List Mount) (p : Path) : Res (Option (Mount × Option Ptr)) → Prop
  | .error _ => False
  | .ok none => ∀ m ∈ mounts, ¬m.dst <+: p
  | .ok (some (m, rel)) => IsLongest mounts p m ∧ rel = some (relative (p.drop m.dst.length) ++ ['\x00'])

/-- The tables that a path is resolved right in: it is the root directory, or it is a mount point
and no mount point before that lies below it, or no mount point shares its first component, or the
first that does has this component only and no other shares two. -/
inductive Resolves (mounts : List Mount) (p : Path) : Prop
  | top (h : p = [])
  | mounted (l₁ : List Mount) (m : Mount) (l₂ : List Mount) (hsplit : mounts = l₁ ++ m :: l₂) (heq : m.dst = p)
      (hbefore : ∀ m' ∈ l₁, ¬p <+: m'.dst)
  | apart (hne : ∀ m ∈ mounts, m.dst ≠ p) (hzero : ∀ m ∈ mounts, common p m.dst = 0)
  | first (hne : ∀ m ∈ mounts, m.dst ≠ p) (l₁ : List Mount) (m : Mount) (l₂ : List Mount)
      (hsplit : mounts = l₁ ++ m :: l₂) (heq : m.dst = p.take 1) (hbefore : ∀ m' ∈ l₁, common p m'.dst = 0)
      (hafter : ∀ m' ∈ l₂, common p m'.dst ≤ 1)

theorem common_eq_length {p d : Path} (h : d <+: p) : common p d = d.length := by
  induction d generalizing p with
  | nil => exact common_nil p
  | cons e es ih =>
    obtain ⟨t, rfl⟩ := h
    rw [List.cons_append, common, if_pos rfl, ih (List.prefix_append es t), List.length_cons]

theorem common_of_below {p d : Path} (h : p <+: d) : common p d = p.length := by
  induction p generalizing d with
  | nil => rfl
  | cons e es ih =>
    obtain ⟨t, rfl⟩ := h
    rw [List.cons_append, common, if_pos rfl, ih (List.prefix_append es t), List.length_cons]

theorem lookupLoop_top (mounts : List Mount) :
    ((∀ m ∈ mounts, m.dst ≠ []) ∧ lookupLoop (pathBuffer []) mounts start = .ok start) ∨
      ∃ m ∈ mounts, m.dst = [] ∧ lookupLoop (pathBuffer []) mounts start = .ok ⟨10000, false, some (m, some ['\x00'])⟩ := by
  induction mounts with
  | nil => exact .inl ⟨(fun m hm => nomatch hm), rfl⟩
  | cons m rest ih =>
    by_cases hroot : m.dst = []
    · exact .inr ⟨m, List.mem_cons_self .., hroot, lookupLoop_found hroot⟩
    · have hstep : lookupLoop (pathBuffer []) (m :: rest) start = lookupLoop (pathBuffer []) rest start := by
        rw [lookupLoop_cons hroot, lookupStep_top hroot]
        rfl
      rw [hstep]
      rcases ih with ⟨hall, h⟩ | ⟨m', hm', h⟩
      · refine .inl ⟨fun m' hm' => ?_, h⟩
        rcases List.mem_cons.mp hm' with rfl | hm'
        · exact hroot
        · exact hall m' hm'
      · exact .inr ⟨m', List.mem_cons_of_mem _ hm', h⟩

theorem vfsLookupFile_of_loop {s : LookupState Mount} (h : lookupLoop (pathBuffer p) mounts start = .ok s) :
    vfsLookupFile (pathBuffer p) mounts = .ok (if s.lmatch = 0 then none else s.found) := by
  unfold start at h
  unfold vfsLookupFile
  rw [h]
  rfl

theorem lookup_top (mounts : List Mount) : LookupRight mounts [] (vfsLookupFile (pathBuffer []) mounts) := by
  rcases lookupLoop_top mounts with ⟨hall, h⟩ | ⟨m, hm, hroot, h⟩
  · rw [vfsLookupFile_of_loop h]
    exact fun m hm hpre => hall m hm (List.prefix_nil.mp hpre)
  · rw [vfsLookupFile_of_loop h]
    refine ⟨⟨hm, hroot ▸ List.prefix_rfl, fun m' _ hpre => ?_⟩, ?_⟩
    · rw [List.prefix_nil.mp hpre, hroot]
    · rw [List.drop_nil]
      rfl

theorem lookup_mounted {l₁ l₂ : List Mount} {m : Mount} (hp : p ≠ []) (heq : m.dst = p)
    (hbefore : ∀ m' ∈ l₁, ¬p <+: m'.dst) :
    LookupRight (l₁ ++ m :: l₂) p (vfsLookupFile (pathBuffer p) (l₁ ++ m :: l₂)) := by
  have hloop : lookupLoop (pathBuffer p) (l₁ ++ m :: l₂) start = _ :=
    lookupLoop_append hp hbefore rootCounted_start
  rw [lookupLoop_found heq] at hloop
  rw [vfsLookupFile_of_loop hloop]
  refine ⟨⟨List.mem_append_right _ (List.mem_cons_self ..), heq ▸ List.prefix_rfl, fun m' _ hpre => ?_⟩, ?_⟩
  · rw [heq]
    exact hpre.length_le
  · rw [heq, List.drop_length]
    rfl

/-- A path that lies above no mount point: the answer is the one that was picked. -/
theorem lookup_foldl (hp : p ≠ []) (hbelow : ∀ m ∈ mounts, ¬p <+: m.dst) :
    vfsLookupFile (pathBuffer p) mounts = .ok (if (mounts.foldl (pick p) start).lmatch = 0 then none
      else (mounts.foldl (pick p) start).found) := by
  have hloop : lookupLoop (pathBuffer p) (mounts ++ []) start = _ :=
    lookupLoop_append hp hbelow rootCounted_start
  rw [List.append_nil] at hloop
  exact vfsLookupFile_of_loop hloop

theorem lookup_below (hp : p ≠ []) (hne : ∀ m ∈ mounts, m.dst ≠ p) (hbelow : ∃ m ∈ mounts, p <+: m.dst)
    (l : List Mount) : vfsLookupFile (pathBuffer p) (mounts ++ l) = behind := by
  have hloop := lookupLoop_below hp hne hbelow rootCounted_start l
  unfold start at hloop
  unfold vfsLookupFile
  rw [hloop]
  rfl

/-- No mount point shares the first component: only the root directory can be a prefix. -/
theorem lookup_apart (hp : p ≠ []) (hzero : ∀ m ∈ mounts, common p m.dst = 0) :
    LookupRight mounts p (vfsLookupFile (pathBuffer p) mounts) := by
  have hleads : ∀ m ∈ mounts, m.dst <+: p → m.dst = [] := fun m hm hpre => by
    have := common_eq_length hpre
    rw [hzero m hm] at this
    exact List.eq_nil_of_length_eq_zero this.symm
  rw [lookup_foldl hp fun m hm hpre => hp (List.eq_nil_of_length_eq_zero (by rw [← common_of_below hpre, hzero m hm]))]
  rcases chosen_foldl p mounts with h | ⟨l₁, m, l₂, hl, h⟩
  · rcases h.state with ⟨hs, hall⟩ | ⟨m, hm, hroot, hs⟩
    · rw [hs]
      exact fun m hm hpre => hall m hm (hleads m hm hpre)
    · rw [hs]
      refine ⟨⟨hm, hroot ▸ List.nil_prefix, fun m' hm' hpre => ?_⟩, ?_⟩
      · rw [hleads m' hm' hpre, hroot]
      · rw [hroot]
        rfl
  · have hpos := h.shared
    rw [hzero m (by rw [hl]; exact List.mem_append_right _ (List.mem_cons_self ..))] at hpos
    cases hpos

/-- Of two splits at the first mount point that shares a component, the mount points agree. -/
theorem first_unique {l₁ l₂ l₁' l₂' : List Mount} {m m' : Mount} (h : l₁ ++ m :: l₂ = l₁' ++ m' :: l₂')
    (hm : 0 < common p m.dst) (hbefore : ∀ x ∈ l₁, common p x.dst = 0) (hm' : 0 < common p m'.dst)
    (hbefore' : ∀ x ∈ l₁', common p x.dst = 0) : m = m' := by
  have hfind : (l₁ ++ m :: l₂).find? (fun x => 0 < common p x.dst) = some m :=
    List.find?_eq_some_iff_append.mpr ⟨by simpa using hm, l₁, l₂, rfl, fun x hx => by simp [hbefore x hx]⟩
  have hfind' : (l₁ ++ m :: l₂).find? (fun x => 0 < common p x.dst) = some m' :=
    List.find?_eq_some_iff_append.mpr ⟨by simpa using hm', l₁', l₂', h, fun x hx => by simp [hbefore' x hx]⟩
  exact Option.some.inj (hfind.symm.trans hfind')

/-- The first mount point that shares a component is the first component of the path, and no
other shares two. -/
theorem lookup_first {l₁ l₂ : List Mount} {m : Mount} (hp : p ≠ []) (hne : m.dst ≠ p) (heq : m.dst = p.take 1)
    (hbefore : ∀ m' ∈ l₁, common p m'.dst = 0) (hafter : ∀ m' ∈ l₂, common p m'.dst ≤ 1) :
    LookupRight (l₁ ++ m :: l₂) p (vfsLookupFile (pathBuffer p) (l₁ ++ m :: l₂)) := by
  obtain ⟨c, cs, rfl⟩ := List.exists_cons_of_ne_nil hp
  have hdst : m.dst = [c] := heq
  have hcs : cs ≠ [] := fun h => hne (by rw [hdst, h])
  have hone : common (c :: cs) m.dst = 1 := by
    rw [common_eq_length (heq ▸ List.take_prefix 1 _), hdst, List.length_singleton]
  have hall : ∀ m' ∈ l₁ ++ m :: l₂, common (c :: cs) m'.dst ≤ 1 := fun m' hm' => by
    rcases List.mem_append.mp hm' with h | h
    · rw [hbefore m' h]
      exact zero_le_one
    · rcases List.mem_cons.mp h with rfl | h
      · exact hone.le
      · exact hafter m' h
  have hmem : m ∈ l₁ ++ m :: l₂ := List.mem_append_right _ (List.mem_cons_self ..)
  rw [lookup_foldl hp fun m' hm' hpre => ?_]
  · rcases chosen_foldl (c :: cs) (l₁ ++ m :: l₂) with h | ⟨l₁', m', l₂', hl, h⟩
    · exact absurd (h.apart m hmem) (by rw [hone]; exact one_ne_zero)
    · have hle := hall m' (by rw [hl]; exact List.mem_append_right _ (List.mem_cons_self ..))
      obtain rfl : m = m' := first_unique hl (by omega) hbefore h.shared fun x hx => by
        have := h.before x hx
        omega
      rw [h.state, hone]
      refine ⟨⟨hmem, heq ▸ List.take_prefix 1 _, fun x hx hpre => ?_⟩, ?_⟩
      · rw [hdst, List.length_singleton, ← common_eq_length hpre]
        exact hall x hx
      · rw [hdst]
        rfl
  · have hlong := common_of_below hpre
    have := hall m' hm'
    have := List.length_pos_of_ne_nil hcs
    rw [List.length_cons] at hlong
    omega

theorem lookupRight_of_resolves (h : Resolves mounts p) : LookupRight mounts p (vfsLookupFile (pathBuffer p) mounts) := by
  by_cases hp : p = []
  · rw [hp]
    exact lookup_top mounts
  cases h with
  | top h => exact absurd h hp
  | mounted l₁ m l₂ hsplit heq hbefore =>
    rw [hsplit]
    exact lookup_mounted hp heq hbefore
  | apart hne hzero => exact lookup_apart hp hzero
  | first hne l₁ m l₂ hsplit heq hbefore hafter =>
    have hm := hne m (by rw [hsplit]; exact List.mem_append_right _ (List.mem_cons_self ..))
    rw [hsplit]
    exact lookup_first hp hm heq hbefore hafter

theorem resolves_of_mounted (hp : p ≠ []) (hmem : ∃ m ∈ mounts, m.dst = p)
    (h : LookupRight mounts p (vfsLookupFile (pathBuffer p) mounts)) : Resolves mounts p := by
  have hfirst : ∃ m, mounts.find? (fun m => m.dst = p) = some m :=
    Option.isSome_iff_exists.mp (List.find?_isSome.mpr (by simpa using hmem))
  obtain ⟨m, hm⟩ := hfirst
  obtain ⟨heq, l₁, l₂, hsplit, hbefore⟩ := List.find?_eq_some_iff_append.mp hm
  refine .mounted l₁ m l₂ hsplit (by simpa using heq) fun m' hm' hpre => ?_
  rw [hsplit, lookup_below hp (fun x hx => by simpa using hbefore x hx) ⟨m', hm', hpre⟩] at h
  exact h

/-- The relative part behind one component is right for a mount point of one component only. -/
theorem resolves_of_right (h : LookupRight mounts p (vfsLookupFile (pathBuffer p) mounts)) : Resolves mounts p := by
  by_cases hp : p = []
  · exact .top hp
  by_cases hmem : ∃ m ∈ mounts, m.dst = p
  · exact resolves_of_mounted hp hmem h
  have hne : ∀ m ∈ mounts, m.dst ≠ p := fun m hm heq => hmem ⟨m, hm, heq⟩
  by_cases hbelow : ∃ m ∈ mounts, p <+: m.dst
  · have hfault := lookup_below hp hne hbelow []
    rw [List.append_nil] at hfault
    rw [hfault] at h
    exact h.elim
  rw [lookup_foldl hp fun m hm hpre => hbelow ⟨m, hm, hpre⟩] at h
  rcases chosen_foldl p mounts with hq | ⟨l₁, m, l₂, hl, hpick⟩
  · exact .apart hne hq.apart
  · rw [hpick.state, if_neg hpick.shared.ne'] at h
    obtain ⟨hlong, hrel⟩ := h
    have hdrop := relative_inj (List.append_cancel_right (Option.some.inj hrel))
    have hlen := congrArg List.length hdrop
    rw [List.length_tail, List.length_drop] at hlen
    have hle := hlong.isPrefix.length_le
    have hcommon := common_eq_length hlong.isPrefix
    have hshared := hpick.shared
    have hone : m.dst.length = 1 := by omega
    rw [hone] at hcommon
    refine .first hne l₁ m l₂ hl (hone ▸ List.prefix_iff_eq_take.mp hlong.isPrefix) (fun m' hm' => ?_) fun m' hm' => ?_
    · have := hpick.before m' hm'
      omega
    · have := hpick.after m' hm'
      omega

/-- The mount points and the paths whose resolution is right, in any order of mounting. -/
theorem vfs_lookup_file_iff (mounts : List Mount) (p : Path) :
    LookupRight mounts p (vfsLookupFile (pathBuffer p) mounts) ↔ Resolves mounts p :=
  ⟨resolves_of_right, lookupRight_of_resolves⟩

end Lookup

section Devices

def dev : Component := ⟨['d', 'e', 'v'], by decide, by decide, by decide⟩

def pts : Component := ⟨['p', 't', 's'], by decide, by decide, by decide⟩

def tty : Component := ⟨['t', 't', 'y'], by decide, by decide, by decide⟩

/-- With mounts on the root and on /dev/pts, the file /dev/tty is looked up in the second one. -/
theorem sibling_mount_wins : ∃ (mounts : List Mount) (p : Path), (mounts.map Mount.dst).Nodup ∧
    ¬LookupRight mounts p (vfsLookupFile (pathBuffer p) mounts) := by
  refine ⟨[⟨[], by decide⟩, ⟨[dev, pts], by decide⟩], [dev, tty], by decide, ?_⟩
  have hfound : vfsLookupFile (pathBuffer [dev, tty]) ([⟨[], by decide⟩, ⟨[dev, pts], by decide⟩] : List Mount) =
      .ok (some (⟨[dev, pts], by decide⟩, some ['t', 't', 'y', '\x00'])) := rfl
  rw [hfound]
  rintro ⟨hlong, -⟩
  exact absurd hlong.isPrefix (by decide)

end Devices

end YggKernel.Vfs
