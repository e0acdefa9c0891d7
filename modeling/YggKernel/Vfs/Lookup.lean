import YggKernel.Vfs.Strings

namespace YggKernel.Vfs

structure Component where
  name : List Char
  nonempty : name ≠ []
  noSlash : '/' ∉ name
  terminated : Terminated name
  deriving DecidableEq

abbrev Path := List Component

def relative : Path → List Char
  | [] => []
  | [c] => c.name
  | c :: d :: cs => c.name ++ '/' :: relative (d :: cs)

def absolute (p : Path) : List Char := '/' :: relative p

/-- A used entry of `vfs_mounts`: the mount point fits its buffer. -/
structure Mount where
  dst : Path
  fits : (absolute dst).length < 256
  deriving DecidableEq

/-- The record is cleared before the mount point is copied into it and nothing sets the field
behind it, so another zero stands behind the terminator. -/
def Mount.buffer (m : Mount) : Ptr := absolute m.dst ++ ['\x00', '\x00']

class MountPoint (M : Type) where
  buffer : M → Ptr

instance : MountPoint Mount := ⟨Mount.buffer⟩

theorem mountPoint_buffer (m : Mount) : MountPoint.buffer m = m.buffer := rfl

def skipSlash : Ptr → Res Ptr
  | [] => behind
  | c :: s => .ok (if c = '/' then s else c :: s)

/-- The loop of `vfs_components_match`. Each round moves the first pointer on, so the length
of its buffer is enough fuel. -/
def matchLoop : Nat → Ptr → Ptr → Res Nat
  | 0, _, _ => .error .hang
  | n + 1, p0, p1 => do
    let e0 ← strchrnul p0 '/'
    let e1 ← strchrnul p1 '/'
    if p1.length - e1.length = p0.length - e0.length then
      if (← strncmp p0 p1 (p0.length - e0.length)) = 0 then
        let rest ← matchLoop n e0.tail e1.tail
        return rest + 1
      else return 0
    else return 0

def vfsComponentsMatch (p0 p1 : Ptr) : Res Nat := do
  if (← strcmp p1 ['/', '\x00']) = 0 then return 1
  else
    let p0 ← skipSlash p0
    let p1 ← skipSlash p1
    matchLoop (p0.length + 1) p0 p1

/-- The search for the relative part: `strchr` as often as components matched. -/
def relSearch : Nat → Option Ptr → Res (Option Ptr)
  | 0, e => .ok e
  | _ + 1, none => .error (.pageFault 0)
  | n + 1, some e => do relSearch n (← strchr e '/')

/-- The variables of `vfs_lookup_file`. The relative part may be an invalid pointer. -/
structure LookupState (M : Type) where
  lmatch : Nat
  ismatchs : Bool
  found : Option (M × Option Ptr)

/-- The update for a mount point that is not the path itself. -/
def lookupStep {M : Type} [MountPoint M] (path : Ptr) (m : M) (s : LookupState M) : Res (LookupState M) := do
  let count ← vfsComponentsMatch path (MountPoint.buffer m)
  if count > s.lmatch ∨ (count ≥ s.lmatch ∧ s.ismatchs = true) then
    let e := path.tail
    if (← strcmp (MountPoint.buffer m) ['/', '\x00']) ≠ 0 then
      let e ← relSearch count (some e)
      return ⟨count, false, some (m, e.map List.tail)⟩
    else return ⟨count, true, some (m, some e)⟩
  else return s

def lookupLoop {M : Type} [MountPoint M] (path : Ptr) : List M → LookupState M → Res (LookupState M)
  | [], s => .ok s
  | m :: rest, s => do
    if (← strcmp (MountPoint.buffer m) path) = 0 then
      return ⟨10000, s.ismatchs, some (m, some (strEnd path))⟩
    else lookupLoop path rest (← lookupStep path m s)

def RootCounted {M : Type} (s : LookupState M) : Prop := s.ismatchs = true → 1 ≤ s.lmatch

/-- The mount and the relative part, and none where the result is -1. -/
def vfsLookupFile {M : Type} [MountPoint M] (path : Ptr) (mounts : List M) : Res (Option (M × Option Ptr)) := do
  let s ← lookupLoop path mounts ⟨0, false, none⟩
  return if s.lmatch = 0 then none else s.found

section Strings

theorem terminated_relative (p : Path) : Terminated (relative p) := by
  induction p using relative.induct with
  | case1 => exact fun c hc => nomatch hc
  | case2 c => exact c.terminated
  | case3 c d cs ih =>
    intro x hx
    rcases List.mem_append.mp hx with h | h
    · exact c.terminated x h
    · rcases List.mem_cons.mp h with rfl | h
      · decide
      · exact ih x h

theorem relative_cons (c : Component) (cs : Path) (u : List Char) :
    relative (c :: cs) ++ u = c.name ++ (if cs = [] then u else '/' :: (relative cs ++ u)) := by
  cases cs with
  | nil => rfl
  | cons d cs => simp [relative]

theorem relative_ne_nil (c : Component) (cs : Path) : relative (c :: cs) ≠ [] := by
  cases cs with
  | nil => exact c.nonempty
  | cons d cs => simp [relative]

theorem name_append_inj {a b u v : List Char} (ha : '/' ∉ a) (hb : '/' ∉ b) (hu : ∀ c ∈ u.head?, c = '/')
    (hv : ∀ c ∈ v.head?, c = '/') (h : a ++ u = b ++ v) : a = b ∧ u = v := by
  induction a generalizing b with
  | nil =>
    cases b with
    | nil => exact ⟨rfl, h⟩
    | cons y b =>
      rw [List.nil_append] at h
      rw [hu y (by rw [h]; rfl)] at hb
      exact absurd (List.mem_cons_self ..) hb
  | cons x a ih =>
    cases b with
    | nil =>
      rw [List.nil_append] at h
      rw [hv x (by rw [← h]; rfl)] at ha
      exact absurd (List.mem_cons_self ..) ha
    | cons y b =>
      obtain ⟨rfl, hrest⟩ := List.cons.inj h
      obtain ⟨rfl, huv⟩ := ih (List.not_mem_of_not_mem_cons ha) (List.not_mem_of_not_mem_cons hb) hrest
      exact ⟨rfl, huv⟩

theorem Component.ext_name {c d : Component} (h : c.name = d.name) : c = d := by
  cases c
  cases d
  cases h
  rfl

theorem relative_inj {p q : Path} (h : relative p = relative q) : p = q := by
  induction p generalizing q with
  | nil =>
    cases q with
    | nil => rfl
    | cons d ds => exact absurd h.symm (relative_ne_nil d ds)
  | cons c cs ih =>
    cases q with
    | nil => exact absurd h (relative_ne_nil c cs)
    | cons d ds =>
      have htail : ∀ cs : Path, ∀ x ∈ (if cs = [] then ([] : List Char) else '/' :: (relative cs ++ [])).head?, x = '/' := by
        intro cs x hx
        by_cases hcs : cs = []
        · simp [hcs] at hx
        · simpa [hcs, eq_comm] using hx
      have hc := relative_cons c cs []
      have hd := relative_cons d ds []
      rw [List.append_nil] at hc hd
      rw [hc, hd] at h
      obtain ⟨hname, hrest⟩ := name_append_inj c.noSlash d.noSlash (htail cs) (htail ds) h
      obtain rfl := Component.ext_name hname
      congr 1
      by_cases hcs : cs = []
      · by_cases hds : ds = []
        · rw [hcs, hds]
        · simp [hcs, hds] at hrest
      · by_cases hds : ds = []
        · simp [hcs, hds] at hrest
        · simp only [hcs, hds, if_false, List.append_nil, List.cons.injEq, true_and] at hrest
          exact ih hrest

theorem length_relative (p : Path) : p.length ≤ (relative p).length := by
  induction p using relative.induct with
  | case1 => exact le_rfl
  | case2 c => exact List.length_pos_of_ne_nil c.nonempty
  | case3 c d cs ih =>
    have hpos := List.length_pos_of_ne_nil c.nonempty
    rw [relative, List.length_append, List.length_cons, List.length_cons (a := '/')]
    omega

end Strings

section Matching

def common : Path → Path → Nat
  | c :: cs, d :: ds => if c = d then common cs ds + 1 else 0
  | _, _ => 0

def behindName (cs : Path) (u : List Char) : List Char := if cs = [] then u else '/' :: (relative cs ++ u)

theorem strchrnul_component (c : Component) (cs : Path) (u : List Char) :
    strchrnul (c.name ++ behindName cs ('\x00' :: u)) '/' = .ok (behindName cs ('\x00' :: u)) := by
  rw [strchrnul_skip c.terminated c.noSlash]
  unfold behindName
  by_cases hcs : cs = []
  · rw [if_pos hcs]
    exact strchrnul_here (.inl rfl)
  · rw [if_neg hcs]
    exact strchrnul_here (.inr rfl)

theorem matchLoop_round (n : Nat) (c d : Component) (cs ds : Path) (u v : List Char) :
    matchLoop (n + 1) (relative (c :: cs) ++ '\x00' :: u) (relative (d :: ds) ++ '\x00' :: v) =
      if c = d then (matchLoop n (behindName cs ('\x00' :: u)).tail (behindName ds ('\x00' :: v)).tail).map (· + 1)
      else .ok 0 := by
  have hname : c = d ↔ c.name = d.name := ⟨congrArg _, Component.ext_name⟩
  have hcons : ∀ (cs : Path) (w : List Char), ∃ x rest, behindName cs ('\x00' :: w) = x :: rest := by
    intro cs w
    unfold behindName
    by_cases hcs : cs = []
    · exact ⟨_, _, if_pos hcs⟩
    · exact ⟨_, _, if_neg hcs⟩
  have h0 := strchrnul_component c cs u
  have h1 := strchrnul_component d ds v
  rw [relative_cons, relative_cons, ← behindName, ← behindName, matchLoop, h0, h1]
  dsimp only [bind, Except.bind, pure, Except.pure]
  rw [List.length_append, List.length_append, Nat.add_sub_cancel, Nat.add_sub_cancel]
  by_cases hlen : c.name.length = d.name.length
  · obtain ⟨x, rest, hx⟩ := hcons cs u
    obtain ⟨y, rest', hy⟩ := hcons ds v
    rw [if_pos hlen.symm, hx, hy, strncmp_prefix c.terminated d.terminated hlen]
    dsimp only
    by_cases hcd : c = d
    · rw [if_pos (hname.mp hcd), if_pos rfl, if_pos hcd]
      cases matchLoop n (x :: rest).tail (y :: rest').tail <;> rfl
    · rw [if_neg fun h => hcd (hname.mpr h), if_neg (by decide), if_neg hcd]
  · have hcd : c ≠ d := fun h => hlen (by rw [h])
    rw [if_neg (Ne.symm hlen), if_neg hcd]

theorem matchLoop_ended {n : Nat} {cs : Path} (hn : 0 < n) (hcs : cs ≠ []) :
    matchLoop n (relative cs ++ ['\x00']) ['\x00'] = .ok 0 := by
  obtain ⟨m, rfl⟩ := Nat.exists_eq_add_one.mpr hn
  obtain ⟨c, cs', rfl⟩ := List.exists_cons_of_ne_nil hcs
  have hpos := List.length_pos_of_ne_nil c.nonempty
  have h0 := strchrnul_component c cs' []
  have h1 : strchrnul ['\x00'] '/' = .ok ['\x00'] := rfl
  rw [relative_cons, ← behindName, matchLoop, h0, h1]
  dsimp only [bind, Except.bind, pure, Except.pure]
  rw [List.length_append, Nat.add_sub_cancel, if_neg (by omega)]

/-- The loop counts the components that both paths begin with, and reads behind the end of the
path when the mount point lies below it. -/
theorem matchLoop_spec {n : Nat} {p d : Path} (hn : p.length < n) (hp : p ≠ []) (hd : d ≠ []) (hne : p ≠ d) :
    (p <+: d → matchLoop n (relative p ++ ['\x00']) (relative d ++ ['\x00', '\x00']) = behind) ∧
      (¬p <+: d → matchLoop n (relative p ++ ['\x00']) (relative d ++ ['\x00', '\x00']) = .ok (common p d)) := by
  induction n generalizing p d with
  | zero => omega
  | succ n ih =>
    obtain ⟨c, cs, rfl⟩ := List.exists_cons_of_ne_nil hp
    obtain ⟨e, es, rfl⟩ := List.exists_cons_of_ne_nil hd
    rw [matchLoop_round, List.cons_prefix_cons]
    by_cases hce : c = e
    · subst hce
      have hrest : cs ≠ es := fun h => hne (by rw [h])
      rw [List.length_cons] at hn
      obtain ⟨m, rfl⟩ := Nat.exists_eq_add_one.mpr (show 0 < n by omega)
      rw [if_pos rfl, common, if_pos rfl]
      by_cases hcs : cs = []
      · rw [hcs]
        exact ⟨fun _ => rfl, fun h => absurd ⟨rfl, List.nil_prefix⟩ h⟩
      have hleft : (behindName cs ['\x00']).tail = relative cs ++ ['\x00'] := by
        rw [behindName, if_neg hcs, List.tail_cons]
      rw [hleft]
      by_cases hes : es = []
      · have hzero : common cs es = 0 := by
          rw [hes]
          cases cs <;> rfl
        have hright : (behindName es ['\x00', '\x00']).tail = ['\x00'] := by
          rw [behindName, if_pos hes]
          rfl
        rw [hright, matchLoop_ended (by omega) hcs, hzero, hes]
        exact ⟨fun h => absurd (List.prefix_nil.mp h.2) hcs, fun _ => rfl⟩
      · have hright : (behindName es ['\x00', '\x00']).tail = relative es ++ ['\x00', '\x00'] := by
          rw [behindName, if_neg hes, List.tail_cons]
        obtain ⟨hbelow, hapart⟩ := ih (by omega) hcs hes hrest
        rw [hright]
        refine ⟨fun h => ?_, fun h => ?_⟩
        · rw [hbelow h.2]
          rfl
        · rw [hapart fun hpre => h ⟨rfl, hpre⟩]
          rfl
    · rw [if_neg hce, common, if_neg hce]
      exact ⟨fun h => absurd h.1 hce, fun _ => rfl⟩

end Matching

section Steps

variable {p : Path} {m : Mount}

def pathBuffer (p : Path) : Ptr := absolute p ++ ['\x00']

theorem terminated_absolute (p : Path) : Terminated (absolute p) := by
  intro c hc
  rcases List.mem_cons.mp hc with rfl | h
  · decide
  · exact terminated_relative p c h

theorem absolute_inj {p q : Path} : absolute p = absolute q ↔ p = q :=
  ⟨fun h => relative_inj (List.cons.inj h).2, congrArg _⟩

theorem strcmp_path (m : Mount) (p : Path) :
    strcmp m.buffer (pathBuffer p) = .ok (if m.dst = p then 0 else 1) := by
  have hlt : (absolute m.dst).length < 0xFFFFFFFF := m.fits.trans (by decide)
  unfold Mount.buffer pathBuffer
  rw [strcmp_eq (terminated_absolute _) (terminated_absolute _) hlt]
  simp only [absolute_inj]

theorem strcmp_root (m : Mount) : strcmp m.buffer ['/', '\x00'] = .ok (if m.dst = [] then 0 else 1) :=
  strcmp_path m []

theorem componentsMatch_root (hroot : m.dst = []) : vfsComponentsMatch (pathBuffer p) m.buffer = .ok 1 := by
  unfold vfsComponentsMatch
  rw [strcmp_root, if_pos hroot]
  rfl

theorem componentsMatch_loop (hroot : m.dst ≠ []) : vfsComponentsMatch (pathBuffer p) m.buffer =
    matchLoop ((relative p).length + 2) (relative p ++ ['\x00']) (relative m.dst ++ ['\x00', '\x00']) := by
  unfold vfsComponentsMatch
  rw [strcmp_root, if_neg hroot]
  dsimp only [bind, Except.bind, pure, Except.pure]
  rw [if_neg (by decide)]
  unfold pathBuffer absolute Mount.buffer absolute
  rw [List.cons_append, List.cons_append, skipSlash, skipSlash, if_pos rfl, if_pos rfl]
  dsimp only
  rw [List.length_append]
  rfl

theorem componentsMatch_below (hp : p ≠ []) (hne : m.dst ≠ p) (hpre : p <+: m.dst) :
    vfsComponentsMatch (pathBuffer p) m.buffer = behind := by
  have hroot : m.dst ≠ [] := fun h => hp (List.prefix_nil.mp (h ▸ hpre))
  have hlen := length_relative p
  rw [componentsMatch_loop hroot]
  exact (matchLoop_spec (by omega) hp hroot hne.symm).1 hpre

theorem componentsMatch_apart (hp : p ≠ []) (hroot : m.dst ≠ []) (hpre : ¬p <+: m.dst) :
    vfsComponentsMatch (pathBuffer p) m.buffer = .ok (common p m.dst) := by
  have hlen := length_relative p
  have hne : p ≠ m.dst := fun h => hpre (h ▸ List.prefix_rfl)
  rw [componentsMatch_loop hroot]
  exact (matchLoop_spec (by omega) hp hroot hne).2 hpre

theorem componentsMatch_top (hroot : m.dst ≠ []) : vfsComponentsMatch (pathBuffer []) m.buffer = .ok 0 := by
  obtain ⟨c, cs, hcs⟩ := List.exists_cons_of_ne_nil hroot
  have hpos := List.length_pos_of_ne_nil c.nonempty
  have h1 := strchrnul_component c cs ['\x00']
  have h0 : strchrnul ['\x00'] '/' = .ok ['\x00'] := rfl
  rw [componentsMatch_loop hroot, hcs, relative_cons, ← behindName, relative, List.nil_append, matchLoop, h0, h1]
  dsimp only [bind, Except.bind, pure, Except.pure]
  rw [List.length_append, Nat.add_sub_cancel, if_neg (by omega)]

theorem relSearch_slash (n : Nat) (u : Ptr) : relSearch n (some ('/' :: u)) = .ok (some ('/' :: u)) := by
  induction n with
  | zero => rfl
  | succ n ih => exact ih

theorem relSearch_path {n : Nat} (hn : 0 < n) (c : Component) {cs : Path} (hcs : cs ≠ []) (u : List Char) :
    relSearch n (some (relative (c :: cs) ++ u)) = .ok (some ('/' :: (relative cs ++ u))) := by
  obtain ⟨k, rfl⟩ := Nat.exists_eq_add_one.mpr hn
  have hfirst : strchr (relative (c :: cs) ++ u) '/' = .ok (some ('/' :: (relative cs ++ u))) := by
    rw [relative_cons, if_neg hcs]
    exact strchr_eq (by decide) c.terminated c.noSlash
  rw [relSearch, hfirst]
  exact relSearch_slash k _

end Steps

end YggKernel.Vfs
