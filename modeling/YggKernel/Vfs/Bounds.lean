import YggKernel.Vfs.Components

namespace YggKernel.Vfs

/-- A used entry of `vfs_mounts` with any string as its mount point. The buffer ends with the
terminator, so reading behind it is a fault. -/
structure Point where
  dst : List Char
  nonempty : dst ≠ []
  terminated : Terminated dst
  fits : dst.length < 256

theorem Point.ext_dst {m n : Point} (h : m.dst = n.dst) : m = n := by
  cases m
  cases n
  cases h
  rfl

instance : DecidableEq Point := fun m n => decidable_of_iff (m.dst = n.dst) ⟨Point.ext_dst, congrArg Point.dst⟩

instance : MountPoint Point := ⟨fun m => buffered m.dst⟩

theorem Point.holds (m : Point) : Holds (MountPoint.buffer m) m.dst :=
  holds_buffered m.terminated (m.fits.trans (by decide))

def Inside {M : Type} (path : Ptr) : Res (Option (M × Option Ptr)) → Prop
  | .error _ => False
  | .ok none => True
  | .ok (some (_, none)) => False
  | .ok (some (_, some rel)) => rel ≠ [] ∧ rel <:+ path

/-- One of the path and the mount point goes on with the components of the other. -/
def Related (path : Ptr) (m : Point) : Prop :=
  m.dst ≠ ['/'] ∧ (components path <+: components (buffered m.dst) ∨ components (buffered m.dst) <+: components path)

instance (path : Ptr) (m : Point) : Decidable (Related path m) :=
  inferInstanceAs (Decidable (m.dst ≠ ['/'] ∧
    (components path <+: components (buffered m.dst) ∨ components (buffered m.dst) <+: components path)))

section Search

variable {t : List Char} {s : LookupState Point} {mounts : List Point}

def FoundInside (t : List Char) (s : LookupState Point) : Prop :=
  RootCounted s ∧ ∀ r, s.found = some r → ∃ rel, r.2 = some rel ∧ rel ≠ [] ∧ rel <:+ buffered ('/' :: t)

theorem buffered_suffix (t : List Char) : buffered t <:+ buffered ('/' :: t) := ⟨['/'], rfl⟩

theorem buffered_ne_nil (t : List Char) : buffered t ≠ [] := List.append_ne_nil_of_right_ne_nil _ (by decide)

/-- A mount point that is not related to the path is compared within both strings. -/
theorem lookupStep_inside {m : Point} (ht : Holds (buffered ('/' :: t)) ('/' :: t)) (hs : FoundInside t s)
    (hm : ¬Related (buffered ('/' :: t)) m) :
    ∃ s', lookupStep (buffered ('/' :: t)) m s = .ok s' ∧ FoundInside t s' := by
  by_cases hroot : m.dst = ['/']
  · refine ⟨_, lookupStep_root ht m.holds hroot, ?_⟩
    by_cases hbetter : Better 1 s
    · rw [if_pos hbetter]
      refine ⟨fun _ => le_rfl, fun r hr => ?_⟩
      obtain rfl := Option.some.inj hr
      exact ⟨buffered t, rfl, buffered_ne_nil t, buffered_suffix t⟩
    · rwa [if_neg hbetter]
  · cases hk : compare (components (buffered ('/' :: t))) (components (MountPoint.buffer m)) with
    | none => exact absurd ⟨hroot, compare_eq_none.mp hk⟩ hm
    | some k =>
      obtain ⟨u, hne, hsuffix, hstep⟩ := lookupStep_matched ht m.holds hroot hs.1 hk
      refine ⟨_, hstep, ?_⟩
      by_cases hbetter : Better k s
      · rw [if_pos hbetter]
        refine ⟨fun hfalse => Bool.noConfusion hfalse, fun r hr => ?_⟩
        obtain rfl := Option.some.inj hr
        exact ⟨u, rfl, hne, hsuffix⟩
      · rwa [if_neg hbetter]

theorem lookupLoop_point {m : Point} (ht : Holds (buffered ('/' :: t)) ('/' :: t)) :
    lookupLoop (buffered ('/' :: t)) (m :: mounts) s =
      if m.dst = '/' :: t then .ok ⟨10000, s.ismatchs, some (m, some ['\x00'])⟩
      else (lookupStep (buffered ('/' :: t)) m s).bind (lookupLoop (buffered ('/' :: t)) mounts) := by
  have hend : strEnd (buffered ('/' :: t)) = ['\x00'] := strEnd_append ht.terminated
  rw [lookupLoop, strcmp_holds m.holds ht, hend]
  by_cases heq : m.dst = '/' :: t
  · rw [if_pos heq, if_pos heq]
    rfl
  · rw [if_neg heq, if_neg heq]
    rfl

def compared (t : List Char) (mounts : List Point) : List Point := mounts.takeWhile fun m => m.dst ≠ '/' :: t

theorem lookupLoop_inside (ht : Holds (buffered ('/' :: t)) ('/' :: t)) (mounts : List Point) (hs : FoundInside t s) :
    ((∀ m ∈ compared t mounts, ¬Related (buffered ('/' :: t)) m) →
      ∃ s', lookupLoop (buffered ('/' :: t)) mounts s = .ok s' ∧ FoundInside t s') ∧
    ((∃ m ∈ compared t mounts, Related (buffered ('/' :: t)) m) →
      lookupLoop (buffered ('/' :: t)) mounts s = behind) := by
  induction mounts generalizing s with
  | nil => exact ⟨fun _ => ⟨s, rfl, hs⟩, fun ⟨_, hm, _⟩ => nomatch hm⟩
  | cons m mounts ih =>
    rw [lookupLoop_point ht]
    by_cases heq : m.dst = '/' :: t
    · have hnil : compared t (m :: mounts) = [] := List.takeWhile_cons_of_neg (by simp [heq])
      rw [if_pos heq, hnil]
      refine ⟨fun _ => ⟨_, rfl, ?_, fun r hr => ?_⟩, fun ⟨_, hm, _⟩ => nomatch hm⟩
      · exact fun _ => (by decide : 1 ≤ 10000)
      · obtain rfl := Option.some.inj hr
        exact ⟨['\x00'], rfl, by decide, ⟨'/' :: t, rfl⟩⟩
    · have hcons : compared t (m :: mounts) = m :: compared t mounts := List.takeWhile_cons_of_pos (by simpa using heq)
      rw [if_neg heq, hcons]
      by_cases hm : Related (buffered ('/' :: t)) m
      · have hbehind := lookupStep_behind (s := s) ht m.holds hm.1 (compare_eq_none.mpr hm.2)
        rw [hbehind]
        exact ⟨fun h => absurd hm (h m (List.mem_cons_self ..)), fun _ => rfl⟩
      · obtain ⟨s', hstep, hs'⟩ := lookupStep_inside ht hs hm
        obtain ⟨hok, hbehind⟩ := ih hs'
        rw [hstep]
        refine ⟨fun h => hok fun m' hm' => h m' (List.mem_cons_of_mem _ hm'), fun ⟨m', hm', hrel⟩ => ?_⟩
        rcases List.mem_cons.mp hm' with rfl | hm'
        · exact absurd hrel hm
        · exact hbehind ⟨m', hm', hrel⟩

/-- The search reads no byte behind the path or a mount point, ends, and finds a part of the path,
just when no mount point but the root that it compares goes on with the components of the path, and
the path with those of none. -/
theorem lookup_inside_iff (t : List Char) (mounts : List Point) (ht : Terminated t) (hlen : t.length + 1 < 0xFFFFFFFF) :
    Inside (buffered ('/' :: t)) (vfsLookupFile (buffered ('/' :: t)) mounts) ↔
      ∀ m ∈ compared t mounts, ¬Related (buffered ('/' :: t)) m := by
  have hpath : Terminated ('/' :: t) := fun c hc => (List.mem_cons.mp hc).elim (fun h => h ▸ by decide) (ht c)
  have hholds := holds_buffered hpath hlen
  have hstart : FoundInside t ⟨0, false, none⟩ := ⟨fun h => Bool.noConfusion h, fun r hr => nomatch hr⟩
  obtain ⟨hok, hbehind⟩ := lookupLoop_inside hholds mounts hstart
  unfold vfsLookupFile
  refine ⟨fun h m hm hrel => ?_, fun h => ?_⟩
  · rw [hbehind ⟨m, hm, hrel⟩] at h
    exact h
  · obtain ⟨s', hloop, _, hfound⟩ := hok h
    rw [hloop]
    dsimp only [bind, Except.bind, pure, Except.pure]
    by_cases hzero : s'.lmatch = 0
    · rw [if_pos hzero]
      trivial
    · rw [if_neg hzero]
      cases hr : s'.found with
      | none => trivial
      | some r =>
        obtain ⟨rel, hrel, hinside⟩ := hfound r hr
        obtain ⟨m, r2⟩ := r
        dsimp only at hrel
        subst hrel
        exact hinside

end Search

section Devices

def rootPoint : Point := ⟨['/'], by decide, by decide, by decide⟩

def devPoint : Point := ⟨['/', 'd', 'e', 'v'], by decide, by decide, by decide⟩

/-- A file beside the mount point of the devices. -/
theorem lookup_beside_dev : Terminated ['e', 't', 'c'] ∧
    Inside (buffered ['/', 'e', 't', 'c']) (vfsLookupFile (buffered ['/', 'e', 't', 'c']) [rootPoint, devPoint]) :=
  ⟨by decide, (lookup_inside_iff ['e', 't', 'c'] [rootPoint, devPoint] (by decide) (by decide)).mpr (by decide)⟩

/-- For a device, the comparison goes on behind the terminator of the mount point. -/
theorem lookup_below_dev : ∃ (t : List Char) (mounts : List Point), Terminated t ∧
    ¬Inside (buffered ('/' :: t)) (vfsLookupFile (buffered ('/' :: t)) mounts) := by
  refine ⟨['d', 'e', 'v', '/', 't', 't', 'y'], [rootPoint, devPoint], by decide, ?_⟩
  have hbehind : vfsLookupFile (buffered ['/', 'd', 'e', 'v', '/', 't', 't', 'y']) [rootPoint, devPoint] = behind := rfl
  rw [hbehind]
  exact id

end Devices

end YggKernel.Vfs
