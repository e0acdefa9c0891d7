import YggKernel.Paging.Careful

namespace YggKernel.Paging

open Lib.Program Lib.ByteMemory Lib.BitWords Lib.Masks Lib.Runs Phys Pool

section Pages

variable {s t : Machine} {spaces : List Nat} {pd a p f : Nat}

theorem translation_start (h : translation s pd a = some (p, f)) :
    ∃ p0, translation s pd (4096 * (a / 4096)) = some (p0, f) ∧ p0 % 4096 = 0 ∧ p = p0 + a % 4096 := by
  have hk : 4096 * (a / 4096) / 4194304 = a / 4194304 := by omega
  have hj : 4096 * (a / 4096) / 4096 % 1024 = a / 4096 % 1024 := by omega
  cases hstart : translation s pd (4096 * (a / 4096)) with
  | some r =>
    obtain ⟨hall, hmod⟩ := translation_page (Nat.mul_mod_right _ _) (Nat.mod_lt a (by decide)) hstart
    rw [Nat.div_add_mod, h] at hall
    obtain ⟨rfl, rfl⟩ := Prod.mk.inj (Option.some.inj hall)
    exact ⟨r.1, rfl, hmod, rfl⟩
  | none =>
    unfold translation at h hstart
    rw [hk] at hstart
    cases hslot : slotAt s pd (a / 4194304) with
    | absent =>
      rw [hslot] at h
      cases h
    | huge e =>
      rw [hslot] at hstart
      cases hstart
    | table entries =>
      rw [hslot, Slot.translate, leaf] at h hstart
      rw [hj] at hstart
      split at hstart <;> rename_i heven
      · rw [if_pos heven] at h
        cases h
      · cases hstart

/-- A byte that a user page maps is in use, and no other user address of any space leads to it. -/
theorem Exclusive.bytes (h : Exclusive spaces s) (hpd : pd ∈ spaces) (ha : a < kernelVirtBase) (hmaps : translation s pd a = some (p, f)) :
    bit s.phys.bitmap (p / 4096) = true ∧ ¬InPaging s p ∧
      ∀ pd' ∈ spaces, ∀ a' < kernelVirtBase, ∀ f', translation s pd' a' = some (p, f') → pd' = pd ∧ a' = a := by
  unfold kernelVirtBase at ha ⊢
  obtain ⟨p0, hstart, hmod, rfl⟩ := translation_start hmaps
  obtain ⟨hused, hapart⟩ := h.used pd hpd (a / 4096) (by omega) p0 f hstart
  refine ⟨?_, hapart _ (Nat.mod_lt _ (by decide)), fun pd' hpd' a' ha' f' hmaps' => ?_⟩
  · rwa [show (p0 + a % 4096) / 4096 = p0 / 4096 by omega]
  · obtain ⟨p1, hstart', hmod', heq⟩ := translation_start hmaps'
    obtain rfl : p0 = p1 := by omega
    obtain ⟨hspace, hpage⟩ := h.apart pd' hpd' pd hpd (a' / 4096) (by omega) (a / 4096) (by omega) p0 f' f hstart' hstart
    exact ⟨hspace, by omega⟩

end Pages

section Example

/-- The first space of the small machine, with the frame that the next page gets. -/
theorem small_created : ∃ t, spaceStep smallState .create = some t ∧ t.spaces = [0xC1001000, 0xC0200000] ∧ t.Orderly ∧
    CleanPool t.machine ∧ t.machine.mmKernel = 0xC0200000 ∧ FramesAhead 1 t.machine := by
  have hstep : (spaceStep smallState .create).map (fun t => (t.spaces, [nextFrame t.machine, (t.machine.pools 0).paddr,
      t.machine.mmKernel])) = some ([0xC1001000, 0xC0200000], [0x1800000, 0x1400000, 0xC0200000]) := by decide +kernel
  obtain ⟨t, ht, heq⟩ := Option.map_eq_some_iff.mp hstep
  obtain ⟨hspaces, hrest⟩ := Prod.mk.inj heq
  simp only [List.cons.injEq, and_true] at hrest
  obtain ⟨hnext, hpaddr, hker⟩ := hrest
  obtain ⟨m, hrun⟩ := mmInit_returns smallMachine_boot
  have hstart : smallState = ⟨m, [0xC0200000]⟩ := by
    unfold smallState
    rw [hrun]
  have hclean : CleanPool smallState.machine := by
    rw [hstart]
    refine clean_booted smallMachine_boot (fun x hx => ?_) hrun
    have hout : x < 0x200000 + 4 * 768 ∨ 0x200000 + 4 * 768 + 4 ≤ x := by omega
    rw [show smallMachine.mem = store32 (fun _ => 0#8) (0x200000 + 4 * 768) 0x87 from rfl, store32_apply_of_outside hout]
  obtain ⟨horderly, hkeep⟩ := orderly_step (orderly_booted smallState_booted) ht (show Careful smallState .create from trivial)
  refine ⟨t, ht, hspaces, horderly, hkeep nofun hclean, hker, fun i hi => ?_⟩
  obtain rfl : i = 0 := by omega
  refine ⟨?_, fun x hx hin => ?_⟩
  · rw [Function.iterate_zero, id, hnext]
    decide
  · rw [Function.iterate_zero, id, InPaging, hnext, hpaddr, hker] at hin
    unfold kernelVirtBase at hin
    omega

theorem small_mapped : ∃ t, CarefulRun smallState t ∧ t.spaces = [0xC1001000, 0xC0200000] ∧ CleanPool t.machine ∧
    HasTable t.machine 0xC1001000 1 ∧ walk t.machine 0xC1001000 0x400000 = some (0x1800000, mmFlgUs ||| mmFlgWr) ∧
    ∃ u, t.after (mmUmapRange 0xC1001000 0x400000 1 0) = some u := by
  obtain ⟨s, hs, hspaces, horderly, hclean, hker, hahead⟩ := small_created
  have hsteps : (spaceSteps smallState [.create, .mapRange 0xC1001000 0x400000 1 (mmFlgUs ||| mmFlgWr)]).map (fun t => (t.spaces,
      [word t.machine 0xC1001000 1 % 2, word t.machine 0xC1001000 1 / 128 % 2], walk t.machine 0xC1001000 0x400000,
      (t.after (mmUmapRange 0xC1001000 0x400000 1 0)).isSome)) =
      some ([0xC1001000, 0xC0200000], [1, 0], some (0x1800000, mmFlgUs ||| mmFlgWr), true) := by decide +kernel
  obtain ⟨u, hu, heq⟩ := Option.map_eq_some_iff.mp hsteps
  obtain ⟨hspaces', hrest⟩ := Prod.mk.inj heq
  obtain ⟨htable, hwalk⟩ := Prod.mk.inj hrest
  obtain ⟨hwalk, hunmap⟩ := Prod.mk.inj hwalk
  simp only [List.cons.injEq, and_true] at htable
  obtain ⟨v, hv, hmap⟩ := Option.bind_eq_some_iff.mp hu
  obtain ⟨w, hw, hend⟩ := Option.bind_eq_some_iff.mp hmap
  obtain rfl := Option.some.inj hend
  obtain rfl : s = v := Option.some.inj (hs.symm.trans hv)
  have hcareful : Careful s (.mapRange 0xC1001000 0x400000 1 (mmFlgUs ||| mmFlgWr)) := by
    refine ⟨hclean, by decide +kernel, hahead, fun heq => ?_⟩
    rw [hker] at heq
    exact absurd heq (by decide)
  exact ⟨w, ((Run.refl _).tail hs trivial).tail hw hcareful, hspaces', (orderly_step horderly hw hcareful).2 nofun hclean, htable, hwalk,
    Option.isSome_iff_exists.mp hunmap⟩

end Example

section Results

variable {s t : SpaceState} {u : Machine} {pd dst src k a p f r flags : Nat}

/-- The low bits of `table_info` are the number of present entries of the table, and what is not present is zero. -/
theorem counts_exact (hs : Booted s) (hrun : CarefulRun s t) (hpd : pd ∈ t.spaces) (hk : k < 1023) (hhas : HasTable t.machine pd k) :
    slotInfo t.machine pd k % 4096 = (presentAt (word t.machine (tableOf t.machine pd k))).card ∧
      ∀ j < 1024, word t.machine (tableOf t.machine pd k) j % 2 = 0 → word t.machine (tableOf t.machine pd k) j = 0 := by
  have h : Orderly t.spaces t.machine := orderly_run hs hrun
  exact ⟨(h.tallied pd hpd k hk).count hhas, (h.tallied pd hpd k hk).zero hhas⟩

theorem counts_exact_small : ∃ t, CarefulRun smallState t ∧
    slotInfo t.machine 0xC1001000 1 % 4096 = (presentAt (word t.machine (tableOf t.machine 0xC1001000 1))).card := by
  obtain ⟨t, hrun, hspaces, _, hhas, _⟩ := small_mapped
  have hpd : 0xC1001000 ∈ t.spaces := by
    rw [hspaces]
    decide
  exact ⟨t, hrun, (counts_exact smallState_booted hrun hpd (by decide) hhas).1⟩

/-- No two user pages share a frame, in one space or in two, and a frame of a user page is in use and holds no
paging structure. -/
theorem frames_exclusive (hs : Booted s) (hrun : CarefulRun s t) (hpd : pd ∈ t.spaces) (ha : a < kernelVirtBase)
    (hmaps : walk t.machine pd a = some (p, f)) :
    bit t.machine.phys.bitmap (p / 4096) = true ∧ ¬InPaging t.machine p ∧
      ∀ pd' ∈ t.spaces, ∀ a' < kernelVirtBase, ∀ f', walk t.machine pd' a' = some (p, f') → pd' = pd ∧ a' = a := by
  have h : Orderly t.spaces t.machine := orderly_run hs hrun
  have hlt : ∀ {x}, x < kernelVirtBase → x < 4294967296 := fun {x} hx => lt_trans hx (by decide)
  rw [walk_of_sound h.sound hpd (hlt ha)] at hmaps
  obtain ⟨hused, hout, honly⟩ := h.exclusive.bytes hpd ha hmaps
  refine ⟨hused, hout, fun pd' hpd' a' ha' f' hmaps' => ?_⟩
  rw [walk_of_sound h.sound hpd' (hlt ha')] at hmaps'
  exact honly pd' hpd' a' ha' f' hmaps'

theorem frames_exclusive_small : ∃ t, CarefulRun smallState t ∧ bit t.machine.phys.bitmap (0x1800000 / 4096) = true := by
  obtain ⟨t, hrun, hspaces, _, _, hwalk, _⟩ := small_mapped
  have hpd : 0xC1001000 ∈ t.spaces := by
    rw [hspaces]
    decide
  exact ⟨t, hrun, (frames_exclusive smallState_booted hrun hpd (by decide) hwalk).1⟩

end Results

end YggKernel.Paging
