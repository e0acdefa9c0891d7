import YggKernel.Paging.Accounting

namespace YggKernel.Paging

open Lib.Program Lib.ByteMemory Lib.BitWords Lib.Masks Lib.Runs Phys Pool

/-- The two calls that map 4 KiB pages one after another. -/
inductive MapCall
  | range
  | pages (frames : Nat → Nat)

def MapCall.call (c : MapCall) (pd start count flags : Nat) : Prog Fault Machine Nat :=
  match c with
  | .range => mmMapRange pd start count flags
  | .pages frames => mmMapRangePages pd start frames count flags

def MapCall.round (c : MapCall) (pd info start flags i : Nat) : Prog Fault Machine Unit :=
  match c with
  | .range => mapRangePage pd info flags (page start i)
  | .pages frames => mapPagesPage pd info flags (frames i) (page start i)

def MapCall.Comes (c : MapCall) (s : Machine) (pd start flags i : Nat) (u : Machine) : Prop :=
  forUp 0 i (c.round pd (infoOf s pd) start flags) s = .ok ((), u)

def nextPage (s : Machine) : Option Nat :=
  match x86PagePoolAllocate poolHost s with
  | .ok (some (v, _), _) => some v
  | _ => none

/-- To map the page `v` the call makes a table, and the page of the pool for it still has a present entry
where it maps `a`. -/
def StaleAt (u : Machine) (pd v a : Nat) : Prop :=
  slotOf a = slotOf v ∧ word u pd (slotOf v) % 2 = 0 ∧ ∃ w, nextPage u = some w ∧ word u w (indexOf a) % 2 = 1

def Outside (start count a : Nat) : Prop := a < 4294967296 ∧ ∀ i < count, a / 4096 ≠ page start i / 4096

instance (start count a : Nat) : Decidable (Outside start count a) := inferInstanceAs (Decidable (_ ∧ _))

def OthersKept (s t : Machine) (pd start count : Nat) : Prop :=
  ∀ a, Outside start count a → (mmTranslate pd a t).map Prod.fst = (mmTranslate pd a s).map Prod.fst

section Pages

variable {s t : Machine} {spaces : List Nat} {owner : Owner} {pd k j e a v w m n : Nat} {p q q' : Nat → PagePool}

theorem nextPage_eq (hg : Geometry s) (took : TookPoolPage s.pools n q) : nextPage s = some (poolPage n) := by
  have hleft : WordLeft (s.pools 0) := by
    have hlt := took.lt
    refine ⟨n / 32, took.upward, by omega, fun hfull => ?_⟩
    have hclear := took.clear
    unfold bit at hclear
    rw [hfull, getLsbD_full (Nat.mod_lt _ (by decide))] at hclear
    cases hclear
  have hwp : wp (x86PagePoolAllocate poolHost) noFault
      (fun r _ => r = some (poolPage n, physOf s (poolPage n))) s :=
    wp_poolAllocate hg (fun hno => absurd hleft hno) fun m ps took' => by rw [took.unique took']
  obtain ⟨r, t, hrun, rfl⟩ := run_of_wp hwp
  unfold nextPage
  rw [hrun]

theorem nextPage_some (hg : Geometry s) (hnext : nextPage s = some w) : ∃ n ps, TookPoolPage s.pools n ps ∧ w = poolPage n := by
  have hwp : wp (x86PagePoolAllocate poolHost) anyFault (fun r _ => ∃ n ps, TookPoolPage s.pools n ps ∧
      r = some (poolPage n, physOf s (poolPage n))) s :=
    wp_poolAllocate hg (fun _ _ => trivial) fun n ps took => ⟨n, ps, took, rfl⟩
  unfold nextPage at hnext
  cases hrun : x86PagePoolAllocate poolHost s with
  | error e =>
    rw [hrun] at hnext
    cases hnext
  | ok x =>
    obtain ⟨r, t⟩ := x
    obtain ⟨n, ps, took, rfl⟩ := of_run hwp hrun
    rw [hrun] at hnext
    exact ⟨n, ps, took, (Option.some.inj hnext).symm⟩

theorem nextPage_congr (hg : Geometry s) (hg' : Geometry t) (hp : t.pools = s.pools) : nextPage t = nextPage s := by
  refine Option.ext fun w => ⟨fun hnext => ?_, fun hnext => ?_⟩
  · obtain ⟨n, ps, took, rfl⟩ := nextPage_some hg' hnext
    rw [hp] at took
    exact nextPage_eq hg took
  · obtain ⟨n, ps, took, rfl⟩ := nextPage_some hg hnext
    rw [← hp] at took
    exact nextPage_eq hg' took

theorem staleAt_takeFrame (h : Tree s spaces owner) : StaleAt (takeFrame s) pd v a ↔ StaleAt s pd v a := by
  unfold StaleAt
  rw [nextPage_congr h.geometry h.takeFrame.geometry rfl]
  rfl

end Pages

section Rounds

variable {s t u w : Machine} {spaces : List Nat} {owner : Owner} {pd start count flags i k j e a v : Nat} {c : MapCall}

def Turns (s t : Machine) (pd v a : Nat) : Prop :=
  (StaleAt s pd v a ∧ translation s pd a = none ∧ translation t pd a ≠ none) ∨
    ¬StaleAt s pd v a ∧ translation t pd a = translation s pd a

theorem Entered.translation_other {f : Nat} (h : Tree s spaces owner) (hpd : pd ∈ spaces) (hk : a / 4194304 < 1023) (hj : j < 1024)
    (hpr : word s pd (a / 4194304) % 2 = 1) (hps : word s pd (a / 4194304) / 128 % 2 = 0)
    (hsame : f / 4096 = slotInfo s pd (a / 4194304) / 4096) (hc : Entered s t pd (a / 4194304) j e f) (hne : a / 4096 % 1024 ≠ j) :
    translation t pd a = translation s pd a := by
  have hinfo := (((h.spaces pd hpd).slots _ hk).entry hpr hps).1
  have hbefore : slotAt s pd (a / 4194304) = .table (entriesAt s (tableOf s pd (a / 4194304))) := by
    unfold slotAt
    rw [if_neg (by omega), if_neg (by omega)]
  have hafter := hc.slotAt_eq h hpd hk hinfo hsame hj hpr hps
  rw [translation_table hbefore rfl rfl, translation_table hafter rfl rfl, Function.update_of_ne hne]

theorem Mapped.turns (h : Tree s spaces owner) (hpd : pd ∈ spaces) (hk : v / 4194304 < 1023) (ha : a < 4294967296)
    (hne : a / 4096 ≠ v / 4096) (hm : Mapped s t pd (v / 4194304) (v / 4096 % 1024) e) : Turns s t pd v a := by
  have hj : v / 4096 % 1024 < 1024 := Nat.mod_lt _ (by decide)
  by_cases hslot : a / 4194304 = v / 4194304
  · have hindex : a / 4096 % 1024 ≠ v / 4096 % 1024 := by omega
    cases hm with
    | new n habsent hc =>
      have hbefore : translation s pd a = none := translation_absent (if_pos habsent) hslot
      have hafter : translation t pd a = leaf (word s (poolPage n) (a / 4096 % 1024)) a := by
        rw [translation_table (hc.slotAt_eq h hpd hk (by decide)) hslot rfl, if_pos (Nat.mod_lt _ (by decide)), if_neg hindex]
      have hnext := nextPage_eq h.geometry hc.took
      rcases Nat.mod_two_eq_zero_or_one (word s (poolPage n) (a / 4096 % 1024)) with heven | hodd
      · refine .inr ⟨?_, by rw [hafter, hbefore, leaf_even heven]⟩
        rintro ⟨_, _, w, hw, hodd⟩
        obtain rfl := Option.some.inj (hnext.symm.trans hw)
        unfold indexOf at hodd
        omega
      · refine .inl ⟨⟨hslot, habsent, _, hnext, hodd⟩, hbefore, ?_⟩
        rw [hafter]
        exact leaf_ne_none hodd a
    | old hpr hps hroom hc =>
      refine .inr ⟨fun hstale => ?_, ?_⟩
      · have habsent := hstale.2.1
        unfold slotOf at habsent
        omega
      · rw [← hslot] at hpr hps hroom hc hk
        exact hc.translation_other h hpd hk hj hpr hps (by omega) hindex
  · exact .inr ⟨fun hstale => hslot hstale.1, (hm.slotChange h hpd hk).translation_eq h hpd hk hpd ha fun hh => hslot hh.2⟩

structure Between (s : Machine) (spaces : List Nat) (pd : Nat) (u : Machine) : Prop where
  tree : ∃ owner, Tree u spaces owner
  info : infoOf u pd = infoOf s pd
  hint : u.phys.allocLast < 4294967296

def MapCall.Given (c : MapCall) (count : Nat) : Prop :=
  match c with
  | .range => True
  | .pages frames => ∀ i < count, frames i < 4294967296

/-- One round keeps the structures, and the translations outside of its page unless its table is stale. -/
theorem MapCall.round_turns (hb : Between s spaces pd u) (hpd : pd ∈ spaces) (hgiven : c.Given count) (hi : i < count)
    (hslot : slotOf (page start i) < 1023) (hrun : c.round pd (infoOf s pd) start flags i u = .ok ((), w)) :
    Between s spaces pd w ∧ ∀ a, Outside start count a → Turns u w pd (page start i) a := by
  obtain ⟨⟨owner, h⟩, hinfo, hhint⟩ := hb
  have hpages : ∀ {x e}, Tree x spaces owner → infoOf x pd = infoOf s pd → x.phys.allocLast < 4294967296 →
      Mapped x w pd (page start i / 4194304) (page start i / 4096 % 1024) e →
      Between s spaces pd w ∧ ∀ a, Outside start count a → Turns x w pd (page start i) a := by
    intro x e h hinfo hhint hm
    obtain ⟨owner', h', _⟩ := hm.tree h hpd hslot
    refine ⟨⟨⟨owner', h'⟩, ?_, ?_⟩, fun a ha => hm.turns h hpd hslot ha.1 (ha.2 i hi)⟩
    · rw [(hm.slotChange h hpd hslot).infoOf_eq h hpd hpd hslot, hinfo]
    · rw [hm.phys]
      exact hhint
  cases c with
  | range =>
    have hround : wp (mapRangePage pd (infoOf u pd) flags (page start i)) anyFault (fun _ w => w = takeFrame u ∧
        word u pd (page start i / 4194304) % 2 = 1 ∨
          Mapped (takeFrame u) w pd (page start i / 4194304) (page start i / 4096 % 1024) (nextFrame u ||| leafFlags flags)) u :=
      wp_mapRangePage flags h hpd rfl hslot rfl (nextFrame_lt hhint) (fun _ _ _ => trivial) (fun _ _ => trivial)
        (fun t _ hm => .inr hm) fun hpr _ _ => .inl ⟨rfl, hpr⟩
    rw [hinfo] at hround
    rcases of_run hround hrun with ⟨rfl, hpr⟩ | hm
    · refine ⟨⟨⟨owner, h.takeFrame⟩, hinfo, takeFrame_hint hhint⟩, fun a _ => .inr ⟨fun hstale => ?_, rfl⟩⟩
      have habsent := hstale.2.1
      unfold slotOf at habsent
      omega
    · obtain ⟨hbetween, hturns⟩ := hpages h.takeFrame hinfo (takeFrame_hint hhint) hm
      refine ⟨hbetween, fun a ha => ?_⟩
      have hturn := hturns a ha
      unfold Turns at hturn
      rwa [staleAt_takeFrame h] at hturn
  | pages frames =>
    have hround : wp (mapPagesPage pd (infoOf u pd) flags (frames i) (page start i)) anyFault
        (fun _ w => Mapped u w pd (page start i / 4194304) (page start i / 4096 % 1024) (frames i ||| leafFlags flags)) u :=
      wp_mapPagesPage flags h hpd rfl hslot rfl (hgiven i hi) (fun _ _ _ => trivial) (fun _ _ => trivial) fun t hm => hm
    rw [hinfo] at hround
    exact hpages h hinfo hhint (of_run hround hrun)

end Rounds

section Loop

variable {s t u w : Machine} {spaces : List Nat} {owner : Owner} {pd start count flags r i m a : Nat} {c : MapCall}

theorem comes_zero : c.Comes s pd start flags 0 u ↔ u = s := by
  unfold MapCall.Comes forUp
  exact ⟨fun h => (congrArg Prod.snd (Except.ok.inj h)).symm, fun h => h ▸ rfl⟩

theorem comes_succ : c.Comes s pd start flags (i + 1) w ↔
    ∃ u, c.Comes s pd start flags i u ∧ c.round pd (infoOf s pd) start flags i u = .ok ((), w) := by
  unfold MapCall.Comes
  rw [forUp_succ, run_bind, Nat.zero_add]
  exact ⟨fun ⟨_, u, hu, hw⟩ => ⟨u, hu, hw⟩, fun ⟨u, hu, hw⟩ => ⟨(), u, hu, hw⟩⟩

theorem comes_unique (h : c.Comes s pd start flags i t) (h' : c.Comes s pd start flags i u) : u = t :=
  congrArg Prod.snd (Except.ok.inj (h'.symm.trans h))

theorem comes_of_call (h : Tree s spaces owner) (hpd : pd ∈ spaces) (hsmall : flags &&& mmFlgPs = 0)
    (hcall : c.call pd start count flags s = .ok (r, t)) : c.Comes s pd start flags count t := by
  cases c with
  | range => exact ((mmMapRange_run h hpd).mp hcall).2.2.2
  | pages frames =>
    have hwp : wp (mmMapRangePages pd start frames count flags) anyFault
        (fun _ t => MapCall.Comes (.pages frames) s pd start flags count t) s := by
      rw [mmMapRangePages, wp_bind, wp_kassert]
      refine ⟨fun _ => ?_, fun _ => trivial⟩
      rw [if_neg (not_not.mpr hsmall), wp_bind, wp_entry h.geometry (h.dirPage hpd) (by decide), wp_bind]
      show wp (forUp 0 count (MapCall.round (.pages frames) pd (infoOf s pd) start flags)) _ _ s
      cases hrun : forUp 0 count (MapCall.round (.pages frames) pd (infoOf s pd) start flags) s with
      | error fault =>
        unfold wp
        rw [hrun]
        trivial
      | ok x =>
        rw [wp_of_run hrun, wp_pure]
        exact hrun
    exact of_run hwp hcall

theorem answer_injective {x y : Option (Nat × Nat)} (heq : answer x = answer y) : x = y := by
  rcases x with _ | ⟨p, f⟩ <;> rcases y with _ | ⟨q, g⟩
  · rfl
  · cases heq
  · cases heq
  · injection heq with hp hf
    rw [hp, Option.some.inj hf]

theorem translate_run (hpd : pd ∈ spaces) (ha : a < 4294967296) (hb : Between s spaces pd u) :
    (mmTranslate pd a u).map Prod.fst = .ok (answer (translation u pd a)) := by
  obtain ⟨owner', h'⟩ := hb.tree
  have hwp : wp (mmTranslate pd a) noFault (fun r _ => r = answer (translation u pd a)) u := (wp_mmTranslate h' hpd ha).mpr rfl
  obtain ⟨r, x, hrun, rfl⟩ := run_of_wp hwp
  rw [hrun]
  rfl

variable (h : Tree s spaces owner) (hpd : pd ∈ spaces) (hhint : s.phys.allocLast < 4294967296) (hgiven : c.Given count)
  (hslots : ∀ i < count, slotOf (page start i) < 1023)
include h hpd hhint hgiven hslots

theorem between_comes (hi : i ≤ count) (hcomes : c.Comes s pd start flags i u) : Between s spaces pd u := by
  induction i generalizing u with
  | zero =>
    rw [comes_zero.mp hcomes]
    exact ⟨⟨owner, h⟩, rfl, hhint⟩
  | succ i ih =>
    obtain ⟨x, hx, hrun⟩ := comes_succ.mp hcomes
    exact (MapCall.round_turns (ih (Nat.le_of_succ_le hi) hx) hpd hgiven hi (hslots i hi) hrun).1

/-- The translation of an address outside of the range is kept up to the first stale table, and is a new one
from there on. -/
theorem translation_comes (ha : Outside start count a) (hm : m ≤ count) (hcomes : c.Comes s pd start flags m u) :
    ((∀ i < m, ∀ x, c.Comes s pd start flags i x → ¬StaleAt x pd (page start i) a) ∧ translation u pd a = translation s pd a) ∨
      (∃ i < m, ∃ x, c.Comes s pd start flags i x ∧ StaleAt x pd (page start i) a) ∧
        translation s pd a = none ∧ translation u pd a ≠ none := by
  induction m generalizing u with
  | zero =>
    rw [comes_zero.mp hcomes]
    exact .inl ⟨fun _ hi => absurd hi (Nat.not_lt_zero _), rfl⟩
  | succ m ih =>
    obtain ⟨x, hx, hrun⟩ := comes_succ.mp hcomes
    have hbetween := between_comes h hpd hhint hgiven hslots (Nat.le_of_succ_le hm) hx
    have hturns := (MapCall.round_turns hbetween hpd hgiven hm (hslots m hm) hrun).2 a ha
    rcases ih (Nat.le_of_succ_le hm) hx with ⟨hclean, hkept⟩ | ⟨⟨i, hi, y, hy, hstale⟩, hnone, hsome⟩
    · rcases hturns with ⟨hstale, hnone, hsome⟩ | ⟨hfresh, hsame⟩
      · exact .inr ⟨⟨m, Nat.lt_succ_self m, x, hx, hstale⟩, hkept.symm.trans hnone, hsome⟩
      · refine .inl ⟨fun i hi y hy => ?_, hsame.trans hkept⟩
        rcases Nat.lt_succ_iff_lt_or_eq.mp hi with hlt | rfl
        · exact hclean i hlt y hy
        · rwa [comes_unique hx hy]
    · refine .inr ⟨⟨i, Nat.lt_succ_of_lt hi, y, hy, hstale⟩, hnone, ?_⟩
      rcases hturns with ⟨_, _, hmapped⟩ | ⟨_, hsame⟩
      · exact hmapped
      · rwa [hsame]

theorem othersKept_comes_iff (hcomes : c.Comes s pd start flags count u) :
    OthersKept s u pd start count ↔ ∀ a, Outside start count a → ∀ i < count, ∀ x,
      c.Comes s pd start flags i x → ¬StaleAt x pd (page start i) a := by
  have hbefore : Between s spaces pd s := ⟨⟨owner, h⟩, rfl, hhint⟩
  have hafter := between_comes h hpd hhint hgiven hslots (le_refl count) hcomes
  refine forall₂_congr fun a ha => ?_
  rw [translate_run hpd ha.1 hafter, translate_run hpd ha.1 hbefore]
  constructor
  · intro heq
    have hkept := answer_injective (Except.ok.inj heq)
    rcases translation_comes h hpd hhint hgiven hslots ha (le_refl count) hcomes with ⟨hclean, _⟩ | ⟨_, hnone, hsome⟩
    · exact hclean
    · exact absurd (hkept.trans hnone) hsome
  · intro hclean
    rcases translation_comes h hpd hhint hgiven hslots ha (le_refl count) hcomes with ⟨_, hkept⟩ | ⟨⟨i, hi, x, hx, hstale⟩, _⟩
    · rw [hkept]
    · exact absurd hstale (hclean i hi x hx)

end Loop

section Calls

variable {s t : SpaceState} {u : Machine} {pd start count flags r : Nat} {c : MapCall}

/-- A call over 4 KiB pages leaves every other translation of its space alone just when no table that it makes
was taken from the pool with a present entry for another page. -/
theorem others_kept_iff (hs : Booted s) (hrun : SpaceRun s t) (hpd : pd ∈ t.spaces) (hgiven : c.Given count)
    (hslots : ∀ i < count, slotOf (page start i) < 1023) (hsmall : flags &&& mmFlgPs = 0)
    (hcall : c.call pd start count flags t.machine = .ok (r, u)) :
    OthersKept t.machine u pd start count ↔ ∀ a, Outside start count a → ∀ i < count, ∀ x,
      c.Comes t.machine pd start flags i x → ¬StaleAt x pd (page start i) a := by
  have hsound : Paging.Sound t.spaces t.machine := sound_run hs hrun
  obtain ⟨owner, h⟩ := hsound.tree
  exact othersKept_comes_iff h hpd hsound.hint hgiven hslots (comes_of_call h hpd hsmall hcall)

/-- The directory of a space that is gone becomes a table: the page at 0x400000 was asked for, the kernel's
huge page that the old directory mapped last turns up at 0x700000. -/
theorem others_kept_recycled : ∃ t u, SpaceRun smallState t ∧ 0xC1003000 ∈ t.spaces ∧
    mmMapRange 0xC1003000 0x400000 1 mmFlgUs t.machine = .ok (0, u) ∧ ¬OthersKept t.machine u 0xC1003000 0x400000 1 ∧
    ∃ a x, Outside 0x400000 1 a ∧ MapCall.range.Comes t.machine 0xC1003000 0x400000 mmFlgUs 0 x ∧
      StaleAt x 0xC1003000 (page 0x400000 0) a := by
  have hsteps : (spaceSteps smallState [.create, .clone 0xC1001000 0xC0200000 mmFlgCloneKernel, .create,
      .destroy 0xC1001000]).map (fun t => (t.spaces,
        (MapCall.range.call 0xC1003000 0x400000 1 mmFlgUs t.machine).map Prod.fst,
        decide ((mmTranslate 0xC1003000 0x700000 (after ((fun _ => ()) <$>
          MapCall.range.call 0xC1003000 0x400000 1 mmFlgUs) t.machine)).map Prod.fst =
            (mmTranslate 0xC1003000 0x700000 t.machine).map Prod.fst))) =
      some ([0xC1003000, 0xC0200000], .ok 0, false) := by decide +kernel
  obtain ⟨t, ht, heq⟩ := Option.map_eq_some_iff.mp hsteps
  obtain ⟨hspaces, hrest⟩ := Prod.mk.inj heq
  obtain ⟨hcall, hchanged⟩ := Prod.mk.inj hrest
  have hrun : SpaceRun smallState t := by
    refine spaceRun_steps (Run.refl _) (fun op hop v w => ?_) ht
    simp only [List.mem_cons, List.not_mem_nil, or_false] at hop
    rcases hop with rfl | rfl | rfl | rfl <;> trivial
  have hpd : 0xC1003000 ∈ t.spaces := by
    rw [hspaces]
    decide
  have hiff := others_kept_iff (c := .range) smallState_booted hrun hpd trivial (by decide +kernel) (by decide)
    (run_after_of hcall)
  have hbroken : ¬OthersKept t.machine (after ((fun _ => ()) <$>
      MapCall.range.call 0xC1003000 0x400000 1 mmFlgUs) t.machine) 0xC1003000 0x400000 1 :=
    fun hkept => of_decide_eq_false hchanged (hkept 0x700000 (by decide +kernel))
  refine ⟨t, _, hrun, hpd, run_after_of hcall, hbroken, ?_⟩
  rw [hiff] at hbroken
  push Not at hbroken
  obtain ⟨a, ha, i, hi, x, hx, hstale⟩ := hbroken
  obtain rfl := Nat.lt_one_iff.mp hi
  exact ⟨a, x, ha, hx, hstale⟩

end Calls

end YggKernel.Paging
