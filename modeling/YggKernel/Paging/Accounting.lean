import YggKernel.Paging.Ranges
import YggKernel.Paging.Rows

namespace YggKernel.Paging

open Lib.Program Lib.ByteMemory Lib.BitWords Lib.Masks Lib.Runs Phys Pool

def walk (s : Machine) (pd a : Nat) : Option (Nat × Nat) := mmuWalk s.mem (physOf s pd) a

def page (start i : Nat) : Nat := u32 (start + i * 0x1000)

def rangeRounds (pd info start flags count : Nat) : Prog Fault Machine Unit :=
  forUp 0 count fun i => mapRangePage pd info flags (page start i)

def After (s : Machine) (pd start flags i : Nat) (u : Machine) : Prop :=
  rangeRounds pd (infoOf s pd) start flags i s = .ok ((), u)

structure Gets (s : Machine) (pd start count flags i : Nat) (u : Machine) : Prop where
  small : flags &&& mmFlgPs = 0
  aligned : start &&& 0xFFF = 0
  lt : i < count
  run : After s pd start flags i u

def slotOf (v : Nat) : Nat := v / 4194304

def indexOf (v : Nat) : Nat := v / 4096 % 1024

section Round

variable {s t : Machine} {pd info k j e a v flags : Nat}

theorem walk_congr (h : Rows s pd info) (h' : Rows t pd info) (ha : a < 4294967296)
    (hrow : rowAt t pd info (a / 4194304) = rowAt s pd info (a / 4194304)) : walk t pd a = walk s pd a := by
  unfold walk
  rw [h.walk_eq ha, h'.walk_eq ha, hrow]

theorem RangeRound.rows (h : Rows s pd info) (hk : k < 1024) (hr : RangeRound s t pd info k j e) : Rows t pd info := by
  cases hr with
  | added n _ hc => exact (hc.rowChange h.takeFrame hk).rows h.takeFrame
  | set htable _ hroom hc => exact (hc.rowChange h.takeFrame hk htable hroom).rows h.takeFrame
  | kept _ _ heq => exact heq ▸ h.takeFrame

theorem RangeRound.phys (hr : RangeRound s t pd info k j e) : t.phys = (takeFrame s).phys := by
  cases hr with
  | added n _ hc => exact hc.phys
  | set _ _ _ hc => exact hc.phys
  | kept _ _ heq => rw [heq]

theorem rowAt_table (ht : HasTable s pd k) : rowAt s pd info k = .table (entriesAt s (tableAt s info k)) := by
  have h1 := ht.1
  have h2 := ht.2
  unfold rowAt
  rw [if_neg (by omega), if_neg (by omega)]

theorem walk_table (h : Rows s pd info) (ha : a < 4294967296) {entries : Nat → Nat}
    (hrow : rowAt s pd info (a / 4194304) = .table entries) : walk s pd a = leaf (entries (a / 4096 % 1024)) a := by
  unfold walk
  rw [h.walk_eq ha, hrow]
  rfl

theorem leaf_ne_none (hodd : e % 2 = 1) (a : Nat) : leaf e a ≠ none := by
  unfold leaf
  rw [if_neg (by omega)]
  exact Option.some_ne_none _

theorem RangeRound.walk_keep (h : Rows s pd info) (hv : v < 4294967296) (hodd : e % 2 = 1)
    (hr : RangeRound s t pd info (v / 4194304) (v / 4096 % 1024) e) (ha : a < 4294967296) (hmapped : walk s pd a ≠ none) :
    walk t pd a ≠ none := by
  have hk : v / 4194304 < 1024 := by omega
  have h' := hr.rows h hk
  have hj : v / 4096 % 1024 < 1024 := Nat.mod_lt _ (by decide)
  cases hr with
  | added n habsent hc =>
    have hchange := hc.rowChange h.takeFrame hk
    have hslot : a / 4194304 ≠ v / 4194304 := by
      intro heq
      refine hmapped ?_
      unfold walk
      rw [h.walk_eq ha, heq, rowAt, if_pos habsent]
      rfl
    rwa [walk_congr h.takeFrame h' ha (hchange.rowAt_eq (by omega) hslot)]
  | set htable hclear hroom hc =>
    have hchange := hc.rowChange h.takeFrame hk htable hroom
    by_cases hslot : a / 4194304 = v / 4194304
    · have hrow := hc.rowAt_eq h.takeFrame hk htable hroom hj
      rw [← hslot] at hrow htable
      rw [walk_table h' ha hrow]
      by_cases hindex : a / 4096 % 1024 = v / 4096 % 1024
      · rw [hindex, Function.update_self]
        exact leaf_ne_none hodd a
      · rw [Function.update_of_ne hindex]
        rwa [walk_table h ha (rowAt_table htable)] at hmapped
    · rwa [walk_congr h.takeFrame h' ha (hchange.rowAt_eq (by omega) hslot)]
  | kept _ _ heq => rwa [heq]

theorem hasTable_of_rowAt {info : Nat} {entries : Nat → Nat} (hrow : rowAt s pd info k = .table entries) : HasTable s pd k := by
  unfold rowAt at hrow
  split at hrow
  · cases hrow
  split at hrow
  · cases hrow
  · exact ⟨by omega, by omega⟩

theorem RangeRound.others (h : Rows s pd info) (hv : v < 4294967296)
    (hr : RangeRound s t pd info (v / 4194304) (v / 4096 % 1024) e) (hhas : HasTable s pd (slotOf v)) :
    (∀ k < 1024, HasTable s pd k → HasTable t pd k) ∧ ∀ a < 4294967296, v / 4096 ≠ a / 4096 → walk t pd a = walk s pd a := by
  have hk : v / 4194304 < 1024 := by omega
  have h' := hr.rows h hk
  have hj : v / 4096 % 1024 < 1024 := Nat.mod_lt _ (by decide)
  cases hr with
  | added n habsent hc => exact absurd hhas.1 (by unfold slotOf; omega)
  | set htable hclear hroom hc =>
    have hchange := hc.rowChange h.takeFrame hk htable hroom
    have hrow := hc.rowAt_eq h.takeFrame hk htable hroom hj
    refine ⟨fun k hk' hhas' => ?_, fun a ha hne => ?_⟩
    · by_cases hslot : k = v / 4194304
      · rw [hslot]
        exact hasTable_of_rowAt hrow
      · exact (hchange.hasTable_iff hk' hslot).mpr hhas'
    · by_cases hslot : a / 4194304 = v / 4194304
      · rw [← hslot] at hrow htable
        rw [walk_table h' ha hrow, walk_table h ha (rowAt_table htable), Function.update_of_ne (by omega)]
        rfl
      · exact walk_congr h h' ha (hchange.rowAt_eq (by omega) hslot)
  | kept _ _ heq => exact ⟨fun _ _ hhas' => heq ▸ hhas', fun _ _ _ => by rw [heq]; rfl⟩

theorem RangeRound.walk_enter (h : Rows s pd info) (hv : v < 4294967296) (he : e < 4294967296) (hodd : e % 2 = 1)
    (hr : RangeRound s t pd info (v / 4194304) (v / 4096 % 1024) e) (hfree : walk s pd v = none) :
    walk t pd v = some (e / 4096 * 4096 + v % 4096, e &&& (mmFlgUs ||| mmFlgWr)) := by
  have hk : v / 4194304 < 1024 := by omega
  have h' := hr.rows h hk
  have hj : v / 4096 % 1024 < 1024 := Nat.mod_lt _ (by decide)
  cases hr with
  | added n habsent hc =>
    obtain ⟨entries, hrow, hentry⟩ := hc.rowAt_eq h.takeFrame hk
    rw [walk_table h' hv hrow, hentry hj, leaf_eq he hodd]
  | set htable hclear hroom hc =>
    rw [walk_table h' hv (hc.rowAt_eq h.takeFrame hk htable hroom hj), Function.update_self, leaf_eq he hodd]
  | kept htable hpresent _ =>
    rw [walk_table h hv (rowAt_table htable)] at hfree
    unfold entriesAt at hfree
    rw [if_pos hj] at hfree
    exact absurd hfree (leaf_ne_none hpresent v)

end Round

section Loop

variable {s t u w : Machine} {spaces : List Nat} {owner : Owner} {pd start count flags i m n : Nat}

theorem page_lt (start i : Nat) : page start i < 4294967296 := u32_lt _

theorem page_div_ne {j : Nat} (haligned : start &&& 0xFFF = 0) (hi : i < 1048576) (hj : j < 1048576) (hne : i ≠ j) :
    page start i / 4096 ≠ page start j / 4096 := by
  rw [and_offset] at haligned
  unfold page u32
  omega

theorem after_zero : After s pd start flags 0 t ↔ t = s := by
  unfold After rangeRounds forUp
  exact ⟨fun h => (congrArg Prod.snd (Except.ok.inj h)).symm, fun h => h ▸ rfl⟩

theorem after_succ : After s pd start flags (i + 1) w ↔
    ∃ u, After s pd start flags i u ∧ mapRangePage pd (infoOf s pd) flags (page start i) u = .ok ((), w) := by
  unfold After rangeRounds
  rw [forUp_succ, run_bind, Nat.zero_add]
  exact ⟨fun ⟨_, u, hu, hw⟩ => ⟨u, hu, hw⟩, fun ⟨u, hu, hw⟩ => ⟨(), u, hu, hw⟩⟩

theorem after_of_le (h : After s pd start flags m t) (hi : i ≤ m) : ∃ u, After s pd start flags i u := by
  induction m generalizing t with
  | zero =>
    obtain rfl := Nat.le_zero.mp hi
    exact ⟨t, h⟩
  | succ m ih =>
    rcases Nat.lt_or_eq_of_le hi with hlt | rfl
    · obtain ⟨u, hu, _⟩ := after_succ.mp h
      exact ih hu (Nat.le_of_lt_succ hlt)
    · exact ⟨t, h⟩

theorem after_unique (h : After s pd start flags i t) (h' : After s pd start flags i u) : u = t :=
  congrArg Prod.snd (Except.ok.inj (h'.symm.trans h))

def newEntry (u : Machine) (flags : Nat) : Nat := nextFrame u ||| leafFlags flags

theorem newEntry_odd (u : Machine) (flags : Nat) : newEntry u flags % 2 = 1 := or_odd (leafFlags_odd flags)

theorem slotOf_lt (start i : Nat) : slotOf (page start i) < 1024 := by
  have := page_lt start i
  unfold slotOf
  omega

structure Reached (s u : Machine) (pd : Nat) : Prop where
  rows : Rows u pd (infoOf s pd)
  hint : u.phys.allocLast < 4294967296
  mapped : ∀ a < 4294967296, walk s pd a ≠ none → walk u pd a ≠ none
  frames : ∀ n, bit s.phys.bitmap n = true → bit u.phys.bitmap n = true

theorem takeFrame_bits (hp : s.phys.allocLast < 4294967296) (n : Nat) (h : bit s.phys.bitmap n = true) :
    bit (takeFrame s).phys.bitmap n = true := by
  rcases nextFrame_cases hp with ⟨m, took, _⟩ | ⟨_, _, heq⟩
  · rw [took.bit_eq, h, Bool.true_or]
  · rwa [heq]

theorem round_run (h : Reached s u pd) (hrun : mapRangePage pd (infoOf s pd) flags (page start i) u = .ok ((), w)) :
    Admits u pd (infoOf s pd) flags (slotOf (page start i)) (indexOf (page start i)) ∧
      RangeRound u w pd (infoOf s pd) (slotOf (page start i)) (indexOf (page start i)) (newEntry u flags) := by
  have hround : wp (mapRangePage pd (infoOf s pd) flags (page start i)) anyFault (fun _ w =>
      Admits u pd (infoOf s pd) flags (slotOf (page start i)) (indexOf (page start i)) ∧
        RangeRound u w pd (infoOf s pd) (slotOf (page start i)) (indexOf (page start i)) (newEntry u flags)) u :=
    wp_rangeRound flags h.rows rfl (slotOf_lt start i) rfl (nextFrame_lt h.hint) (fun _ _ _ => trivial) (fun _ _ => trivial)
      fun w hadmits hr => ⟨hadmits, hr⟩
  exact of_run hround hrun

theorem Reached.round (h : Reached s u pd)
    (hr : RangeRound u w pd (infoOf s pd) (slotOf (page start i)) (indexOf (page start i)) (newEntry u flags)) : Reached s w pd := by
  refine ⟨hr.rows h.rows (slotOf_lt start i), ?_, fun a ha hmapped => ?_, fun n hn => ?_⟩
  · rw [hr.phys]
    exact takeFrame_hint h.hint
  · exact hr.walk_keep h.rows (page_lt start i) (newEntry_odd u flags) ha (h.mapped a ha hmapped)
  · rw [hr.phys]
    exact takeFrame_bits h.hint n (h.frames n hn)

theorem reached_after (h : Tree s spaces owner) (hpd : pd ∈ spaces) (hhint : s.phys.allocLast < 4294967296)
    (ha : After s pd start flags i u) : Reached s u pd := by
  induction i generalizing u with
  | zero =>
    rw [after_zero.mp ha]
    exact ⟨h.rows hpd, hhint, fun _ _ hmapped => hmapped, fun _ hn => hn⟩
  | succ i ih =>
    obtain ⟨x, hx, hrun⟩ := after_succ.mp ha
    exact (ih hx).round (round_run (ih hx) hrun).2

end Loop

section Claims

variable (s : Machine) (pd start count flags : Nat)

def NewlyUsed (s t : Machine) (n : Nat) : Prop := bit s.phys.bitmap n = false ∧ bit t.phys.bitmap n = true

def Enters (i n : Nat) : Prop := ∃ u w, Gets s pd start count flags i u ∧ After s pd start flags (i + 1) w ∧
  walk u pd (page start i) = none ∧ ∃ f, walk w pd (page start i) = some (4096 * n, f)

/-- The allocator has no frame for a page, or the page pool no page for its table. -/
def RunsOut (u : Machine) (pd v : Nat) : Prop :=
  word u pd (slotOf v) / 128 % 2 = 0 ∧
    (nextFrame u = mmNaddr ∨ word u pd (slotOf v) % 2 = 0 ∧ ¬WordLeft (u.pools 0))

/-- The frames that the call takes are those that it enters, one for each page that was not mapped.
When memory runs out, the call fails, enters only frames that it was given and keeps none. -/
structure Accounts : Prop where
  exact : ∀ t, mmMapRange pd start count flags s = .ok (0, t) →
    (∀ n, NewlyUsed s t n ↔ ∃ i, Enters s pd start count flags i n) ∧
      ∀ i < count, walk s pd (page start i) = none ↔
        ∃ i' n, page start i' = page start i ∧ Enters s pd start count flags i' n
  exhausted : ∀ i u, Gets s pd start count flags i u → RunsOut u pd (page start i) →
    ∃ r t, mmMapRange pd start count flags s = .ok (r, t) ∧ r ≠ 0 ∧ t.phys.bitmap = s.phys.bitmap ∧
      ∀ i < count, ∀ p f, walk s pd (page start i) = none → walk t pd (page start i) = some (p, f) →
        ∃ i' u', Gets s pd start count flags i' u' ∧ nextFrame u' ≠ mmNaddr ∧ p = nextFrame u'

def Stopped : Prop := flags &&& mmFlgPs ≠ 0 ∨ start &&& 0xFFF ≠ 0 ∨ ∃ i u, Gets s pd start count flags i u ∧
  ¬Admits u pd (infoOf s pd) flags (slotOf (page start i)) (indexOf (page start i))

/-- No round finds an allocator exhausted, and no round of a call that is not stopped finds its page mapped. -/
structure Supplied : Prop where
  supplied : ∀ i u, Gets s pd start count flags i u → ¬RunsOut u pd (page start i)
  fresh : Stopped s pd start count flags ∨ ∀ i u, Gets s pd start count flags i u → walk u pd (page start i) = none

end Claims

section Outcome

variable {s t u w : Machine} {spaces : List Nat} {owner : Owner} {pd start count flags i j m n r : Nat}

theorem mmMapRange_run (h : Tree s spaces owner) (hpd : pd ∈ spaces) : mmMapRange pd start count flags s = .ok (r, t) ↔
    flags &&& mmFlgPs = 0 ∧ start &&& 0xFFF = 0 ∧ r = 0 ∧ After s pd start flags count t := by
  have hwp : wp (mmMapRange pd start count flags)
      (fun _ => ¬(flags &&& mmFlgPs = 0 ∧ start &&& 0xFFF = 0 ∧ ∃ t, After s pd start flags count t))
      (fun r t => flags &&& mmFlgPs = 0 ∧ start &&& 0xFFF = 0 ∧ r = 0 ∧ After s pd start flags count t) s := by
    unfold mmMapRange
    by_cases hps : flags &&& mmFlgPs ≠ 0
    · rw [if_pos hps, wp_bind, wp_throw]
      exact fun hh => hps hh.1
    rw [if_neg hps, wp_bind, wp_kassert]
    refine ⟨fun hal => ?_, fun hno hh => of_decide_eq_false hno hh.2.1⟩
    rw [wp_bind, wp_entry h.geometry (h.dirPage hpd) (by decide), wp_bind]
    show wp (rangeRounds pd (infoOf s pd) start flags count) _ _ s
    cases hrun : rangeRounds pd (infoOf s pd) start flags count s with
    | error fault =>
      unfold wp
      rw [hrun]
      rintro ⟨_, _, t, ht⟩
      exact absurd (hrun.symm.trans ht) fun hne => nomatch hne
    | ok x =>
      rw [wp_of_run hrun, wp_pure]
      exact ⟨not_not.mp hps, of_decide_eq_true hal, rfl, hrun⟩
  refine ⟨fun hrun => of_run hwp hrun, fun ⟨hsmall, haligned, hr, ht⟩ => ?_⟩
  cases hrun : mmMapRange pd start count flags s with
  | error fault =>
    unfold wp at hwp
    rw [hrun] at hwp
    exact absurd ⟨hsmall, haligned, t, ht⟩ hwp
  | ok x =>
    obtain ⟨r', t'⟩ := x
    obtain ⟨_, _, hr', ht'⟩ := of_run hwp hrun
    rw [hr, hr', after_unique ht' ht]

variable (h : Tree s spaces owner) (hpd : pd ∈ spaces) (hhint : s.phys.allocLast < 4294967296)
include h hpd hhint

theorem after_exists (hstop : ¬Stopped s pd start count flags)
    (hsupplied : ∀ i u, Gets s pd start count flags i u → ¬RunsOut u pd (page start i)) (hi : i ≤ count) :
    ∃ u, After s pd start flags i u := by
  have hsmall : flags &&& mmFlgPs = 0 := by
    by_contra hps
    exact hstop (.inl hps)
  have haligned : start &&& 0xFFF = 0 := by
    by_contra hal
    exact hstop (.inr (.inl hal))
  induction i with
  | zero => exact ⟨s, after_zero.mpr rfl⟩
  | succ i ih =>
    obtain ⟨u, hu⟩ := ih (Nat.le_of_succ_le hi)
    have hgets : Gets s pd start count flags i u := ⟨hsmall, haligned, hi, hu⟩
    have hreached := reached_after h hpd hhint hu
    have hadmits : Admits u pd (infoOf s pd) flags (slotOf (page start i)) (indexOf (page start i)) := by
      by_contra hno
      exact hstop (.inr (.inr ⟨i, u, hgets, hno⟩))
    have hround : wp (mapRangePage pd (infoOf s pd) flags (page start i)) noFault (fun _ _ => True) u :=
      wp_rangeRound flags hreached.rows rfl (slotOf_lt start i) rfl (nextFrame_lt hreached.hint)
        (fun habsent hno _ => hsupplied i u hgets ⟨hadmits.1, .inr ⟨habsent, hno⟩⟩) (fun hno _ => hno hadmits)
        fun _ _ _ => trivial
    obtain ⟨_, w, hrun, _⟩ := run_of_wp hround
    exact ⟨w, after_succ.mpr ⟨u, hu, hrun⟩⟩

def Takes (s : Machine) (pd start count flags i n : Nat) : Prop :=
  ∃ u, Gets s pd start count flags i u ∧ TookPage u.phys n (takeFrame u).phys ∧ nextFrame u = 4096 * n

omit h hpd hhint in
theorem frame_supplied (hreached : Reached s u pd)
    (hadmits : Admits u pd (infoOf s pd) flags (slotOf (page start i)) (indexOf (page start i)))
    (hout : ¬RunsOut u pd (page start i)) : ∃ f, TookPage u.phys f (takeFrame u).phys ∧ nextFrame u = 4096 * f := by
  rcases nextFrame_cases hreached.hint with hframe | ⟨_, hnone, _⟩
  · exact hframe
  · exact absurd ⟨hadmits.1, .inl hnone⟩ hout

omit h hpd hhint in
theorem tookPage_unique {p q : PhysAlloc} (hm : TookPage p m q) (hn : TookPage p n q) : m = n := by
  have hbit := hm.bit_eq n
  rw [hn.bit_eq, hn.clear] at hbit
  simpa [eq_comm] using hbit

/-- The frames used after some rounds are those used before and those that the rounds took. -/
theorem newlyUsed_iff (hsupplied : ∀ i u, Gets s pd start count flags i u → ¬RunsOut u pd (page start i))
    (hsmall : flags &&& mmFlgPs = 0) (haligned : start &&& 0xFFF = 0) (hm : m ≤ count) (ht : After s pd start flags m t) :
    NewlyUsed s t n ↔ ∃ i < m, Takes s pd start count flags i n := by
  induction m generalizing t with
  | zero =>
    rw [after_zero.mp ht]
    refine ⟨fun hn => ?_, fun ⟨_, hi, _⟩ => absurd hi (Nat.not_lt_zero _)⟩
    rw [NewlyUsed, hn.1] at hn
    exact absurd hn.2 Bool.false_ne_true
  | succ m ih =>
    obtain ⟨u, hu, hrun⟩ := after_succ.mp ht
    have hreached := reached_after h hpd hhint hu
    obtain ⟨hadmits, hround⟩ := round_run hreached hrun
    have hgets : Gets s pd start count flags m u := ⟨hsmall, haligned, hm, hu⟩
    obtain ⟨f, took, hframe⟩ := frame_supplied hreached hadmits (hsupplied m u hgets)
    have hfree : bit s.phys.bitmap f = false := by
      by_contra hused
      have := hreached.frames f (by simpa using hused)
      rw [took.clear] at this
      cases this
    have hiff : NewlyUsed s t n ↔ NewlyUsed s u n ∨ n = f := by
      unfold NewlyUsed
      rw [hround.phys, took.bit_eq, Bool.or_eq_true, decide_eq_true_iff]
      refine ⟨fun ⟨hclear, hset⟩ => hset.imp_left fun hb => ⟨hclear, hb⟩, ?_⟩
      rintro (⟨hclear, hset⟩ | rfl)
      · exact ⟨hclear, .inl hset⟩
      · exact ⟨hfree, .inr rfl⟩
    rw [hiff, ih (Nat.le_of_succ_le hm) hu]
    constructor
    · rintro (⟨i, hi, htakes⟩ | rfl)
      · exact ⟨i, Nat.lt_succ_of_lt hi, htakes⟩
      · exact ⟨m, Nat.lt_succ_self m, u, hgets, took, hframe⟩
    · rintro ⟨i, hi, htakes⟩
      rcases Nat.lt_succ_iff_lt_or_eq.mp hi with hlt | rfl
      · exact .inl ⟨i, hlt, htakes⟩
      · obtain ⟨u', hgets', took', _⟩ := htakes
        rw [after_unique hu hgets'.run] at took'
        exact .inr (tookPage_unique took' took)

variable (hsupplied : ∀ i u, Gets s pd start count flags i u → ¬RunsOut u pd (page start i))
include hsupplied

theorem round_enters (hgets : Gets s pd start count flags i u) (hw : After s pd start flags (i + 1) w)
    (hfree : walk u pd (page start i) = none) :
    ∃ f, Takes s pd start count flags i f ∧ ∃ g, walk w pd (page start i) = some (4096 * f, g) := by
  obtain ⟨u', hu', hrun⟩ := after_succ.mp hw
  obtain rfl := after_unique hgets.run hu'
  have hreached := reached_after h hpd hhint hu'
  obtain ⟨hadmits, hround⟩ := round_run hreached hrun
  obtain ⟨f, took, hframe⟩ := frame_supplied hreached hadmits (hsupplied i u' hgets)
  have hlt := took.lt
  have hlow := leafFlags_lt flags
  have hentry : newEntry u' flags = 4096 * f + leafFlags flags := by
    unfold newEntry
    rw [hframe]
    exact page_or (Nat.mul_mod_right _ _) (hlow.trans (by decide))
  have hpage : page start i % 4096 = 0 := by
    have haligned := hgets.aligned
    rw [and_offset] at haligned
    unfold page u32
    omega
  have hwalk := hround.walk_enter hreached.rows (page_lt start i) (by omega) (newEntry_odd u' flags) hfree
  refine ⟨f, ⟨u', hgets, took, hframe⟩, _, hwalk.trans (congrArg some (Prod.ext ?_ rfl))⟩
  show newEntry u' flags / 4096 * 4096 + page start i % 4096 = 4096 * f
  omega

theorem takes_of_enters (henters : Enters s pd start count flags i n) :
    Takes s pd start count flags i n ∧ ∃ u, Gets s pd start count flags i u ∧ walk u pd (page start i) = none := by
  obtain ⟨u, w, hgets, hw, hfree, g, hwalk⟩ := henters
  obtain ⟨f, htakes, g', hwalk'⟩ := round_enters h hpd hhint hsupplied hgets hw hfree
  rw [hwalk] at hwalk'
  have hframe := (Prod.mk.inj (Option.some.inj hwalk')).1
  obtain rfl : n = f := by omega
  exact ⟨htakes, u, hgets, hfree⟩

theorem takes_injective (hi : Takes s pd start count flags i n) (hj : Takes s pd start count flags j n) : i = j := by
  have hbefore : ∀ i j, Takes s pd start count flags i n → Takes s pd start count flags j n → ¬i < j := by
    intro i j hi ⟨u, hgets, took, _⟩ hlt
    have hused := (newlyUsed_iff h hpd hhint hsupplied hgets.small hgets.aligned (Nat.le_of_lt hgets.lt) hgets.run).mpr ⟨i, hlt, hi⟩
    rw [NewlyUsed, took.clear] at hused
    exact absurd hused.2 Bool.false_ne_true
  have h1 := hbefore i j hi hj
  have h2 := hbefore j i hj hi
  omega

omit hsupplied

theorem accounts_of_supplied (hs : Supplied s pd start count flags) : Accounts s pd start count flags := by
  obtain ⟨hsupplied, hfresh⟩ := hs
  refine ⟨fun t hrun => ?_, fun i u hgets hout => absurd hout (hsupplied i u hgets)⟩
  obtain ⟨hsmall, haligned, _, ht⟩ := (mmMapRange_run h hpd).mp hrun
  have hround : ∀ i < count, ∃ u w, Gets s pd start count flags i u ∧ After s pd start flags (i + 1) w ∧
      mapRangePage pd (infoOf s pd) flags (page start i) u = .ok ((), w) := by
    intro i hi
    obtain ⟨w, hw⟩ := after_of_le ht (Nat.succ_le_of_lt hi)
    obtain ⟨u, hu, hrun⟩ := after_succ.mp hw
    exact ⟨u, w, ⟨hsmall, haligned, hi, hu⟩, hw, hrun⟩
  have hfree : ∀ i u, Gets s pd start count flags i u → walk u pd (page start i) = none := by
    refine hfresh.resolve_left ?_
    rintro (hps | hal | ⟨i, u, hgets, hno⟩)
    · exact hps hsmall
    · exact hal haligned
    · obtain ⟨u', w, hgets', _, hrun⟩ := hround i hgets.lt
      obtain rfl := after_unique hgets'.run hgets.run
      exact hno (round_run (reached_after h hpd hhint hgets.run) hrun).1
  have henter : ∀ i < count, ∃ f, Takes s pd start count flags i f ∧ Enters s pd start count flags i f := by
    intro i hi
    obtain ⟨u, w, hgets, hw, _⟩ := hround i hi
    obtain ⟨f, htakes, hwalk⟩ := round_enters h hpd hhint hsupplied hgets hw (hfree i u hgets)
    exact ⟨f, htakes, u, w, hgets, hw, hfree i u hgets, hwalk⟩
  refine ⟨fun n => ?_, fun i hi => ⟨fun _ => ?_, ?_⟩⟩
  · rw [newlyUsed_iff h hpd hhint hsupplied hsmall haligned (le_refl count) ht]
    constructor
    · rintro ⟨i, hi, htakes⟩
      obtain ⟨f, ⟨u, hgets, took, _⟩, henters⟩ := henter i hi
      obtain ⟨u', hgets', took', _⟩ := htakes
      obtain rfl := after_unique hgets.run hgets'.run
      obtain rfl := tookPage_unique took took'
      exact ⟨i, henters⟩
    · rintro ⟨i, henters⟩
      obtain ⟨htakes, u, hgets, _⟩ := takes_of_enters h hpd hhint hsupplied henters
      exact ⟨i, hgets.lt, htakes⟩
  · obtain ⟨f, _, henters⟩ := henter i hi
    exact ⟨i, f, rfl, henters⟩
  · rintro ⟨i', n, hpage, henters⟩
    obtain ⟨u, _, hgets, _, hwalk, _⟩ := henters
    by_contra hmapped
    refine (reached_after h hpd hhint hgets.run).mapped (page start i') (page_lt start i') ?_ hwalk
    rwa [hpage]

/-- A call accounts for its frames just when no round finds an allocator exhausted, and, unless an
assertion stops the call, no round finds its page mapped. -/
theorem mmMapRange_accounts_iff : Accounts s pd start count flags ↔ Supplied s pd start count flags := by
  constructor
  · intro ha
    have hsupplied : ∀ i u, Gets s pd start count flags i u → ¬RunsOut u pd (page start i) := by
      intro i u hgets hout
      obtain ⟨r, t, hrun, hr, _⟩ := ha.exhausted i u hgets hout
      exact hr ((mmMapRange_run h hpd).mp hrun).2.2.1
    refine ⟨hsupplied, ?_⟩
    by_cases hstop : Stopped s pd start count flags
    · exact .inl hstop
    refine .inr fun i u hgets => ?_
    obtain ⟨t, ht⟩ := after_exists h hpd hhint hstop hsupplied (le_refl count)
    obtain ⟨w, hw⟩ := after_of_le ht (Nat.succ_le_of_lt hgets.lt)
    obtain ⟨u', hu', hrun⟩ := after_succ.mp hw
    obtain rfl := after_unique hgets.run hu'
    have hreached := reached_after h hpd hhint hu'
    obtain ⟨hadmits, _⟩ := round_run hreached hrun
    obtain ⟨f, took, hframe⟩ := frame_supplied hreached hadmits (hsupplied i u' hgets)
    have htakes : Takes s pd start count flags i f := ⟨u', hgets, took, hframe⟩
    have hused : NewlyUsed s t f :=
      (newlyUsed_iff h hpd hhint hsupplied hgets.small hgets.aligned (le_refl count) ht).mpr ⟨i, hgets.lt, htakes⟩
    have hreturns := (mmMapRange_run h hpd).mpr ⟨hgets.small, hgets.aligned, rfl, ht⟩
    obtain ⟨i', henters⟩ := ((ha.exact t hreturns).1 f).mp hused
    obtain ⟨htakes', u'', hgets'', hfree⟩ := takes_of_enters h hpd hhint hsupplied henters
    obtain rfl := takes_injective h hpd hhint hsupplied htakes htakes'
    rwa [← after_unique hgets''.run hgets.run] at hfree
  · exact accounts_of_supplied h hpd hhint

/-- Before the call: the tables of the pages are there, none of the pages is mapped and there is a frame for each. Then
the call accounts for its frames. -/
theorem mmMapRange_accounts_of_tables (hcount : count ≤ 1048576) (htables : ∀ i < count, HasTable s pd (slotOf (page start i)))
    (hfree : ∀ i < count, walk s pd (page start i) = none) (hframes : ∀ i < count, nextFrame (takeFrame^[i] s) ≠ mmNaddr) :
    Accounts s pd start count flags := by
  have hkept : ∀ i ≤ count, ∀ u, flags &&& mmFlgPs = 0 → start &&& 0xFFF = 0 → After s pd start flags i u →
      u.phys = (takeFrame^[i] s).phys ∧ ∀ j < count, HasTable u pd (slotOf (page start j)) ∧
        (i ≤ j → walk u pd (page start j) = none) := by
    intro i
    induction i with
    | zero =>
      intro _ u _ _ hu
      rw [after_zero.mp hu]
      exact ⟨rfl, fun j hj => ⟨htables j hj, fun _ => hfree j hj⟩⟩
    | succ i ih =>
      intro hi w hsmall haligned hw
      obtain ⟨u, hu, hrun⟩ := after_succ.mp hw
      obtain ⟨hphys, hall⟩ := ih (Nat.le_of_succ_le hi) u hsmall haligned hu
      have hreached := reached_after h hpd hhint hu
      obtain ⟨_, hround⟩ := round_run hreached hrun
      refine ⟨?_, fun j hj => ?_⟩
      · rw [hround.phys, Function.iterate_succ_apply', takeFrame, hphys]
        rfl
      · obtain ⟨htable, hother⟩ := hround.others hreached.rows (page_lt start i) (hall i hi).1
        refine ⟨htable _ (slotOf_lt start j) (hall j hj).1, fun hij => ?_⟩
        rw [hother _ (page_lt start j) (page_div_ne haligned (hi.trans hcount) (hj.trans_le hcount) (Nat.ne_of_lt hij))]
        exact (hall j hj).2 (Nat.le_of_succ_le hij)
  refine accounts_of_supplied h hpd hhint ⟨fun i u hgets => ?_, .inr fun i u hgets => ?_⟩
  · obtain ⟨hphys, hall⟩ := hkept i hgets.lt.le u hgets.small hgets.aligned hgets.run
    rintro ⟨_, hnone | ⟨habsent, _⟩⟩
    · refine hframes i hgets.lt ?_
      rw [nextFrame, ← hphys]
      exact hnone
    · exact absurd (hall i hgets.lt).1.1 (by omega)
  · exact ((hkept i hgets.lt.le u hgets.small hgets.aligned hgets.run).2 i hgets.lt).2 le_rfl

end Outcome

section Examples

theorem not_runsOut {u : Machine} {pd v : Nat}
    (hu : nextFrame u ≠ mmNaddr ∧ (u.pools 0).indexLast ≤ 31 ∧ (u.pools 0).bitmap 31 ≠ full) : ¬RunsOut u pd v := by
  rintro ⟨_, hnone | ⟨_, hno⟩⟩
  · exact hu.1 hnone
  · exact hno ⟨31, hu.2.1, by decide, hu.2.2⟩

/-- Two fresh pages on both sides of a table boundary. -/
theorem mmMapRange_accounts_small : ∃ s, SpaceRun smallState s ∧ 0xC1001000 ∈ s.spaces ∧
    Accounts s.machine 0xC1001000 0x7FF000 2 mmFlgUs := by
  have hsteps : (spaceSteps smallState [.create]).map (fun s => (s.spaces,
      decide ((nextFrame s.machine ≠ mmNaddr ∧ (s.machine.pools 0).indexLast ≤ 31 ∧ (s.machine.pools 0).bitmap 31 ≠ full) ∧
        walk s.machine 0xC1001000 (page 0x7FF000 0) = none),
      (rangeRounds 0xC1001000 (infoOf s.machine 0xC1001000) 0x7FF000 mmFlgUs 1 s.machine).map fun r =>
        decide ((nextFrame r.2 ≠ mmNaddr ∧ (r.2.pools 0).indexLast ≤ 31 ∧ (r.2.pools 0).bitmap 31 ≠ full) ∧
          walk r.2 0xC1001000 (page 0x7FF000 1) = none))) =
      some ([0xC1001000, 0xC0200000], true, .ok true) := by decide +kernel
  obtain ⟨s, hs, heq⟩ := Option.map_eq_some_iff.mp hsteps
  obtain ⟨hspaces, hrounds⟩ := Prod.mk.inj heq
  obtain ⟨hfirst, hsecond⟩ := Prod.mk.inj hrounds
  have hrun : SpaceRun smallState s :=
    spaceRun_steps (Run.refl _) (fun op hop _ _ => by rw [List.mem_singleton.mp hop]; trivial) hs
  have hpd : 0xC1001000 ∈ s.spaces := by
    rw [hspaces]
    decide
  have hsound : Paging.Sound s.spaces s.machine := sound_run smallState_booted hrun
  obtain ⟨owner, h⟩ := hsound.tree
  have hrounds : ∀ i u, Gets s.machine 0xC1001000 0x7FF000 2 mmFlgUs i u →
      (nextFrame u ≠ mmNaddr ∧ (u.pools 0).indexLast ≤ 31 ∧ (u.pools 0).bitmap 31 ≠ full) ∧
        walk u 0xC1001000 (page 0x7FF000 i) = none := by
    intro i u hgets
    rcases Nat.lt_succ_iff_lt_or_eq.mp hgets.lt with hlt | rfl
    · obtain rfl := Nat.lt_one_iff.mp hlt
      rw [after_zero.mp hgets.run]
      exact of_decide_eq_true hfirst
    · have hcheck := hgets.run
      unfold After at hcheck
      rw [hcheck] at hsecond
      exact of_decide_eq_true (Except.ok.inj hsecond)
  exact ⟨s, hrun, hpd, (mmMapRange_accounts_iff h hpd hsound.hint).mpr
    ⟨fun i u hgets => not_runsOut (hrounds i u hgets).1, .inr fun i u hgets => (hrounds i u hgets).2⟩⟩

/-- A page that is mapped already: with `MM_FLG_MERGE` the frame that was taken for it is lost. -/
theorem mmMapRange_loses_frame : ∃ s, SpaceRun smallState s ∧ 0xC1001000 ∈ s.spaces ∧
    ¬Accounts s.machine 0xC1001000 0x400000 1 mmFlgMerge := by
  have hsteps : (spaceSteps smallState [.create, .mapRange 0xC1001000 0x400000 1 mmFlgUs]).map (fun s => (s.spaces,
      bit s.machine.phys.bitmap (nextFrame s.machine / 4096), (walk s.machine 0xC1001000 0x400000).isSome,
      (mmMapRange 0xC1001000 0x400000 1 mmFlgMerge s.machine).map fun r =>
        (r.1, bit r.2.phys.bitmap (nextFrame s.machine / 4096)))) =
      some ([0xC1001000, 0xC0200000], false, true, .ok (0, true)) := by decide +kernel
  obtain ⟨s, hs, heq⟩ := Option.map_eq_some_iff.mp hsteps
  obtain ⟨hspaces, hrest⟩ := Prod.mk.inj heq
  obtain ⟨hclear, hrest⟩ := Prod.mk.inj hrest
  obtain ⟨hmapped, hcall⟩ := Prod.mk.inj hrest
  have hrun : SpaceRun smallState s := by
    refine spaceRun_steps (Run.refl _) (fun op hop v w => ?_) hs
    rcases List.mem_pair.mp hop with rfl | rfl
    · trivial
    · exact (by decide +kernel : SlotsIn 0x400000 1)
  refine ⟨s, hrun, by rw [hspaces]; decide, fun ha => ?_⟩
  cases hr : mmMapRange 0xC1001000 0x400000 1 mmFlgMerge s.machine with
  | error fault =>
    rw [hr] at hcall
    cases hcall
  | ok x =>
    obtain ⟨r, t⟩ := x
    rw [hr] at hcall
    obtain ⟨rfl, hset⟩ := Prod.mk.inj (Except.ok.inj hcall)
    obtain ⟨i, u, w, hgets, _, hfree, _⟩ := ((ha.exact t hr).1 _).mp ⟨hclear, hset⟩
    obtain rfl := Nat.lt_one_iff.mp hgets.lt
    have hpage : page 0x400000 0 = 0x400000 := by decide +kernel
    rw [after_zero.mp hgets.run, hpage] at hfree
    rw [hfree] at hmapped
    cases hmapped

end Examples

end YggKernel.Paging
