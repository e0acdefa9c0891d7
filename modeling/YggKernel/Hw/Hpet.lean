import YggKernel.Fault
import YggKernel.Lib.Division

namespace YggKernel.Hw

open Lib.Program Lib.Division

def systickDesRes : BitVec 64 := 1000000

def hpetEnableCnf : BitVec 64 := 1 <<< 0
def hpetLegRtCnf : BitVec 64 := 1 <<< 1
def hpetTnIntEnbCnf : BitVec 64 := 1 <<< 2
def hpetTnTypeCnf : BitVec 64 := 1 <<< 3
def hpetTnPerIntCap : BitVec 64 := 1 <<< 4
def hpetTnValSetCnf : BitVec 64 := 1 <<< 6

/-- The registers of the timer, but for the counter. -/
structure Hpet where
  caps : BitVec 64
  ctrl : BitVec 64
  intr : BitVec 64
  timerCtrl : BitVec 64
  timerValue : BitVec 64

structure Clock where
  hpet : Hpet
  hpetFreq : BitVec 64
  hpetSystickRes : BitVec 64
  hpetLast : BitVec 64
  systime : BitVec 64
  systimePrev : BitVec 64

/-- A division by zero is exception 0. -/
def divide (a b : BitVec 64) : Prog Fault Clock (BitVec 64) :=
  if b = 0 then throw (.panic "Non-recoverable Exception\n") else pure (a / b)

/-- The argument is the value that is read from the counter. -/
def hpetTimerFunc (hpetCount : BitVec 64) : Prog Fault Clock Unit := do
  let ticks ← divide (hpetCount - (← get).hpetLast) (← get).hpetSystickRes
  modify fun s => { s with systime := s.systime + ticks }
  modify fun s => { s with hpetLast := hpetCount }
  if (← get).systime - (← get).systimePrev ≥ systickDesRes then
    modify fun s => { s with systimePrev := s.systime }
  modify fun s => { s with hpet := { s.hpet with intr := s.hpet.intr ||| 1 } }

/-- The counter is read twice. -/
def hpetInit (count₁ count₂ : BitVec 64) : Prog Fault Clock Unit := do
  let hpetClk := ((← get).hpet.caps >>> 32) &&& 0xFFFFFFFF
  let freq ← divide 1000000000000000 hpetClk
  modify fun s => { s with hpetFreq := freq }
  let desiredFreq : BitVec 64 := 1000
  kassert ((← get).hpet.timerCtrl &&& hpetTnPerIntCap != 0) "hpet->timers[0].ctrl & (1 << 4)"
  modify fun s => { s with hpet := { s.hpet with ctrl := s.hpet.ctrl ||| (hpetEnableCnf ||| hpetLegRtCnf) } }
  modify fun s => { s with
    hpet := { s.hpet with timerCtrl := hpetTnIntEnbCnf ||| hpetTnValSetCnf ||| hpetTnTypeCnf } }
  modify fun s => { s with hpet := { s.hpet with timerValue := s.hpetFreq / desiredFreq } }
  modify fun s => { s with hpet := { s.hpet with timerValue := count₁ + s.hpetFreq / desiredFreq } }
  modify fun s => { s with hpetLast := count₂ }
  modify fun s => { s with hpetSystickRes := s.hpetFreq / systickDesRes }

def hpetTicks : List (BitVec 64) → Prog Fault Clock Unit
  | [] => pure ()
  | count :: rest => do
    hpetTimerFunc count
    hpetTicks rest

def countGaps (c₀ : BitVec 64) (counts : List (BitVec 64)) : List Nat :=
  gaps c₀.toNat (counts.map BitVec.toNat)

theorem countGaps_cons (c₀ c : BitVec 64) (counts : List (BitVec 64)) :
    countGaps c₀ (c :: counts) = (c.toNat - c₀.toNat) :: countGaps c counts := rfl

theorem countGaps_sum {c₀ : BitVec 64} {counts : List (BitVec 64)} (hmono : (c₀ :: counts).Pairwise (· ≤ ·)) :
    (countGaps c₀ counts).sum = (counts.getLastD c₀ - c₀).toNat := by
  have hmono' : (c₀.toNat :: counts.map BitVec.toNat).Pairwise (· ≤ ·) :=
    List.pairwise_map.mpr (hmono.imp BitVec.le_def.mp)
  have hlast : (counts.map BitVec.toNat).getLastD c₀.toNat = (counts.getLastD c₀).toNat := by
    rw [List.getLastD_eq_getLast?, List.getLastD_eq_getLast?, List.getLast?_map, Option.getD_map]
  rw [countGaps, gaps_sum hmono', hlast, BitVec.toNat_sub_of_le]
  rw [BitVec.le_def, ← hlast]
  exact getLastD_ge hmono'

section Ticks

variable {E : Fault → Prop} {s : Clock}

theorem wp_hpetTimerFunc {count : BitVec 64} (hres : s.hpetSystickRes ≠ 0) :
    wp (hpetTimerFunc count) E (fun _ t => t.systime = s.systime + (count - s.hpetLast) / s.hpetSystickRes ∧
      t.hpetLast = count ∧ t.hpetSystickRes = s.hpetSystickRes) s := by
  simp only [hpetTimerFunc, divide, wp_bind, wp_get, if_neg hres, wp_pure, wp_modify]
  split <;> exact ⟨rfl, rfl, rfl⟩

theorem wp_hpetTimerFunc_zero {count : BitVec 64} {Q : Unit → Clock → Prop} (hres : s.hpetSystickRes = 0) :
    ¬wp (hpetTimerFunc count) noFault Q s := by
  simp only [hpetTimerFunc, divide, wp_bind, wp_get, if_pos hres, wp_throw]
  exact id

theorem wp_hpetTicks {counts : List (BitVec 64)} (hres : s.hpetSystickRes ≠ 0)
    (hmono : (s.hpetLast :: counts).Pairwise (· ≤ ·)) : wp (hpetTicks counts) E (fun _ t =>
      t.systime = s.systime +
        BitVec.ofNat 64 ((countGaps s.hpetLast counts).map (· / s.hpetSystickRes.toNat)).sum) s := by
  induction counts generalizing s with
  | nil =>
    rw [hpetTicks, wp_pure]
    simp [countGaps, gaps]
  | cons count rest ih =>
    obtain ⟨hfirst, hrest⟩ := List.pairwise_cons.mp hmono
    rw [hpetTicks, wp_bind]
    refine wp_imp (wp_hpetTimerFunc hres) ?_
    rintro _ t ⟨htime, hlast, hres'⟩
    refine wp_imp (ih (by rwa [hres']) (by rwa [hlast])) ?_
    rintro _ u htime'
    have hle : s.hpetLast.toNat ≤ count.toNat := BitVec.le_def.mp (hfirst count (by simp))
    have hgap : (count - s.hpetLast) / s.hpetSystickRes =
        BitVec.ofNat 64 ((count.toNat - s.hpetLast.toNat) / s.hpetSystickRes.toNat) := by
      apply BitVec.eq_of_toNat_eq
      rw [BitVec.toNat_udiv, BitVec.toNat_sub_of_le (BitVec.le_def.mpr hle), BitVec.toNat_ofNat, Nat.mod_eq_of_lt]
      exact (Nat.div_le_self _ _).trans_lt (by omega)
    rw [htime', htime, hlast, hres', hgap, countGaps_cons, List.map_cons, List.sum_cons, BitVec.ofNat_add,
      BitVec.add_assoc]

theorem wp_hpetInit {count₁ count₂ : BitVec 64} : wp (hpetInit count₁ count₂) anyFault (fun _ t =>
    t.systime = s.systime ∧ t.hpetLast = count₂) s := by
  rw [hpetInit, wp_bind, wp_get, wp_bind, divide]
  split
  · trivial
  · rw [wp_pure, wp_bind, wp_modify, wp_bind, wp_get, wp_bind, wp_kassert]
    exact ⟨fun _ => ⟨rfl, rfl⟩, fun _ => trivial⟩

end Ticks

/-- System time is exact just as long as what the interrupts lose in their divisions stays below one tick. -/
theorem systime_exact_iff {s : Clock} {count₁ c₀ : BitVec 64} {counts : List (BitVec 64)}
    (hmono : (c₀ :: counts).Pairwise (· ≤ ·)) :
    wp (hpetInit count₁ c₀) anyFault (fun _ t => t.systime = s.systime ∧
      (wp (hpetTicks counts) noFault (fun _ u =>
          u.systime = s.systime + (counts.getLastD c₀ - c₀) / t.hpetSystickRes) t ↔
        counts = [] ∨ ((countGaps c₀ counts).map (· % t.hpetSystickRes.toNat)).sum < t.hpetSystickRes.toNat)) s := by
  refine wp_imp wp_hpetInit ?_
  rintro _ t ⟨htime, rfl⟩
  refine ⟨htime, ?_⟩
  rw [← htime]
  cases counts with
  | nil =>
    rw [hpetTicks, wp_pure, List.getLastD_nil, BitVec.sub_self, BitVec.zero_udiv, BitVec.add_zero]
    exact iff_of_true rfl (.inl rfl)
  | cons count rest =>
    by_cases hres : t.hpetSystickRes = 0
    · rw [hpetTicks, wp_bind]
      refine iff_of_false (wp_hpetTimerFunc_zero hres) ?_
      rw [hres]
      simp
    · obtain ⟨_, u, hrun, hu⟩ := run_of_wp (wp_hpetTicks (E := noFault) hres hmono)
      have hpos : 0 < t.hpetSystickRes.toNat :=
        Nat.pos_of_ne_zero fun h => hres (BitVec.eq_of_toNat_eq h)
      have hle := sum_div_le hpos (countGaps t.hpetLast (count :: rest))
      have hexact := sum_div_eq_iff hpos (countGaps t.hpetLast (count :: rest))
      rw [countGaps_sum hmono, ← BitVec.toNat_udiv] at hle hexact
      rw [wp_of_run hrun, hu, BitVec.add_right_inj, ← BitVec.toNat_inj, BitVec.toNat_ofNat,
        Nat.mod_eq_of_lt (hle.trans_lt (BitVec.isLt _)), hexact]
      exact ⟨.inr, fun h => h.resolve_left (by simp)⟩

/-- A timer of 14.3 MHz, the counter of which makes 14 steps in a tick. -/
def hpetClock : Clock := ⟨⟨69841279 <<< 32, 0, 0, hpetTnPerIntCap, 0⟩, 0, 0, 0, 0, 0⟩

/-- Two interrupts, each of which comes at the end of a tick. -/
theorem systime_exact_two_ticks : wp (hpetInit 0 0) anyFault (fun _ t => t.systime = hpetClock.systime ∧
    (wp (hpetTicks [14, 28]) noFault (fun _ u =>
        u.systime = hpetClock.systime + (28 - 0) / t.hpetSystickRes) t ↔
      [14, 28] = ([] : List (BitVec 64)) ∨
        ((countGaps 0 [14, 28]).map (· % t.hpetSystickRes.toNat)).sum < t.hpetSystickRes.toNat)) hpetClock :=
  systime_exact_iff (by decide)

/-- Time stands still when every interrupt comes before the end of a tick. -/
theorem systime_drifts : ¬∀ (s : Clock) (count₁ c₀ : BitVec 64) (counts : List (BitVec 64)),
    (c₀ :: counts).Pairwise (· ≤ ·) → wp (hpetInit count₁ c₀) anyFault (fun _ t => t.hpetSystickRes ≠ 0 →
      wp (hpetTicks counts) noFault (fun _ u =>
        u.systime = s.systime + (counts.getLastD c₀ - c₀) / t.hpetSystickRes) t) s := by
  intro hall
  have hinit : hpetInit 0 0 hpetClock = .ok ((), after (hpetInit 0 0) hpetClock) := run_after (by decide +kernel)
  have hticks : hpetTicks [13, 26] (after (hpetInit 0 0) hpetClock) =
      .ok ((), after (hpetTicks [13, 26]) (after (hpetInit 0 0) hpetClock)) := run_after (by decide +kernel)
  have hexact := of_run (of_run (hall hpetClock 0 0 [13, 26] (by decide)) hinit (by decide +kernel)) hticks
  exact absurd hexact (by decide +kernel)

end YggKernel.Hw
