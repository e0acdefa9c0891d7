import YggKernel.Task.Scheduling
import YggKernel.Lib.Runs

namespace YggKernel.Task

open Lib.Program Lib.BitWords Lib.Chains Lib.Runs

def waits (s : Sched) (x : Nat) : Bool := hasFlag s taskFlgWait x || hasFlag s taskFlgBusy x

theorem wp_waiting {E : Fault → Prop} {Q : Bool → Sched → Prop} {s : Sched} (x : Nat) :
    wp (waiting x) E Q s ↔ Q (waits s x) s := by
  simp only [waiting, wp_bind, wp_flagOf, wp_pure]
  rfl

def following (s : Sched) (x : Nat) : Nat := if (s.task x).next = 0 then s.first else (s.task x).next

theorem wp_selectTask {s : Sched} {last z : Nat} {pre : List Nat} {fuel : Nat}
    (hchain : (s.current :: (pre ++ [z])).IsChain fun a b => following s a = b)
    (hpre : ∀ x ∈ pre, waits s x = true ∧ x ≠ last) (hz : waits s z = false) (hfuel : pre.length < fuel) :
    wp (selectTask last fuel) noFault (fun _ t => t = { s with current := z }) s := by
  induction pre generalizing s fuel with
  | nil =>
    cases fuel with
    | zero => omega
    | succ fuel =>
      have hnext : following s s.current = z := by simpa using hchain
      unfold following at hnext
      simp only [selectTask, wp_bind, wp_get, wp_nextOf, wp_modify, hnext]
      refine (wp_waiting z).mpr ?_
      have hz' : waits { s with current := z } z = false := hz
      rw [hz', if_neg (by simp)]
      rfl
  | cons y pre ih =>
    cases fuel with
    | zero => omega
    | succ fuel =>
      rw [List.cons_append, List.isChain_cons_cons] at hchain
      obtain ⟨hnext, hchain⟩ := hchain
      unfold following at hnext
      obtain ⟨hy, hne⟩ := hpre y (by simp)
      simp only [selectTask, wp_bind, wp_get, wp_nextOf, wp_modify, hnext]
      refine (wp_waiting y).mpr ?_
      have hy' : waits { s with current := y } y = true := hy
      have hrun := ih (s := { s with current := y }) hchain (fun x hx => hpre x (by simp [hx])) hz
        (show pre.length < fuel by simpa using hfuel)
      rw [hy', if_pos rfl, wp_bind, wp_get, if_neg hne]
      exact hrun

theorem isChain_of_linked {s : Sched} {l : List Nat} {z : Nat} (h : Linked id (Succ s) l z) :
    l.IsChain fun a b => following s a = b := by
  induction l with
  | nil => exact .nil
  | cons x l ih =>
    cases l with
    | nil => exact .singleton _
    | cons y l =>
      refine List.isChain_cons_cons.mpr ⟨?_, ih h.2⟩
      have hnext : (s.task x).next = y := h.1.2
      rw [following, hnext, if_neg h.2.1.1]

theorem following_last {s : Sched} {l : List Nat} {x : Nat} (h : Linked id (Succ s) l 0)
    (hx : x ∈ l.getLast?) : following s x = s.first := by
  obtain ⟨l', rfl⟩ := List.getLast?_eq_some_iff.mp hx
  have hnext : (s.task x).next = 0 := ((linked_append id (Succ s) l' [x] 0).mp h).2.1.2
  rw [following, if_pos hnext]

theorem isChain_around {s : Sched} {l l' : List Nat} (h : Linked id (Succ s) l 0)
    (h' : l'.IsChain fun a b => following s a = b) (hhead : ∀ y ∈ l'.head?, y = s.first) :
    (l ++ l').IsChain fun a b => following s a = b :=
  List.isChain_append.mpr ⟨isChain_of_linked h, h',
    fun _ hx y hy => (following_last h hx).trans (hhead y hy).symm⟩

structure Listed (s : Sched) (l : List Nat) : Prop where
  linked : Linked id (Succ s) l 0
  first : l.head? = some s.first
  last : l.getLast? = some s.last
  nodup : l.Nodup

theorem Listed.end_null {s : Sched} {l : List Nat} (h : Listed s l) : (s.task s.last).next = 0 := by
  obtain ⟨l', rfl⟩ := List.getLast?_eq_some_iff.mp h.last
  exact ((linked_append id (Succ s) l' [s.last] 0).mp h.linked).2.1.2

structure SchedInv (idle : Nat) (s : Sched) (l : List Nat) : Prop where
  listed : Listed s l
  first : s.first = idle
  below : ∀ x ∈ l, x < 4294967296
  current : s.current ∈ l
  idle_free : waits s idle = false ∧ hasFlag s taskFlgStop idle = false
  others : ∀ x ∈ l, x ≠ s.current →
    hasFlag s taskFlgStop x = false ∧ hasFlag s taskFlgRunning x = false
  ctl : ∀ x ∈ l, x ≠ idle → (s.task x).ctl.isSome

def behindCurrent (s : Sched) (l : List Nat) : List Nat := l.rotate (l.idxOf s.current + 1)

def alive (s : Sched) (l : List Nat) : List Nat := l.filter fun x => !hasFlag s taskFlgStop x

/-- What a task switch does with a list of tasks: the stopped ones are gone, and the
first one behind the current one that does not wait has become current. -/
structure Switched (s : Sched) (l : List Nat) (t : Sched) : Prop where
  listed : Listed t (alive s l)
  last : (t.task t.last).next = 0
  current : (alive s (behindCurrent s l)).find? (fun x => !waits t x) = some t.current
  running : ∀ x ∈ alive s l, hasFlag t taskFlgRunning x = decide (x = t.current)
  woken : ∀ x, hasFlag t taskFlgWait x = true → hasFlag s taskFlgWait x = true
  busy : ∀ x, hasFlag t taskFlgBusy x = hasFlag s taskFlgBusy x

theorem SchedInv.ne_zero {idle x : Nat} {s : Sched} {l : List Nat} (h : SchedInv idle s l) (hx : x ∈ l) : x ≠ 0 := by
  obtain ⟨l₁, l₂, rfl⟩ := List.append_of_mem hx
  exact ((linked_append id (Succ s) l₁ (x :: l₂) 0).mp h.listed.linked).2.1.1

theorem SchedInv.length_lt {idle : Nat} {s : Sched} {l : List Nat} (h : SchedInv idle s l) :
    l.length < listFuel := by
  have hsub : l ⊆ List.range' 1 4294967295 := fun x hx => by
    have := h.ne_zero hx
    have := h.below x hx
    rw [List.mem_range'_1]
    omega
  have hlen := (h.listed.nodup.subperm hsub).length_le
  rw [List.length_range'] at hlen
  unfold listFuel
  omega

theorem SchedInv.find {idle : Nat} {s : Sched} {l : List Nat} (h : SchedInv idle s l) (pid : Nat) :
    wp (taskByPid pid) noFault
      (fun r t => t = s ∧ (r = 0 ∧ (∀ y ∈ l, pidOf s y ≠ pid) ∨ r ∈ l ∧ pidOf s r = pid)) s := by
  have hfirst : Lib.Chains.first id l 0 = s.first := by
    obtain ⟨rest, hrest⟩ := List.head?_eq_some_iff.mp h.listed.first
    rw [hrest]
    rfl
  exact wp_taskByPid pid h.listed.linked hfirst h.length_lt

/-- Only the current task may be stopped, so the lists before and behind it stay whole. -/
theorem SchedInv.split {idle : Nat} {s : Sched} {l : List Nat} (h : SchedInv idle s l) :
    ∃ l₁ l₂, l = l₁ ++ s.current :: l₂ ∧ alive s l₁ = l₁ ∧ alive s l₂ = l₂ ∧
      behindCurrent s l = l₂ ++ (l₁ ++ [s.current]) := by
  obtain ⟨l₁, l₂, hl⟩ := List.append_of_mem h.current
  have hnodup := h.listed.nodup
  rw [hl, List.nodup_append, List.nodup_cons] at hnodup
  obtain ⟨_, ⟨hn₂, _⟩, hdis⟩ := hnodup
  have hn₁ : s.current ∉ l₁ := fun hmem => hdis _ hmem _ (by simp) rfl
  have hkeep : ∀ k, (∀ x ∈ k, x ∈ l ∧ x ≠ s.current) → alive s k = k := fun k hk =>
    List.filter_eq_self.mpr fun x hx => by simp [(h.others x (hk x hx).1 (hk x hx).2).1]
  refine ⟨l₁, l₂, hl, hkeep l₁ fun x hx => ⟨by simp [hl, hx], fun e => hn₁ (e ▸ hx)⟩,
    hkeep l₂ fun x hx => ⟨by simp [hl, hx], fun e => hn₂ (e ▸ hx)⟩, ?_⟩
  have hidx : l.idxOf s.current = l₁.length := by
    rw [hl, List.idxOf_append_of_notMem hn₁, List.idxOf_cons_self, Nat.add_zero]
  rw [behindCurrent, hidx, hl]
  have happ : l₁ ++ s.current :: l₂ = (l₁ ++ [s.current]) ++ l₂ := by simp
  rw [happ, show l₁.length + 1 = (l₁ ++ [s.current]).length by simp, List.rotate_append_length_eq]

theorem SchedInv.current_not_before {idle z : Nat} {s : Sched} {l pre post : List Nat}
    (h : SchedInv idle s l) (hord : alive s (behindCurrent s l) = pre ++ z :: post) :
    s.current ∉ pre := by
  intro hmem
  obtain ⟨l₁, l₂, hl, _, _, hbehind⟩ := h.split
  have hnodup : (alive s (behindCurrent s l)).Nodup :=
    (List.nodup_rotate.mpr h.listed.nodup).filter _
  have hcur : s.current ∈ alive s (behindCurrent s l) := hord ▸ List.mem_append_left _ hmem
  have hkeep : alive s [s.current] = [s.current] := by
    have hs := List.of_mem_filter hcur
    simp only [alive, List.filter_cons, hs, if_true, List.filter_nil]
  have hlast : (alive s (behindCurrent s l)).getLast? = some s.current := by
    rw [hbehind, alive, List.filter_append, List.filter_append, ← List.append_assoc]
    change (_ ++ alive s [s.current]).getLast? = _
    rw [hkeep, List.getLast?_concat]
  rw [hord, List.getLast?_append_cons] at hlast
  rw [hord, List.nodup_append] at hnodup
  exact hnodup.2.2 _ hmem _ (List.mem_of_getLast? hlast) rfl

/-- A state in which only the flags of the tasks and the current one may differ. -/
structure SameList (s t : Sched) : Prop where
  next : ∀ x, (t.task x).next = (s.task x).next
  ctl : ∀ x, (t.task x).ctl = (s.task x).ctl
  first : t.first = s.first
  last : t.last = s.last

theorem SameList.linked {s t : Sched} (h : SameList s t) {l : List Nat} {z : Nat}
    (hl : Linked id (Succ s) l z) : Linked id (Succ t) l z :=
  hl.imp fun x _ _ hx => ⟨hx.1, (h.next x).trans hx.2⟩

def clearRunning (s : Sched) (x : Nat) : Sched :=
  let task := { s.task x with flag := (s.task x).flag &&& ~~~taskFlgRunning }
  { s with task := Function.update s.task x task }

def makeRunning (s : Sched) (x : Nat) : Sched :=
  let task := { s.task x with flag := (s.task x).flag ||| taskFlgRunning }
  { s with current := x, task := Function.update s.task x task }

theorem sameList_clearRunning (s : Sched) (x : Nat) : SameList s (clearRunning s x) := by
  refine ⟨fun y => ?_, fun y => ?_, rfl, rfl⟩ <;> by_cases h : y = x <;> simp [clearRunning, h]

theorem sameList_makeRunning (s : Sched) (x : Nat) : SameList s (makeRunning s x) := by
  refine ⟨fun y => ?_, fun y => ?_, rfl, rfl⟩ <;> by_cases h : y = x <;> simp [makeRunning, h]

theorem hasFlag_clearRunning (s : Sched) (x : Nat) {k : Nat} (hk : k < 32) (y : Nat) :
    hasFlag (clearRunning s x) (mask k) y = (hasFlag s (mask k) y && !decide (y = x ∧ k = 0)) := by
  rw [hasFlag_mask _ hk, hasFlag_mask _ hk]
  by_cases h : y = x
  · subst h
    simp only [clearRunning, Function.update_self, taskFlgRunning, getLsbD_and_not_mask _ _ hk]
    simp
  · simp [clearRunning, h]

theorem hasFlag_makeRunning (s : Sched) (x : Nat) {k : Nat} (hk : k < 32) (y : Nat) :
    hasFlag (makeRunning s x) (mask k) y = (hasFlag s (mask k) y || decide (y = x ∧ k = 0)) := by
  rw [hasFlag_mask _ hk, hasFlag_mask _ hk]
  by_cases h : y = x
  · subst h
    simp only [makeRunning, Function.update_self, taskFlgRunning, getLsbD_or_mask _ _ hk]
    simp
  · simp [makeRunning, h]

theorem waits_clearRunning (s : Sched) (x y : Nat) : waits (clearRunning s x) y = waits s y := by
  simp [waits, taskFlgWait, taskFlgBusy, hasFlag_clearRunning]

theorem waits_makeRunning (s : Sched) (x y : Nat) : waits (makeRunning s x) y = waits s y := by
  simp [waits, taskFlgWait, taskFlgBusy, hasFlag_makeRunning]

theorem update_field {α β : Type} {m : Nat → α} {x : Nat} {a : α} (f : α → β) (h : f a = f (m x)) (y : Nat) :
    f (Function.update m x a y) = f (m y) := by
  by_cases hy : y = x
  · rw [hy, Function.update_self, h]
  · rw [Function.update_of_ne hy]

theorem Roused.of_same {s t u : Sched} {done rest : List Nat} (h : Roused s done rest t) (hsame : ∀ y, SameWait t u y)
    (hesp0 : ∀ y, (u.task y).esp0 = (t.task y).esp0) (hcounters : u.systime = t.systime ∧ u.lastPid = t.lastPid) :
    Roused s done rest u := by
  refine ⟨fun y => (hesp0 y).trans (h.esp0 y), fun y => by rw [← h.pid y, pidOf, (hsame y).ctl, pidOf],
    ⟨hcounters.1.trans h.counters.1, hcounters.2.trans h.counters.2⟩,
    fun y hy => (h.passed y hy).trans (hsame y), fun pre y post hsplit => ?_⟩
  rcases h.looked pre y post hsplit with hy | ⟨hwait, hwoken, hreason⟩
  · exact .inl (hy.trans (hsame y))
  · exact .inr ⟨hwait, (hsame y).wait.trans hwoken, hreason⟩

theorem Roused.marked {s t : Sched} {done rest : List Nat} (h : Roused s done rest t) (x z : Nat) :
    Roused s done rest (makeRunning (clearRunning t x) z) := by
  have hclear : Roused s done rest (clearRunning t x) := by
    refine h.of_same (fun y => ⟨?_, update_field X86Task.waitType (by rfl) y, update_field X86Task.ctl (by rfl) y⟩)
      (update_field X86Task.esp0 (by rfl)) ⟨rfl, rfl⟩
    simp [taskFlgWait, hasFlag_clearRunning]
  refine hclear.of_same (fun y => ⟨?_, update_field X86Task.waitType (by rfl) y, update_field X86Task.ctl (by rfl) y⟩)
    (update_field X86Task.esp0 (by rfl)) ⟨rfl, rfl⟩
  simp [taskFlgWait, hasFlag_makeRunning]

theorem roused_space {s t : Sched} {done rest : List Nat} {p : Nat} (h : Roused { s with space := p } done rest t) :
    Roused s done rest t := by
  have hsame : ∀ x, SameWait s { s with space := p } x := fun x => ⟨rfl, rfl, rfl⟩
  refine ⟨h.esp0, h.pid, h.counters, fun x hx => (hsame x).trans (h.passed x hx), fun pre x post hsplit => ?_⟩
  rcases h.looked pre x post hsplit with hx | ⟨hwait, hwoken, hreason⟩
  · exact .inl ((hsame x).trans hx)
  · refine .inr ⟨hwait, hwoken, ?_⟩
    cases hreason with
    | sleep ctl hctl htype htime => exact .sleep ctl hctl htype htime
    | pid ctl hctl htype hnone => exact .pid ctl hctl htype hnone

theorem chain_behind {idle : Nat} {s t : Sched} {l : List Nat} (h : SchedInv idle s l)
    (hlink : Linked id (Succ t) (alive s l) 0) (hfirst : t.first = s.first)
    (hstop : hasFlag s taskFlgStop s.current = true →
      (t.task s.current).next = (s.task s.current).next) :
    (s.current :: alive s (behindCurrent s l)).IsChain fun a b => following t a = b := by
  obtain ⟨l₁, l₂, hl, h₁, h₂, hbehind⟩ := h.split
  have hhead := h.listed.first
  have hold := h.listed.linked
  rw [hl] at hhead hold hlink
  have happ : ∀ a b, alive s (a ++ b) = alive s a ++ alive s b := fun a b => List.filter_append a b
  rw [hbehind, happ, happ, h₁, h₂]
  rw [happ, h₁] at hlink
  cases hs : hasFlag s taskFlgStop s.current with
  | true =>
    have hc : alive s [s.current] = [] := by simp [alive, hs]
    have hc₂ : alive s (s.current :: l₂) = l₂ := by
      rw [← List.singleton_append, happ, hc, h₂, List.nil_append]
    rw [hc₂] at hlink
    obtain ⟨hlink₁, hlink₂⟩ := (linked_append id (Succ t) l₁ l₂ 0).mp hlink
    have hcur := ((linked_append id (Succ s) l₁ (s.current :: l₂) 0).mp hold).2.1
    have hring : Linked id (Succ t) (s.current :: l₂) 0 :=
      ⟨⟨hcur.1, (hstop hs).trans hcur.2⟩, hlink₂⟩
    rw [hc, List.append_nil, ← List.cons_append]
    refine isChain_around hring (isChain_of_linked hlink₁) fun y hy => ?_
    rw [List.head?_append, Option.mem_def.mp hy] at hhead
    rw [hfirst]
    exact Option.some.inj hhead
  | false =>
    have hc : alive s [s.current] = [s.current] := by simp [alive, hs]
    have hc₂ : alive s (s.current :: l₂) = s.current :: l₂ := by
      rw [← List.singleton_append, happ, hc, h₂]
    rw [hc₂] at hlink
    have hfront : Linked id (Succ t) (l₁ ++ [s.current]) (first id l₂ 0) := by
      rw [← List.singleton_append, ← List.append_assoc] at hlink
      exact ((linked_append id (Succ t) (l₁ ++ [s.current]) l₂ 0).mp hlink).1
    rw [hc, ← List.cons_append]
    refine isChain_around ((linked_append id (Succ t) l₁ (s.current :: l₂) 0).mp hlink).2
      (isChain_of_linked hfront) fun y hy => ?_
    have hsame : (l₁ ++ [s.current]).head? = (l₁ ++ s.current :: l₂).head? := by cases l₁ <;> rfl
    rw [hsame, hhead] at hy
    rw [hfirst]
    exact (Option.some.inj hy).symm

theorem Swept.listed {s t : Sched} {l : List Nat} (h : Swept s [] l t) (hl : Listed s l)
    (hfirst : hasFlag s taskFlgStop s.first = false) : Listed t (alive s l) := by
  refine ⟨h.linked, ?_, h.last, hl.nodup.filter _⟩
  obtain ⟨rest, rfl⟩ := List.head?_eq_some_iff.mp hl.first
  rw [h.kept.first]
  simp [alive, hfirst]

theorem Listed.of_sameList {s t : Sched} {l : List Nat} (h : Listed s l) (hst : SameList s t) :
    Listed t l :=
  ⟨hst.linked h.linked, hst.first ▸ h.first, hst.last ▸ h.last, h.nodup⟩

theorem waits_swept {s t : Sched} {l : List Nat} (ht : Swept s [] l t) {x : Nat}
    (hx : waits s x = false) : waits t x = false := by
  have hbusy : hasFlag t taskFlgBusy x = hasFlag s taskFlgBusy x :=
    ht.kept.hasFlag (by decide) (by decide) x
  unfold waits at hx ⊢
  rw [Bool.or_eq_false_iff] at hx ⊢
  refine ⟨?_, hbusy.trans hx.2⟩
  cases hw : hasFlag t taskFlgWait x with
  | false => rfl
  | true => rw [ht.kept.wait x hw] at hx; exact absurd hx.1 (by simp)

theorem mem_alive_behind {s : Sched} {l : List Nat} {x : Nat} :
    x ∈ alive s (behindCurrent s l) ↔ x ∈ alive s l := by
  simp [alive, behindCurrent]

/-- The state after a switch to task `z`, the first one behind the current one that
does not wait. -/
theorem switched_of_found {idle z : Nat} {s t : Sched} {l : List Nat} (h : SchedInv idle s l)
    (ht : Swept s [] l t)
    (hz : (alive s (behindCurrent s l)).find? (fun x => !waits t x) = some z) :
    Switched s l (makeRunning (clearRunning t s.current) z) ∧
      SchedInv idle (makeRunning (clearRunning t s.current) z) (alive s l) := by
  have hu := sameList_clearRunning t s.current
  have hv := sameList_makeRunning (clearRunning t s.current) z
  have hlisted : Listed (makeRunning (clearRunning t s.current) z) (alive s l) :=
    ((ht.listed h.listed (h.first ▸ h.idle_free.2)).of_sameList hu).of_sameList hv
  have hwaits : ∀ x, waits (makeRunning (clearRunning t s.current) z) x = waits t x := fun x => by
    rw [waits_makeRunning, waits_clearRunning]
  have hflag : ∀ k, 0 < k → k < 32 → ∀ x,
      hasFlag (makeRunning (clearRunning t s.current) z) (mask k) x = hasFlag t (mask k) x :=
    fun k h0 hk x => by simp [hasFlag_makeRunning _ _ hk, hasFlag_clearRunning _ _ hk, h0.ne']
  have hstop : ∀ x, hasFlag (makeRunning (clearRunning t s.current) z) taskFlgStop x =
      hasFlag s taskFlgStop x := fun x =>
    (hflag 1 (by decide) (by decide) x).trans (ht.kept.hasFlag (by decide) (by decide) x)
  have hrunning : ∀ x ∈ alive s l,
      hasFlag (makeRunning (clearRunning t s.current) z) taskFlgRunning x = decide (x = z) := by
    intro x hx
    rw [taskFlgRunning, hasFlag_makeRunning _ _ (by decide), hasFlag_clearRunning _ _ (by decide)]
    by_cases hc : x = s.current
    · simp [hc]
    · have hs := (h.others x (List.mem_of_mem_filter hx) hc).2
      rw [ht.kept.hasFlag (by decide) (by decide), ← taskFlgRunning, hs]
      simp
  have hzmem : z ∈ alive s l := mem_alive_behind.mp (List.mem_of_find?_eq_some hz)
  refine ⟨⟨hlisted, hlisted.end_null, ?_, hrunning, fun x hx => ?_, fun x => ?_⟩, ⟨hlisted, ?_, ?_, hzmem, ?_, ?_, ?_⟩⟩
  · simp only [hwaits]
    exact hz
  · exact ht.kept.wait x ((hflag 2 (by decide) (by decide) x) ▸ hx)
  · exact (hflag 3 (by decide) (by decide) x).trans (ht.kept.hasFlag (by decide) (by decide) x)
  · exact ht.kept.first.trans h.first
  · exact fun x hx => h.below x (List.mem_of_mem_filter hx)
  · refine ⟨?_, (hstop idle).trans h.idle_free.2⟩
    rw [hwaits]
    exact waits_swept ht h.idle_free.1
  · intro x hx hne
    refine ⟨(hstop x).trans (by simpa using List.of_mem_filter hx), ?_⟩
    rw [hrunning x hx]
    exact decide_eq_false hne
  · intro x hx hne
    rw [hv.ctl, hu.ctl, ht.kept.ctl_isSome]
    exact h.ctl x (List.mem_of_mem_filter hx) hne

/-- The idle task does not wait, so the search for the next task finds one. -/
theorem awake_found {idle : Nat} {s t : Sched} {l : List Nat} (h : SchedInv idle s l) (ht : Swept s [] l t) :
    ∃ z, (alive s (behindCurrent s l)).find? (fun x => !waits t x) = some z := by
  refine Option.isSome_iff_exists.mp (List.find?_isSome.mpr ⟨idle, mem_alive_behind.mpr ?_, ?_⟩)
  · refine List.mem_filter.mpr ⟨?_, by simp [h.idle_free.2]⟩
    exact h.first ▸ List.mem_of_mem_head? h.listed.first
  · simp [waits_swept ht h.idle_free.1]

theorem wp_switch {idle : Nat} {s : Sched} {l : List Nat} (h : SchedInv idle s l)
    (hentry : s.taskingEntry = false)
    (hpid : ∀ x ∈ l, hasFlag s taskFlgStop x = true → (s.task x).ctl.map TaskCtl.pid ≠ some 1) :
    wp (x86TaskSwitch idle) noFault
      (fun _ t => Switched s l t ∧ SchedInv idle t (alive s l) ∧ Roused s [] l t) s := by
  have hlink := h.listed.linked
  have hfirst : first id l 0 = s.first := by
    obtain ⟨rest, rfl⟩ := List.head?_eq_some_iff.mp h.listed.first
    rfl
  rw [x86TaskSwitch, wp_bind, wp_get, wp_bind, mmSet, wp_modify, wp_bind, wp_get]
  dsimp only
  rw [if_neg (by simp [hentry]), wp_bind, wp_get, wp_bind]
  have hready : Sweepable idle { s with space := s.mmKernel } [] l :=
    ⟨hlink, hfirst, h.listed.nodup, h.listed.last, fun _ => h.first ▸ h.listed.first, h.idle_free.2, h.ctl, hpid, h.length_lt⟩
  have hsweep := wp_updateTasks [] l hready (show l.length < listFuel from h.length_lt)
  rw [hfirst] at hsweep
  refine wp_imp hsweep ?_
  rintro _ t ⟨ht, hroused⟩
  have ht' : Swept s [] l t :=
    ⟨ht.linked, ht.last, ⟨ht.kept.first, ht.kept.current, ht.kept.flags, ht.kept.wait, ht.kept.ctl⟩, ht.next⟩
  have hcurrent : t.current = s.current := ht.kept.current
  rw [wp_bind, wp_get, wp_bind, wp_setTask, wp_bind]
  obtain ⟨z, hz⟩ := awake_found h ht'
  have hfound' := switched_of_found h ht' hz
  have hdone : Switched s l (makeRunning (clearRunning t s.current) z) ∧
      SchedInv idle (makeRunning (clearRunning t s.current) z) (alive s l) ∧
      Roused s [] l (makeRunning (clearRunning t s.current) z) :=
    ⟨hfound'.1, hfound'.2, (roused_space hroused).marked s.current z⟩
  obtain ⟨hzw, pre, post, hord, hpre⟩ := List.find?_eq_some_iff_append.mp hz
  have hu := sameList_clearRunning t s.current
  have hchain := chain_behind h (hu.linked ht'.linked) (hu.first.trans ht'.kept.first) fun hstop =>
    (hu.next _).trans (ht'.next _ (by simp [hstop]))
  have hpre' : ∀ x ∈ pre, waits (clearRunning t s.current) x = true ∧ x ≠ s.current := fun x hx => by
    refine ⟨?_, fun hxc => h.current_not_before hord (hxc ▸ hx)⟩
    rw [waits_clearRunning]
    simpa using hpre x hx
  have hlen : pre.length < listFuel := by
    have hle : (alive s (behindCurrent s l)).length ≤ l.length := by
      refine (List.length_filter_le _ _).trans ?_
      rw [behindCurrent, List.length_rotate]
    have := h.length_lt
    rw [hord, List.length_append] at hle
    omega
  have hsplit : s.current :: (pre ++ z :: post) = (s.current :: (pre ++ [z])) ++ post := by simp
  rw [hord, hsplit] at hchain
  have hzu : waits (clearRunning t s.current) z = false := by
    rw [waits_clearRunning]
    simpa using hzw
  have hchain' := hchain.left_of_append
  rw [← hcurrent] at hdone hchain' hpre' hzu
  refine wp_imp (wp_selectTask (s := clearRunning t t.current) hchain' hpre' hzu hlen) ?_
  rintro _ _ rfl
  rw [wp_bind, wp_get]
  dsimp only
  by_cases hzc : z = t.current
  · rw [if_pos hzc, wp_bind]
    refine (wp_waiting z).mpr ?_
    have hzw' : waits { clearRunning t t.current with current := z } z = false := hzu
    rw [hzw', if_neg (by simp)]
    exact hdone
  · rw [if_neg hzc]
    exact hdone

end YggKernel.Task
