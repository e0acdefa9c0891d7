import YggKernel.Task.Switch
import YggKernel.Lib.Chains

namespace YggKernel.Task

open Lib.Program Lib.BitWords Lib.Chains

def hasFlag (s : Sched) (f : BitVec 32) (x : Nat) : Bool := (s.task x).flag &&& f != 0#32

def Succ (s : Sched) (x n : Nat) : Prop := x ≠ 0 ∧ (s.task x).next = n

/-- What the first loop keeps of the tasks: all flags but WAIT, which is only ever
cleared, and the process ids. -/
structure Kept (s t : Sched) : Prop where
  first : t.first = s.first
  current : t.current = s.current
  flags : ∀ x k, k < 32 → k ≠ 2 → (t.task x).flag.getLsbD k = (s.task x).flag.getLsbD k
  wait : ∀ x, hasFlag t taskFlgWait x = true → hasFlag s taskFlgWait x = true
  ctl : ∀ x, (t.task x).ctl.map TaskCtl.pid = (s.task x).ctl.map TaskCtl.pid

theorem Kept.refl (s : Sched) : Kept s s :=
  ⟨rfl, rfl, fun _ _ _ _ => rfl, fun _ h => h, fun _ => rfl⟩

theorem Kept.trans {s t u : Sched} (h : Kept s t) (h' : Kept t u) : Kept s u :=
  ⟨h'.first.trans h.first, h'.current.trans h.current,
    fun x k hk hk' => (h'.flags x k hk hk').trans (h.flags x k hk hk'),
    fun x hx => h.wait x (h'.wait x hx), fun x => (h'.ctl x).trans (h.ctl x)⟩

theorem hasFlag_mask (s : Sched) {k : Nat} (hk : k < 32) (x : Nat) :
    hasFlag s (mask k) x = (s.task x).flag.getLsbD k := and_mask_bne _ hk

theorem Kept.hasFlag {s t : Sched} (h : Kept s t) {k : Nat} (hk : k < 32) (hk' : k ≠ 2) (x : Nat) :
    hasFlag t (mask k) x = hasFlag s (mask k) x := by
  rw [hasFlag_mask t hk, hasFlag_mask s hk]
  exact h.flags x k hk hk'

theorem Kept.ctl_isSome {s t : Sched} (h : Kept s t) (x : Nat) :
    (t.task x).ctl.isSome = (s.task x).ctl.isSome := by
  simpa using congrArg Option.isSome (h.ctl x)

theorem wp_ctlOf {E : Fault → Prop} {Q : TaskCtl → Sched → Prop} {s : Sched} {x : Nat} {ctl : TaskCtl}
    (h : (s.task x).ctl = some ctl) : wp (ctlOf x) E Q s ↔ Q ctl s := by
  simp only [ctlOf, wp_bind, wp_get, h, wp_pure]

@[simp] theorem wp_nextOf {E : Fault → Prop} {Q : Nat → Sched → Prop} {s : Sched} (x : Nat) :
    wp (nextOf x) E Q s ↔ Q (s.task x).next s := by
  simp [nextOf]

@[simp] theorem wp_flagOf {E : Fault → Prop} {Q : BitVec 32 → Sched → Prop} {s : Sched} (x : Nat) :
    wp (flagOf x) E Q s ↔ Q (s.task x).flag s := by
  simp [flagOf]

@[simp] theorem wp_setTask {E : Fault → Prop} {Q : Unit → Sched → Prop} {s : Sched} (x : Nat)
    (f : X86Task → X86Task) :
    wp (setTask x f) E Q s ↔ Q () { s with task := Function.update s.task x (f (s.task x)) } := by
  simp [setTask]

/-- The process id that `task_by_pid` compares. Idle has no control structure and answers to 0. -/
def pidOf (s : Sched) (x : Nat) : Nat := ((s.task x).ctl.map TaskCtl.pid).getD 0

theorem Kept.pidOf {s t : Sched} (h : Kept s t) (x : Nat) : pidOf t x = pidOf s x := by
  unfold Task.pidOf
  rw [h.ctl]

theorem wp_pidFrom {s : Sched} (pid : Nat) {l : List Nat} {fuel : Nat}
    (hlink : Linked id (Succ s) l 0) (hfuel : l.length < fuel) :
    wp (pidFrom pid fuel (first id l 0)) noFault
      (fun r t => t = s ∧ (r = 0 ∧ (∀ y ∈ l, pidOf s y ≠ pid) ∨ r ∈ l ∧ pidOf s r = pid)) s := by
  induction l generalizing fuel with
  | nil =>
    cases fuel with
    | zero => omega
    | succ fuel => simp [pidFrom]
  | cons x l ih =>
    cases fuel with
    | zero => omega
    | succ fuel =>
      have hlen : l.length < fuel := by simpa using hfuel
      have hrest := ih hlink.2 hlen
      have hx : x ≠ 0 := hlink.1.1
      rw [← hlink.1.2] at hrest
      have hmiss : pidOf s x ≠ pid → wp (pidFrom pid fuel (s.task x).next) noFault
          (fun r t => t = s ∧ (r = 0 ∧ (∀ y ∈ x :: l, pidOf s y ≠ pid) ∨ r ∈ x :: l ∧ pidOf s r = pid)) s := by
        refine fun hne => wp_imp hrest fun r t ht => ⟨ht.1, ?_⟩
        rcases ht.2 with ⟨hr, hall⟩ | ⟨hr, hpid⟩
        · exact .inl ⟨hr, List.forall_mem_cons.mpr ⟨hne, hall⟩⟩
        · exact .inr ⟨List.mem_cons_of_mem _ hr, hpid⟩
      rw [pidFrom, first_cons, id, if_neg hx, wp_bind, wp_get]
      cases hctl : (s.task x).ctl with
      | none =>
        have hpid : pidOf s x = 0 := by simp [pidOf, hctl]
        by_cases hp : pid = 0
        · simp [hp, hpid]
        · dsimp only
          rw [if_neg hp, wp_bind, wp_nextOf]
          exact hmiss (by rw [hpid]; exact Ne.symm hp)
      | some ctl =>
        have hpid : pidOf s x = ctl.pid := by simp [pidOf, hctl]
        by_cases hp : ctl.pid = pid
        · simp [hp, hpid]
        · dsimp only
          rw [if_neg hp, wp_bind, wp_nextOf]
          exact hmiss (by rwa [hpid])

theorem wp_taskByPid {s : Sched} (pid : Nat) {l : List Nat} (hlink : Linked id (Succ s) l 0)
    (hfirst : first id l 0 = s.first) (hlen : l.length < listFuel) : wp (taskByPid pid) noFault
      (fun r t => t = s ∧ (r = 0 ∧ (∀ y ∈ l, pidOf s y ≠ pid) ∨ r ∈ l ∧ pidOf s r = pid)) s := by
  rw [taskByPid, wp_bind, wp_get, ← hfirst]
  exact wp_pidFrom pid hlink hlen

structure Woken (s t : Sched) : Prop where
  kept : Kept s t
  next : ∀ x, (t.task x).next = (s.task x).next
  last : t.last = s.last

theorem woken_clear (s : Sched) (x : Nat) (ctl : Option TaskCtl)
    (hctl : ctl.map TaskCtl.pid = (s.task x).ctl.map TaskCtl.pid) :
    Woken s { s with task := Function.update s.task x ({ s.task x with
      flag := (s.task x).flag &&& ~~~taskFlgWait, ctl := ctl }) } := by
  refine ⟨⟨rfl, rfl, fun y k hk hk' => ?_, fun y hy => ?_, fun y => ?_⟩, fun y => ?_, rfl⟩
  · by_cases h : y = x
    · subst h
      simp [taskFlgWait, getLsbD_and_not_mask _ _ hk, hk', -BitVec.getLsbD_and]
    · simp [Function.update_of_ne h]
  · by_cases h : y = x
    · subst h
      rw [taskFlgWait, hasFlag_mask _ (by decide)] at hy ⊢
      simp only [Function.update_self, BitVec.getLsbD_and, Bool.and_eq_true] at hy
      exact hy.1
    · simpa [hasFlag, Function.update_of_ne h] using hy
  · by_cases h : y = x
    · subst h
      simpa using hctl
    · simp [Function.update_of_ne h]
  · by_cases h : y = x
    · subst h
      simp
    · simp [Function.update_of_ne h]

structure SameWait (s t : Sched) (x : Nat) : Prop where
  wait : hasFlag t taskFlgWait x = hasFlag s taskFlgWait x
  waitType : (t.task x).waitType = (s.task x).waitType
  ctl : (t.task x).ctl = (s.task x).ctl

theorem SameWait.refl (s : Sched) (x : Nat) : SameWait s s x := ⟨rfl, rfl, rfl⟩

theorem SameWait.trans {s t u : Sched} {x : Nat} (h : SameWait s t x) (h' : SameWait t u x) : SameWait s u x :=
  ⟨h'.wait.trans h.wait, h'.waitType.trans h.waitType, h'.ctl.trans h.ctl⟩

inductive WakeReason (s : Sched) (l : List Nat) (x : Nat) : Prop
  | sleep (ctl : TaskCtl) (hctl : (s.task x).ctl = some ctl) (htype : (s.task x).waitType = taskWaitSleep)
      (htime : ctl.sleepDeadline ≤ s.systime)
  | pid (ctl : TaskCtl) (hctl : (s.task x).ctl = some ctl) (htype : (s.task x).waitType = taskWaitPid)
      (hnone : ∀ y ∈ l, pidOf s y ≠ u32 ctl.sleepDeadline)

/-- What the first loop does when it looks at one task. -/
structure Turn (s : Sched) (l : List Nat) (x : Nat) (t : Sched) : Prop where
  kept : Kept s t
  esp0 : ∀ y, (t.task y).esp0 = (s.task y).esp0
  counters : t.systime = s.systime ∧ t.lastPid = s.lastPid
  other : ∀ y, y ≠ x → SameWait s t y
  self : SameWait s t x ∨ hasFlag s taskFlgWait x = true ∧ hasFlag t taskFlgWait x = false ∧ WakeReason s l x

theorem Turn.refl (s : Sched) (l : List Nat) (x : Nat) : Turn s l x s :=
  ⟨.refl s, fun _ => rfl, ⟨rfl, rfl⟩, fun y _ => .refl s y, .inl (.refl s x)⟩

theorem turn_clear {s : Sched} {l : List Nat} {x : Nat} (ctl : Option TaskCtl)
    (hctl : ctl.map TaskCtl.pid = (s.task x).ctl.map TaskCtl.pid) (hwait : hasFlag s taskFlgWait x = true)
    (hreason : WakeReason s l x) :
    Turn s l x { s with task := Function.update s.task x ({ s.task x with
      flag := (s.task x).flag &&& ~~~taskFlgWait, ctl := ctl }) } := by
  refine ⟨(woken_clear s x ctl hctl).kept, fun y => ?_, ⟨rfl, rfl⟩, fun y hy => ?_, .inr ⟨hwait, ?_, hreason⟩⟩
  · by_cases h : y = x
    · subst h
      simp
    · simp [Function.update_of_ne h]
  · refine ⟨?_, ?_, ?_⟩ <;> simp [hasFlag, Function.update_of_ne hy]
  · rw [taskFlgWait, hasFlag_mask _ (by decide)]
    dsimp only
    rw [Function.update_self, getLsbD_and_not_mask _ _ (by decide)]
    simp

theorem wp_wakeUp {s : Sched} {l : List Nat} {x : Nat} (hlink : Linked id (Succ s) l 0)
    (hfirst : first id l 0 = s.first) (hlen : l.length < listFuel) (hctl : (s.task x).ctl.isSome) :
    wp (wakeUp x) noFault (fun _ t => Woken s t ∧ Turn s l x t) s := by
  obtain ⟨ctl, hctl⟩ := Option.isSome_iff_exists.mp hctl
  have hsame : Woken s s ∧ Turn s l x s := ⟨⟨.refl s, fun _ => rfl, rfl⟩, .refl s l x⟩
  rw [wakeUp, wp_bind, wp_flagOf]
  by_cases hflag : (s.task x).flag &&& taskFlgWait ≠ 0#32
  · have hwait : hasFlag s taskFlgWait x = true := by simpa [hasFlag] using hflag
    rw [if_pos hflag, wp_bind, wp_get]
    by_cases hsleep : (s.task x).waitType = taskWaitSleep
    · rw [if_pos hsleep, wp_bind, wp_get, wp_bind, wp_ctlOf hctl]
      by_cases htime : s.systime ≥ ctl.sleepDeadline
      · rw [if_pos htime, wp_setTask]
        exact ⟨woken_clear s x (s.task x).ctl rfl, turn_clear _ rfl hwait (.sleep ctl hctl hsleep htime)⟩
      · rw [if_neg htime]
        exact hsame
    · rw [if_neg hsleep, wp_bind, wp_get]
      by_cases hpid : (s.task x).waitType = taskWaitPid
      · rw [if_pos hpid, wp_bind, wp_ctlOf hctl, wp_bind]
        refine wp_imp (wp_taskByPid _ hlink hfirst hlen) ?_
        rintro t2 t ⟨rfl, hfound⟩
        by_cases ht2 : t2 = 0
        · have hnone : ∀ y ∈ l, pidOf t y ≠ u32 ctl.sleepDeadline := by
            rcases hfound with ⟨_, hall⟩ | ⟨hmem, _⟩
            · exact hall
            · obtain ⟨l₁, l₂, rfl⟩ := List.append_of_mem hmem
              exact absurd ht2 ((linked_append id (Succ t) l₁ (t2 :: l₂) 0).mp hlink).2.1.1
          have hmap : (some { ctl with sleepDeadline := 0 }).map TaskCtl.pid = (t.task x).ctl.map TaskCtl.pid := by
            rw [hctl]
            rfl
          have hwoken := woken_clear t x _ hmap
          have hturn := turn_clear _ hmap hwait (.pid ctl hctl hpid hnone)
          rw [if_pos ht2, wp_bind, wp_ctlOf hctl, wp_bind, wp_setTask, wp_setTask]
          simp only [Function.update_self, Function.update_idem]
          exact ⟨hwoken, hturn⟩
        · rw [if_neg ht2]
          exact hsame
      · rw [if_neg hpid]
        exact hsame
  · rw [if_neg hflag]
    exact hsame

theorem wp_closeFiles (fds : List Nat) {s : Sched} :
    wp (closeFiles fds) noFault (fun _ t => ∃ r, t = { s with released := r }) s := by
  induction fds generalizing s with
  | nil => exact ⟨_, rfl⟩
  | cons fd fds ih =>
    rw [closeFiles]
    by_cases h : fd ≠ 0
    · simp only [h, if_true, release, wp_bind, wp_modify, ne_eq, not_false_eq_true]
      refine wp_imp ih ?_
      rintro _ t ⟨r, rfl⟩
      exact ⟨r, rfl⟩
    · simp only [h, if_false]
      exact ih

theorem wp_taskDestroy {s : Sched} {x : Nat} (hctl : (s.task x).ctl.isSome) :
    wp (taskDestroy x) noFault
      (fun _ t => ∃ r, t = { s with space := s.mmKernel, released := r }) s := by
  obtain ⟨ctl, hctl⟩ := Option.isSome_iff_exists.mp hctl
  have hctl' : (({ s with space := s.mmKernel } : Sched).task x).ctl = some ctl := hctl
  simp only [taskDestroy, mmSet, wp_bind, wp_get, wp_modify]
  refine (wp_ctlOf hctl').mpr ?_
  refine wp_imp (wp_closeFiles _) ?_
  rintro _ t ⟨r, rfl⟩
  exact ⟨_, rfl⟩

structure Unlinked (s : Sched) (x p : Nat) (t : Sched) : Prop where
  task : t.task = Function.update s.task p { s.task p with next := (s.task x).next }
  first : t.first = s.first
  current : t.current = s.current
  last : t.last = if x = s.last then p else s.last
  counters : t.systime = s.systime ∧ t.lastPid = s.lastPid

theorem wp_stopTask {s : Sched} {x p : Nat} (hp : p ≠ 0) (hne : x ≠ p) (hctl : (s.task x).ctl.isSome)
    (hpid : (s.task x).ctl.map TaskCtl.pid ≠ some 1) :
    wp (stopTask x p) noFault (fun _ => Unlinked s x p) s := by
  obtain ⟨ctl, hctl⟩ := Option.isSome_iff_exists.mp hctl
  have hpid1 : ctl.pid ≠ 1 := by simpa [hctl] using hpid
  have hdestroy : ∀ t : Sched, t.task = Function.update s.task p { s.task p with next := (s.task x).next } →
      t.first = s.first → t.current = s.current → (t.last = if x = s.last then p else s.last) →
      (t.systime = s.systime ∧ t.lastPid = s.lastPid) →
      wp (do if (← ctlOf x).pid = 1 then throw (.panic "Attempted to kill init!\n")
             taskDestroy x) noFault (fun _ => Unlinked s x p) t := by
    intro t htask hfirst hcurrent hlast hcounters
    have hctl' : (t.task x).ctl = some ctl := by rw [htask, Function.update_of_ne hne, hctl]
    rw [wp_bind, wp_ctlOf hctl', if_neg hpid1]
    refine wp_imp (wp_taskDestroy (hctl' ▸ rfl)) ?_
    rintro _ u ⟨r, rfl⟩
    exact ⟨htask, hfirst, hcurrent, hlast, hcounters⟩
  rw [stopTask, wp_bind, wp_kassert]
  refine ⟨fun _ => ?_, fun h => by simp [hp] at h⟩
  rw [wp_bind, wp_nextOf, wp_bind, wp_setTask, wp_bind, wp_get]
  by_cases hx : x = s.last
  · rw [if_pos hx, wp_bind, wp_modify]
    exact hdestroy _ rfl rfl rfl (if_pos hx).symm ⟨rfl, rfl⟩
  · rw [if_neg hx]
    exact hdestroy _ rfl rfl rfl (if_neg hx).symm ⟨rfl, rfl⟩

theorem Unlinked.kept {s t : Sched} {x p : Nat} (h : Unlinked s x p t) : Kept s t := by
  have hsame : ∀ y, (t.task y).flag = (s.task y).flag ∧ (t.task y).ctl = (s.task y).ctl := fun y => by
    by_cases hy : y = p
    · simp [h.task, hy]
    · simp [h.task, Function.update_of_ne hy]
  refine ⟨h.first, h.current, fun y _ _ _ => by rw [(hsame y).1], fun y hy => ?_,
    fun y => by rw [(hsame y).2]⟩
  rwa [hasFlag, (hsame y).1] at hy

theorem Unlinked.last_drop {s t : Sched} {d rest : List Nat} {x p : Nat} (h : Unlinked s x p t)
    (hnodup : (d ++ p :: x :: rest).Nodup) (hlast : (d ++ p :: x :: rest).getLast? = some s.last) :
    (d ++ p :: rest).getLast? = some t.last := by
  rw [List.getLast?_append_cons, List.getLast?_cons_cons] at hlast
  rw [h.last, List.getLast?_append_cons]
  cases rest with
  | nil =>
    have hx : x = s.last := by simpa using hlast
    rw [if_pos hx]
    rfl
  | cons r rest =>
    rw [List.getLast?_cons_cons] at hlast ⊢
    have hx : x ≠ s.last := fun hx => by
      have hmem : x ∈ r :: rest := hx ▸ List.mem_of_getLast? hlast
      simp [List.nodup_append, hmem] at hnodup
    rw [if_neg hx, hlast]

theorem linked_setNext {s : Sched} {d rest : List Nat} {p x n : Nat}
    (hlink : Linked id (Succ s) (d ++ p :: x :: rest) 0) (hnodup : (d ++ p :: x :: rest).Nodup)
    (hn : n = (s.task x).next) {t : Sched}
    (ht : t.task = Function.update s.task p { s.task p with next := n }) :
    Linked id (Succ t) (d ++ p :: rest) 0 := by
  rw [linked_append, linked_cons, linked_cons] at hlink
  obtain ⟨hd, hp, hx, hrest⟩ := hlink
  simp only [List.nodup_append, List.nodup_cons, List.mem_cons, not_or] at hnodup
  obtain ⟨_, ⟨⟨_, hpr⟩, _⟩, hdis⟩ := hnodup
  have hkeep : ∀ y, y ≠ p → ∀ n, Succ s y n → Succ t y n := fun y hy n hs => by
    simpa [Succ, ht, Function.update_of_ne hy] using hs
  rw [linked_append, linked_cons]
  refine ⟨hd.imp fun y hy => hkeep y (hdis y hy p (.inl rfl)), ⟨hp.1, ?_⟩,
    hrest.imp fun y hy => hkeep y fun h => hpr (h ▸ hy)⟩
  rw [ht, Function.update_self, hn]
  exact hx.2

/-- What the first loop makes of the tasks `done` it has passed, the last of which is
`tp`, and those that are left: the stopped ones are unlinked. -/
structure Swept (s : Sched) (done rest : List Nat) (t : Sched) : Prop where
  linked : Linked id (Succ t) (done ++ rest.filter fun x => !hasFlag s taskFlgStop x) 0
  last : (done ++ rest.filter fun x => !hasFlag s taskFlgStop x).getLast? = some t.last
  kept : Kept s t
  next : ∀ x, x ∉ done ++ (rest.filter fun x => !hasFlag s taskFlgStop x) →
    (t.task x).next = (s.task x).next

theorem swept_keep {s t : Sched} {done rest : List Nat} {x : Nat} (hs : hasFlag s taskFlgStop x = false)
    (h : Swept s (done ++ [x]) rest t) : Swept s done (x :: rest) t := by
  have hl : done ++ (x :: rest).filter (fun x => !hasFlag s taskFlgStop x) =
      (done ++ [x]) ++ rest.filter fun x => !hasFlag s taskFlgStop x := by
    simp [hs]
  obtain ⟨h1, h2, h3, h4⟩ := h
  rw [← hl] at h1 h2 h4
  exact ⟨h1, h2, h3, h4⟩

theorem swept_drop {s t : Sched} {done rest : List Nat} {x : Nat} (hs : hasFlag s taskFlgStop x = true)
    (h : Swept s done rest t) : Swept s done (x :: rest) t := by
  have hl : (x :: rest).filter (fun x => !hasFlag s taskFlgStop x) =
      rest.filter fun x => !hasFlag s taskFlgStop x := by
    simp [hs]
  obtain ⟨h1, h2, h3, h4⟩ := h
  rw [← hl] at h1 h2 h4
  exact ⟨h1, h2, h3, h4⟩

theorem swept_of_kept {s t u : Sched} {done rest : List Nat} (hkept : Kept s t)
    (hnext : ∀ x, x ∉ done → (t.task x).next = (s.task x).next) (h : Swept t done rest u) :
    Swept s done rest u := by
  have hl : (fun x => !hasFlag t taskFlgStop x) = fun x => !hasFlag s taskFlgStop x :=
    funext fun x => congrArg not (hkept.hasFlag (k := 1) (by decide) (by decide) x)
  obtain ⟨h1, h2, h3, h4⟩ := h
  rw [hl] at h1 h2 h4
  refine ⟨h1, h2, hkept.trans h3, fun x hx => (h4 x hx).trans (hnext x ?_)⟩
  exact fun hmem => hx (List.mem_append_left _ hmem)

/-- What the first loop does to the tasks: those it has passed keep what they wait for, and each
other one does too or is woken up for a reason, while the stopped ones before it are gone. -/
structure Roused (s : Sched) (done rest : List Nat) (t : Sched) : Prop where
  esp0 : ∀ x, (t.task x).esp0 = (s.task x).esp0
  pid : ∀ x, pidOf t x = pidOf s x
  counters : t.systime = s.systime ∧ t.lastPid = s.lastPid
  passed : ∀ x, x ∉ rest → SameWait s t x
  looked : ∀ pre x post, rest = pre ++ x :: post → SameWait s t x ∨
    hasFlag s taskFlgWait x = true ∧ hasFlag t taskFlgWait x = false ∧
      WakeReason s (done ++ pre.filter (fun y => !hasFlag s taskFlgStop y) ++ x :: post) x

theorem WakeReason.of_turn {s t : Sched} {l l' : List Nat} {x y : Nat} (h : WakeReason t l y) (ht : Turn s l' x t)
    (hne : y ≠ x) : WakeReason s l y := by
  have hsame := ht.other y hne
  cases h with
  | sleep ctl hctl htype htime =>
    exact .sleep ctl (hsame.ctl ▸ hctl) (hsame.waitType ▸ htype) (ht.counters.1 ▸ htime)
  | pid ctl hctl htype hnone =>
    exact .pid ctl (hsame.ctl ▸ hctl) (hsame.waitType ▸ htype) fun z hz => ht.kept.pidOf z ▸ hnone z hz

theorem roused_cons {s t u : Sched} {done rest : List Nat} {x : Nat} (hturn : Turn s (done ++ x :: rest) x t)
    (hnodup : (x :: rest).Nodup)
    (h : Roused t (done ++ [x].filter fun y => !hasFlag s taskFlgStop y) rest u) : Roused s done (x :: rest) u := by
  have hx : x ∉ rest := (List.nodup_cons.mp hnodup).1
  have hstop : (fun y => !hasFlag t taskFlgStop y) = fun y => !hasFlag s taskFlgStop y :=
    funext fun y => congrArg not (hturn.kept.hasFlag (k := 1) (by decide) (by decide) y)
  have hbehind := h.passed x hx
  refine ⟨fun y => (h.esp0 y).trans (hturn.esp0 y), fun y => (h.pid y).trans (hturn.kept.pidOf y), ⟨h.counters.1.trans hturn.counters.1, h.counters.2.trans hturn.counters.2⟩, fun y hy => ?_,
    fun pre y post hsplit => ?_⟩
  · rw [List.mem_cons, not_or] at hy
    exact (hturn.other y hy.1).trans (h.passed y hy.2)
  · cases pre with
    | nil =>
      obtain ⟨rfl, rfl⟩ := List.cons.inj hsplit
      rcases hturn.self with hself | ⟨hwait, hwoken, hreason⟩
      · exact .inl (hself.trans hbehind)
      · refine .inr ⟨hwait, hbehind.wait.trans hwoken, ?_⟩
        rwa [List.filter_nil, List.append_nil]
    | cons x' pre =>
      obtain ⟨rfl, hrest⟩ := List.cons.inj hsplit
      have hne : y ≠ x := fun he => hx (by rw [hrest, ← he]; exact List.mem_append_right _ (List.mem_cons_self ..))
      have hsame := hturn.other y hne
      rcases h.looked pre y post hrest with hy | ⟨hwait, hwoken, hreason⟩
      · exact .inl (hsame.trans hy)
      · rw [hstop] at hreason
        refine .inr ⟨hsame.wait ▸ hwait, hwoken, ?_⟩
        have hreason' := hreason.of_turn hturn hne
        rwa [List.append_assoc done, ← List.filter_append, List.singleton_append] at hreason'

theorem Unlinked.turn {s t : Sched} {x p : Nat} (h : Unlinked s x p t) (l : List Nat) : Turn s l x t := by
  have hsame : ∀ y, (t.task y).flag = (s.task y).flag ∧ (t.task y).ctl = (s.task y).ctl ∧
      (t.task y).waitType = (s.task y).waitType ∧ (t.task y).esp0 = (s.task y).esp0 := fun y => by
    by_cases hy : y = p
    · simp [h.task, hy]
    · simp [h.task, Function.update_of_ne hy]
  have hwait : ∀ y, SameWait s t y := fun y =>
    ⟨by rw [hasFlag, (hsame y).1, hasFlag], (hsame y).2.2.1, (hsame y).2.1⟩
  exact ⟨h.kept, fun y => (hsame y).2.2.2, h.counters, fun y _ => hwait y, .inl (hwait x)⟩

/-- What the first loop needs to know of the tasks it has passed and of those that are left. -/
structure Sweepable (idle : Nat) (s : Sched) (done rest : List Nat) : Prop where
  linked : Linked id (Succ s) (done ++ rest) 0
  starts : first id (done ++ rest) 0 = s.first
  nodup : (done ++ rest).Nodup
  last : (done ++ rest).getLast? = some s.last
  head : done = [] → rest.head? = some idle
  running : hasFlag s taskFlgStop idle = false
  ctl : ∀ x ∈ rest, x ≠ idle → (s.task x).ctl.isSome
  spared : ∀ x ∈ rest, hasFlag s taskFlgStop x = true → (s.task x).ctl.map TaskCtl.pid ≠ some 1
  bounded : (done ++ rest).length < listFuel

section Sweep

variable {idle x p : Nat} {s t u : Sched} {done d rest : List Nat}

theorem Sweepable.succ (h : Sweepable idle s done (x :: rest)) : Succ s x (first id rest 0) :=
  ((linked_append id (Succ s) done (x :: rest) 0).mp h.linked).2.1

theorem Sweepable.behind (h : Sweepable idle s done (x :: rest)) : (x :: rest).Nodup :=
  (List.nodup_append.mp h.nodup).2.1

theorem Sweepable.pass (h : Sweepable idle s done (x :: rest)) : Sweepable idle s (done ++ [x]) rest := by
  have hshift : done ++ x :: rest = (done ++ [x]) ++ rest := by simp
  obtain ⟨hlink, hfirst, hnodup, hlast, -, hidle, hctl, hpid, hlen⟩ := h
  rw [hshift] at hlink hfirst hnodup hlast hlen
  exact ⟨hlink, hfirst, hnodup, hlast, by simp, hidle, fun y hy => hctl y (by simp [hy]), fun y hy => hpid y (by simp [hy]), hlen⟩

theorem Sweepable.of_kept (h : Sweepable idle s done rest) (hkept : Kept s t) (hnext : ∀ y, (t.task y).next = (s.task y).next)
    (hlast : t.last = s.last) : Sweepable idle t done rest := by
  have hstop : ∀ y, hasFlag t taskFlgStop y = hasFlag s taskFlgStop y := hkept.hasFlag (by decide) (by decide)
  exact ⟨h.linked.imp fun y _ n hy => ⟨hy.1, (hnext y).trans hy.2⟩, h.starts.trans hkept.first.symm, h.nodup,
    h.last.trans (by rw [hlast]), h.head, (hstop idle).trans h.running, fun y hy hne => (hkept.ctl_isSome y).trans (h.ctl y hy hne),
    fun y hy hys => hkept.ctl y ▸ h.spared y hy (hstop y ▸ hys), h.bounded⟩

theorem Sweepable.previous (h : Sweepable idle s done (x :: rest)) (hxi : x ≠ idle) : ∃ d p, done = d ++ [p] ∧ p ≠ 0 ∧ x ≠ p := by
  obtain ⟨hlink, -, hnodup, -, hdone, -⟩ := h
  rcases List.eq_nil_or_concat done with rfl | ⟨d, p, rfl⟩
  · exact absurd (by simpa using hdone rfl) hxi
  · have hp := (linked_append id (Succ s) d ([p] ++ x :: rest) 0).mp (by simpa using hlink)
    exact ⟨d, p, by simp, hp.2.1.1, fun he => by simp [he, List.nodup_append] at hnodup⟩

theorem Sweepable.drop (h : Sweepable idle s (d ++ [p]) (x :: rest)) (ht : Unlinked s x p t) : Sweepable idle t (d ++ [p]) rest := by
  obtain ⟨hlink, hfirst, hnodup, hlast, -, hidle, hctl, hpid, hlen⟩ := h
  simp only [List.append_assoc, List.singleton_append] at hlink hfirst hnodup hlast hlen
  have hstop : ∀ y, hasFlag t taskFlgStop y = hasFlag s taskFlgStop y := ht.kept.hasFlag (by decide) (by decide)
  have hlink' := linked_setNext hlink hnodup rfl ht.task
  have hlast' := ht.last_drop hnodup hlast
  have hnodup' : (d ++ p :: rest).Nodup := hnodup.sublist ((List.sublist_cons_self x rest).cons_cons p |>.append_left d)
  have hfirst' : first id (d ++ p :: rest) 0 = t.first := by
    rw [ht.first, ← hfirst, first_append, first_append]
    rfl
  have hlen' : (d ++ p :: rest).length < listFuel := by
    simp only [List.length_append, List.length_cons] at hlen ⊢
    omega
  rw [← List.singleton_append, ← List.append_assoc] at hlink' hfirst' hnodup' hlast' hlen'
  exact ⟨hlink', hfirst', hnodup', hlast', by simp, (hstop idle).trans hidle,
    fun y hy hne => (ht.kept.ctl_isSome y).trans (hctl y (by simp [hy]) hne),
    fun y hy hys => ht.kept.ctl y ▸ hpid y (by simp [hy]) (hstop y ▸ hys), hlen'⟩

theorem wp_updateTasks (done rest : List Nat) {fuel : Nat} (h : Sweepable idle s done rest) (hfuel : rest.length < fuel) :
    wp (updateTasks idle fuel (first id rest 0) (done.getLast?.getD 0)) noFault
      (fun _ t => Swept s done rest t ∧ Roused s done rest t) s := by
  induction rest generalizing s done fuel with
  | nil =>
    cases fuel with
    | zero => omega
    | succ fuel =>
      rw [updateTasks, first_nil, if_pos rfl, wp_pure]
      exact ⟨⟨h.linked, h.last, .refl s, fun _ _ => rfl⟩, fun _ => rfl, fun _ => rfl, ⟨rfl, rfl⟩, fun x _ => .refl s x,
        fun pre x post h => by simp at h⟩
  | cons x rest ih =>
    cases fuel with
    | zero => omega
    | succ fuel =>
      have hfuel' : rest.length < fuel := by simpa using hfuel
      rw [updateTasks, first_cons, id, if_neg h.succ.1]
      by_cases hxi : x = idle
      · have hns : hasFlag s taskFlgStop x = false := hxi ▸ h.running
        have hrun := ih _ h.pass hfuel'
        rw [List.getLast?_concat, Option.getD_some] at hrun
        rw [if_pos hxi, wp_bind, wp_nextOf, h.succ.2]
        exact wp_imp hrun fun _ t ht => ⟨swept_keep hns ht.1, roused_cons (.refl s _ x) h.behind (by simpa [hns] using ht.2)⟩
      rw [if_neg hxi, wp_bind, wp_flagOf]
      cases hs : hasFlag s taskFlgStop x with
      | true =>
        have hflag : (s.task x).flag &&& taskFlgStop ≠ 0#32 := by simpa [hasFlag] using hs
        obtain ⟨d, p, rfl, hp0, hxp⟩ := h.previous hxi
        rw [if_pos hflag, wp_bind, List.getLast?_concat, Option.getD_some]
        refine wp_imp (wp_stopTask hp0 hxp (h.ctl x (by simp) hxi) (h.spared x (by simp) hs)) fun _ t ht => ?_
        have hnext : ∀ y, y ≠ p → (t.task y).next = (s.task y).next := fun y hy => by
          rw [ht.task, Function.update_of_ne hy]
        have hrun := ih _ (h.drop ht) hfuel'
        rw [List.getLast?_concat, Option.getD_some] at hrun
        rw [wp_bind, wp_nextOf, hnext x hxp, h.succ.2]
        refine wp_imp hrun fun _ u hu => ⟨?_, roused_cons (ht.turn _) h.behind (by simpa [hs] using hu.2)⟩
        exact swept_drop hs (swept_of_kept ht.kept (fun y hy => hnext y fun h => hy (by simp [h])) hu.1)
      | false =>
        have hflag : ¬(s.task x).flag &&& taskFlgStop ≠ 0#32 := by simpa [hasFlag] using hs
        rw [if_neg hflag, wp_bind]
        refine wp_imp (wp_wakeUp h.linked h.starts h.bounded (h.ctl x (by simp) hxi)) ?_
        rintro _ t ⟨ht, hturn⟩
        have hrun := ih _ (h.pass.of_kept ht.kept ht.next ht.last) hfuel'
        rw [List.getLast?_concat, Option.getD_some] at hrun
        rw [wp_bind, wp_nextOf, ht.next, h.succ.2]
        refine wp_imp hrun fun _ u hu => ⟨?_, roused_cons hturn h.behind (by simpa [hs] using hu.2)⟩
        exact swept_keep hs (swept_of_kept ht.kept (fun y _ => ht.next y) hu.1)

end Sweep

end YggKernel.Task
