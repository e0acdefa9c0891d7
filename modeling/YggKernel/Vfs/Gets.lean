import YggKernel.Dev.Reading
import YggKernel.Print.Format

namespace YggKernel.Vfs

open Lib.Buffers Print

section Source

@[irreducible] def ssize (n : Nat) : Int := (BitVec.ofNat 32 n).toInt

theorem ssize_of_lt {n : Nat} (h : n < 2147483648) : ssize n = n := by
  have hvalue : (BitVec.ofNat 32 n).toNat = n := by
    rw [BitVec.toNat_ofNat, Nat.mod_eq_of_lt (by omega)]
  unfold ssize
  rw [BitVec.toInt_eq_toNat_of_lt (by omega), hvalue]

theorem ssize_of_le {n : Nat} (h : 2147483648 ≤ n) (htop : n < 4294967296) : ssize n = n - 4294967296 := by
  have hvalue : (BitVec.ofNat 32 n).toNat = n := by
    rw [BitVec.toNat_ofNat, Nat.mod_eq_of_lt (by omega)]
  unfold ssize
  rw [BitVec.toInt_eq_toNat_cond, hvalue, if_neg (by omega)]
  rfl

theorem ssize_ne {n : Nat} (h : n < 4294967295) : ssize n ≠ -1 := by
  rcases Nat.lt_or_ge n 2147483648 with hsmall | hlarge
  · rw [ssize_of_lt hsmall]
    omega
  · rw [ssize_of_le hlarge (by omega)]
    omega

/-- The function `read` of a file system or a device, asked for one byte: its result, the byte and
the file behind it. -/
abbrev Reader (σ : Type) := σ → Int × Byte × σ

/-- An open file as `vfs_gets` uses it. -/
structure GetsFile (σ : Type) where
  flags : BitVec 32
  opBuf : Nat
  priv : σ

def readAsync : Int := -2

def newline : Byte := ascii '\n'

/-- `vfs_read` of one byte to the address `c`; nothing is known of the byte where it was not read. -/
def vfsReadByte {σ : Type} (read : Reader σ) (c : Nat) (f : GetsFile σ) : Except Fault (Int × Byte × GetsFile σ) :=
  if f.flags &&& 1 = 0 then .ok (-1, 0, f)
  else if f.opBuf ≠ 0 then .error (.panic "The file is locked by some other operation\n")
  else if 2 < (f.flags >>> 2) &&& 7 then .error (.panic "Unsupported descriptor type\n")
  else
    let (r, b, s) := read f.priv
    .ok (r, b, ⟨f.flags, if r = readAsync then c else 0, s⟩)

def stored (b : List Byte) (i : Nat) (x : Byte) : Except Fault (List Byte) :=
  (store b i x).elim (.error (.outOfBounds i)) .ok

/-- The loop of `vfs_gets` with the number of rounds left. None stands for the return of -1. -/
def getsLoop {σ : Type} (read : Reader σ) (c : Nat) :
    Nat → List Byte → Nat → GetsFile σ → Except Fault (Option Nat × List Byte × GetsFile σ)
  | 0, buf, i, f => .ok (some i, buf, f)
  | n + 1, buf, i, f => do
    let (r, b, f) ← vfsReadByte read c f
    if r ≠ 1 then return (if i = 0 then none else some i, buf, f)
    else if b = newline then return (some i, buf, f)
    else getsLoop read c n (← stored buf i b) (i + 1) f

def vfsGets {σ : Type} (read : Reader σ) (c : Nat) (buf : List Byte) (lim : Nat) (f : GetsFile σ) :
    Except Fault (Int × List Byte × GetsFile σ) := do
  match ← getsLoop read c (sub32 lim 1) buf 0 f with
  | (none, buf, f) => return (-1, buf, f)
  | (some i, buf, f) => return (ssize i, ← stored buf i 0, f)

/-- What calls one behind the other return, each with the text that then stands in the buffer. -/
def getsCalls {σ : Type} (read : Reader σ) (c lim : Nat) :
    Nat → List Byte → GetsFile σ → Except Fault (List (Int × List Byte))
  | 0, _, _ => .ok []
  | n + 1, buf, f => do
    let (r, buf, f) ← vfsGets read c buf lim f
    return (r, if r = -1 then [] else cstr buf) :: (← getsCalls read c lim n buf f)

end Source

section Contents

/-- A file that gives its bytes one by one, at once. -/
structure Sequential {σ : Type} (read : Reader σ) (left : σ → List Byte) : Prop where
  next : ∀ s b bs, left s = b :: bs → (read s).1 = 1 ∧ (read s).2.1 = b ∧ left (read s).2.2 = bs
  ended : ∀ s, left s = [] → (read s).1 ≠ 1 ∧ (read s).1 ≠ readAsync ∧ left (read s).2.2 = []

structure Readable {σ : Type} (left : σ → List Byte) (f : GetsFile σ) (content : List Byte) : Prop where
  flag : f.flags &&& 1 ≠ 0
  free : f.opBuf = 0
  type : ¬2 < (f.flags >>> 2) &&& 7
  content : left f.priv = content

def endedLines (content : List Byte) : List (List Byte) := (content.splitOn newline).dropLast

def fileLines (content : List Byte) : List (List Byte) :=
  endedLines content ++ ((content.splitOn newline).getLast?.filter (· ≠ [])).toList

/-- The results for one line: the line, or pieces of it that are not empty. -/
structure Delivered (lim : Nat) (l : List Byte) (ps : List (List Byte)) : Prop where
  whole : ps.flatten = l
  once : l.length < lim → ps = [l]
  bounded : ∀ p ∈ ps, p.length ≤ lim - 1
  nonempty : l ≠ [] → [] ∉ ps

/-- The calls return the lines of the file, and -1 from the end of the file on. -/
def YieldsLines {σ : Type} (read : Reader σ) (c lim : Nat) (buf : List Byte) (f : GetsFile σ)
    (content : List Byte) : Prop :=
  ∃ pss, List.Forall₂ (Delivered lim) (fileLines content) pss ∧
    ∀ n, getsCalls read c lim (pss.flatten.length + n) buf f =
      .ok (pss.flatten.map (fun t => ((t.length : Int), t)) ++ List.replicate n (-1, []))

end Contents

section Calls

variable {σ : Type} {read : Reader σ} {left : σ → List Byte} {f : GetsFile σ} {content : List Byte} {c lim : Nat}

theorem vfsReadByte_next (hseq : Sequential read left) {b : Byte} (h : Readable left f (b :: content)) :
    ∃ f', vfsReadByte read c f = .ok (1, b, f') ∧ Readable left f' content := by
  obtain ⟨hret, hbyte, hrest⟩ := hseq.next _ _ _ h.content
  have hfree : (read f.priv).1 ≠ readAsync := by
    rw [hret]
    decide
  refine ⟨⟨f.flags, 0, (read f.priv).2.2⟩, ?_, h.flag, rfl, h.type, hrest⟩
  unfold vfsReadByte
  rw [if_neg h.flag, if_neg (not_not.mpr h.free), if_neg h.type]
  dsimp only
  rw [if_neg hfree, hret, hbyte]

theorem vfsReadByte_ended (hseq : Sequential read left) (h : Readable left f []) :
    ∃ r b f', r ≠ 1 ∧ vfsReadByte read c f = .ok (r, b, f') ∧ Readable left f' [] := by
  obtain ⟨hret, hfree, hrest⟩ := hseq.ended _ h.content
  refine ⟨(read f.priv).1, (read f.priv).2.1, ⟨f.flags, 0, (read f.priv).2.2⟩, hret, ?_, h.flag, rfl, h.type, hrest⟩
  unfold vfsReadByte
  rw [if_neg h.flag, if_neg (not_not.mpr h.free), if_neg h.type]
  dsimp only
  rw [if_neg hfree]

def callText : Nat → List Byte → List Byte
  | n + 1, b :: bs => if b = newline then [] else b :: callText n bs
  | _, _ => []

def callRest : Nat → List Byte → List Byte
  | n + 1, b :: bs => if b = newline then bs else callRest n bs
  | 0, bs => bs
  | _ + 1, [] => []

theorem length_callText (n : Nat) (content : List Byte) : (callText n content).length ≤ n := by
  induction n, content using callText.induct with
  | case1 n bs => simp [callText]
  | case2 n b bs hb ih =>
    rw [callText, if_neg hb, List.length_cons]
    omega
  | case3 n bs hnone =>
    rw [callText]
    · exact Nat.zero_le n
    · exact hnone

theorem getsLoop_eq (hseq : Sequential read left) (n : Nat) (pre old : List Byte) (hroom : n ≤ old.length)
    (h : Readable left f content) :
    ∃ f', getsLoop read c n (pre ++ old) pre.length f =
      .ok (if pre = [] ∧ content = [] ∧ 0 < n then none else some (pre.length + (callText n content).length),
        pre ++ callText n content ++ old.drop (callText n content).length, f') ∧
      Readable left f' (callRest n content) := by
  induction n generalizing pre old f content with
  | zero =>
    refine ⟨f, ?_, h⟩
    rw [if_neg fun hn => absurd hn.2.2 (Nat.lt_irrefl 0)]
    simp [getsLoop, callText]
  | succ n ih =>
    cases content with
    | nil =>
      obtain ⟨r, b, f', hr, hread, hleft⟩ := vfsReadByte_ended (c := c) hseq h
      refine ⟨f', ?_, hleft⟩
      rw [getsLoop, hread]
      dsimp only [bind, Except.bind]
      rw [if_pos hr]
      by_cases hpre : pre = []
      · subst hpre
        simp [callText, pure, Except.pure]
      · have hlen : pre.length ≠ 0 := fun h0 => hpre (List.length_eq_zero_iff.mp h0)
        rw [if_neg hlen, if_neg fun hn => hpre hn.1]
        simp [callText, pure, Except.pure]
    | cons b bs =>
      obtain ⟨f', hread, hleft⟩ := vfsReadByte_next (c := c) hseq h
      rw [getsLoop, hread]
      dsimp only [bind, Except.bind]
      have hmore : ¬(pre = [] ∧ b :: bs = [] ∧ 0 < n + 1) := fun hn => List.cons_ne_nil b bs hn.2.1
      rw [if_neg (not_not.mpr rfl), if_neg hmore]
      by_cases hb : b = newline
      · refine ⟨f', ?_, ?_⟩
        · rw [if_pos hb, callText, if_pos hb]
          simp [pure, Except.pure]
        · rw [callRest, if_pos hb]
          exact hleft
      · obtain ⟨y, old, rfl⟩ := List.exists_cons_of_length_pos (Nat.lt_of_lt_of_le (Nat.succ_pos n) hroom)
        obtain ⟨f'', hloop, hrest⟩ := ih (pre ++ [b]) old (Nat.le_of_succ_le_succ hroom) hleft
        have hstore : stored (pre ++ y :: old) pre.length b = .ok (pre ++ b :: old) := by
          unfold stored
          rw [store_append]
          rfl
        have hne : ¬(pre ++ [b] = [] ∧ bs = [] ∧ 0 < n) := fun hn => by simp at hn
        rw [List.append_assoc, List.length_append, List.length_singleton, if_neg hne] at hloop
        refine ⟨f'', ?_, ?_⟩
        · rw [if_neg hb, hstore, callText, if_neg hb]
          refine hloop.trans ?_
          simp [Nat.add_assoc, Nat.add_comm 1]
        · rw [callRest, if_neg hb]
          exact hrest

variable {buf : List Byte} (hseq : Sequential read left) (hlim : 2 ≤ lim) (htop : lim < 4294967296) (hbuf : lim ≤ buf.length)
include hseq hlim htop hbuf

theorem vfsGets_ended (h : Readable left f []) :
    ∃ f', vfsGets read c buf lim f = .ok (-1, buf, f') ∧ Readable left f' [] := by
  have hsub : sub32 lim 1 = lim - 1 := sub32_of_le htop (by omega)
  obtain ⟨f', hloop, hrest⟩ := getsLoop_eq (c := c) hseq (lim - 1) [] buf (by omega) h
  obtain ⟨n, hn⟩ := Nat.exists_eq_succ_of_ne_zero (show lim - 1 ≠ 0 by omega)
  rw [if_pos ⟨rfl, rfl, by omega⟩, hn] at hloop
  refine ⟨f', ?_, ?_⟩
  · rw [vfsGets, hsub, hn]
    refine (congrArg (· >>= _) hloop).trans ?_
    rfl
  · rw [hn] at hrest
    exact hrest

theorem vfsGets_text (hne : content ≠ []) (h : Readable left f content) :
    ∃ f', vfsGets read c buf lim f = .ok (ssize (callText (lim - 1) content).length,
        callText (lim - 1) content ++ 0 :: buf.drop ((callText (lim - 1) content).length + 1), f') ∧
      Readable left f' (callRest (lim - 1) content) := by
  have hsub : sub32 lim 1 = lim - 1 := sub32_of_le htop (by omega)
  have hlen := length_callText (lim - 1) content
  obtain ⟨f', hloop, hrest⟩ := getsLoop_eq (c := c) hseq (lim - 1) [] buf (by omega) h
  rw [if_neg fun hn => hne hn.2.1, List.nil_append, List.nil_append, List.length_nil, Nat.zero_add] at hloop
  obtain ⟨y, old, hold⟩ := List.exists_cons_of_ne_nil
    (drop_ne_nil (show (callText (lim - 1) content).length < buf.length by omega))
  have hstore : stored (callText (lim - 1) content ++ buf.drop (callText (lim - 1) content).length)
      (callText (lim - 1) content).length 0 = .ok (callText (lim - 1) content ++ 0 :: old) := by
    rw [hold, stored, store_append]
    rfl
  have htail : old = buf.drop ((callText (lim - 1) content).length + 1) := by
    rw [← List.tail_drop, hold]
    rfl
  refine ⟨f', ?_, hrest⟩
  rw [vfsGets, hsub]
  refine (congrArg (· >>= _) hloop).trans ?_
  dsimp only [bind, Except.bind]
  rw [hstore, ← htail]
  rfl

end Calls

inductive Texts (k : Nat) : List Byte → List (List Byte) → Prop
  | ended : Texts k [] []
  | call {content : List Byte} {ts : List (List Byte)} (hne : content ≠ []) (hrest : Texts k (callRest k content) ts) :
      Texts k content (callText k content :: ts)

section Texts

variable {k : Nat} {content l cs : List Byte}

theorem length_callRest (hk : 0 < k) (hne : content ≠ []) : (callRest k content).length < content.length := by
  have hle : ∀ n (bs : List Byte), (callRest n bs).length ≤ bs.length := by
    intro n bs
    induction n, bs using callRest.induct with
    | case1 n bs => simp [callRest]
    | case2 n b bs hb ih =>
      rw [callRest, if_neg hb, List.length_cons]
      omega
    | case3 bs => simp [callRest]
    | case4 n => simp [callRest]
  obtain ⟨k, rfl⟩ := Nat.exists_eq_succ_of_ne_zero hk.ne'
  obtain ⟨b, bs, rfl⟩ := List.exists_cons_of_ne_nil hne
  rw [callRest, List.length_cons]
  split
  · omega
  · have := hle k bs
    omega

theorem exists_texts (hk : 0 < k) (content : List Byte) : ∃ ts, Texts k content ts := by
  induction hlen : content.length using Nat.strong_induction_on generalizing content with
  | _ n ih =>
    by_cases hne : content = []
    · exact ⟨[], hne ▸ .ended⟩
    · obtain ⟨ts, hts⟩ := ih _ (hlen ▸ length_callRest hk hne) _ rfl
      exact ⟨_, .call hne hts⟩

/-- The text of a call and the rest, with the newline between them that was read. -/
theorem callText_append (k : Nat) (content : List Byte) :
    callText k content ++ callRest k content = content ∨
      callText k content ++ newline :: callRest k content = content := by
  induction k, content using callText.induct with
  | case1 n bs =>
    rw [callText, if_pos rfl, callRest, if_pos rfl]
    exact .inr rfl
  | case2 n b bs hb ih =>
    rw [callText, if_neg hb, callRest, if_neg hb]
    exact ih.imp (congrArg (b :: ·)) (congrArg (b :: ·))
  | case3 n bs hnone =>
    left
    cases n with
    | zero => simp [callText, callRest]
    | succ n =>
      cases bs with
      | nil => rfl
      | cons b bs => exact (hnone n b bs rfl rfl).elim

theorem noNul_call (h : (0 : Byte) ∉ content) :
    (0 : Byte) ∉ callText k content ∧ (0 : Byte) ∉ callRest k content := by
  rcases callText_append k content with heq | heq <;> rw [← heq] at h
  · rw [List.mem_append, not_or] at h
    exact h
  · rw [List.mem_append, List.mem_cons, not_or, not_or] at h
    exact ⟨h.1, h.2.2⟩

theorem cstr_text {t rest : List Byte} (h : (0 : Byte) ∉ t) : cstr (t ++ 0 :: rest) = t := by
  have hall : ∀ c ∈ t, decide (c ≠ 0) = true := fun c hc => decide_eq_true fun h0 => h (h0 ▸ hc)
  rw [cstr, List.takeWhile_append_of_pos hall, List.takeWhile_cons_of_neg (by decide), List.append_nil]

theorem getsCalls_eq {σ : Type} {read : Reader σ} {left : σ → List Byte} {f : GetsFile σ} {buf : List Byte} {c lim : Nat}
    {ts : List (List Byte)} (hseq : Sequential read left) (hlim : 2 ≤ lim) (htop : lim < 4294967296)
    (hbuf : lim ≤ buf.length) (hnul : (0 : Byte) ∉ content) (h : Readable left f content)
    (hts : Texts (lim - 1) content ts) (n : Nat) : getsCalls read c lim (ts.length + n) buf f =
      .ok (ts.map (fun t => (ssize t.length, t)) ++ List.replicate n (-1, [])) := by
  induction hts generalizing f buf with
  | ended =>
    rw [List.length_nil, Nat.zero_add, List.map_nil, List.nil_append]
    induction n generalizing f buf with
    | zero => rfl
    | succ n ih =>
      obtain ⟨f', hcall, hrest⟩ := vfsGets_ended (c := c) hseq hlim htop hbuf h
      rw [getsCalls, hcall]
      dsimp only [bind, Except.bind]
      rw [ih hbuf hrest]
      rfl
  | @call content ts hne hts ih =>
    obtain ⟨f', hcall, hrest⟩ := vfsGets_text (c := c) hseq hlim htop hbuf hne h
    obtain ⟨htext, hnul'⟩ := noNul_call (k := lim - 1) hnul
    have hlen := length_callText (lim - 1) content
    have hret : ssize (callText (lim - 1) content).length ≠ -1 := ssize_ne (by omega)
    have hroom : lim ≤ (callText (lim - 1) content ++ 0 :: buf.drop ((callText (lim - 1) content).length + 1)).length := by
      simp only [List.length_append, List.length_cons, List.length_drop]
      omega
    have hcalls := ih hroom hnul' hrest
    have hcount : (callText (lim - 1) content :: ts).length + n = ts.length + n + 1 := by
      rw [List.length_cons]
      omega
    rw [hcount, getsCalls, hcall]
    dsimp only [bind, Except.bind]
    rw [hcalls, if_neg hret, cstr_text htext]
    rfl

end Texts

section Lines

variable {k : Nat} {content l cs t : List Byte} {ts : List (List Byte)}

theorem lines_induction {P : List Byte → Prop} (last : ∀ t, newline ∉ t → P t)
    (line : ∀ l cs, newline ∉ l → P cs → P (l ++ newline :: cs)) (content : List Byte) : P content := by
  have hmore : ∀ l, newline ∉ l → P (l ++ content) := by
    induction content with
    | nil =>
      intro l hl
      rw [List.append_nil]
      exact last l hl
    | cons c cs ih =>
      intro l hl
      by_cases hc : c = newline
      · rw [hc]
        exact line l cs hl (ih [] List.not_mem_nil)
      · have hrest := ih (l ++ [c]) fun hmem => (List.mem_append.mp hmem).elim hl fun h => hc (List.mem_singleton.mp h).symm
        rwa [List.append_assoc] at hrest
  exact hmore [] List.not_mem_nil

theorem splitOn_line (h : newline ∉ l) :
    (l ++ newline :: cs).splitOn newline = l :: cs.splitOn newline := List.splitOn_append_cons_self_of_not_mem h cs

theorem splitOn_ne (cs : List Byte) : cs.splitOn newline ≠ [] := List.splitOn_ne_nil _ _

theorem endedLines_line (h : newline ∉ l) : endedLines (l ++ newline :: cs) = l :: endedLines cs := by
  rw [endedLines, splitOn_line h, List.dropLast_cons_of_ne_nil (splitOn_ne cs)]
  rfl

theorem fileLines_line (h : newline ∉ l) : fileLines (l ++ newline :: cs) = l :: fileLines cs := by
  rw [fileLines, endedLines_line h, splitOn_line h, List.getLast?_cons_of_ne_nil (splitOn_ne cs)]
  rfl

theorem endedLines_tail (h : newline ∉ t) : endedLines t = [] := by
  rw [endedLines, List.splitOn_eq_singleton h]
  rfl

theorem fileLines_tail (h : newline ∉ t) : fileLines t = if t = [] then [] else [t] := by
  rw [fileLines, endedLines_tail h, List.splitOn_eq_singleton h]
  by_cases ht : t = []
  · simp [ht]
  · simp [ht]

theorem call_line (cs : List Byte) (h : newline ∉ l) : callText k (l ++ newline :: cs) = l.take k ∧
    callRest k (l ++ newline :: cs) = if l.length < k then cs else l.drop k ++ newline :: cs := by
  induction l generalizing k with
  | nil =>
    cases k with
    | zero => exact ⟨rfl, rfl⟩
    | succ k =>
      rw [List.nil_append, callText, if_pos rfl, callRest, if_pos rfl]
      exact ⟨rfl, (if_pos (Nat.succ_pos k)).symm⟩
  | cons b l ih =>
    rw [List.mem_cons, not_or] at h
    cases k with
    | zero => exact ⟨rfl, rfl⟩
    | succ k =>
      obtain ⟨htext, hrest⟩ := ih (k := k) h.2
      rw [List.cons_append, callText, if_neg (Ne.symm h.1), callRest, if_neg (Ne.symm h.1), htext, hrest]
      refine ⟨rfl, ?_⟩
      simp only [List.length_cons, Nat.add_lt_add_iff_right, List.drop_succ_cons]

theorem call_tail (h : newline ∉ t) : callText k t = t.take k ∧ callRest k t = t.drop k := by
  induction t generalizing k with
  | nil => cases k <;> exact ⟨rfl, rfl⟩
  | cons b t ih =>
    rw [List.mem_cons, not_or] at h
    cases k with
    | zero => exact ⟨rfl, rfl⟩
    | succ k =>
      obtain ⟨htext, hrest⟩ := ih (k := k) h.2
      rw [callText, if_neg (Ne.symm h.1), callRest, if_neg (Ne.symm h.1), htext, hrest]
      exact ⟨rfl, rfl⟩

inductive LineTexts (k : Nat) : List Byte → List (List Byte) → Prop
  | last {l : List Byte} (h : l.length < k) : LineTexts k l [l]
  | more {l : List Byte} {ps : List (List Byte)} (h : k ≤ l.length) (hrest : LineTexts k (l.drop k) ps) :
      LineTexts k l (l.take k :: ps)

inductive TailTexts (k : Nat) : List Byte → List (List Byte) → Prop
  | ended : TailTexts k [] []
  | more {t : List Byte} {ps : List (List Byte)} (hne : t ≠ []) (hrest : TailTexts k (t.drop k) ps) :
      TailTexts k t (t.take k :: ps)

theorem texts_line (hk : 0 < k) (h : newline ∉ l) (hts : Texts k (l ++ newline :: cs) ts) :
    ∃ ps us, ts = ps ++ us ∧ LineTexts k l ps ∧ Texts k cs us := by
  induction hlen : l.length using Nat.strong_induction_on generalizing l ts with
  | _ n ih =>
    obtain ⟨htext, hrest⟩ := call_line (k := k) cs h
    generalize hall : l ++ newline :: cs = content at hts htext hrest
    cases hts with
    | ended => exact absurd hall (by simp)
    | @call _ us hne hus =>
      rw [htext]
      rw [hrest] at hus
      by_cases hshort : l.length < k
      · rw [if_pos hshort] at hus
        rw [List.take_of_length_le hshort.le]
        exact ⟨[l], us, rfl, .last hshort, hus⟩
      · rw [if_neg hshort] at hus
        have hdrop : newline ∉ l.drop k := fun hmem => h (List.mem_of_mem_drop hmem)
        obtain ⟨ps, vs, rfl, hps, hvs⟩ := ih _ (by rw [List.length_drop]; omega) hdrop hus rfl
        exact ⟨l.take k :: ps, vs, rfl, .more (by omega) hps, hvs⟩

theorem texts_tail (h : newline ∉ t) (hts : Texts k t ts) : TailTexts k t ts := by
  induction hts with
  | ended => exact .ended
  | @call content us hne hus ih =>
    obtain ⟨htext, hrest⟩ := call_tail (k := k) h
    rw [hrest] at ih
    rw [htext]
    exact .more hne (ih fun hmem => h (List.mem_of_mem_drop hmem))

end Lines

section Delivery

variable {k lim : Nat} {content l t : List Byte} {ps ts : List (List Byte)}

/-- A line that fills its last piece: its newline is left for a call of its own. -/
def FillsPieces (k : Nat) (l : List Byte) : Prop := l ≠ [] ∧ k ∣ l.length

instance (k : Nat) (l : List Byte) : Decidable (FillsPieces k l) := inferInstanceAs (Decidable (l ≠ [] ∧ k ∣ l.length))

theorem LineTexts.flatten_eq (h : LineTexts k l ps) : ps.flatten = l := by
  induction h with
  | last h => exact List.append_nil _
  | more h hrest ih => rw [List.flatten_cons, ih, List.take_append_drop]

theorem LineTexts.bounded (h : LineTexts k l ps) : ∀ p ∈ ps, p.length ≤ k := by
  induction h with
  | last h =>
    intro p hp
    rw [List.mem_singleton.mp hp]
    exact h.le
  | more h hrest ih =>
    intro p hp
    rcases List.mem_cons.mp hp with rfl | hp
    · exact List.length_take_le ..
    · exact ih p hp

theorem take_ne_nil (hk : 0 < k) (hl : l ≠ []) : l.take k ≠ [] := fun h => by
  rcases List.take_eq_nil_iff.mp h with h | h
  · omega
  · exact hl h

/-- The empty texts for a line: one for an empty line, and one for a line that fills its last piece. -/
theorem LineTexts.count_nil (hk : 0 < k) (h : LineTexts k l ps) : ps.count [] = if k ∣ l.length then 1 else 0 := by
  induction h with
  | @last l h =>
    by_cases hl : l = []
    · rw [hl]
      exact (if_pos (dvd_zero k)).symm
    · have hlen := List.length_pos_iff.mpr hl
      rw [if_neg fun hdvd => Nat.not_le_of_lt h (Nat.le_of_dvd hlen hdvd)]
      exact List.count_eq_zero.mpr fun hmem => hl (List.mem_singleton.mp hmem).symm
  | @more l ps h hrest ih =>
    have hl : l ≠ [] := List.length_pos_iff.mp (by omega)
    rw [List.count_cons_of_ne (take_ne_nil hk hl), ih, List.length_drop]
    have hdvd : k ∣ l.length - k ↔ k ∣ l.length := Nat.dvd_sub_self_right.trans
      (or_iff_left_of_imp fun hle => (Nat.le_antisymm h hle).dvd)
    simp only [hdvd]

theorem LineTexts.delivered (hk : 0 < k) (h : LineTexts k l ps) (hfill : ¬FillsPieces k l) : Delivered (k + 1) l ps := by
  refine ⟨h.flatten_eq, fun hshort => ?_, h.bounded, fun hl => ?_⟩
  · cases h with
    | last h => rfl
    | more h hrest =>
      refine absurd ⟨?_, ?_⟩ hfill
      · exact List.length_pos_iff.mp (by omega)
      · rw [show l.length = k by omega]
  · have hcount := h.count_nil hk
    rw [if_neg fun hdvd => hfill ⟨hl, hdvd⟩] at hcount
    exact List.count_eq_zero.mp hcount

theorem TailTexts.nonempty (hk : 0 < k) (h : TailTexts k t ps) : [] ∉ ps := by
  induction h with
  | ended => exact List.not_mem_nil
  | more hne hrest ih =>
    intro hmem
    rcases List.mem_cons.mp hmem with hmem | hmem
    · exact take_ne_nil hk hne hmem.symm
    · exact ih hmem

theorem TailTexts.delivered (hk : 0 < k) (h : TailTexts k t ps) (ht : t ≠ []) : Delivered (k + 1) t ps := by
  refine ⟨?_, fun hshort => ?_, ?_, fun _ => h.nonempty hk⟩
  · clear ht
    induction h with
    | ended => rfl
    | more hne hrest ih => rw [List.flatten_cons, ih, List.take_append_drop]
  · cases h with
    | ended => exact absurd rfl ht
    | more hne hrest =>
      rw [List.drop_of_length_le (by omega)] at hrest
      cases hrest with
      | ended => rw [List.take_of_length_le (by omega)]
      | more hne' _ => exact absurd rfl hne'
  · clear ht
    induction h with
    | ended => exact fun p hp => absurd hp List.not_mem_nil
    | more hne hrest ih =>
      intro p hp
      rcases List.mem_cons.mp hp with rfl | hp
      · exact List.length_take_le ..
      · exact ih p hp

theorem texts_delivered (hk : 0 < k) (hfill : ∀ l ∈ endedLines content, ¬FillsPieces k l) (hts : Texts k content ts) :
    ∃ pss, List.Forall₂ (Delivered (k + 1)) (fileLines content) pss ∧ pss.flatten = ts := by
  induction content using lines_induction generalizing ts with
  | last t ht =>
    have htail := texts_tail ht hts
    rw [fileLines_tail ht]
    by_cases hne : t = []
    · subst hne
      rw [if_pos rfl]
      cases htail with
      | ended => exact ⟨[], .nil, rfl⟩
      | more hne _ => exact absurd rfl hne
    · rw [if_neg hne]
      exact ⟨[ts], .cons (htail.delivered hk hne) .nil, List.append_nil ts⟩
  | line l cs hl ih =>
    obtain ⟨ps, us, rfl, hps, hus⟩ := texts_line hk hl hts
    rw [endedLines_line hl] at hfill
    obtain ⟨pss, hpss, rfl⟩ := ih (fun l hl => hfill l (List.mem_cons_of_mem _ hl)) hus
    rw [fileLines_line hl]
    exact ⟨ps :: pss, .cons (hps.delivered hk (hfill l (List.mem_cons_self ..))) hpss, rfl⟩

theorem texts_count (hk : 0 < k) (hts : Texts k content ts) :
    ts.count [] = (fileLines content).count [] + (endedLines content).countP (FillsPieces k ·) := by
  induction content using lines_induction generalizing ts with
  | last t ht =>
    have htail := texts_tail ht hts
    rw [List.count_eq_zero.mpr (htail.nonempty hk), fileLines_tail ht, endedLines_tail ht]
    by_cases hne : t = []
    · rw [if_pos hne]
      rfl
    · rw [if_neg hne]
      simp [hne]
  | line l cs hl ih =>
    obtain ⟨ps, us, rfl, hps, hus⟩ := texts_line hk hl hts
    rw [List.count_append, hps.count_nil hk, ih hus, fileLines_line hl, endedLines_line hl]
    by_cases hne : l = []
    · subst hne
      simp [FillsPieces]
      omega
    · rw [List.count_cons_of_ne hne, List.countP_cons]
      simp [FillsPieces, hne]
      omega

theorem Delivered.count_nil (h : Delivered lim l ps) (hlim : 0 < lim) : ps.count [] = if l = [] then 1 else 0 := by
  by_cases hl : l = []
  · rw [h.once (by rw [hl]; exact hlim), hl, if_pos rfl]
    rfl
  · rw [if_neg hl]
    exact List.count_eq_zero.mpr (h.nonempty hl)

theorem delivered_count (hlim : 0 < lim) {ls : List (List Byte)} {pss : List (List (List Byte))}
    (h : List.Forall₂ (Delivered lim) ls pss) : pss.flatten.count [] = ls.count [] := by
  induction h with
  | nil => rfl
  | @cons l ps ls pss h hrest ih =>
    rw [List.flatten_cons, List.count_append, h.count_nil hlim, ih]
    by_cases hl : l = []
    · rw [if_pos hl, hl, List.count_cons_self]
      omega
    · rw [if_neg hl, List.count_cons_of_ne hl]
      omega

theorem LineTexts.small_iff (h : LineTexts k l ps) (m : Nat) : (∀ p ∈ ps, p.length < m) ↔ min l.length k < m := by
  have hwhole := congrArg List.length h.flatten_eq
  refine ⟨fun hall => ?_, fun hmin p hp => ?_⟩
  · cases h with
    | last h =>
      have := hall l (List.mem_cons_self ..)
      omega
    | more h hrest =>
      have := hall _ (List.mem_cons_self ..)
      rw [List.length_take] at this
      omega
  · have hle := h.bounded p hp
    have hpart := (List.sublist_flatten_of_mem hp).length_le
    rw [h.flatten_eq] at hpart
    omega

theorem TailTexts.small_iff (hk : 0 < k) (h : TailTexts k t ps) (ht : t ≠ []) (m : Nat) :
    (∀ p ∈ ps, p.length < m) ↔ min t.length k < m := by
  have hdelivered := h.delivered hk ht
  refine ⟨fun hall => ?_, fun hmin p hp => ?_⟩
  · cases h with
    | ended => exact absurd rfl ht
    | more hne hrest =>
      have := hall _ (List.mem_cons_self ..)
      rw [List.length_take] at this
      omega
  · have hle := hdelivered.bounded p hp
    have hpart := (List.sublist_flatten_of_mem hp).length_le
    rw [hdelivered.whole] at hpart
    omega

theorem texts_small_iff (hk : 0 < k) (hts : Texts k content ts) (m : Nat) :
    (∀ t ∈ ts, t.length < m) ↔ ∀ l ∈ fileLines content, min l.length k < m := by
  induction content using lines_induction generalizing ts with
  | last t ht =>
    have htail := texts_tail ht hts
    rw [fileLines_tail ht]
    by_cases hne : t = []
    · subst hne
      rw [if_pos rfl]
      cases htail with
      | ended => simp
      | more hne _ => exact absurd rfl hne
    · rw [if_neg hne, htail.small_iff hk hne]
      simp
  | line l cs hl ih =>
    obtain ⟨ps, us, rfl, hps, hus⟩ := texts_line hk hl hts
    rw [fileLines_line hl, List.forall_mem_append, List.forall_mem_cons, hps.small_iff, ih hus]

end Delivery

section Main

variable {σ : Type} {read : Reader σ} {left : σ → List Byte} {f : GetsFile σ} {content buf : List Byte} {c lim : Nat}

theorem length_text {k : Nat} {ts : List (List Byte)} (h : Texts k content ts) : ∀ t ∈ ts, t.length ≤ k := by
  induction h with
  | ended => exact fun t ht => absurd ht List.not_mem_nil
  | @call content us hne hus ih =>
    intro t ht
    rcases List.mem_cons.mp ht with rfl | ht
    · exact length_callText k content
    · exact ih t ht

theorem results_inj {us ts : List (List Byte)} {a b : Nat} (hts : ∀ t ∈ ts, ssize t.length ≠ -1)
    (h : us.map (fun t => ((t.length : Int), t)) ++ List.replicate a (-1, []) =
      ts.map (fun t => (ssize t.length, t)) ++ List.replicate b (-1, [])) :
    us.map (fun t => ((t.length : Int), t)) = ts.map fun t => (ssize t.length, t) := by
  have hfilter := congrArg (List.filter fun r => decide (r.1 ≠ -1)) h
  have hus : ∀ r ∈ us.map (fun t => ((t.length : Int), t)), decide (r.1 ≠ -1) = true := fun r hr => by
    obtain ⟨t, _, rfl⟩ := List.mem_map.mp hr
    exact decide_eq_true (by dsimp only; omega)
  have hts' : ∀ r ∈ ts.map (fun t => (ssize t.length, t)), decide (r.1 ≠ -1) = true := fun r hr => by
    obtain ⟨t, ht, rfl⟩ := List.mem_map.mp hr
    exact decide_eq_true (hts t ht)
  have hend : ∀ n, (List.replicate n ((-1, []) : Int × List Byte)).filter (fun r => decide (r.1 ≠ -1)) = [] := fun n => by
    simp
  rw [List.filter_append, List.filter_append, List.filter_eq_self.mpr hus, List.filter_eq_self.mpr hts', hend, hend,
    List.append_nil, List.append_nil] at hfilter
  exact hfilter

/-- The calls return the lines if and only if no line of the file fills its last piece before its
newline, and each length is an `ssize_t`. -/
theorem gets_yields_lines_iff (hseq : Sequential read left) (hf : Readable left f content)
    (hnul : (0 : Byte) ∉ content) (hlim : 2 ≤ lim) (htop : lim < 4294967296) (hbuf : lim ≤ buf.length) :
    YieldsLines read c lim buf f content ↔
      (∀ l ∈ endedLines content, ¬FillsPieces (lim - 1) l) ∧
        ∀ l ∈ fileLines content, min l.length (lim - 1) < 2147483648 := by
  have hk : 0 < lim - 1 := by omega
  obtain ⟨ts, hts⟩ := exists_texts hk content
  have hcalls := fun n => getsCalls_eq (c := c) hseq hlim htop hbuf hnul hf hts n
  rw [← texts_small_iff hk hts]
  constructor
  · rintro ⟨pss, hpss, hyield⟩
    have hboth := Except.ok.inj ((hyield ts.length).symm.trans
      ((congrArg (getsCalls read c lim · buf f) (Nat.add_comm _ _)).trans (hcalls pss.flatten.length)))
    have hsame := results_inj (fun t ht => ssize_ne ((length_text hts t ht).trans_lt (by omega))) hboth
    have htexts : pss.flatten = ts := by
      have hsnd := congrArg (List.map Prod.snd) hsame
      rw [List.map_map, List.map_map] at hsnd
      exact (List.map_id _).symm.trans (hsnd.trans (List.map_id _))
    refine ⟨fun l hl hfill => ?_, fun t ht => ?_⟩
    · have hcount := texts_count hk hts
      rw [← htexts, delivered_count (by omega) hpss] at hcount
      have hnone := List.countP_eq_zero.mp (show (endedLines content).countP (FillsPieces (lim - 1) ·) = 0 by omega) l hl
      exact hnone (decide_eq_true hfill)
    · rw [htexts] at hsame
      by_contra hlarge
      have hlen := List.map_inj_left.mp hsame t ht
      have hret := congrArg Prod.fst hlen
      dsimp only at hret
      rw [ssize_of_le (by omega) ((length_text hts t ht).trans_lt (by omega))] at hret
      omega
  · rintro ⟨hfill, hsmall⟩
    obtain ⟨pss, hpss, rfl⟩ := texts_delivered hk hfill hts
    rw [show lim - 1 + 1 = lim by omega] at hpss
    refine ⟨pss, hpss, fun n => ?_⟩
    rw [hcalls n]
    refine congrArg (fun rs => Except.ok (rs ++ List.replicate n (-1, []))) (List.map_congr_left fun t ht => ?_)
    rw [ssize_of_lt (hsmall t ht)]

end Main

section Readers

abbrev ArchiveFile (base total : Nat) := { s : Dev.OpenFile // ∃ l, Dev.AtRest base total l s }

structure Apart (base total c : Nat) : Prop where
  fits : base + total ≤ 4294967296
  small : c < 4294967296
  out : c < base ∨ base + total ≤ c

def archiveReader {base total c : Nat} (h : Apart base total c) : Reader (ArchiveFile base total) := fun s =>
  ((Dev.initramfsRead c 1 s.1).1, (Dev.initramfsRead c 1 s.1).2.mem c, ⟨(Dev.initramfsRead c 1 s.1).2,
    s.2.imp' (List.drop 1) fun l hl => (Dev.initramfsRead_slice hl h.fits
      (by have := h.out; omega) (by have := h.small; omega)).2.2⟩)

theorem sequential_archiveReader {base total c : Nat} (h : Apart base total c) :
    Sequential (archiveReader h) fun s => Lib.ByteMemory.loadBytes s.1.mem s.1.pos0 s.1.pos1 := by
  have hslice : ∀ s : ArchiveFile base total, ∀ l, Lib.ByteMemory.loadBytes s.1.mem s.1.pos0 s.1.pos1 = l →
      (archiveReader h s).1 = ((l.take 1).length : Int) ∧
      Lib.ByteMemory.loadBytes (archiveReader h s).2.2.1.mem c (l.take 1).length = l.take 1 ∧
      Lib.ByteMemory.loadBytes (archiveReader h s).2.2.1.mem (archiveReader h s).2.2.1.pos0
        (archiveReader h s).2.2.1.pos1 = l.drop 1 := by
    rintro ⟨s, l', hl'⟩ l hl
    have hsame : l' = l := by
      rw [← hl, hl'.pos1]
      exact hl'.loaded.bytes.symm
    subst hsame
    have hout : c + min 1 l'.length ≤ base ∨ base + total ≤ c := by
      have := h.out
      omega
    have hsmall : c + min 1 l'.length ≤ 4294967296 := by
      have := h.small
      omega
    obtain ⟨hret, hbytes, hrest⟩ := Dev.initramfsRead_slice hl' h.fits hout hsmall
    refine ⟨hret, hbytes, ?_⟩
    rw [show (archiveReader h ⟨s, l', hl'⟩).2.2.1 = (Dev.initramfsRead c 1 s).2 from rfl, hrest.pos1]
    exact hrest.loaded.bytes
  refine ⟨fun s b bs hs => ?_, fun s hs => ?_⟩
  · obtain ⟨hret, hbyte, hrest⟩ := hslice s _ hs
    exact ⟨hret, (List.cons.inj hbyte).1, hrest⟩
  · obtain ⟨hret, -, hrest⟩ := hslice s _ hs
    rw [hret]
    exact ⟨by decide, by decide, hrest⟩

def textReader : Reader (List Byte)
  | [] => (0, 0, [])
  | b :: bs => (1, b, bs)

theorem sequential_textReader : Sequential textReader id :=
  ⟨fun s b bs h => by rw [show s = b :: bs from h]; exact ⟨rfl, rfl, rfl⟩,
    fun s h => by rw [show s = [] from h]; exact ⟨by decide, by decide, rfl⟩⟩

theorem readable_text (content : List Byte) : Readable id ⟨1, 0, content⟩ content := 
  ⟨(by decide : (1 : BitVec 32) &&& 1 ≠ 0), rfl, (by decide : ¬2 < ((1 : BitVec 32) >>> 2) &&& 7), rfl⟩

/-- Lines of two, four, no and three characters, with room for three; the last one has no newline. -/
theorem gets_yields_lines_small : YieldsLines textReader 8 4 (List.replicate 4 0)
    ⟨1, 0, bytes ['a', 'b', '\n', 'c', 'd', 'e', 'f', '\n', '\n', 'g', 'h', 'i']⟩
    (bytes ['a', 'b', '\n', 'c', 'd', 'e', 'f', '\n', '\n', 'g', 'h', 'i']) :=
  (gets_yields_lines_iff sequential_textReader (readable_text _) (by decide) (by decide) (by decide)
    (by decide)).mpr (by decide)

/-- A line as long as the buffer allows is followed by an empty one. -/
theorem gets_repeats_newline : ¬YieldsLines textReader 8 3 (List.replicate 3 0) ⟨1, 0, bytes ['a', 'b', '\n']⟩
    (bytes ['a', 'b', '\n']) := fun h => by
  have hfill := ((gets_yields_lines_iff sequential_textReader (readable_text _) (by decide) (by decide) (by decide)
    (by decide)).mp h).1
  exact absurd hfill (by decide)

end Readers

end YggKernel.Vfs
