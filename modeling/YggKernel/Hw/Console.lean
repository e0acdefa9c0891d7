import YggKernel.Fault
import YggKernel.Print.Numerals
import Mathlib.Data.List.GetD

namespace YggKernel.Hw

open Lib.Program Print

/-- The size of a console. Its buffer of 16-bit cells lies in the address space. -/
structure ConSize where
  width : Nat
  height : Nat
  wide : 2 ≤ width ∧ width < 65536
  high : 2 ≤ height ∧ height < 65536
  fits : 2 * (width * height) ≤ 4294967296

structure Console where
  data : Nat → BitVec 16
  cury : Nat
  curx : Nat

section Source

variable (z : ConSize)

def conCell (i : Nat) : Prog Fault Console Nat :=
  let k := (BitVec.ofNat 32 i).toInt
  if 0 ≤ k ∧ k < z.width * z.height then return k.toNat else throw (.outOfBounds k.toNat)

def conLoad (i : Nat) : Prog Fault Console (BitVec 16) := do
  let k ← conCell z i
  return (← get).data k

def conStore (i : Nat) (x : BitVec 16) : Prog Fault Console Unit := do
  let k ← conCell z i
  modify fun s => { s with data := Function.update s.data k x }

def memsetw (i : Nat) (v : BitVec 16) (len : Nat) : Prog Fault Console Unit :=
  forUp 0 len fun k => conStore z (i + k) v

def x86ConScroll : Prog Fault Console Unit := do
  forUp 0 (z.height - 1) fun i => forUp 0 z.width fun j => do
    conStore z (i * z.width + j) (← conLoad z ((i + 1) * z.width + j))
  memsetw z (z.height * z.width - z.width) 0x0700 z.width

/-- The statements `con_curx = 0` and `++con_cury`. -/
def conNextRow : Prog Fault Console Unit := modify fun s => { s with curx := 0, cury := (s.cury + 1) % 65536 }

/-- The test for the bottom row, which two branches of `x86_con_putc` make. -/
def conKeepBottom : Prog Fault Console Unit := do
  if (← get).cury = z.height - 1 then
    modify fun s => { s with cury := z.height - 2 }
    x86ConScroll z

/-- The first branch of `x86_con_putc`. -/
def conPutPrintable (c : BitVec 8) : Prog Fault Console Unit := do
  if (← get).curx = z.width - 1 then conNextRow
  conKeepBottom z
  conStore z ((← get).cury * z.width + (← get).curx) (0x0700 ||| c.signExtend 16)
  modify fun s => { s with curx := (s.curx + 1) % 65536 }

/-- The type `char` is signed. The call of the last branch takes the first one. -/
def x86ConPutc (c : BitVec 8) : Prog Fault Console Unit := do
  if (ascii ' ').toInt ≤ c.toInt then conPutPrintable z c
  else if c = ascii '\n' then
    conNextRow
    conKeepBottom z
  else if c = ascii '\x08' then
    if (← get).curx ≠ 0 then
      modify fun s => { s with curx := s.curx - 1 }
      conStore z ((← get).cury * z.width + (← get).curx) 0x0700
  else conPutPrintable z (ascii '?')

def x86ConInit : Prog Fault Console Unit := memsetw z 0 0x0700 (z.width * z.height)

/-- Calls of `x86_con_putc` one behind the other. -/
def conPutAll : List (BitVec 8) → Prog Fault Console Unit
  | [] => return ()
  | c :: cs => do
    x86ConPutc z c
    conPutAll cs

end Source

section Layout

/-- A text that is laid out in rows: those that are ended, and the current one. -/
structure Layout where
  ended : List (List (BitVec 8))
  row : List (BitVec 8)
deriving DecidableEq

def Layout.rows (l : Layout) : List (List (BitVec 8)) := l.ended ++ [l.row]

def Layout.append (width : Nat) (l : Layout) (c : BitVec 8) : Layout :=
  if l.row.length = width - 1 then ⟨l.ended ++ [l.row], [c]⟩ else ⟨l.ended, l.row ++ [c]⟩

def Layout.put (width : Nat) (l : Layout) (c : BitVec 8) : Layout :=
  if 0x20 ≤ c.toNat ∧ c.toNat ≤ 0x7F then l.append width c
  else if c = ascii '\n' then ⟨l.ended ++ [l.row], []⟩
  else if c = ascii '\x08' then ⟨l.ended, l.row.dropLast⟩
  else l.append width (ascii '?')

def layOut (width : Nat) (text : List (BitVec 8)) : Layout := text.foldl (Layout.put width) ⟨[], []⟩

def Layout.shown (height : Nat) (l : Layout) : List (List (BitVec 8)) := l.rows.drop (l.rows.length - (height - 1))

def rowCell (row : List (BitVec 8)) (j : Nat) : BitVec 16 :=
  (row[j]?).elim 0x0700 fun c => 0x0700 ||| c.setWidth 16

def cellOf (rows : List (List (BitVec 8))) (i j : Nat) : BitVec 16 := rowCell (rows.getD i []) j

structure Shows (z : ConSize) (l : Layout) (s : Console) : Prop where
  cury : s.cury = (l.shown z.height).length - 1
  curx : s.curx = l.row.length
  cells : ∀ i < z.height, ∀ j < z.width, s.data (i * z.width + j) = cellOf (l.shown z.height) i j

end Layout

section Cells

variable {z : ConSize} {s : Console} {i j k : Nat} {E : Fault → Prop}

theorem cell_lt (hi : i < z.height) (hj : j < z.width) : i * z.width + j < z.width * z.height := by
  have h := Nat.mul_le_mul_right z.width (Nat.succ_le_of_lt hi)
  rw [Nat.succ_mul] at h
  rw [Nat.mul_comm z.width]
  omega

theorem cell_inj {i' j' : Nat} (hj : j < z.width) (hj' : j' < z.width) :
    i * z.width + j = i' * z.width + j' ↔ i = i' ∧ j = j' := by
  refine ⟨fun h => ?_, fun ⟨h, h'⟩ => by rw [h, h']⟩
  have hmod := congrArg (· % z.width) h
  simp only [Nat.mul_add_mod_self_right, Nat.mod_eq_of_lt hj, Nat.mod_eq_of_lt hj'] at hmod
  have hdiv : i * z.width = i' * z.width := by omega
  exact ⟨Nat.eq_of_mul_eq_mul_right (by omega) hdiv, hmod⟩

theorem wp_conCell {Q : Nat → Console → Prop} (hk : k < z.width * z.height) : wp (conCell z k) E Q s ↔ Q k s := by
  have hfits := z.fits
  have hvalue : (BitVec.ofNat 32 k).toInt = k := by
    have hnat : (BitVec.ofNat 32 k).toNat = k := by
      rw [BitVec.toNat_ofNat, Nat.mod_eq_of_lt (by omega)]
    rw [BitVec.toInt_eq_toNat_of_lt (by omega), hnat]
  unfold conCell
  dsimp only
  rw [hvalue, if_pos ⟨by omega, by exact_mod_cast hk⟩, wp_pure]
  rfl

theorem wp_conLoad {Q : BitVec 16 → Console → Prop} (hk : k < z.width * z.height) :
    wp (conLoad z k) E Q s ↔ Q (s.data k) s := by
  rw [conLoad, wp_bind, wp_conCell hk, wp_bind, wp_get, wp_pure]

theorem wp_conStore {Q : Unit → Console → Prop} (x : BitVec 16) (hk : k < z.width * z.height) :
    wp (conStore z k x) E Q s ↔ Q () { s with data := Function.update s.data k x } := by
  rw [conStore, wp_bind, wp_conCell hk, wp_modify]

theorem wp_memsetw {Q : Unit → Console → Prop} {v : BitVec 16} {len : Nat} (h : k + len ≤ z.width * z.height)
    (hQ : Q () { s with data := fun x => if k ≤ x ∧ x < k + len then v else s.data x }) :
    wp (memsetw z k v len) E Q s := by
  refine wp_forUp (fun i t => t = { s with data := fun x => if k ≤ x ∧ x < k + i then v else s.data x }) _ ?_ ?_ ?_
  · have hnone : (fun x => if k ≤ x ∧ x < k + 0 then v else s.data x) = s.data := funext fun x => if_neg (by omega)
    rw [hnone]
  · rintro i _ - hi rfl
    rw [wp_conStore v (by omega)]
    refine congrArg (fun d => (⟨d, s.cury, s.curx⟩ : Console)) (funext fun x => ?_)
    by_cases hx : x = k + i
    · rw [hx, Function.update_self, if_pos (by omega)]
    · rw [Function.update_of_ne hx]
      dsimp only
      by_cases hin : k ≤ x ∧ x < k + i
      · rw [if_pos hin, if_pos (by omega)]
      · rw [if_neg hin, if_neg (by omega)]
  · rintro _ rfl
    rwa [Nat.zero_add]

def scrolled (z : ConSize) (d : Nat → BitVec 16) : Nat → BitVec 16 := fun x =>
  if x < (z.height - 1) * z.width then d (x + z.width) else if x < z.width * z.height then 0x0700 else d x

def moved (z : ConSize) (d : Nat → BitVec 16) (n : Nat) : Nat → BitVec 16 :=
  fun x => if x < n then d (x + z.width) else d x

theorem moved_update (d : Nat → BitVec 16) (n : Nat) :
    Function.update (moved z d n) n (moved z d n (n + z.width)) = moved z d (n + 1) := by
  funext x
  have hsource : moved z d n (n + z.width) = d (n + z.width) := if_neg (by omega)
  rw [hsource]
  unfold moved
  by_cases hx : x = n
  · rw [hx, Function.update_self, if_pos (by omega)]
  · rw [Function.update_of_ne hx]
    by_cases hlt : x < n
    · rw [if_pos hlt, if_pos (by omega)]
    · rw [if_neg hlt, if_neg (by omega)]

theorem wp_moveRow {Q : Unit → Console → Prop} {d : Nat → BitVec 16} (hi : i + 1 < z.height)
    (hQ : Q () { s with data := moved z d ((i + 1) * z.width) }) :
    wp (forUp 0 z.width fun j => do
      conStore z (i * z.width + j) (← conLoad z ((i + 1) * z.width + j))) E Q
      { s with data := moved z d (i * z.width) } := by
  refine wp_forUp (fun j t => t = { s with data := moved z d (i * z.width + j) }) _ rfl ?_ ?_
  · rintro j _ - hj rfl
    have hj' : j < z.width := by omega
    have hnext : (i + 1) * z.width + j = i * z.width + j + z.width := by
      rw [Nat.succ_mul]
      omega
    rw [wp_bind, wp_conLoad (cell_lt hi hj'), wp_conStore _ (cell_lt (by omega) hj')]
    dsimp only
    rw [hnext, moved_update]
    rfl
  · rintro _ rfl
    rw [Nat.zero_add, ← Nat.succ_mul]
    exact hQ

theorem wp_x86ConScroll {Q : Unit → Console → Prop} (hQ : Q () { s with data := scrolled z s.data }) :
    wp (x86ConScroll z) E Q s := by
  have hhigh := z.high.1
  have hcells : (z.height - 1) * z.width + z.width = z.width * z.height := by
    rw [← Nat.succ_mul, Nat.succ_eq_add_one, Nat.sub_add_cancel (by omega), Nat.mul_comm]
  have hlast : z.height * z.width - z.width = (z.height - 1) * z.width := by
    rw [Nat.mul_comm z.height]
    omega
  rw [x86ConScroll, wp_bind]
  refine wp_forUp (fun i t => t = { s with data := moved z s.data (i * z.width) }) _ ?_ ?_ ?_
  · have hnone : moved z s.data (0 * z.width) = s.data := funext fun x => if_neg (by omega)
    rw [hnone]
  · rintro i _ - hi rfl
    exact wp_moveRow (by omega) rfl
  · rintro _ rfl
    rw [hlast, Nat.zero_add]
    refine wp_memsetw hcells.le ?_
    have hall : (fun x => if (z.height - 1) * z.width ≤ x ∧ x < (z.height - 1) * z.width + z.width then 0x0700
        else moved z s.data ((z.height - 1) * z.width) x) = scrolled z s.data := by
      funext x
      unfold moved scrolled
      rw [hcells]
      by_cases hx : x < (z.height - 1) * z.width
      · rw [if_neg (by omega), if_pos hx, if_pos hx]
      · rw [if_neg hx, if_neg hx]
        by_cases hin : x < z.width * z.height
        · rw [if_pos ⟨by omega, hin⟩, if_pos hin]
        · rw [if_neg (by omega), if_neg hin]
    dsimp only
    rw [hall]
    exact hQ

end Cells

section Rows

variable {above : List (List (BitVec 8))} {row : List (BitVec 8)} {i j : Nat}

theorem rowCell_append (row : List (BitVec 8)) (c : BitVec 8) (j : Nat) :
    rowCell (row ++ [c]) j = if j = row.length then 0x0700 ||| c.setWidth 16 else rowCell row j := by
  unfold rowCell
  by_cases hj : j = row.length
  · rw [hj, List.getElem?_append_right le_rfl, Nat.sub_self, if_pos rfl]
    rfl
  · rw [if_neg hj]
    by_cases hlt : j < row.length
    · rw [List.getElem?_append_left hlt]
    · rw [List.getElem?_eq_none (by rw [List.length_append, List.length_singleton]; omega),
        List.getElem?_eq_none (by omega)]

theorem rowCell_dropLast (hrow : row ≠ []) (j : Nat) :
    rowCell row.dropLast j = if j = row.length - 1 then 0x0700 else rowCell row j := by
  have hlen := List.length_pos_iff.mpr hrow
  unfold rowCell
  by_cases hj : j = row.length - 1
  · rw [if_pos hj, List.getElem?_eq_none (by rw [List.length_dropLast]; omega)]
    rfl
  · rw [if_neg hj]
    by_cases hlt : j < row.length - 1
    · rw [List.getElem?_dropLast, if_pos hlt]
    · rw [List.getElem?_eq_none (by rw [List.length_dropLast]; omega), List.getElem?_eq_none (by omega)]

theorem cellOf_concat (above : List (List (BitVec 8))) (row : List (BitVec 8)) (i j : Nat) :
    cellOf (above ++ [row]) i j = if i = above.length then rowCell row j else cellOf above i j := by
  unfold cellOf
  by_cases hi : i = above.length
  · rw [if_pos hi, hi, List.getD_append_right _ _ _ _ le_rfl, Nat.sub_self]
    rfl
  · rw [if_neg hi]
    by_cases hlt : i < above.length
    · rw [List.getD_append _ _ _ _ hlt]
    · rw [List.getD_eq_default _ _ (by rw [List.length_append, List.length_singleton]; omega),
        List.getD_eq_default _ _ (by omega)]

theorem cellOf_blank (above : List (List (BitVec 8))) (i j : Nat) : cellOf (above ++ [[]]) i j = cellOf above i j := by
  rw [cellOf_concat]
  by_cases hi : i = above.length
  · rw [if_pos hi, hi, cellOf, List.getD_eq_default _ _ le_rfl]
  · rw [if_neg hi]

theorem cellOf_drop (above : List (List (BitVec 8))) (n i j : Nat) :
    cellOf (above.drop n) i j = cellOf above (i + n) j := by
  unfold cellOf
  rw [List.getD_eq_getElem?_getD, List.getD_eq_getElem?_getD, List.getElem?_drop, Nat.add_comm]

end Rows

section Steps

variable {z : ConSize} {above : List (List (BitVec 8))} {row : List (BitVec 8)} {s : Console} {E : Fault → Prop}
  {Q : Unit → Console → Prop}

/-- The screen shows some rows and below them the current one, and has room for it. -/
structure Displays (z : ConSize) (above : List (List (BitVec 8))) (row : List (BitVec 8)) (s : Console) : Prop where
  cury : s.cury = above.length
  curx : s.curx = row.length
  few : above.length + 2 ≤ z.height
  short : row.length + 1 ≤ z.width
  cells : ∀ i < z.height, ∀ j < z.width, s.data (i * z.width + j) = cellOf (above ++ [row]) i j

/-- The rows above a new one: the top row goes when there are too many. -/
def rowsAbove (z : ConSize) (above : List (List (BitVec 8))) : List (List (BitVec 8)) :=
  above.drop (above.length - (z.height - 2))

theorem wp_nextRow (h : Displays z above row s)
    (hQ : ∀ t, Displays z (rowsAbove z (above ++ [row])) [] t → Q () t) :
    wp (conKeepBottom z) E Q { s with curx := 0, cury := (s.cury + 1) % 65536 } := by
  have hfew := h.few
  have hhigh := z.high
  have hwide := z.wide
  have hlen : (above ++ [row]).length = above.length + 1 := List.length_append
  have hcury : (s.cury + 1) % 65536 = above.length + 1 := by
    rw [h.cury]
    omega
  rw [conKeepBottom, wp_bind, wp_get]
  dsimp only
  rw [hcury]
  by_cases hlast : above.length + 1 = z.height - 1
  · have hdrop : rowsAbove z (above ++ [row]) = (above ++ [row]).drop 1 := by
      unfold rowsAbove
      rw [hlen]
      exact congrArg (List.drop · _) (by omega)
    rw [if_pos hlast, wp_bind, wp_modify]
    refine wp_x86ConScroll (hQ _ ⟨?_, rfl, ?_, ?_, fun i hi j hj => ?_⟩)
    · rw [hdrop, List.length_drop, hlen]
      dsimp only
      omega
    · rw [hdrop, List.length_drop, hlen]
      omega
    · exact le_trans (by decide) hwide.1
    · rw [hdrop, cellOf_blank, cellOf_drop]
      have hcell := cell_lt hi hj
      dsimp only [scrolled]
      by_cases hbottom : i + 1 < z.height
      · have hmove : i * z.width + j < (z.height - 1) * z.width := by
          have hle := Nat.mul_le_mul_right z.width (show i + 1 ≤ z.height - 1 by omega)
          rw [Nat.succ_mul] at hle
          omega
        have hbelow : i * z.width + j + z.width = (i + 1) * z.width + j := by
          rw [Nat.succ_mul]
          omega
        rw [if_pos hmove, hbelow]
        exact h.cells (i + 1) hbottom j hj
      · have hstay : ¬i * z.width + j < (z.height - 1) * z.width := by
          rw [show z.height - 1 = i by omega]
          omega
        rw [if_neg hstay, if_pos hcell, cellOf, List.getD_eq_default _ _ (by omega)]
        rfl
  · have hall : rowsAbove z (above ++ [row]) = above ++ [row] := by
      unfold rowsAbove
      rw [hlen, show above.length + 1 - (z.height - 2) = 0 by omega, List.drop_zero]
    rw [if_neg hlast, wp_pure]
    refine hQ _ ⟨?_, rfl, ?_, ?_, fun i hi j hj => ?_⟩
    · rw [hall, hlen]
    · rw [hall, hlen]
      omega
    · exact le_trans (by decide) hwide.1
    · rw [hall, cellOf_blank]
      exact h.cells i hi j hj

theorem wp_stayAbove (h : Displays z above row s) : wp (conKeepBottom z) E Q s ↔ Q () s := by
  have hfew := h.few
  have hcury := h.cury
  rw [conKeepBottom, wp_bind, wp_get, if_neg (by omega), wp_pure]

theorem setWidth_ascii {c : BitVec 8} (hc : c.toNat < 128) : c.signExtend 16 = c.setWidth 16 := by
  refine BitVec.eq_of_toInt_eq ?_
  have hlow : (c.setWidth 16).toNat = c.toNat := by
    rw [BitVec.toNat_setWidth, Nat.mod_eq_of_lt (by omega)]
  rw [BitVec.toInt_signExtend_of_le (by decide), BitVec.toInt_eq_toNat_of_lt (by omega),
    BitVec.toInt_eq_toNat_of_lt (by omega), hlow]

theorem wp_storeChar {c : BitVec 8} (hc : c.toNat < 128) (h : Displays z above row s)
    (hroom : row.length + 2 ≤ z.width) (hQ : ∀ t, Displays z above (row ++ [c]) t → Q () t) :
    wp (do
      conStore z ((← get).cury * z.width + (← get).curx) (0x0700 ||| c.signExtend 16)
      modify fun s => { s with curx := (s.curx + 1) % 65536 }) E Q s := by
  have hfew := h.few
  have hwide := z.wide
  rw [wp_bind, wp_get, wp_bind, wp_get, h.cury, h.curx, wp_bind, wp_conStore _ (cell_lt (by omega) (by omega)),
    wp_modify, setWidth_ascii hc]
  refine hQ _ ⟨h.cury, ?_, hfew, ?_, fun i hi j hj => ?_⟩
  · rw [List.length_append, List.length_singleton]
    dsimp only
    rw [h.curx]
    omega
  · rw [List.length_append, List.length_singleton]
    omega
  · dsimp only
    rw [cellOf_concat, rowCell_append]
    by_cases hat : i = above.length ∧ j = row.length
    · rw [hat.1, hat.2, Function.update_self, if_pos rfl, if_pos rfl]
    · rw [Function.update_of_ne fun heq => hat ((cell_inj hj (by omega)).mp heq), h.cells i hi j hj, cellOf_concat]
      by_cases hrow : i = above.length
      · rw [if_pos hrow, if_pos hrow, if_neg fun hcol => hat ⟨hrow, hcol⟩]
      · rw [if_neg hrow, if_neg hrow]

theorem wp_backspace (h : Displays z above row s) (hrow : row ≠ [])
    (hQ : ∀ t, Displays z above row.dropLast t → Q () t) :
    wp (do
      modify fun s => { s with curx := s.curx - 1 }
      conStore z ((← get).cury * z.width + (← get).curx) 0x0700) E Q s := by
  have hfew := h.few
  have hshort := h.short
  have hlen := List.length_pos_iff.mpr hrow
  rw [wp_bind, wp_modify, wp_bind, wp_get, wp_bind, wp_get]
  dsimp only
  rw [h.cury, h.curx, wp_conStore _ (cell_lt (by omega) (by omega))]
  refine hQ _ ⟨rfl, ?_, hfew, ?_, fun i hi j hj => ?_⟩
  · rw [List.length_dropLast]
  · rw [List.length_dropLast]
    omega
  · dsimp only
    rw [cellOf_concat, rowCell_dropLast hrow]
    by_cases hat : i = above.length ∧ j = row.length - 1
    · rw [hat.1, hat.2, Function.update_self, if_pos rfl, if_pos rfl]
    · rw [Function.update_of_ne fun heq => hat ((cell_inj hj (by omega)).mp heq), h.cells i hi j hj, cellOf_concat]
      by_cases hin : i = above.length
      · rw [if_pos hin, if_pos hin, if_neg fun hcol => hat ⟨hin, hcol⟩]
      · rw [if_neg hin, if_neg hin]

theorem rowsAbove_concat (ended : List (List (BitVec 8))) (row : List (BitVec 8)) :
    rowsAbove z (rowsAbove z ended ++ [row]) = rowsAbove z (ended ++ [row]) := by
  unfold rowsAbove
  rw [← List.drop_append_of_le_length (Nat.sub_le _ _), List.drop_drop]
  refine congrArg (List.drop · _) ?_
  simp only [List.length_drop, List.length_append, List.length_singleton]
  omega

/-- The screen shows the end of a text. -/
def OnScreen (z : ConSize) (l : Layout) : Console → Prop := Displays z (rowsAbove z l.ended) l.row

theorem wp_newRow {l : Layout} (h : OnScreen z l s) (hQ : ∀ t, OnScreen z ⟨l.ended ++ [l.row], []⟩ t → Q () t) :
    wp (conKeepBottom z) E Q { s with curx := 0, cury := (s.cury + 1) % 65536 } := by
  refine wp_nextRow h fun t ht => hQ t ?_
  rwa [rowsAbove_concat] at ht

theorem wp_conPutPrintable {l : Layout} {c : BitVec 8} (hc : c.toNat < 128) (h : OnScreen z l s)
    (hQ : ∀ t, OnScreen z (l.append z.width c) t → Q () t) : wp (conPutPrintable z c) E Q s := by
  have hwide := z.wide.1
  have hshort := h.short
  unfold Layout.append at hQ
  unfold conPutPrintable
  rw [wp_bind, wp_get, h.curx]
  by_cases hfull : l.row.length = z.width - 1
  · rw [if_pos hfull] at hQ ⊢
    rw [conNextRow, wp_bind, wp_modify, wp_bind]
    exact wp_newRow h fun t ht => wp_storeChar hc ht hwide hQ
  · rw [if_neg hfull] at hQ ⊢
    rw [wp_bind, wp_stayAbove h]
    exact wp_storeChar hc h (by omega) hQ

theorem toInt_of_ascii {c : BitVec 8} (hc : c.toNat < 128) : c.toInt = c.toNat :=
  BitVec.toInt_eq_toNat_of_lt (by omega)

theorem toInt_of_not_ascii {c : BitVec 8} (hc : ¬c.toNat < 128) : c.toInt < 0 := by
  have hlt := c.isLt
  rw [BitVec.toInt_eq_toNat_cond, if_neg (by omega)]
  omega

theorem le_toInt {c : BitVec 8} : (ascii ' ').toInt ≤ c.toInt ↔ 0x20 ≤ c.toNat ∧ c.toNat ≤ 0x7F := by
  have hspace : (ascii ' ').toInt = 32 := rfl
  rw [hspace]
  by_cases hc : c.toNat < 128
  · rw [toInt_of_ascii hc]
    omega
  · have hneg := toInt_of_not_ascii hc
    omega

theorem wp_x86ConPutc {l : Layout} (c : BitVec 8) (h : OnScreen z l s)
    (hQ : ∀ t, OnScreen z (l.put z.width c) t → Q () t) : wp (x86ConPutc z c) E Q s := by
  unfold Layout.put at hQ
  unfold x86ConPutc
  by_cases hprint : 0x20 ≤ c.toNat ∧ c.toNat ≤ 0x7F
  · rw [if_pos hprint] at hQ
    rw [if_pos (le_toInt.mpr hprint)]
    exact wp_conPutPrintable (by omega) h hQ
  rw [if_neg hprint] at hQ
  rw [if_neg (fun hle => hprint (le_toInt.mp hle))]
  by_cases hline : c = ascii '\n'
  · rw [if_pos hline] at hQ
    rw [if_pos hline, conNextRow, wp_bind, wp_modify]
    exact wp_newRow h hQ
  rw [if_neg hline] at hQ
  rw [if_neg hline]
  by_cases hback : c = ascii '\x08'
  · rw [if_pos hback] at hQ
    rw [if_pos hback, wp_bind, wp_get, h.curx]
    by_cases hrow : l.row = []
    · have hsame : (⟨l.ended, l.row.dropLast⟩ : Layout) = l := by
        rw [hrow]
        exact congrArg (Layout.mk l.ended) hrow.symm
      rw [hsame] at hQ
      rw [hrow, List.length_nil, if_neg (fun hne => hne rfl), wp_pure]
      exact hQ s h
    · rw [if_pos (List.length_pos_iff.mpr hrow).ne']
      exact wp_backspace h hrow hQ
  · rw [if_neg hback] at hQ
    rw [if_neg hback]
    exact wp_conPutPrintable (by decide) h hQ

theorem wp_conPutAll (text : List (BitVec 8)) {l : Layout} (h : OnScreen z l s)
    (hQ : ∀ t, OnScreen z (text.foldl (Layout.put z.width) l) t → Q () t) : wp (conPutAll z text) E Q s := by
  induction text generalizing l s with
  | nil => exact hQ s h
  | cons c cs ih =>
    rw [conPutAll, wp_bind]
    exact wp_x86ConPutc c h fun t ht => ih ht hQ

end Steps

section Screen

variable {z : ConSize} {s : Console}

theorem shown_eq (l : Layout) : l.shown z.height = rowsAbove z l.ended ++ [l.row] := by
  have hhigh := z.high.1
  unfold Layout.shown Layout.rows rowsAbove
  rw [List.length_append, List.length_singleton,
    show l.ended.length + 1 - (z.height - 1) = l.ended.length - (z.height - 2) by omega]
  exact List.drop_append_of_le_length (Nat.sub_le _ _)

theorem OnScreen.shows {l : Layout} (h : OnScreen z l s) : Shows z l s where
  cury := by
    rw [shown_eq, List.length_append, List.length_singleton, h.cury]
    rfl
  curx := h.curx
  cells := by
    rw [shown_eq]
    exact h.cells

structure Cleared (z : ConSize) (s : Console) : Prop where
  cury : s.cury = 0
  curx : s.curx = 0
  blank : ∀ k < z.width * z.height, s.data k = 0x0700

theorem wp_x86ConInit {E : Fault → Prop} (hcury : s.cury = 0) (hcurx : s.curx = 0) :
    wp (x86ConInit z) E (fun _ t => Cleared z t) s :=
  wp_memsetw (Nat.zero_add _).le ⟨hcury, hcurx, fun _ hk => if_pos ⟨Nat.zero_le _, (Nat.zero_add _).symm ▸ hk⟩⟩

theorem Cleared.onScreen (h : Cleared z s) : OnScreen z ⟨[], []⟩ s := by
  have hnone : rowsAbove z [] = [] := List.drop_nil
  unfold OnScreen
  rw [hnone]
  refine ⟨h.cury, h.curx, z.high.1, le_trans (by decide) z.wide.1, fun i hi j hj => ?_⟩
  rw [h.blank _ (cell_lt hi hj), cellOf_blank]
  rfl

/-- From a cleared screen no call leaves the buffer, and the screen shows the last rows of the text
above a blank row. -/
theorem con_shows_last_rows (text : List (BitVec 8)) (h : Cleared z s) :
    wp (conPutAll z text) noFault (fun _ t => Shows z (layOut z.width text) t ∧ t.curx ≤ z.width - 1 ∧
      t.cury ≤ z.height - 2 ∧ ∀ j < z.width, t.data ((z.height - 1) * z.width + j) = 0x0700) s := by
  have hhigh := z.high.1
  refine wp_conPutAll text h.onScreen fun t ht => ⟨OnScreen.shows ht, ?_, ?_, fun j hj => ?_⟩
  · have hcurx := ht.curx
    have hshort := ht.short
    omega
  · have hcury := ht.cury
    have hfew := ht.few
    omega
  · have hfew := ht.few
    rw [ht.cells _ (by omega) j hj, cellOf_concat, if_neg (by omega), cellOf, List.getD_eq_default _ _ (by omega)]
    rfl

def smallScreen : ConSize := ⟨3, 3, by decide, by decide, by decide⟩

theorem con_shows_last_rows_small :
    ∃ t, conPutAll smallScreen [0x41, 0x42, 0x43, 0x0A, 0x44, 0x08, 0x45, 0x80] ⟨fun _ => 0x0700, 0, 0⟩ = .ok ((), t) ∧
      Shows smallScreen ⟨[[0x41, 0x42], [0x43]], [0x45, 0x3F]⟩ t := by
  have hcleared : Cleared smallScreen ⟨fun _ => 0x0700, 0, 0⟩ := ⟨rfl, rfl, fun _ _ => rfl⟩
  have hlayout : layOut smallScreen.width [0x41, 0x42, 0x43, 0x0A, 0x44, 0x08, 0x45, 0x80] =
      ⟨[[0x41, 0x42], [0x43]], [0x45, 0x3F]⟩ := by
    decide
  obtain ⟨_, t, hrun, hshow, -⟩ :=
    run_of_wp (con_shows_last_rows [0x41, 0x42, 0x43, 0x0A, 0x44, 0x08, 0x45, 0x80] hcleared)
  rw [hlayout] at hshow
  exact ⟨t, hrun, hshow⟩

end Screen

end YggKernel.Hw
