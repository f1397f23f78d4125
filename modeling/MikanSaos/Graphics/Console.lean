import Mathlib.Data.List.Basic
import Mathlib.Logic.Function.Basic

/-!
# Console — the text of the kernel's log

`_buffer` keeps the last lines that have been put out.  `χ` stands for the characters other than the NUL, and `nl` for
the one that ends a line.
-/

namespace MikanSaos

/-- A cell of `_buffer` that holds the NUL is `none`. -/
structure Console (χ : Type) where
  buffer : Nat → Nat → Option χ
  cursorRow : Nat
  cursorColumn : Nat

namespace Console

def kRows : Nat := 25
def kColumns : Nat := 80

variable {χ : Type} [DecidableEq χ] {nl c : χ} {con : Console χ} {text : List χ} {init : List (List χ)} {last : List χ}

/-- The constructor. -/
def new : Console χ := ⟨fun _ _ => none, 0, 0⟩

/-- `memcpy(_buffer[row], _buffer[row+1], kColumns + 1)` -/
def copyUp (buffer : Nat → Nat → Option χ) (row : Nat) : Nat → Nat → Option χ :=
  Function.update buffer row (buffer (row + 1))

/-- The buffer after the last line has been ended. -/
def scroll (buffer : Nat → Nat → Option χ) : Nat → Nat → Option χ :=
  Function.update ((List.range (kRows - 1)).foldl copyUp buffer) (kRows - 1) fun _ => none

def newLine (con : Console χ) : Console χ :=
  if con.cursorRow < kRows - 1 then { con with cursorColumn := 0, cursorRow := con.cursorRow + 1 }
  else { con with cursorColumn := 0, buffer := scroll con.buffer }

/-- What is done for one character of the string. -/
def put (nl : χ) (con : Console χ) (c : χ) : Console χ :=
  if c = nl then con.newLine
  else if con.cursorColumn < kColumns - 1 then
    { con with
      buffer := Function.update con.buffer con.cursorRow
        (Function.update (con.buffer con.cursorRow) con.cursorColumn (some c))
      cursorColumn := con.cursorColumn + 1 }
  else con

def putString (nl : χ) (con : Console χ) (s : List χ) : Console χ := s.foldl (put nl) con

/-! ## Lines -/

/-- What the console shows of a text: its last lines, each from the left. -/
def shown (nl : χ) (text : List χ) : List (List χ) :=
  let lines := (text.splitOn nl).map (·.take (kColumns - 1))
  lines.drop (lines.length - kRows)

theorem exists_last_line (nl : χ) (text : List χ) : ∃ init last, text.splitOn nl = init ++ [last] :=
  ⟨_, _, (List.dropLast_append_getLast (List.splitOn_ne_nil nl text)).symm⟩

theorem splitOn_snoc_newline (nl : χ) (text : List χ) : (text ++ [nl]).splitOn nl = text.splitOn nl ++ [[]] := by
  rw [List.splitOn_append_cons_self, List.splitOn_nil]

theorem snoc_inj {α : Type} {l l' : List α} {a a' : α} (h : l ++ [a] = l' ++ [a']) : l = l' ∧ a = a' := by
  obtain ⟨hl, ha⟩ := List.append_inj' h rfl
  exact ⟨hl, List.singleton_inj.mp ha⟩

/-- A character that does not end the line makes it longer. -/
theorem splitOn_snoc (hc : c ≠ nl) (h : text.splitOn nl = init ++ [last]) :
    (text ++ [c]).splitOn nl = init ++ [last ++ [c]] := by
  induction text generalizing init last with
  | nil =>
    rw [List.splitOn_nil] at h
    obtain ⟨rfl, rfl⟩ := snoc_inj (show [] ++ [[]] = init ++ [last] from h)
    exact List.splitOn_eq_singleton (by simpa using Ne.symm hc)
  | cons x text ih =>
    obtain ⟨init', last', hsplit⟩ := exists_last_line nl text
    have hnext := ih hsplit
    rw [List.splitOn_cons_eq_if_modifyHead, hsplit] at h
    rw [List.cons_append, List.splitOn_cons_eq_if_modifyHead, hnext]
    by_cases hx : x = nl
    · rw [if_pos (by simpa using hx)] at h ⊢
      rw [← List.cons_append] at h
      obtain ⟨rfl, rfl⟩ := snoc_inj h
      rfl
    · rw [if_neg (by simpa using hx)] at h ⊢
      cases init' with
      | nil =>
        obtain ⟨rfl, rfl⟩ := snoc_inj (show [] ++ [x :: last'] = init ++ [last] from h)
        rfl
      | cons first init' =>
        obtain ⟨rfl, rfl⟩ := snoc_inj (show ((x :: first) :: init') ++ [last'] = init ++ [last] from h)
        rfl

/-! ## What a character does -/

/-- The text that has been put out is on the console. -/
structure Shows (nl : χ) (con : Console χ) (text : List χ) : Prop where
  cells : ∀ row < kRows, ∀ column, con.buffer row column = ((shown nl text).getD row [])[column]?
  cursorRow : con.cursorRow + 1 = (shown nl text).length
  cursorColumn : con.cursorColumn = ((shown nl text).getD con.cursorRow []).length

theorem new_shows (nl : χ) : Shows nl new [] where
  cells := by
    intro row _ column
    have hshown : (shown nl []).getD row [] = [] := by
      cases row <;> rfl
    rw [hshown]
    rfl
  cursorRow := rfl
  cursorColumn := rfl

omit [DecidableEq χ] in
theorem foldl_copyUp (buffer : Nat → Nat → Option χ) (n row : Nat) :
    (List.range n).foldl copyUp buffer row = if row < n then buffer (row + 1) else buffer row := by
  induction n generalizing row with
  | zero => rfl
  | succ n ih =>
    rw [List.range_succ, List.foldl_append, List.foldl_cons, List.foldl_nil, copyUp, Function.update_apply, ih, ih]
    by_cases hrow : row = n
    · rw [if_pos hrow, hrow, if_neg (by omega), if_pos (by omega)]
    · rw [if_neg hrow]
      by_cases hlt : row < n
      · rw [if_pos hlt, if_pos (by omega)]
      · rw [if_neg hlt, if_neg (by omega)]

omit [DecidableEq χ] in
theorem scroll_apply (buffer : Nat → Nat → Option χ) {row : Nat} (hrow : row < kRows) (column : Nat) :
    scroll buffer row column = if row < kRows - 1 then buffer (row + 1) column else none := by
  unfold scroll
  rw [Function.update_apply, foldl_copyUp]
  by_cases hlast : row = kRows - 1
  · rw [if_pos hlast, if_neg (by omega)]
  · rw [if_neg hlast, if_pos (by omega), if_pos (by omega)]

theorem shown_length (nl : χ) (text : List χ) : (shown nl text).length = min (text.splitOn nl).length kRows := by
  simp only [shown, List.length_drop, List.length_map]
  omega

/-- A row shows the left of a line. -/
theorem shown_getD (nl : χ) (text : List χ) (row : Nat) :
    (shown nl text).getD row [] =
      ((text.splitOn nl).getD (row + ((text.splitOn nl).length - kRows)) []).take (kColumns - 1) := by
  simp only [shown, List.getD_eq_getElem?_getD, List.getElem?_drop, List.getElem?_map, List.length_map]
  rw [Nat.add_comm]
  cases (text.splitOn nl)[row + ((text.splitOn nl).length - kRows)]? with
  | none => rfl
  | some line => rfl

omit [DecidableEq χ] in
theorem getD_snoc_nil (lines : List (List χ)) (i : Nat) : (lines ++ [[]]).getD i [] = lines.getD i [] := by
  rw [List.getD_eq_getElem?_getD, List.getD_eq_getElem?_getD, List.getElem?_append]
  by_cases hi : i < lines.length
  · rw [if_pos hi]
  · rw [if_neg hi, List.getElem?_eq_none (Nat.le_of_not_lt hi)]
    cases i - lines.length <;> rfl

omit [DecidableEq χ] in
theorem getD_snoc (lines : List (List χ)) (line : List χ) (i : Nat) :
    (lines ++ [line]).getD i [] = if i = lines.length then line else lines.getD i [] := by
  rw [List.getD_eq_getElem?_getD, List.getD_eq_getElem?_getD, List.getElem?_append]
  by_cases hi : i < lines.length
  · rw [if_pos hi, if_neg (Nat.ne_of_lt hi)]
  · rw [if_neg hi, List.getElem?_eq_none (Nat.le_of_not_lt hi)]
    by_cases heq : i = lines.length
    · rw [if_pos heq, heq, Nat.sub_self]
      rfl
    · rw [if_neg heq]
      have hbeyond : [line][i - lines.length]? = none := List.getElem?_eq_none (by simp; omega)
      rw [hbeyond]

theorem Shows.newLine (h : Shows nl con text) : Shows nl con.newLine (text ++ [nl]) := by
  have hrow := h.cursorRow
  rw [shown_length] at hrow
  have hlength : ((text ++ [nl]).splitOn nl).length = (text.splitOn nl).length + 1 := by
    rw [splitOn_snoc_newline]
    exact List.length_append
  have hcells : ∀ row < kRows, ∀ column, con.buffer row column =
      (((text.splitOn nl).getD (row + ((text.splitOn nl).length - kRows)) []).take (kColumns - 1))[column]? := by
    intro row hrow column
    rw [h.cells row hrow, shown_getD]
  have hblank : ∀ i, (text.splitOn nl).length ≤ i → (text.splitOn nl).getD i [] = [] := by
    intro i hi
    rw [List.getD_eq_getElem?_getD, List.getElem?_eq_none hi]
    rfl
  unfold Console.newLine
  by_cases hroom : con.cursorRow < kRows - 1
  · -- the lines stay where they are
    rw [if_pos hroom]
    refine ⟨fun row hlt column => ?_, ?_, ?_⟩
    · rw [shown_getD, splitOn_snoc_newline, getD_snoc_nil, ← splitOn_snoc_newline, hlength]
      rw [hcells row hlt column, show (text.splitOn nl).length + 1 - kRows = (text.splitOn nl).length - kRows by omega]
    · rw [shown_length, hlength]
      show con.cursorRow + 1 + 1 = _
      omega
    · rw [shown_getD, splitOn_snoc_newline, getD_snoc_nil, hblank _ (by dsimp only; omega)]
      rfl
  · -- they go up by one
    rw [if_neg hroom]
    refine ⟨fun row hlt column => ?_, ?_, ?_⟩
    · rw [shown_getD, splitOn_snoc_newline, getD_snoc_nil, ← splitOn_snoc_newline, hlength]
      show scroll con.buffer row column = _
      rw [scroll_apply _ hlt]
      by_cases hlast : row < kRows - 1
      · rw [if_pos hlast, hcells _ (by omega)]
        rw [show row + 1 + ((text.splitOn nl).length - kRows) = row + ((text.splitOn nl).length + 1 - kRows) by omega]
      · rw [if_neg hlast, hblank _ (by omega)]
        rfl
    · rw [shown_length, hlength]
      show con.cursorRow + 1 = _
      omega
    · rw [shown_getD, splitOn_snoc_newline, getD_snoc_nil, ← splitOn_snoc_newline, hlength,
        hblank _ (by dsimp only; omega)]
      rfl

/-- A character at the end of the last line. -/
theorem Shows.putChar (h : Shows nl con text) (hc : c ≠ nl) : Shows nl (con.put nl c) (text ++ [c]) := by
  obtain ⟨init, last, hsplit⟩ := exists_last_line nl text
  have hnext := splitOn_snoc hc hsplit
  have hrow := h.cursorRow
  rw [shown_length, hsplit, List.length_append, List.length_singleton] at hrow
  have hfirst : con.cursorRow + (init.length + 1 - kRows) = init.length := by
    have hpos : 0 < kRows := by decide
    omega
  have hcells : ∀ row < kRows, ∀ column, con.buffer row column =
      (((init ++ [last]).getD (row + (init.length + 1 - kRows)) []).take (kColumns - 1))[column]? := by
    intro row hrow column
    rw [h.cells row hrow, shown_getD, hsplit, List.length_append, List.length_singleton]
  have hcolumn : con.cursorColumn = min (kColumns - 1) last.length := by
    rw [h.cursorColumn, shown_getD, hsplit, List.length_append, List.length_singleton, hfirst, getD_snoc, if_pos rfl,
      List.length_take]
  have hnextLine : ∀ row, (shown nl (text ++ [c])).getD row [] =
      (if row = con.cursorRow then last ++ [c] else (init ++ [last]).getD (row + (init.length + 1 - kRows)) []).take
        (kColumns - 1) := by
    intro row
    rw [shown_getD, hnext, List.length_append, List.length_singleton, getD_snoc, getD_snoc]
    by_cases heq : row = con.cursorRow
    · rw [if_pos heq, heq, if_pos hfirst]
    · rw [if_neg heq, if_neg (by omega), if_neg (by omega)]
  have hcurrent : (init ++ [last]).getD (con.cursorRow + (init.length + 1 - kRows)) [] = last := by
    rw [hfirst, getD_snoc, if_pos rfl]
  have hlength : (shown nl (text ++ [c])).length = con.cursorRow + 1 := by
    rw [shown_length, hnext, List.length_append, List.length_singleton, hrow]
  unfold put
  rw [if_neg hc]
  by_cases hroom : con.cursorColumn < kColumns - 1
  · rw [if_pos hroom]
    have htake : (last ++ [c]).take (kColumns - 1) = last ++ [c] :=
      List.take_of_length_le (by rw [List.length_append, List.length_singleton]; omega)
    refine ⟨fun row hlt column => ?_, hlength.symm, ?_⟩
    · rw [hnextLine]
      show Function.update con.buffer con.cursorRow _ row column = _
      by_cases heq : row = con.cursorRow
      · subst heq
        rw [Function.update_self, if_pos rfl, htake, Function.update_apply, hcells _ hlt, hcurrent,
          List.take_of_length_le (by omega)]
        by_cases hend : column = con.cursorColumn
        · rw [if_pos hend, hend, hcolumn, show min (kColumns - 1) last.length = last.length by omega]
          exact (List.getElem?_concat_length ..).symm
        · rw [if_neg hend, List.getElem?_append]
          by_cases hin : column < last.length
          · rw [if_pos hin]
          · rw [if_neg hin, List.getElem?_eq_none (by omega)]
            exact (List.getElem?_eq_none (by rw [List.length_singleton]; omega)).symm
      · rw [Function.update_of_ne heq, if_neg heq]
        exact hcells row hlt column
    · rw [hnextLine]
      show con.cursorColumn + 1 = (List.take _ (if con.cursorRow = con.cursorRow then _ else _)).length
      rw [if_pos rfl, htake, List.length_append, List.length_singleton]
      omega
  · -- the line is full
    rw [if_neg hroom]
    have htake : (last ++ [c]).take (kColumns - 1) = last.take (kColumns - 1) :=
      List.take_append_of_le_length (by omega)
    refine ⟨fun row hlt column => ?_, hlength.symm, ?_⟩
    · rw [hnextLine, hcells row hlt]
      by_cases heq : row = con.cursorRow
      · rw [if_pos heq, htake, heq, hcurrent]
      · rw [if_neg heq]
    · rw [hnextLine, if_pos rfl, htake, List.length_take]
      exact hcolumn

theorem Shows.put (h : Shows nl con text) (c : χ) : Shows nl (con.put nl c) (text ++ [c]) := by
  by_cases hc : c = nl
  · have hput : con.put nl c = con.newLine := if_pos hc
    rw [hput, hc]
    exact h.newLine
  · exact h.putChar hc

theorem Shows.putString (h : Shows nl con text) (s : List χ) : Shows nl (con.putString nl s) (text ++ s) := by
  induction s generalizing con text with
  | nil =>
    rw [List.append_nil]
    exact h
  | cons c s ih =>
    rw [List.append_cons]
    exact ih (h.put c)

theorem Shows.putStrings (h : Shows nl con text) (strings : List (List χ)) :
    Shows nl (strings.foldl (Console.putString nl) con) (text ++ strings.flatten) := by
  induction strings generalizing con text with
  | nil =>
    rw [List.flatten_nil, List.append_nil]
    exact h
  | cons s strings ih =>
    rw [List.flatten_cons, ← List.append_assoc]
    exact ih (h.putString s)

/-- **The console keeps the end of the log.**  After any strings it holds the last 25 lines of the whole text, each cut
behind 79 characters, and the cursor is behind the last one. -/
theorem putStrings_shows (nl : χ) (strings : List (List χ)) :
    Shows nl (strings.foldl (Console.putString nl) new) strings.flatten := (new_shows nl).putStrings strings

end Console

end MikanSaos
