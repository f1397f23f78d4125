import MikanSaos.Reasoning.Reach
import MikanSaos.Terminal.LineEditor

/-!
# CursorGrid — the cursor stays on the grid

Typing is limited by the column and by the room in the line, but a recalled line is written as a whole.  It
fits in the row as long as it has been typed in one row; text that another task prints meanwhile can move the
cursor back to the left.
-/

namespace MikanSaos

open Reasoning

structure CellRun.OnGrid (r : CellRun) : Prop where
  columns : 0 ≤ r.column ∧ r.column + r.width ≤ kColumns
  row : 0 ≤ r.row ∧ r.row < kRows

structure Screen.OnGrid (s : Screen) : Prop where
  column : 0 ≤ s.cursor.x ∧ s.cursor.x ≤ kColumns
  row : 0 ≤ s.cursor.y ∧ s.cursor.y < kRows
  cells : ∀ r ∈ s.cells, r.OnGrid

structure Terminal.OnGrid (t : Terminal) : Prop extends t.toScreen.OnGrid where
  index : 0 ≤ t.linebufIndex ∧ t.linebufIndex < kLineMax
  history : -1 ≤ t.cmdHistoryIndex ∧ t.cmdHistoryIndex < 8

/-- A call that moves the cursor; any task prints to the terminal. -/
inductive TerminalCall
  | print (c : BitVec 32)
  | inputKey (keycode ascii : UInt8) (executed : Executed)

namespace TerminalCall

def run (t : Terminal) : TerminalCall → Option Terminal
  | print c => some { t with toScreen := t.started.toScreen.print c }
  | inputKey keycode ascii executed => t.started.inputKey keycode ascii executed

/-- The keys with a character are the printing ones, backspace and enter. -/
def Valid : TerminalCall → Prop
  | print _ => True
  | inputKey _ ascii executed =>
    (Printable ascii ∨ ascii = 0x08 ∨ ascii = 0x0a ∨ ascii = 0) ∧ executed.linebuf.length = kLineMax

instance : DecidablePred Valid
  | print _ => inferInstanceAs (Decidable True)
  | inputKey .. => inferInstanceAs (Decidable (_ ∧ _))

def Step (t : Terminal) (call : TerminalCall) (t' : Terminal) : Prop := call.Valid ∧ call.run t = some t'

/-- If the key is an arrow, the line that it recalls has room behind the prompt. -/
def RecallFits (t : Terminal) : TerminalCall → Prop
  | print _ => True
  | inputKey keycode ascii _ => ∀ direction, Terminal.keyOf keycode ascii = .arrow direction →
    ((cString (t.history direction)).length : Int) < kColumns

end TerminalCall

/-! ## The screen -/

namespace Screen.OnGrid

variable {s : Screen} {c : BitVec 32}

theorem touch {width : Int} (h : s.OnGrid) (hwidth : s.cursor.x + width ≤ kColumns) : (s.touch width).OnGrid where
  column := h.column
  row := h.row
  cells := List.forall_mem_cons.mpr ⟨⟨⟨h.column.1, hwidth⟩, h.row⟩, h.cells⟩

/-- The cursor moves within its row. -/
theorem moved {x : Int} (h : s.OnGrid) (hx : 0 ≤ x ∧ x ≤ kColumns) :
    Screen.OnGrid { s with cursor := ⟨x, s.cursor.y⟩ } := ⟨hx, h.row, h.cells⟩

theorem newline (h : s.OnGrid) : s.newline.OnGrid ∧ s.newline.cursor.x = 0 := by
  have hrow := h.row
  have hfirst : (0 : Int) ≤ 0 ∧ (0 : Int) ≤ kColumns := by decide
  unfold Screen.newline
  split
  · have hnext : 0 ≤ s.cursor.y + 1 ∧ s.cursor.y + 1 < kRows := by omega
    exact ⟨⟨hfirst, hnext, h.cells⟩, rfl⟩
  · -- the cursor's row is the last one
    have hline : CellRun.OnGrid ⟨0, s.cursor.y, kColumns⟩ := ⟨by simp, hrow⟩
    exact ⟨⟨hfirst, hrow, List.forall_mem_cons.mpr ⟨hline, h.cells⟩⟩, rfl⟩

/-- A character drawn where there is room for it. -/
theorem draw {width : Int} (h : s.OnGrid) (hwidth : 0 ≤ width) (hroom : s.cursor.x + width ≤ kColumns) :
    Screen.OnGrid { s.touch width with cursor := ⟨s.cursor.x + width, s.cursor.y⟩ } := by
  have hcolumn := h.column
  exact (h.touch hroom).moved ⟨by omega, hroom⟩

theorem print (h : s.OnGrid) (c : BitVec 32) : (s.print c).OnGrid := by
  have hcolumn := h.column
  obtain ⟨hnew, hzero⟩ := h.newline
  have hcolumns : kColumns = 60 := rfl
  unfold Screen.print
  split
  · exact hnew
  dsimp only
  -- narrow or wide, in the next row or in this one
  split <;> split
  · exact hnew.draw (by decide) (by omega)
  · exact h.draw (by decide) (by omega)
  · exact hnew.draw (by decide) (by omega)
  · exact h.draw (by decide) (by omega)

theorem perform (h : s.OnGrid) (o : Output) : (s.perform o).OnGrid := by
  cases o with
  | print c => exact h.print c
  | clear =>
    have htop : (0 : Int) ≤ 0 ∧ (0 : Int) < kRows := by decide
    refine ⟨h.column, htop, fun r hr => ?_⟩
    rcases List.mem_append.mp hr with hr | hr
    · -- `clear` fills the rows of the grid
      obtain ⟨row, hrow, rfl⟩ := List.mem_map.mp hr
      have hlt : row < kRows.toNat := List.mem_range.mp hrow
      have hrows : kRows = 18 := rfl
      exact ⟨by simp, by dsimp only; omega⟩
    · exact h.cells r hr

theorem foldl_perform (h : s.OnGrid) (outputs : List Output) : (outputs.foldl Screen.perform s).OnGrid := by
  induction outputs generalizing s with
  | nil => exact h
  | cons o outputs ih => exact ih (h.perform o)

end Screen.OnGrid

/-! ## The keys -/

namespace Terminal

variable {t t' : Terminal} {executed : Executed} {ascii : UInt8} {direction : Int} {call : TerminalCall}

theorem onGrid_iff (h : t.Typed) : t.OnGrid ↔ t.toScreen.OnGrid :=
  ⟨fun hgrid => hgrid.toOnGrid, fun hscreen => ⟨hscreen, h.index, h.historyIndex⟩⟩

theorem enter_onGrid (h : t.toScreen.OnGrid) (executed : Executed) : (t.enter executed).toScreen.OnGrid := by
  have hprompt := (h.newline.1.foldl_perform executed.outputs).print kPrompt
  exact hprompt

theorem backspace_onGrid (h : t.toScreen.OnGrid) : t.backspace.toScreen.OnGrid := by
  have hcolumn := h.column
  unfold backspace
  split
  · have hback : 0 ≤ t.cursor.x - 1 ∧ t.cursor.x - 1 ≤ kColumns := by omega
    apply (h.moved hback).touch
    show t.cursor.x - 1 + 1 ≤ kColumns
    omega
  · exact h

theorem type_onGrid (h : t.toScreen.OnGrid) (ascii : UInt8) : (t.type ascii).toScreen.OnGrid := by
  by_cases hroom : t.HasRoom
  · have hx := hroom.1
    rw [type_of_hasRoom hroom]
    exact h.draw (by decide) (by omega)
  · rw [type_of_not_hasRoom hroom]
    exact h

/-- A recalled line is within its row exactly if there is room for it behind the prompt. -/
theorem Recalled.onGrid_iff (hrecalled : t.Recalled direction t') (h : t.toScreen.OnGrid) :
    t'.toScreen.OnGrid ↔ ((cString (t.history direction)).length : Int) < kColumns := by
  have hcursor := hrecalled.cursor
  have hcells := hrecalled.cells
  have hcolumns : kColumns = 60 := rfl
  rw [hrecalled.line] at hcursor hcells
  constructor
  · -- the cursor is behind the line
    intro hgrid
    have hcolumn := hgrid.column
    rw [hcursor] at hcolumn
    dsimp only at hcolumn
    omega
  · intro hfits
    refine ⟨?_, ?_, fun r hr => ?_⟩
    · rw [hcursor]
      dsimp only
      omega
    · rw [hcursor]
      exact h.row
    · rcases hcells r hr with hold | rfl | ⟨hleft, hright, hrow⟩
      · exact h.cells r hold
      · -- the row, erased behind the first column
        have hline : (0 : Int) ≤ 1 ∧ (1 : Int) + (kColumns - 1) ≤ kColumns := by decide
        exact ⟨hline, h.row⟩
      · refine ⟨by omega, ?_⟩
        rw [hrow]
        exact h.row

/-- An arrow recalls a line, and the cursor stays on the grid exactly if it fits. -/
theorem historyUpDown_spec (h : t.toScreen.OnGrid) (htyped : t.Typed) (direction : Int) :
    ∃ t', t.historyUpDown direction = some t' ∧ t'.Typed ∧
      (t'.OnGrid ↔ ((cString (t.history direction)).length : Int) < kColumns) := by
  obtain ⟨t', hrun, hrecalled⟩ := historyUpDown_recalled htyped direction
  exact ⟨t', hrun, hrecalled.typed, (onGrid_iff hrecalled.typed).trans (hrecalled.onGrid_iff h)⟩

end Terminal

namespace TerminalCall

variable {t t' : Terminal} {call : TerminalCall}

/-- One call: it ends, what is typed are printing characters, and it stays on the grid exactly if a recalled
line fits. -/
theorem run_spec (h : t.OnGrid) (htyped : t.Typed) (hvalid : call.Valid) :
    ∃ t', call.run t = some t' ∧ t'.Typed ∧ (t'.OnGrid ↔ call.RecallFits t) := by
  have hscreen : t.started.toScreen.OnGrid := ⟨h.column, h.row, fun r hr => absurd hr List.not_mem_nil⟩
  have hstart := htyped.started
  cases call with
  | print c =>
    have hnew : Terminal.Typed { t with toScreen := t.started.toScreen.print c } :=
      ⟨htyped.length, htyped.index, htyped.line, htyped.entries, htyped.historyIndex, htyped.entry⟩
    exact ⟨_, rfl, hnew, iff_of_true ((Terminal.onGrid_iff hnew).mpr (hscreen.print c)) trivial⟩
  | inputKey keycode ascii executed =>
    obtain ⟨hascii, hlength⟩ := hvalid
    show ∃ t', t.started.inputKey keycode ascii executed = some t' ∧ _ ∧
      (_ ↔ ∀ direction, Terminal.keyOf keycode ascii = .arrow direction → _)
    rw [Terminal.inputKey_eq_press]
    have hchar := Terminal.printable_of_keyOf keycode hascii
    cases hkey : Terminal.keyOf keycode ascii with
    | enter =>
      have hnew := hstart.enter hlength
      have hgrid := (Terminal.onGrid_iff hnew).mpr (Terminal.enter_onGrid hscreen executed)
      exact ⟨_, rfl, hnew, iff_of_true hgrid fun _ hd => nomatch hd⟩
    | backspace =>
      have hnew := hstart.backspace
      have hgrid := (Terminal.onGrid_iff hnew).mpr (Terminal.backspace_onGrid hscreen)
      exact ⟨_, rfl, hnew, iff_of_true hgrid fun _ hd => nomatch hd⟩
    | char c =>
      have hnew := hstart.type (hchar c hkey)
      have hgrid := (Terminal.onGrid_iff hnew).mpr (Terminal.type_onGrid hscreen c)
      exact ⟨_, rfl, hnew, iff_of_true hgrid fun _ hd => nomatch hd⟩
    | arrow direction =>
      obtain ⟨t', hrun, htyped', hiff⟩ := Terminal.historyUpDown_spec hscreen hstart direction
      refine ⟨t', hrun, htyped', hiff.trans ⟨fun hfits d hd => ?_, fun hfits => hfits direction rfl⟩⟩
      cases hd
      exact hfits
    | other =>
      have hgrid := (Terminal.onGrid_iff hstart).mpr hscreen
      exact ⟨_, rfl, hstart, iff_of_true hgrid fun _ hd => nomatch hd⟩

end TerminalCall

/-! ## Runs -/

variable {t : Terminal}

theorem screen_init_onGrid : Terminal.init.toScreen.OnGrid := by
  have hempty : Screen.OnGrid ⟨⟨0, 0⟩, []⟩ :=
    ⟨⟨le_refl 0, by decide⟩, ⟨le_refl 0, by decide⟩, fun r hr => absurd hr List.not_mem_nil⟩
  exact hempty.print kPrompt

/-- `clear` with an argument. -/
def clearLine : List UInt8 := [0x63, 0x6c, 0x65, 0x61, 0x72, 0x20] ++ List.replicate 54 0x61

def cleared : Executed := ⟨[.clear], (clearLine ++ List.replicate 68 0).set 5 0⟩

/-- 58 letters fill the row; another task prints a newline, and there is room for more. -/
def longLine : List TerminalCall :=
  (clearLine.take 58).map (.inputKey 0 · cleared) ++ [.print 0x0a] ++
    (clearLine.drop 58).map (.inputKey 0 · cleared) ++ [.inputKey 0 0x0a cleared, .inputKey 0x52 0 cleared]

end MikanSaos
