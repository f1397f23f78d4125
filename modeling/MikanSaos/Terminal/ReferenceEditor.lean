import MikanSaos.Reasoning.Reach
import MikanSaos.Terminal.LineEditor

/-!
# ReferenceEditor — line editing agrees with what is shown

The reference is an editor of one line of text with its history.  A terminal counts the line and the column
apart: an arrow puts the cursor behind the first column of the row, and backspace stops there, wherever the
prompt stands.
-/

namespace MikanSaos

open Reasoning
open Terminal (Key)

/-- The line, the lines before it from the last one on, and how many of them the arrows have gone back. -/
structure LineEditor where
  line : List UInt8
  history : List (List UInt8)
  recalled : Nat
  deriving DecidableEq

namespace LineEditor

/-- The `k`-th most recent line; there is none for 0. -/
def recallLine (e : LineEditor) (k : Nat) : List UInt8 := ([] :: e.history).getD k []

/-- A key, with the line beginning in column `start`; the last column is left to the cursor. -/
def step (e : LineEditor) (start : Int) : Key → LineEditor
  | .enter => ⟨[], if e.line = [] then e.history else (e.line :: e.history).take 8, 0⟩
  | .backspace => { e with line := e.line.dropLast }
  | .char c => if start + e.line.length < kColumns - 1 then { e with line := e.line ++ [c] } else e
  | .arrow direction =>
    let recalled := if direction = 1 then min (e.recalled + 1) 8 else e.recalled - 1
    { e with line := e.recallLine recalled, recalled }
  | .other => e

end LineEditor

/-- A call of `InputKey`, with what `ExecuteLine` does if it is called. -/
structure KeyPress where
  keycode : UInt8
  ascii : UInt8
  executed : Executed

def KeyPress.key (p : KeyPress) : Key := Terminal.keyOf p.keycode p.ascii

/-- The keys with a character are the printing ones, backspace and enter. -/
def KeyPress.Valid (p : KeyPress) : Prop :=
  (Printable p.ascii ∨ p.ascii = 0x08 ∨ p.ascii = 0x0a ∨ p.ascii = 0) ∧ p.executed.linebuf.length = kLineMax

/-- A terminal and a reference editor with the same keys, and the column behind the last prompt. -/
structure EditingSession where
  terminal : Terminal
  editor : LineEditor
  start : Int

namespace EditingSession

def init : EditingSession := ⟨Terminal.init, ⟨[], [], 0⟩, Terminal.init.cursor.x⟩

def press (s : EditingSession) (p : KeyPress) : Option EditingSession :=
  (s.terminal.started.inputKey p.keycode p.ascii p.executed).map fun terminal =>
    ⟨terminal, s.editor.step s.start p.key, if p.key = .enter then terminal.cursor.x else s.start⟩

def Step (s : EditingSession) (p : KeyPress) (s' : EditingSession) : Prop := p.Valid ∧ s.press p = some s'

/-- Enter would execute the editor's line, and the cursor is behind its last character. -/
structure Agrees (s : EditingSession) : Prop where
  line : cString s.terminal.entered = s.editor.line
  column : s.terminal.cursor.x = s.start + s.editor.line.length

/-- Cells of the cursor's row, from the one behind the prompt on. -/
def BehindPrompt (s : EditingSession) (r : CellRun) : Prop := r.row = s.terminal.cursor.y ∧ s.start ≤ r.column

/-- A key leaves the two in agreement, and editing touches neither the prompt nor what is before it. -/
structure Meets (s : EditingSession) (p : KeyPress) (s' : EditingSession) : Prop where
  agrees : s'.Agrees
  edits : p.key ≠ .enter → ∀ r ∈ s'.terminal.cells, s.BehindPrompt r

/-- Arrows, and backspace on an empty line, need a prompt in the first column. -/
def PromptFirst (s : EditingSession) (p : KeyPress) : Prop :=
  match p.key with
  | .arrow _ => s.start = 1
  | .backspace => s.terminal.linebufIndex = 0 → s.start = 1
  | _ => True

/-- The invariant: the histories agree as well. -/
structure Follows (s : EditingSession) : Prop where
  typed : s.terminal.Typed
  line : s.terminal.line = s.editor.line
  column : s.terminal.cursor.x = s.start + s.editor.line.length
  start : 1 ≤ s.start
  history : ∀ k < 8, cString (s.terminal.cmdHistory.getD k []) = s.editor.history.getD k []
  recalled : s.terminal.cmdHistoryIndex + 1 = s.editor.recalled

end EditingSession

/-! ## Behind the prompt

After the constructor or a command the cursor is behind a prompt, in whatever column. -/

namespace Screen

variable {s : Screen}

theorem newline_column (s : Screen) : s.newline.cursor.x = 0 := by
  unfold newline
  split <;> rfl

/-- A character other than a newline leaves the cursor behind it. -/
theorem print_column (h : 0 ≤ s.cursor.x) (c : BitVec 32) : 0 ≤ (s.print c).cursor.x := by
  have hzero := newline_column s
  unfold print
  split
  · omega
  dsimp only
  -- the row that the character begins in does not matter
  split <;> split <;> (dsimp only; omega)

theorem prompt_column (h : 0 ≤ s.cursor.x) : 1 ≤ (s.print kPrompt).cursor.x := by
  have hzero := newline_column s
  have hnarrow : isHankaku kPrompt = true := rfl
  unfold print
  rw [if_neg (by decide), if_pos hnarrow]
  dsimp only
  split <;> omega

theorem foldl_perform_column (h : 0 ≤ s.cursor.x) (outputs : List Output) :
    0 ≤ (outputs.foldl perform s).cursor.x := by
  induction outputs generalizing s with
  | nil => exact h
  | cons o outputs ih =>
    apply ih
    cases o with
    | print c => exact print_column h c
    | clear => exact h

end Screen

theorem Terminal.enter_column (t : Terminal) (executed : Executed) : 1 ≤ (t.enter executed).cursor.x := by
  have hline : 0 ≤ t.newline.cursor.x := (Screen.newline_column t.toScreen).ge
  have hprompt := Screen.prompt_column (Screen.foldl_perform_column hline executed.outputs)
  exact hprompt

/-! ## One key -/

namespace EditingSession.Follows

variable {s : EditingSession} {executed : Executed} {c : UInt8} {direction : Int} {t : Terminal}

theorem agrees (h : s.Follows) : s.Agrees := ⟨(Terminal.cString_entered h.typed).trans h.line, h.column⟩

/-- The session at the start of a call. -/
theorem started (h : s.Follows) : Follows { s with terminal := s.terminal.started } :=
  ⟨h.typed.started, h.line, h.column, h.start, h.history, h.recalled⟩

theorem enter (h : s.Follows) (hlength : executed.linebuf.length = kLineMax) :
    Follows ⟨s.terminal.enter executed, s.editor.step s.start .enter, (s.terminal.enter executed).cursor.x⟩ where
  typed := h.typed.enter hlength
  line := rfl
  column := (add_zero _).symm
  start := Terminal.enter_column _ _
  recalled := rfl
  history := by
    have hindex := Terminal.length_line h.typed
    have hentries := h.typed.entries
    have hempty : 0 < s.terminal.linebufIndex ↔ s.editor.line ≠ [] := by
      rw [← hindex, h.line, ← List.length_pos_iff]
      omega
    intro k hk
    show cString ((s.terminal.enter executed).cmdHistory.getD k []) = List.getD (if _ then _ else _) k []
    rw [Terminal.cmdHistory_enter]
    by_cases hline : s.editor.line = []
    · rw [if_pos hline, if_neg (by rw [hempty]; exact not_not.mpr hline)]
      exact h.history k hk
    rw [if_neg hline, if_pos (hempty.mpr hline)]
    cases k with
    | zero => exact (Terminal.cString_entered h.typed).trans h.line
    | succ k =>
      -- both histories move back by one, and lose what is behind the eighth line
      have hdrop : (s.terminal.entered :: s.terminal.cmdHistory.dropLast).getD (k + 1) [] =
          s.terminal.cmdHistory.getD k [] := by
        rw [List.getD_cons_succ, List.getD_eq_getElem?_getD, List.getElem?_dropLast, if_pos (by omega),
          ← List.getD_eq_getElem?_getD]
      have htake : ((s.editor.line :: s.editor.history).take 8).getD (k + 1) [] = s.editor.history.getD k [] := by
        rw [List.getD_eq_getElem?_getD, List.getElem?_take_of_lt hk, List.getElem?_cons_succ,
          ← List.getD_eq_getElem?_getD]
      rw [hdrop, htake]
      exact h.history k (by omega)

theorem type (h : s.Follows) (hc : Printable c) :
    Follows ⟨s.terminal.type c, s.editor.step s.start (.char c), s.start⟩ ∧
      ∀ r ∈ (s.terminal.type c).cells, r ∈ s.terminal.cells ∨ s.BehindPrompt r := by
  have hcolumn := h.column
  have hstart := h.start
  have hindex := Terminal.length_line h.typed
  have hlimit : (kLineMax : Int) = 128 := rfl
  have hcolumns : kColumns = 60 := rfl
  rw [h.line] at hindex
  -- the buffer is longer than a row
  have hroom : s.terminal.HasRoom ↔ s.start + s.editor.line.length < kColumns - 1 := by
    unfold Terminal.HasRoom
    omega
  by_cases hfits : s.terminal.HasRoom
  · have hstep : s.editor.step s.start (.char c) = { s.editor with line := s.editor.line ++ [c] } :=
      if_pos (hroom.mp hfits)
    have hline := Terminal.line_type h.typed hfits c
    rw [hstep]
    refine ⟨⟨h.typed.type hc, ?_, ?_, hstart, ?_, ?_⟩, ?_⟩
    · rw [hline, h.line]
    · rw [Terminal.type_of_hasRoom hfits, List.length_append]
      show s.terminal.cursor.x + 1 = s.start + ((s.editor.line.length + 1 : Nat) : Int)
      omega
    · rw [Terminal.type_of_hasRoom hfits]
      exact h.history
    · rw [Terminal.type_of_hasRoom hfits]
      exact h.recalled
    · rw [Terminal.type_of_hasRoom hfits]
      intro r hr
      rcases List.mem_cons.mp hr with rfl | hr
      · exact .inr ⟨rfl, by dsimp only; omega⟩
      · exact .inl hr
  · have hstep : s.editor.step s.start (.char c) = s.editor := if_neg (mt hroom.mpr hfits)
    rw [hstep, Terminal.type_of_not_hasRoom hfits]
    exact ⟨h, fun r hr => .inl hr⟩

theorem backspace (h : s.Follows) (hfirst : s.terminal.linebufIndex = 0 → s.start = 1) :
    Follows ⟨s.terminal.backspace, s.editor.step s.start .backspace, s.start⟩ ∧
      ∀ r ∈ s.terminal.backspace.cells, r ∈ s.terminal.cells ∨ s.BehindPrompt r := by
  have hcolumn := h.column
  have hstart := h.start
  have hindex := Terminal.length_line h.typed
  have hline := Terminal.line_backspace h.typed
  rw [h.line] at hindex hline
  by_cases hx : 1 < s.terminal.cursor.x
  · rw [if_pos hx] at hline
    -- the line is not empty, since the prompt would be in another column
    have hpos : 0 < s.editor.line.length := by omega
    have hback := Terminal.backspace_of_lt hx
    constructor
    · refine ⟨h.typed.backspace, hline, ?_, hstart, ?_, ?_⟩
      · show s.terminal.backspace.cursor.x = s.start + (s.editor.line.dropLast.length : Int)
        rw [hback, List.length_dropLast]
        show s.terminal.cursor.x - 1 = _
        omega
      · rw [hback]
        exact h.history
      · rw [hback]
        exact h.recalled
    · rw [hback]
      intro r hr
      rcases List.mem_cons.mp hr with rfl | hr
      · exact .inr ⟨rfl, by dsimp only; omega⟩
      · exact .inl hr
  · -- the cursor stands behind the prompt in column 0
    have hempty : s.editor.line = [] := List.eq_nil_of_length_eq_zero (by omega)
    have hback : s.terminal.backspace = s.terminal := if_neg hx
    have hstep : s.editor.step s.start .backspace = s.editor := by
      show { s.editor with line := s.editor.line.dropLast } = s.editor
      rw [hempty, List.dropLast_nil, ← hempty]
    rw [hback, hstep]
    exact ⟨h, fun r hr => .inl hr⟩

/-- Backspace on an empty line moves the cursor, unless the prompt is in the first column. -/
theorem not_agrees_backspace (h : s.Follows) (hzero : s.terminal.linebufIndex = 0) (hne : s.start ≠ 1) :
    ¬ Agrees ⟨s.terminal.backspace, s.editor.step s.start .backspace, s.start⟩ := by
  intro hagrees
  have hbefore := h.column
  have hstart := h.start
  have hindex := Terminal.length_line h.typed
  rw [h.line] at hindex
  have hempty : s.editor.line = [] := List.eq_nil_of_length_eq_zero (by omega)
  have hx : 1 < s.terminal.cursor.x := by omega
  have hafter : s.terminal.backspace.cursor.x = s.start + (s.editor.line.dropLast.length : Int) := hagrees.column
  rw [Terminal.backspace_of_lt hx, List.length_dropLast] at hafter
  have hmoved : s.terminal.cursor.x - 1 = s.start + ((s.editor.line.length - 1 : Nat) : Int) := hafter
  omega

/-- The editor goes through its history as the terminal does. -/
theorem recalled_step (h : s.Follows) (hdirection : direction = -1 ∨ direction = 1) :
    s.terminal.historyIndex direction + 1 = (s.editor.step s.start (.arrow direction)).recalled := by
  have hrecalled := h.recalled
  have hentries := h.typed.entries
  have hbounds := h.typed.historyIndex
  -- the index of the newest line is 0 in the one and 1 in the other
  rcases hdirection with rfl | rfl
  · show _ = ((s.editor.recalled - 1 : Nat) : Int)
    rw [Terminal.historyIndex_down]
    split <;> omega
  · show _ = ((min (s.editor.recalled + 1) 8 : Nat) : Int)
    rw [Terminal.historyIndex_up, hentries]
    split <;> omega

theorem line_step (h : s.Follows) (hdirection : direction = -1 ∨ direction = 1) :
    cString (s.terminal.history direction) = (s.editor.step s.start (.arrow direction)).line := by
  have hstep := recalled_step h hdirection
  have hbounds := Terminal.historyIndex_bounds h.typed direction
  have hline : (s.editor.step s.start (.arrow direction)).line =
      s.editor.recallLine (s.editor.step s.start (.arrow direction)).recalled := rfl
  rw [hline]
  unfold Terminal.history LineEditor.recallLine
  split
  · have hnext : (s.editor.step s.start (.arrow direction)).recalled =
        (s.terminal.historyIndex direction).toNat + 1 := by omega
    rw [hnext, List.getD_cons_succ]
    exact h.history _ (by omega)
  · have hnone : (s.editor.step s.start (.arrow direction)).recalled = 0 := by omega
    rw [hnone]
    rfl

theorem arrow (h : s.Follows) (hdirection : direction = -1 ∨ direction = 1)
    (hrecalled : s.terminal.Recalled direction t) (hfirst : s.start = 1) :
    Follows ⟨t, s.editor.step s.start (.arrow direction), s.start⟩ := by
  have hline := hrecalled.line.trans (line_step h hdirection)
  refine ⟨hrecalled.typed, hline, ?_, h.start, ?_, ?_⟩
  · rw [hrecalled.cursor, hline, hfirst]
    exact add_comm _ _
  · rw [hrecalled.cmdHistory]
    exact h.history
  · rw [hrecalled.historyIndex]
    exact recalled_step h hdirection

end EditingSession.Follows

namespace EditingSession

variable {s : EditingSession} {p : KeyPress}

/-- One key: the call ends, and the session agrees and is edited behind the prompt exactly if arrows, and
backspace on an empty line, come with the prompt in the first column. -/
theorem press_spec (h : s.Follows) (hvalid : p.Valid) : ∃ s', s.press p = some s' ∧
    (s.PromptFirst p → s'.Follows) ∧ (s.Meets p s' ↔ s.PromptFirst p) := by
  obtain ⟨hascii, hlength⟩ := hvalid
  have hchar := Terminal.printable_of_keyOf p.keycode hascii
  have hstarted := h.started
  have hnone : ∀ r, r ∉ s.terminal.started.cells := fun r => List.not_mem_nil
  have hkey : Terminal.keyOf p.keycode p.ascii = p.key := rfl
  unfold press PromptFirst
  rw [Terminal.inputKey_eq_press]
  rw [hkey] at hchar ⊢
  cases hp : p.key with
  | enter =>
    -- the next prompt is where the command has left the cursor
    have hnext := hstarted.enter hlength
    exact ⟨_, rfl, fun _ => hnext, iff_of_true ⟨hnext.agrees, fun hne => absurd hp hne⟩ trivial⟩
  | backspace =>
    refine ⟨_, rfl, fun hfirst => (hstarted.backspace hfirst).1, fun hmeets hzero => ?_, fun hfirst => ?_⟩
    · by_contra hne
      exact hstarted.not_agrees_backspace hzero hne hmeets.agrees
    · obtain ⟨hnext, hcells⟩ := hstarted.backspace hfirst
      exact ⟨hnext.agrees, fun _ r hr => (hcells r hr).resolve_left (hnone r)⟩
  | char c =>
    obtain ⟨hnext, hcells⟩ := hstarted.type (hchar c hp)
    have hedits : ∀ r ∈ (s.terminal.started.type c).cells, s.BehindPrompt r :=
      fun r hr => (hcells r hr).resolve_left (hnone r)
    exact ⟨_, rfl, fun _ => hnext, iff_of_true ⟨hnext.agrees, fun _ => hedits⟩ trivial⟩
  | arrow direction =>
    have hdirection := Terminal.direction_of_keyOf (hkey.trans hp)
    obtain ⟨t, hrun, hrecalled⟩ := Terminal.historyUpDown_recalled hstarted.typed direction
    have hline := hrecalled.line.trans (hstarted.line_step hdirection)
    refine ⟨⟨t, s.editor.step s.start (.arrow direction), s.start⟩, ?_, hstarted.arrow hdirection hrecalled,
      fun hmeets => ?_, fun hfirst => ⟨(hstarted.arrow hdirection hrecalled hfirst).agrees, fun _ r hr => ?_⟩⟩
    · show Option.map _ (s.terminal.started.historyUpDown direction) = _
      rw [hrun]
      rfl
    · -- the cursor is behind the recalled line as if it began in column 1
      have hcolumn := hmeets.agrees.column
      rw [hrecalled.cursor, hline] at hcolumn
      dsimp only at hcolumn
      omega
    · rcases hrecalled.cells r hr with hold | rfl | ⟨hleft, -, hrow⟩
      · exact absurd hold (hnone r)
      · exact ⟨rfl, hfirst.le⟩
      · exact ⟨hrow, hfirst.le.trans hleft⟩
  | other =>
    exact ⟨_, rfl, fun _ => hstarted,
      iff_of_true ⟨hstarted.agrees, fun _ r hr => absurd hr (hnone r)⟩ trivial⟩

theorem init_follows : init.Follows where
  typed := Terminal.typed_init
  line := rfl
  column := rfl
  start := by decide
  history := by decide
  recalled := rfl

/-- The file that `cat a` prints has one letter and no newline. -/
def catExecuted : Executed :=
  ⟨[.print 0x41], [0x63, 0x61, 0x74, 0, 0x61] ++ List.replicate 123 0⟩

/-- `cat a`, enter and backspace. -/
def catKeys : List KeyPress :=
  [0x63, 0x61, 0x74, 0x20, 0x61, 0x0a, 0x08].map fun ascii => ⟨0, ascii, catExecuted⟩

end EditingSession

end MikanSaos
