import MikanSaos.Graphics.Geometry
import MikanSaos.Terminal.PrintBounds
import MikanSaos.Terminal.Printing

/-!
# LineEditor — the cursor, the line and the history of a terminal with a window

What is drawn counts in character cells: the functions of the source compute its pixels from `_cursor` with
`CalcCursorPos`.  `cells` lists the cells that the current call has drawn or erased; the bar of `DrawCursor` is
not among them.
-/

namespace MikanSaos

def kRows : Int := 18
def kColumns : Int := 60
def kLineMax : Nat := 128

/-- Neighbouring cells of one row. -/
structure CellRun where
  column : Int
  row : Int
  width : Int
  deriving DecidableEq

/-- The cells that a character takes. -/
def cellWidth (c : BitVec 32) : Nat := if isHankaku c then 1 else 2

/-- The part of a terminal that `Print` works on. -/
structure Screen where
  cursor : Vector2D
  cells : List CellRun
  deriving DecidableEq

/-- What a command does to the screen of its terminal. -/
inductive Output
  | print (c : BitVec 32)
  | clear

namespace Screen

/-- Draws or erases cells from the cursor on. -/
def touch (s : Screen) (width : Int) : Screen :=
  { s with cells := ⟨s.cursor.x, s.cursor.y, width⟩ :: s.cells }

/-- `ScrollOneLine` moves the rows below the first one up and erases the cursor's row. -/
def scrollOneLine (s : Screen) : Screen := { s with cells := ⟨0, s.cursor.y, kColumns⟩ :: s.cells }

def newline (s : Screen) : Screen :=
  if s.cursor.y < kRows - 1 then { s with cursor := ⟨0, s.cursor.y + 1⟩ }
  else scrollOneLine { s with cursor := ⟨0, s.cursor.y⟩ }

/-- `Print(char32_t)` -/
def print (s : Screen) (c : BitVec 32) : Screen :=
  if c = 0x0a then s.newline
  else if isHankaku c then
    let s := if s.cursor.x = kColumns then s.newline else s
    { s.touch 1 with cursor := ⟨s.cursor.x + 1, s.cursor.y⟩ }
  else
    -- a wide character does not begin in the last column
    let s := if s.cursor.x ≥ kColumns - 1 then s.newline else s
    { s.touch 2 with cursor := ⟨s.cursor.x + 2, s.cursor.y⟩ }

/-- The rows that `clear` fills. -/
def clearedRows : List CellRun := (List.range kRows.toNat).map fun row : Nat => ⟨0, row, kColumns⟩

/-- `clear` is the command of `ExecuteLine`; it leaves the column alone. -/
def perform (s : Screen) : Output → Screen
  | .print c => s.print c
  | .clear => ⟨⟨s.cursor.x, 0⟩, clearedRows ++ s.cells⟩

end Screen

/-- What `ExecuteLine` has put on the screen and left in the line buffer, which it cuts. -/
structure Executed where
  outputs : List Output
  linebuf : List UInt8

structure Terminal extends Screen where
  linebuf : List UInt8
  linebufIndex : Int
  cmdHistory : List (List UInt8)
  cmdHistoryIndex : Int
  deriving DecidableEq

/-- `'>'`, printed by the constructor and after every command. -/
def kPrompt : BitVec 32 := 0x3e

namespace Terminal

/-- The constructor. -/
def init : Terminal where
  toScreen := Screen.print ⟨⟨0, 0⟩, []⟩ kPrompt
  linebuf := List.replicate kLineMax 0
  linebufIndex := 0
  cmdHistory := List.replicate 8 (List.replicate kLineMax 0)
  cmdHistoryIndex := -1

/-- The line buffer when `ExecuteLine` is called. -/
def entered (t : Terminal) : List UInt8 := t.linebuf.set t.linebufIndex.toNat 0

/-- `InputKey` for `'\n'`. -/
def enter (t : Terminal) (executed : Executed) : Terminal where
  toScreen := (executed.outputs.foldl Screen.perform t.newline).print kPrompt
  linebuf := executed.linebuf
  linebufIndex := 0
  cmdHistory := if 0 < t.linebufIndex then t.entered :: t.cmdHistory.dropLast else t.cmdHistory
  cmdHistoryIndex := -1

/-- `InputKey` for `'\b'`. -/
def backspace (t : Terminal) : Terminal :=
  if 1 < t.cursor.x then
    { t with
      toScreen := Screen.touch ⟨⟨t.cursor.x - 1, t.cursor.y⟩, t.cells⟩ 1
      -- the index stays at 0, but the cursor has moved
      linebufIndex := if 0 < t.linebufIndex then t.linebufIndex - 1 else t.linebufIndex }
  else t

/-- `InputKey` for any other character. -/
def type (t : Terminal) (ascii : UInt8) : Terminal :=
  if t.cursor.x < kColumns - 1 ∧ t.linebufIndex < kLineMax - 1 then
    { t with
      toScreen := { t.touch 1 with cursor := ⟨t.cursor.x + 1, t.cursor.y⟩ }
      linebuf := t.linebuf.set t.linebufIndex.toNat ascii
      linebufIndex := t.linebufIndex + 1 }
  else t

/-- The new `_cmd_history_index` of `HistoryUpDown`. -/
def historyIndex (t : Terminal) (direction : Int) : Int :=
  if direction = -1 ∧ 0 ≤ t.cmdHistoryIndex then t.cmdHistoryIndex - 1
  else if direction = 1 ∧ t.cmdHistoryIndex + 1 < t.cmdHistory.length then t.cmdHistoryIndex + 1
  else t.cmdHistoryIndex

@[simp] theorem historyIndex_down (t : Terminal) : t.historyIndex (-1) =
    if 0 ≤ t.cmdHistoryIndex then t.cmdHistoryIndex - 1 else t.cmdHistoryIndex := by
  simp [historyIndex]

@[simp] theorem historyIndex_up (t : Terminal) : t.historyIndex 1 =
    if t.cmdHistoryIndex + 1 < t.cmdHistory.length then t.cmdHistoryIndex + 1 else t.cmdHistoryIndex := by
  simp [historyIndex]

/-- The memory at `history` in `HistoryUpDown`; no bytes are an empty string. -/
def history (t : Terminal) (direction : Int) : List UInt8 :=
  if 0 ≤ t.historyIndex direction then t.cmdHistory.getD (t.historyIndex direction).toNat [] else []

/-- The result of a `strcpy` to the start of a buffer. -/
def copyString (buffer string : List UInt8) : List UInt8 := string ++ 0 :: buffer.drop (string.length + 1)

/-- It is `none` where `WriteString` does not end. -/
def historyUpDown (t : Terminal) (direction : Int) : Option Terminal :=
  let history := t.history direction
  -- the row is erased from column 1 on, whatever the prompt's column is
  let first : Screen := Screen.touch ⟨⟨1, t.cursor.y⟩, t.cells⟩ (kColumns - 1)
  (writeStringLoop (cBytes history) (history.length + 1) 0 0).map fun run =>
    { cursor := ⟨(cString history).length + 1, t.cursor.y⟩
      cells := (run.drawn.map fun d => ⟨1 + d.1, t.cursor.y, cellWidth d.2⟩) ++ first.cells
      linebuf := copyString t.linebuf (cString history)
      linebufIndex := (cString history).length
      cmdHistory := t.cmdHistory
      cmdHistoryIndex := t.historyIndex direction }

/-- `executed` is what `ExecuteLine` does if it is called. -/
def inputKey (t : Terminal) (keycode ascii : UInt8) (executed : Executed) : Option Terminal :=
  if ascii = 0x0a then some (t.enter executed)
  else if ascii = 0x08 then some t.backspace
  else if ascii ≠ 0 then some (t.type ascii)
  else if keycode = 0x51 then t.historyUpDown (-1)
  else if keycode = 0x52 then t.historyUpDown 1
  else some t

/-- The terminal when a call begins that has not touched any cell. -/
def started (t : Terminal) : Terminal := { t with toScreen := ⟨t.cursor, []⟩ }

/-- What `InputKey` takes a key for. -/
inductive Key
  | enter
  | backspace
  | char (ascii : UInt8)
  | arrow (direction : Int)
  | other
  deriving DecidableEq

def keyOf (keycode ascii : UInt8) : Key :=
  if ascii = 0x0a then .enter
  else if ascii = 0x08 then .backspace
  else if ascii ≠ 0 then .char ascii
  else if keycode = 0x51 then .arrow (-1)
  else if keycode = 0x52 then .arrow 1
  else .other

def press (t : Terminal) (executed : Executed) : Key → Option Terminal
  | .enter => some (t.enter executed)
  | .backspace => some t.backspace
  | .char ascii => some (t.type ascii)
  | .arrow direction => t.historyUpDown direction
  | .other => some t

theorem inputKey_eq_press (t : Terminal) (keycode ascii : UInt8) (executed : Executed) :
    t.inputKey keycode ascii executed = t.press executed (keyOf keycode ascii) := by
  unfold inputKey keyOf
  split_ifs <;> rfl

/-- The characters typed since the last prompt. -/
def line (t : Terminal) : List UInt8 := t.linebuf.take t.linebufIndex.toNat

end Terminal

/-! ## Lines of printing characters -/

/-- The characters of the printing keys. -/
def Printable (b : UInt8) : Prop := 0x20 ≤ b ∧ b ≤ 0x7e

instance : DecidablePred Printable := fun _ => inferInstanceAs (Decidable (_ ∧ _))

theorem Printable.ne_zero {b : UInt8} (h : Printable b) : b ≠ 0 := by
  rintro rfl
  exact absurd h.1 (by decide)

theorem Printable.lt {b : UInt8} (h : Printable b) : b < 0x80 := UInt8.lt_of_le_of_lt h.2 (by decide)

theorem cString_append_nul {bytes : List UInt8} (h : 0 ∉ bytes) (rest : List UInt8) :
    cString (bytes ++ 0 :: rest) = bytes := by
  induction bytes with
  | nil => rfl
  | cons b bytes ih =>
    rw [List.mem_cons, not_or] at h
    rw [List.cons_append, cString_cons (Ne.symm h.1), ih h.2]

/-- Memory that holds a string: its bytes, and then a NUL. -/
theorem cBytes_cString (bytes : List UInt8) :
    (∀ k < (cString bytes).length, cBytes bytes k ∈ cString bytes) ∧ cBytes bytes (cString bytes).length = 0 := by
  induction bytes with
  | nil => simp [cString, cBytes]
  | cons b bytes ih =>
    by_cases hb : b = 0
    · subst hb
      simp [cString, cBytes]
    · rw [cString_cons hb]
      constructor
      · intro k hk
        cases k with
        | zero => exact List.mem_cons_self
        | succ k =>
          rw [List.length_cons] at hk
          exact List.mem_cons_of_mem _ (ih.1 k (by omega))
      · exact ih.2

/-- Over ASCII, `WriteString` draws one cell in each column. -/
theorem writeStringLoop_ascii {s : Nat → UInt8} {n fuel i posX : Nat} (hfuel : n < fuel)
    (hbytes : ∀ k < n, s (i + k) ≠ 0 ∧ s (i + k) < 0x80) (hend : s (i + n) = 0) :
    ∃ run, writeStringLoop s fuel i posX = some run ∧
      ∀ d ∈ run.drawn, (posX ≤ d.1 ∧ d.1 < posX + n) ∧ cellWidth d.2 = 1 := by
  induction n generalizing fuel i posX with
  | zero =>
    obtain ⟨fuel, rfl⟩ : ∃ k, fuel = k + 1 := ⟨fuel - 1, by omega⟩
    have hzero : s i = 0 := hend
    refine ⟨.done i, ?_, fun d hd => absurd hd List.not_mem_nil⟩
    rw [writeStringLoop, if_neg (not_not.mpr hzero)]
  | succ n ih =>
    obtain ⟨fuel, rfl⟩ : ∃ k, fuel = k + 1 := ⟨fuel - 1, by omega⟩
    obtain ⟨hne, hlt⟩ := hbytes 0 (by omega)
    rw [Nat.add_zero] at hne hlt
    -- the byte is the whole character, and a narrow one
    have hone : countUTF8Size (s i) = 1 := if_pos hlt
    have hbytes1 : (convertUTF8To32 fun k => s (i + k)).2 = 1 := by rw [convertUTF8To32_bytes]; exact hone
    have hnarrow : isHankaku (convertUTF8To32 fun k => s (i + k)).1 = true := by
      have hcode : (convertUTF8To32 fun k => s (i + k)).1.toNat = (s i).toNat := convertUTF8To32_one hone
      have hle : (s i).toNat < 128 := hlt
      apply decide_eq_true
      rw [BitVec.le_def, hcode]
      exact Nat.le_of_lt_succ hle
    have hnext : ∀ k < n, s (i + 1 + k) ≠ 0 ∧ s (i + 1 + k) < 0x80 := by
      intro k hk
      rw [Nat.add_assoc, Nat.add_comm 1]
      exact hbytes (k + 1) (by omega)
    have hrest : ∃ run, writeStringLoop s fuel (i + 1) (posX + 1) = some run ∧
        ∀ d ∈ run.drawn, (posX + 1 ≤ d.1 ∧ d.1 < posX + 1 + n) ∧ cellWidth d.2 = 1 :=
      ih (by omega) hnext (by rw [Nat.add_right_comm]; exact hend)
    obtain ⟨run, hrun, hdrawn⟩ := hrest
    refine ⟨run.round s i (posX, (convertUTF8To32 fun k => s (i + k)).1), ?_, ?_⟩
    · rw [writeStringLoop, if_pos hne]
      dsimp only
      rw [if_pos hnarrow, hbytes1, hrun]
      rfl
    · intro d hd
      rcases List.mem_cons.mp hd with rfl | hd
      · exact ⟨⟨le_refl _, by dsimp only; omega⟩, if_pos hnarrow⟩
      · have h := hdrawn d hd
        exact ⟨by omega, h.2⟩

/-- A string with its NUL, copied over the start of a buffer that has room for both. -/
theorem length_copyString {buffer string : List UInt8} (h : string.length < buffer.length) :
    (Terminal.copyString buffer string).length = buffer.length := by
  unfold Terminal.copyString
  rw [List.length_append, List.length_cons, List.length_drop]
  omega

namespace Terminal

/-- Only printing characters have been typed, now and in the recorded lines. -/
structure Typed (t : Terminal) : Prop where
  length : t.linebuf.length = kLineMax
  index : 0 ≤ t.linebufIndex ∧ t.linebufIndex < kLineMax
  line : ∀ b ∈ t.line, Printable b
  entries : t.cmdHistory.length = 8
  historyIndex : -1 ≤ t.cmdHistoryIndex ∧ t.cmdHistoryIndex < 8
  entry : ∀ e ∈ t.cmdHistory, (cString e).length < kLineMax ∧ ∀ b ∈ cString e, Printable b

variable {t : Terminal} {executed : Executed} {ascii : UInt8} {direction : Int}

theorem length_line (h : t.Typed) : (t.line.length : Int) = t.linebufIndex := by
  have hindex := h.index
  unfold line
  rw [List.length_take, h.length]
  omega

theorem printable_of_keyOf (keycode : UInt8)
    (h : Printable ascii ∨ ascii = 0x08 ∨ ascii = 0x0a ∨ ascii = 0) :
    ∀ c, keyOf keycode ascii = .char c → Printable c := by
  intro c hc
  unfold keyOf at hc
  split_ifs at hc with henter hback hzero
  cases hc
  rcases h with h | h | h | h
  · exact h
  · exact absurd h hback
  · exact absurd h henter
  · exact absurd h hzero

theorem direction_of_keyOf {keycode : UInt8} (h : keyOf keycode ascii = .arrow direction) :
    direction = -1 ∨ direction = 1 := by
  unfold keyOf at h
  split_ifs at h
  · cases h
    exact .inl rfl
  · cases h
    exact .inr rfl

theorem Typed.started (h : t.Typed) : t.started.Typed :=
  ⟨h.length, h.index, h.line, h.entries, h.historyIndex, h.entry⟩

/-- What `ExecuteLine` receives, and what is recorded. -/
theorem cString_entered (h : t.Typed) : cString t.entered = t.line := by
  have hindex := h.index
  have hlt : t.linebufIndex.toNat < t.linebuf.length := by
    rw [h.length]
    omega
  have hset : t.entered = t.line ++ 0 :: t.linebuf.drop (t.linebufIndex.toNat + 1) := by
    unfold entered line
    rw [List.set_eq_take_append_cons_drop, if_pos hlt]
  rw [hset]
  exact cString_append_nul (fun hz => (h.line 0 hz).ne_zero rfl) _

theorem typed_init : init.Typed where
  length := rfl
  index := by decide
  line := fun b hb => absurd hb (List.not_mem_nil)
  entries := rfl
  historyIndex := by decide
  entry := by
    intro e he
    rw [List.eq_of_mem_replicate he]
    have hempty : cString (List.replicate kLineMax 0) = [] := rfl
    rw [hempty]
    exact ⟨by decide, fun b hb => absurd hb List.not_mem_nil⟩

theorem cmdHistory_enter (t : Terminal) (executed : Executed) : (t.enter executed).cmdHistory =
    if 0 < t.linebufIndex then t.entered :: t.cmdHistory.dropLast else t.cmdHistory := rfl

theorem Typed.enter (h : t.Typed) (hlength : executed.linebuf.length = kLineMax) : (t.enter executed).Typed where
  length := hlength
  index := by
    show (0 : Int) ≤ 0 ∧ (0 : Int) < kLineMax
    decide
  line := fun b hb => absurd hb List.not_mem_nil
  entries := by
    have hentries := h.entries
    rw [cmdHistory_enter]
    split
    · rw [List.length_cons, List.length_dropLast, hentries]
    · exact hentries
  historyIndex := by
    show (-1 : Int) ≤ -1 ∧ (-1 : Int) < 8
    decide
  entry := by
    have hindex := h.index
    have hline := length_line h
    rw [cmdHistory_enter]
    split
    · -- the line is recorded as a whole; the oldest entry is dropped
      rw [List.forall_mem_cons]
      refine ⟨?_, fun e he => h.entry e (List.mem_of_mem_dropLast he)⟩
      rw [cString_entered h]
      exact ⟨by omega, h.line⟩
    · exact h.entry

/-- A key that moves the cursor back takes the last character, if there is one. -/
theorem line_backspace (h : t.Typed) : t.backspace.line = if 1 < t.cursor.x then t.line.dropLast else t.line := by
  have hindex := h.index
  have hlength := h.length
  unfold backspace
  split
  · have hlt : t.linebufIndex.toNat < t.linebuf.length := by
      rw [hlength]
      omega
    unfold line
    dsimp only
    split
    · rw [List.dropLast_take hlt]
      congr 1
      omega
    · -- the line is empty
      have hzero : t.linebufIndex = 0 := by omega
      rw [hzero]
      rfl
  · rfl

theorem backspace_of_lt (h : 1 < t.cursor.x) : t.backspace =
    { t with
      toScreen := Screen.touch ⟨⟨t.cursor.x - 1, t.cursor.y⟩, t.cells⟩ 1
      linebufIndex := if 0 < t.linebufIndex then t.linebufIndex - 1 else t.linebufIndex } := if_pos h

theorem Typed.backspace (h : t.Typed) : t.backspace.Typed := by
  have hindex := h.index
  have hline := line_backspace h
  unfold Terminal.backspace at hline ⊢
  split
  · rename_i hx
    rw [if_pos hx, if_pos hx] at hline
    refine ⟨h.length, ?_, ?_, h.entries, h.historyIndex, h.entry⟩
    · dsimp only
      split <;> omega
    · rw [hline]
      exact fun b hb => h.line b (List.mem_of_mem_dropLast hb)
  · exact h

/-- The test of `InputKey` before it takes a character. -/
def HasRoom (t : Terminal) : Prop := t.cursor.x < kColumns - 1 ∧ t.linebufIndex < kLineMax - 1

instance : Decidable t.HasRoom := inferInstanceAs (Decidable (_ ∧ _))

theorem type_of_hasRoom (h : t.HasRoom) (ascii : UInt8) : t.type ascii =
    { t with
      toScreen := { t.touch 1 with cursor := ⟨t.cursor.x + 1, t.cursor.y⟩ }
      linebuf := t.linebuf.set t.linebufIndex.toNat ascii
      linebufIndex := t.linebufIndex + 1 } := if_pos h

theorem type_of_not_hasRoom (h : ¬ t.HasRoom) (ascii : UInt8) : t.type ascii = t := if_neg h

theorem line_type (h : t.Typed) (hroom : t.HasRoom) (ascii : UInt8) :
    (t.type ascii).line = t.line ++ [ascii] := by
  have hindex := h.index
  have hlt : t.linebufIndex.toNat < t.linebuf.length := by
    rw [h.length]
    omega
  have hnext : (t.linebufIndex + 1).toNat = t.linebufIndex.toNat + 1 := by omega
  rw [type_of_hasRoom hroom]
  unfold line
  dsimp only
  rw [hnext, List.take_add_one, List.take_set_of_le (Nat.le_refl _), List.getElem?_set_self hlt]
  rfl

theorem Typed.type (h : t.Typed) (hascii : Printable ascii) : (t.type ascii).Typed := by
  by_cases hroom : t.HasRoom
  · have hindex := h.index
    have hline := line_type h hroom ascii
    have hlt := hroom.2
    rw [type_of_hasRoom hroom] at hline ⊢
    refine ⟨?_, ?_, ?_, h.entries, h.historyIndex, h.entry⟩
    · rw [List.length_set]
      exact h.length
    · dsimp only
      omega
    · rw [hline]
      intro b hb
      rcases List.mem_append.mp hb with hb | hb
      · exact h.line b hb
      · rw [List.mem_singleton.mp hb]
        exact hascii
  · rw [type_of_not_hasRoom hroom]
    exact h

theorem historyIndex_bounds (h : t.Typed) (direction : Int) :
    -1 ≤ t.historyIndex direction ∧ t.historyIndex direction < 8 := by
  have hbounds := h.historyIndex
  have hentries := h.entries
  unfold historyIndex
  split_ifs <;> omega

theorem history_printable (h : t.Typed) (direction : Int) :
    (cString (t.history direction)).length < kLineMax ∧ ∀ b ∈ cString (t.history direction), Printable b := by
  unfold history
  split
  · have hbounds := historyIndex_bounds h direction
    have hlt : (t.historyIndex direction).toNat < t.cmdHistory.length := by
      rw [h.entries]
      omega
    apply h.entry
    rw [List.getD_eq_getElem?_getD, List.getElem?_eq_getElem hlt]
    exact List.getElem_mem hlt
  · exact ⟨by decide, fun b hb => absurd hb List.not_mem_nil⟩

/-- A recalled line stands behind the first column, and the cursor behind it. -/
structure Recalled (t : Terminal) (direction : Int) (t' : Terminal) : Prop where
  typed : t'.Typed
  line : t'.line = cString (t.history direction)
  cursor : t'.cursor = ⟨t'.line.length + 1, t.cursor.y⟩
  cells : ∀ r ∈ t'.cells, r ∈ t.cells ∨ r = ⟨1, t.cursor.y, kColumns - 1⟩ ∨
    1 ≤ r.column ∧ r.column + r.width ≤ t'.line.length + 1 ∧ r.row = t.cursor.y
  cmdHistory : t'.cmdHistory = t.cmdHistory
  historyIndex : t'.cmdHistoryIndex = t.historyIndex direction

theorem historyUpDown_recalled (h : t.Typed) (direction : Int) :
    ∃ t', t.historyUpDown direction = some t' ∧ t.Recalled direction t' := by
  obtain ⟨hlt, hprintable⟩ := history_printable h direction
  obtain ⟨hbytes, hend⟩ := cBytes_cString (t.history direction)
  have hle : (cString (t.history direction)).length ≤ (t.history direction).length :=
    (List.takeWhile_sublist _).length_le
  have hascii : ∀ k < (cString (t.history direction)).length,
      cBytes (t.history direction) (0 + k) ≠ 0 ∧ cBytes (t.history direction) (0 + k) < 0x80 := by
    intro k hk
    rw [Nat.zero_add]
    have hb := hprintable _ (hbytes k hk)
    exact ⟨hb.ne_zero, hb.lt⟩
  -- the entry is ASCII, so that `WriteString` comes to its end
  have hloop : ∃ run, writeStringLoop (cBytes (t.history direction)) ((t.history direction).length + 1) 0 0 =
      some run ∧ ∀ d ∈ run.drawn, (0 ≤ d.1 ∧ d.1 < 0 + (cString (t.history direction)).length) ∧
        cellWidth d.2 = 1 := by
    apply writeStringLoop_ascii (Nat.lt_succ_of_le hle) hascii
    rw [Nat.zero_add]
    exact hend
  obtain ⟨run, hrun, hdrawn⟩ := hloop
  have hroom : (cString (t.history direction)).length < t.linebuf.length := by
    rw [h.length]
    exact hlt
  have hcopy := length_copyString hroom
  have hline : (copyString t.linebuf (cString (t.history direction))).take
      ((cString (t.history direction)).length : Int).toNat = cString (t.history direction) := by
    unfold copyString
    rw [Int.toNat_natCast, List.take_left]
  unfold historyUpDown
  dsimp only
  rw [hrun]
  refine ⟨_, rfl, ⟨?_, ?_, ?_, h.entries, historyIndex_bounds h direction, h.entry⟩, hline, ?_, ?_, rfl, rfl⟩
  · rw [hcopy]
    exact h.length
  · dsimp only
    omega
  · intro b hb
    exact hprintable b (hline ▸ hb)
  · show (⟨_, _⟩ : Vector2D) = ⟨(List.length (List.take _ _) : Int) + 1, _⟩
    rw [hline]
  · show ∀ r ∈ _ ++ _ :: _, _ ∨ _ ∨ _ ∧ _ ≤ (List.length (List.take _ _) : Int) + 1 ∧ _
    rw [hline]
    intro r hr
    rcases List.mem_append.mp hr with hr | hr
    · -- a character
      obtain ⟨d, hd, rfl⟩ := List.mem_map.mp hr
      obtain ⟨hcolumn, hwidth⟩ := hdrawn d hd
      rw [hwidth]
      exact .inr (.inr ⟨by dsimp only; omega, by dsimp only; omega, rfl⟩)
    · rcases List.mem_cons.mp hr with rfl | hr
      · exact .inr (.inl rfl)
      · exact .inl hr

end Terminal

end MikanSaos
