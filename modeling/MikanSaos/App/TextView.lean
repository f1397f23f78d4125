import MikanSaos.Terminal.Utf8
import MikanSaos.Word64
import Mathlib.Data.List.Basic

/-!
# TextView — the lines of a file in a window

`tview` maps a file, finds its lines and draws as many as the window has rows.  Keys move the first of them.  Lengths,
the width and the tab are natural numbers; the height is an `int`.
-/

namespace MikanSaos.TextView

def kLf : UInt8 := 10
def kTab : UInt8 := 9
def kBlank : UInt8 := 32

/-! ## The lines -/

/-- The way from a byte to the next LF or to the end. -/
def nextLf (rest : List UInt8) : Nat := rest.findIdx (· = kLf)

/-- `FindLines` from `p` on; `rest` are the bytes from there to the end.  A line is its place and its length. -/
def findLinesFrom (p : Nat) (rest : List UInt8) : List (Nat × Nat) :=
  if nextLf rest < rest.length then
    (p, nextLf rest) :: findLinesFrom (p + nextLf rest + 1) (rest.drop (nextLf rest + 1))
  else if 0 < rest.length then [(p, rest.length)]
  else []
termination_by rest.length
decreasing_by
  rw [List.length_drop]
  omega

def findLines (content : List UInt8) : List (Nat × Nat) := findLinesFrom 0 content

def lineText (content : List UInt8) (line : Nat × Nat) : List UInt8 := (content.drop line.1).take line.2

/-! ## A row -/

/-- The loop of `CopyUTF8String`, with the bytes in `dst` and the place in `src`. -/
def copyLoop (src : Nat → UInt8) (srcEnd dstSize wd tab : Nat) : Nat → Nat → List UInt8 → Nat → Option (List UInt8)
  | 0, _, _, _ => none
  | fuel + 1, pos, dst, wdCount =>
    if src pos = 0 then some dst
    else if src pos = kTab then
      if tab = 0 then none -- the division by zero
      else
        let spaces := tab - wdCount % tab
        if dstSize ≤ dst.length + spaces then some dst
        else copyLoop src srcEnd dstSize wd tab fuel (pos + 1) (dst ++ List.replicate spaces kBlank) (wdCount + spaces)
    else
      let wdCount := if src pos < 0x80 then wdCount + 1 else wdCount + 2
      if wd ≤ wdCount then some dst
      else
        let c := countUTF8Size (src pos)
        if srcEnd < pos + c ∨ dstSize ≤ dst.length + c then some dst
        else
          copyLoop src srcEnd dstSize wd tab fuel (pos + c) (dst ++ (List.range c).map fun k => src (pos + k)) wdCount

/-- `sizeof(buf)` -/
def kBufBytes : Nat := 1024

/-- The string that `DrawLines` writes for a line, before the NUL.  In each round of the loop the place moves, or the
width grows. -/
def rowText (src : Nat → UInt8) (wd tab : Nat) (line : Nat × Nat) : Option (List UInt8) :=
  copyLoop src (line.1 + line.2) kBufBytes wd tab (line.2 + wd + 1) line.1 [] 0

/-- The line in row `i` of `DrawLines` -/
def rowLine (lines : List (Nat × Nat)) (startLine : Int) (i : Nat) : Option (Nat × Nat) :=
  let lineIndex := startLine + i
  if lineIndex < 0 then none else lines[lineIndex.toNat]?

/-! ## The keys -/

/-- `diff` -/
def diffOf (heightRows : Int) (keycode : Nat) : Option Int :=
  if keycode = 75 ∨ keycode = 80 then some ((-heightRows).tdiv 2)
  else if keycode = 78 ∨ keycode = 79 then some (heightRows.tdiv 2)
  else if keycode = 81 then some 1
  else if keycode = 82 then some (-1)
  else none

/-- The first line after a key.  Where `UpdateStartLine` goes on to wait it stays. -/
def updateStartLine (heightRows : Int) (numLines : Nat) (startLine : Int) (keycode : Nat) : Int :=
  if numLines < word64 heightRows then startLine
  else
    match diffOf heightRows keycode with
    | none => startLine
    | some diff =>
      if (diff < 0 ∧ startLine = 0) ∨ (0 < diff ∧ word64 startLine = sub64 numLines (word64 heightRows)) then startLine
      else
        let startLine := int32 (startLine + diff)
        if startLine < 0 then 0
        else if sub64 numLines (word64 heightRows) < word64 startLine then
          int32 (sub64 numLines (word64 heightRows))
        else startLine

/-- The loop of `main`, up to a quit event -/
def pressKeys (heightRows : Int) (numLines : Nat) (startLine : Int) (keycodes : List Nat) : Int :=
  keycodes.foldl (updateStartLine heightRows numLines) startLine

section Lines

variable {content rest : List UInt8}

/-! ## What the lines are -/

/-- The bytes before an LF, the LF and the bytes behind it. -/
theorem nextLf_split (h : nextLf rest < rest.length) :
    rest = rest.take (nextLf rest) ++ kLf :: rest.drop (nextLf rest + 1) := by
  have hlf : rest[nextLf rest] = kLf := of_decide_eq_true (List.findIdx_getElem (w := h))
  conv_lhs => rw [← List.take_append_drop (nextLf rest) rest, List.drop_eq_getElem_cons h, hlf]

theorem notMem_take_nextLf (rest : List UInt8) : kLf ∉ rest.take (nextLf rest) := by
  intro hmem
  obtain ⟨i, hi, heq⟩ := List.mem_take_iff_getElem.mp hmem
  have hi' : i < rest.findIdx (· = kLf) := Nat.lt_of_lt_of_le hi (Nat.min_le_left _ _)
  have hbefore := List.not_of_lt_findIdx hi'
  simp [heq] at hbefore

/-- A text whose last line ends with an LF, too. -/
def withLastLf (text : List UInt8) : List UInt8 :=
  if text = [] ∨ text.getLast? = some kLf then text else text ++ [kLf]

theorem withLastLf_append (line rest : List UInt8) :
    withLastLf (line ++ kLf :: rest) = line ++ kLf :: withLastLf rest := by
  unfold withLastLf
  cases rest with
  | nil => simp
  | cons c rest =>
    have hlast : (line ++ kLf :: c :: rest).getLast? = (c :: rest).getLast? := by
      simp [List.getLast?_append, List.getLast?_cons]
    rw [hlast]
    by_cases hlf : (c :: rest).getLast? = some kLf
    · simp [hlf]
    · simp [hlf]

/-- Where a line ends. -/
def EndsLine (content : List UInt8) (line : Nat × Nat) : Prop :=
  content[line.1 + line.2]? = some kLf ∨ line.1 + line.2 = content.length

theorem findLinesFrom_spec (p : Nat) (hp : p + rest.length = content.length) (hrest : content.drop p = rest) :
    (∀ line ∈ findLinesFrom p rest, kLf ∉ lineText content line ∧ EndsLine content line) ∧
    ((findLinesFrom p rest).map fun line => lineText content line ++ [kLf]).flatten = withLastLf rest := by
  induction hlen : rest.length using Nat.strong_induction_on generalizing rest p with
  | _ len ih =>
    rw [findLinesFrom]
    by_cases hlf : nextLf rest < rest.length
    · rw [if_pos hlf]
      have htext : lineText content (p, nextLf rest) = rest.take (nextLf rest) := by
        unfold lineText
        rw [hrest]
      have hdrop : content.drop (p + nextLf rest + 1) = rest.drop (nextLf rest + 1) := by
        rw [← hrest, List.drop_drop, Nat.add_assoc]
      have hlength : (rest.drop (nextLf rest + 1)).length = rest.length - (nextLf rest + 1) := List.length_drop
      obtain ⟨hlines, hflat⟩ := ih _ (by omega) (p + nextLf rest + 1) (by omega) hdrop rfl
      have hends : EndsLine content (p, nextLf rest) := by
        left
        have hat : content[p + nextLf rest]? = rest[nextLf rest]? := by
          rw [← hrest, List.getElem?_drop]
        rw [hat, List.getElem?_eq_getElem hlf]
        exact congrArg some (of_decide_eq_true (List.findIdx_getElem (w := hlf)))
      constructor
      · intro line hline
        rcases List.mem_cons.mp hline with rfl | hmem
        · rw [htext]
          exact ⟨notMem_take_nextLf rest, hends⟩
        · exact hlines line hmem
      · rw [List.map_cons, List.flatten_cons, hflat, htext]
        conv_rhs => rw [nextLf_split hlf, withLastLf_append]
        rw [List.append_assoc]
        rfl
    · rw [if_neg hlf]
      by_cases hempty : 0 < rest.length
      · rw [if_pos hempty]
        have htext : lineText content (p, rest.length) = rest := by
          unfold lineText
          rw [hrest, List.take_length]
        have hnone : kLf ∉ rest := by
          have hbefore := notMem_take_nextLf rest
          rwa [List.take_of_length_le (by omega)] at hbefore
        constructor
        · intro line hline
          rw [List.mem_singleton] at hline
          rw [hline, htext]
          exact ⟨hnone, .inr hp⟩
        · rw [List.map_singleton, List.flatten_singleton, htext]
          unfold withLastLf
          rw [if_neg]
          rintro (hnil | hlast)
          · rw [hnil] at hempty
            exact absurd hempty (Nat.lt_irrefl 0)
          · exact hnone (List.mem_of_getLast? hlast)
      · rw [if_neg hempty]
        have hnil : rest = [] := List.eq_nil_of_length_eq_zero (by omega)
        rw [hnil]
        exact ⟨fun line hline => absurd hline List.not_mem_nil, rfl⟩

/-- Between them the lines are the whole file. -/
theorem findLines_text (content : List UInt8) :
    ((findLines content).map fun line => lineText content line ++ [kLf]).flatten = withLastLf content :=
  (findLinesFrom_spec 0 (Nat.zero_add _) rfl).2

theorem endsLine_of_mem {line : Nat × Nat} (h : line ∈ findLines content) : EndsLine content line :=
  ((findLinesFrom_spec 0 (Nat.zero_add _) rfl).1 line h).2

theorem findLines_length_le (content : List UInt8) : (findLines content).length ≤ content.length + 1 := by
  have htext := congrArg List.length (findLines_text content)
  have hle : (withLastLf content).length ≤ content.length + 1 := by
    unfold withLastLf
    split <;> simp
  have hlines : ∀ lines : List (Nat × Nat),
      lines.length ≤ ((lines.map fun line => lineText content line ++ [kLf]).flatten).length := by
    intro lines
    induction lines with
    | nil => exact Nat.le_refl 0
    | cons line lines ih =>
      rw [List.map_cons, List.flatten_cons, List.length_append, List.length_append, List.length_singleton,
        List.length_cons]
      omega
  have hfind := hlines (findLines content)
  omega

end Lines

/-! ## The copy of a line -/

section Copy

variable {src src' : Nat → UInt8} {srcEnd dstSize wd tab fuel pos wdCount : Nat} {dst : List UInt8}

/-- The loop ends, leaves room for the NUL, and reads no byte behind the one that ends the line. -/
theorem copyLoop_ends (htab : 0 < tab) (hend : src srcEnd = 0 ∨ src srcEnd = kLf)
    (hsrc : ∀ i ≤ srcEnd, src' i = src i) (hpos : pos ≤ srcEnd) (hdst : dst.length < dstSize)
    (hfuel : srcEnd - pos + (wd - wdCount) < fuel) :
    ∃ out, copyLoop src srcEnd dstSize wd tab fuel pos dst wdCount = some out ∧ out.length < dstSize ∧
      copyLoop src' srcEnd dstSize wd tab fuel pos dst wdCount = some out := by
  induction fuel generalizing pos dst wdCount with
  | zero => exact absurd hfuel (Nat.not_lt_zero _)
  | succ fuel ih =>
    rw [copyLoop, copyLoop, hsrc pos hpos]
    by_cases hnul : src pos = 0
    · rw [if_pos hnul, if_pos hnul]
      exact ⟨dst, rfl, hdst, rfl⟩
    rw [if_neg hnul, if_neg hnul]
    by_cases htabulator : src pos = kTab
    · rw [if_pos htabulator, if_pos htabulator, if_neg (Nat.ne_of_gt htab), if_neg (Nat.ne_of_gt htab)]
      dsimp only
      by_cases hfull : dstSize ≤ dst.length + (tab - wdCount % tab)
      · rw [if_pos hfull, if_pos hfull]
        exact ⟨dst, rfl, hdst, rfl⟩
      · rw [if_neg hfull, if_neg hfull]
        have hne : pos ≠ srcEnd := by
          intro heq
          rw [heq] at htabulator
          rw [htabulator] at hend
          exact absurd hend (by decide)
        apply ih (by omega)
        · rw [List.length_append, List.length_replicate]
          omega
        · omega
    · rw [if_neg htabulator, if_neg htabulator]
      dsimp only
      generalize hwidth : (if src pos < 0x80 then wdCount + 1 else wdCount + 2) = wdCount'
      have hgrows : wdCount < wdCount' := by
        rw [← hwidth]
        split <;> omega
      by_cases hwide : wd ≤ wdCount'
      · rw [if_pos hwide, if_pos hwide]
        exact ⟨dst, rfl, hdst, rfl⟩
      rw [if_neg hwide, if_neg hwide]
      generalize countUTF8Size (src pos) = c
      by_cases hcut : srcEnd < pos + c ∨ dstSize ≤ dst.length + c
      · rw [if_pos hcut, if_pos hcut]
        exact ⟨dst, rfl, hdst, rfl⟩
      · rw [if_neg hcut, if_neg hcut]
        have hbytes : (List.range c).map (fun k => src' (pos + k)) = (List.range c).map fun k => src (pos + k) := by
          apply List.map_congr_left
          intro k hk
          have hlt := List.mem_range.mp hk
          exact hsrc _ (by omega)
        rw [hbytes]
        apply ih (by omega)
        · rw [List.length_append, List.length_map, List.length_range]
          omega
        · omega

end Copy

/-! ## The first line -/

section Keys

variable {height numLines : Nat} {startLine : Int}

/-- A key moves by a page at most. -/
theorem diffOf_bounds {keycode : Nat} {diff : Int} (h : diffOf height keycode = some diff) :
    -(height : Int) - 1 ≤ diff ∧ diff ≤ height + 1 := by
  have hhalf : (height : Int).tdiv 2 = ((height / 2 : Nat) : Int) := by
    rw [Int.tdiv_eq_ediv_of_nonneg (Int.natCast_nonneg _)]
    rfl
  unfold diffOf at h
  rw [Int.neg_tdiv, hhalf] at h
  split at h
  · cases h
    omega
  · split at h
    · cases h
      omega
    · split at h
      · cases h
        omega
      · split at h
        · cases h
          omega
        · cases h

theorem clamp_edge {diff : Int} {last : Nat} (hstart' : startLine ≤ last)
    (hedge : (diff < 0 ∧ startLine = 0) ∨ (0 < diff ∧ startLine.toNat = last)) (hstart : 0 ≤ startLine) :
    startLine = max 0 (min (startLine + diff) last) := by
  rcases hedge with ⟨hd, hs⟩ | ⟨hd, hs⟩
  · rw [max_eq_left (le_trans (min_le_left _ _) (by omega)), hs]
  · have hs' : startLine = last := by omega
    rw [min_eq_right (by omega), max_eq_right (Int.natCast_nonneg _), hs']

/-- The window stays on the file. -/
theorem updateStartLine_eq (keycode : Nat) (hsize : numLines + 1 < 2 ^ 31) (hheight : height ≤ numLines)
    (hstart : 0 ≤ startLine) (hstart' : startLine ≤ ((numLines - height : Nat) : Int)) :
    updateStartLine height numLines startLine keycode =
      match diffOf height keycode with
      | none => startLine
      | some diff => max 0 (min (startLine + diff) ((numLines - height : Nat) : Int)) := by
  have hword : word64 (height : Int) = height := by
    unfold word64
    omega
  have hstartWord : word64 startLine = startLine.toNat := by
    unfold word64
    omega
  have hsub : sub64 numLines height = numLines - height := by
    unfold sub64
    omega
  unfold updateStartLine
  rw [hword, if_neg (by omega), hsub, hstartWord]
  cases hdiff : diffOf height keycode with
  | none => rfl
  | some diff =>
    have hbounds := diffOf_bounds hdiff
    have hint : int32 (startLine + diff) = startLine + diff := by
      unfold int32
      omega
    have hlast : numLines - height < 2 ^ 31 := by omega
    have hmoved : startLine + diff < 2 ^ 32 := by omega
    dsimp only
    rw [hint]
    clear hint hword hsub hstartWord hbounds hsize hheight
    generalize numLines - height = last at *
    by_cases hedge : (diff < 0 ∧ startLine = 0) ∨ (0 < diff ∧ startLine.toNat = last)
    · rw [if_pos hedge]
      exact clamp_edge hstart' hedge hstart
    rw [if_neg hedge]
    clear hedge
    generalize startLine + diff = moved at *
    by_cases hneg : moved < 0
    · rw [if_pos hneg, max_eq_left (le_trans (min_le_left _ _) (Int.le_of_lt hneg))]
    have hword : word64 moved = moved.toNat := by
      unfold word64
      omega
    have hint : int32 (last : Int) = last := by
      unfold int32
      omega
    rw [if_neg hneg, hword, hint]
    by_cases hpast : last < moved.toNat
    · rw [if_pos hpast, min_eq_right (by omega), max_eq_right (Int.natCast_nonneg _)]
    · rw [if_neg hpast, min_eq_left (by omega), max_eq_right (Int.not_lt.mp hneg)]

/-- A window with more rows than the file has lines stays where it is. -/
theorem updateStartLine_short (keycode : Nat) (hshort : numLines < height) (hheight : height < 2 ^ 31) :
    updateStartLine height numLines startLine keycode = startLine := by
  have hword : word64 (height : Int) = height := by
    unfold word64
    omega
  unfold updateStartLine
  rw [hword, if_pos hshort]

/-- The first line in any run. -/
theorem pressKeys_bounds (hsize : numLines + 1 < 2 ^ 31) (hheight : height < 2 ^ 31) (keycodes : List Nat)
    (hstart : 0 ≤ startLine) (hstart' : startLine ≤ ((numLines - height : Nat) : Int)) :
    0 ≤ pressKeys height numLines startLine keycodes ∧
      pressKeys height numLines startLine keycodes ≤ ((numLines - height : Nat) : Int) := by
  unfold pressKeys
  induction keycodes generalizing startLine with
  | nil => exact ⟨hstart, hstart'⟩
  | cons keycode keycodes ih =>
    rw [List.foldl_cons]
    by_cases hshort : numLines < height
    · rw [updateStartLine_short keycode hshort hheight]
      exact ih hstart hstart'
    · rw [updateStartLine_eq keycode hsize (by omega) hstart (by omega)]
      cases diffOf height keycode with
      | none => exact ih hstart hstart'
      | some diff =>
        apply ih
        · dsimp only
          omega
        · dsimp only
          omega

theorem pressKeys_down (hsize : numLines + 1 < 2 ^ 31) (m : Nat) (hstart : 0 ≤ startLine) (hheight : height ≤ numLines)
    (hend : startLine + m ≤ numLines - height) :
    pressKeys height numLines startLine (List.replicate m 81) = startLine + m := by
  unfold pressKeys
  induction m generalizing startLine with
  | zero => simp
  | succ m ih =>
    have hdown : diffOf height 81 = some 1 := rfl
    rw [List.replicate_succ, List.foldl_cons, updateStartLine_eq 81 hsize hheight hstart (by omega), hdown]
    dsimp only
    rw [min_eq_left (by omega), max_eq_right (by omega), ih (by omega) (by omega)]
    omega

theorem pressKeys_up (hsize : numLines + 1 < 2 ^ 31) (m : Nat) (hheight : height ≤ numLines) (hstart : m ≤ startLine)
    (hend : startLine ≤ numLines - height) :
    pressKeys height numLines startLine (List.replicate m 82) = startLine - m := by
  unfold pressKeys
  induction m generalizing startLine with
  | zero => simp
  | succ m ih =>
    have hup : diffOf height 82 = some (-1) := rfl
    rw [List.replicate_succ, List.foldl_cons, updateStartLine_eq 82 hsize hheight (by omega) (by omega), hup]
    dsimp only
    rw [min_eq_left (by omega), max_eq_right (by omega), ih (by omega) (by omega)]
    omega

theorem rowLine_eq (lines : List (Nat × Nat)) (i : Nat) (hstart : 0 ≤ startLine) :
    rowLine lines startLine i = lines[startLine.toNat + i]? := by
  unfold rowLine
  dsimp only
  rw [if_neg (by omega), show (startLine + i).toNat = startLine.toNat + i by omega]

/-- Every line comes into view.  The byte behind the file is a NUL, as in the last page of a mapping. -/
theorem exists_keys (hsize : numLines + 1 < 2 ^ 31) (hpos : 0 < height) (hheight : height < 2 ^ 31)
    (hstart : 0 ≤ startLine) (hstart' : startLine ≤ ((numLines - height : Nat) : Int)) {l : Nat} (hl : l < numLines) :
    ∃ keycodes, ∃ i < height, (pressKeys height numLines startLine keycodes).toNat + i = l := by
  by_cases hshort : numLines < height
  · refine ⟨[], l, by omega, ?_⟩
    show startLine.toNat + l = l
    omega
  by_cases habove : (l : Int) < startLine
  · refine ⟨List.replicate (startLine.toNat - l) 82, 0, hpos, ?_⟩
    rw [pressKeys_up hsize _ (by omega) (by omega) (by omega)]
    omega
  by_cases hbelow : startLine + height ≤ l
  · refine ⟨List.replicate (l + 1 - height - startLine.toNat) 81, height - 1, by omega, ?_⟩
    rw [pressKeys_down hsize _ hstart (by omega) (by omega)]
    omega
  · refine ⟨[], l - startLine.toNat, by omega, ?_⟩
    show startLine.toNat + (l - startLine.toNat) = l
    omega

end Keys

/-! ## The viewer -/

/-- **The viewer shows the file.**  Its lines make up the file.  After any keys each row for which there is a line shows
one, in a string that fits the buffer and depends on no byte behind the line; and every line can be brought into
view.  The byte behind the file is a NUL, as in the last page of a mapping. -/
theorem textView_shows {content : List UInt8} {src : Nat → UInt8} {height tab : Nat}
    (hsrc : ∀ i, content[i]? = if i < content.length then some (src i) else none) (hend : src content.length = 0)
    (hsize : content.length + 2 < 2 ^ 31) (hpos : 0 < height) (hheight : height < 2 ^ 31) (htab : 0 < tab) (wd : Nat)
    (keycodes : List Nat) :
    ((findLines content).map fun line => lineText content line ++ [kLf]).flatten = withLastLf content ∧
    (∀ i < height, i < (findLines content).length → ∃ line text,
      rowLine (findLines content) (pressKeys height (findLines content).length 0 keycodes) i = some line ∧
      rowText src wd tab line = some text ∧ text.length < kBufBytes ∧
      ∀ src' : Nat → UInt8, (∀ k ≤ line.1 + line.2, src' k = src k) → rowText src' wd tab line = some text) ∧
    ∀ l < (findLines content).length, ∃ more, ∃ i < height,
      rowLine (findLines content)
        (pressKeys height (findLines content).length 0 (keycodes ++ more)) i = (findLines content)[l]? := by
  have hnumber := findLines_length_le content
  have hbounds := pressKeys_bounds (show (findLines content).length + 1 < 2 ^ 31 by omega) hheight keycodes
    (Int.le_refl 0) (Int.natCast_nonneg _)
  refine ⟨findLines_text content, fun i hi hline => ?_, fun l hl => ?_⟩
  · have hlt : (pressKeys height (findLines content).length 0 keycodes).toNat + i < (findLines content).length := by
      omega
    refine ⟨(findLines content)[(pressKeys height (findLines content).length 0 keycodes).toNat + i], ?_⟩
    have hmem := List.getElem_mem hlt
    have hrow := rowLine_eq (findLines content) i hbounds.1
    rw [List.getElem?_eq_getElem hlt] at hrow
    generalize (findLines content)[(pressKeys height (findLines content).length 0 keycodes).toNat + i] = line
      at hmem hrow ⊢
    have hstop : src (line.1 + line.2) = 0 ∨ src (line.1 + line.2) = kLf := by
      rcases endsLine_of_mem hmem with hlf | hlast
      · right
        rw [hsrc] at hlf
        split at hlf
        · exact Option.some.inj hlf
        · cases hlf
      · left
        rw [hlast]
        exact hend
    have hcopy (src' : Nat → UInt8) (hsame : ∀ k ≤ line.1 + line.2, src' k = src k) :=
      @copyLoop_ends src src' (line.1 + line.2) kBufBytes wd tab (line.2 + wd + 1) line.1 0 [] htab hstop hsame
        (Nat.le_add_right _ _) (by decide) (by omega)
    obtain ⟨text, htext, hfits, -⟩ := hcopy src fun _ _ => rfl
    refine ⟨text, hrow, htext, hfits, fun src' hsame => ?_⟩
    obtain ⟨text', htext', -, hother⟩ := hcopy src' hsame
    rw [htext] at htext'
    rw [Option.some.inj htext']
    exact hother
  · obtain ⟨more, i, hi, heq⟩ := exists_keys (show (findLines content).length + 1 < 2 ^ 31 by omega) hpos hheight
      hbounds.1 hbounds.2 hl
    refine ⟨more, i, hi, ?_⟩
    have hrun : pressKeys height (findLines content).length 0 (keycodes ++ more) =
        pressKeys height (findLines content).length (pressKeys height (findLines content).length 0 keycodes) more :=
      List.foldl_append
    have hafter := pressKeys_bounds (show (findLines content).length + 1 < 2 ^ 31 by omega) hheight more hbounds.1
      hbounds.2
    rw [hrun, rowLine_eq _ _ hafter.1, heq]

def twoLines : List UInt8 := [0x61, kLf, 0x62]

/-- In a window of one row, after the down key. -/
theorem twoLines_shown :
    ((findLines twoLines).map fun line => lineText twoLines line ++ [kLf]).flatten = [0x61, kLf, 0x62, kLf] := by
  have hsrc (i : Nat) : twoLines[i]? = if i < twoLines.length then some (twoLines.getD i 0) else none := by
    by_cases h : i < twoLines.length
    · rw [if_pos h, List.getD_eq_getElem?_getD, List.getElem?_eq_getElem h]
      rfl
    · rw [if_neg h, List.getElem?_eq_none (Nat.not_lt.mp h)]
  have hshows := @textView_shows twoLines _ 1 8 hsrc rfl (by decide) (by decide) (by decide) (by decide)
    80 [81]
  exact hshows.1.trans (by decide)

end MikanSaos.TextView
