import MikanSaos.FileSystem.Directory
import Mathlib.Data.List.Infix
import Mathlib.Data.List.TakeWhile

/-!
# Printing — `PrintToFD` and `ReadDelim`

Both work on any descriptor.  A descriptor to read from is its function `read`, which reads one byte, on a
state `σ` that it may change; a descriptor to print to is the list of the `Write` calls on it.  The texts of
this program are printed with "%s" or have no conversions, so that the formatted string is known.
-/

namespace MikanSaos

def kNewline : UInt8 := 0x0a

/-- The size of the string `s` of `PrintToFD`. -/
def kPrintBytes : Nat := 128

/-- The bytes of a C string: those before the NUL. -/
def cString (bytes : List UInt8) : List UInt8 := bytes.takeWhile (· ≠ 0)

/-- The `Write` call of `PrintToFD`; it is `none` where the text and its NUL overrun `s`. -/
def printToFD (text : List UInt8) : Option (List UInt8) :=
  if text.length + 1 ≤ kPrintBytes then some text else none

variable {σ : Type} (read : σ → Option (List UInt8 × σ)) (delim : UInt8)

/-- The loop of `ReadDelim`, with room for `n` more bytes: the bytes in the buffer, before the NUL. -/
def readDelimLoop : Nat → σ → Option (List UInt8 × σ)
  | 0, s => some ([], s)
  | n + 1, s => (read s).bind fun
    | ([], s) => some ([], s)
    | (c :: _, s) =>
      if c = delim then some ([c], s)
      else (readDelimLoop n s).map fun (rest, s) => (c :: rest, s)

def readDelim (len : Nat) (s : σ) : Option (List UInt8 × σ) := readDelimLoop read delim (len - 1) s

/-! ## What they do with a stream of bytes -/

theorem cString_zero_cons (bytes : List UInt8) : cString (0 :: bytes) = [] := rfl

theorem cString_cons {b : UInt8} (h : b ≠ 0) (bytes : List UInt8) : cString (b :: bytes) = b :: cString bytes := by
  simp [cString, h]

theorem cString_of_notMem {bytes : List UInt8} (h : 0 ∉ bytes) : cString bytes = bytes := by
  unfold cString
  rw [List.takeWhile_eq_self_iff]
  exact fun b hb => decide_eq_true fun hz => h (hz ▸ hb)

theorem printToFD_of_le {text : List UInt8} (h : text.length + 1 ≤ kPrintBytes) :
    printToFD text = some text := if_pos h

theorem printToFD_eq_some {text text' : List UInt8} (h : printToFD text = some text') :
    text' = text ∧ text.length + 1 ≤ kPrintBytes := by
  unfold printToFD at h
  split at h
  · rename_i hfit
    exact ⟨(Option.some.inj h).symm, hfit⟩
  · cases h

/-- The descriptor in a state with `left content` has the bytes `content` left. -/
def Delivers (left : List UInt8 → σ → Prop) : Prop :=
  ∀ content s, left content s → ∃ s', read s = some (content.take 1, s') ∧ left content.tail s'

/-- The bytes up to the first `delim`, at most `n` of them. -/
def delimited : Nat → List UInt8 → List UInt8
  | 0, _ => []
  | _, [] => []
  | n + 1, c :: content => if c = delim then [c] else c :: delimited n content

variable {read delim} {left : List UInt8 → σ → Prop}

variable (delim) in
theorem delimited_isPrefix (n : Nat) (content : List UInt8) : delimited delim n content <+: content := by
  induction n generalizing content with
  | zero => exact List.nil_prefix
  | succ n ih =>
    cases content with
    | nil => exact List.nil_prefix
    | cons c content =>
      rw [delimited]
      split
      · exact ⟨content, rfl⟩
      · exact List.cons_prefix_cons.mpr ⟨rfl, ih content⟩

variable (delim) in
theorem delimited_length_le (n : Nat) (content : List UInt8) :
    (delimited delim n content).length ≤ n := by
  induction n generalizing content with
  | zero => exact le_rfl
  | succ n ih =>
    cases content with
    | nil => exact Nat.zero_le _
    | cons c content =>
      rw [delimited]
      split
      · exact Nat.succ_le_succ (Nat.zero_le n)
      · exact Nat.succ_le_succ (ih content)

variable (delim) in
/-- The delimiter is nowhere but at the end. -/
theorem delimited_dropLast (n : Nat) (content : List UInt8) :
    delim ∉ (delimited delim n content).dropLast := by
  induction n generalizing content with
  | zero => exact List.not_mem_nil
  | succ n ih =>
    cases content with
    | nil => exact List.not_mem_nil
    | cons c content =>
      rw [delimited]
      split
      · exact List.not_mem_nil
      · rename_i hc
        intro hmem
        cases hrest : delimited delim n content with
        | nil =>
          rw [hrest] at hmem
          exact List.not_mem_nil hmem
        | cons d rest =>
          rw [hrest, List.dropLast_cons_cons] at hmem
          rcases List.mem_cons.mp hmem with he | hmem
          · exact hc he.symm
          · exact ih content (hrest ▸ hmem)

/-- A piece that is shorter than the buffer ends with the delimiter or with the stream. -/
theorem delimited_short {n : Nat} {content : List UInt8} (h : (delimited delim n content).length < n) :
    delimited delim n content = content ∨ (delimited delim n content).getLast? = some delim := by
  induction n generalizing content with
  | zero => cases h
  | succ n ih =>
    cases content with
    | nil => exact .inl rfl
    | cons c content =>
      rw [delimited] at h ⊢
      split at h
      · rename_i hc
        rw [if_pos hc, hc]
        exact .inr rfl
      · rename_i hc
        rw [if_neg hc]
        rcases ih (Nat.lt_of_succ_lt_succ h) with heq | hlast
        · exact .inl (by rw [heq])
        · apply Or.inr
          rw [List.getLast?_cons, hlast]
          rfl

theorem delimited_eq_nil {n : Nat} {content : List UInt8} (hn : 0 < n)
    (h : delimited delim n content = []) : content = [] := by
  obtain ⟨n, rfl⟩ : ∃ k, n = k + 1 := ⟨n - 1, by omega⟩
  cases content with
  | nil => rfl
  | cons c content =>
    rw [delimited] at h
    split at h
    · cases h
    · cases h

variable (delim) in
/-- `ReadDelim` takes one piece of the stream. -/
theorem readDelimLoop_eq (h : Delivers read left) (n : Nat) {content : List UInt8} {s : σ}
    (hs : left content s) : ∃ s', readDelimLoop read delim n s = some (delimited delim n content, s') ∧
      left (content.drop (delimited delim n content).length) s' := by
  induction n generalizing content s with
  | zero => exact ⟨s, rfl, hs⟩
  | succ n ih =>
    obtain ⟨s₁, hread, hs₁⟩ := h content s hs
    rw [readDelimLoop, hread, Option.bind_some]
    cases content with
    | nil => exact ⟨s₁, rfl, hs₁⟩
    | cons c content =>
      rw [delimited]
      by_cases hc : c = delim
      · -- the delimiter ends the piece
        rw [if_pos hc]
        exact ⟨s₁, if_pos hc, hs₁⟩
      · obtain ⟨s', hrest, hs'⟩ := ih hs₁
        rw [if_neg hc]
        refine ⟨s', ?_, hs'⟩
        show (if c = delim then _ else _) = _
        rw [if_neg hc, hrest]
        rfl

end MikanSaos
