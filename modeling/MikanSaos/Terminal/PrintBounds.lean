import MikanSaos.Terminal.Utf8

/-!
# PrintBounds — the two loops on any bytes

The step of a loop is the length that the first byte of a character claims.  A byte that starts no character
claims none, and a character that is cut off claims bytes behind the end of the string.  `Terminal::Print` tests
a byte before it compares its index with the limit.
-/

namespace MikanSaos

/-- The string ends at index `n`. -/
structure EndsAt (s : Nat → UInt8) (n : Nat) : Prop where
  nul : s n = 0
  before : ∀ i < n, s i ≠ 0

/-- Every round passes a byte at least, and nothing behind the NUL or from the limit on is read or passed. -/
structure TextRun.InBounds {α : Type} (run : TextRun α) (n : Nat) (len : Option Nat) : Prop where
  progress : ∀ bytes ∈ run.consumed, 1 ≤ bytes
  reads : ∀ i ∈ run.reads, i ≤ n ∧ ∀ l ∈ len, i < l
  stop : run.stop ≤ n ∧ ∀ l ∈ len, run.stop ≤ l

/-- From index `i` on, the bytes before index `n` are whole characters, as their first bytes claim. -/
inductive WholeChars (s : Nat → UInt8) (n : Nat) : Nat → Prop
  | nil : WholeChars s n n
  | char (i : Nat) (hstart : 1 ≤ countUTF8Size (s i)) (hend : i + countUTF8Size (s i) ≤ n)
      (hrest : WholeChars s n (i + countUTF8Size (s i))) : WholeChars s n i

variable {s : Nat → UInt8} {len : Option Nat} {n i : Nat} {α : Type} {run : TextRun α} {c : α}

theorem EndsAt.ne_nul_iff (hn : EndsAt s n) (hi : i ≤ n) : s i ≠ 0 ↔ i < n := by
  constructor
  · intro hnul
    rcases Nat.lt_or_eq_of_le hi with hlt | rfl
    · exact hlt
    · exact absurd hn.nul hnul
  · exact hn.before i

/-- A round is in bounds if the character is a whole one and the rest of the run is in bounds. -/
theorem TextRun.inBounds_round_iff (hlen : ∀ l ∈ len, n < l) : (run.round s i c).InBounds n len ↔
    (1 ≤ countUTF8Size (s i) ∧ i + countUTF8Size (s i) ≤ n + 1) ∧ run.InBounds n len := by
  have hconsumed : (run.round s i c).consumed = countUTF8Size (s i) :: run.consumed := by
    rw [TextRun.round, convertUTF8To32_bytes]
    rfl
  have hmem : ∀ k, k ∈ (run.round s i c).reads ↔
      (i ≤ k ∧ k < i + max 1 (countUTF8Size (s i))) ∨ k ∈ run.reads := by
    intro k
    rw [TextRun.round, convertReads, Nat.add_zero]
    simp only [List.mem_cons, List.cons_append, List.mem_append, List.mem_map, List.mem_range]
    constructor
    · rintro (rfl | ⟨k', hk', rfl⟩ | hk)
      · exact .inl (by omega)
      · exact .inl (by omega)
      · exact .inr hk
    · rintro (hk | hk)
      · exact .inr (.inl ⟨k - i, by omega, by omega⟩)
      · exact .inr (.inr hk)
  constructor
  · intro h
    have hpos := h.progress (countUTF8Size (s i)) (hconsumed ▸ List.mem_cons_self)
    refine ⟨⟨hpos, ?_⟩, ⟨fun bytes hbytes => ?_, fun k hk => ?_, h.stop⟩⟩
    · -- the last byte of the character has been read
      have hlast := (h.reads (i + countUTF8Size (s i) - 1) ((hmem _).mpr (.inl (by omega)))).1
      omega
    · exact h.progress bytes (hconsumed ▸ List.mem_cons_of_mem _ hbytes)
    · exact h.reads k ((hmem k).mpr (.inr hk))
  · rintro ⟨⟨hpos, hend⟩, h⟩
    refine ⟨fun bytes hbytes => ?_, fun k hk => ?_, h.stop⟩
    · rw [hconsumed, List.mem_cons] at hbytes
      rcases hbytes with rfl | hbytes
      · exact hpos
      · exact h.progress bytes hbytes
    · rcases (hmem k).mp hk with hk | hk
      · refine ⟨by omega, fun l hl => ?_⟩
        have hlt := hlen l hl
        omega
      · exact h.reads k hk

theorem TextRun.inBounds_done_iff (hlen : ∀ l ∈ len, n < l) : (done i : TextRun α).InBounds n len ↔ i ≤ n := by
  constructor
  · exact fun h => h.stop.1
  · intro hle
    have hlimit : ∀ l ∈ len, i < l := fun l hl => lt_of_le_of_lt hle (hlen l hl)
    refine ⟨fun bytes hbytes => absurd hbytes List.not_mem_nil, fun k hk => ?_, hle, fun l hl => (hlimit l hl).le⟩
    rw [List.mem_singleton.mp hk]
    exact ⟨hle, hlimit⟩

/-! ## A loop over characters -/

/-- A run from index `i` on of a loop that goes on as long as the test holds. -/
inductive LoopRun (s : Nat → UInt8) (test : Nat → Prop) : Nat → TextRun α → Prop
  | done (i : Nat) (hend : ¬ test i) : LoopRun s test i (.done i)
  | round (i : Nat) (c : α) (rest : TextRun α) (htest : test i)
      (hrest : LoopRun s test (i + countUTF8Size (s i)) rest) : LoopRun s test i (rest.round s i c)

section LoopRun

variable {test : Nat → Prop}

theorem LoopRun.reads_start (h : LoopRun s test i run) : i ∈ run.reads := by
  cases h with
  | done => exact List.mem_singleton_self i
  | round => exact List.mem_cons_self

/-- Where the loop ends, it has made its test. -/
theorem LoopRun.stop (h : LoopRun s test i run) : run.stop ∈ run.reads ∧ ¬ test run.stop := by
  induction h with
  | done i hend => exact ⟨List.mem_singleton_self i, hend⟩
  | round i c rest _ _ ih => exact ⟨List.mem_append_right _ ih.1, ih.2⟩

/-- Up to the NUL, a loop is in bounds exactly if it passes whole characters. -/
theorem LoopRun.inBounds_iff (htest : ∀ i ≤ n, test i ↔ i < n) (hlen : ∀ l ∈ len, n < l)
    (h : LoopRun s test i run) : run.InBounds n len ↔ WholeChars s n i := by
  induction h with
  | done i hend =>
    rw [TextRun.inBounds_done_iff hlen]
    constructor
    · intro hle
      have heq : i = n := by
        by_contra hne
        exact hend ((htest i hle).mpr (by omega))
      rw [heq]
      exact .nil
    · intro hwhole
      cases hwhole with
      | nil => exact le_rfl
      | char _ hstart hle => omega
  | round i c rest hgo hrest ih =>
    rw [TextRun.inBounds_round_iff hlen]
    constructor
    · rintro ⟨hchar, hin⟩
      -- the next round reads its first byte, so that the character does not pass the NUL
      have hnext := (hin.reads _ hrest.reads_start).1
      exact .char i hchar.1 hnext (ih.mp hin)
    · intro hwhole
      cases hwhole with
      | nil => exact absurd ((htest n le_rfl).mp hgo) (lt_irrefl n)
      | char _ hstart hle hwhole => exact ⟨⟨hstart, by omega⟩, ih.mpr hwhole⟩

end LoopRun

/-! ## `Terminal::Print` -/

theorem printLoop_run {fuel : Nat} {run : TextRun (BitVec 32)} (h : printLoop s len fuel i = some run) :
    LoopRun s (fun i => s i ≠ 0 ∧ ∀ l ∈ len, i < l) i run := by
  induction fuel generalizing i run with
  | zero => cases h
  | succ fuel ih =>
    rw [printLoop] at h
    split at h
    · rename_i htest
      dsimp only at h
      rw [convertUTF8To32_bytes] at h
      obtain ⟨rest, hrest, rfl⟩ := Option.map_eq_some_iff.mp h
      exact .round i _ rest htest (ih hrest)
    · rename_i htest
      rw [← Option.some.inj h]
      exact .done i htest

/-- Whole characters give the loop an end: the fuel is one for each of them. -/
theorem printLoop_ends (hn : EndsAt s n) (hlen : ∀ l ∈ len, n < l) (h : WholeChars s n i) :
    ∃ fuel run, printLoop s len fuel i = some run := by
  induction h with
  | nil =>
    refine ⟨1, .done n, ?_⟩
    rw [printLoop, if_neg fun h => h.1 hn.nul]
  | char i hstart hend _ ih =>
    obtain ⟨fuel, run, hrun⟩ := ih
    have htest : s i ≠ 0 ∧ ∀ l ∈ len, i < l := by
      refine ⟨hn.before i (by omega), fun l hl => ?_⟩
      have hlt := hlen l hl
      omega
    refine ⟨fuel + 1, ?_⟩
    rw [printLoop, if_pos htest]
    dsimp only
    rw [convertUTF8To32_bytes, Nat.add_zero, hrun]
    exact ⟨_, rfl⟩

/-- With a limit behind the NUL, if any. -/
theorem printLoop_inBounds_iff (hn : EndsAt s n) (hlen : ∀ l ∈ len, n < l) :
    (∃ fuel run, printLoop s len fuel i = some run ∧ run.InBounds n len) ↔ WholeChars s n i := by
  have htest : ∀ i ≤ n, (s i ≠ 0 ∧ ∀ l ∈ len, i < l) ↔ i < n := by
    intro i hi
    rw [hn.ne_nul_iff hi]
    apply and_iff_left_of_imp
    intro hlt l hl
    exact lt_trans hlt (hlen l hl)
  constructor
  · rintro ⟨fuel, run, hrun, hin⟩
    exact ((printLoop_run hrun).inBounds_iff htest hlen).mp hin
  · intro hwhole
    obtain ⟨fuel, run, hrun⟩ := printLoop_ends hn hlen hwhole
    exact ⟨fuel, run, hrun, ((printLoop_run hrun).inBounds_iff htest hlen).mpr hwhole⟩

/-- A limit within the string, or at its NUL, is read at. -/
theorem printLoop_not_inBounds (hn : EndsAt s n) {l : Nat} (hl : l ≤ n) :
    ¬ ∃ fuel run, printLoop s (some l) fuel i = some run ∧ run.InBounds n (some l) := by
  rintro ⟨fuel, run, hrun, hin⟩
  -- the last test is made at an index that has been read, so before the limit and the NUL
  obtain ⟨hread, hend⟩ := (printLoop_run hrun).stop
  have hlt := (hin.reads _ hread).2 l rfl
  apply hend
  refine ⟨hn.before run.stop (by omega), fun l' hl' => ?_⟩
  cases hl'
  exact hlt

/-! ## `WriteString` -/

theorem writeStringLoop_run {fuel posX : Nat} {run : TextRun (Nat × BitVec 32)}
    (h : writeStringLoop s fuel i posX = some run) : LoopRun s (fun i => s i ≠ 0) i run := by
  induction fuel generalizing i posX run with
  | zero => cases h
  | succ fuel ih =>
    rw [writeStringLoop] at h
    split at h
    · rename_i htest
      dsimp only at h
      rw [convertUTF8To32_bytes] at h
      obtain ⟨rest, hrest, rfl⟩ := Option.map_eq_some_iff.mp h
      exact .round i _ rest htest (ih hrest)
    · rename_i htest
      rw [← Option.some.inj h]
      exact .done i htest

/-- The fuel does not depend on the column, which the characters before decide. -/
theorem writeStringLoop_ends (hn : EndsAt s n) (h : WholeChars s n i) :
    ∃ fuel, ∀ posX, ∃ run, writeStringLoop s fuel i posX = some run := by
  induction h with
  | nil =>
    refine ⟨1, fun posX => ⟨.done n, ?_⟩⟩
    rw [writeStringLoop, if_neg (not_not.mpr hn.nul)]
  | char i hstart hend _ ih =>
    obtain ⟨fuel, hrest⟩ := ih
    refine ⟨fuel + 1, fun posX => ?_⟩
    rw [writeStringLoop, if_pos (hn.before i (by omega))]
    dsimp only
    rw [convertUTF8To32_bytes, Nat.add_zero]
    obtain ⟨run, hrun⟩ := hrest _
    rw [hrun]
    exact ⟨_, rfl⟩

theorem writeStringLoop_inBounds_iff (hn : EndsAt s n) (posX : Nat) :
    (∃ fuel run, writeStringLoop s fuel i posX = some run ∧ run.InBounds n none) ↔ WholeChars s n i := by
  have hlen : ∀ l ∈ (none : Option Nat), n < l := fun l hl => by cases hl
  have htest : ∀ i ≤ n, s i ≠ 0 ↔ i < n := fun i hi => hn.ne_nul_iff hi
  constructor
  · rintro ⟨fuel, run, hrun, hin⟩
    exact ((writeStringLoop_run hrun).inBounds_iff htest hlen).mp hin
  · intro hwhole
    obtain ⟨fuel, hends⟩ := writeStringLoop_ends hn hwhole
    obtain ⟨run, hrun⟩ := hends posX
    exact ⟨fuel, run, hrun, ((writeStringLoop_run hrun).inBounds_iff htest hlen).mpr hwhole⟩

/-- **When printing ends within bounds.**  For every string and every limit: `Terminal::Print` ends, makes
progress and stays before the limit and the end of the string exactly if the string consists of whole characters
and the limit, if there is one, is behind its NUL; `WriteString` does exactly if the string consists of whole
characters. -/
theorem printing_inBounds_iff (hn : EndsAt s n) (len : Option Nat) :
    ((∃ fuel run, printLoop s len fuel 0 = some run ∧ run.InBounds n len) ↔
      WholeChars s n 0 ∧ ∀ l ∈ len, n < l) ∧
    ((∃ fuel run, writeStringLoop s fuel 0 0 = some run ∧ run.InBounds n none) ↔ WholeChars s n 0) := by
  refine ⟨?_, writeStringLoop_inBounds_iff hn 0⟩
  -- a limit up to the NUL always fails, whatever the characters are
  by_cases hlen : ∀ l ∈ len, n < l
  · rw [printLoop_inBounds_iff hn hlen]
    exact (and_iff_left hlen).symm
  · apply iff_of_false _ fun h => hlen h.2
    obtain ⟨l, hl, hle⟩ : ∃ l, l ∈ len ∧ ¬ n < l := by
      simpa only [not_forall, exists_prop] using hlen
    cases hl
    exact printLoop_not_inBounds hn (by omega)

/-- Memory that holds some bytes, and zeros behind them. -/
def cBytes (bytes : List UInt8) (i : Nat) : UInt8 := bytes.getD i 0

theorem printing_inBounds_letter : EndsAt (cBytes [0x41]) 1 ∧
    ((∃ fuel run, printLoop (cBytes [0x41]) (some 2) fuel 0 = some run ∧ run.InBounds 1 (some 2)) ↔
      WholeChars (cBytes [0x41]) 1 0 ∧ ∀ l ∈ some 2, 1 < l) ∧ WholeChars (cBytes [0x41]) 1 0 := by
  have hends : EndsAt (cBytes [0x41]) 1 := ⟨by decide, by decide⟩
  exact ⟨hends, (printing_inBounds_iff hends (some 2)).1, .char 0 (by decide) (by decide) .nil⟩

/-- A byte that starts no character stops the loops from making progress; the first of three bytes makes them
pass the NUL behind it; and the byte at the limit is read. -/
theorem printing_leaves_bounds :
    (∀ fuel, printLoop (cBytes [0x80]) none fuel 0 = none ∧ writeStringLoop (cBytes [0x80]) fuel 0 0 = none) ∧
    ((printLoop (cBytes [0xe3]) none 3 0).map fun run => (run.reads, run.stop)) = some ([0, 0, 1, 2, 3], 3) ∧
    ((printLoop (cBytes [0x41, 0x42]) (some 1) 3 0).map fun run => (run.reads, run.stop)) =
      some ([0, 0, 1], 1) := by
  refine ⟨fun fuel => ?_, by decide, by decide⟩
  -- a round leaves the index where it is
  have hprint : ∀ fuel, printLoop (cBytes [0x80]) none fuel 0 = none := by
    intro fuel
    induction fuel with
    | zero => rfl
    | succ fuel ih =>
      show Option.map _ (printLoop (cBytes [0x80]) none fuel 0) = none
      rw [ih]
      rfl
  have hwrite : ∀ fuel posX, writeStringLoop (cBytes [0x80]) fuel 0 posX = none := by
    intro fuel
    induction fuel with
    | zero => exact fun _ => rfl
    | succ fuel ih =>
      intro posX
      show Option.map _ (writeStringLoop (cBytes [0x80]) fuel 0 _) = none
      rw [ih]
      rfl
  exact ⟨hprint fuel, hwrite fuel 0⟩

end MikanSaos
