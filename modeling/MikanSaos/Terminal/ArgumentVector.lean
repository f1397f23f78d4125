import MikanSaos.Terminal.CutStrings
import Mathlib.Logic.Function.Basic

/-!
# ArgumentVector — `MakeArgv`

The words are found and ended in place, and each is copied behind the one before it.  Before a copy there is a
test that the word begins inside `argbuf`, and none that it ends there.
-/

namespace MikanSaos

/-- The arrays `argv` and `argbuf`, with the indices that have been written.  A pointer into `argbuf` is its index. -/
structure ArgVector where
  argv : Nat → Nat
  argbuf : Nat → UInt8
  argc : Nat
  argbufIndex : Nat
  argvWrites : List Nat
  argbufWrites : List Nat

namespace ArgVector

/-- `strcpy` copies the NUL as well. -/
def strcpy (argbuf : Nat → UInt8) (start : Nat) (s : List UInt8) : Nat → UInt8 := fun k =>
  if start ≤ k ∧ k ≤ start + s.length then s.getD (k - start) 0 else argbuf k

/-- What `push_to_argv` stores. -/
def store (v : ArgVector) (s : List UInt8) : ArgVector where
  argv := Function.update v.argv v.argc v.argbufIndex
  argbuf := strcpy v.argbuf v.argbufIndex s
  argc := v.argc + 1
  argbufIndex := v.argbufIndex + (s.length + 1)
  argvWrites := v.argc :: v.argvWrites
  argbufWrites := (List.range (s.length + 1)).map (v.argbufIndex + ·) ++ v.argbufWrites

/-- `push_to_argv` -/
def push (argvLen argbufLen : Nat) (v : ArgVector) (s : List UInt8) : Error × ArgVector :=
  if argvLen ≤ v.argc ∨ argbufLen ≤ v.argbufIndex then (.kFull, v) else (.kSuccess, v.store s)

/-- The loop `while (*p != 0 && !isspace(*p)) p++`. -/
def skipWord (s : List UInt8) (i : Nat) : Nat := i + ((s.drop i).takeWhile fun c => c ≠ 0 ∧ ¬ isspace c).length

/-- The loop over the words of `arg`, whose memory is `s`, from index `p` on. -/
def argLoop (argvLen argbufLen : Nat) : Nat → List UInt8 → Nat → ArgVector → Option (Error × ArgVector)
  | 0, _, _, _ => none
  | fuel + 1, s, p, v =>
    let curArg := skipSpaces s p
    if s.getD curArg 0 = 0 then some (.kSuccess, v)
    else
      let p := skipWord s curArg
      -- read before the word is ended
      let isEnd := s.getD p 0 = 0
      let s := s.set p 0
      match push argvLen argbufLen v (stringAt s curArg) with
      | (.kSuccess, v) => if isEnd then some (.kSuccess, v) else argLoop argvLen argbufLen fuel s (p + 1) v
      | (err, v) => some (err, v)

end ArgVector

/-- The arrays before the call. -/
def ArgVector.unset (argv : Nat → Nat) (argbuf : Nat → UInt8) : ArgVector := ⟨argv, argbuf, 0, 0, [], []⟩

/-- `MakeArgv`; `arg` is null or memory with a string, whose length is enough fuel. -/
def makeArgv (argvLen argbufLen : Nat) (command : List UInt8) (arg : Option (List UInt8)) (v : ArgVector) :
    Option (Error × ArgVector) :=
  match v.push argvLen argbufLen command with
  | (.kSuccess, v) =>
    match arg with
    | none => some (.kSuccess, v)
    | some s => ArgVector.argLoop argvLen argbufLen (s.length + 1) s 0 v
  | (err, v) => some (err, v)

/-! ## Words -/

section Words

variable {s w rest : List UInt8} {c : UInt8}

/-- Whitespace ends the words before it. -/
theorem words_append_space (hc : isspace c) (s rest : List UInt8) : words (s ++ c :: rest) = words s ++ words rest := by
  unfold words
  rw [List.splitOnP_append_cons s rest hc, List.filter_append]

theorem words_nil : words [] = [] := by simp [words]

theorem words_dropWhile (s : List UInt8) : words (s.dropWhile isspace) = words s := by
  induction s with
  | nil => rfl
  | cons c s ih =>
    by_cases hc : isspace c
    · have hsplit := words_append_space hc [] s
      rw [List.nil_append, words_nil, List.nil_append] at hsplit
      rw [List.dropWhile_cons_of_pos hc, ih, hsplit]
    · rw [List.dropWhile_cons_of_neg hc]

/-- A word that ends the string. -/
theorem words_word (hne : w ≠ []) (hw : ∀ c ∈ w, ¬ isspace c) : words w = [w] := by
  unfold words
  rw [List.splitOnP_eq_singleton fun c hc => by simpa using hw c hc]
  simp [hne]

/-- A word before whitespace. -/
theorem words_word_cons (hne : w ≠ []) (hw : ∀ c ∈ w, ¬ isspace c) (hc : isspace c) (rest : List UInt8) :
    words (w ++ c :: rest) = w :: words rest := by
  rw [words_append_space hc, words_word hne hw]
  rfl

end Words

namespace ArgVector

variable {argvLen argbufLen fuel p : Nat} {v : ArgVector} {s : List UInt8} {ws : List (List UInt8)}

theorem push_cases (argvLen argbufLen : Nat) (v : ArgVector) (s : List UInt8) :
    v.push argvLen argbufLen s = (.kFull, v) ∨ v.push argvLen argbufLen s = (.kSuccess, v.store s) := by
  unfold push
  split
  · exact .inl rfl
  · exact .inr rfl

def pushWords (argvLen argbufLen : Nat) : List (List UInt8) → ArgVector → Error × ArgVector
  | [], v => (.kSuccess, v)
  | w :: ws, v =>
    match v.push argvLen argbufLen w with
    | (.kSuccess, v) => pushWords argvLen argbufLen ws v
    | (err, v) => (err, v)

theorem takeWhile_word (s : List UInt8) (p : Nat) :
    (s.drop p).takeWhile (fun c => c ≠ 0 ∧ ¬ isspace c) = (stringAt s p).takeWhile (¬ isspace ·) ∧
      (stringAt s p).dropWhile (fun c => c ≠ 0 ∧ ¬ isspace c) = (stringAt s p).dropWhile (¬ isspace ·) := by
  have hne : ∀ c ∈ stringAt s p, decide (c ≠ 0 ∧ ¬ isspace c) = decide (¬ isspace c) := by
    intro c hc
    have hc0 : c ≠ 0 := by simpa using List.mem_takeWhile_imp hc
    simp [hc0]
  have hcString := takeWhile_cString (f := fun c => c ≠ 0 ∧ ¬ isspace c) (by decide) (s.drop p)
  rw [← hcString]
  unfold stringAt at hne ⊢
  revert hne
  generalize cString (s.drop p) = u
  intro hne
  induction u with
  | nil => exact ⟨rfl, rfl⟩
  | cons c u ih =>
    rw [List.forall_mem_cons] at hne
    obtain ⟨htake, hdrop⟩ := ih hne.2
    rw [List.takeWhile_cons, List.takeWhile_cons, List.dropWhile_cons, List.dropWhile_cons, hne.1, htake, hdrop]
    exact ⟨rfl, rfl⟩

theorem stringAt_skipWord (s : List UInt8) (p : Nat) :
    stringAt s (skipWord s p) = (stringAt s p).dropWhile (¬ isspace ·) := by
  rw [← (takeWhile_word s p).2]
  exact stringAt_takeWhile (by decide) s p

/-- The word, once it is ended in place. -/
theorem stringAt_word (s : List UInt8) (p : Nat) :
    stringAt (s.set (skipWord s p) 0) p = (stringAt s p).takeWhile (¬ isspace ·) := by
  have hle : ¬ skipWord s p < p := by
    unfold skipWord
    omega
  have hlength : skipWord s p - p = ((stringAt s p).takeWhile (¬ isspace ·)).length := by
    unfold skipWord
    rw [(takeWhile_word s p).1]
    omega
  rw [stringAt_set, if_neg hle, hlength]
  nth_rewrite 2 [← List.takeWhile_append_dropWhile (p := (¬ isspace ·)) (l := stringAt s p)]
  rw [List.take_left]

/-- **The loop pushes the words of the string.** -/
theorem argLoop_eq (hfuel : (stringAt s p).length < fuel) :
    argLoop argvLen argbufLen fuel s p v = some (pushWords argvLen argbufLen (words (stringAt s p)) v) := by
  induction fuel generalizing s p v with
  | zero => exact absurd hfuel (Nat.not_lt_zero _)
  | succ fuel ih =>
    have hskip := stringAt_skipSpaces s p
    have hword := stringAt_word s (skipSpaces s p)
    have hbehind := stringAt_skipWord s (skipSpaces s p)
    have hle : (stringAt s (skipSpaces s p)).length ≤ (stringAt s p).length := by
      rw [hskip]
      exact (List.dropWhile_sublist _).length_le
    rw [argLoop, ← words_dropWhile, ← hskip]
    dsimp only
    by_cases hnone : stringAt s (skipSpaces s p) = []
    · rw [if_pos (getD_eq_zero_iff.mpr hnone), hnone, words_nil]
      rfl
    rw [if_neg (mt getD_eq_zero_iff.mp hnone), hword]
    -- the word and what is behind it
    have hsplit : (stringAt s (skipSpaces s p)).takeWhile (¬ isspace ·) ++ stringAt s (skipWord s (skipSpaces s p)) =
        stringAt s (skipSpaces s p) := by
      rw [hbehind]
      exact List.takeWhile_append_dropWhile
    have hletters : ∀ c ∈ (stringAt s (skipSpaces s p)).takeWhile (¬ isspace ·), ¬ isspace c :=
      fun c hc => by simpa using List.mem_takeWhile_imp hc
    have hne : (stringAt s (skipSpaces s p)).takeWhile (¬ isspace ·) ≠ [] := by
      cases hu : stringAt s (skipSpaces s p) with
      | nil => exact absurd hu hnone
      | cons c u =>
        have hc := head_of_dropWhile (hskip.symm.trans hu)
        simp [hc]
    generalize (stringAt s (skipSpaces s p)).takeWhile (¬ isspace ·) = w at hsplit hletters hne ⊢
    cases hrest : stringAt s (skipWord s (skipSpaces s p)) with
    | nil =>
      -- the last word
      rw [hrest, List.append_nil] at hsplit
      have hend : s.getD (skipWord s (skipSpaces s p)) 0 = 0 := getD_eq_zero_iff.mpr hrest
      rw [← hsplit, words_word hne hletters, pushWords]
      rcases push_cases argvLen argbufLen v w with hpush | hpush
      · rw [hpush]
      · rw [hpush]
        dsimp only
        rw [if_pos hend]
        rfl
    | cons c rest =>
      have hspace : isspace c = true := by
        have hstop := head_of_dropWhile (hbehind.symm.trans hrest)
        simpa using hstop
      -- the NUL behind the word does not touch what follows it
      have hnext : stringAt (s.set (skipWord s (skipSpaces s p)) 0) (skipWord s (skipSpaces s p) + 1) = rest := by
        rw [stringAt_set, if_pos (Nat.lt_succ_self _)]
        exact stringAt_succ hrest
      have hmore : ¬ s.getD (skipWord s (skipSpaces s p)) 0 = 0 := by
        rw [getD_eq_zero_iff, hrest]
        exact List.cons_ne_nil _ _
      have hlt : rest.length < fuel := by
        rw [hrest] at hsplit
        rw [← hsplit, List.length_append, List.length_cons] at hle
        omega
      rw [← hsplit, hrest, words_word_cons hne hletters hspace, pushWords]
      rcases push_cases argvLen argbufLen v w with hpush | hpush
      · rw [hpush]
      · rw [hpush]
        dsimp only
        rw [if_neg hmore, ih (by rw [hnext]; exact hlt), hnext]

/-- `MakeArgv` pushes the command and the words of the argument string. -/
theorem makeArgv_eq (argvLen argbufLen : Nat) (command : List UInt8) (arg : Option (List UInt8)) (v : ArgVector) :
    makeArgv argvLen argbufLen command arg v =
      some (pushWords argvLen argbufLen (command :: (arg.map fun s => words (cString s)).getD []) v) := by
  unfold makeArgv
  rw [pushWords]
  rcases push_cases argvLen argbufLen v command with hpush | hpush
  · rw [hpush]
  · rw [hpush]
    cases arg with
    | none => rfl
    | some s =>
      have hle : (stringAt s 0).length ≤ s.length := (List.takeWhile_sublist _).length_le
      exact argLoop_eq (Nat.lt_succ_of_le hle)

/-! ## What is pushed -/

/-- The room that strings take with their NULs. -/
def total (ws : List (List UInt8)) : Nat := (ws.map fun w => w.length + 1).sum

/-- The arrays hold the strings `ws`, one behind the other, and nothing else has been written. -/
structure Holds (v : ArgVector) (ws : List (List UInt8)) : Prop where
  argc : v.argc = ws.length
  argbufIndex : v.argbufIndex = total ws
  argvWrites : ∀ i, i ∈ v.argvWrites ↔ i < ws.length
  argbufWrites : ∀ k, k ∈ v.argbufWrites ↔ k < total ws
  argv : ∀ i < ws.length, v.argv i = total (ws.take i)
  argbuf : ∀ i w, ws[i]? = some w → ∀ k ≤ w.length, v.argbuf (total (ws.take i) + k) = w.getD k 0

@[simp] theorem total_nil : total [] = 0 := rfl

theorem total_append (ws ws' : List (List UInt8)) : total (ws ++ ws') = total ws + total ws' := by
  unfold total
  rw [List.map_append, List.sum_append]

theorem total_concat (ws : List (List UInt8)) (w : List UInt8) : total (ws ++ [w]) = total ws + (w.length + 1) := by
  rw [total_append]
  rfl

theorem total_le_of_isPrefix {ws' : List (List UInt8)} (h : ws <+: ws') : total ws ≤ total ws' := by
  obtain ⟨rest, rfl⟩ := h
  rw [total_append]
  exact Nat.le_add_right _ _

theorem length_le_total (ws : List (List UInt8)) : ws.length ≤ total ws := by
  induction ws with
  | nil => exact Nat.le_refl 0
  | cons w ws ih =>
    have hcons : total (w :: ws) = (w.length + 1) + total ws := rfl
    rw [List.length_cons, hcons]
    omega

theorem total_take_succ {i : Nat} {w : List UInt8} (h : ws[i]? = some w) :
    total (ws.take (i + 1)) = total (ws.take i) + (w.length + 1) := by
  rw [List.take_add_one, h]
  exact total_concat _ _

theorem unset_holds (argv : Nat → Nat) (argbuf : Nat → UInt8) : (unset argv argbuf).Holds [] where
  argc := rfl
  argbufIndex := rfl
  argvWrites := fun i => by simp [unset]
  argbufWrites := fun k => by simp [unset]
  argv := fun i hi => absurd hi (Nat.not_lt_zero i)
  argbuf := fun i w h => by simp at h

theorem Holds.store (h : v.Holds ws) (w : List UInt8) : (v.store w).Holds (ws ++ [w]) where
  argc := by
    rw [List.length_append]
    exact congrArg (· + 1) h.argc
  argbufIndex := by
    rw [total_concat, ← h.argbufIndex]
    rfl
  argvWrites := by
    intro i
    show i ∈ v.argc :: v.argvWrites ↔ _
    rw [List.mem_cons, h.argvWrites, h.argc, List.length_append, List.length_singleton]
    omega
  argbufWrites := by
    intro k
    show k ∈ (List.range (w.length + 1)).map (v.argbufIndex + ·) ++ v.argbufWrites ↔ _
    rw [List.mem_append, h.argbufWrites, total_concat, h.argbufIndex, List.mem_map]
    constructor
    · rintro (⟨j, hj, rfl⟩ | hk)
      · have hlt := List.mem_range.mp hj
        omega
      · omega
    · intro hk
      by_cases hold : k < total ws
      · exact .inr hold
      · exact .inl ⟨k - total ws, List.mem_range.mpr (by omega), by omega⟩
  argv := by
    intro i hi
    show Function.update v.argv v.argc v.argbufIndex i = _
    rw [List.length_append, List.length_singleton] at hi
    by_cases hlast : i = ws.length
    · rw [hlast, h.argc, Function.update_self, List.take_left, h.argbufIndex]
    · have hlt : i < ws.length := by omega
      rw [h.argc, Function.update_of_ne hlast, h.argv i hlt, List.take_append_of_le_length hlt.le]
  argbuf := by
    intro i w' hw' k hk
    show strcpy v.argbuf v.argbufIndex w _ = _
    unfold strcpy
    rw [h.argbufIndex]
    by_cases hlast : i = ws.length
    · subst hlast
      rw [List.getElem?_concat_length] at hw'
      cases hw'
      rw [List.take_left, if_pos (by omega), Nat.add_sub_cancel_left]
    · -- the string ends before the new one begins
      have hlt : i < ws.length := by
        have hbound := (List.getElem?_eq_some_iff.mp hw').1
        rw [List.length_append, List.length_singleton] at hbound
        omega
      rw [List.getElem?_append_left hlt] at hw'
      have hend := total_take_succ hw'
      have hle := total_le_of_isPrefix (List.take_prefix (i + 1) ws)
      rw [List.take_append_of_le_length hlt.le, if_neg (by omega)]
      exact h.argbuf i w' hw' k hk

/-- The words `d` have been pushed, each with a slot of `argv` and a place in `argbuf` to begin at, and either they
are all or there is no slot or no place for the next one. -/
structure Pushed (argvLen argbufLen : Nat) (ws d : List (List UInt8)) (run : Error × ArgVector) : Prop where
  holds : run.2.Holds d
  isPrefix : d <+: ws
  room : ∀ i < d.length, i < argvLen ∧ total (d.take i) < argbufLen
  result : run.1 = .kSuccess ∧ d = ws ∨
    run.1 = .kFull ∧ d.length < ws.length ∧ (argvLen ≤ d.length ∨ argbufLen ≤ total d)

theorem pushWords_pushed {d : List (List UInt8)} (h : v.Holds d)
    (hroom : ∀ i < d.length, i < argvLen ∧ total (d.take i) < argbufLen) (ws : List (List UInt8)) :
    ∃ d', Pushed argvLen argbufLen (d ++ ws) d' (pushWords argvLen argbufLen ws v) := by
  induction ws generalizing v d with
  | nil => exact ⟨d, h, List.prefix_append d [], hroom, .inl ⟨rfl, (List.append_nil d).symm⟩⟩
  | cons w ws ih =>
    rw [pushWords]
    by_cases hfull : argvLen ≤ v.argc ∨ argbufLen ≤ v.argbufIndex
    · have hpush : v.push argvLen argbufLen w = (.kFull, v) := if_pos hfull
      rw [h.argc, h.argbufIndex] at hfull
      rw [hpush]
      refine ⟨d, h, List.prefix_append d _, hroom, .inr ⟨rfl, ?_, hfull⟩⟩
      rw [List.length_append, List.length_cons]
      omega
    · have hpush : v.push argvLen argbufLen w = (.kSuccess, v.store w) := if_neg hfull
      rw [h.argc, h.argbufIndex] at hfull
      -- the word has been stored behind `d`
      rw [hpush, List.append_cons]
      apply ih (h.store w)
      intro i hi
      rw [List.length_append, List.length_singleton] at hi
      by_cases hlast : i = d.length
      · rw [hlast, List.take_left]
        omega
      · have hlt : i < d.length := by omega
        rw [List.take_append_of_le_length hlt.le]
        exact hroom i hlt

/-- `argv[i]` points to the string `w`. -/
def Points (v : ArgVector) (i : Nat) (w : List UInt8) : Prop :=
  ∀ k ≤ w.length, v.argbuf (v.argv i + k) = w.getD k 0

theorem Holds.points (h : v.Holds ws) {i : Nat} {w : List UInt8} (hw : ws[i]? = some w) : v.Points i w := by
  have hlt := (List.getElem?_eq_some_iff.mp hw).1
  intro k hk
  rw [h.argv i hlt]
  exact h.argbuf i w hw k hk

/-- What `MakeArgv` is for, with `ws` the strings to be passed. -/
structure Meets (argvLen argbufLen : Nat) (ws : List (List UInt8)) (run : Error × ArgVector) : Prop where
  result : (run.1 = .kSuccess ∧ run.2.argc = ws.length ∧ ∀ i w, ws[i]? = some w → run.2.Points i w) ∨ run.1 = .kFull
  full : run.1 = .kFull ↔ argvLen < ws.length ∨ argbufLen < total ws
  argvWrites : ∀ i ∈ run.2.argvWrites, i < argvLen
  argbufWrites : ∀ k ∈ run.2.argbufWrites, k < argbufLen

/-- A string that has a slot and begins inside `argbuf` ends there. -/
def WordsFit (argvLen argbufLen : Nat) (ws : List (List UInt8)) : Prop :=
  ∀ i < ws.length, i < argvLen → total (ws.take i) < argbufLen → total (ws.take (i + 1)) ≤ argbufLen

theorem Pushed.meets_iff {d : List (List UInt8)} {run : Error × ArgVector}
    (h : Pushed argvLen argbufLen ws d run) : Meets argvLen argbufLen ws run ↔ WordsFit argvLen argbufLen ws := by
  obtain ⟨hholds, hprefix, hroom, hresult⟩ := h
  have hle := hprefix.length_le
  have htake : ∀ i ≤ d.length, ws.take i = d.take i := by
    obtain ⟨rest, rfl⟩ := hprefix
    exact fun i hi => List.take_append_of_le_length hi
  constructor
  · intro hmeets i hi hslot hbegin
    -- the string has been pushed
    have hpushed : i < d.length := by
      by_contra hnot
      have hbefore := total_le_of_isPrefix (List.take_prefix_take_left (l := ws) (Nat.le_of_not_lt hnot))
      rw [htake d.length (Nat.le_refl _), List.take_length] at hbefore
      rcases hresult with ⟨-, rfl⟩ | ⟨-, -, hslots | hplace⟩
      · exact hnot hi
      · omega
      · omega
    have hinside := total_le_of_isPrefix (List.take_prefix (i + 1) d)
    have hlength := length_le_total d
    have hlast := hmeets.argbufWrites (total d - 1) ((hholds.argbufWrites _).mpr (by omega))
    rw [htake (i + 1) hpushed]
    omega
  · intro hfit
    -- the last string pushed ends inside
    have hend : d.length ≤ argvLen ∧ total d ≤ argbufLen := by
      rcases Nat.eq_zero_or_pos d.length with hzero | hpos
      · rw [List.eq_nil_of_length_eq_zero hzero]
        exact ⟨Nat.zero_le _, Nat.zero_le _⟩
      · obtain ⟨hslot, hbegin⟩ := hroom (d.length - 1) (by omega)
        rw [← htake (d.length - 1) (by omega)] at hbegin
        have hfits := hfit (d.length - 1) (by omega) hslot hbegin
        rw [Nat.sub_add_cancel hpos, htake d.length (Nat.le_refl _), List.take_length] at hfits
        exact ⟨by omega, hfits⟩
    refine ⟨?_, ?_, fun i hi => ?_, fun k hk => ?_⟩
    · rcases hresult with ⟨hsuccess, rfl⟩ | ⟨hfull, -⟩
      · exact .inl ⟨hsuccess, hholds.argc, fun i w hw => hholds.points hw⟩
      · exact .inr hfull
    · rcases hresult with ⟨hsuccess, rfl⟩ | ⟨hfull, hmore, hreason⟩
      · rw [hsuccess]
        exact iff_of_false (by decide) (by omega)
      · apply iff_of_true hfull
        -- a string that is left takes a byte at least
        obtain ⟨rest, rfl⟩ := hprefix
        have hrest := length_le_total rest
        rw [total_append]
        rw [List.length_append] at hmore ⊢
        omega
    · have hlt := (hholds.argvWrites i).mp hi
      omega
    · have hlt := (hholds.argbufWrites k).mp hk
      omega

/-- The command and the words of the argument string. -/
def arguments (command : List UInt8) (arg : Option (List UInt8)) : List (List UInt8) :=
  command :: (arg.map fun s => words (cString s)).getD []

/-- **When `MakeArgv` meets its purpose.**  For every command, every argument string and every two capacities:
the call ends, and it passes the words or reports exactly the ones that do not fit, and stays inside both arrays,
exactly if no string begins inside `argbuf` and ends behind it. -/
theorem makeArgv_meets_iff (argvLen argbufLen : Nat) (command : List UInt8) (arg : Option (List UInt8))
    (argv : Nat → Nat) (argbuf : Nat → UInt8) :
    (∃ run, makeArgv argvLen argbufLen command arg (unset argv argbuf) = some run ∧
      Meets argvLen argbufLen (arguments command arg) run) ↔
    WordsFit argvLen argbufLen (arguments command arg) := by
  have hstart : ∀ i < ([] : List (List UInt8)).length, i < argvLen ∧ total (List.take i []) < argbufLen :=
    fun i hi => absurd hi (Nat.not_lt_zero i)
  obtain ⟨d, hpushed⟩ := pushWords_pushed (unset_holds argv argbuf) hstart (arguments command arg)
  rw [List.nil_append] at hpushed
  rw [makeArgv_eq]
  constructor
  · rintro ⟨run, hrun, hmeets⟩
    cases hrun
    exact hpushed.meets_iff.mp hmeets
  · exact fun hfit => ⟨_, rfl, hpushed.meets_iff.mpr hfit⟩

/-- Of `ab` and `cd` with 4 bytes of room, the second string begins at the last byte: two bytes are written behind
the array, and the call reports success. -/
theorem makeArgv_overruns : ∃ run,
    makeArgv 2 4 [0x61, 0x62] (some [0x63, 0x64, 0]) (unset (fun _ => 0) fun _ => 0) = some run ∧
      run.1 = .kSuccess ∧ run.2.argbufWrites = [3, 4, 5, 0, 1, 2] ∧
      ¬ Meets 2 4 (arguments [0x61, 0x62] (some [0x63, 0x64, 0])) run := by
  have hrun : (makeArgv 2 4 [0x61, 0x62] (some [0x63, 0x64, 0]) (unset (fun _ => 0) fun _ => 0)).map
      (fun run => (run.1, run.2.argbufWrites)) = some (.kSuccess, [3, 4, 5, 0, 1, 2]) := by decide +kernel
  obtain ⟨run, hsome, hpair⟩ := Option.map_eq_some_iff.mp hrun
  rw [Prod.mk.injEq] at hpair
  refine ⟨run, hsome, hpair.1, hpair.2, fun hmeets => ?_⟩
  have hinside := hmeets.argbufWrites 5 (by rw [hpair.2]; decide)
  exact absurd hinside (by decide)

end ArgVector

end MikanSaos
