import MikanSaos.Terminal.CommandLine

/-!
# LineSplitting — the parts that come out right

A string of the cut line is compared with its part.  The cuts at `>` and `|` fall between the parts; the cut at the
first space falls into one of them, and everything depends on which one it is.
-/

namespace MikanSaos

variable {linebuf : List UInt8} {l : CommandLine}

/-! ## The buffers -/

section Buffers

variable {t part : List UInt8}

theorem spaceCut_cutAt (ht : cString linebuf = t) : CutAt t [kBlank] (spaceCut linebuf) := (CutAt.nil ht).cut ht kBlank

theorem redirectCut_cutAt (ht : cString linebuf = t) : CutAt t [kRedirect, kBlank] (redirectCut linebuf) :=
  (spaceCut_cutAt ht).cut ht kRedirect

theorem pipeCut_cutAt (ht : cString linebuf = t) : CutAt t [kPipe, kRedirect, kBlank] (pipeCut linebuf) :=
  (redirectCut_cutAt ht).cut ht kPipe

/-- Within a part, the line can only be cut at a space. -/
theorem PartText.blank (h : PartText part) : ∀ c ∈ part, c ∈ [kPipe, kRedirect, kBlank] → c = kBlank := by
  intro c hc hcs
  simp only [List.mem_cons, List.not_mem_nil, or_false] at hcs
  rcases hcs with rfl | rfl | rfl
  · exact absurd rfl (h _ hc).2.2
  · exact absurd rfl (h _ hc).2.1
  · rfl

theorem LineTail.text_head (tail : LineTail) : ∀ c ∈ tail.text.head?, c = kRedirect ∨ c = kPipe := by
  intro c hc
  cases tail with
  | none => cases hc
  | redirect r | redirectPipe r sub => exact .inl (Option.some.inj hc).symm
  | pipe sub | pipeRedirect sub r => exact .inr (Option.some.inj hc).symm

end Buffers

/-! ## The command and its argument -/

section Command

variable {s x w part pre rest t : List UInt8}

theorem isspace_blank : isspace kBlank = true := by decide

theorem blank_takeWhile (h : ∀ c ∈ s.takeWhile (· ≠ kBlank), ¬ isspace c) :
    s.takeWhile (· ≠ kBlank) = s.takeWhile (¬ isspace ·) ∧ s.dropWhile (· ≠ kBlank) = s.dropWhile (¬ isspace ·) := by
  induction s with
  | nil => exact ⟨rfl, rfl⟩
  | cons b s ih =>
    by_cases hb : b = kBlank
    · subst hb
      simp [isspace_blank]
    · have hcons : (b :: s).takeWhile (· ≠ kBlank) = b :: s.takeWhile (· ≠ kBlank) := by simp [hb]
      rw [hcons, List.forall_mem_cons] at h
      obtain ⟨htake, hdrop⟩ := ih h.2
      have hspace : isspace b = false := by simpa using h.1
      simp only [List.takeWhile_cons, List.dropWhile_cons, hb, hspace, ne_eq, not_false_eq_true, decide_true, if_true,
        Bool.false_eq_true]
      exact ⟨congrArg (b :: ·) htake, hdrop⟩

/-- The whole part is whitespace, or a word begins it. -/
theorem WordEnds.cases (h : WordEnds s) :
    (s.takeWhile (· ≠ kBlank) = [] ∧ s.dropWhile (· ≠ kBlank) = s ∧ s.dropWhile isspace = []) ∨
      s.dropWhile isspace = s := by
  cases s with
  | nil => exact .inr rfl
  | cons b s =>
    by_cases hb : b = kBlank
    · subst hb
      have hall := h.leading rfl
      refine .inl ⟨by simp, by simp, List.dropWhile_eq_nil_iff.mpr hall⟩
    · have hspace : ¬ isspace b := h.blank b (by simp [hb])
      exact .inr (by simp [hspace])

theorem command_iff (l : CommandLine) : l.command.takeWhile (· ≠ kBlank) = l.word ↔ WordEnds l.command := by
  unfold CommandLine.word
  constructor
  · intro heq
    refine ⟨fun c hc => ?_, fun hhead c hc => ?_⟩
    · rw [heq] at hc
      simpa using List.mem_takeWhile_imp hc
    · -- the string of the command is empty, and so is the first word
      have hnil : l.command.takeWhile (· ≠ kBlank) = [] := by
        cases hl : l.command with
        | nil => rfl
        | cons b s =>
          rw [hl] at hhead
          cases Option.some.inj hhead
          simp
      rw [hnil] at heq
      have hdrop : l.command.dropWhile isspace = [] := by
        cases hl : l.command.dropWhile isspace with
        | nil => rfl
        | cons b s =>
          have hfirst := head_of_dropWhile hl
          rw [hl] at heq
          simp [hfirst] at heq
      exact List.dropWhile_eq_nil_iff.mp hdrop c hc
  · intro h
    rcases h.cases with ⟨htake, -, hdrop⟩ | hdrop
    · rw [htake, hdrop]
      rfl
    · rw [hdrop]
      exact (blank_takeWhile h.blank).1

theorem remaining_eq (l : CommandLine) (h : WordEnds l.command) :
    l.remaining = (l.command.dropWhile (· ≠ kBlank)).dropWhile isspace := by
  unfold CommandLine.remaining
  rcases h.cases with ⟨-, hblank, hdrop⟩ | hdrop
  · rw [hdrop, hblank, hdrop]
    rfl
  · rw [hdrop, (blank_takeWhile h.blank).2]

/-- `ExecuteLine` takes the characters before the first space for the command. -/
theorem bufferStrings_command (ht : cString linebuf = l.text) (hcommand : PartText l.command) :
    (bufferStrings linebuf).command = l.command.takeWhile (· ≠ kBlank) := by
  have hhead : ∀ c ∈ l.tail.text.head?, c ∈ [kPipe, kRedirect, kBlank] ∧ c ∉ ([] : List UInt8) := by
    intro c hc
    refine ⟨?_, List.not_mem_nil⟩
    rcases l.tail.text_head c hc with rfl | rfl <;> decide
  -- the command is the first part of the line
  have htext : l.text = [] ++ (l.command ++ l.tail.text) := rfl
  have hblank : kBlank ∈ [kPipe, kRedirect, kBlank] := by decide
  have hstring := (pipeCut_cutAt ht).stringAt_part htext hhead hblank fun c hc hcs _ => hcommand.blank c hc hcs
  rw [if_neg List.not_mem_nil] at hstring
  exact hstring

end Command

/-! ## The file of the redirection -/

section Redirect

variable {x sub rest t : List UInt8} {r : RedirectPart}

/-- The path ends at the first space of the line, if this comes behind `>`; nothing else ends it. -/
theorem bufferStrings_redirDest (ht : cString linebuf = x ++ kRedirect :: (r.text ++ rest)) (hx : kRedirect ∉ x) :
    (bufferStrings linebuf).redirDest = some ((if kBlank ∈ x then r.text ++ rest
      else (r.text ++ rest).takeWhile (· ≠ kBlank)).dropWhile isspace) := by
  have hpre : x ++ kRedirect :: (r.text ++ rest) = (x ++ [kRedirect]) ++ ((r.text ++ rest) ++ []) := by simp
  have hblank : kBlank ∈ x ++ [kRedirect] ↔ kBlank ∈ x := by
    rw [List.mem_append, or_iff_left]
    decide
  -- the sign itself comes before the path
  have hstring : stringAt (redirectCut linebuf) (x ++ [kRedirect]).length =
      if kBlank ∈ x ++ [kRedirect] then r.text ++ rest else (r.text ++ rest).takeWhile (· ≠ kBlank) := by
    apply (redirectCut_cutAt ht).stringAt_part hpre (fun c hc => nomatch hc) (by decide)
    intro c _ hcs hc
    rcases List.mem_cons.mp hcs with rfl | hcs
    · exact absurd (List.mem_append_right _ List.mem_cons_self) hc
    · exact List.mem_singleton.mp hcs
  rw [List.length_append, List.length_singleton] at hstring
  show (strchr linebuf kRedirect).map _ = _
  rw [strchr_eq ht hx, Option.map_some, stringAt_skipSpaces, hstring]
  simp only [hblank]

/-- The path is the word exactly if the text behind `>` ends with it. -/
theorem redirDest_iff (h : r.WellFormed) : ((if kBlank ∈ x then r.text ++ rest
      else (r.text ++ rest).takeWhile (· ≠ kBlank)).dropWhile isspace) = r.file ↔ r.Ends x rest := by
  obtain ⟨hword, hfile⟩ := h.word
  have hfirst : ∀ c ∈ r.file.head?, isspace c = false := by
    intro c hc
    simpa using hfile c (List.mem_of_mem_head? hc)
  have hbefore : ∀ s, (r.before ++ (r.file ++ s)).dropWhile isspace = r.file ++ s := by
    intro s
    rw [List.dropWhile_append_of_pos h.before]
    cases hf : r.file with
    | nil => exact absurd hf hword
    | cons c file =>
      have hc : isspace c = false := hfirst c (by rw [hf]; rfl)
      simp [hc]
  unfold RedirectPart.Ends RedirectPart.text
  rw [List.append_assoc, List.append_assoc]
  split
  · -- the first space is not in the path, which goes on to the end of the line
    rw [hbefore, List.append_right_eq_self]
  · by_cases hblank : kBlank ∈ r.before
    · -- nothing is left between `>` and the NUL
      have hnil : (r.before.takeWhile (· ≠ kBlank)).dropWhile isspace = [] :=
        List.dropWhile_eq_nil_iff.mpr fun c hc => h.before c ((List.takeWhile_sublist _).mem hc)
      rw [takeWhile_ne_append_of_mem hblank, hnil]
      exact iff_of_false (Ne.symm hword) fun hends => hends.1 hblank
    · have hfree : kBlank ∉ r.file := fun hmem => hfile _ hmem isspace_blank
      rw [takeWhile_ne_append hblank, takeWhile_ne_append hfree, hbefore, List.append_right_eq_self,
        takeWhile_ne_eq_nil]
      exact (and_iff_right hblank).symm

end Redirect

/-! ## The command of the subtask -/

section Pipe

variable {x sub rest t s s' : List UInt8}

theorem bufferStrings_subcommand (ht : cString linebuf = x ++ kPipe :: (sub ++ rest)) (hx : kPipe ∉ x)
    (hsub : PartText sub) (hrest : ∀ c ∈ rest.head?, c = kRedirect ∧ kRedirect ∉ x) :
    (bufferStrings linebuf).subcommand =
      some ((if kBlank ∈ x then sub else sub.takeWhile (· ≠ kBlank)).dropWhile isspace) := by
  have hpre : x ++ kPipe :: (sub ++ rest) = (x ++ [kPipe]) ++ (sub ++ rest) := by simp
  have hblank : kBlank ∈ x ++ [kPipe] ↔ kBlank ∈ x := by
    rw [List.mem_append, or_iff_left]
    decide
  have hhead : ∀ c ∈ rest.head?, c ∈ [kPipe, kRedirect, kBlank] ∧ c ∉ x ++ [kPipe] := by
    intro c hc
    obtain ⟨rfl, hfree⟩ := hrest c hc
    refine ⟨by decide, fun hmem => ?_⟩
    rcases List.mem_append.mp hmem with hmem | hmem
    · exact hfree hmem
    · exact absurd hmem (by decide)
  have hstring : stringAt (pipeCut linebuf) (x ++ [kPipe]).length =
      if kBlank ∈ x ++ [kPipe] then sub else sub.takeWhile (· ≠ kBlank) :=
    (pipeCut_cutAt ht).stringAt_part hpre hhead (by decide) fun c hc hcs _ => hsub.blank c hc hcs
  rw [List.length_append, List.length_singleton] at hstring
  show (strchr linebuf kPipe).map _ = _
  rw [strchr_eq ht hx, Option.map_some, stringAt_skipSpaces, hstring]
  simp only [hblank]

theorem filter_dropWhile (s : List UInt8) :
    (s.dropWhile isspace).filter (¬ isspace ·) = s.filter (¬ isspace ·) := by
  nth_rewrite 2 [← List.takeWhile_append_dropWhile (p := isspace) (l := s)]
  have hnone : (s.takeWhile isspace).filter (¬ isspace ·) = [] := by
    rw [List.filter_eq_nil_iff]
    intro c hc
    simpa using List.mem_takeWhile_imp hc
  rw [List.filter_append, hnone, List.nil_append]

/-- Trimmed text keeps the characters that are not whitespace. -/
theorem filter_trimmed (s : List UInt8) :
    ((s.dropWhile isspace).rdropWhile isspace).filter (¬ isspace ·) = s.filter (¬ isspace ·) := by
  unfold List.rdropWhile
  rw [List.filter_reverse, filter_dropWhile, List.filter_reverse, List.reverse_reverse, filter_dropWhile]

theorem rdropWhile_append_of_pos (h : ∀ c ∈ s', isspace c) :
    (s ++ s').rdropWhile isspace = s.rdropWhile isspace := by
  unfold List.rdropWhile
  rw [List.reverse_append, List.dropWhile_append_of_pos]
  exact fun c hc => h c (List.mem_reverse.mp hc)

/-- Whitespace at the end does not matter to a trimmed text, and anything else does. -/
theorem trimmed_append_iff : (s.dropWhile isspace).rdropWhile isspace =
    ((s ++ s').dropWhile isspace).rdropWhile isspace ↔ ∀ c ∈ s', isspace c := by
  constructor
  · -- trimming does not change the number of other characters
    intro heq
    have hfilter := congrArg (List.filter (¬ isspace ·)) heq
    rw [filter_trimmed, filter_trimmed, List.filter_append, List.self_eq_append_right,
      List.filter_eq_nil_iff] at hfilter
    intro c hc
    simpa using hfilter c hc
  · intro hspace
    rw [List.dropWhile_append]
    split
    · rename_i hempty
      rw [List.isEmpty_iff.mp hempty, List.dropWhile_eq_nil_iff.mpr hspace]
    · rw [rdropWhile_append_of_pos hspace]

/-- The subtask gets its command exactly if the first space of the line does not come between two words of it. -/
theorem subcommand_iff : ((if kBlank ∈ x then sub else sub.takeWhile (· ≠ kBlank)).dropWhile isspace).rdropWhile
      isspace = (sub.dropWhile isspace).rdropWhile isspace ↔ PipeEnds x sub := by
  unfold PipeEnds
  split
  · rename_i hx
    exact iff_of_true rfl (.inl hx)
  · rename_i hx
    rw [or_iff_right hx]
    nth_rewrite 2 [← List.takeWhile_append_dropWhile (p := (· ≠ kBlank)) (l := sub)]
    exact trimmed_append_iff

end Pipe

/-! ## The argument -/

section Argument

variable {x y w part rest sub : List UInt8} {r : RedirectPart}

/-- The argument begins behind the first space and the whitespace that follows it. -/
theorem skipSpaces_spaceCut (ht : cString linebuf = x ++ kBlank :: (w ++ rest)) (hw : ∀ c ∈ w, isspace c)
    (hfirst : ∀ c ∈ rest.head?, isspace c = false) :
    skipSpaces (spaceCut linebuf) (x.length + 1) = (x ++ kBlank :: w).length := by
  have hpre : x ++ kBlank :: (w ++ rest) = (x ++ [kBlank]) ++ ((w ++ rest) ++ []) := by simp
  have hstring : stringAt (spaceCut linebuf) (x ++ [kBlank]).length =
      if kBlank ∈ x ++ [kBlank] then w ++ rest else (w ++ rest).takeWhile (· ≠ kBlank) :=
    (spaceCut_cutAt ht).stringAt_part hpre (fun c hc => nomatch hc) (by decide)
      fun c _ hcs _ => List.mem_singleton.mp hcs
  rw [if_pos (List.mem_append_right _ List.mem_cons_self), List.length_append, List.length_singleton] at hstring
  have hspaces : (w ++ rest).takeWhile isspace = w := by
    rw [takeWhile_append_of_head hfirst, List.takeWhile_eq_self_iff]
    exact hw
  have htake := takeWhile_cString isspace_zero ((spaceCut linebuf).drop (x.length + 1))
  unfold stringAt at hstring
  rw [hstring, hspaces] at htake
  unfold skipSpaces
  rw [← htake, List.length_append, List.length_cons]
  omega

theorem bufferStrings_arg (ht : cString linebuf = x ++ kBlank :: (w ++ (part ++ rest))) (hx : kBlank ∉ x)
    (hw : ∀ c ∈ w, isspace c) (hpart : PartText part) (hfirst : ∀ c ∈ (part ++ rest).head?, isspace c = false)
    (hrest : ∀ c ∈ rest.head?, (c = kRedirect ∨ c = kPipe) ∧ c ∉ x) :
    (bufferStrings linebuf).arg = some part := by
  have hpre : x ++ kBlank :: (w ++ (part ++ rest)) = (x ++ kBlank :: w) ++ (part ++ rest) := by simp
  have hhead : ∀ c ∈ rest.head?, c ∈ [kPipe, kRedirect, kBlank] ∧ c ∉ x ++ kBlank :: w := by
    intro c hc
    obtain ⟨hseparator, hfree⟩ := hrest c hc
    have hspace := isspace_separator hseparator
    constructor
    · rcases hseparator with rfl | rfl <;> decide
    · intro hmem
      rcases List.mem_append.mp hmem with hmem | hmem
      · exact hfree hmem
      rcases List.mem_cons.mp hmem with rfl | hmem
      · cases hspace
      · rw [hw c hmem] at hspace
        cases hspace
  have hstring : stringAt (pipeCut linebuf) (x ++ kBlank :: w).length =
      if kBlank ∈ x ++ kBlank :: w then part else part.takeWhile (· ≠ kBlank) :=
    (pipeCut_cutAt ht).stringAt_part hpre hhead (by decide) fun c hc hcs _ => hpart.blank c hc hcs
  rw [if_pos (List.mem_append_right _ List.mem_cons_self)] at hstring
  show (strchr linebuf kBlank).map _ = _
  rw [strchr_eq ht hx, Option.map_some, skipSpaces_spaceCut ht hw hfirst, hstring]

theorem bufferStrings_arg_none (h : kBlank ∉ cString linebuf) : (bufferStrings linebuf).arg = none := by
  show (strchr linebuf kBlank).map _ = none
  rw [strchr_of_notMem h, Option.map_none]

/-- No argument is left if whitespace goes from the first space to a separator that is cut, or to the end. -/
theorem bufferStrings_arg_empty (ht : cString linebuf = x ++ kBlank :: (w ++ rest)) (hx : kBlank ∉ x)
    (hw : ∀ c ∈ w, isspace c) (hrest : ∀ c ∈ rest.head?, (c = kRedirect ∨ c = kPipe) ∧ c ∉ x) :
    (bufferStrings linebuf).arg = some [] :=
  bufferStrings_arg ht hx hw (fun _ hc => absurd hc List.not_mem_nil)
    (fun c hc => isspace_separator (hrest c hc).1) hrest

theorem arg_behind_file (ht : cString linebuf = y ++ (r.text ++ rest)) (hy : kBlank ∉ y) (hr : r.WellFormed)
    (hends : kBlank ∉ r.before ∧ ∀ c ∈ (r.after ++ rest).head?, c = kBlank)
    (hrest : ∀ c ∈ rest.head?, c = kPipe ∧ c ∉ y) : (bufferStrings linebuf).arg.getD [] = [] := by
  have hbefore : kBlank ∉ y ++ (r.before ++ r.file) := by
    simp only [List.mem_append, not_or]
    exact ⟨hy, hends.1, fun hmem => hr.word.2 _ hmem isspace_blank⟩
  cases hafter : r.after with
  | nil =>
    -- the file ends the line, which has no space
    have hnil : rest = [] := by
      cases hrest' : rest with
      | nil => rfl
      | cons c rest' =>
        rw [hrest'] at hrest hends
        rw [hafter] at hends
        have hblank : c = kBlank := hends.2 c rfl
        exact absurd (hblank.symm.trans (hrest c rfl).1) (by decide)
    rw [bufferStrings_arg_none]
    · rfl
    · rw [ht, hnil, RedirectPart.text, hafter, List.append_nil, List.append_nil]
      exact hbefore
  | cons b after =>
    -- the first space is the one behind the file, and nothing but whitespace follows it
    rw [hafter] at hends
    have hb : b = kBlank := hends.2 b rfl
    subst hb
    have htext : cString linebuf = (y ++ (r.before ++ r.file)) ++ kBlank :: (after ++ rest) := by
      rw [ht, RedirectPart.text, hafter]
      simp
    have hspace : ∀ c ∈ after, isspace c := fun c hc => hr.after c (by rw [hafter]; exact List.mem_cons_of_mem _ hc)
    rw [bufferStrings_arg_empty htext hbefore hspace]
    · rfl
    · intro c hc
      obtain ⟨hpipe, hfree⟩ := hrest c hc
      refine ⟨.inr hpipe, fun hmem => ?_⟩
      rcases List.mem_append.mp hmem with hmem | hmem
      · exact hfree hmem
      · exact hr.free (.inr hpipe) (List.mem_append_left _ hmem)

theorem arg_in_subcommand (ht : cString linebuf = y ++ (sub ++ rest)) (hy : kBlank ∉ y) (hsub : PartText sub)
    (hblank : kBlank ∈ sub) (hends : ∀ c ∈ sub.dropWhile (· ≠ kBlank), isspace c)
    (hrest : ∀ c ∈ rest.head?, c = kRedirect ∧ c ∉ y) : (bufferStrings linebuf).arg.getD [] = [] := by
  obtain ⟨s, s', rfl, hs⟩ := List.eq_append_cons_of_mem hblank
  rw [dropWhile_ne_append hs, List.forall_mem_cons] at hends
  have htext : cString linebuf = (y ++ s) ++ kBlank :: (s' ++ rest) := by
    rw [ht]
    simp
  rw [bufferStrings_arg_empty htext (by simp [hy, hs]) hends.2]
  · rfl
  · intro c hc
    obtain ⟨hredirect, hfree⟩ := hrest c hc
    refine ⟨.inl hredirect, fun hmem => ?_⟩
    rcases List.mem_append.mp hmem with hmem | hmem
    · exact hfree hmem
    · exact hsub.free (.inl hredirect) (List.mem_append_left _ hmem)

theorem arg_in_command (hcommand : PartText l.command) (ht : cString linebuf = l.text) (hblank : kBlank ∈ l.command) :
    (bufferStrings linebuf).arg.getD [] = (l.command.dropWhile (· ≠ kBlank)).dropWhile isspace := by
  obtain ⟨s, s', hs, hfree⟩ := List.eq_append_cons_of_mem hblank
  have htext : cString linebuf =
      s ++ kBlank :: (s'.takeWhile isspace ++ (s'.dropWhile isspace ++ l.tail.text)) := by
    rw [ht, CommandLine.text, hs, ← List.append_assoc (s'.takeWhile isspace), List.takeWhile_append_dropWhile]
    simp
  rw [hs] at hcommand
  have hpart : PartText (s'.dropWhile isspace) := fun c hc =>
    hcommand c (List.mem_append_right _ (List.mem_cons_of_mem _ ((List.dropWhile_sublist _).mem hc)))
  -- the argument begins at a word, or at the separator if there is none
  have hfirst : ∀ c ∈ (s'.dropWhile isspace ++ l.tail.text).head?, isspace c = false := by
    intro c hc
    cases hdrop : s'.dropWhile isspace with
    | nil =>
      rw [hdrop] at hc
      exact isspace_separator (l.tail.text_head c hc)
    | cons b rest =>
      rw [hdrop] at hc
      cases Option.some.inj hc
      exact head_of_dropWhile hdrop
  have harg := bufferStrings_arg htext hfree (fun c hc => List.mem_takeWhile_imp hc) hpart hfirst fun c hc =>
    ⟨l.tail.text_head c hc, fun hmem => hcommand.free (l.tail.text_head c hc) (List.mem_append_left _ hmem)⟩
  rw [harg, hs, dropWhile_ne_append hfree, List.dropWhile_cons_of_pos isspace_blank]
  rfl

theorem arg_behind_command (hwf : l.WellFormed) (hends : l.tail.Ends l.command) (ht : cString linebuf = l.text)
    (hblank : kBlank ∉ l.command) : (bufferStrings linebuf).arg.getD [] = [] := by
  obtain ⟨command, tail⟩ := l
  obtain ⟨hcommand, hredirect, hpipe⟩ := hwf
  have hsign : kBlank ≠ kRedirect ∧ kBlank ≠ kPipe := by decide
  dsimp only at hcommand hredirect hpipe hends hblank
  cases tail with
  | none =>
    rw [bufferStrings_arg_none]
    · rfl
    · rw [ht, CommandLine.text, LineTail.text, List.append_nil]
      exact hblank
  | redirect r =>
    have htext : cString linebuf = (command ++ [kRedirect]) ++ (r.text ++ []) := by
      rw [ht]
      simp [CommandLine.text, LineTail.text]
    have hy : kBlank ∉ command ++ [kRedirect] := by simp [hblank, hsign]
    rw [LineTail.Ends, RedirectPart.Ends, if_neg hblank] at hends
    exact arg_behind_file htext hy (hredirect r rfl) hends fun c hc => nomatch hc
  | pipe sub =>
    have htext : cString linebuf = (command ++ [kPipe]) ++ (sub ++ []) := by
      rw [ht]
      simp [CommandLine.text, LineTail.text]
    have hy : kBlank ∉ command ++ [kPipe] := by simp [hblank, hsign]
    by_cases hsub : kBlank ∈ sub
    · exact arg_in_subcommand htext hy (hpipe sub rfl) hsub (hends.resolve_left hblank) fun c hc => nomatch hc
    · rw [bufferStrings_arg_none (by rw [htext]; simp [hblank, hsign, hsub])]
      rfl
  | redirectPipe r sub =>
    have htext : cString linebuf = (command ++ [kRedirect]) ++ (r.text ++ kPipe :: sub) := by
      rw [ht]
      simp [CommandLine.text, LineTail.text]
    have hy : kBlank ∉ command ++ [kRedirect] := by simp [hblank, hsign]
    rw [LineTail.Ends, RedirectPart.Ends, if_neg hblank] at hends
    refine arg_behind_file htext hy (hredirect r rfl) hends fun c hc => ?_
    cases Option.some.inj hc
    have hfree := hcommand.free (.inr rfl)
    refine ⟨rfl, ?_⟩
    rw [List.mem_append, not_or]
    exact ⟨hfree, by decide⟩
  | pipeRedirect sub r =>
    obtain ⟨hpart, hends⟩ := hends
    by_cases hsub : kBlank ∈ sub
    · have htext : cString linebuf = (command ++ [kPipe]) ++ (sub ++ kRedirect :: r.text) := by
        rw [ht]
        simp [CommandLine.text, LineTail.text]
      have hy : kBlank ∉ command ++ [kPipe] := by simp [hblank, hsign]
      refine arg_in_subcommand htext hy (hpipe sub rfl) hsub (hpart.resolve_left hblank) fun c hc => ?_
      cases Option.some.inj hc
      have hfree := hcommand.free (.inl rfl)
      refine ⟨rfl, ?_⟩
      rw [List.mem_append, not_or]
      exact ⟨hfree, by decide⟩
    · -- the first space can only be behind the file
      have htext : cString linebuf = (command ++ kPipe :: sub ++ [kRedirect]) ++ (r.text ++ []) := by
        rw [ht]
        simp [CommandLine.text, LineTail.text]
      have hbefore : kBlank ∉ command ++ kPipe :: sub := by simp [hblank, hsign, hsub]
      rw [RedirectPart.Ends, if_neg hbefore] at hends
      have hy : kBlank ∉ command ++ kPipe :: sub ++ [kRedirect] := by
        rw [List.mem_append, not_or]
        exact ⟨hbefore, by decide⟩
      exact arg_behind_file htext hy (hredirect r rfl) hends fun c hc => nomatch hc

/-- A line that is split right has its argument in the command part. -/
theorem arg_of_separable (hwf : l.WellFormed) (hsep : l.Separable) (ht : cString linebuf = l.text) :
    (bufferStrings linebuf).arg.getD [] = l.remaining := by
  rw [remaining_eq l hsep.command]
  by_cases hblank : kBlank ∈ l.command
  · exact arg_in_command hwf.command ht hblank
  · have hnone : l.command.dropWhile (· ≠ kBlank) = [] := by
      rw [List.dropWhile_eq_nil_iff]
      exact fun c hc => decide_eq_true fun heq => hblank (heq ▸ hc)
    rw [hnone]
    exact arg_behind_command hwf hsep.tail ht hblank

end Argument

/-! ## The whole line -/

theorem bufferStrings_redirDest_none (h : kRedirect ∉ cString linebuf) : (bufferStrings linebuf).redirDest = none := by
  show (strchr linebuf kRedirect).map _ = none
  rw [strchr_of_notMem h, Option.map_none]

theorem bufferStrings_subcommand_none (h : kPipe ∉ cString linebuf) : (bufferStrings linebuf).subcommand = none := by
  show (strchr linebuf kPipe).map _ = none
  rw [strchr_of_notMem h, Option.map_none]

/-- The paths and the commands are right exactly if the parts end where the line is cut. -/
theorem tail_iff (hwf : l.WellFormed) (ht : cString linebuf = l.text) :
    ((bufferStrings linebuf).redirDest = l.strings.redirDest ∧
      (bufferStrings linebuf).subcommand.map (·.rdropWhile isspace) =
        l.strings.subcommand.map (·.rdropWhile isspace)) ↔ l.tail.Ends l.command := by
  obtain ⟨command, tail⟩ := l
  obtain ⟨hcommand, hredirect, hpipe⟩ := hwf
  dsimp only at hcommand hredirect hpipe
  have hredirectFree := hcommand.free (.inl rfl)
  have hpipeFree := hcommand.free (.inr rfl)
  have hsign : kRedirect ≠ kPipe := by decide
  cases tail with
  | none =>
    have htext : cString linebuf = command := by
      rw [ht]
      exact List.append_nil command
    rw [bufferStrings_redirDest_none (by rw [htext]; exact hredirectFree),
      bufferStrings_subcommand_none (by rw [htext]; exact hpipeFree)]
    exact iff_of_true ⟨rfl, rfl⟩ trivial
  | redirect r =>
    have hr := hredirect r rfl
    have htext : cString linebuf = command ++ kRedirect :: (r.text ++ []) := by
      rw [ht, List.append_nil]
      rfl
    have hnone : kPipe ∉ cString linebuf := by
      rw [htext]
      simp [hpipeFree, hr.free (.inr rfl), hsign.symm]
    rw [bufferStrings_redirDest htext hredirectFree, bufferStrings_subcommand_none hnone]
    show (some _ = some r.file ∧ none = none) ↔ r.Ends command []
    rw [Option.some_inj, redirDest_iff hr, and_iff_left rfl]
  | pipe sub =>
    have hsub := hpipe sub rfl
    have htext : cString linebuf = command ++ kPipe :: (sub ++ []) := by
      rw [ht, List.append_nil]
      rfl
    have hnone : kRedirect ∉ cString linebuf := by
      rw [htext]
      simp [hredirectFree, hsub.free (.inl rfl), hsign]
    rw [bufferStrings_redirDest_none hnone,
      bufferStrings_subcommand htext hpipeFree hsub fun c hc => nomatch hc]
    show (none = none ∧ some _ = some ((sub.dropWhile isspace).rdropWhile isspace)) ↔ PipeEnds command sub
    rw [Option.some_inj, and_iff_right rfl]
    exact subcommand_iff
  | redirectPipe r sub =>
    have hr := hredirect r rfl
    have hsub := hpipe sub rfl
    have htext : cString linebuf = command ++ kRedirect :: (r.text ++ kPipe :: sub) := ht
    have hpipeText : cString linebuf = (command ++ kRedirect :: r.text) ++ kPipe :: (sub ++ []) := by
      rw [htext]
      simp
    have hx : kPipe ∉ command ++ kRedirect :: r.text := by simp [hpipeFree, hr.free (.inr rfl), hsign.symm]
    rw [bufferStrings_redirDest htext hredirectFree,
      bufferStrings_subcommand hpipeText hx hsub fun c hc => nomatch hc]
    show (some _ = some r.file ∧ some _ = some ((sub.dropWhile isspace).rdropWhile isspace)) ↔
      r.Ends command (kPipe :: sub)
    rw [Option.some_inj, redirDest_iff hr, Option.some_inj]
    apply and_iff_left_of_imp
    intro hends
    apply subcommand_iff.mpr
    -- the space behind the file comes before the subtask's command
    by_cases hblank : kBlank ∈ command
    · exact .inl (List.mem_append_left _ hblank)
    · rw [RedirectPart.Ends, if_neg hblank] at hends
      cases hafter : r.after with
      | nil =>
        rw [hafter] at hends
        have hsep : kPipe = kBlank := hends.2 kPipe rfl
        exact absurd hsep (by decide)
      | cons b after =>
        rw [hafter] at hends
        have hb : b = kBlank := hends.2 b rfl
        have hmem : kBlank ∈ r.text := by
          rw [RedirectPart.text, hafter, hb]
          exact List.mem_append_right _ List.mem_cons_self
        exact .inl (List.mem_append_right _ (List.mem_cons_of_mem _ hmem))
  | pipeRedirect sub r =>
    have hr := hredirect r rfl
    have hsub := hpipe sub rfl
    have htext : cString linebuf = command ++ kPipe :: (sub ++ kRedirect :: r.text) := ht
    have hredirectText : cString linebuf = (command ++ kPipe :: sub) ++ kRedirect :: (r.text ++ []) := by
      rw [htext]
      simp
    have hx : kRedirect ∉ command ++ kPipe :: sub := by simp [hredirectFree, hsub.free (.inl rfl), hsign]
    rw [bufferStrings_redirDest hredirectText hx, bufferStrings_subcommand htext hpipeFree hsub]
    · show (some _ = some r.file ∧ some _ = some ((sub.dropWhile isspace).rdropWhile isspace)) ↔
        PipeEnds command sub ∧ r.Ends (command ++ kPipe :: sub) []
      rw [Option.some_inj, redirDest_iff hr, Option.some_inj, and_comm]
      exact and_congr_left fun _ => subcommand_iff
    · intro c hc
      cases Option.some.inj hc
      exact ⟨rfl, hredirectFree⟩

/-- **When a command line is split right.**  For every line of a command part and at most one redirection and
one pipe: whatever the files are, the file, the subtask's command, the command and its argument are those of the
parts exactly if the parts end where the line is cut; and on every way out `_files[1]` is what it was. -/
theorem executeLine_splits_iff (hwf : l.WellFormed) (ht : cString linebuf = l.text) (stdout : StandardOutput) :
    ((∀ files, (executeLine files stdout linebuf).calls.map LineCall.meaning =
      (l.strings.calls files stdout).map LineCall.meaning) ↔ l.Separable) ∧
    ∀ files, (executeLine files stdout linebuf).output = stdout := by
  refine ⟨?_, fun files => (executeLine_spec files stdout linebuf).2⟩
  have hcalls : ∀ files, (executeLine files stdout linebuf).calls = (bufferStrings linebuf).calls files stdout :=
    fun files => (executeLine_spec files stdout linebuf).1
  simp only [hcalls]
  rw [same_meaning_iff, ← and_assoc, tail_iff hwf ht, bufferStrings_command ht hwf.command]
  constructor
  · -- nothing about the argument is needed: the other parts decide
    rintro ⟨htail, hcommand, -⟩
    exact ⟨(command_iff l).mp hcommand, htail⟩
  · intro hsep
    exact ⟨hsep.tail, (command_iff l).mpr hsep.command, arg_of_separable hwf hsep ht⟩

instance (s : List UInt8) : Decidable (PartText s) :=
  List.decidableBAll (fun c => c ≠ 0 ∧ c ≠ kRedirect ∧ c ≠ kPipe) s

/-- No file is there yet. -/
def newFiles : RedirectFiles := ⟨fun _ => (none, false), fun _ => .ok ⟨2, 0⟩, fun _ => false⟩

/-- The file `f`, with spaces before it and behind it. -/
def wordF (after : List UInt8) : RedirectPart := ⟨[0x20], [0x66], after⟩

theorem wordF_wellFormed {after : List UInt8} (h : ∀ c ∈ after, isspace c) : (wordF after).WellFormed where
  before := List.forall_mem_singleton.mpr rfl
  after := h
  file := List.forall_mem_singleton.mpr (by decide)
  word := ⟨List.cons_ne_nil _ _, List.forall_mem_singleton.mpr (by decide)⟩

/-- `ls > f` -/
def lsLine : CommandLine := ⟨[0x6c, 0x73, 0x20], .redirect (wordF [])⟩

theorem executeLine_splits_ls : lsLine.Separable ∧
    (executeLine newFiles .own (lsLine.text ++ [0])).calls.map LineCall.meaning =
      (lsLine.strings.calls newFiles .own).map LineCall.meaning := by
  have hwf : lsLine.WellFormed := by
    refine ⟨by decide, fun r hr => ?_, fun sub hsub => nomatch hsub⟩
    cases hr
    exact wordF_wellFormed (List.forall_mem_nil _)
  have hword : lsLine.command.takeWhile (· ≠ kBlank) = [0x6c, 0x73] := rfl
  have hcommand : WordEnds lsLine.command := by
    constructor
    · rw [hword]
      exact List.forall_mem_cons.mpr ⟨by decide, List.forall_mem_singleton.mpr (by decide)⟩
    · exact fun hhead => absurd hhead (by decide)
  have hsep : lsLine.Separable := ⟨hcommand, rfl⟩
  exact ⟨hsep, (executeLine_splits_iff hwf (by decide) .own).1.mpr hsep newFiles⟩

/-- `ls > f | s` -/
def pipedLine : CommandLine := ⟨[0x6c, 0x73, 0x20], .redirectPipe (wordF [0x20]) [0x20, 0x73]⟩

/-- The path of `ls > f | s` is `f | s`; `ls> f` has no path and `f` as its argument; and a space before `ls`
makes it the argument of an empty command. -/
theorem executeLine_missplits : pipedLine.WellFormed ∧
    (executeLine newFiles .own (pipedLine.text ++ [0])).calls =
      [.findFile [0x66, 0x20, 0x7c, 0x20, 0x73], .createFile [0x66, 0x20, 0x7c, 0x20, 0x73],
        .newTask [0x73] (.file ⟨2, 0⟩), .run [0x6c, 0x73] (some []) .pipe] ∧
    (executeLine newFiles .own (pipedLine.text ++ [0])).calls.map LineCall.meaning ≠
      (pipedLine.strings.calls newFiles .own).map LineCall.meaning ∧
    (executeLine newFiles .own [0x6c, 0x73, 0x3e, 0x20, 0x66, 0]).calls =
      [.findFile [], .createFile [], .run [0x6c, 0x73] (some [0x66]) (.file ⟨2, 0⟩)] ∧
    (executeLine newFiles .own [0x20, 0x6c, 0x73, 0]).calls = [.run [] (some [0x6c, 0x73]) .own] := by
  have hwf : pipedLine.WellFormed := by
    refine ⟨by decide, fun r hr => ?_, fun sub hsub => ?_⟩
    · cases hr
      exact wordF_wellFormed (List.forall_mem_singleton.mpr rfl)
    · cases hsub
      decide
  exact ⟨hwf, by decide +kernel⟩

end MikanSaos
