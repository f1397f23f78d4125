import MikanSaos.FileSystem.PathLookup
import Mathlib.Data.List.DropRight
import Mathlib.Data.List.TakeWhile

/-!
# ShortNames — path elements and the eleven name bytes of an entry

`NameIsEqual` scans a path element from the left, `SetFileName` splits a file name at its last dot, and
`FormatName` puts the dot back.  `shortName` is the name field of a base and an extension.
-/

namespace MikanSaos

/-- The name field of a base and an extension: blank padded and in capital letters. -/
def shortName (base ext : List UInt8) (k : Nat) : UInt8 :=
  ((if k < 8 then base[k]? else ext[k - 8]?).map toupper).getD kSpace

variable {name base ext : List UInt8} {c : UInt8} {i k : Nat} {name83 : Nat → UInt8}

/-! ## Splitting at the last dot or slash -/

theorem splitLast_of_notMem (h : c ∉ name) : splitLast c name = none := by
  have hdrop : name.reverse.dropWhile (· ≠ c) = [] := by
    apply List.dropWhile_eq_nil_iff.mpr
    intro b hb
    exact decide_eq_true fun hbc => h (hbc ▸ List.mem_reverse.mp hb)
  unfold splitLast
  rw [List.span_eq_takeWhile_dropWhile, hdrop]

theorem splitLast_append (h : c ∉ ext) : splitLast c (base ++ c :: ext) = some (base, ext) := by
  have hne : ∀ b ∈ ext.reverse, (decide (b ≠ c)) = true := fun b hb =>
    decide_eq_true fun hbc => h (hbc ▸ List.mem_reverse.mp hb)
  have htake : (base ++ c :: ext).reverse.takeWhile (· ≠ c) = ext.reverse := by
    rw [List.reverse_append, List.reverse_cons, List.append_assoc,
      List.takeWhile_append_of_pos hne]
    simp
  have hdrop : (base ++ c :: ext).reverse.dropWhile (· ≠ c) = c :: base.reverse := by
    rw [List.reverse_append, List.reverse_cons, List.append_assoc,
      List.dropWhile_append_of_pos hne]
    simp
  unfold splitLast
  rw [List.span_eq_takeWhile_dropWhile, htake, hdrop]
  simp

theorem exists_splitLast (h : c ∈ name) : ∃ base ext, name = base ++ c :: ext ∧ c ∉ ext := by
  obtain ⟨a, b, hab, ha⟩ := List.eq_append_cons_of_mem (List.mem_reverse.mpr h)
  refine ⟨b.reverse, a.reverse, ?_, fun hc => ha (List.mem_reverse.mp hc)⟩
  rw [← List.reverse_reverse name, hab]
  simp

/-- What is split is what was there. -/
theorem eq_of_splitLast (h : splitLast c name = some (base, ext)) :
    name = base ++ c :: ext ∧ c ∉ ext := by
  by_cases hc : c ∈ name
  · obtain ⟨a, b, rfl, hb⟩ := exists_splitLast hc
    rw [splitLast_append hb] at h
    cases h
    exact ⟨rfl, hb⟩
  · rw [splitLast_of_notMem hc] at h
    cases h

theorem fileName83_of_notMem (h : kDot ∉ name) : fileName83 name = shortName name [] := by
  unfold fileName83
  rw [splitLast_of_notMem h]
  rfl

theorem fileName83_append (h : kDot ∉ ext) :
    fileName83 (base ++ kDot :: ext) = shortName base ext := by
  unfold fileName83
  rw [splitLast_append h]
  rfl

/-! ## The scan of `NameIsEqual` -/

/-- Where the scan of a name stands afterwards; it stops at 11. -/
def cursor83 : List UInt8 → Nat → Nat
  | [], i83 => i83
  | c :: name, i83 =>
    if i83 < 11 then if c = kDot then cursor83 name 8 else cursor83 name (i83 + 1) else i83

theorem fillName83_stopped (name : List UInt8) (h : 11 ≤ i) : fillName83 name i name83 = name83 := by
  cases name with
  | nil => rfl
  | cons c name => rw [fillName83, if_neg (by omega)]

theorem fillName83_append (name ext : List UInt8) (i : Nat) (name83 : Nat → UInt8) :
    fillName83 (name ++ ext) i name83 = fillName83 ext (cursor83 name i) (fillName83 name i name83) := by
  induction name generalizing i name83 with
  | nil => rfl
  | cons c name ih =>
    rw [List.cons_append, fillName83, fillName83, cursor83]
    by_cases hi : i < 11
    · rw [if_pos hi, if_pos hi, if_pos hi]
      split
      · exact ih 8 name83
      · exact ih (i + 1) _
    · rw [if_neg hi, if_neg hi, if_neg hi, fillName83_stopped _ (by omega)]

/-- A dot, unless the scan has stopped. -/
theorem fillName83_dot (name : List UInt8) (h : i < 11) :
    fillName83 (kDot :: name) i name83 = fillName83 name 8 name83 := by
  rw [fillName83, if_pos h, if_pos rfl]

/-- A part without dots is written in a row. -/
theorem fillName83_plain (h : kDot ∉ name) (hk : k < 11) :
    fillName83 name i name83 k =
      ((if i ≤ k then name[k - i]? else none).map toupper).getD (name83 k) := by
  induction name generalizing i name83 with
  | nil => simp [fillName83]
  | cons c name ih =>
    obtain ⟨hc, hname⟩ := List.ne_and_not_mem_of_not_mem_cons h
    by_cases hi : i < 11
    · rw [fillName83, if_pos hi, if_neg hc.symm, ih hname]
      rcases Nat.lt_trichotomy k i with hlt | rfl | hgt
      · rw [if_neg (by omega), if_neg (by omega), Function.update_of_ne (by omega)]
      · rw [if_neg (by omega), if_pos le_rfl, Function.update_self, Nat.sub_self]
        rfl
      · rw [if_pos (by omega), if_pos (by omega), Function.update_of_ne (by omega),
          show k - i = (k - (i + 1)) + 1 by omega, List.getElem?_cons_succ]
    · rw [fillName83_stopped _ (by omega), if_neg (by omega)]
      rfl

theorem cursor83_plain (h : kDot ∉ name) (hi : i + name.length ≤ 11) :
    cursor83 name i = i + name.length := by
  induction name generalizing i with
  | nil => rfl
  | cons c name ih =>
    obtain ⟨hc, hname⟩ := List.ne_and_not_mem_of_not_mem_cons h
    rw [List.length_cons] at hi
    rw [cursor83, if_pos (by omega), if_neg hc.symm, ih hname (by omega), List.length_cons]
    omega

theorem cursor83_append (name ext : List UInt8) (i : Nat) :
    cursor83 (name ++ ext) i = cursor83 ext (cursor83 name i) := by
  induction name generalizing i with
  | nil => rfl
  | cons c name ih =>
    rw [List.cons_append, cursor83, cursor83]
    split
    · split
      · exact ih 8
      · exact ih (i + 1)
    · rename_i hi
      cases ext with
      | nil => rfl
      | cons b ext => rw [cursor83, if_neg hi]

theorem cursor83_le (name : List UInt8) : cursor83 name i ≤ max 8 i + name.length := by
  induction name generalizing i with
  | nil => exact Nat.le_max_right 8 i
  | cons c name ih =>
    have h8 := ih (i := 8)
    have hnext := ih (i := i + 1)
    rw [cursor83, List.length_cons]
    split
    · split <;> omega
    · omega

/-- Once in the extension, the scan stays there. -/
theorem fillName83_low (name : List UInt8) (hi : 8 ≤ i) (hk : k < 8) :
    fillName83 name i name83 k = name83 k := by
  induction name generalizing i name83 with
  | nil => rfl
  | cons c name ih =>
    rw [fillName83]
    split
    · split
      · exact ih le_rfl
      · rw [ih (by omega), Function.update_of_ne (by omega)]
    · rfl

/-- A byte that is neither there before nor in the name is not written. -/
theorem fillName83_ne {b : UInt8} (hname : ∀ c ∈ name, c ≠ kDot → toupper c ≠ b)
    (h : name83 k ≠ b) : fillName83 name i name83 k ≠ b := by
  induction name generalizing i name83 with
  | nil => exact h
  | cons c name ih =>
    have hrest : ∀ d ∈ name, d ≠ kDot → toupper d ≠ b := fun d hd =>
      hname d (List.mem_cons_of_mem c hd)
    rw [fillName83]
    split
    · split
      · exact ih hrest h
      · rename_i hc
        apply ih hrest
        by_cases hki : k = i
        · rw [hki, Function.update_self]
          exact hname c List.mem_cons_self hc
        · rwa [Function.update_of_ne hki]
    · exact h

theorem fillName83_ne_dot (name : List UInt8) (h : name83 k ≠ kDot) :
    fillName83 name i name83 k ≠ kDot :=
  fillName83_ne (fun _ _ hc => (toupper_eq_iff (by decide)).not.mpr hc) h

theorem fillName83_ne_zero (hname : 0 ∉ name) (h : name83 k ≠ 0) :
    fillName83 name i name83 k ≠ 0 :=
  fillName83_ne (fun _ hc _ => (toupper_eq_iff (by decide)).not.mpr fun he => hname (he ▸ hc)) h

/-! ## Elements that spell a name -/

theorem fillName83_base (hbase : kDot ∉ base) (hlen : base.length ≤ 8) (hk : k < 11) :
    fillName83 base 0 (fun _ => kSpace) k = shortName base [] k := by
  rw [fillName83_plain hbase hk, if_pos (Nat.zero_le k), Nat.sub_zero, shortName]
  split
  · rfl
  · rw [List.getElem?_eq_none (by omega)]
    rfl

theorem fillName83_dotted (hbase : kDot ∉ base) (hlen : base.length ≤ 8) (hext : kDot ∉ ext)
    (hk : k < 11) :
    fillName83 (base ++ kDot :: ext) 0 (fun _ => kSpace) k = shortName base ext k := by
  rw [fillName83_append, cursor83_plain hbase (by omega), fillName83_dot _ (by omega),
    fillName83_plain hext hk, fillName83_base hbase hlen hk, shortName, shortName]
  by_cases hk8 : k < 8
  · rw [if_neg (by omega), if_pos hk8, if_pos hk8]
    rfl
  · rw [if_pos (by omega), if_neg hk8, if_neg hk8]
    rfl

/-- The name field that an element spells: a base of at most eight bytes and, behind a dot, an
extension of one to three.  "." and ".." are names as well. -/
def spelledName (elem : List UInt8) : Option (Nat → UInt8) :=
  if elem = [kDot] ∨ elem = [kDot, kDot] then some (shortName elem [])
  else
    match elem.splitOn kDot with
    | [base] => if base.length ≤ 8 then some (shortName base []) else none
    | [base, ext] =>
      if base.length ≤ 8 ∧ 1 ≤ ext.length ∧ ext.length ≤ 3 then some (shortName base ext) else none
    | _ => none

/-- The element is the name of a file, in the 8.3 form. -/
def IsShortName (elem : List UInt8) : Prop :=
  elem ≠ [kDot] ∧ elem ≠ [kDot, kDot] ∧ (spelledName elem).isSome = true

instance (elem : List UInt8) : Decidable (IsShortName elem) := inferInstanceAs (Decidable (_ ∧ _))

/-- `NameIsEqual` compares with the name that the element spells, if it spells one. -/
theorem fillName83_spelled {elem : List UInt8} {field : Nat → UInt8} (hdot : elem ≠ [kDot])
    (hdots : elem ≠ [kDot, kDot]) (h : spelledName elem = some field) (hk : k < 11) :
    fillName83 elem 0 (fun _ => kSpace) k = field k := by
  rw [spelledName, if_neg (not_or.mpr ⟨hdot, hdots⟩)] at h
  by_cases hmem : kDot ∈ elem
  · obtain ⟨base, rest, rfl, hbase⟩ := List.eq_append_cons_of_mem hmem
    rw [List.splitOn_append_cons_self_of_not_mem hbase] at h
    by_cases hmore : kDot ∈ rest
    · -- more than one dot
      obtain ⟨ext, more, rfl, hext⟩ := List.eq_append_cons_of_mem hmore
      rw [List.splitOn_append_cons_self_of_not_mem hext] at h
      cases hsplit : more.splitOn kDot with
      | nil => exact absurd hsplit (List.splitOn_ne_nil _ _)
      | cons a b =>
        rw [hsplit] at h
        cases h
    · rw [List.splitOn_eq_singleton hmore] at h
      dsimp only at h
      split at h
      · rename_i hlen
        rw [← Option.some.inj h]
        exact fillName83_dotted hbase hlen.1 hmore hk
      · cases h
  · rw [List.splitOn_eq_singleton hmem] at h
    dsimp only at h
    split at h
    · rename_i hlen
      rw [← Option.some.inj h]
      exact fillName83_base hmem hlen hk
    · cases h

/-! ## Names that `SetFileName` and `NameIsEqual` agree about -/

/-- The last byte at offset `j` of the parts of `bytes` between dots. -/
def lastAt (j : Nat) (bytes : List UInt8) : Option UInt8 :=
  (bytes.splitOn kDot).reverse.findSome? (·[j]?)

/-- The base has no dot in its first eight bytes, and what the scan finds behind them is overwritten by
the extension or blank. -/
def KeepsName (name : List UInt8) : Prop :=
  let (base, ext) := (splitLast kDot name).getD (name, [])
  kDot ∉ base.take 8 ∧ ∀ j < 3, ext.length ≤ j →
    lastAt j (base.drop 8) = none ∨ lastAt j (base.drop 8) = some kSpace

instance (name : List UInt8) : Decidable (KeepsName name) := by
  unfold KeepsName
  split
  infer_instance

theorem keepsName_of_notMem (h : kDot ∉ name) : KeepsName name ↔ ∀ j < 3,
    lastAt j (name.drop 8) = none ∨ lastAt j (name.drop 8) = some kSpace := by
  unfold KeepsName
  rw [splitLast_of_notMem h]
  show kDot ∉ name.take 8 ∧ _ ↔ _
  simp only [List.length_nil, Nat.zero_le, forall_const, and_iff_right_iff_imp]
  exact fun _ hmem => h (List.mem_of_mem_take hmem)

theorem keepsName_append (h : kDot ∉ ext) : KeepsName (base ++ kDot :: ext) ↔
    kDot ∉ base.take 8 ∧ ∀ j < 3, ext.length ≤ j →
      lastAt j (base.drop 8) = none ∨ lastAt j (base.drop 8) = some kSpace := by
  unfold KeepsName
  rw [splitLast_append h]
  exact Iff.rfl

/-- The scan of a few bytes in the extension leaves the last byte that came at each place; the first
part starts at offset `i - 8`. -/
theorem fillName83_parts {bytes first : List UInt8} {rest : List (List UInt8)} {j : Nat} (hi : 8 ≤ i)
    (hlen : i + bytes.length ≤ 11) (hsplit : bytes.splitOn kDot = first :: rest) :
    fillName83 bytes i name83 (8 + j) =
      (((rest.reverse.findSome? (·[j]?)).or (if i ≤ 8 + j then first[8 + j - i]? else none)).map
        toupper).getD (name83 (8 + j)) := by
  induction bytes generalizing i name83 first rest with
  | nil =>
    cases hsplit
    simp [fillName83]
  | cons c bytes ih =>
    rw [List.length_cons] at hlen
    rw [List.splitOn_cons_eq_if_modifyHead] at hsplit
    cases htail : bytes.splitOn kDot with
    | nil => exact absurd htail (List.splitOn_ne_nil _ _)
    | cons part parts =>
      rw [htail] at hsplit
      by_cases hc : c = kDot
      · subst hc
        rw [if_pos (by simp)] at hsplit
        cases hsplit
        rw [fillName83_dot _ (by omega), ih le_rfl (by omega) htail, List.reverse_cons,
          List.findSome?_append]
        simp
      · rw [if_neg (by simpa using hc)] at hsplit
        cases hsplit
        rw [fillName83, if_pos (by omega), if_neg hc, ih (by omega) (by omega) htail]
        rcases Nat.lt_trichotomy (8 + j) i with hlt | heq | hgt
        · rw [if_neg (by omega), if_neg (by omega), Function.update_of_ne (by omega)]
        · subst heq
          rw [if_neg (by omega), if_pos le_rfl, Function.update_self, Nat.sub_self]
          cases rest.reverse.findSome? (·[j]?) with
          | none => rfl
          | some b => rfl
        · rw [if_pos (by omega), if_pos (by omega), Function.update_of_ne (by omega),
            show 8 + j - i = (8 + j - (i + 1)) + 1 by omega, List.getElem?_cons_succ]

theorem fillName83_lastAt {bytes : List UInt8} {j : Nat} (hlen : bytes.length ≤ 3) :
    fillName83 bytes 8 name83 (8 + j) = ((lastAt j bytes).map toupper).getD (name83 (8 + j)) := by
  cases hsplit : bytes.splitOn kDot with
  | nil => exact absurd hsplit (List.splitOn_ne_nil _ _)
  | cons first rest =>
    rw [fillName83_parts le_rfl (by omega) hsplit, lastAt, hsplit, List.reverse_cons,
      List.findSome?_append, if_pos (by omega), Nat.add_sub_cancel_left]
    simp

theorem lastAt_of_notMem {bytes : List UInt8} {j : Nat} (h : kDot ∉ bytes) :
    lastAt j bytes = bytes[j]? := by
  rw [lastAt, List.splitOn_eq_singleton h]
  simp

/-- The scan passes eight bytes without dots in a row. -/
theorem cursor83_first (hdot : kDot ∉ base.take 8) : cursor83 base 0 ≤ base.length := by
  by_cases hlen : base.length ≤ 8
  · rw [List.take_of_length_le hlen] at hdot
    rw [cursor83_plain hdot (by omega), Nat.zero_add]
  · have hrest := cursor83_le (base.drop 8) (i := 8)
    rw [← List.take_append_drop 8 base, cursor83_append,
      cursor83_plain hdot (by rw [List.length_take]; omega), List.length_take,
      show 0 + min 8 base.length = 8 by omega, List.take_append_drop]
    rw [List.length_drop] at hrest
    omega

/-- The first eight bytes of a base without dots there. -/
theorem fillName83_first (hdot : kDot ∉ base.take 8) (hk : k < 8) :
    fillName83 base 0 (fun _ => kSpace) k = shortName base ext k := by
  have hfirst : fillName83 (base.take 8) 0 (fun _ => kSpace) k = shortName base ext k := by
    rw [fillName83_plain hdot (by omega), if_pos (Nat.zero_le k), Nat.sub_zero, shortName, if_pos hk,
      List.getElem?_take_of_lt hk]
  by_cases hlen : base.length ≤ 8
  · rwa [List.take_of_length_le hlen] at hfirst
  · rw [← List.take_append_drop 8 base, fillName83_append,
      cursor83_plain hdot (by rw [List.length_take]; omega), fillName83_low _ _ hk,
      List.take_append_drop, hfirst]
    rw [List.length_take]
    omega

theorem fillName83_first_iff :
    (∀ k < 8, fillName83 base 0 (fun _ => kSpace) k = shortName base ext k) ↔
      kDot ∉ base.take 8 := by
  constructor
  · -- a dot is stored, but not looked for
    intro h hmem
    obtain ⟨k, hk⟩ := List.mem_iff_getElem?.mp hmem
    have hk8 : k < 8 := by
      have hlt := (List.getElem?_eq_some_iff.mp hk).1
      rw [List.length_take] at hlt
      omega
    rw [List.getElem?_take_of_lt hk8] at hk
    have hne : fillName83 base 0 (fun _ => kSpace) k ≠ kDot := fillName83_ne_dot base (by decide)
    apply hne
    rw [h k hk8, shortName, if_pos hk8, hk]
    rfl
  · exact fun hdot k hk => fillName83_first hdot hk

/-- What the scan of the base leaves in the extension. -/
theorem fillName83_behind {j : Nat} (hj : j < 3) (hdot : kDot ∉ base.take 8)
    (hrest : (base.drop 8).length ≤ 3 ∨ kDot ∉ base) :
    fillName83 base 0 (fun _ => kSpace) (8 + j) =
      ((lastAt j (base.drop 8)).map toupper).getD kSpace := by
  by_cases hlen : base.length ≤ 8
  · rw [List.take_of_length_le hlen] at hdot
    rw [fillName83_base hdot hlen (by omega), shortName, if_neg (by omega),
      List.drop_of_length_le hlen]
    rfl
  · have hfirst : fillName83 (base.take 8) 0 (fun _ => kSpace) (8 + j) = kSpace := by
      rw [fillName83_plain hdot (by omega), if_pos (Nat.zero_le _),
        List.getElem?_eq_none (by rw [List.length_take]; omega)]
      rfl
    conv_lhs => rw [← List.take_append_drop 8 base]
    rw [fillName83_append, cursor83_plain hdot (by rw [List.length_take]; omega), List.length_take,
      show 0 + min 8 base.length = 8 by omega]
    rcases hrest with hshort | hplain
    · rw [fillName83_lastAt hshort, hfirst]
    · have hdrop : kDot ∉ base.drop 8 := fun hmem => hplain (List.mem_of_mem_drop hmem)
      rw [fillName83_plain hdrop (by omega), if_pos (by omega), Nat.add_sub_cancel_left, hfirst,
        lastAt_of_notMem hdrop]

theorem behind_eq_space_iff {b : Option UInt8} :
    (b.map toupper).getD kSpace = kSpace ↔ b = none ∨ b = some kSpace := by
  cases b with
  | none => simp
  | some c =>
    rw [Option.map_some, Option.getD_some, toupper_eq_iff (by decide)]
    simp

/-- A base and the extension that overwrites what the base left there. -/
theorem eq_shortName_iff {field : Nat → UInt8}
    (hlow : ∀ k < 8, field k = fillName83 base 0 (fun _ => kSpace) k)
    (hhigh : kDot ∉ base.take 8 → ∀ j < 3, field (8 + j) =
      (ext[j]?.map toupper).getD (fillName83 base 0 (fun _ => kSpace) (8 + j)))
    (hrest : (base.drop 8).length ≤ 3 ∨ kDot ∉ base) :
    (∀ k < 11, field k = shortName base ext k) ↔
      kDot ∉ base.take 8 ∧ ∀ j < 3, ext.length ≤ j →
        lastAt j (base.drop 8) = none ∨ lastAt j (base.drop 8) = some kSpace := by
  have hpad : ∀ j, shortName base ext (8 + j) = (ext[j]?.map toupper).getD kSpace := by
    intro j
    rw [shortName, if_neg (by omega), Nat.add_sub_cancel_left]
  constructor
  · intro h
    have hdot : kDot ∉ base.take 8 :=
      fillName83_first_iff.mp fun k hk => (hlow k hk).symm.trans (h k (by omega))
    refine ⟨hdot, fun j hj hext => ?_⟩
    have heq := h (8 + j) (by omega)
    rw [hhigh hdot j hj, hpad, List.getElem?_eq_none hext, fillName83_behind hj hdot hrest] at heq
    exact behind_eq_space_iff.mp heq
  · rintro ⟨hdot, hblank⟩ k hk
    by_cases hk8 : k < 8
    · rw [hlow k hk8]
      exact fillName83_first hdot hk8
    · obtain ⟨j, rfl⟩ := Nat.exists_eq_add_of_le (Nat.le_of_not_lt hk8)
      rw [hhigh hdot j (by omega), hpad]
      by_cases hext : ext.length ≤ j
      · rw [List.getElem?_eq_none hext, fillName83_behind (by omega) hdot hrest]
        exact behind_eq_space_iff.mpr (hblank j (by omega) hext)
      · rw [List.getElem?_eq_getElem (by omega)]
        rfl

/-- The two routines agree exactly on the names that `KeepsName` describes. -/
theorem fillName83_eq_fileName83_iff (hlen : name.length ≤ 12) :
    (∀ k < 11, fillName83 name 0 (fun _ => kSpace) k = fileName83 name k) ↔ KeepsName name := by
  by_cases hmem : kDot ∈ name
  · obtain ⟨base, ext, rfl, hext⟩ := exists_splitLast hmem
    rw [List.length_append, List.length_cons] at hlen
    have hrest : (base.drop 8).length ≤ 3 := by
      rw [List.length_drop]
      omega
    rw [fileName83_append hext, keepsName_append hext]
    apply eq_shortName_iff _ _ (.inl hrest)
    · intro k hk
      rw [fillName83_append]
      by_cases hstop : cursor83 base 0 < 11
      · rw [fillName83_dot _ hstop, fillName83_low _ le_rfl hk]
      · rw [fillName83_stopped _ (by omega)]
    · intro hdot j hj
      rw [fillName83_append]
      by_cases hstop : cursor83 base 0 < 11
      · rw [fillName83_dot _ hstop, fillName83_plain hext (by omega), if_pos (by omega),
          Nat.add_sub_cancel_left]
      · -- a base of eleven bytes leaves no room for an extension
        have hcursor := cursor83_first hdot
        rw [fillName83_stopped _ (by omega), List.getElem?_eq_none (by omega)]
        rfl
  · rw [fileName83_of_notMem hmem, keepsName_of_notMem hmem]
    have h : (∀ k < 11, fillName83 name 0 (fun _ => kSpace) k = shortName name [] k) ↔ _ :=
      eq_shortName_iff (fun _ _ => rfl) (fun _ _ _ => rfl) (.inr hmem)
    rw [h, List.length_nil, and_iff_right fun hm => hmem (List.mem_of_mem_take hm)]
    simp only [Nat.zero_le, forall_const]

/-! ## `FormatName` -/

/-- Bytes that are blank to the end once one is blank. -/
theorem exists_padding {bytes : List UInt8}
    (h : ∀ i c, bytes[i]? = some kSpace → bytes[i + 1]? = some c → c = kSpace) :
    ∃ part n, bytes = part ++ List.replicate n kSpace ∧ kSpace ∉ part := by
  induction bytes with
  | nil => exact ⟨[], 0, rfl, List.not_mem_nil⟩
  | cons b bytes ih =>
    obtain ⟨part, n, hbytes, hpart⟩ := ih fun i c hi hc => h (i + 1) c hi hc
    by_cases hb : b = kSpace
    · cases part with
      | nil =>
        refine ⟨[], n + 1, ?_, List.not_mem_nil⟩
        rw [hbytes, hb]
        rfl
      | cons c part =>
        have hc := h 0 c (by rw [hb]; rfl) (by rw [hbytes]; rfl)
        exact absurd (hc ▸ List.mem_cons_self) hpart
    · refine ⟨b :: part, n, by rw [hbytes]; rfl, fun hmem => ?_⟩
      rcases List.mem_cons.mp hmem with he | hmem
      · exact hb he.symm
      · exact hpart hmem

theorem rdropWhile_padding {part : List UInt8} (n : Nat) (h : kSpace ∉ part) :
    (part ++ List.replicate n kSpace).rdropWhile (· = kSpace) = part := by
  induction n with
  | zero =>
    rw [List.replicate_zero, List.append_nil, List.rdropWhile_eq_self_iff]
    intro hne heq
    exact h (of_decide_eq_true heq ▸ List.getLast_mem hne)
  | succ n ih =>
    rw [List.replicate_succ', ← List.append_assoc, List.rdropWhile_concat_pos _ _ _ (by decide), ih]

namespace Volume

variable {v : Volume} {p q : EntryPtr}

theorem namePart_length_le (v : Volume) (p : EntryPtr) (first n : Nat) :
    (v.namePart p first n).length ≤ n := by
  have hdrop := (List.rdropWhile_prefix (· = kSpace)
    ((List.range n).map fun k => v.entryByte p (first + k))).length_le
  have htake := (List.takeWhile_prefix (· ≠ (0 : UInt8))
    (l := ((List.range n).map fun k => v.entryByte p (first + k)).rdropWhile (· = kSpace))).length_le
  rw [List.length_map, List.length_range] at hdrop
  exact htake.trans hdrop

/-- A formatted name has at most twelve bytes before its NUL. -/
theorem formatName_length_le (v : Volume) (p : EntryPtr) : (v.formatName p).length ≤ 12 := by
  have hbase := namePart_length_le v p 0 8
  have hext := namePart_length_le v p 8 3
  unfold formatName
  dsimp only
  split
  · omega
  · rw [List.length_append, List.length_cons]
    omega

/-- A well-formed 8.3 name: blanks only as padding, no small letter, no dot, no NUL, and a base. -/
structure HasShortName (v : Volume) (p : EntryPtr) : Prop where
  base : v.entryByte p 0 ≠ kSpace
  char : ∀ k < 11, v.entryByte p k ≠ 0 ∧ v.entryByte p k ≠ kDot ∧
    ¬ (0x61 ≤ v.entryByte p k ∧ v.entryByte p k ≤ 0x7a)
  padded : ∀ k < 10, k ≠ 7 → v.entryByte p k = kSpace → v.entryByte p (k + 1) = kSpace

/-- One of the two fields of a well-formed name. -/
theorem HasShortName.namePart (h : v.HasShortName p) {first n : Nat} (hn : first + n ≤ 11)
    (hpadded : ∀ k, first ≤ k → k + 1 < first + n → k ≠ 7) :
    (v.namePart p first n).length ≤ n ∧ kDot ∉ v.namePart p first n ∧ ∀ j < n,
      v.entryByte p (first + j) = ((v.namePart p first n)[j]?.map toupper).getD kSpace := by
  set bytes := (List.range n).map fun k => v.entryByte p (first + k) with hbytes
  have hget : ∀ j < n, bytes[j]? = some (v.entryByte p (first + j)) := by
    intro j hj
    rw [hbytes, List.getElem?_map, List.getElem?_range hj]
    rfl
  obtain ⟨part, m, hsplit, hpart⟩ : ∃ part m, bytes = part ++ List.replicate m kSpace ∧
      kSpace ∉ part := by
    apply exists_padding
    intro i c hi hc
    have hlt := (List.getElem?_eq_some_iff.mp hc).1
    rw [hbytes, List.length_map, List.length_range] at hlt
    rw [hget i (by omega)] at hi
    rw [hget (i + 1) hlt] at hc
    rw [← Option.some.inj hc]
    exact h.padded (first + i) (by omega) (hpadded _ (by omega) (by omega)) (Option.some.inj hi)
  have hmem : ∀ c ∈ part, c ≠ 0 ∧ c ≠ kDot ∧ ¬ (0x61 ≤ c ∧ c ≤ 0x7a) := by
    intro c hc
    have hcb : c ∈ bytes := hsplit ▸ List.mem_append_left _ hc
    obtain ⟨k, hk, rfl⟩ := List.mem_map.mp hcb
    exact h.char _ (by have := List.mem_range.mp hk; omega)
  have heq : v.namePart p first n = part := by
    show (bytes.rdropWhile (· = kSpace)).takeWhile (· ≠ 0) = part
    rw [hsplit, rdropWhile_padding m hpart, List.takeWhile_eq_self_iff]
    exact fun c hc => decide_eq_true (hmem c hc).1
  refine ⟨namePart_length_le v p first n, ?_, fun j hj => ?_⟩
  · rw [heq]
    exact fun hdot => (hmem _ hdot).2.1 rfl
  · have hj' := hget j hj
    rw [heq]
    rw [hsplit] at hj'
    by_cases hin : j < part.length
    · rw [List.getElem?_append_left hin, List.getElem?_eq_getElem hin] at hj'
      rw [List.getElem?_eq_getElem hin, Option.map_some, Option.getD_some, toupper,
        if_neg (hmem _ (List.getElem_mem hin)).2.2]
      exact (Option.some.inj hj').symm
    · rw [List.getElem?_append_right (by omega)] at hj'
      have hspace := List.eq_of_mem_replicate (List.mem_of_getElem? hj')
      rw [List.getElem?_eq_none (by omega), hspace]
      rfl

/-- The name that is looked for is the one that was formatted. -/
theorem HasShortName.fillName83 (h : v.HasShortName p) {k : Nat} (hk : k < 11) :
    MikanSaos.fillName83 (v.formatName p) 0 (fun _ => kSpace) k = v.entryByte p k := by
  obtain ⟨hbaselen, hbasedot, hbase⟩ := h.namePart (show 0 + 8 ≤ 11 by decide) (by omega)
  obtain ⟨hextlen, hextdot, hext⟩ := h.namePart (show 8 + 3 ≤ 11 by decide) (by omega)
  have hfield : shortName (v.namePart p 0 8) (v.namePart p 8 3) k = v.entryByte p k := by
    unfold shortName
    split
    · rename_i hk8
      rw [← hbase k hk8, Nat.zero_add]
    · rename_i hk8
      rw [← hext (k - 8) (by omega), Nat.add_sub_cancel' (by omega)]
  unfold formatName
  dsimp only
  split
  · rename_i hnone
    rw [fillName83_base hbasedot hbaselen hk, ← hfield, hnone]
  · rw [fillName83_dotted hbasedot hbaselen hextdot hk, hfield]

theorem HasShortName.nameIsEqual (h : v.HasShortName p) : v.nameIsEqual p (v.formatName p) := by
  unfold Volume.nameIsEqual
  rw [List.all_eq_true]
  exact fun k hk => beq_iff_eq.mpr (h.fillName83 (List.mem_range.mp hk)).symm

theorem HasShortName.formatName_inj (hp : v.HasShortName p) (hq : v.HasShortName q)
    (h : v.formatName p = v.formatName q) : ∀ k < 11, v.entryByte p k = v.entryByte q k := by
  intro k hk
  rw [← hp.fillName83 hk, ← hq.fillName83 hk, h]

end Volume

end MikanSaos
