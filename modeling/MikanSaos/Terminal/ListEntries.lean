import MikanSaos.FileSystem.PathResolution
import MikanSaos.Terminal.Printing

/-!
# ListEntries — the command `ls`

`ListAllEntries` prints the entries of a directory that are neither deleted nor parts of long names, up to
the first entry that was never used.  A long name stands in the entries before its short entry, in the same
cluster, and is put together in the buffer `lfns` from the short entry backwards.
-/

open Reasoning

namespace MikanSaos

/-- The size of `lfns`. -/
def kLfnBytes : Nat := 255

def kLastFlag : UInt8 := 0x40

def kQuestionMark : UInt8 := 0x3f

/-- Where unit `n` of a long-name entry is: in `name1`, `name2` or `name3`. -/
def unitOffset (n : Nat) : Nat :=
  if n < 5 then 1 + 2 * n else if n < 11 then 14 + 2 * (n - 5) else 28 + 2 * (n - 11)

/-- The three loops of `LongName` over the units, low byte first: what they write to `fullname`.  A NUL is
written, and ends the name. -/
def decodeUnits : List (UInt8 × UInt8) → List UInt8
  | [] => []
  | (low, high) :: units =>
    if high ≠ 0 then kQuestionMark :: decodeUnits units
    else if low = 0 then [0]
    else low :: decodeUnits units

namespace Volume

def checkSum (v : Volume) (p : EntryPtr) : UInt8 :=
  (List.range 11).foldl (fun sum k => (sum >>> 1) + (sum <<< 7) + v.entryByte p k) 0

/-- The units of a long-name entry. -/
def unitsOf (v : Volume) (p : EntryPtr) : List (UInt8 × UInt8) :=
  (List.range 13).map fun n => (v.entryByte p (unitOffset n), v.entryByte p (unitOffset n + 1))

def longName (v : Volume) (p : EntryPtr) : List UInt8 := decodeUnits (v.unitsOf p)

/-- `GetLFNDirectoryEntry` is not `nullptr`. -/
def IsLongNameOf (v : Volume) (p q : EntryPtr) : Prop := v.checkSum p = v.entryByte q 13

instance (v : Volume) (p q : EntryPtr) : Decidable (v.IsLongNameOf p q) :=
  inferInstanceAs (Decidable (_ = _))

/-- The loop for the long name of `p`, with the entries of its cluster below `j` to go: the bytes in `lfns`
before the NUL, if there is a long name.  It is `none` where the code writes behind the end of `lfns`. -/
def longNameLoop (v : Volume) (p : EntryPtr) : Nat → List UInt8 → Option (Option (List UInt8))
  | 0, _ => some none
  | j + 1, lfns =>
    let q : EntryPtr := ⟨p.cluster, j⟩
    if v.attr p ≠ Attribute.kVolumeID.code ∧ v.attr q = Attribute.kLongName.code then
      if v.IsLongNameOf p q then
        -- where another part might not fit, the long name is given up
        if kLfnBytes ≤ lfns.length + 13 then some none
        else
          let lfns := lfns ++ v.longName q
          -- `LongName` has written behind the end of `lfns`
          if kLfnBytes < lfns.length then none
          else if v.entryByte q 0 &&& kLastFlag ≠ 0 then
            if lfns = [] then some none
            else if kLfnBytes ≤ lfns.length then none
            else some (some lfns)
          else longNameLoop v p j lfns
      else some none
    else some none

/-- What is printed for an entry. -/
def entryTexts (v : Volume) (p : EntryPtr) : Option (List UInt8) → List (List UInt8)
  | none => [v.formatName p, bytesOf "\n"]
  | some lfns => [v.formatName p, bytesOf "    ", cString lfns, bytesOf "\n"]

def listEntry (v : Volume) (p : EntryPtr) : Option (List (List UInt8)) :=
  (v.longNameLoop p p.index []).bind fun lfns => (v.entryTexts p lfns).mapM printToFD

/-- The entry is neither deleted nor a part of a long name. -/
def isListed (v : Volume) (p : EntryPtr) : Bool :=
  v.entryByte p 0 != kDeleted && v.attr p != Attribute.kLongName.code

/-- The loop over the entries of a cluster: the `Write` calls, and whether it has come to an entry that was
never used. -/
def listSlots (v : Volume) : List EntryPtr → Option (List (List UInt8) × Bool)
  | [] => some ([], false)
  | p :: ps =>
    -- from the first unused entry on nothing is in use
    if v.entryByte p 0 = 0 then some ([], true)
    else if v.isListed p then
      (v.listEntry p).bind fun texts =>
        (listSlots v ps).map fun (rest, done) => (texts ++ rest, done)
    else listSlots v ps

/-- `ListAllEntries`: its `Write` calls. -/
def listAllEntries (v : Volume) : Nat → Nat → Option (List (List UInt8))
  | 0, _ => none
  | fuel + 1, cluster =>
    if cluster = kEndOfClusterchain then some []
    else if v.IsCluster cluster then
      (v.listSlots ((List.range v.entriesPerCluster).map (⟨cluster, ·⟩))).bind fun (texts, done) =>
        if done then some texts
        else (v.nextCluster cluster).bind fun next =>
          (listAllEntries v fuel next).map (texts ++ ·)
    else none

/-- The entries of the clusters `l` that `ls` shows. -/
def listedEntries (v : Volume) (l : List Nat) : List EntryPtr := (v.entriesOf l).filter v.isListed

variable {v : Volume} {c : Nat} {l : List Nat} {p q : EntryPtr}

/-! ## The walk -/

theorem listSlots_append (ps qs : List EntryPtr) :
    v.listSlots (ps ++ qs) = (v.listSlots ps).bind fun (texts, done) =>
      if done then some (texts, true)
      else (v.listSlots qs).map fun (rest, done) => (texts ++ rest, done) := by
  induction ps with
  | nil => simp [listSlots]
  | cons p ps ih =>
    rw [List.cons_append, listSlots, listSlots]
    split
    · rfl
    · split
      · rw [ih]
        cases v.listEntry p with
        | none => rfl
        | some texts =>
          rw [Option.bind_some, Option.bind_some]
          cases v.listSlots ps with
          | none => rfl
          | some r =>
            obtain ⟨rest, done⟩ := r
            cases done with
            | true => rfl
            | false => cases v.listSlots qs <;> simp
      · exact ih

/-- The loop shows the entries before the first unused one, in their order. -/
theorem listSlots_eq (ps : List EntryPtr) :
    (v.listSlots ps).map Prod.fst =
      (((ps.takeWhile (v.entryByte · 0 ≠ 0)).filter v.isListed).mapM v.listEntry).map List.flatten := by
  induction ps with
  | nil => rfl
  | cons p ps ih =>
    rw [listSlots, List.takeWhile_cons]
    by_cases hzero : v.entryByte p 0 = 0
    · simp [hzero]
    · rw [if_neg hzero, if_pos (decide_eq_true hzero), List.filter_cons]
      by_cases hlisted : v.isListed p
      · rw [if_pos hlisted, if_pos hlisted, List.mapM_cons]
        cases hentry : v.listEntry p with
        | none => rfl
        | some texts =>
          rw [Option.bind_some, Option.map_map]
          -- the texts of this entry stand in front of those of the others
          have hcons := congrArg (Option.map (texts ++ ·)) ih
          rw [Option.map_map, Option.map_map] at hcons
          refine Eq.trans hcons ?_
          cases List.mapM v.listEntry ((ps.takeWhile (v.entryByte · 0 ≠ 0)).filter v.isListed) <;> rfl
      · rw [if_neg hlisted, if_neg hlisted]
        exact ih

/-- `ListAllEntries` goes through all clusters of the directory. -/
theorem listAllEntries_eq (hmax : v.numFatEntries ≤ kMaxFatEntries) (h : v.ClusterChain c l) {fuel : Nat}
    (hfuel : l.length < fuel) :
    v.listAllEntries fuel c = ((v.listedEntries l).mapM v.listEntry).map List.flatten := by
  unfold listedEntries entriesOf
  rw [← listSlots_eq]
  have hslots : ∀ x l, v.slotsOf (x :: l) =
      (List.range v.entriesPerCluster).map (⟨x, ·⟩) ++ v.slotsOf l := by
    intro x l
    unfold slotsOf
    rw [List.flatMap_cons]
  -- the listing of a cluster, and what comes after it
  have hstep : ∀ x y l fuel, v.IsCluster x → x ≠ kEndOfClusterchain → v.nextCluster x = some y →
      v.listAllEntries fuel y = (v.listSlots (v.slotsOf l)).map Prod.fst →
      v.listAllEntries (fuel + 1) x = (v.listSlots (v.slotsOf (x :: l))).map Prod.fst := by
    intro x y l fuel hcluster hend hnext hrest
    rw [listAllEntries, if_neg hend, if_pos hcluster, hslots, listSlots_append]
    cases v.listSlots ((List.range v.entriesPerCluster).map (⟨x, ·⟩)) with
    | none => rfl
    | some r =>
      obtain ⟨texts, done⟩ := r
      rw [Option.bind_some, Option.bind_some]
      dsimp only
      cases done with
      | true => rfl
      | false =>
        rw [if_neg (by decide), if_neg (by decide), hnext, Option.bind_some, hrest, Option.map_map,
          Option.map_map]
        rfl
  induction h using ClusterChain.walk hmax generalizing fuel with
  | last x _ hcluster hend hnext =>
    obtain ⟨fuel, rfl⟩ : ∃ k, fuel = k + 2 := ⟨fuel - 2, by simp at hfuel; omega⟩
    apply hstep x _ [] _ hcluster hend hnext
    rw [listAllEntries]
    rfl
  | link x y l _ _ hcluster hend hnext _ ih =>
    obtain ⟨fuel, rfl⟩ : ∃ k, fuel = k + 1 := ⟨fuel - 1, by omega⟩
    exact hstep x y l _ hcluster hend hnext (ih (by simpa using hfuel))

/-! ## One entry -/

theorem mapM_printToFD {texts texts' : List (List UInt8)} : texts.mapM printToFD = some texts' ↔
    texts' = texts ∧ ∀ text ∈ texts, text.length + 1 ≤ kPrintBytes := by
  induction texts generalizing texts' with
  | nil => simp [eq_comm]
  | cons text texts ih =>
    rw [List.mapM_cons, List.forall_mem_cons]
    constructor
    · intro h
      obtain ⟨text', htext, hmap⟩ := Option.bind_eq_some_iff.mp h
      obtain ⟨rest, hrest, hcons⟩ := Option.bind_eq_some_iff.mp hmap
      obtain ⟨rfl, hfit⟩ := printToFD_eq_some htext
      obtain ⟨rfl, hall⟩ := ih.mp hrest
      exact ⟨(Option.some.inj hcons).symm, hfit, hall⟩
    · rintro ⟨rfl, hfit, hall⟩
      rw [printToFD_of_le hfit, ih.mpr ⟨rfl, hall⟩]
      rfl

theorem decodeUnits_length_le (units : List (UInt8 × UInt8)) :
    (decodeUnits units).length ≤ units.length := by
  induction units with
  | nil => exact Nat.le_refl 0
  | cons unit units ih =>
    rw [decodeUnits]
    split
    · exact Nat.succ_le_succ ih
    · split
      · exact Nat.succ_le_succ (Nat.zero_le _)
      · exact Nat.succ_le_succ ih

theorem longName_length_le (v : Volume) (q : EntryPtr) : (v.longName q).length ≤ 13 :=
  Nat.le_trans (decodeUnits_length_le _) (by rw [unitsOf, List.length_map, List.length_range])

/-- Nothing is written behind the end of `lfns`. -/
theorem longNameLoop_isSome (v : Volume) (p : EntryPtr) (j : Nat) (lfns : List UInt8) :
    (v.longNameLoop p j lfns).isSome := by
  induction j generalizing lfns with
  | zero => rfl
  | succ j ih =>
    have hlen := longName_length_le v ⟨p.cluster, j⟩
    rw [longNameLoop]
    dsimp only
    split
    · split
      · split
        · rfl
        · -- there is room for thirteen units and the NUL
          rw [if_neg (by rw [List.length_append]; omega), List.length_append]
          split
          · split
            · rfl
            · rw [if_neg (by omega)]
              rfl
          · exact ih _
      · rfl
    · rfl

/-- The bytes of the long name of `p`, if it has one. -/
def longNameText (v : Volume) (p : EntryPtr) : Option (List UInt8) := (v.longNameLoop p p.index []).join

/-- The long name of `p` fits the string of `PrintToFD`. -/
def LongNameFits (v : Volume) (p : EntryPtr) : Prop :=
  ∀ lfns, v.longNameText p = some lfns → (cString lfns).length + 1 ≤ kPrintBytes

/-- The texts other than the long name always fit. -/
theorem entryTexts_fit (v : Volume) (p : EntryPtr) :
    (∀ text ∈ v.entryTexts p (v.longNameText p), text.length + 1 ≤ kPrintBytes) ↔
      v.LongNameFits p := by
  have hname : (v.formatName p).length + 1 ≤ kPrintBytes :=
    Nat.le_trans (Nat.succ_le_succ (v.formatName_length_le p)) (by decide)
  unfold LongNameFits
  cases v.longNameText p with
  | none =>
    refine ⟨fun _ lfns h => (by cases h), fun _ => ?_⟩
    exact List.forall_mem_cons.mpr ⟨hname, by decide⟩
  | some lfns =>
    constructor
    · rintro h lfns' ⟨⟩
      exact h (cString lfns) (by simp [entryTexts])
    · intro h
      exact List.forall_mem_cons.mpr ⟨hname, List.forall_mem_cons.mpr ⟨by decide,
        List.forall_mem_cons.mpr ⟨h lfns rfl, by decide⟩⟩⟩

theorem listEntry_eq_some {texts : List (List UInt8)} : v.listEntry p = some texts ↔
    texts = v.entryTexts p (v.longNameText p) ∧ v.LongNameFits p := by
  obtain ⟨r, hr⟩ := Option.isSome_iff_exists.mp (v.longNameLoop_isSome p p.index [])
  have htext : v.longNameText p = r := by
    rw [longNameText, hr]
    rfl
  rw [listEntry, hr, Option.bind_some, ← htext, mapM_printToFD, entryTexts_fit]

/-! ## Finding what is listed -/

/-- A well-formed 8.3 name that a path can name. -/
structure HasPathName (v : Volume) (p : EntryPtr) : Prop extends v.HasShortName p where
  no_slash : ∀ k < 11, v.entryByte p k ≠ kSlash

theorem mem_namePart {first n : Nat} {b : UInt8} (h : b ∈ v.namePart p first n) :
    ∃ k < n, b = v.entryByte p (first + k) := by
  have hmem := (List.rdropWhile_prefix _ _).subset ((List.takeWhile_prefix _).subset h)
  obtain ⟨k, hk, rfl⟩ := List.mem_map.mp hmem
  exact ⟨k, List.mem_range.mp hk, rfl⟩

theorem HasPathName.slash_notMem (h : v.HasPathName p) : kSlash ∉ v.formatName p := by
  have hpart : ∀ first n, first + n ≤ 11 → kSlash ∉ v.namePart p first n := by
    intro first n hn hmem
    obtain ⟨k, hk, heq⟩ := mem_namePart hmem
    exact h.no_slash _ (by omega) heq.symm
  unfold formatName
  dsimp only
  split
  · exact hpart 0 8 (by decide)
  · rw [List.mem_append, List.mem_cons]
    rintro (hmem | hdot | hmem)
    · exact hpart 0 8 (by decide) hmem
    · exact absurd hdot (by decide)
    · exact hpart 8 3 (by decide) hmem

theorem HasPathName.findFile (h : v.HasPathName p) (hmax : v.numFatEntries ≤ kMaxFatEntries)
    (hl : v.ClusterChain c l) (hp : p ∈ v.entriesOf l) :
    ∃ q, v.findFile (v.formatName p) c = some (some q, false) ∧
      ∀ k < 11, v.entryByte q k = v.entryByte p k := by
  have hslash := h.slash_notMem
  have hhead : (v.formatName p).head? ≠ some kSlash := fun heq => hslash (List.mem_of_head? heq)
  have hc : v.directoryAt c = c := by
    have hcluster := (hl.valid c hl.chain.head_mem).1.1
    rw [directoryAt, if_neg (by omega)]
  rw [Volume.findFile, findFileFrom_relative hhead, hc,
    findElement_last hmax hl (nextPathElement_last hslash) (v.formatName_length_le p) (.inl rfl)]
  cases hfind : (v.entriesOf l).find? (v.nameIsEqual · (v.formatName p)) with
  | none => exact absurd h.nameIsEqual (List.find?_eq_none.mp hfind p hp)
  | some q =>
    -- another entry with this name has the same eleven bytes
    refine ⟨q, rfl, fun k hk => ?_⟩
    have hequal := List.find?_some hfind
    rw [nameIsEqual_iff.mp hequal k hk, h.fillName83 hk]

/-- **What `ls` prints can be found.**  `FormatName` and `NameIsEqual` agree on well-formed names, and a name
that `ls` prints is found again in its directory unless there is a slash in it; `ls` prints the listed
entries in their order, if their long names fit. -/
theorem listed_names_found (hmax : v.numFatEntries ≤ kMaxFatEntries) (h : v.ClusterChain c l) :
    (∀ p, v.HasShortName p → v.nameIsEqual p (v.formatName p)) ∧
    (∀ p q, v.HasShortName p → v.HasShortName q → v.formatName p = v.formatName q →
      ∀ k < 11, v.entryByte p k = v.entryByte q k) ∧
    (∀ p ∈ v.listedEntries l, v.HasPathName p → ∃ q postSlash,
      v.findFile (v.formatName p) c = some (some q, postSlash) ∧
        ∀ k < 11, v.entryByte q k = v.entryByte p k) ∧
    ((∀ p ∈ v.listedEntries l, v.LongNameFits p) → v.listAllEntries (v.numFatEntries + 1) c =
      some ((v.listedEntries l).flatMap fun p => v.entryTexts p (v.longNameText p))) := by
  refine ⟨fun p hp => hp.nameIsEqual, fun p q hp hq heq => hp.formatName_inj hq heq, ?_, ?_⟩
  · intro p hp hname
    obtain ⟨q, hfind, hbytes⟩ := hname.findFile hmax h (List.mem_of_mem_filter hp)
    exact ⟨q, false, hfind, hbytes⟩
  · intro hfit
    rw [listAllEntries_eq hmax h (Nat.lt_succ_of_le h.length_le)]
    have hall : (v.listedEntries l).mapM v.listEntry =
        some ((v.listedEntries l).map fun p => v.entryTexts p (v.longNameText p)) := by
      generalize v.listedEntries l = ps at hfit
      induction ps with
      | nil => rfl
      | cons p ps ih =>
        rw [List.forall_mem_cons] at hfit
        rw [List.mapM_cons, ih hfit.2, listEntry_eq_some.mpr ⟨rfl, hfit.1⟩]
        rfl
    rw [hall, Option.map_some, List.flatMap_def]

end Volume

open Volume

theorem listed_names_found_two_entries :
    (∃ q postSlash, (rootVolume [bytesOf "bin", bytesOf "a.txt"]).findFile
        ((rootVolume [bytesOf "bin", bytesOf "a.txt"]).formatName ⟨2, 1⟩) 2 = some (some q, postSlash) ∧
      ∀ k < 11, (rootVolume [bytesOf "bin", bytesOf "a.txt"]).entryByte q k =
        (rootVolume [bytesOf "bin", bytesOf "a.txt"]).entryByte ⟨2, 1⟩ k) ∧
    (rootVolume [bytesOf "bin", bytesOf "a.txt"]).listAllEntries 4 2 =
      some [bytesOf "BIN", bytesOf "\n", bytesOf "A.TXT", bytesOf "\n"] := by
  obtain ⟨-, -, hfind, hlist⟩ := listed_names_found (v := rootVolume [bytesOf "bin", bytesOf "a.txt"])
    (by decide) (rootVolume_chain _)
  refine ⟨hfind _ (by decide) ⟨⟨by decide, by decide, by decide⟩, by decide⟩, ?_⟩
  apply (hlist _).trans
  · decide
  · intro p hp lfns hlfns
    -- neither of the two entries has a long name
    have hnone : ∀ q ∈ (rootVolume [bytesOf "bin", bytesOf "a.txt"]).listedEntries [2],
        (rootVolume [bytesOf "bin", bytesOf "a.txt"]).longNameText q = none := by decide
    rw [hnone p hp] at hlfns
    cases hlfns

/-- A name with a slash is a path of two elements. -/
theorem listed_name_not_found : (rootVolume [bytesOf "a/b"]).HasShortName ⟨2, 0⟩ ∧
    (rootVolume [bytesOf "a/b"]).listAllEntries 4 2 = some [bytesOf "A/B", bytesOf "\n"] ∧
    (rootVolume [bytesOf "a/b"]).findFile (bytesOf "A/B") 2 = some (none, true) :=
  ⟨⟨by decide, by decide, by decide⟩, by decide, by decide⟩

end MikanSaos
