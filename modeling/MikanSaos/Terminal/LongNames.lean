import MikanSaos.Terminal.ListEntries

/-!
# LongNames — the VFAT encoding of long names, and what `ls` makes of it

The parts of a long name stand in front of the short entry, the first part next to it and the last one, with
the flag, farthest away.
-/

namespace MikanSaos

/-- Unit `n` of the encoding of a name: its bytes, a NUL and the padding. -/
def unitAt (name : List UInt8) (n : Nat) : UInt8 × UInt8 :=
  match name[n]? with
  | some c => (c, 0)
  | none => if n = name.length then (0, 0) else (0xff, 0xff)

/-- How many entries a name takes. -/
def partCount (name : List UInt8) : Nat := (name.length + 12) / 13

/-- A long name of ASCII characters. -/
structure LongNameText (name : List UInt8) : Prop where
  pos : 0 < name.length
  length_le : name.length ≤ 247
  ascii : ∀ c ∈ name, 0 < c ∧ c < 0x80

theorem LongNameText.nul_notMem {name : List UInt8} (h : LongNameText name) : 0 ∉ name := fun hmem =>
  absurd (h.ascii 0 hmem).1 (by decide)

theorem LongNameText.partCount_le {name : List UInt8} (h : LongNameText name) : partCount name ≤ 19 := by
  have hlen := h.length_le
  unfold partCount
  omega

namespace Volume

/-- The entry that part `i` of the long name of `p` is in. -/
def partEntry (p : EntryPtr) (i : Nat) : EntryPtr := ⟨p.cluster, p.index - 1 - i⟩

/-- Part `i` of a name is there, apart from its checksum. -/
structure HoldsPart (v : Volume) (p : EntryPtr) (name : List UInt8) (i : Nat) : Prop where
  attr : v.attr (partEntry p i) = Attribute.kLongName.code
  order : v.entryByte (partEntry p i) 0 =
    UInt8.ofNat (i + 1) ||| if i + 1 = partCount name then kLastFlag else 0
  units : v.unitsOf (partEntry p i) = (List.range 13).map fun n => unitAt name (13 * i + n)

/-- The entries before `p` hold the name, apart from their checksums. -/
structure HoldsName (v : Volume) (p : EntryPtr) (name : List UInt8) : Prop where
  room : partCount name ≤ p.index
  part : ∀ i < partCount name, v.HoldsPart p name i

/-- The entries before `p` are the encoding of the name. -/
structure Encodes (v : Volume) (p : EntryPtr) (name : List UInt8) : Prop extends
    v.HoldsName p name where
  checkSum : ∀ i < partCount name, v.IsLongNameOf p (partEntry p i)

/-- Entry `j` of the cluster is a part of a long name of `p`. -/
def IsPart (v : Volume) (p : EntryPtr) (j : Nat) : Prop :=
  v.attr ⟨p.cluster, j⟩ = Attribute.kLongName.code ∧ v.IsLongNameOf p ⟨p.cluster, j⟩

/-- The flagged last entry is missing: there is none in the row of parts that ends before `p`. -/
def LacksLast (v : Volume) (p : EntryPtr) : Prop :=
  ∀ j < p.index, (∀ k, j ≤ k → k < p.index → v.IsPart p k) →
    v.entryByte ⟨p.cluster, j⟩ 0 &&& kLastFlag = 0

variable {v : Volume} {p : EntryPtr} {name : List UInt8}

/-! ## Decoding one part -/

theorem decodeUnits_unitAt (hnul : 0 ∉ name) (m : Nat) {start : Nat} (hstart : start ≤ name.length) :
    decodeUnits ((List.range m).map fun n => unitAt name (start + n)) =
      (name.drop start).take m ++ if name.length < start + m then [0] else [] := by
  induction m generalizing start with
  | zero =>
    rw [if_neg (by omega), List.take_zero]
    rfl
  | succ m ih =>
    rw [List.range_succ_eq_map, List.map_cons, List.map_map, Nat.add_zero]
    by_cases hend : start = name.length
    · -- the NUL behind the name
      have hunit : unitAt name start = (0, 0) := by
        rw [unitAt, List.getElem?_eq_none (by omega)]
        exact if_pos hend
      rw [hunit, if_pos (by omega), List.drop_of_length_le (by omega), List.take_nil]
      rfl
    · have hlt : start < name.length := by omega
      have hunit : unitAt name start = (name[start], 0) := by
        rw [unitAt, List.getElem?_eq_getElem hlt]
      have hne : name[start] ≠ 0 := fun hz => hnul (hz ▸ List.getElem_mem hlt)
      have hshift : ((fun n => unitAt name (start + n)) ∘ Nat.succ) =
          fun n => unitAt name (start + 1 + n) := by
        funext n
        show unitAt name (start + (n + 1)) = _
        rw [Nat.add_right_comm, Nat.add_assoc]
      rw [hunit, decodeUnits, if_neg (by decide), if_neg hne, hshift, ih hlt,
        List.drop_eq_getElem_cons hlt, List.take_succ_cons, List.cons_append,
        show start + 1 + m = start + (m + 1) by omega]

/-! ## The loop -/

/-- Only the last part has the flag. -/
theorem HoldsPart.flag {i : Nat} (h : v.HoldsPart p name i) (hi : i < 19) :
    v.entryByte (partEntry p i) 0 &&& kLastFlag = 0 ↔ i + 1 ≠ partCount name := by
  have hplain : ∀ i < 19, (UInt8.ofNat (i + 1) ||| 0) &&& kLastFlag = 0 := by decide
  have hflagged : ∀ i < 19, (UInt8.ofNat (i + 1) ||| kLastFlag) &&& kLastFlag ≠ 0 := by decide
  rw [h.order]
  by_cases hlast : i + 1 = partCount name
  · rw [if_pos hlast]
    exact ⟨fun hz => absurd hz (hflagged i hi), fun hne => absurd hlast hne⟩
  · rw [if_neg hlast]
    exact ⟨fun _ => hlast, fun _ => hplain i hi⟩

/-- One part, with room for it in the buffer. -/
theorem longNameLoop_part {i : Nat} (hi : i < p.index) (hvol : v.attr p ≠ Attribute.kVolumeID.code)
    (hattr : v.attr (partEntry p i) = Attribute.kLongName.code)
    (hcheck : v.IsLongNameOf p (partEntry p i)) {lfns : List UInt8}
    (hroom : lfns.length + 13 < kLfnBytes) (hne : lfns ++ v.longName (partEntry p i) ≠ []) :
    v.longNameLoop p (p.index - i) lfns =
      if v.entryByte (partEntry p i) 0 &&& kLastFlag = 0 then
        v.longNameLoop p (p.index - (i + 1)) (lfns ++ v.longName (partEntry p i))
      else some (some (lfns ++ v.longName (partEntry p i))) := by
  have hlen := longName_length_le v (partEntry p i)
  have hj : p.index - i = p.index - 1 - i + 1 := by omega
  have hnext : p.index - (i + 1) = p.index - 1 - i := by omega
  have hentry : (⟨p.cluster, p.index - 1 - i⟩ : EntryPtr) = partEntry p i := rfl
  rw [hj, hnext, longNameLoop]
  dsimp only
  rw [hentry, if_pos ⟨hvol, hattr⟩, if_pos hcheck, if_neg (by omega), if_neg (by rw [List.length_append]; omega)]
  by_cases hflag : v.entryByte (partEntry p i) 0 &&& kLastFlag = 0
  · rw [if_pos hflag]
    exact if_neg (not_not.mpr hflag)
  · rw [if_neg hflag]
    refine (if_pos hflag).trans ?_
    rw [if_neg hne, if_neg (by rw [List.length_append]; omega)]

/-- With the parts below `i` in the buffer, the loop goes on to the last part. -/
theorem longNameLoop_encodes (hname : LongNameText name) (h : v.Encodes p name)
    (hvol : v.attr p ≠ Attribute.kVolumeID.code) (d : Nat) {i : Nat} (hi : i + d + 1 = partCount name) :
    v.longNameLoop p (p.index - i) (name.take (13 * i)) =
      some (some (name ++ if name.length < 13 * partCount name then [0] else [])) := by
  -- `d` parts are still to come behind part `i`
  induction d generalizing i with
  | zero =>
    have hroom := h.room
    have hcount := hname.partCount_le
    have hpart := h.part i (by omega)
    -- the last part, which may have room for the NUL
    have hlen : 13 * i < name.length ∧ name.length ≤ 13 * (i + 1) := by
      have hpos := hname.pos
      unfold partCount at hi
      omega
    have hdecoded : name.take (13 * i) ++ v.longName (partEntry p i) =
        name ++ if name.length < 13 * partCount name then [0] else [] := by
      rw [longName, hpart.units, decodeUnits_unitAt hname.nul_notMem 13 (by omega), ← List.append_assoc,
        ← List.take_add, List.take_of_length_le (by omega), ← hi, Nat.mul_add]
      rfl
    have hne : name.take (13 * i) ++ v.longName (partEntry p i) ≠ [] := by
      rw [hdecoded]
      exact List.append_ne_nil_of_left_ne_nil (List.length_pos_iff.mp hname.pos) _
    rw [longNameLoop_part (by omega) hvol hpart.attr (h.checkSum i (by omega))
      (by rw [List.length_take]; unfold kLfnBytes; omega) hne, hdecoded, if_neg]
    exact fun hz => (hpart.flag (by omega)).mp hz hi
  | succ d ih =>
    have hroom := h.room
    have hcount := hname.partCount_le
    have hpart := h.part i (by omega)
    -- this part is full
    have hlen : 13 * (i + 1) < name.length := by
      unfold partCount at hi
      omega
    have hdecoded : name.take (13 * i) ++ v.longName (partEntry p i) = name.take (13 * (i + 1)) := by
      rw [longName, hpart.units, decodeUnits_unitAt hname.nul_notMem 13 (by omega), if_neg (by omega),
        List.append_nil, ← List.take_add]
      rfl
    have hne : name.take (13 * i) ++ v.longName (partEntry p i) ≠ [] := by
      rw [hdecoded, ← List.length_pos_iff, List.length_take]
      omega
    rw [longNameLoop_part (by omega) hvol hpart.attr (h.checkSum i (by omega))
      (by rw [List.length_take]; unfold kLfnBytes; omega) hne, hdecoded,
      if_pos ((hpart.flag (by omega)).mpr (by omega))]
    exact ih (by omega)

theorem longNameText_encodes (hname : LongNameText name) (h : v.Encodes p name)
    (hvol : v.attr p ≠ Attribute.kVolumeID.code) :
    ∃ lfns, v.longNameText p = some lfns ∧ cString lfns = name := by
  have hpos := hname.pos
  have hloop := longNameLoop_encodes hname h hvol (partCount name - 1) (i := 0)
    (by unfold partCount; omega)
  rw [Nat.mul_zero, List.take_zero, Nat.sub_zero] at hloop
  refine ⟨_, by rw [longNameText, hloop]; rfl, ?_⟩
  have hchar : ∀ c ∈ name, decide (c ≠ 0) = true := fun c hc =>
    decide_eq_true fun hz => hname.nul_notMem (hz ▸ hc)
  unfold cString
  rw [List.takeWhile_append_of_pos hchar]
  split
  · rw [List.takeWhile_cons_of_neg (by decide), List.append_nil]
  · rw [List.takeWhile_nil, List.append_nil]

/-- Without a flagged last entry the loop ends without a name. -/
theorem longNameLoop_lacksLast (h : v.LacksLast p) (j : Nat) (lfns : List UInt8) (hj : j ≤ p.index)
    (hparts : ∀ k, j ≤ k → k < p.index → v.IsPart p k) : v.longNameLoop p j lfns = some none := by
  induction j generalizing lfns with
  | zero => rfl
  | succ j ih =>
    have hlen := longName_length_le v ⟨p.cluster, j⟩
    rw [longNameLoop]
    dsimp only
    split
    · rename_i hattr
      split
      · rename_i hcheck
        -- the row of parts reaches down to `j`, which has no flag
        have hparts' : ∀ k, j ≤ k → k < p.index → v.IsPart p k := by
          intro k hjk hk
          rcases Nat.eq_or_lt_of_le hjk with rfl | hlt
          · exact ⟨hattr.2, hcheck⟩
          · exact hparts k hlt hk
        split
        · rfl
        · rw [if_neg (by rw [List.length_append]; omega), if_neg (not_not.mpr (h j (by omega) hparts'))]
          exact ih _ (by omega) hparts'
      · rfl
    · rfl

theorem LacksLast.longNameText (h : v.LacksLast p) : v.longNameText p = none := by
  rw [Volume.longNameText, longNameLoop_lacksLast h p.index [] le_rfl fun k hle hlt => by omega]
  rfl

/-- A wrong checksum hides the flagged last entry. -/
theorem HoldsName.lacksLast (h : v.HoldsName p name) (hname : LongNameText name) {i : Nat}
    (hi : i < partCount name) (hcheck : ¬ v.IsLongNameOf p (partEntry p i)) : v.LacksLast p := by
  intro j hj hparts
  have hroom := h.room
  have hcount := hname.partCount_le
  have hentry : ∀ k, k < p.index → partEntry p (p.index - 1 - k) = ⟨p.cluster, k⟩ := fun k hk => by
    rw [partEntry, show p.index - 1 - (p.index - 1 - k) = k by omega]
  by_cases hbefore : j ≤ p.index - 1 - i
  · -- the row would contain the entry with the wrong checksum
    exact absurd (hparts _ hbefore (by omega)).2 hcheck
  · -- the row ends before the flagged entry
    have hpart := h.part (p.index - 1 - j) (by omega)
    have hflag := (hpart.flag (by omega)).mpr (by omega)
    rwa [hentry j hj] at hflag

/-- An entry without a long name. -/
theorem listEntry_of_none (h : v.longNameText p = none) :
    v.listEntry p = some [v.formatName p, bytesOf "\n"] := by
  rw [listEntry_eq_some, h]
  refine ⟨rfl, fun lfns hlfns => ?_⟩
  rw [h] at hlfns
  cases hlfns

end Volume

open Volume

/-- The bytes of part `i` of a name, for the checksum `sum`. -/
def partBytes (name : List UInt8) (sum : UInt8) (i : Nat) : List UInt8 :=
  let units (first n : Nat) := (List.range n).flatMap fun k =>
    [(unitAt name (13 * i + first + k)).1, (unitAt name (13 * i + first + k)).2]
  (UInt8.ofNat (i + 1) ||| if i + 1 = partCount name then kLastFlag else 0) ::
    (units 0 5 ++ [Attribute.kLongName.code, 0, sum] ++ units 5 6 ++ [0, 0] ++ units 11 2)

/-- A volume whose root directory has one entry, "A", with a long name; its checksum is 0x80. -/
def namedEntryVolume (name : List UInt8) : Volume where
  bytesPerCluster := kEntryBytes * (partCount name + 1)
  numFatEntries := 3
  rootCluster := 2
  fat _ := kEndOfClusterchain
  data _ k :=
    if k / kEntryBytes < partCount name then
      (partBytes name 0x80 (partCount name - 1 - k / kEntryBytes)).getD (k % kEntryBytes) 0
    else (bytesOf "A          " ++ [Attribute.kArchive.code]).getD (k % kEntryBytes) 0

theorem namedEntryVolume_chain (name : List UInt8) : (namedEntryVolume name).ClusterChain 2 [2] :=
  ⟨.last rfl, fun x hx => by
    obtain rfl := List.mem_singleton.mp hx
    exact ⟨⟨le_rfl, Nat.lt_succ_self 2⟩, (by decide : kEndOfClusterchain ≠ 0)⟩⟩

end MikanSaos
