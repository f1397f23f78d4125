import MikanSaos.FileSystem.WriteFrame
import MikanSaos.Terminal.Printing

/-!
# Cat — the loop of the command `cat`

The loop reads a line, or as much of it as `u8buf` has room for, and prints it.  What it prints may go to
another file of the volume; the file that it reads stays as it is.
-/

namespace MikanSaos

/-- The size of `u8buf`. -/
def kCatBytes : Nat := 1024

/-- The loop of `cat`: its `Write` calls; `write text` is what such a call does to the state. -/
def catLoop {σ : Type} (read : σ → Option (List UInt8 × σ)) (write : List UInt8 → σ → σ) :
    Nat → σ → Option (List (List UInt8))
  | 0, _ => none
  | fuel + 1, s => (readDelim read kNewline kCatBytes s).bind fun (u8buf, s) =>
    if u8buf = [] then some []
    else (printToFD (cString u8buf)).bind fun text =>
      (catLoop read write fuel (write text s)).map (text :: ·)

/-- Every line, with its newline, fits the string of `PrintToFD` with the NUL behind it. -/
def LinesFit (content : List UInt8) : Prop :=
  ∀ line, line <:+: content → kNewline ∉ line.dropLast → line.length + 1 ≤ kPrintBytes

/-! ## Lines -/

/-- A line does not go on behind a newline. -/
theorem infix_of_getLast? {line piece rest : List UInt8} {delim : UInt8}
    (hline : line <:+: piece ++ rest) (hlast : piece.getLast? = some delim)
    (hdelim : delim ∉ line.dropLast) : line <:+: piece ∨ line <:+: rest := by
  rcases List.infix_append_iff.mp hline with h | h | ⟨s, t, rfl, hs, ht⟩
  · exact .inl h
  · exact .inr h
  · by_cases hsnil : s = []
    · rw [hsnil]
      exact .inr ht.isInfix
    by_cases htnil : t = []
    · rw [htnil, List.append_nil]
      exact .inl hs.isInfix
    -- the line has the newline at the end of the piece, and something behind it
    exfalso
    apply hdelim
    rw [List.dropLast_append_of_ne_nil htnil]
    apply List.mem_append_left
    obtain ⟨u, rfl⟩ := hs
    rw [List.getLast?_append_of_ne_nil u hsnil] at hlast
    exact List.mem_of_getLast? hlast

theorem LinesFit.of_infix {content content' : List UInt8} (h : LinesFit content)
    (hin : content' <:+: content) : LinesFit content' :=
  fun line hline hnl => h line (hline.trans hin) hnl

section

variable {σ : Type} {read : σ → Option (List UInt8 × σ)} {write : List UInt8 → σ → σ}
  {left : List UInt8 → σ → Prop} {content : List UInt8}

/-- The first piece of a stream, and the rest. -/
theorem delimited_append_drop (n : Nat) (content : List UInt8) :
    delimited kNewline n content ++ content.drop (delimited kNewline n content).length = content :=
  List.prefix_iff_eq_append.mp (delimited_isPrefix kNewline n content)

/-- Lines that fit are copied one after the other. -/
theorem catLoop_of_linesFit (hread : Delivers read left)
    (hwrite : ∀ content s text, left content s → left content (write text s)) {fuel : Nat} {s : σ}
    (hfuel : content.length < fuel) (hnul : 0 ∉ content) (hs : left content s)
    (hfit : LinesFit content) :
    ∃ writes, catLoop read write fuel s = some writes ∧ writes.flatten = content ∧
      ∀ text ∈ writes, text.length + 1 ≤ kPrintBytes := by
  induction fuel generalizing content s with
  | zero => cases hfuel
  | succ fuel ih =>
    obtain ⟨s₁, hline, hs₁⟩ := readDelimLoop_eq kNewline hread (kCatBytes - 1) hs
    have hsplit := delimited_append_drop (kCatBytes - 1) content
    have hpre := delimited_isPrefix kNewline (kCatBytes - 1) content
    have hdrop := delimited_dropLast kNewline (kCatBytes - 1) content
    rw [catLoop, readDelim, hline, Option.bind_some]
    dsimp only
    by_cases hend : delimited kNewline (kCatBytes - 1) content = []
    · -- nothing is left
      rw [if_pos hend, delimited_eq_nil (by decide) hend]
      exact ⟨[], rfl, rfl, fun text htext => by cases htext⟩
    · have hpos := List.length_pos_iff.mpr hend
      have hrest := List.drop_suffix (delimited kNewline (kCatBytes - 1) content).length content
      have hlength := congrArg List.length hsplit
      rw [List.length_append] at hlength
      -- the piece has no newline but at its end, so that it is one of the lines that fit
      generalize delimited kNewline (kCatBytes - 1) content = line at *
      have hlen := hfit line hpre.isInfix hdrop
      obtain ⟨writes, hwrites, hflat, hall⟩ := ih (s := write line s₁) (by omega)
        (fun hz => hnul (hrest.subset hz)) (hwrite _ _ _ hs₁) (hfit.of_infix hrest.isInfix)
      rw [if_neg hend, cString_of_notMem fun hz => hnul (hpre.subset hz), printToFD_of_le hlen,
        Option.bind_some, hwrites, Option.map_some]
      refine ⟨_, rfl, ?_, fun text htext => ?_⟩
      · rw [List.flatten_cons, hflat, hsplit]
      · rcases List.mem_cons.mp htext with rfl | htext
        · exact hlen
        · exact hall text htext

/-- If every line that is printed fits, every line of the stream fits. -/
theorem linesFit_of_catLoop (hread : Delivers read left)
    (hwrite : ∀ content s text, left content s → left content (write text s)) {fuel : Nat} {s : σ}
    {writes : List (List UInt8)} (hnul : 0 ∉ content) (hs : left content s)
    (hcat : catLoop read write fuel s = some writes) : LinesFit content := by
  induction fuel generalizing content s writes with
  | zero => cases hcat
  | succ fuel ih =>
    obtain ⟨s₁, hline, hs₁⟩ := readDelimLoop_eq kNewline hread (kCatBytes - 1) hs
    have hsplit := delimited_append_drop (kCatBytes - 1) content
    have hpre := delimited_isPrefix kNewline (kCatBytes - 1) content
    rw [catLoop, readDelim, hline, Option.bind_some] at hcat
    dsimp only at hcat
    split at hcat
    · -- nothing is left
      rename_i hend
      rw [delimited_eq_nil (by decide) hend]
      intro line hinfix hnl
      rw [List.infix_nil.mp hinfix]
      decide
    · obtain ⟨text, htext, hcat⟩ := Option.bind_eq_some_iff.mp hcat
      obtain ⟨rest, hrest, -⟩ := Option.map_eq_some_iff.mp hcat
      have hsuffix := List.drop_suffix (delimited kNewline (kCatBytes - 1) content).length content
      have hfit := ih (fun hz => hnul (hsuffix.subset hz)) (hwrite _ _ _ hs₁) hrest
      obtain ⟨-, hlen⟩ := printToFD_eq_some htext
      rw [cString_of_notMem fun hz => hnul (hpre.subset hz)] at hlen
      -- the piece is shorter than the buffer, so that it ends a line
      have hshort := delimited_short (Nat.lt_of_succ_le (Nat.le_trans hlen (by decide)) :
        (delimited kNewline (kCatBytes - 1) content).length < kCatBytes - 1)
      intro line hinfix hnl
      have hwhole : ∀ piece : List UInt8, piece.length + 1 ≤ kPrintBytes → line <:+: piece →
          line.length + 1 ≤ kPrintBytes := fun piece hpiece hin =>
        Nat.le_trans (Nat.succ_le_succ hin.length_le) hpiece
      rcases hshort with hall | hlast
      · rw [hall] at hlen
        exact hwhole content hlen hinfix
      · rw [← hsplit] at hinfix
        rcases infix_of_getLast? hinfix hlast hnl with hin | hin
        · exact hwhole _ hlen hin
        · exact hfit line hin hnl

end

/-! ## Files -/

namespace Volume

/-- The entry and the clusters of the file are the same in both volumes. -/
structure SameFile (v v' : Volume) (p : EntryPtr) (l : List Nat) : Prop where
  clusters : SameClusters v v' l
  entry : SameEntry v v' p fun _ => False

variable {v : Volume} {p : EntryPtr} {l : List Nat}

theorem SameFile.refl (v : Volume) (p : EntryPtr) (l : List Nat) : SameFile v v p l :=
  ⟨⟨rfl, rfl, fun _ _ => rfl, fun _ _ => rfl⟩, fun _ _ _ => rfl⟩

/-- `Read` of one byte, on a descriptor and the volume. -/
def readByte (s : FileDescriptor × Volume) : Option (List UInt8 × FileDescriptor × Volume) :=
  (s.1.read s.2 1).map fun (bytes, fd) => (bytes, fd, s.2)

/-- A descriptor of the file, before its end, on a volume where the file is the one of `v`. -/
structure LeftToRead (v : Volume) (p : EntryPtr) (l : List Nat) (content : List UInt8)
    (s : FileDescriptor × Volume) : Prop where
  sameFile : SameFile v s.2 p l
  position : v.ReadPosition p l s.1
  rdOff_le : s.1.rdOff ≤ v.fileSize p
  content : content = v.bytesAt l s.1.rdOff (v.fileSize p - s.1.rdOff)

theorem delivers_readByte (hb : 0 < v.bytesPerCluster) (hmax : v.numFatEntries ≤ kMaxFatEntries)
    (h : v.FileChain p l) (hcover : v.fileSize p ≤ l.length * v.bytesPerCluster) :
    Delivers readByte (v.LeftToRead p l) := by
  rintro content ⟨fd, u⟩ ⟨hsame, hpos, hle, rfl⟩
  dsimp only at hsame hpos hle
  have hentry := hpos.entry
  have hcluster : fd.rdCluster = 0 ∨ fd.rdCluster ∈ l ∨ ¬ v.IsCluster fd.rdCluster := by
    rcases hpos.cluster with ⟨hzero, -⟩ | hget | ⟨hend, -⟩
    · exact .inl hzero
    · exact .inr (.inl (List.mem_of_getElem? hget))
    · rw [hend]
      exact .inr (.inr (not_isCluster_end hmax))
  obtain ⟨heq, -⟩ := read_congr hmax (hentry ▸ h) hsame.clusters (hentry ▸ hsame.entry) hcluster 1
  obtain ⟨fd', hread, hpos', hoff', -⟩ := hpos.read hmax hb h hcover hle 1
  refine ⟨(fd', u), ?_, hsame, hpos', ?_, ?_⟩
  · unfold readByte
    rw [heq, hread, Option.map_some]
    congr 2
    rw [bytesAt, bytesAt, ← List.map_take, List.take_range]
  · show fd'.rdOff ≤ _
    omega
  · -- at the end of the file nothing is read, before it one byte
    show _ = v.bytesAt l fd'.rdOff _
    by_cases hend : fd.rdOff = v.fileSize p
    · have hnone : v.fileSize p - fd.rdOff = 0 := by omega
      rw [hoff', hnone, Nat.min_zero, Nat.add_zero, hnone]
      rfl
    · rw [hoff', show v.fileSize p - fd.rdOff = 1 + (v.fileSize p - fd.rdOff - 1) by omega, bytesAt_add,
        show min 1 (1 + (v.fileSize p - fd.rdOff - 1)) = 1 by omega,
        show v.fileSize p - (fd.rdOff + 1) = v.fileSize p - fd.rdOff - 1 by omega]
      rfl

/-- `cat` of a file: the `Write` calls, where `write text` is what such a call does to the volume. -/
def cat (v : Volume) (p : EntryPtr) (write : List UInt8 → Volume → Volume) :
    Option (List (List UInt8)) :=
  catLoop readByte (fun text s => (s.1, write text s.2)) (v.fileSize p + 1) (.new p, v)

end Volume

open Volume

/-- `cat` copies a file, line by line and within the buffers, exactly if every line of it fits the string
of `PrintToFD`. -/
theorem cat_copies_iff {v : Volume} {p : EntryPtr} {l : List Nat} (hb : 0 < v.bytesPerCluster)
    (hmax : v.numFatEntries ≤ kMaxFatEntries) (h : v.FileChain p l)
    (hcover : v.fileSize p ≤ l.length * v.bytesPerCluster) (hnul : 0 ∉ v.fileBytes p l)
    {write : List UInt8 → Volume → Volume}
    (hwrite : ∀ text u, SameFile v u p l → SameFile v (write text u) p l) :
    (∃ writes, v.cat p write = some writes ∧ writes.flatten = v.fileBytes p l ∧
      ∀ text ∈ writes, text.length + 1 ≤ kPrintBytes) ↔
      LinesFit (v.fileBytes p l) := by
  have hread := delivers_readByte hb hmax h hcover
  have hkeep : ∀ content s text, v.LeftToRead p l content s →
      v.LeftToRead p l content (s.1, write text s.2) :=
    fun _ _ text hs => ⟨hwrite text _ hs.1, hs.2, hs.3, hs.4⟩
  have hstart : v.LeftToRead p l (v.fileBytes p l) (.new p, v) :=
    ⟨.refl v p l, .new v p l, Nat.zero_le _, rfl⟩
  constructor
  · rintro ⟨writes, hcat, -, -⟩
    exact linesFit_of_catLoop hread hkeep hnul hstart hcat
  · intro hfit
    apply catLoop_of_linesFit hread hkeep _ hnul hstart hfit
    rw [fileBytes, bytesAt_length]
    exact Nat.lt_succ_self _

theorem cat_copies_iff_two_clusters :
    ∃ writes, twoClusterVolume.cat ⟨2, 0⟩ (fun _ u => u) = some writes ∧
      writes.flatten = twoClusterVolume.fileBytes ⟨2, 0⟩ [3, 5] ∧
      ∀ text ∈ writes, text.length + 1 ≤ kPrintBytes := by
  refine (cat_copies_iff (by decide) (by decide) twoClusterVolume_chain (by decide) (by decide)
    fun _ _ hu => hu).mpr fun line hline _ => ?_
  have hlen := hline.length_le
  rw [fileBytes, bytesAt_length] at hlen
  exact Nat.le_trans (Nat.succ_le_succ hlen) (by decide)

/-- A volume with a file of one line of 128 bytes, without a newline. -/
def longLineVolume : Volume where
  bytesPerCluster := 128
  numFatEntries := 4
  rootCluster := 2
  fat _ := kEndOfClusterchain
  data c k :=
    if c = 2 then
      (bytesOf "A          " ++ Attribute.kArchive.code :: List.replicate 14 0 ++ [3, 0, 128]).getD k 0
    else 0x41

/-- The line and its NUL are 129 bytes, one more than the string of `PrintToFD` has. -/
theorem cat_overruns : longLineVolume.FileChain ⟨2, 0⟩ [3] ∧ 0 ∉ longLineVolume.fileBytes ⟨2, 0⟩ [3] ∧
    ¬ ∃ writes, longLineVolume.cat ⟨2, 0⟩ (fun _ u => u) = some writes ∧
      writes.flatten = longLineVolume.fileBytes ⟨2, 0⟩ [3] ∧
      ∀ text ∈ writes, text.length + 1 ≤ kPrintBytes := by
  have hchain : longLineVolume.FileChain ⟨2, 0⟩ [3] := .inr ⟨.last (by decide), by decide⟩
  have hnul : 0 ∉ longLineVolume.fileBytes ⟨2, 0⟩ [3] := by decide +kernel
  refine ⟨hchain, hnul, ?_⟩
  rintro ⟨writes, hcat, -, -⟩
  have hread := delivers_readByte (by decide) (by decide) hchain (by decide +kernel)
  have hfit := linesFit_of_catLoop hread (fun _ _ _ hs => ⟨hs.1, hs.2, hs.3, hs.4⟩) hnul
    ⟨.refl longLineVolume ⟨2, 0⟩ [3], .new _ _ _, Nat.zero_le _, rfl⟩ hcat
  have hlen := hfit _ List.infix_rfl (by decide +kernel)
  rw [fileBytes, bytesAt_length] at hlen
  exact absurd hlen (by decide)

end MikanSaos
