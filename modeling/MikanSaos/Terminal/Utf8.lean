import Mathlib.Algebra.Order.Ring.Nat
import Mathlib.Data.BitVec

/-!
# Utf8 — the loops of `WriteString` and `Terminal::Print`

A string is the memory from its first byte on.  Both loops take the length of a character from its first byte,
and a run of a loop lists what it draws, which bytes it reads and how many it passes in each round.  A `char` is
signed, so that it is extended to a `char32_t` with its sign.
-/

namespace MikanSaos

def countUTF8Size (c : UInt8) : Nat :=
  if c < 0x80 then 1
  else if 0xc0 ≤ c ∧ c < 0xe0 then 2
  else if 0xe0 ≤ c ∧ c < 0xf0 then 3
  else if 0xf0 ≤ c ∧ c < 0xf8 then 4
  else 0

/-- `static_cast<char32_t>(c)` -/
def toChar32 (c : UInt8) : BitVec 32 := c.toBitVec.signExtend 32

def convertUTF8To32 (u8 : Nat → UInt8) : BitVec 32 × Nat :=
  match countUTF8Size (u8 0) with
  -- the only character that is not masked
  | 1 => (toChar32 (u8 0), 1)
  | 2 =>
    ((toChar32 (u8 0) &&& 0b00011111) <<< 6 |||
      (toChar32 (u8 1) &&& 0b00111111) <<< 0, 2)
  | 3 =>
    ((toChar32 (u8 0) &&& 0b00001111) <<< 12 |||
      (toChar32 (u8 1) &&& 0b00111111) <<< 6 |||
      (toChar32 (u8 2) &&& 0b00111111) <<< 0, 3)
  | 4 =>
    ((toChar32 (u8 0) &&& 0b00000111) <<< 18 |||
      (toChar32 (u8 1) &&& 0b00111111) <<< 12 |||
      (toChar32 (u8 2) &&& 0b00111111) <<< 6 |||
      (toChar32 (u8 3) &&& 0b00111111) <<< 0, 4)
  | _ => (0, 0)

def isHankaku (c : BitVec 32) : Bool := c ≤ 0x7f

/-- The indices of `u8` that `ConvertUTF8To32` reads. -/
def convertReads (u8 : Nat → UInt8) : List Nat := List.range (max 1 (countUTF8Size (u8 0)))

/-- A run of one of the loops. -/
structure TextRun (α : Type) where
  drawn : List α
  reads : List Nat
  consumed : List Nat
  stop : Nat
  deriving DecidableEq

namespace TextRun

/-- A round for the character at index `i`, before the rest of the run. -/
def round {α : Type} (s : Nat → UInt8) (i : Nat) (c : α) (run : TextRun α) : TextRun α where
  drawn := c :: run.drawn
  reads := i :: (convertReads fun k => s (i + k)).map (i + ·) ++ run.reads
  consumed := (convertUTF8To32 fun k => s (i + k)).2 :: run.consumed
  stop := run.stop

/-- The last test of the loop reads index `i`. -/
def done {α : Type} (i : Nat) : TextRun α := ⟨[], [i], [], i⟩

end TextRun

/-- The loop of `WriteString`: the characters with their columns, in units of 8 pixels. -/
def writeStringLoop (s : Nat → UInt8) : Nat → Nat → Nat → Option (TextRun (Nat × BitVec 32))
  | 0, _, _ => none
  | fuel + 1, i, posX =>
    if s i ≠ 0 then
      let (u32, bytes) := convertUTF8To32 fun k => s (i + k)
      (writeStringLoop s fuel (i + bytes) (posX + if isHankaku u32 then 1 else 2)).map
        (.round s i (posX, u32))
    else some (.done i)

/-- `U'□'` -/
def kWhiteSquare : BitVec 32 := 0x25a1

/-- The loop of `Terminal::Print(s, len)`.  Without `len` its limit is the largest `size_t`, to which no
index into a string comes. -/
def printLoop (s : Nat → UInt8) (len : Option Nat) : Nat → Nat → Option (TextRun (BitVec 32))
  | 0, _ => none
  | fuel + 1, i =>
    if s i ≠ 0 ∧ ∀ ptrlen ∈ len, i < ptrlen then
      let (u32, bytes) := convertUTF8To32 fun k => s (i + k)
      (printLoop s len fuel (i + bytes)).map (.round s i (if u32 ≠ 0 then u32 else kWhiteSquare))
    else some (.done i)

/-! ## One character -/

variable {u8 s : Nat → UInt8} {len : Option Nat} {n i : Nat}

theorem countUTF8Size_le (c : UInt8) : countUTF8Size c ≤ 4 := by
  unfold countUTF8Size
  split_ifs <;> decide

theorem countUTF8Size_cases (c : UInt8) : countUTF8Size c = 0 ∨ countUTF8Size c = 1 ∨ countUTF8Size c = 2 ∨
    countUTF8Size c = 3 ∨ countUTF8Size c = 4 := by
  have hle := countUTF8Size_le c
  omega

theorem convertUTF8To32_bytes (u8 : Nat → UInt8) : (convertUTF8To32 u8).2 = countUTF8Size (u8 0) := by
  unfold convertUTF8To32
  rcases countUTF8Size_cases (u8 0) with h | h | h | h | h <;> simp only [h]

/-- A mask below the sign bit takes the low bits of a byte. -/
theorem toChar32_and (c : UInt8) {k : Nat} (hk : k ≤ 8) :
    (toChar32 c &&& BitVec.ofNat 32 (2 ^ k - 1)).toNat = c.toNat % 2 ^ k := by
  have hmask : (2 ^ k - 1) % 2 ^ 32 = 2 ^ k - 1 := by
    have hpow : 2 ^ k ≤ 2 ^ 8 := Nat.pow_le_pow_right (by decide) hk
    exact Nat.mod_eq_of_lt (by omega)
  have hdvd : 2 ^ k ∣ 2 ^ 8 := Nat.pow_dvd_pow 2 hk
  -- the extension adds the ones of the sign
  have hext : (toChar32 c).toNat = c.toNat + if c.toBitVec.msb then 2 ^ 32 - 2 ^ 8 else 0 := by
    unfold toChar32
    rw [BitVec.toNat_signExtend]
    have hlt : c.toBitVec.toNat < 2 ^ 8 := c.toBitVec.isLt
    rw [BitVec.toNat_setWidth, Nat.mod_eq_of_lt (by omega)]
    rfl
  rw [BitVec.toNat_and, BitVec.toNat_ofNat, hmask, Nat.and_two_pow_sub_one_eq_mod, hext]
  split
  · -- the sign is in the bits above the byte
    have hsign : (2 ^ 32 - 2 ^ 8) % 2 ^ k = 0 :=
      Nat.mod_eq_zero_of_dvd (Nat.dvd_trans hdvd ⟨2 ^ 24 - 1, by decide⟩)
    rw [Nat.add_mod, hsign, Nat.add_zero, Nat.mod_mod]
  · rw [Nat.add_zero]

/-- Bits put in front of a smaller number. -/
theorem shiftLeft_or {hi lo : BitVec 32} {k : Nat} (hlo : lo.toNat < 2 ^ k) (hhi : hi.toNat * 2 ^ k < 2 ^ 32) :
    (hi <<< k ||| lo).toNat = hi.toNat * 2 ^ k + lo.toNat := by
  rw [BitVec.toNat_or, BitVec.toNat_shiftLeft, Nat.shiftLeft_eq, Nat.mod_eq_of_lt hhi, Nat.mul_comm,
    ← Nat.two_pow_add_eq_or_of_lt hlo]

/-- The six bits of a byte that follows, as they are or shifted. -/
theorem tail_bits (c : UInt8) :
    ((toChar32 c &&& 0b00111111) <<< 0).toNat = c.toNat % 64 ∧ (toChar32 c &&& 0b00111111).toNat = c.toNat % 64 := by
  have hmask : (toChar32 c &&& 0b00111111).toNat = c.toNat % 64 := toChar32_and c (k := 6) (by decide)
  refine ⟨?_, hmask⟩
  rw [BitVec.shiftLeft_zero, hmask]

theorem convertUTF8To32_one (h : countUTF8Size (u8 0) = 1) : (convertUTF8To32 u8).1.toNat = (u8 0).toNat := by
  -- the sign bit of an ASCII character is clear
  have hlt : (u8 0).toNat < 128 := by
    by_contra hhigh
    have hnot : ¬ u8 0 < 0x80 := hhigh
    unfold countUTF8Size at h
    rw [if_neg hnot] at h
    split_ifs at h <;> cases h
  have hmsb : (u8 0).toBitVec.msb = false := by
    rw [BitVec.msb_eq_decide]
    simpa using hlt
  unfold convertUTF8To32
  rw [h]
  show (toChar32 (u8 0)).toNat = _
  unfold toChar32
  rw [BitVec.signExtend_eq_setWidth_of_msb_false hmsb, BitVec.toNat_setWidth]
  have height : (u8 0).toBitVec.toNat = (u8 0).toNat := rfl
  omega

theorem convertUTF8To32_two (h : countUTF8Size (u8 0) = 2) :
    (convertUTF8To32 u8).1.toNat = (u8 0).toNat % 32 * 2 ^ 6 + (u8 1).toNat % 64 := by
  have h0 : (toChar32 (u8 0) &&& 0b00011111).toNat = (u8 0).toNat % 32 := toChar32_and _ (k := 5) (by decide)
  have h1 := (tail_bits (u8 1)).1
  unfold convertUTF8To32
  simp only [h]
  rw [shiftLeft_or (by omega) (by omega), h0, h1]

theorem convertUTF8To32_three (h : countUTF8Size (u8 0) = 3) : (convertUTF8To32 u8).1.toNat =
    ((u8 0).toNat % 16 * 64 + (u8 1).toNat % 64) * 64 + (u8 2).toNat % 64 := by
  have h0 : (toChar32 (u8 0) &&& 0b00001111).toNat = (u8 0).toNat % 16 := toChar32_and _ (k := 4) (by decide)
  have h1 := (tail_bits (u8 1)).2
  have h2 := (tail_bits (u8 2)).1
  unfold convertUTF8To32
  simp only [h]
  rw [BitVec.or_assoc]
  have hlow : ((toChar32 (u8 1) &&& 0b00111111) <<< 6 ||| (toChar32 (u8 2) &&& 0b00111111) <<< 0).toNat =
      (u8 1).toNat % 64 * 2 ^ 6 + (u8 2).toNat % 64 := by
    rw [shiftLeft_or (by omega) (by omega), h1, h2]
  rw [shiftLeft_or (by omega) (by omega), h0, hlow]
  omega

theorem convertUTF8To32_four (h : countUTF8Size (u8 0) = 4) : (convertUTF8To32 u8).1.toNat =
    (((u8 0).toNat % 8 * 64 + (u8 1).toNat % 64) * 64 + (u8 2).toNat % 64) * 64 + (u8 3).toNat % 64 := by
  have h0 : (toChar32 (u8 0) &&& 0b00000111).toNat = (u8 0).toNat % 8 := toChar32_and _ (k := 3) (by decide)
  have h1 := (tail_bits (u8 1)).2
  have h2 := (tail_bits (u8 2)).2
  have h3 := (tail_bits (u8 3)).1
  unfold convertUTF8To32
  simp only [h]
  rw [BitVec.or_assoc, BitVec.or_assoc]
  have hlow : ((toChar32 (u8 2) &&& 0b00111111) <<< 6 ||| (toChar32 (u8 3) &&& 0b00111111) <<< 0).toNat =
      (u8 2).toNat % 64 * 2 ^ 6 + (u8 3).toNat % 64 := by
    rw [shiftLeft_or (by omega) (by omega), h2, h3]
  have hmiddle : ((toChar32 (u8 1) &&& 0b00111111) <<< 12 ||| ((toChar32 (u8 2) &&& 0b00111111) <<< 6 |||
      (toChar32 (u8 3) &&& 0b00111111) <<< 0)).toNat =
      (u8 1).toNat % 64 * 2 ^ 12 + ((u8 2).toNat % 64 * 2 ^ 6 + (u8 3).toNat % 64) := by
    rw [shiftLeft_or (by omega) (by omega), h1, hlow]
  rw [shiftLeft_or (by omega) (by omega), h0, hmiddle]
  omega

theorem countUTF8Size_toNat (c : UInt8) : countUTF8Size c =
    if c.toNat < 128 then 1
    else if 192 ≤ c.toNat ∧ c.toNat < 224 then 2
    else if 224 ≤ c.toNat ∧ c.toNat < 240 then 3
    else if 240 ≤ c.toNat ∧ c.toNat < 248 then 4
    else 0 := rfl

/-- The encoding of a character is decoded to it, whatever follows. -/
theorem convertUTF8To32_encode (c : Char)
    (hu8 : ∀ i (h : i < (String.utf8EncodeChar c).length), u8 i = (String.utf8EncodeChar c)[i]) :
    (convertUTF8To32 u8).1.toNat = c.toNat ∧ countUTF8Size (u8 0) = (String.utf8EncodeChar c).length := by
  have hvalid : c.toNat < 0x110000 := by
    have hval : c.val.toNat < 0xd800 ∨ 0xdfff < c.val.toNat ∧ c.val.toNat < 0x110000 := c.valid
    show c.val.toNat < 0x110000
    omega
  have hbyte : ∀ (b : UInt8) (n : Nat), b = UInt8.ofNat n → n < 256 → b.toNat = n := by
    rintro b n rfl hn
    rw [UInt8.toNat_ofNat']
    exact Nat.mod_eq_of_lt hn
  have hcode : c.val.toNat = c.toNat := rfl
  -- by the length of the encoding
  by_cases h1 : c.toNat ≤ 0x7f
  · have hlist : String.utf8EncodeChar c = [UInt8.ofNat c.toNat] := by
      unfold String.utf8EncodeChar
      simp only [hcode, h1, if_true]
    rw [hlist] at hu8 ⊢
    have h0 := hbyte _ _ (hu8 0 (by simp)) (by omega)
    have hsize : countUTF8Size (u8 0) = 1 := by
      rw [countUTF8Size_toNat, if_pos (by omega)]
    refine ⟨?_, hsize⟩
    rw [convertUTF8To32_one hsize, h0]
  by_cases h2 : c.toNat ≤ 0x7ff
  · have hlist : String.utf8EncodeChar c =
        [UInt8.ofNat (c.toNat / 64 % 32 + 0xc0), UInt8.ofNat (c.toNat % 64 + 0x80)] := by
      unfold String.utf8EncodeChar
      simp only [hcode, h1, h2, if_true, if_false]
    rw [hlist] at hu8 ⊢
    have h0' := hbyte _ _ (hu8 0 (by simp)) (by omega)
    have h1' := hbyte _ _ (hu8 1 (by simp)) (by omega)
    have hsize : countUTF8Size (u8 0) = 2 := by
      rw [countUTF8Size_toNat, if_neg (by omega), if_pos (by omega)]
    refine ⟨?_, hsize⟩
    rw [convertUTF8To32_two hsize, h0', h1']
    omega
  by_cases h3 : c.toNat ≤ 0xffff
  · have hlist : String.utf8EncodeChar c = [UInt8.ofNat (c.toNat / 4096 % 16 + 0xe0),
        UInt8.ofNat (c.toNat / 64 % 64 + 0x80), UInt8.ofNat (c.toNat % 64 + 0x80)] := by
      unfold String.utf8EncodeChar
      simp only [hcode, h1, h2, h3, if_true, if_false]
    rw [hlist] at hu8 ⊢
    have h0' := hbyte _ _ (hu8 0 (by simp)) (by omega)
    have h1' := hbyte _ _ (hu8 1 (by simp)) (by omega)
    have h2' := hbyte _ _ (hu8 2 (by simp)) (by omega)
    have hsize : countUTF8Size (u8 0) = 3 := by
      rw [countUTF8Size_toNat, if_neg (by omega), if_neg (by omega), if_pos (by omega)]
    refine ⟨?_, hsize⟩
    rw [convertUTF8To32_three hsize, h0', h1', h2']
    omega
  · have hlist : String.utf8EncodeChar c = [UInt8.ofNat (c.toNat / 262144 % 8 + 0xf0),
        UInt8.ofNat (c.toNat / 4096 % 64 + 0x80), UInt8.ofNat (c.toNat / 64 % 64 + 0x80),
        UInt8.ofNat (c.toNat % 64 + 0x80)] := by
      unfold String.utf8EncodeChar
      simp only [hcode, h1, h2, h3, if_false]
    rw [hlist] at hu8 ⊢
    have h0' := hbyte _ _ (hu8 0 (by simp)) (by omega)
    have h1' := hbyte _ _ (hu8 1 (by simp)) (by omega)
    have h2' := hbyte _ _ (hu8 2 (by simp)) (by omega)
    have h3' := hbyte _ _ (hu8 3 (by simp)) (by omega)
    have hsize : countUTF8Size (u8 0) = 4 := by
      rw [countUTF8Size_toNat, if_neg (by omega), if_neg (by omega), if_neg (by omega), if_pos (by omega)]
    refine ⟨?_, hsize⟩
    rw [convertUTF8To32_four hsize, h0', h1', h2', h3']
    omega

/-! ## Valid text -/

/-- The UTF-8 encoding of a text. -/
def encodeText (cs : List Char) : List UInt8 := cs.flatMap String.utf8EncodeChar

/-- The bytes lie in memory from index `i` on. -/
def Spells (s : Nat → UInt8) (i : Nat) (bytes : List UInt8) : Prop :=
  ∀ k (h : k < bytes.length), s (i + k) = bytes[k]

/-- The columns of a character. -/
def charWidth (c : Char) : Nat := if c.toNat ≤ 0x7f then 1 else 2

def char32 (c : Char) : BitVec 32 := BitVec.ofNat 32 c.toNat

theorem Spells.append {front back : List UInt8} (h : Spells s i (front ++ back)) :
    Spells s i front ∧ Spells s (i + front.length) back := by
  constructor
  · intro k hk
    have hlength : k < (front ++ back).length := by
      rw [List.length_append]
      omega
    rw [h k hlength, List.getElem_append_left hk]
  · intro k hk
    have hlength : front.length + k < (front ++ back).length := by
      rw [List.length_append]
      omega
    rw [Nat.add_assoc, h _ hlength, List.getElem_append_right (Nat.le_add_right _ _)]
    simp

theorem char32_toNat (c : Char) : (char32 c).toNat = c.toNat := by
  have hval : c.val.toNat < 2 ^ 32 := c.val.toNat_lt
  unfold char32
  rw [BitVec.toNat_ofNat]
  exact Nat.mod_eq_of_lt hval

theorem isHankaku_char32 (c : Char) : (if isHankaku (char32 c) then 1 else 2) = charWidth c := by
  have hle : isHankaku (char32 c) = true ↔ c.toNat ≤ 0x7f := by
    unfold isHankaku
    rw [decide_eq_true_iff, BitVec.le_def, char32_toNat]
    rfl
  unfold charWidth
  simp only [hle]

/-- A round of either loop at the first byte of a character. -/
theorem round_encode {c : Char} (hc : c.toNat ≠ 0) (hs : Spells s i (String.utf8EncodeChar c)) :
    s i ≠ 0 ∧ convertUTF8To32 (fun k => s (i + k)) = (char32 c, (String.utf8EncodeChar c).length) ∧
      char32 c ≠ 0 := by
  have hdecode : (convertUTF8To32 fun k => s (i + k)).1.toNat = c.toNat ∧
      countUTF8Size (s i) = (String.utf8EncodeChar c).length := convertUTF8To32_encode c hs
  obtain ⟨hcode, hsize⟩ := hdecode
  have hnonzero : char32 c ≠ 0 := by
    intro hzero
    apply hc
    rw [← char32_toNat, hzero]
    rfl
  refine ⟨fun hzero => ?_, ?_, hnonzero⟩
  · -- a NUL would be decoded to 0
    have hone : countUTF8Size ((fun k => s (i + k)) 0) = 1 := by
      show countUTF8Size (s i) = 1
      rw [hzero]
      rfl
    rw [convertUTF8To32_one hone] at hcode
    apply hc
    rw [← hcode]
    show (s i).toNat = 0
    rw [hzero]
    rfl
  · apply Prod.ext
    · apply BitVec.eq_of_toNat_eq
      rw [hcode, char32_toNat]
    · rw [convertUTF8To32_bytes]
      exact hsize

/-- The characters of a text, drawn from column `posX` on. -/
def columns : Nat → List Char → List (Nat × BitVec 32)
  | _, [] => []
  | posX, c :: cs => (posX, char32 c) :: columns (posX + charWidth c) cs

theorem columns_getElem? (posX : Nat) (cs : List Char) (k : Nat) :
    (columns posX cs)[k]? = cs[k]?.map fun c => (posX + ((cs.take k).map charWidth).sum, char32 c) := by
  induction cs generalizing posX k with
  | nil => rfl
  | cons c cs ih =>
    cases k with
    | zero => rfl
    | succ k =>
      rw [columns, List.getElem?_cons_succ, List.getElem?_cons_succ, ih, List.take_succ_cons, List.map_cons,
        List.sum_cons, Nat.add_assoc]

theorem columns_length (posX : Nat) (cs : List Char) : (columns posX cs).length = cs.length := by
  induction cs generalizing posX with
  | nil => rfl
  | cons c cs ih => rw [columns, List.length_cons, List.length_cons, ih]

theorem encodeText_cons (c : Char) (cs : List Char) :
    encodeText (c :: cs) = String.utf8EncodeChar c ++ encodeText cs := rfl

variable {cs : List Char}

theorem writeStringLoop_encode (hne : ∀ c ∈ cs, c.toNat ≠ 0) (posX : Nat) (hs : Spells s i (encodeText cs))
    (hend : s (i + (encodeText cs).length) = 0) : ∃ run, writeStringLoop s (cs.length + 1) i posX = some run ∧
      run.drawn = columns posX cs ∧ run.consumed = cs.map (fun c => (String.utf8EncodeChar c).length) ∧
      run.stop = i + (encodeText cs).length := by
  -- one round for each character; the column goes with it
  induction cs generalizing i posX with
  | nil =>
    have hzero : s i = 0 := hend
    refine ⟨.done i, ?_, rfl, rfl, rfl⟩
    rw [writeStringLoop, if_neg (not_not.mpr hzero)]
  | cons c cs ih =>
    rw [List.forall_mem_cons] at hne
    rw [encodeText_cons] at hs hend ⊢
    rw [List.length_append, ← Nat.add_assoc] at hend ⊢
    obtain ⟨hchar, hrest⟩ := hs.append
    obtain ⟨hnul, hconvert, -⟩ := round_encode hne.1 hchar
    obtain ⟨run, hrun, hdrawn, hconsumed, hstop⟩ := ih hne.2 (posX + charWidth c) hrest hend
    refine ⟨run.round s i (posX, char32 c), ?_, ?_, ?_, hstop⟩
    · rw [List.length_cons, writeStringLoop, if_pos hnul, hconvert]
      dsimp only
      rw [isHankaku_char32, hrun]
      rfl
    · rw [TextRun.round, hdrawn]
      rfl
    · rw [TextRun.round, hconvert, hconsumed]
      rfl

theorem printLoop_encode (hne : ∀ c ∈ cs, c.toNat ≠ 0) (hs : Spells s i (encodeText cs))
    (hend : s (i + (encodeText cs).length) = 0) (hlen : ∀ l ∈ len, i + (encodeText cs).length ≤ l) :
    ∃ run, printLoop s len (cs.length + 1) i = some run ∧ run.drawn = cs.map char32 ∧
      run.consumed = cs.map (fun c => (String.utf8EncodeChar c).length) ∧
      run.stop = i + (encodeText cs).length := by
  induction cs generalizing i with
  | nil =>
    have hzero : s i = 0 := hend
    refine ⟨.done i, ?_, rfl, rfl, rfl⟩
    rw [printLoop, if_neg fun h => h.1 hzero]
  | cons c cs ih =>
    rw [List.forall_mem_cons] at hne
    rw [encodeText_cons] at hs hend hlen ⊢
    rw [List.length_append, ← Nat.add_assoc] at hend hlen ⊢
    obtain ⟨hchar, hrest⟩ := hs.append
    obtain ⟨hnul, hconvert, hnonzero⟩ := round_encode hne.1 hchar
    have hpos : 0 < (String.utf8EncodeChar c).length := List.length_pos_iff.mpr String.utf8EncodeChar_ne_nil
    have hbelow : ∀ l ∈ len, i < l := by
      intro l hl
      have hle := hlen l hl
      omega
    obtain ⟨run, hrun, hdrawn, hconsumed, hstop⟩ := ih hne.2 hrest hend hlen
    refine ⟨run.round s i (char32 c), ?_, ?_, ?_, hstop⟩
    · rw [List.length_cons, printLoop, if_pos ⟨hnul, hbelow⟩, hconvert]
      dsimp only
      rw [if_pos hnonzero, hrun]
      rfl
    · rw [TextRun.round, hdrawn]
      rfl
    · rw [TextRun.round, hconvert, hconsumed]
      rfl

/-- **Valid text is decoded exactly.**  Over the encoding of any characters but NUL, both loops come to the NUL
behind it, pass the bytes of one character in each round and draw the characters in order; `WriteString` draws
each of them at the column behind those before it. -/
theorem text_decoded (hne : ∀ c ∈ cs, c.toNat ≠ 0) (hs : Spells s 0 (encodeText cs))
    (hend : s (encodeText cs).length = 0) :
    (∃ fuel run, writeStringLoop s fuel 0 0 = some run ∧ run.drawn.length = cs.length ∧
      (∀ k (h : k < cs.length), run.drawn[k]? = some (((cs.take k).map charWidth).sum, char32 cs[k])) ∧
      run.consumed = cs.map (fun c => (String.utf8EncodeChar c).length) ∧ run.stop = (encodeText cs).length) ∧
    ∀ len : Option Nat, (∀ l ∈ len, (encodeText cs).length ≤ l) →
      ∃ fuel run, printLoop s len fuel 0 = some run ∧ run.drawn = cs.map char32 ∧
        run.consumed = cs.map (fun c => (String.utf8EncodeChar c).length) ∧
        run.stop = (encodeText cs).length := by
  have hend' : s (0 + (encodeText cs).length) = 0 := by rw [Nat.zero_add, hend]
  constructor
  · obtain ⟨run, hrun, hdrawn, hconsumed, hstop⟩ := writeStringLoop_encode hne 0 hs hend'
    refine ⟨_, run, hrun, ?_, fun k hk => ?_, hconsumed, by rw [hstop, Nat.zero_add]⟩
    · rw [hdrawn, columns_length]
    · rw [hdrawn, columns_getElem?, List.getElem?_eq_getElem hk, Option.map_some, Nat.zero_add]
  · intro len hlen
    have hlen' : ∀ l ∈ len, 0 + (encodeText cs).length ≤ l := by
      intro l hl
      rw [Nat.zero_add]
      exact hlen l hl
    obtain ⟨run, hrun, hdrawn, hconsumed, hstop⟩ := printLoop_encode hne hs hend' hlen'
    exact ⟨_, run, hrun, hdrawn, hconsumed, by rw [hstop, Nat.zero_add]⟩

/-- The letter A and a hiragana, with a NUL behind them. -/
def shortText : List Char := ['A', Char.ofNat 0x3042]

theorem text_decoded_short :
    ∃ fuel run, writeStringLoop (fun i => (encodeText shortText).getD i 0) fuel 0 0 = some run ∧
      run.drawn[1]? = some (1, 0x3042) := by
  have hs : Spells (fun i => (encodeText shortText).getD i 0) 0 (encodeText shortText) := by
    intro k hk
    dsimp only
    rw [Nat.zero_add, List.getD_eq_getElem?_getD, List.getElem?_eq_getElem hk]
    rfl
  have hne : ∀ c ∈ shortText, c.toNat ≠ 0 :=
    List.forall_mem_cons.mpr ⟨by decide, List.forall_mem_cons.mpr ⟨by decide, List.forall_mem_nil _⟩⟩
  obtain ⟨⟨fuel, run, hrun, -, hdrawn, -⟩, -⟩ := text_decoded hne hs (by decide)
  exact ⟨fuel, run, hrun, hdrawn 1 (by decide)⟩

end MikanSaos
