import Mathlib.Logic.Function.Basic
import MikanSaos.Terminal.Printing

/-!
# Segments — `ReadDelim` on its buffer, call after call

`readDelim` of the previous module gives the bytes of one piece.  Here the loop runs on the buffer: the
memory from `buf` on is a function, every store is one update of it, and the index is the number that is
returned.  `readSegments` makes the calls until one of them returns 0, each on the buffer that the one
before it left behind.
-/

namespace MikanSaos

variable {σ : Type} (read : σ → Option (List UInt8 × σ)) (delim : UInt8)

/-- The `for` loop of `ReadDelim` at index `i`, with `n` rounds left: the index, the buffer and the
descriptor behind it. -/
def readDelimFor (buf : Nat → UInt8) (i : Nat) : Nat → σ → Option (Nat × (Nat → UInt8) × σ)
  | 0, s => some (i, buf, s)
  | n + 1, s => (read s).bind fun
    | ([], s) => some (i, buf, s)
    | (c :: _, s) =>
      let buf := Function.update buf i c
      if buf i = delim then some (i + 1, buf, s) else readDelimFor buf (i + 1) n s

/-- `ReadDelim(fd, delim, buf, len)`: the returned length, the buffer and the descriptor. -/
def readDelimInto (len : Nat) (buf : Nat → UInt8) (s : σ) : Option (Nat × (Nat → UInt8) × σ) :=
  (readDelimFor read delim buf 0 (len - 1) s).map fun (i, buf, s) => (i, Function.update buf i 0, s)

/-- A call of `ReadDelim`: the buffer before it, what it returns and the buffer after it. -/
structure ReadDelimCall where
  before : Nat → UInt8
  returned : Nat
  after : Nat → UInt8

/-- The bytes in the buffer before the returned length. -/
def ReadDelimCall.piece (c : ReadDelimCall) : List UInt8 := (List.range c.returned).map c.after

/-- `while (ReadDelim(fd, delim, buf, len) != 0)`: the calls that returned something, the one that
returned 0, and the descriptor behind it. -/
def readSegments (len : Nat) :
    Nat → (Nat → UInt8) → σ → Option (List ReadDelimCall × ReadDelimCall × σ)
  | 0, _, _ => none
  | fuel + 1, buf, s => (readDelimInto read delim len buf s).bind fun (returned, buf', s) =>
    if returned = 0 then some ([], ⟨buf, returned, buf'⟩, s)
    else (readSegments len fuel buf' s).map fun (calls, final, s) =>
      (⟨buf, returned, buf'⟩ :: calls, final, s)

/-! ## One call -/

/-- The stores of the loop: `bytes` from index `i` on. -/
def putBytes (buf : Nat → UInt8) (i : Nat) : List UInt8 → Nat → UInt8
  | [] => buf
  | c :: rest => putBytes (Function.update buf i c) (i + 1) rest

theorem putBytes_of_lt (buf : Nat → UInt8) (i : Nat) (bytes : List UInt8) {j : Nat} (h : j < i) :
    putBytes buf i bytes j = buf j := by
  induction bytes generalizing buf i with
  | nil => rfl
  | cons c rest ih =>
    have hj : j ≠ i := by omega
    rw [putBytes, ih _ _ (by omega), Function.update_of_ne hj]

theorem putBytes_of_le (buf : Nat → UInt8) (i : Nat) (bytes : List UInt8) {j : Nat}
    (h : i + bytes.length ≤ j) : putBytes buf i bytes j = buf j := by
  induction bytes generalizing buf i with
  | nil => rfl
  | cons c rest ih =>
    rw [List.length_cons] at h
    have hj : j ≠ i := by omega
    rw [putBytes, ih _ _ (by omega), Function.update_of_ne hj]

theorem map_putBytes (buf : Nat → UInt8) (i : Nat) (bytes : List UInt8) :
    (List.range bytes.length).map (fun k => putBytes buf i bytes (i + k)) = bytes := by
  induction bytes generalizing buf i with
  | nil => rfl
  | cons c rest ih =>
    have hfirst : putBytes buf i (c :: rest) i = c := by
      rw [putBytes, putBytes_of_lt _ _ _ (Nat.lt_succ_self i)]
      exact Function.update_self i c buf
    rw [List.length_cons, List.range_succ_eq_map, List.map_cons, List.map_map, Nat.add_zero, hfirst]
    congr 1
    refine Eq.trans (List.map_congr_left fun k _ => ?_) (ih (Function.update buf i c) (i + 1))
    rw [Function.comp_apply, putBytes, Nat.add_right_comm]
    rfl

/-- The loop on the buffer reads the piece that `readDelimLoop` reads, and stores it from `i` on. -/
theorem readDelimFor_eq (buf : Nat → UInt8) (i n : Nat) (s : σ) :
    readDelimFor read delim buf i n s = (readDelimLoop read delim n s).map fun res =>
      (i + res.1.length, putBytes buf i res.1, res.2) := by
  induction n generalizing buf i s with
  | zero => rfl
  | succ n ih =>
    rw [readDelimFor, readDelimLoop]
    cases read s with
    | none => rfl
    | some res =>
      obtain ⟨bytes, s'⟩ := res
      cases bytes with
      | nil => rfl
      | cons c rest =>
        simp only [Option.bind_some, Function.update_self]
        by_cases hc : c = delim
        · rw [if_pos hc, if_pos hc]
          rfl
        · rw [if_neg hc, if_neg hc, ih, Option.map_map]
          congr 1
          -- the byte is in front of what the other rounds read
          funext res
          simp only [Function.comp_apply, List.length_cons, putBytes]
          rw [Nat.add_assoc, Nat.add_comm 1]

/-- What one call is to do: it stores nothing outside `buf[0 .. len - 1]` and ends the piece with a
NUL at the returned length. -/
structure ReadDelimCall.Terminated (len : Nat) (c : ReadDelimCall) : Prop where
  returned_lt : c.returned < len
  nul : c.after c.returned = 0
  outside : ∀ j, len ≤ j → c.after j = c.before j

variable {read} {left : List UInt8 → σ → Prop}

/-- A call takes the next piece of the stream, and the buffer holds it. -/
theorem readDelimInto_eq (h : Delivers read left) {len : Nat} (hlen : 2 ≤ len)
    {content : List UInt8} {s : σ} (hs : left content s) (buf : Nat → UInt8) :
    ∃ buf' s', readDelimInto read delim len buf s =
        some ((delimited delim (len - 1) content).length, buf', s') ∧
      left (content.drop (delimited delim (len - 1) content).length) s' ∧
      ReadDelimCall.piece ⟨buf, (delimited delim (len - 1) content).length, buf'⟩ =
        delimited delim (len - 1) content ∧
      ReadDelimCall.Terminated len ⟨buf, (delimited delim (len - 1) content).length, buf'⟩ := by
  obtain ⟨s', hread, hs'⟩ := readDelimLoop_eq delim h (len - 1) hs
  have hle := delimited_length_le delim (len - 1) content
  generalize delimited delim (len - 1) content = piece at *
  refine ⟨Function.update (putBytes buf 0 piece) piece.length 0, s', ?_, hs', ?_, by simp only; omega,
    Function.update_self _ _ _, fun j hj => ?_⟩
  · rw [readDelimInto, readDelimFor_eq, hread]
    simp only [Option.map_some, Nat.zero_add]
  · -- the NUL lies behind the piece
    have hput := map_putBytes buf 0 piece
    simp only [Nat.zero_add] at hput
    refine Eq.trans (List.map_congr_left fun k hk => ?_) hput
    exact Function.update_of_ne (Nat.ne_of_lt (List.mem_range.mp hk)) _ _
  · simp only
    rw [Function.update_of_ne (by omega), putBytes_of_le _ _ _ (by omega)]

/-! ## All calls -/

/-- What the calls give for a stream with `content` left. -/
structure Segmented (delim : UInt8) (len : Nat) (content : List UInt8) (calls : List ReadDelimCall)
    (final : ReadDelimCall) : Prop where
  flatten : (calls.map ReadDelimCall.piece).flatten = content
  delim_last : ∀ c ∈ calls, delim ∉ c.piece.dropLast
  full : ∀ before c after, calls = before ++ c :: after →
    c.piece.getLast? = some delim ∨ c.piece.length = len - 1 ∨ after = []
  terminated : ∀ c ∈ calls ++ [final], c.Terminated len
  returned : (∀ c ∈ calls, c.returned ≠ 0) ∧ final.returned = 0

theorem Segmented.nil {len : Nat} {final : ReadDelimCall} (h : final.Terminated len)
    (hzero : final.returned = 0) : Segmented delim len [] [] final := by
  refine ⟨rfl, fun c hc => absurd hc List.not_mem_nil, fun before c after hsplit => ?_, ?_,
    fun c hc => absurd hc List.not_mem_nil, hzero⟩
  · exact absurd hsplit.symm (List.append_ne_nil_of_right_ne_nil _ (List.cons_ne_nil _ _))
  · intro c hc
    rw [List.nil_append, List.mem_singleton] at hc
    exact hc ▸ h

variable {delim}

theorem Segmented.cons {len : Nat} {content rest : List UInt8} {calls : List ReadDelimCall}
    {c final : ReadDelimCall} (h : Segmented delim len rest calls final)
    (hsplit : c.piece ++ rest = content) (hdelim : delim ∉ c.piece.dropLast)
    (hfull : c.piece.getLast? = some delim ∨ c.piece.length = len - 1 ∨ rest = [])
    (hterm : c.Terminated len) (hret : c.returned ≠ 0) :
    Segmented delim len content (c :: calls) final := by
  refine ⟨by rw [List.map_cons, List.flatten_cons, h.flatten, hsplit], ?_, ?_, ?_, ?_, h.returned.2⟩
  · intro d hd
    rcases List.mem_cons.mp hd with rfl | hd
    · exact hdelim
    · exact h.delim_last d hd
  · intro before d after hcalls
    cases before with
    | nil =>
      obtain ⟨rfl, rfl⟩ := List.cons.inj hcalls
      refine hfull.imp_right (Or.imp_right fun hrest => ?_)
      -- when nothing is left, no further call returned something
      cases calls with
      | nil => rfl
      | cons e more =>
        have hflat := h.flatten
        rw [hrest, List.map_cons, List.flatten_cons, List.append_eq_nil_iff] at hflat
        have hlen := congrArg List.length hflat.1
        rw [ReadDelimCall.piece, List.length_map, List.length_range] at hlen
        exact absurd hlen (h.returned.1 e List.mem_cons_self)
    | cons b before =>
      exact h.full before d after (List.cons.inj hcalls).2
  · intro d hd
    rcases List.mem_cons.mp hd with rfl | hd
    · exact hterm
    · exact h.terminated d hd
  · intro d hd
    rcases List.mem_cons.mp hd with rfl | hd
    · exact hret
    · exact h.returned.1 d hd

/-- **`ReadDelim` cuts a stream into segments without loss.**  On a descriptor that reads the bytes of
`content` one by one and then nothing, calling `ReadDelim` until it returns 0 terminates; the pieces
concatenate to the content, the delimiter is only ever the last byte of a piece, a piece that ends
otherwise fills the buffer or is the last one, and each call stores in `buf[0 .. len - 1]` only and puts
the NUL at the returned length. -/
theorem readSegments_segmented {read : σ → Option (List UInt8 × σ)} (h : Delivers read left)
    (delim : UInt8) {len : Nat} (hlen : 2 ≤ len) {content : List UInt8} {s : σ} (hs : left content s)
    (buf : Nat → UInt8) {fuel : Nat} (hfuel : content.length < fuel) :
    ∃ calls final s', readSegments read delim len fuel buf s = some (calls, final, s') ∧
      Segmented delim len content calls final := by
  -- induction on the fuel: each piece takes at least one byte of the content
  induction fuel generalizing content s buf with
  | zero => cases hfuel
  | succ fuel ih =>
    obtain ⟨buf', s₁, hcall, hs₁, hpiece, hterm⟩ := readDelimInto_eq delim h hlen hs buf
    have hprefix := List.prefix_iff_eq_append.mp (delimited_isPrefix delim (len - 1) content)
    have hdrop := delimited_dropLast delim (len - 1) content
    have hle := delimited_length_le delim (len - 1) content
    rw [readSegments, hcall, Option.bind_some]
    by_cases hzero : (delimited delim (len - 1) content).length = 0
    · -- only the end of the content gives an empty piece
      have hnil := delimited_eq_nil (by omega) (List.eq_nil_of_length_eq_zero hzero)
      subst hnil
      exact ⟨[], _, s₁, by simp only [if_pos hzero], .nil delim hterm hzero⟩
    · have hlength := congrArg List.length hprefix
      rw [List.length_append] at hlength
      obtain ⟨calls, final, s', hrest, hseg⟩ := ih hs₁ buf' (by omega)
      refine ⟨_, final, s', by simp only [if_neg hzero, hrest, Option.map_some]; rfl, ?_⟩
      refine hseg.cons (by rw [hpiece, hprefix]) (by rw [hpiece]; exact hdrop) ?_ hterm hzero
      rw [hpiece]
      -- a piece that does not fill the buffer ends with the delimiter or with the content
      by_cases hshort : (delimited delim (len - 1) content).length < len - 1
      · rcases delimited_short hshort with heq | hlast
        · exact .inr (.inr (by rw [heq, List.drop_length]))
        · exact .inl hlast
      · exact .inr (.inl (by omega))

/-- A descriptor that reads from a list of bytes. -/
def readByte (s : List UInt8) : Option (List UInt8 × List UInt8) := some (s.take 1, s.tail)

theorem readByte_delivers : Delivers readByte fun content s => s = content :=
  fun content s hs => ⟨s.tail, by rw [readByte, hs], by rw [hs]⟩

theorem readSegments_two_lines :
    ∃ calls final s', readSegments readByte kNewline 3 6 (fun _ => 0xff) [97, 10, 98, 99, 100] =
        some (calls, final, s') ∧ Segmented kNewline 3 [97, 10, 98, 99, 100] calls final :=
  readSegments_segmented readByte_delivers kNewline (by decide) rfl _ (by decide)

/-- The content is cut behind the newline, where the buffer is full, and at its end. -/
example : (readSegments readByte kNewline 3 6 (fun _ => 0xff) [97, 10, 98, 99, 100]).map
    (fun res => res.1.map ReadDelimCall.piece) = some [[97, 10], [98, 99], [100]] := by decide

end MikanSaos
