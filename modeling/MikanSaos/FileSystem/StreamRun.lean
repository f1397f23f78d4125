import MikanSaos.FileSystem.Stream
import Mathlib.Data.List.Basic

/-!
# StreamRun — which lists of writes put the bytes one behind the other

`Fits` is the condition on the lengths.  A list of writes that meets it leaves every byte at its place
(`writeAll_fits`).  One that does not either reports a wrong count or skips a position of the file,
whatever the bytes are (`writeAll_unfit`).
-/

namespace MikanSaos

/-- A buffer, and the number of its bytes to be written. -/
structure Chunk where
  buf : Nat → UInt8
  len : Nat

namespace Chunk

def bytes (c : Chunk) : List UInt8 := (List.range c.len).map c.buf

end Chunk

namespace Stream

variable {b : Nat} {buf : Nat → UInt8} {len : Nat} {s : Stream}

def writeAll (b : Nat) : Stream → List Chunk → List Nat × Stream
  | s, [] => ([], s)
  | s, c :: chunks =>
    let r := writeLoop b c.buf c.len c.len 0 s
    (r.1 :: (writeAll b r.2 chunks).1, (writeAll b r.2 chunks).2)

theorem writeAll_clusters (chunks : List Chunk) (s : Stream) :
    s.clusters ≤ (writeAll b s chunks).2.clusters := by
  induction chunks generalizing s with
  | nil => exact Nat.le_refl _
  | cons c chunks ih =>
    rw [writeAll]
    exact Nat.le_trans (writeLoop_clusters c.buf c.len c.len 0 s) (ih _)

/-- A `Write` of `len` bytes where `offset` bytes of the last cluster are taken ends in that cluster,
in the next one if the last one is full, or exactly at the end of the next one. -/
def FitsNext (b offset len : Nat) : Prop :=
  offset + len ≤ b ∨ (offset = b ∧ len ≤ b) ∨ offset + len = 2 * b

instance (b offset len : Nat) : Decidable (FitsNext b offset len) :=
  inferInstanceAs (Decidable (_ ∨ _))

/-- The bytes taken of the last cluster of a file of `pos` bytes. -/
def tailOffset (b pos : Nat) : Nat := if pos = 0 then 0 else (pos - 1) % b + 1

def FitsRest (b : Nat) : Nat → List Nat → Prop
  | _, [] => True
  | pos, len :: lens => FitsNext b (tailOffset b pos) len ∧ FitsRest b (pos + len) lens

instance decidableFitsRest (b : Nat) : ∀ pos lens, Decidable (FitsRest b pos lens)
  | _, [] => isTrue trivial
  | pos, len :: lens =>
    have := decidableFitsRest b (pos + len) lens
    inferInstanceAs (Decidable (_ ∧ _))

/-- The first `Write` to an empty file makes its clusters at once: it may also fill any number of
clusters exactly. -/
def Fits (b : Nat) : List Nat → Prop
  | [] => True
  | len :: lens => (len ≤ b ∨ len % b = 0) ∧ FitsRest b len lens

instance (b : Nat) : ∀ lens, Decidable (Fits b lens)
  | [] => isTrue trivial
  | _ :: _ => inferInstanceAs (Decidable (_ ∧ _))

/-- The cursor is in the last cluster, behind the byte before `pos`. -/
structure Tight (b pos : Nat) (s : Stream) : Prop where
  last : s.index + 1 = s.clusters
  position : s.position b = pos
  offset_le : s.offset ≤ b
  offset_pos : s.index = 0 ∨ 0 < s.offset

theorem Tight.ok {pos : Nat} (h : s.Tight b pos) : s.Ok b :=
  ⟨by have := h.last; omega, h.offset_le⟩

theorem Tight.clusters_eq {pos : Nat} (h : s.Tight b pos) (hb : 0 < b) :
    s.clusters = max 1 (clustersFor b pos) := by
  have hpos := h.position
  have hlast := h.last
  have hle := h.offset_le
  have hoff := h.offset_pos
  unfold Stream.position at hpos
  unfold clustersFor
  by_cases hzero : s.offset = 0
  · have hindex : s.index = 0 := by omega
    rw [← hpos, hindex, hzero, Nat.div_eq_of_lt (by omega)]
    omega
  · rw [← hpos, show s.index * b + s.offset + b - 1 = b * (s.index + 1) + (s.offset - 1) by
      rw [Nat.mul_succ, Nat.mul_comm]; omega, Nat.mul_add_div hb, Nat.div_eq_of_lt (by omega)]
    omega

theorem Tight.offset_eq {pos : Nat} (h : s.Tight b pos) :
    s.offset = tailOffset b pos := by
  have hpos := h.position
  have hle := h.offset_le
  unfold Stream.position at hpos
  unfold tailOffset
  by_cases hzero : pos = 0
  · rw [if_pos hzero]
    omega
  · rw [if_neg hzero]
    have hoff : 0 < s.offset := by
      rcases h.offset_pos with h0 | h0
      · rw [h0] at hpos
        omega
      · exact h0
    have hmod : pos - 1 = s.offset - 1 + b * s.index := by
      rw [Nat.mul_comm]
      omega
    rw [hmod, Nat.add_mul_mod_self_left, Nat.mod_eq_of_lt (by omega)]
    omega

/-! ## Writes that fit -/

/-- `s'` is `s` after the first `n` bytes of `src` at the cursor. -/
structure Wrote (b : Nat) (s s' : Stream) (src : Nat → UInt8) (n : Nat) : Prop where
  position : s'.position b = s.position b + n
  content : ∀ q, s'.content q =
    if s.position b ≤ q ∧ q < s.position b + n then src (q - s.position b) else s.content q

theorem wrote_put (s : Stream) (src : Nat → UInt8) (n : Nat) : Wrote b s (s.put b src n) src n :=
  ⟨by unfold Stream.position Stream.put; dsimp only; omega, fun _ => rfl⟩

theorem wrote_zero (s : Stream) (src : Nat → UInt8) : Wrote b s s src 0 :=
  ⟨rfl, fun q => by rw [if_neg (by omega)]⟩

theorem Wrote.trans {s' s'' : Stream} {src : Nat → UInt8} {n m : Nat} (h : Wrote b s s' src n)
    (h' : Wrote b s' s'' (fun k => src (n + k)) m) : Wrote b s s'' src (n + m) := by
  have hpos := h.position
  refine ⟨by rw [h'.position, hpos, Nat.add_assoc], fun q => ?_⟩
  rw [h'.content, h.content, hpos]
  by_cases hfirst : s.position b ≤ q ∧ q < s.position b + n
  · rw [if_neg (by omega), if_pos hfirst, if_pos (by omega)]
  · by_cases hsecond : s.position b + n ≤ q ∧ q < s.position b + n + m
    · rw [if_pos hsecond, if_pos (by omega)]
      congr 1
      omega
    · rw [if_neg hsecond, if_neg hfirst, if_neg (by omega)]

/-- The cursor moves on without skipping a cluster: the next one is there, or only one is added. -/
theorem advance_next (left : Nat) (hfull : s.offset = b) (hok : s.index < s.clusters)
    (hnext : s.index + 1 < s.clusters ∨ clustersFor b left = 1) :
    s.advance b left = ⟨max s.clusters (s.index + 2), s.index + 1, 0, s.content⟩ := by
  unfold Stream.advance
  rw [if_pos hfull]
  by_cases hmid : s.index + 1 < s.clusters
  · rw [if_pos hmid, max_eq_left hmid]
  · have hone : clustersFor b left = 1 := hnext.resolve_left hmid
    rw [if_neg hmid, hone, show s.clusters = s.index + 1 by omega, max_eq_right (by omega)]
    rfl

theorem clustersFor_one (hb : 0 < b) {left : Nat} (hpos : 0 < left) (hle : left ≤ b) :
    clustersFor b left = 1 := by
  unfold clustersFor
  rw [show left + b - 1 = b + (left - 1) by omega, Nat.add_div_left _ hb,
    Nat.div_eq_of_lt (by omega)]

variable (buf) in
/-- From a full cluster on, whole clusters are written one behind the other until all bytes are counted. -/
theorem writeLoop_whole (hb : 0 < b) (hlen : b ≤ len) (k fuel total : Nat) (hfull : s.offset = b)
    (hok : s.index < s.clusters) (hlo : len ≤ total + k * b) (hhi : total + k * b < len + b)
    (hnext : s.index + k < s.clusters ∨ k ≤ 1) (hfuel : k ≤ fuel) :
    ∃ s', writeLoop b buf len fuel total s = (total + k * b, s') ∧
      Wrote b s s' (fun i => buf (total + i)) (k * b) ∧ s'.offset = b ∧ s'.index = s.index + k ∧
      s'.clusters = max s.clusters (s.index + k + 1) := by
  induction k generalizing s fuel total with
  | zero =>
    refine ⟨s, ?_, by simpa using wrote_zero s _, hfull, rfl, by omega⟩
    rw [Nat.zero_mul, Nat.add_zero] at hlo ⊢
    cases fuel with
    | zero => rfl
    | succ fuel => rw [writeLoop, if_neg (by omega)]
  | succ k ih =>
    obtain ⟨fuel, rfl⟩ : ∃ f, fuel = f + 1 := ⟨fuel - 1, by omega⟩
    rw [Nat.succ_mul] at hlo hhi ⊢
    have hadv := advance_next (len - total) hfull hok (by
      rcases hnext with h | h
      · exact .inl (by omega)
      · obtain rfl : k = 0 := by omega
        exact .inr (clustersFor_one hb (by omega) (by omega)))
    have hmin : min len (b - 0) = b := by omega
    rw [writeLoop, if_pos (by omega), hadv]
    dsimp only
    rw [hmin]
    generalize hs₁ : (⟨max s.clusters (s.index + 2), s.index + 1, 0, s.content⟩ : Stream) = s₁
    have hpos : s₁.position b = s.position b := by
      rw [← hs₁]
      unfold Stream.position
      dsimp only
      rw [Nat.succ_mul]
      omega
    have hcontent : s₁.content = s.content := by rw [← hs₁]
    have hput : Wrote b s (s₁.put b (fun i => buf (total + i)) b) (fun i => buf (total + i)) b := by
      have h := wrote_put (b := b) s₁ (fun i => buf (total + i)) b
      exact ⟨by rw [h.position, hpos], fun q => by rw [h.content, hpos, hcontent]⟩
    obtain ⟨s', hrun, hwrote, hoff, hindex, hclusters⟩ :=
      ih fuel (total + b) (s := s₁.put b (fun i => buf (total + i)) b)
        (by rw [← hs₁]; simp [Stream.put]) (by rw [← hs₁]; simp [Stream.put])
        (by omega) (by omega) (by rw [← hs₁]; simp only [Stream.put]; omega) (by omega)
    have hassoc : (fun i => buf (total + b + i)) = fun k => (fun i => buf (total + i)) (b + k) := by
      funext i
      rw [Nat.add_assoc]
    rw [hassoc] at hwrote
    refine ⟨s', by rw [hrun, Nat.add_right_comm, Nat.add_assoc], ?_, hoff, ?_, ?_⟩
    · rw [Nat.add_comm]
      exact hput.trans hwrote
    · rw [hindex, ← hs₁]
      simp only [Stream.put]
      omega
    · rw [hclusters, ← hs₁]
      simp only [Stream.put]
      omega

theorem writeLoop_done {fuel total : Nat} (h : len ≤ total) :
    writeLoop b buf len fuel total s = (total, s) := by
  cases fuel with
  | zero => rfl
  | succ fuel => rw [writeLoop, if_neg (by omega)]

theorem writeLoop_first (s : Stream) (h : 0 < len) :
    writeLoop b buf len len 0 s =
      writeLoop b buf len (len - 1) (min len (b - (s.advance b len).offset))
        ((s.advance b len).put b buf (min len (b - (s.advance b len).offset))) := by
  obtain ⟨fuel, rfl⟩ : ∃ f, len = f + 1 := ⟨len - 1, by omega⟩
  have hbuf : (fun k => buf (0 + k)) = buf := by
    funext k
    rw [Nat.zero_add]
  rw [writeLoop, if_pos h, hbuf]
  simp only [Nat.sub_zero, Nat.zero_add, Nat.add_sub_cancel]

variable (buf len) in
/-- One `Write` that fits. -/
theorem Tight.write {pos : Nat} (h : s.Tight b pos) (hb : 0 < b) (hfit : FitsNext b s.offset len) :
    ∃ s', writeLoop b buf len len 0 s = (len, s') ∧ Wrote b s s' buf len ∧
      s'.Tight b (pos + len) := by
  have hlast := h.last
  have hle := h.offset_le
  by_cases hzero : len = 0
  · subst hzero
    exact ⟨s, rfl, wrote_zero s buf, h⟩
  rw [writeLoop_first s (by omega)]
  by_cases hfull : s.offset = b
  · -- the last cluster is full: one more is made
    have hlen : len ≤ b := by
      rcases hfit with hf | hf | hf <;> omega
    have hadv := advance_next len hfull (by omega) (.inr (clustersFor_one hb (by omega) hlen))
    rw [hadv]
    dsimp only
    rw [show min len (b - 0) = len by omega, writeLoop_done (Nat.le_refl len)]
    have hpos : (⟨max s.clusters (s.index + 2), s.index + 1, 0, s.content⟩ : Stream).position b =
        s.position b := by
      unfold Stream.position
      dsimp only
      rw [Nat.succ_mul]
      omega
    have hput := wrote_put (b := b) ⟨max s.clusters (s.index + 2), s.index + 1, 0, s.content⟩ buf len
    refine ⟨_, rfl, ⟨by rw [hput.position, hpos], fun q => by rw [hput.content, hpos]⟩,
      ⟨?_, by rw [hput.position, hpos, h.position], ?_, .inr ?_⟩⟩
    · simp only [Stream.put]
      omega
    · simp only [Stream.put]
      omega
    · simp only [Stream.put]
      omega
  · have hadv : s.advance b len = s := if_neg hfull
    rw [hadv]
    by_cases hin : s.offset + len ≤ b
    · -- the bytes fit in the last cluster
      have hput := wrote_put (b := b) s buf len
      rw [show min len (b - s.offset) = len by omega, writeLoop_done (Nat.le_refl len)]
      exact ⟨_, rfl, hput, ⟨hlast, by rw [hput.position, h.position], hin, .inr (by
        simp only [Stream.put]
        omega)⟩⟩
    · -- they fill the last cluster and one more
      have hsum : s.offset + len = 2 * b := by
        rcases hfit with hf | hf | hf <;> omega
      have hput := wrote_put (b := b) s buf (b - s.offset)
      rw [show min len (b - s.offset) = b - s.offset by omega]
      obtain ⟨s', hrun, hwrote, hoff, hindex, hclusters⟩ :=
        writeLoop_whole buf (s := s.put b buf (b - s.offset)) hb (show b ≤ len by omega) 1
          (len - 1) (b - s.offset) (by simp only [Stream.put]; omega)
          (by simp only [Stream.put]; omega) (by omega) (by omega) (.inr (Nat.le_refl 1)) (by omega)
      have hall := hput.trans hwrote
      rw [show b - s.offset + 1 * b = len by omega] at hrun hall
      refine ⟨s', hrun, hall, ⟨?_, by rw [hall.position, h.position], by omega, .inr (by omega)⟩⟩
      rw [hindex, hclusters]
      simp only [Stream.put]
      omega

theorem clustersFor_mul (hb : 0 < b) (len : Nat) :
    len ≤ clustersFor b len * b ∧ clustersFor b len * b < len + b := by
  unfold clustersFor
  have hdiv := Nat.div_add_mod (len + b - 1) b
  have hmod := Nat.mod_lt (len + b - 1) hb
  rw [Nat.mul_comm] at hdiv
  omega

/-- What the first `Write` to an empty file returns: it fills the clusters made for its bytes, if there are
more than one of them. -/
def firstCount (b len : Nat) : Nat := if len ≤ b then len else clustersFor b len * b

variable (buf len) in
/-- The first `Write`, with the clusters made for it. -/
theorem tight_first (hb : 0 < b) (content : Nat → UInt8) :
    ∃ s', writeLoop b buf len len 0 (start b content len) = (firstCount b len, s') ∧
      Wrote b (start b content len) s' buf (firstCount b len) ∧ s'.Tight b (firstCount b len) ∧
      s'.offset = min len b ∧ s'.clusters = max 1 (clustersFor b len) := by
  unfold firstCount
  by_cases hle : len ≤ b
  · have hone : max 1 (clustersFor b len) = 1 := by
      by_cases hzero : len = 0
      · subst hzero
        unfold clustersFor
        rw [Nat.div_eq_of_lt (by omega)]
        rfl
      · rw [clustersFor_one hb (by omega) hle]
        rfl
    have htight : (start b content len).Tight b 0 := by
      unfold start
      rw [hone]
      exact ⟨rfl, by simp [Stream.position], Nat.zero_le _, .inl rfl⟩
    obtain ⟨s', hrun, hwrote, h⟩ := htight.write buf len hb (.inl (by
      unfold start
      dsimp only
      omega))
    rw [Nat.zero_add] at h
    rw [if_pos hle]
    refine ⟨s', hrun, hwrote, h, ?_, h.clusters_eq hb⟩
    rw [h.offset_eq, Nat.min_eq_left hle]
    unfold tailOffset
    split
    · omega
    · rw [Nat.mod_eq_of_lt (by omega)]
      omega
  · -- several whole clusters: `k` more behind the first one
    obtain ⟨hlo, hhi⟩ := clustersFor_mul hb len
    obtain ⟨k, hk⟩ : ∃ k, clustersFor b len = k + 1 :=
      ⟨clustersFor b len - 1, (Nat.sub_add_cancel (clustersFor_pos hb (by omega))).symm⟩
    rw [if_neg hle, hk, Nat.succ_mul, Nat.add_comm]
    rw [hk, Nat.succ_mul] at hlo hhi
    have hclusters : max 1 (clustersFor b len) = k + 1 := by omega
    have hkb : k ≤ k * b := Nat.le_mul_of_pos_right k hb
    have hadv : (start b content len).advance b len = start b content len := if_neg (by
      unfold start
      dsimp only
      omega)
    have hput := wrote_put (b := b) (start b content len) buf b
    have hstep : writeLoop b buf len len 0 (start b content len) =
        writeLoop b buf len (len - 1) b ((start b content len).put b buf b) := by
      rw [writeLoop_first _ (by omega), hadv,
        show min len (b - (start b content len).offset) = b by unfold start; dsimp only; omega]
    obtain ⟨s', hrun, hwrote, hoff, hindex, hclusters'⟩ :=
      writeLoop_whole buf (s := (start b content len).put b buf b) hb (show b ≤ len by omega) k
        (len - 1) b (by simp [Stream.put, start])
        (by simp only [Stream.put, start]; omega) (by omega) (by omega)
        (.inl (by simp only [Stream.put, start]; omega)) (by omega)
    have hall := hput.trans hwrote
    have hlast : s'.clusters = k + 1 := by
      rw [hclusters']
      simp only [Stream.put, start]
      omega
    refine ⟨s', hstep.trans hrun, hall, ⟨?_, ?_, by omega, .inr (by omega)⟩, by omega, by omega⟩
    · rw [hindex, hlast]
      simp only [Stream.put, start]
      omega
    · rw [hall.position]
      simp [Stream.position, start]

variable (buf) in
/-- A first `Write` that ends in the first cluster or fills its clusters is exact. -/
theorem tight_start (hb : 0 < b) (content : Nat → UInt8) (hfit : len ≤ b ∨ len % b = 0) :
    ∃ s', writeLoop b buf len len 0 (start b content len) = (len, s') ∧
      Wrote b (start b content len) s' buf len ∧ s'.Tight b len := by
  obtain ⟨s', hrun, hwrote, htight, -⟩ := tight_first buf len hb content
  have hcount : firstCount b len = len := by
    unfold firstCount
    split
    · rfl
    · rename_i hgt
      have hdvd := Nat.div_mul_cancel (Nat.dvd_of_mod_eq_zero (hfit.resolve_left hgt))
      obtain ⟨hlo, hhi⟩ := clustersFor_mul hb len
      have hle : clustersFor b len ≤ len / b := by
        apply Nat.le_of_lt_succ
        apply Nat.lt_of_mul_lt_mul_right (a := b)
        rw [Nat.succ_mul, hdvd]
        exact hhi
      have hmul := Nat.mul_le_mul_right b hle
      omega
  rw [hcount] at hrun hwrote htight
  exact ⟨s', hrun, hwrote, htight⟩

/-- The bytes of the chunks, one behind the other. -/
def stream (chunks : List Chunk) : List UInt8 := chunks.flatMap Chunk.bytes

theorem stream_length (chunks : List Chunk) :
    (stream chunks).length = (chunks.map Chunk.len).sum := by
  induction chunks with
  | nil => rfl
  | cons c chunks ih =>
    unfold stream at ih ⊢
    rw [List.flatMap_cons, List.length_append, ih, List.map_cons, List.sum_cons, Chunk.bytes,
      List.length_map, List.length_range]

theorem Wrote.congr {s' : Stream} {src src' : Nat → UInt8} {n : Nat} (h : Wrote b s s' src n)
    (hsrc : ∀ k < n, src' k = src k) : Wrote b s s' src' n := by
  refine ⟨h.position, fun q => ?_⟩
  rw [h.content]
  by_cases hin : s.position b ≤ q ∧ q < s.position b + n
  · rw [if_pos hin, if_pos hin, hsrc _ (by omega)]
  · rw [if_neg hin, if_neg hin]

/-- The first chunk of a stream, and the chunks behind it. -/
theorem Wrote.cons {s' s'' : Stream} {c : Chunk} {chunks : List Chunk}
    (h : Wrote b s s' c.buf c.len)
    (h' : Wrote b s' s'' (fun k => (stream chunks)[k]?.getD 0) (chunks.map Chunk.len).sum) :
    Wrote b s s'' (fun k => (stream (c :: chunks))[k]?.getD 0)
      ((c :: chunks).map Chunk.len).sum := by
  have hlen : c.bytes.length = c.len := by rw [Chunk.bytes, List.length_map, List.length_range]
  rw [List.map_cons, List.sum_cons]
  have hfirst : Wrote b s s' (fun k => (stream (c :: chunks))[k]?.getD 0) c.len := by
    refine h.congr fun k hk => ?_
    unfold stream
    rw [List.flatMap_cons, List.getElem?_append_left (by omega), Chunk.bytes, List.getElem?_map,
      List.getElem?_range hk]
    rfl
  refine hfirst.trans (h'.congr fun k _ => ?_)
  unfold stream
  rw [List.flatMap_cons, List.getElem?_append_right (by omega), hlen, Nat.add_sub_cancel_left]

theorem Tight.writeAll (hb : 0 < b) {pos : Nat} (chunks : List Chunk) (h : s.Tight b pos)
    (hfit : FitsRest b pos (chunks.map Chunk.len)) :
    ∃ s', writeAll b s chunks = (chunks.map Chunk.len, s') ∧
      Wrote b s s' (fun k => (stream chunks)[k]?.getD 0) (chunks.map Chunk.len).sum ∧
      s'.Tight b (pos + (chunks.map Chunk.len).sum) := by
  induction chunks generalizing s pos with
  | nil => exact ⟨s, rfl, wrote_zero s _, h⟩
  | cons c chunks ih =>
    rw [List.map_cons] at hfit
    obtain ⟨hhere, hrest⟩ := hfit
    rw [← h.offset_eq] at hhere
    obtain ⟨s₁, hrun, hwrote, htight⟩ := h.write c.buf c.len hb hhere
    obtain ⟨s', hrun', hwrote', htight'⟩ := ih htight hrest
    refine ⟨s', ?_, hwrote.cons hwrote', ?_⟩
    · rw [Stream.writeAll, hrun]
      dsimp only
      rw [hrun']
      rfl
    · rw [List.map_cons, List.sum_cons, ← Nat.add_assoc]
      exact htight'

/-! ## Writes that do not fit -/

variable (buf len) in
theorem writeLoop_total_le (fuel total : Nat) (s : Stream) :
    total ≤ (writeLoop b buf len fuel total s).1 := by
  induction fuel generalizing total s with
  | zero => exact Nat.le_refl _
  | succ fuel ih =>
    rw [writeLoop]
    split
    · exact Nat.le_trans (Nat.le_add_right _ _) (ih _ ((s.advance b (len - total)).put b _ _))
    · exact Nat.le_refl _

theorem Ok.position_le (h : s.Ok b) : s.position b ≤ s.clusters * b := by
  have hmul := Nat.mul_le_mul_right b (Nat.succ_le_of_lt h.index_lt)
  have hle := h.offset_le
  rw [Nat.succ_mul] at hmul
  unfold Stream.position
  omega

variable (buf len) in
/-- The cursor moves on by at least the bytes that are counted. -/
theorem writeLoop_position (hb : 0 < b) (fuel total : Nat) (h : s.Ok b) :
    (writeLoop b buf len fuel total s).1 + s.position b ≤
        (writeLoop b buf len fuel total s).2.position b + total ∧
      (writeLoop b buf len fuel total s).2.Ok b := by
  induction fuel generalizing total s with
  | zero => exact ⟨by rw [writeLoop]; dsimp only; omega, h⟩
  | succ fuel ih =>
    rw [writeLoop]
    split
    · rename_i hmore
      have hleft : 0 < len - total := by omega
      obtain ⟨hok, hoff⟩ := h.advance hb hleft
      have hadv : s.position b ≤ (s.advance b (len - total)).position b := by
        have hindex := h.index_lt
        have hpos := clustersFor_pos hb hleft
        unfold Stream.advance Stream.position
        split
        · rename_i hfull
          have hnext : s.index * b + b ≤ (s.index + 1) * b := by rw [Nat.succ_mul]
          split
          · dsimp only
            omega
          · have hmul := Nat.mul_le_mul_right b (show s.index + 1 ≤
              s.clusters + clustersFor b (len - total) - 1 by omega)
            dsimp only
            omega
        · exact Nat.le_refl _
      dsimp only
      generalize s.advance b (len - total) = s₁ at hok hoff hadv
      generalize hn : min len (b - s₁.offset) = n
      obtain ⟨hrest, hok'⟩ :=
        ih (total + n) (hok.put (fun k => buf (total + k)) (n := n) (by omega))
      have hput := (wrote_put (b := b) s₁ (fun k => buf (total + k)) n).position
      exact ⟨by omega, hok'⟩
    · exact ⟨by dsimp only; omega, h⟩

theorem writeAll_position (hb : 0 < b) (chunks : List Chunk) (h : s.Ok b) :
    (writeAll b s chunks).1.sum + s.position b ≤ (writeAll b s chunks).2.position b ∧
      (writeAll b s chunks).2.Ok b := by
  induction chunks generalizing s with
  | nil => exact ⟨by rw [writeAll]; simp, h⟩
  | cons c chunks ih =>
    obtain ⟨hfirst, hok⟩ := writeLoop_position c.buf c.len hb c.len 0 h
    obtain ⟨hrest, hok'⟩ := ih hok
    rw [writeAll, List.sum_cons]
    exact ⟨by dsimp only; omega, hok'⟩

variable (buf len) in
/-- Clusters in front of the cursor are never written to again. -/
theorem writeLoop_behind (hb : 0 < b) (fuel total : Nat) {q : Nat} (h : s.Ok b)
    (hq : q < s.index * b) :
    (writeLoop b buf len fuel total s).2.content q = s.content q ∧
      s.index ≤ (writeLoop b buf len fuel total s).2.index ∧
      (writeLoop b buf len fuel total s).2.Ok b := by
  induction fuel generalizing total s with
  | zero => exact ⟨rfl, Nat.le_refl _, h⟩
  | succ fuel ih =>
    rw [writeLoop]
    split
    · rename_i hmore
      have hleft : 0 < len - total := by omega
      obtain ⟨hok, hoff⟩ := h.advance hb hleft
      have hindex := (advance_mono s b (len - total)).2 h.index_lt
      have hmul := Nat.mul_le_mul_right b hindex
      have hcontent : (s.advance b (len - total)).content = s.content := by
        unfold Stream.advance
        split
        · split <;> rfl
        · rfl
      dsimp only
      generalize s.advance b (len - total) = s₁ at hok hoff hindex hmul hcontent
      generalize hn : min len (b - s₁.offset) = n
      have hput := hok.put (fun k => buf (total + k)) (n := n) (by omega)
      obtain ⟨hsame, hindex', hok'⟩ := ih (total + n) hput (by
        simp only [Stream.put]
        omega)
      refine ⟨?_, Nat.le_trans hindex hindex', hok'⟩
      rw [hsame]
      change (if s₁.position b ≤ q ∧ q < s₁.position b + n then _ else s₁.content q) = s.content q
      rw [if_neg (by unfold Stream.position; omega), hcontent]
    · exact ⟨rfl, Nat.le_refl _, h⟩

theorem writeAll_behind (hb : 0 < b) (chunks : List Chunk) {q : Nat} (h : s.Ok b)
    (hq : q < s.index * b) : (writeAll b s chunks).2.content q = s.content q := by
  induction chunks generalizing s with
  | nil => rfl
  | cons c chunks ih =>
    obtain ⟨hsame, hindex, hok⟩ :=
      writeLoop_behind c.buf c.len hb c.len 0 h hq
    have hmul := Nat.mul_le_mul_right b hindex
    rw [writeAll, ih hok (by omega), hsame]

/-- From a full cluster on, the count is exact for whole clusters only. -/
theorem writeLoop_exact_full (hb : 0 < b) {fuel total : Nat} (hfull : s.offset = b)
    (hok : s.Ok b) (hpos : 0 < total) (hexact : (writeLoop b buf len fuel total s).1 = len) :
    (len - total) % b = 0 := by
  induction fuel generalizing total s with
  | zero =>
    rw [writeLoop] at hexact
    simp [← hexact]
  | succ fuel ih =>
    rw [writeLoop] at hexact
    by_cases hmore : total < len
    · rw [if_pos hmore] at hexact
      have hleft : 0 < len - total := by omega
      obtain ⟨hok₁, hoff₁⟩ := hok.advance hb hleft
      have hzero : (s.advance b (len - total)).offset = 0 := by
        unfold Stream.advance
        rw [if_pos hfull]
        split <;> rfl
      dsimp only at hexact
      rw [hzero, Nat.sub_zero] at hexact
      have hle := writeLoop_total_le (b := b) buf len fuel (total + min len b)
        ((s.advance b (len - total)).put b (fun k => buf (total + k)) (min len b))
      rw [hexact] at hle
      have hmin : min len b = b := by omega
      rw [hmin] at hexact hle
      have hrest := ih (by simp [Stream.put, hzero]) (hok₁.put _ (by omega)) (by omega) hexact
      rw [show len - total = (len - (total + b)) + b by omega, Nat.add_mod_right]
      exact hrest
    · rw [if_neg hmore] at hexact
      rw [show len - total = 0 by omega, Nat.zero_mod]

/-- The count is exact only if the bytes end in the first cluster or fill the last one. -/
theorem writeLoop_exact (hb : 0 < b) (hok : s.Ok b)
    (hexact : (writeLoop b buf len len 0 s).1 = len) :
    s.offset % b + len ≤ b ∨ (s.offset + len) % b = 0 := by
  by_cases hzero : len = 0
  · have := Nat.mod_lt s.offset hb
    exact .inl (by omega)
  rw [writeLoop_first s (by omega)] at hexact
  obtain ⟨hok₁, hoff₁⟩ := hok.advance hb (show 0 < len by omega)
  have hle := hok.offset_le
  have hmod : (s.advance b len).offset = s.offset % b := by
    unfold Stream.advance
    by_cases hfull : s.offset = b
    · rw [if_pos hfull, hfull, Nat.mod_self]
      split <;> rfl
    · rw [if_neg hfull, Nat.mod_eq_of_lt (by omega)]
  rw [hmod] at hexact hoff₁
  by_cases hin : s.offset % b + len ≤ b
  · exact .inl hin
  · right
    rw [show min len (b - s.offset % b) = b - s.offset % b by omega] at hexact
    have hrest := writeLoop_exact_full hb (by simp only [Stream.put]; omega)
      (hok₁.put buf (by omega)) (by omega) hexact
    have hdiv := Nat.div_add_mod s.offset b
    rw [show s.offset + len = (len - (b - s.offset % b)) + b * (s.offset / b + 1) by
      rw [Nat.mul_succ]; omega, Nat.add_mul_mod_self_left]
    exact hrest

theorem clustersFor_two (hb : 0 < b) {left : Nat} (h : b < left) : 2 ≤ clustersFor b left := by
  unfold clustersFor
  rw [Nat.le_div_iff_mul_le hb]
  omega

variable (buf len) in
/-- More than one cluster added behind a full one: the cursor goes to the last of them. -/
theorem writeLoop_skip (fuel total : Nat) (hb : 0 < b) (hfull : s.offset = b)
    (hlast : s.index + 1 = s.clusters) (hleft : b < len - total) :
    (writeLoop b buf len (fuel + 1) total s).2.content (s.clusters * b) =
        s.content (s.clusters * b) ∧
      s.clusters < (writeLoop b buf len (fuel + 1) total s).2.index ∧
      (writeLoop b buf len (fuel + 1) total s).2.Ok b := by
  have htwo := clustersFor_two hb hleft
  have hadv : s.advance b (len - total) = ⟨s.clusters + clustersFor b (len - total),
      s.clusters + clustersFor b (len - total) - 1, 0, s.content⟩ := by
    unfold Stream.advance
    rw [if_pos hfull, if_neg (by omega)]
  rw [writeLoop, if_pos (by omega), hadv]
  dsimp only
  generalize hs₁ : (⟨s.clusters + clustersFor b (len - total),
    s.clusters + clustersFor b (len - total) - 1, 0, s.content⟩ : Stream) = s₁
  have hindex : s.clusters + 1 ≤ s₁.index := by
    rw [← hs₁]
    dsimp only
    omega
  have hmul := Nat.mul_le_mul_right b hindex
  rw [Nat.succ_mul] at hmul
  have hok : s₁.Ok b := by
    rw [← hs₁]
    exact ⟨by dsimp only; omega, Nat.zero_le _⟩
  have hoff : s₁.offset = 0 := by rw [← hs₁]
  obtain ⟨hsame, hmono, hok'⟩ := writeLoop_behind buf len hb fuel
    (total + min len (b - 0)) (hok.put (fun k => buf (total + k)) (n := min len (b - 0)) (by omega))
    (q := s.clusters * b) (by simp only [Stream.put]; omega)
  refine ⟨?_, Nat.lt_of_lt_of_le hindex hmono, hok'⟩
  rw [hsame]
  change (if s₁.position b ≤ s.clusters * b ∧ s.clusters * b < s₁.position b + min len (b - 0) then
    _ else s₁.content (s.clusters * b)) = s.content (s.clusters * b)
  rw [if_neg (by unfold Stream.position; omega), ← hs₁]

/-- A `Write` that does not fit miscounts, or skips the first cluster it adds. -/
theorem Tight.unfit {pos : Nat} (h : s.Tight b pos) (hb : 0 < b)
    (hfit : ¬ FitsNext b s.offset len) (hexact : (writeLoop b buf len len 0 s).1 = len) :
    (writeLoop b buf len len 0 s).2.content (s.clusters * b) = s.content (s.clusters * b) ∧
      s.clusters < (writeLoop b buf len len 0 s).2.index ∧
      (writeLoop b buf len len 0 s).2.Ok b ∧ pos ≤ s.clusters * b ∧
      s.clusters * b < pos + len := by
  have hlast := h.last
  have hle := h.offset_le
  have hpos := h.position
  unfold Stream.position at hpos
  unfold FitsNext at hfit
  have hclusters : s.clusters * b = s.index * b + b := by rw [← hlast, Nat.succ_mul]
  have hcount := writeLoop_exact hb h.ok hexact
  by_cases hfull : s.offset = b
  · rw [hfull, Nat.mod_self] at hcount
    have hlen : b < len := by
      by_contra hle
      exact hfit (.inr (.inl ⟨hfull, by omega⟩))
    obtain ⟨fuel, hfuel⟩ : ∃ f, len = f + 1 := ⟨len - 1, by omega⟩
    have hskip := writeLoop_skip buf len fuel 0 hb hfull hlast
      (by omega)
    rw [← hfuel] at hskip
    exact ⟨hskip.1, hskip.2.1, hskip.2.2, by omega, by omega⟩
  · -- the first round fills the last cluster, the second one adds clusters
    rw [Nat.mod_eq_of_lt (by omega)] at hcount
    have hmany : 3 * b ≤ s.offset + len := by
      rcases hcount with hc | hc
      · exact absurd (.inl hc) hfit
      · obtain ⟨k, hk⟩ := Nat.dvd_of_mod_eq_zero hc
        have hk3 : 3 ≤ k := by
          by_contra hlt
          have : k = 0 ∨ k = 1 ∨ k = 2 := by omega
          rcases this with rfl | rfl | rfl
          · exact hfit (.inl (by omega))
          · exact hfit (.inl (by omega))
          · exact hfit (.inr (.inr (by omega)))
        have := Nat.mul_le_mul_left b hk3
        omega
    have hadv : s.advance b len = s := if_neg hfull
    rw [writeLoop_first s (by omega), hadv, show min len (b - s.offset) = b - s.offset by omega]
    obtain ⟨fuel, hfuel⟩ : ∃ f, len - 1 = f + 1 := ⟨len - 2, by omega⟩
    rw [hfuel]
    have hskip := writeLoop_skip buf len fuel (b - s.offset)
      (s := s.put b buf (b - s.offset)) hb (by simp only [Stream.put]; omega) hlast
      (by omega)
    refine ⟨hskip.1.trans ?_, hskip.2.1, hskip.2.2, by omega, by omega⟩
    change (if s.position b ≤ s.clusters * b ∧ s.clusters * b < s.position b + (b - s.offset) then
      _ else s.content (s.clusters * b)) = s.content (s.clusters * b)
    rw [if_neg (by unfold Stream.position; omega)]

/-- Two tight streams of one size differ in their bytes only. -/
theorem Tight.eq_of_pos {s' : Stream} {pos : Nat} (h : s.Tight b pos) (h' : s'.Tight b pos)
    (hb : 0 < b) : s'.clusters = s.clusters := by
  have hoff := h.offset_eq.trans h'.offset_eq.symm
  have hpos := h.position.trans h'.position.symm
  have hlast := h.last
  have hlast' := h'.last
  unfold Stream.position at hpos
  rw [hoff, Nat.add_right_cancel_iff] at hpos
  have := Nat.eq_of_mul_eq_mul_right hb hpos
  omega

/-- If the chunks do not fit, there is a position among theirs that keeps the byte it had, provided
that all counts are exact.  It depends on the lengths only. -/
theorem writeAll_unfit (hb : 0 < b) (lens : List Nat) (pos : Nat) (hfit : ¬ FitsRest b pos lens) :
    ∃ q, pos ≤ q ∧ q < pos + lens.sum ∧ ∀ (s : Stream) (chunks : List Chunk), s.Tight b pos →
      chunks.map Chunk.len = lens → (writeAll b s chunks).1 = lens →
        (writeAll b s chunks).2.content q = s.content q := by
  induction lens generalizing pos with
  | nil => exact absurd trivial hfit
  | cons len lens ih =>
    rw [List.sum_cons]
    by_cases hhere : FitsNext b (tailOffset b pos) len
    · obtain ⟨q, hlo, hhi, hkeep⟩ := ih (pos + len) fun hrest => hfit ⟨hhere, hrest⟩
      refine ⟨q, by omega, by omega, ?_⟩
      intro s chunks hs hlens hcounts
      cases chunks with
      | nil => cases hlens
      | cons c chunks =>
        obtain ⟨rfl, hlens'⟩ := List.cons.inj hlens
        obtain ⟨s₁, hrun, hwrote, htight⟩ := hs.write c.buf c.len hb (hs.offset_eq ▸ hhere)
        rw [writeAll, hrun] at hcounts ⊢
        dsimp only at hcounts ⊢
        rw [hkeep s₁ chunks htight hlens' (List.cons.inj hcounts).2, hwrote.content, hs.position,
          if_neg (by omega)]
    · by_cases hany : ∃ (s : Stream) (chunks : List Chunk), s.Tight b pos ∧
        chunks.map Chunk.len = len :: lens ∧ (writeAll b s chunks).1 = len :: lens
      · -- one such run tells the position; it is the same in all of them
        obtain ⟨s₀, chunks₀, hs₀, hlens₀, hcounts₀⟩ := hany
        have hskip : ∀ (s : Stream) (chunks : List Chunk), s.Tight b pos →
            chunks.map Chunk.len = len :: lens → (writeAll b s chunks).1 = len :: lens →
            (writeAll b s chunks).2.content (s.clusters * b) = s.content (s.clusters * b) ∧
              pos ≤ s.clusters * b ∧ s.clusters * b < pos + len := by
          intro s chunks hs hlens hcounts
          cases chunks with
          | nil => cases hlens
          | cons c chunks =>
            obtain ⟨rfl, -⟩ := List.cons.inj hlens
            rw [writeAll] at hcounts ⊢
            obtain ⟨hsame, hindex, hok, hlo, hhi⟩ :=
              hs.unfit hb (hs.offset_eq ▸ hhere) (List.cons.inj hcounts).1
            have hbehind := Nat.mul_lt_mul_of_pos_right hindex hb
            exact ⟨(writeAll_behind hb chunks hok hbehind).trans hsame, hlo, hhi⟩
        obtain ⟨-, hlo, hhi⟩ := hskip s₀ chunks₀ hs₀ hlens₀ hcounts₀
        refine ⟨s₀.clusters * b, hlo, by omega, fun s chunks hs hlens hcounts => ?_⟩
        rw [← hs₀.eq_of_pos hs hb]
        exact (hskip s chunks hs hlens hcounts).1
      · by_cases hlen : len = 0
        · exact absurd (.inl (by
            rw [hlen]
            unfold tailOffset
            split
            · exact Nat.zero_le b
            · have := Nat.mod_lt (pos - 1) hb
              omega)) hhere
        · exact ⟨pos, Nat.le_refl _, by omega, fun s chunks hs hlens hcounts =>
            absurd ⟨s, chunks, hs, hlens, hcounts⟩ hany⟩

end Stream

end MikanSaos
