import MikanSaos.FileSystem.DescriptorStream
import MikanSaos.FileSystem.ReadStream
import MikanSaos.FileSystem.StreamRun
import MikanSaos.FileSystem.Entries

/-!
# RoundTrip — what is written to a new file is read back

Successive `Write` calls on one descriptor of an empty file, and then one `Read` on a new descriptor.
-/

open Reasoning

namespace MikanSaos

namespace FileDescriptor

def writeAll (fd : FileDescriptor) (v : Volume) : List Chunk →
    Option (List Nat × FileDescriptor × Volume)
  | [] => some ([], fd, v)
  | c :: chunks => (fd.write v c.buf c.len).bind fun (n, fd, v) =>
    (writeAll fd v chunks).map fun (ns, r) => (n :: ns, r)

end FileDescriptor

open Volume

/-- The chunks hold the same bytes, but their buffers may differ behind them. -/
def SameBytes : List Chunk → List Chunk → Prop :=
  List.Forall₂ fun c c' => c'.len = c.len ∧ ∀ k < c.len, c'.buf k = c.buf k

/-- The calls return the lengths of the chunks, depend on their bytes only, and leave a file whose size
and contents are those of the chunks. -/
structure RoundTrip (v : Volume) (p : EntryPtr) (chunks : List Chunk) : Prop where
  written : ∃ fd v', (FileDescriptor.new p).writeAll v chunks =
      some (chunks.map Chunk.len, fd, v') ∧
    v'.fileSize p = (chunks.map Chunk.len).sum ∧
    ∃ fd', (FileDescriptor.new p).read v' (chunks.map Chunk.len).sum =
      some (chunks.flatMap Chunk.bytes, fd')
  inBounds : ∀ chunks', SameBytes chunks chunks' →
    (FileDescriptor.new p).writeAll v chunks' = (FileDescriptor.new p).writeAll v chunks

/-! ## Only the bytes of the chunk are read -/

namespace Volume

theorem writeLoop_total_le {buf : Nat → UInt8} {len fuel : Nat} {v : Volume}
    {total cluster offset : Nat} {r : (Nat × Nat × Nat) × Volume}
    (h : writeLoop buf len fuel v total cluster offset = some r) : total ≤ r.1.1 := by
  induction fuel generalizing v total cluster offset with
  | zero =>
    rw [writeLoop] at h
    split at h
    · cases h
    · cases h
      exact Nat.le_refl _
  | succ fuel ih =>
    rw [writeLoop] at h
    split at h
    · obtain ⟨⟨⟨cluster', offset'⟩, v'⟩, -, h⟩ := Option.bind_eq_some_iff.mp h
      dsimp only at h
      split at h
      · exact Nat.le_trans (Nat.le_add_right _ _) (ih h)
      · cases h
    · cases h
      exact Nat.le_refl _

theorem copyIn_congr (v : Volume) (cluster offset : Nat) (src : Nat → UInt8) {src' : Nat → UInt8} {n : Nat}
    (h : ∀ k < n, src' k = src k) :
    v.copyIn cluster offset src' n = v.copyIn cluster offset src n := by
  unfold copyIn
  congr 1
  funext k
  by_cases hin : offset ≤ k ∧ k < offset + n
  · rw [if_pos hin, if_pos hin, h _ (by omega)]
  · rw [if_neg hin, if_neg hin]

/-- A loop that returns `len` has read the first `len` bytes of the buffer only. -/
theorem writeLoop_congr {buf buf' : Nat → UInt8} {len fuel : Nat}
    (hbuf : ∀ k < len, buf' k = buf k) {v : Volume} {total cluster offset : Nat}
    {r : (Nat × Nat × Nat) × Volume} (hlen : r.1.1 = len)
    (h : writeLoop buf len fuel v total cluster offset = some r) :
    writeLoop buf' len fuel v total cluster offset = some r := by
  induction fuel generalizing v total cluster offset with
  | zero => exact h
  | succ fuel ih =>
    rw [writeLoop] at h ⊢
    split at h
    · rename_i hmore
      obtain ⟨⟨⟨cluster', offset'⟩, v'⟩, hadv, h⟩ := Option.bind_eq_some_iff.mp h
      rw [if_pos hmore, hadv, Option.bind_some]
      dsimp only at h ⊢
      split at h
      · rename_i hcluster
        have htotal := writeLoop_total_le h
        rw [if_pos hcluster, copyIn_congr v' cluster' offset'
          (fun k => buf (total + k)) fun k hk => hbuf (total + k) (by omega)]
        exact ih h
      · cases h
    · rename_i hmore
      rw [if_neg hmore]
      exact h

end Volume

theorem FileDescriptor.write_congr {fd fd' : FileDescriptor} {v v' : Volume} {c c' : Chunk}
    (hc : c'.len = c.len ∧ ∀ k < c.len, c'.buf k = c.buf k)
    (h : fd.write v c.buf c.len = some (c.len, fd', v')) :
    fd.write v c'.buf c'.len = some (c.len, fd', v') := by
  unfold write at h ⊢
  obtain ⟨⟨x, v₁⟩, hstart, h⟩ := Option.bind_eq_some_iff.mp h
  obtain ⟨⟨⟨total, x', off⟩, v₂⟩, hloop, h⟩ := Option.map_eq_some_iff.mp h
  dsimp only at h hloop
  have htotal : total = c.len := congrArg Prod.fst h
  rw [hc.1, hstart, Option.bind_some]
  dsimp only
  rw [writeLoop_congr hc.2 htotal hloop, Option.map_some]
  exact congrArg some h

theorem FileDescriptor.writeAll_congr {fd fd' : FileDescriptor} {v v' : Volume}
    {chunks chunks' : List Chunk} (hsame : SameBytes chunks chunks')
    (h : fd.writeAll v chunks = some (chunks.map Chunk.len, fd', v')) :
    fd.writeAll v chunks' = some (chunks.map Chunk.len, fd', v') := by
  induction hsame generalizing fd v with
  | nil => exact h
  | @cons c c' chunks chunks' hc _ ih =>
    rw [writeAll] at h ⊢
    obtain ⟨⟨n, fd₁, v₁⟩, hwrite, h⟩ := Option.bind_eq_some_iff.mp h
    obtain ⟨⟨ns, fd₂, v₂⟩, hrest, h⟩ := Option.map_eq_some_iff.mp h
    dsimp only at h hrest
    have hn : n = c.len := (List.cons.inj (congrArg Prod.fst h)).1
    have hns : ns = chunks.map Chunk.len := (List.cons.inj (congrArg Prod.fst h)).2
    have hend := congrArg Prod.snd h
    dsimp only at hend
    rw [hn] at hwrite
    rw [hns, hend] at hrest
    rw [write_congr hc hwrite, Option.bind_some]
    dsimp only
    rw [ih hrest]
    rfl

namespace FileDescriptor

variable {fd : FileDescriptor} {v v₀ : Volume} {b first x len n : Nat} {area : List Nat}
  {buf : Nat → UInt8} {s s' : Stream}

theorem writeAll_follows {chunks : List Chunk} {ns : List Nat} (h : Follows fd v b first area s)
    (hrun : Stream.writeAll b s chunks = (ns, s')) :
    (area.length < s'.clusters → fd.writeAll v chunks = none) ∧
    (s'.clusters ≤ area.length → ∃ fd' v', fd.writeAll v chunks = some (ns, fd', v') ∧
      Follows fd' v' b first area s' ∧ fd'.fatEntry = fd.fatEntry ∧ fd'.wrOff = fd.wrOff + ns.sum ∧
      v'.firstCluster fd.fatEntry = v.firstCluster fd.fatEntry ∧
      (v.fileSize fd.fatEntry = fd.wrOff % 2 ^ 32 →
        v'.fileSize fd.fatEntry = (fd.wrOff + ns.sum) % 2 ^ 32)) := by
  induction chunks generalizing fd v s ns with
  | nil =>
    cases hrun
    exact ⟨fun hroom => absurd h.stores.clusters_le (Nat.not_le.mpr hroom),
      fun _ => ⟨fd, v, rfl, h, rfl, rfl, rfl, id⟩⟩
  | cons c chunks ih =>
    rw [Stream.writeAll] at hrun
    rcases hloop : Stream.writeLoop b c.buf c.len c.len 0 s with ⟨n, s₁⟩
    rcases hrest : Stream.writeAll b s₁ chunks with ⟨ns', s₂⟩
    rw [hloop] at hrun
    dsimp only at hrun
    rw [hrest] at hrun
    dsimp only at hrun
    cases hrun
    have hgrow := Stream.writeAll_clusters (b := b) chunks s₁
    rw [hrest] at hgrow
    dsimp only at hgrow
    obtain ⟨hfull, hroom⟩ := write_follows h hloop
    rw [writeAll]
    by_cases hone : s₁.clusters ≤ area.length
    · obtain ⟨fd₁, v₁, hwrite, hafter, hfirst⟩ := hroom hone
      obtain ⟨hfull', hroom'⟩ := ih hafter.follows hrest
      rw [hwrite, Option.bind_some]
      dsimp only
      refine ⟨fun hr => by rw [hfull' hr, Option.map_none], fun hr => ?_⟩
      obtain ⟨fd', v', heq, hfollows', hentry', hoff', hfirst', hsize'⟩ := hroom' hr
      rw [hafter.fatEntry, hafter.wrOff] at hsize'
      rw [hafter.fatEntry] at hfirst' hentry'
      rw [hafter.wrOff] at hoff'
      rw [heq, Option.map_some, List.sum_cons, ← Nat.add_assoc]
      exact ⟨fd', v', rfl, hfollows', hentry', hoff', hfirst'.trans hfirst,
        fun _ => hsize' hafter.fileSize⟩
    · rw [hfull (by omega), Option.bind_none]
      exact ⟨fun _ => rfl, fun hr => absurd hr (by omega)⟩

theorem writeAll_new {p : EntryPtr} {c : Chunk} {chunks : List Chunk} {ns : List Nat}
    {s₁ : Stream} (hb : 0 < v.bytesPerCluster) (hmax : v.numFatEntries ≤ kMaxFatEntries)
    (hp : p.cluster ∉ v.freeClusters) (hfirst : v.firstCluster p = 0)
    (hloop : Stream.writeLoop v.bytesPerCluster c.buf c.len c.len 0
      (Stream.start v.bytesPerCluster (v.contentOf v.freeClusters) c.len) = (n, s₁))
    (hrest : Stream.writeAll v.bytesPerCluster s₁ chunks = (ns, s')) :
    (v.freeClusters.length < s'.clusters → (new p).writeAll v (c :: chunks) = none) ∧
    (s'.clusters ≤ v.freeClusters.length → ∃ fd' v' x,
      (new p).writeAll v (c :: chunks) = some (n :: ns, fd', v') ∧
      Follows fd' v' v.bytesPerCluster x v.freeClusters s' ∧ fd'.fatEntry = p ∧
      fd'.wrOff = n + ns.sum ∧ v'.firstCluster p = x ∧ v'.fileSize p = (n + ns.sum) % 2 ^ 32) := by
  have hgrow := Stream.writeAll_clusters (b := v.bytesPerCluster) chunks s₁
  rw [hrest] at hgrow
  dsimp only at hgrow
  obtain ⟨hfull, hroom⟩ :=
    write_empty (new p) hb hmax hp hfirst rfl (Nat.zero_le _) (contents_contentOf hb _) hloop
  rw [writeAll]
  by_cases hone : s₁.clusters ≤ v.freeClusters.length
  · obtain ⟨x, fd₁, v₁, hwrite, hafter, hfirst₁⟩ := hroom hone
    obtain ⟨hfull', hroom'⟩ := writeAll_follows hafter.follows hrest
    have hentry : fd₁.fatEntry = p := hafter.fatEntry
    have hwrOff : fd₁.wrOff = n := hafter.wrOff.trans (Nat.zero_add n)
    have hsize : v₁.fileSize p = n % 2 ^ 32 := by
      have hsize := hafter.fileSize
      rwa [show (new p).wrOff = 0 from rfl, Nat.zero_add] at hsize
    rw [hwrite, Option.bind_some]
    dsimp only
    refine ⟨fun hr => by rw [hfull' hr, Option.map_none], fun hr => ?_⟩
    obtain ⟨fd', v', heq, hfollows', hentry', hoff', hfirst', hsize'⟩ := hroom' hr
    rw [hentry, hwrOff] at hsize'
    rw [hentry] at hfirst' hentry'
    rw [hwrOff] at hoff'
    rw [heq, Option.map_some]
    exact ⟨fd', v', x, rfl, hfollows', hentry', hoff', hfirst'.trans hfirst₁, hsize' hsize⟩
  · rw [hfull (by omega), Option.bind_none]
    exact ⟨fun _ => rfl, fun hr => absurd hr (by omega)⟩

/-- A new descriptor reads the file from its first byte on. -/
theorem read_new {p : EntryPtr} {size : Nat} (hst : v.Stores b first area s)
    (hfirst : v.firstCluster p = first) (hsize : v.fileSize p = size)
    (hroom : size ≤ s.clusters * b) :
    ∃ fd', (new p).read v size = some ((List.range size).map s.content, fd') := by
  have hlt : size < 2 ^ 32 := by
    rw [← hsize]
    exact readLE_lt _ _ 4
  have hlen : min size (sub64 (v.fileSize p) 0) = size := by
    rw [hsize]
    unfold sub64
    omega
  have htake : (area.take s.clusters).length = s.clusters := by
    rw [List.length_take]
    exact Nat.min_eq_left hst.clusters_le
  obtain ⟨x', hread, -⟩ := readLoop_spec hst.max hst.pos hst.bytes hst.chain
    (fun i x hx => hst.content i x (by
      rw [List.getElem?_take] at hx
      split at hx
      · exact hx
      · cases hx))
    size size 0 first (Nat.le_refl _) (by rw [htake]; omega) (standsAt_first hst.chain b)
  unfold read
  rw [if_pos (show (new p).rdCluster = 0 from rfl)]
  dsimp only [new]
  rw [Nat.zero_mod] at hread
  simp only [Nat.zero_add] at hread
  rw [hlen, hfirst, hread, Option.map_some]
  exact ⟨_, rfl⟩

end FileDescriptor

variable {v : Volume} {p : EntryPtr}

/-- A list of writes that returned the right counts, as a run of the stream. -/
theorem RoundTrip.stream_run {c : Chunk} {chunks : List Chunk} {s₁ s' : Stream} {n : Nat}
    {ns : List Nat} (h : RoundTrip v p (c :: chunks)) (hb : 0 < v.bytesPerCluster)
    (hmax : v.numFatEntries ≤ kMaxFatEntries) (hp : p.cluster ∉ v.freeClusters)
    (hfirst : v.firstCluster p = 0)
    (hloop : Stream.writeLoop v.bytesPerCluster c.buf c.len c.len 0
      (Stream.start v.bytesPerCluster (v.contentOf v.freeClusters) c.len) = (n, s₁))
    (hrest : Stream.writeAll v.bytesPerCluster s₁ chunks = (ns, s')) :
    n = c.len ∧ ns = chunks.map Chunk.len ∧
      ∀ q < ((c :: chunks).map Chunk.len).sum,
        ((c :: chunks).flatMap Chunk.bytes)[q]? = some (s'.content q) := by
  obtain ⟨fd, v', hwrite, hsize, fd', hread⟩ := h.written
  obtain ⟨hfull, hroom⟩ := FileDescriptor.writeAll_new hb hmax hp hfirst hloop hrest
  by_cases hclusters : s'.clusters ≤ v.freeClusters.length
  · obtain ⟨fd'', v'', x, heq, hfollows, -, -, hx, -⟩ := hroom hclusters
    rw [hwrite] at heq
    have hcounts := (Prod.mk.inj (Option.some.inj heq)).1
    obtain rfl : v' = v'' := congrArg (fun r => r.2.2) (Option.some.inj heq)
    obtain ⟨rfl, rfl⟩ := List.cons.inj hcounts
    -- the cursor is behind all bytes, so the chain is long enough for the reader
    have hok := Stream.Ok.start v.bytesPerCluster (v.contentOf v.freeClusters) c.len
    obtain ⟨hpos₁, hok₁⟩ := Stream.writeLoop_position c.buf c.len hb c.len 0 hok
    rw [hloop] at hpos₁ hok₁
    obtain ⟨hpos₂, hok₂⟩ := Stream.writeAll_position hb chunks hok₁
    rw [hrest] at hpos₂ hok₂
    have hcap := hok₂.position_le
    obtain ⟨fd₂, hread'⟩ := FileDescriptor.read_new hfollows.stores hx hsize (by
      rw [List.map_cons, List.sum_cons]
      dsimp only at hpos₁ hpos₂ hcap
      omega)
    rw [hread] at hread'
    refine ⟨rfl, rfl, fun q hq => ?_⟩
    rw [(Prod.mk.inj (Option.some.inj hread')).1, List.getElem?_map, List.getElem?_range hq]
    rfl
  · rw [hfull (by omega)] at hwrite
    cases hwrite

theorem roundTrip_of_fits {chunks : List Chunk} (hb : 0 < v.bytesPerCluster)
    (hmax : v.numFatEntries ≤ kMaxFatEntries) (hp : p.cluster ∉ v.freeClusters)
    (hfirst : v.firstCluster p = 0) (hsize : v.fileSize p = 0)
    (hroom : max 1 (clustersFor v.bytesPerCluster (chunks.map Chunk.len).sum) ≤
      v.freeClusters.length)
    (hsum : (chunks.map Chunk.len).sum < 2 ^ 32)
    (hfit : Stream.Fits v.bytesPerCluster (chunks.map Chunk.len)) : RoundTrip v p chunks := by
  cases chunks with
  | nil =>
    have hread : ∃ fd', (FileDescriptor.new p).read v 0 = some ([], fd') := by
      unfold FileDescriptor.read
      rw [Nat.zero_min]
      exact ⟨_, rfl⟩
    refine ⟨⟨_, v, rfl, hsize, hread⟩, fun chunks' hsame => ?_⟩
    cases hsame
    rfl
  | cons c chunks =>
    rw [List.map_cons] at hfit
    obtain ⟨hhere, hrest⟩ := hfit
    obtain ⟨s₁, hrun₁, hwrote₁, htight₁⟩ := Stream.tight_start c.buf hb
      (v.contentOf v.freeClusters) hhere
    obtain ⟨s', hrun', hwrote', htight'⟩ := htight₁.writeAll hb chunks hrest
    have hclusters : s'.clusters ≤ v.freeClusters.length := by
      rw [htight'.clusters_eq hb]
      simpa using hroom
    obtain ⟨fd', v', x, hwrite, hfollows, -, -, hx, hsize'⟩ :=
      (FileDescriptor.writeAll_new hb hmax hp hfirst hrun₁ hrun').2 hclusters
    rw [← List.sum_cons, ← List.map_cons (f := Chunk.len), Nat.mod_eq_of_lt hsum] at hsize'
    have hcap := htight'.ok.position_le
    rw [htight'.position, ← List.sum_cons, ← List.map_cons (f := Chunk.len)] at hcap
    obtain ⟨fd₂, hread⟩ := FileDescriptor.read_new hfollows.stores hx hsize' hcap
    have hwrote := hwrote₁.cons hwrote'
    have hbytes : (List.range ((c :: chunks).map Chunk.len).sum).map s'.content =
        (c :: chunks).flatMap Chunk.bytes := by
      apply List.ext_getElem?
      intro q
      have hlen := Stream.stream_length (c :: chunks)
      by_cases hq : q < ((c :: chunks).map Chunk.len).sum
      · have hget := List.getElem?_eq_getElem (l := Stream.stream (c :: chunks)) (i := q) (by omega)
        rw [List.getElem?_map, List.getElem?_range hq, Option.map_some, hwrote.content]
        have hzero : (Stream.start v.bytesPerCluster (v.contentOf v.freeClusters) c.len).position
            v.bytesPerCluster = 0 := by simp [Stream.position, Stream.start]
        rw [hzero, if_pos ⟨Nat.zero_le _, by omega⟩, Nat.sub_zero, hget, Option.getD_some]
        exact hget.symm
      · have hge : (Stream.stream (c :: chunks)).length ≤ q := by omega
        rw [List.getElem?_eq_none (by simpa using hq)]
        exact (List.getElem?_eq_none hge).symm
    rw [hbytes] at hread
    exact ⟨⟨fd', v', hwrite, hsize', fd₂, hread⟩, fun chunks' hsame =>
      (FileDescriptor.writeAll_congr hsame hwrite).trans hwrite.symm⟩

/-- Chunks of the given lengths, all of one byte. -/
def repeated (byte : UInt8) (lens : List Nat) : List Chunk :=
  lens.map fun len => ⟨fun _ => byte, len⟩

theorem repeated_len (byte : UInt8) (lens : List Nat) :
    (repeated byte lens).map Chunk.len = lens := by
  unfold repeated
  rw [List.map_map]
  exact List.map_id lens

theorem eq_of_mem_repeated {x byte : UInt8} (lens : List Nat)
    (h : x ∈ (repeated byte lens).flatMap Chunk.bytes) : x = byte := by
  obtain ⟨c, hc, hx⟩ := List.mem_flatMap.mp h
  obtain ⟨len, -, rfl⟩ := List.mem_map.mp hc
  obtain ⟨k, -, hk⟩ := List.mem_map.mp hx
  exact hk.symm

theorem content_start (b len : Nat) (content : Nat → UInt8) :
    (Stream.start b content len).position b = 0 := by simp [Stream.position, Stream.start]

/-- A position that keeps the byte of the free cluster it lies in gives the writes away. -/
theorem fits_of_roundTrip (hb : 0 < v.bytesPerCluster) (hmax : v.numFatEntries ≤ kMaxFatEntries)
    (hp : p.cluster ∉ v.freeClusters) (hfirst : v.firstCluster p = 0) {lens : List Nat}
    (h : ∀ byte, RoundTrip v p (repeated byte lens)) : Stream.Fits v.bytesPerCluster lens := by
  cases lens with
  | nil => trivial
  | cons len lens =>
    have hlens := repeated_len
    have hhere : len ≤ v.bytesPerCluster ∨ len % v.bytesPerCluster = 0 := by
      obtain ⟨hexact, -⟩ := (h 0).stream_run hb hmax hp hfirst rfl rfl
      have hcount := Stream.writeLoop_exact hb (Stream.Ok.start _ _ _) hexact
      simpa [Stream.start] using hcount
    refine ⟨hhere, ?_⟩
    by_contra hrest
    obtain ⟨q, hlo, hhi, hkeep⟩ := Stream.writeAll_unfit hb lens len hrest
    generalize hbyte : v.contentOf v.freeClusters q + 1 = byte
    obtain ⟨s₁, hloop, hwrote, htight⟩ := Stream.tight_start (fun _ => byte) hb
      (v.contentOf v.freeClusters) hhere
    obtain ⟨-, hcounts, hbytes⟩ := (h byte).stream_run hb hmax hp hfirst hloop rfl
    have hsame := hkeep s₁ (repeated byte lens) htight (hlens byte lens)
      (hcounts.trans (hlens byte lens))
    rw [hwrote.content, content_start, if_neg (by omega)] at hsame
    have hq := hbytes q (by
      change q < ((repeated byte (len :: lens)).map Chunk.len).sum
      rw [hlens, List.sum_cons]
      exact hhi)
    have hread := eq_of_mem_repeated (len :: lens) (List.mem_of_getElem? hq)
    change _ = byte at hread
    have hstale : v.contentOf v.freeClusters q = byte := hsame.symm.trans hread
    rw [← hbyte] at hstale
    simp at hstale

/-- **When files survive a round trip.**  On a volume with room enough, the writes of given lengths to
an empty file are exact and can be read back, whatever the bytes are, iff the file stays below 4 GiB
and every `Write` fits: the first one ends in the first cluster or fills whole clusters, each other one
ends in the cluster it starts in, or in the next one if that is full, or at the end of the next one. -/
theorem roundTrip_iff (hb : 0 < v.bytesPerCluster) (hmax : v.numFatEntries ≤ kMaxFatEntries)
    (hentry : v.fat p.cluster ≠ 0) (hfirst : v.firstCluster p = 0) (hsize : v.fileSize p = 0)
    (lens : List Nat)
    (hroom : max 1 (clustersFor v.bytesPerCluster lens.sum) ≤ v.freeClusters.length) :
    (∀ chunks : List Chunk, chunks.map Chunk.len = lens → RoundTrip v p chunks) ↔
      lens.sum < 2 ^ 32 ∧ Stream.Fits v.bytesPerCluster lens := by
  have hp : p.cluster ∉ v.freeClusters := fun h => hentry (mem_freeClusters.mp h).2
  constructor
  · intro h
    have hall := fun byte => h (repeated byte lens) (repeated_len byte lens)
    refine ⟨?_, fits_of_roundTrip hb hmax hp hfirst hall⟩
    obtain ⟨fd, v', -, hsize', -⟩ := (hall 0).written
    rw [repeated_len] at hsize'
    rw [← hsize']
    exact readLE_lt _ _ 4
  · rintro ⟨hsum, hfit⟩ chunks rfl
    exact roundTrip_of_fits hb hmax hp hfirst hsize hroom hsum hfit

/-- A volume with clusters of 32 bytes, 3 to 7 free, whose root directory holds one empty file. -/
def emptyFileVolume : Volume where
  bytesPerCluster := 32
  numFatEntries := 8
  rootCluster := 2
  fat c := if c = 0 then 0x0ffffff8 else if c ≤ 2 then kEndOfClusterchain else 0
  data c k := if c = 2 ∧ k < 11 then 0x61 else 0

theorem roundTrip_iff_two_writes :
    RoundTrip emptyFileVolume ⟨2, 0⟩ [⟨fun _ => 1, 20⟩, ⟨fun k => UInt8.ofNat k, 44⟩] :=
  (roundTrip_iff (by decide) (by decide) (by decide) (by decide) (by decide) [20, 44]
    (by decide)).mpr ⟨by decide, by decide⟩ _ rfl

/-- 33 bytes do not fit: two whole clusters are copied, and the call returns 64. -/
theorem write_overrun : ¬ RoundTrip emptyFileVolume ⟨2, 0⟩ [⟨fun _ => 0, 33⟩] := by
  rintro ⟨⟨fd, v', hwrite, -⟩, -⟩
  have hcount : ((FileDescriptor.new ⟨2, 0⟩).writeAll emptyFileVolume [⟨fun _ => 0, 33⟩]).map
      Prod.fst = some [64] := by decide
  rw [hwrite] at hcount
  cases hcount

end MikanSaos
