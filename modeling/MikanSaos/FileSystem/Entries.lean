import MikanSaos.FileSystem.Volume
import Mathlib.Data.Nat.Bitwise

/-! # Entries — which bytes of a directory entry an assignment changes -/

open Reasoning

namespace MikanSaos

namespace Volume

variable {v v' : Volume} {p q : EntryPtr}

/-- The entry has the same bytes in both volumes, except for those in `changed`. -/
def SameEntry (v v' : Volume) (p : EntryPtr) (changed : Nat → Prop) : Prop :=
  ∀ k < kEntryBytes, ¬ changed k → v'.entryByte p k = v.entryByte p k

theorem readLE_field_congr {changed : Nat → Prop} (h : SameEntry v v' p changed) {field n : Nat}
    (hfit : field + n ≤ kEntryBytes) (hkeep : ∀ k, field ≤ k → k < field + n → ¬ changed k) :
    readLE (v'.data p.cluster) (p.offset + field) n =
      readLE (v.data p.cluster) (p.offset + field) n := by
  apply readLE_congr
  intro a hlo hhi
  have hbyte := h (a - p.offset) (by omega) (hkeep _ (by omega) (by omega))
  unfold entryByte at hbyte
  rwa [Nat.add_sub_cancel' (by omega)] at hbyte

theorem attr_congr {changed : Nat → Prop} (h : SameEntry v v' p changed) (hkeep : ¬ changed 11) :
    v'.attr p = v.attr p := h 11 (by decide) hkeep

theorem firstCluster_congr {changed : Nat → Prop} (h : SameEntry v v' p changed)
    (hkeep : ∀ k, 20 ≤ k → k < 28 → ¬ changed k) : v'.firstCluster p = v.firstCluster p := by
  unfold firstCluster
  rw [readLE_field_congr h (by decide) fun k hlo hhi => hkeep k (by omega) (by omega),
    readLE_field_congr h (by decide) fun k hlo hhi => hkeep k (by omega) (by omega)]

theorem fileSize_congr {changed : Nat → Prop} (h : SameEntry v v' p changed)
    (hkeep : ∀ k, 28 ≤ k → ¬ changed k) : v'.fileSize p = v.fileSize p :=
  readLE_field_congr h (by decide) fun k hlo _ => hkeep k hlo

theorem SameEntry.of_data (h : v'.data p.cluster = v.data p.cluster) (changed : Nat → Prop) :
    SameEntry v v' p changed := fun k _ _ => by unfold entryByte; rw [h]

theorem SameEntry.trans {v'' : Volume} {changed changed' : Nat → Prop}
    (h : SameEntry v v' p changed) (h' : SameEntry v' v'' p changed') :
    SameEntry v v'' p fun k => changed k ∨ changed' k := fun k hk hne =>
  (h' k hk fun hc => hne (.inr hc)).trans (h k hk fun hc => hne (.inl hc))

theorem SameEntry.mono {changed changed' : Nat → Prop} (h : SameEntry v v' p changed)
    (himp : ∀ k, changed k → changed' k) : SameEntry v v' p changed' :=
  fun k hk hne => h k hk fun hc => hne (himp k hc)

/-- Two entries of a cluster do not overlap. -/
theorem offset_apart (hcluster : p.cluster = q.cluster) (hne : q ≠ p) :
    p.offset + kEntryBytes ≤ q.offset ∨ q.offset + kEntryBytes ≤ p.offset := by
  have hindex : q.index ≠ p.index := fun he => hne (by
    cases p
    cases q
    simp_all)
  unfold EntryPtr.offset kEntryBytes
  omega

/-- Writing bytes of one entry leaves the other entries alone. -/
theorem sameEntry_setCluster (bytes : Nat → UInt8) (field n : Nat) (hfit : field + n ≤ kEntryBytes)
    (hbytes : ∀ a, ¬ (p.offset + field ≤ a ∧ a < p.offset + field + n) →
      bytes a = v.data p.cluster a) (q : EntryPtr) :
    SameEntry v (v.setCluster p.cluster bytes) q fun k => q = p ∧ field ≤ k ∧ k < field + n := by
  intro k hk hne
  unfold entryByte
  by_cases hcluster : q.cluster = p.cluster
  · rw [hcluster, setCluster_self]
    apply hbytes
    rintro ⟨hlo, hhi⟩
    by_cases hqp : q = p
    · subst hqp
      exact hne ⟨rfl, by omega, by omega⟩
    · have := offset_apart hcluster.symm hqp
      omega
  · rw [setCluster_of_ne v bytes hcluster]

theorem sameEntry_setField (v : Volume) (p : EntryPtr) (field n : Nat)
    (hfit : field + n ≤ kEntryBytes) (value : Nat) (q : EntryPtr) :
    SameEntry v (v.setField p field n value) q fun k => q = p ∧ field ≤ k ∧ k < field + n := by
  apply sameEntry_setCluster _ field n hfit
  intro a ha
  exact if_neg ha

theorem sameEntry_copyIn (v : Volume) (p : EntryPtr) {n : Nat} (hfit : n ≤ kEntryBytes)
    (src : Nat → UInt8) (q : EntryPtr) :
    SameEntry v (v.copyIn p.cluster p.offset src n) q fun k => q = p ∧ k < n := by
  have h := sameEntry_setCluster (v := v) (p := p)
    (fun k => if p.offset ≤ k ∧ k < p.offset + n then src (k - p.offset) else v.data p.cluster k) 0 n
    (by omega) (fun a ha => if_neg ha) q
  exact h.mono fun k hk => ⟨hk.1, by omega⟩

theorem sameEntry_setFirstCluster (v : Volume) (p : EntryPtr) (c : Nat) (q : EntryPtr) :
    SameEntry v (v.setFirstCluster p c) q fun k => q = p ∧ 20 ≤ k ∧ k < 28 := by
  have hlow := sameEntry_setField v p 26 2 (by decide) (c &&& 0xffff) q
  have hhigh := sameEntry_setField (v.setField p 26 2 (c &&& 0xffff)) p 20 2
    (by decide) (c >>> 16 &&& 0xffff) q
  apply (hlow.trans hhigh).mono
  rintro k (⟨hq, h1, h2⟩ | ⟨hq, h1, h2⟩)
  · exact ⟨hq, by omega, by omega⟩
  · exact ⟨hq, by omega, by omega⟩

theorem sameEntry_setFileSize (v : Volume) (p : EntryPtr) (size : Nat) (q : EntryPtr) :
    SameEntry v (v.setFileSize p size) q fun k => q = p ∧ 28 ≤ k :=
  (sameEntry_setField v p 28 4 (by decide) size q).mono fun _ hk => ⟨hk.1, hk.2.1⟩

theorem fileSize_setFileSize (v : Volume) (p : EntryPtr) (size : Nat) :
    (v.setFileSize p size).fileSize p = size % 2 ^ 32 := by
  unfold fileSize setFileSize setField
  rw [setCluster_self, readLE_writeLE, show (256 : Nat) ^ 4 = 2 ^ 32 from rfl]

/-- The two halves of the first cluster number are put together again. -/
theorem firstCluster_setFirstCluster (v : Volume) (p : EntryPtr) {c : Nat} (hc : c < 2 ^ 32) :
    (v.setFirstCluster p c).firstCluster p = c := by
  have hlow : readLE ((v.setFirstCluster p c).data p.cluster) (p.offset + 26) 2 = c % 2 ^ 16 := by
    unfold setFirstCluster setField
    rw [setCluster_self, readLE_writeLE_of_disjoint (.inr (by omega)), setCluster_self,
      readLE_writeLE, show (0xffff : Nat) = 2 ^ 16 - 1 from rfl, Nat.and_two_pow_sub_one_eq_mod]
    exact Nat.mod_mod_of_dvd c (by decide)
  have hhigh : readLE ((v.setFirstCluster p c).data p.cluster) (p.offset + 20) 2 =
      c / 2 ^ 16 := by
    unfold setFirstCluster setField
    rw [setCluster_self, readLE_writeLE, show (0xffff : Nat) = 2 ^ 16 - 1 from rfl,
      Nat.and_two_pow_sub_one_eq_mod, Nat.shiftRight_eq_div_pow]
    omega
  unfold firstCluster
  rw [hlow, hhigh, Nat.or_comm, Nat.shiftLeft_eq, Nat.mul_comm,
    ← Nat.two_pow_add_eq_or_of_lt (Nat.mod_lt c (by decide))]
  exact Nat.div_add_mod c (2 ^ 16)

end Volume

end MikanSaos
