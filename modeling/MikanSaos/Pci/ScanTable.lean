import MikanSaos.Pci.ScanBus
import Mathlib.Data.List.Range

/-!
# ScanTable — the scan ends within its table

Bridges may lead back to a bus that is being scanned.  Every function that is scanned takes an entry of the table,
so the depth of the recursion is at most the number of the free ones.
-/

namespace MikanSaos.Pci

variable {config : ConfigSpace} {t : DeviceTable} {answers : Nat → Bool} {bus device function depth free : Nat}
  {scan scanOther : Nat → DeviceTable → Option (Error × DeviceTable)} {numbers : List Nat}

/-- The entries have been written one after another. -/
structure DeviceTable.Filled (t : DeviceTable) : Prop where
  numDevice_le : t.numDevice ≤ tableSize
  written_eq : t.written = (List.range t.numDevice).reverse

theorem DeviceTable.Filled.put (x : Device) (hfilled : t.Filled) (hfree : t.numDevice < tableSize) :
    (t.put x).Filled := by
  constructor
  · exact hfree
  · change t.numDevice :: t.written = (List.range (t.numDevice + 1)).reverse
    rw [hfilled.written_eq, List.range_succ, List.reverse_append]
    rfl

/-- A scan of a table with fewer than `free` free entries ends, and reports that the table is full only when it is. -/
def Ends (free : Nat) (scan : DeviceTable → Option (Error × DeviceTable)) : Prop :=
  ∀ t, t.Filled → tableSize < t.numDevice + free → ∃ err t', scan t = some (err, t') ∧
    t'.Filled ∧ t.numDevice ≤ t'.numDevice ∧ (err = .kSuccess ∨ err = .kFull ∧ t'.numDevice = tableSize)

theorem scanEach_ends (hscan : ∀ n, Ends free (scan n)) : Ends free (scanEach answers scan numbers) := by
  induction numbers with
  | nil => exact fun t hfilled _ => ⟨.kSuccess, t, rfl, hfilled, Nat.le_refl _, .inl rfl⟩
  | cons n rest ih =>
    intro t hfilled hfree
    rw [scanEach]
    split
    · obtain ⟨err, t', hrun, hfilled', hle, herr⟩ := hscan n t hfilled hfree
      rw [hrun, Option.bind_some]
      cases herr with
      | inl hsuccess =>
        obtain ⟨err', t'', hrun', hfilled'', hle', herr'⟩ := ih t' hfilled' (by omega)
        exact ⟨err', t'', by simpa [hsuccess] using hrun', hfilled'', hle.trans hle', herr'⟩
      | inr hfull => exact ⟨err, t', by simp [hfull.1], hfilled', hle, .inr hfull⟩
    · exact ih t hfilled hfree

/-- The entry that a function takes is one free entry less for the bus behind it. -/
theorem scanFunction_ends (hscan : ∀ n, Ends free (scanOther n)) :
    Ends (free + 1) (scanFunction config scanOther bus device function) := by
  intro t hfilled hfree
  unfold scanFunction DeviceTable.addDevice
  by_cases hfull : t.numDevice = tableSize
  · exact ⟨.kFull, t, by simp [hfull], hfilled, Nat.le_refl _, .inr ⟨rfl, hfull⟩⟩
  · have hle := hfilled.numDevice_le
    have hput := hfilled.put (deviceAt config bus device function) (by omega)
    have hnum : (t.put (deviceAt config bus device function)).numDevice = t.numDevice + 1 := rfl
    simp only [hfull, if_false, if_true]
    split
    · obtain ⟨err, t', hrun, hfilled', hle', herr⟩ := hscan _ _ hput (by omega)
      exact ⟨err, t', hrun, hfilled', by omega, herr⟩
    · exact ⟨.kSuccess, _, rfl, hput, Nat.le_succ _, .inl rfl⟩

theorem scanDevice_ends (hscan : ∀ n, Ends free (scanOther n)) :
    Ends (free + 1) (scanDevice config scanOther bus device) := by
  intro t hfilled hfree
  have hends : Ends (free + 1) (scanFunction config scanOther bus device 0) := scanFunction_ends hscan
  obtain ⟨err, t', hrun, hfilled', hle, herr⟩ := hends t hfilled hfree
  unfold scanDevice
  rw [hrun, Option.bind_some]
  cases herr with
  | inl hsuccess =>
    dsimp only
    rw [if_pos hsuccess]
    split
    · exact ⟨.kSuccess, t', rfl, hfilled', hle, .inl rfl⟩
    · obtain ⟨err', t'', hrun', hfilled'', hle', herr'⟩ :=
        scanEach_ends (fun n => scanFunction_ends hscan) t' hfilled' (by omega)
      exact ⟨err', t'', hrun', hfilled'', hle.trans hle', herr'⟩
  | inr hfull => exact ⟨err, t', by simp [hfull.1], hfilled', hle, .inr hfull⟩

/-- The induction is on the depth: one level of bridges needs a free entry. -/
theorem scanBus_ends : Ends depth (scanBus config depth bus) := by
  induction depth generalizing bus with
  | zero =>
    intro t hfilled hfree
    have hle := hfilled.numDevice_le
    omega
  | succ depth ih => exact scanEach_ends fun n => scanDevice_ends fun other => ih

/-- **The scan terminates within its table.**  For every configuration space, and bridges in a circle too, it ends
without an index that is not in the table, and the table is full when it says so. -/
theorem scanAllBus_ends (config : ConfigSpace) (t : DeviceTable) (extra : Nat) :
    ∃ err t', scanAllBus config (tableSize + 1 + extra) t = some (err, t') ∧ (∀ i ∈ t'.written, i < tableSize) ∧
      (err = .kFull → t'.numDevice = tableSize ∧ t'.written = (List.range tableSize).reverse) := by
  have hstart : DeviceTable.Filled { t with numDevice := 0, written := [] } := ⟨Nat.zero_le _, rfl⟩
  have hends : Ends (tableSize + 1 + extra) fun t =>
      if isSingleFunctionDevice (readHeaderType config 0 0 0) then scanBus config (tableSize + 1 + extra) 0 t
      else scanEach (responds config 0 0) (scanBus config (tableSize + 1 + extra)) (List.range' 1 7) t := by
    intro t hfilled hfree
    dsimp only
    split
    · exact scanBus_ends t hfilled hfree
    · exact scanEach_ends (fun n => scanBus_ends) t hfilled hfree
  obtain ⟨err, t', hrun, hfilled, hle, herr⟩ := hends _ hstart (by dsimp only; omega)
  refine ⟨err, t', hrun, ?_, ?_⟩
  · intro i hi
    rw [hfilled.written_eq, List.mem_reverse, List.mem_range] at hi
    exact hi.trans_le hfilled.numDevice_le
  · intro hfull
    cases herr with
    | inl hsuccess => cases hsuccess.symm.trans hfull
    | inr hcount => exact ⟨hcount.2, by rw [hfilled.written_eq, hcount.2]⟩

end MikanSaos.Pci
