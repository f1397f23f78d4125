import MikanSaos.Paging.PageMap
import MikanSaos.Memory.OutstandingBlocks

/-! # Frames — what `SetupPageMaps` does to the frames, whatever the page maps are -/

namespace MikanSaos

namespace Machine

/-- The machine with the frame `g` allocated and empty. -/
def withPageMap (m : Machine) (g : Nat) : Machine :=
  { m with mm := m.mm.markAllocated g 1 }.clearFrame g

/-- A page map that was not allocated before, empty; or nothing, when no frame is left. -/
theorem newPageMap_cases (m : Machine) :
    (∃ g, m.newPageMap = (⟨g, .kSuccess⟩, m.withPageMap g) ∧ m.mm.getBit g = false ∧ g < m.mm.rangeEnd) ∨
    m.newPageMap = (⟨0, .kNoEnoughMemory⟩, m) ∧ ∀ q, ¬ m.mm.FreeBlock 1 q := by
  unfold newPageMap
  rcases m.mm.allocate_cases 1 with ⟨g, heq, hblock, -⟩ | ⟨heq, hfull⟩
  · apply Or.inl
    rw [heq]
    exact ⟨g, rfl, hblock.unmarked g ⟨le_rfl, Nat.lt_succ_self g⟩, hblock.start_lt⟩
  · apply Or.inr
    rw [heq]
    exact ⟨rfl, hfull⟩

theorem newPageMap_full {m : Machine} (hfull : ∀ q, ¬ m.mm.FreeBlock 1 q) :
    m.newPageMap = (⟨0, .kNoEnoughMemory⟩, m) := by
  unfold newPageMap
  rcases m.mm.allocate_cases 1 with ⟨g, -, hblock, -⟩ | ⟨heq, -⟩
  · exact absurd hblock (hfull g)
  · rw [heq]
    rfl

/-- An entry that is not present gets a new page map. -/
theorem setNewPageMap_absent {m : Machine} {table i : Nat} (h : (m.tables table i).present = false) :
    (∃ g, m.setNewPageMapIfNotPresent table i = (⟨g, .kSuccess⟩, (m.withPageMap g).setEntry table i
        { ((m.withPageMap g).tables table i).setPointer g with present := true }) ∧
      m.mm.getBit g = false ∧ g < m.mm.rangeEnd) ∨
    m.setNewPageMapIfNotPresent table i = (⟨0, .kNoEnoughMemory⟩, m) ∧
      ∀ q, ¬ m.mm.FreeBlock 1 q := by
  unfold setNewPageMapIfNotPresent
  dsimp only
  rw [if_neg (by rw [h]; decide)]
  rcases m.newPageMap_cases with ⟨g, heq, hg, hlt⟩ | ⟨heq, hfull⟩
  · rw [heq]
    exact .inl ⟨g, rfl, hg, hlt⟩
  · rw [heq]
    exact .inr ⟨rfl, hfull⟩

theorem setNewPageMap_present {m : Machine} {table i : Nat} (h : (m.tables table i).present = true) :
    m.setNewPageMapIfNotPresent table i = (⟨(m.tables table i).addr, .kSuccess⟩, m) := by
  unfold setNewPageMapIfNotPresent
  dsimp only
  rw [if_pos h]

theorem marked_withPageMap (m : Machine) (g : Nat) :
    (m.withPageMap g).mm.marked = insert g m.mm.marked := by
  show (m.mm.markAllocated g 1).marked = insert g m.mm.marked
  rw [BitmapMemoryManager.marked_markAllocated]
  ext f
  rw [Set.mem_union, Set.mem_Ico, Set.mem_insert_iff, Nat.lt_succ_iff, or_comm, and_comm,
    ← Nat.le_antisymm_iff]

/-- A relation that covers the two moves of `SetupPageMap`: make a page map, and set an entry. -/
structure CoversSetup (R : Machine → Machine → Prop) : Prop where
  refl : ∀ m, R m m
  trans : ∀ m m' m'', R m m' → R m' m'' → R m m''
  newPageMap : ∀ m : Machine, R m m.newPageMap.2
  setEntry : ∀ m table i e, R m (m.setEntry table i e)

namespace CoversSetup

variable {R : Machine → Machine → Prop}
  {below : Machine → (pageMap addr num4kpages : Nat) → WithError Nat × Machine} {level : Nat}
  {writable : Bool}

theorem setNewPageMap (h : CoversSetup R) (m : Machine) (table i : Nat) :
    R m (m.setNewPageMapIfNotPresent table i).2 := by
  unfold setNewPageMapIfNotPresent
  dsimp only
  split
  · exact h.refl m
  · split
    · exact h.newPageMap m
    · exact h.trans _ _ _ (h.newPageMap m) (h.setEntry _ _ _ _)

/-- A round makes the entry first. -/
theorem setupEntry (h : CoversSetup R) (writable : Bool)
    (hbelow : ∀ m p a n, R m (below m p a n).2) (m : Machine) (pageMap addr n : Nat) :
    R (m.setNewPageMapIfNotPresent pageMap (LinearAddress4Level.part addr level)).2
      (setupEntry below level writable m pageMap addr n).2 := by
  unfold Machine.setupEntry
  dsimp only
  split
  · exact h.refl _
  · split
    · exact h.setEntry _ _ _ _
    · split
      · exact h.trans _ _ _ (h.setEntry _ _ _ _) (hbelow _ _ _ _)
      · exact h.trans _ _ _ (h.setEntry _ _ _ _) (hbelow _ _ _ _)

theorem setupEntries (h : CoversSetup R) (hbelow : ∀ m p a n, R m (below m p a n).2) (fuel : Nat)
    (m : Machine) (pageMap addr n : Nat) :
    R m (setupEntries below level writable fuel m pageMap addr n).2 := by
  induction fuel generalizing m addr n with
  | zero => exact h.refl m
  | succ fuel ih =>
    rw [Machine.setupEntries]
    split
    · have hround := h.trans _ _ _ (h.setNewPageMap m pageMap (LinearAddress4Level.part addr level))
        (h.setupEntry writable hbelow m pageMap addr n)
      dsimp only
      split
      · exact hround
      · split
        · exact hround
        · exact h.trans _ _ _ hround (ih _ _ _)
    · exact h.refl m

theorem setupPageMap (h : CoversSetup R) (writable : Bool) (level : Nat) (m : Machine)
    (pageMap addr n : Nat) : R m (setupPageMap writable level m pageMap addr n).2 := by
  induction level generalizing m pageMap addr n with
  | zero => exact h.refl m
  | succ level ih => exact h.setupEntries ih 512 m pageMap addr n

end CoversSetup

/-! ## Allocated frames stay allocated -/

theorem newPageMap_marked (m : Machine) : m.mm.marked ⊆ m.newPageMap.2.mm.marked := by
  rcases m.newPageMap_cases with ⟨g, heq, -⟩ | ⟨heq, -⟩
  · rw [heq]
    show m.mm.marked ⊆ (m.withPageMap g).mm.marked
    rw [marked_withPageMap]
    exact Set.subset_insert g _
  · rw [heq]

theorem coversSetup_marked : CoversSetup fun m m' => m.mm.marked ⊆ m'.mm.marked :=
  ⟨fun _ => subset_rfl, fun _ _ _ => subset_trans, newPageMap_marked, fun _ _ _ _ => subset_rfl⟩

/-- The first page of an empty page map takes a frame. -/
theorem setupPageMap_takes {m : Machine} {pageMap addr n : Nat} (writable : Bool) (level : Nat)
    (hn : 0 < n) (hfree : ∃ q, m.mm.FreeBlock 1 q)
    (hempty : (m.tables pageMap (LinearAddress4Level.part addr (level + 1))).present = false) :
    ∃ g, m.mm.getBit g = false ∧
      (setupPageMap writable (level + 1) m pageMap addr n).2.mm.getBit g = true := by
  have hnew : ∃ g, m.mm.getBit g = false ∧ (m.setNewPageMapIfNotPresent pageMap
      (LinearAddress4Level.part addr (level + 1))).2.mm.getBit g = true := by
    rcases setNewPageMap_absent hempty with ⟨g, heq, hg, -⟩ | ⟨-, hfull⟩
    · rw [heq]
      refine ⟨g, hg, ?_⟩
      show g ∈ (m.withPageMap g).mm.marked
      rw [marked_withPageMap]
      exact Set.mem_insert g _
    · exact absurd hfree.choose_spec (hfull _)
  obtain ⟨g, hg, hmark⟩ := hnew
  refine ⟨g, hg, ?_⟩
  have hbelow := fun m p a n => coversSetup_marked.setupPageMap writable level m p a n
  have hround := coversSetup_marked.setupEntry writable hbelow m pageMap addr n hmark
  show (setupEntries _ _ _ 512 m pageMap addr n).2.mm.getBit g = true
  rw [setupEntries, if_pos hn]
  dsimp only
  split
  · exact hround
  · split
    · exact hround
    · exact coversSetup_marked.setupEntries
        (fun m p a n => coversSetup_marked.setupPageMap writable level m p a n) _ _ _ _ _ hround

/-! ## Stores -/

/-- A store changes bytes only. -/
theorem storeByte_bytes (m : Machine) (cr3 vaddr : Nat) (byte : UInt8) :
    ∃ bytes, m.storeByte cr3 vaddr byte = { m with bytes := bytes } := by
  unfold storeByte
  split
  · exact ⟨_, rfl⟩
  · exact ⟨m.bytes, rfl⟩

theorem storeBytes_bytes (m : Machine) (cr3 dst : Nat) (src : Nat → UInt8) (n : Nat) :
    ∃ bytes, m.storeBytes cr3 dst src n = { m with bytes := bytes } := by
  induction n with
  | zero => exact ⟨m.bytes, rfl⟩
  | succ n ih =>
    obtain ⟨bytes, heq⟩ := ih
    rw [storeBytes, heq]
    exact storeByte_bytes { m with bytes := bytes } cr3 _ _

end Machine

end MikanSaos
