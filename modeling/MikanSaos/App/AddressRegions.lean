import MikanSaos.App.Instances
import MikanSaos.Reasoning.Reach

/-!
# AddressRegions — the address space of an application

Pages on demand grow up from the end of the program and file mappings grow down from the stack.  Neither call
looks at the other region: they stay apart as long as what is asked for fits between them.
-/

open Reasoning

namespace MikanSaos

/-- The first page behind the program. -/
def elfNextPage (vaddrEnd : Nat) : Nat := add64 vaddrEnd 4095 / 4096 * 4096

inductive MemoryCall where
  | demandPages (numPages : Nat)
  | mapFile (fd : Int)

namespace AppTask

variable {t t' : AppTask} {call : MemoryCall}

/-- What `ExecuteFile` sets before the application runs. -/
def Entered (t : AppTask) : Prop :=
  ∃ vaddrEnd, t.dpagingBegin = elfNextPage vaddrEnd ∧ t.dpagingEnd = elfNextPage vaddrEnd ∧
    t.fileMapEnd = kStackFrameAddr ∧ t.fileMaps = []

def Step (t : AppTask) : MemoryCall → AppTask → Prop
  | .demandPages numPages, t' => t' = (t.demandPages numPages).2
  | .mapFile fd, t' => t' = (t.mapFile fd).2

/-- From the first address up to the one after the last. -/
abbrev Region := Nat × Nat

def Region.Contains (r : Region) (vaddr : Nat) : Prop := r.1 ≤ vaddr ∧ vaddr < r.2

/-- The pages on demand, the stack, the page of the arguments and the mappings. -/
def regions (t : AppTask) : List Region :=
  (t.dpagingBegin, t.dpagingEnd) :: (kStackFrameAddr, kStackFrameAddr + kUserStackSize) ::
    (kArgsFrameAddr, kArgsFrameAddr + 4096) :: t.fileMaps.map fun m => (m.vaddrBegin, m.vaddrEnd)

def Apart (r r' : Region) : Prop := ∀ vaddr, ¬ (r.Contains vaddr ∧ r'.Contains vaddr)

/-- A mapping has room for the file. -/
def Covers (t : AppTask) (m : FileMapping) : Prop :=
  ∃ content, t.file m.fd = some content ∧ m.vaddrBegin + content.length ≤ m.vaddrEnd

/-- The whole pages of a file. -/
def pagesOf (content : List UInt8) : Nat := (content.length + 4095) / 4096 * 4096

/-- What is asked for fits between the two regions. -/
def Fits (t : AppTask) : MemoryCall → Prop
  | .demandPages numPages => mul64 4096 numPages ≤ t.fileMapEnd - t.dpagingEnd
  | .mapFile fd => ∀ content, t.file fd = some content → pagesOf content ≤ t.fileMapEnd - t.dpagingEnd

/-- The mappings lie one below the other, from the stack down. -/
structure Layout (t : AppTask) : Prop where
  begins : t.dpagingBegin ≤ t.dpagingEnd
  ends : t.dpagingEnd < 2 ^ 64
  gap : t.dpagingEnd ≤ t.fileMapEnd ∨ t.dpagingBegin = t.dpagingEnd
  aligned : t.fileMapEnd % 4096 = 0
  below : t.fileMapEnd ≤ kStackFrameAddr
  maps : ∀ m ∈ t.fileMaps, t.fileMapEnd ≤ m.vaddrBegin ∧ m.vaddrEnd ≤ kStackFrameAddr ∧ t.Covers m
  descending : t.fileMaps.Pairwise fun m m' => m'.vaddrEnd ≤ m.vaddrBegin

theorem Entered.layout (h : t.Entered) : t.Layout := by
  obtain ⟨vaddrEnd, hbegin, hend, hmapEnd, hmaps⟩ := h
  have hword : add64 vaddrEnd 4095 < 2 ^ 64 := Nat.mod_lt _ (Nat.two_pow_pos 64)
  exact {
    begins := (hbegin.trans hend.symm).le
    ends := by
      rw [hend, elfNextPage]
      omega
    gap := .inr (hbegin.trans hend.symm)
    aligned := by
      rw [hmapEnd]
      rfl
    below := hmapEnd.le
    maps := fun m hm => by
      rw [hmaps] at hm
      cases hm
    descending := by
      rw [hmaps]
      exact .nil }

theorem demandPages_end (h : t.Layout) {numPages : Nat} (hfits : t.Fits (.demandPages numPages)) :
    (t.demandPages numPages).2.dpagingEnd = t.dpagingEnd + mul64 4096 numPages := by
  change mul64 4096 numPages ≤ t.fileMapEnd - t.dpagingEnd at hfits
  show add64 t.dpagingEnd (mul64 4096 numPages) = _
  have hends := h.ends
  have hbelow : t.fileMapEnd < 2 ^ 64 := h.below.trans_lt (by decide)
  exact Nat.mod_eq_of_lt (by omega)

theorem Layout.demandPages (h : t.Layout) {numPages : Nat} (hfits : t.Fits (.demandPages numPages)) :
    (t.demandPages numPages).2.Layout := by
  have hend := demandPages_end h hfits
  change mul64 4096 numPages ≤ t.fileMapEnd - t.dpagingEnd at hfits
  have hbegins := h.begins
  have hends := h.ends
  have hgap := h.gap
  have hbelow : t.fileMapEnd < 2 ^ 64 := h.below.trans_lt (by decide)
  exact {
    begins := by
      rw [hend]
      exact hbegins.trans (Nat.le_add_right ..)
    ends := by
      rw [hend]
      omega
    gap := by
      rw [hend]
      change _ ≤ t.fileMapEnd ∨ t.dpagingBegin = _
      omega
    aligned := h.aligned
    below := h.below
    maps := h.maps
    descending := h.descending }

/-- The new mapping ends where the last one began. -/
theorem mapFile_begin (h : t.Layout) {content : List UInt8}
    (hfits : pagesOf content ≤ t.fileMapEnd - t.dpagingEnd) :
    sub64 t.fileMapEnd content.length / 4096 * 4096 = t.fileMapEnd - pagesOf content := by
  have haligned := h.aligned
  have hbelow : t.fileMapEnd < 2 ^ 64 := h.below.trans_lt (by decide)
  unfold pagesOf at hfits ⊢
  have hsub : sub64 t.fileMapEnd content.length = t.fileMapEnd - content.length := by
    unfold sub64
    omega
  rw [hsub]
  omega

theorem Layout.mapFile (h : t.Layout) {fd : Int} (hfits : t.Fits (.mapFile fd)) : (t.mapFile fd).2.Layout := by
  unfold AppTask.mapFile
  cases hfile : t.file fd with
  | none => exact h
  | some content =>
    have hfits := hfits content hfile
    dsimp only
    rw [mapFile_begin h hfits]
    have hcovers : content.length ≤ pagesOf content := by
      unfold pagesOf
      omega
    have hpages : pagesOf content % 4096 = 0 := Nat.mul_mod_left ..
    have haligned := h.aligned
    have hgap := h.gap
    exact {
      begins := h.begins
      ends := h.ends
      gap := by
        change t.dpagingEnd ≤ t.fileMapEnd - pagesOf content ∨ _
        exact hgap.imp_left fun hle => by omega
      aligned := by
        change (t.fileMapEnd - pagesOf content) % 4096 = 0
        omega
      below := (Nat.sub_le ..).trans h.below
      maps := fun m hm => by
        change t.fileMapEnd - pagesOf content ≤ m.vaddrBegin ∧ _
        rcases List.mem_append.mp hm with hm | hm
        · obtain ⟨hbegin, hrest⟩ := h.maps m hm
          exact ⟨(Nat.sub_le ..).trans hbegin, hrest⟩
        · rw [List.mem_singleton.mp hm]
          refine ⟨le_rfl, h.below, content, hfile, ?_⟩
          change t.fileMapEnd - pagesOf content + content.length ≤ t.fileMapEnd
          omega
      descending := by
        rw [List.pairwise_append]
        refine ⟨h.descending, List.pairwise_singleton .., fun m hm m' hm' => ?_⟩
        rw [List.mem_singleton.mp hm']
        exact (h.maps m hm).1 }

theorem Layout.step (h : t.Layout) (hfits : t.Fits call) (hstep : t.Step call t') : t'.Layout := by
  cases call with
  | demandPages numPages => exact hstep ▸ h.demandPages hfits
  | mapFile fd => exact hstep ▸ h.mapFile hfits

theorem apart_of_le {r r' : Region} (h : r'.2 ≤ r.1) : Apart r r' := fun _ ⟨hr, hr'⟩ =>
  absurd (hr'.2.trans_le h) (Nat.not_lt.mpr hr.1)

theorem apart_of_ge {r r' : Region} (h : r.2 ≤ r'.1) : Apart r r' := fun _ ⟨hr, hr'⟩ =>
  absurd (hr.2.trans_le h) (Nat.not_lt.mpr hr'.1)

/-- Without pages on demand there is nothing to be apart from. -/
theorem apart_of_empty {r r' : Region} (h : r.1 = r.2) : Apart r r' := fun _ ⟨hr, _⟩ =>
  absurd (hr.1.trans_lt hr.2) (h ▸ lt_irrefl _)

theorem Layout.apart (h : t.Layout) : t.regions.Pairwise Apart := by
  have hdemand {r : Region} (hr : t.fileMapEnd ≤ r.1) : Apart (t.dpagingBegin, t.dpagingEnd) r := by
    rcases h.gap with hgap | hempty
    · exact apart_of_ge (hgap.trans hr)
    · exact apart_of_empty hempty
  have hargs : kStackFrameAddr + kUserStackSize ≤ kArgsFrameAddr := by decide
  refine List.pairwise_cons.mpr ⟨fun r hr => ?_, List.pairwise_cons.mpr ⟨fun r hr => ?_,
    List.pairwise_cons.mpr ⟨fun r hr => ?_, ?_⟩⟩⟩
  · rcases List.mem_cons.mp hr with rfl | hr
    · exact hdemand h.below
    rcases List.mem_cons.mp hr with rfl | hr
    · exact hdemand (h.below.trans (by decide))
    · obtain ⟨m, hm, rfl⟩ := List.mem_map.mp hr
      exact hdemand (h.maps m hm).1
  · rcases List.mem_cons.mp hr with rfl | hr
    · exact apart_of_ge hargs
    · obtain ⟨m, hm, rfl⟩ := List.mem_map.mp hr
      exact apart_of_le (h.maps m hm).2.1
  · obtain ⟨m, hm, rfl⟩ := List.mem_map.mp hr
    have hstack : kStackFrameAddr ≤ kArgsFrameAddr := by decide
    exact apart_of_le ((h.maps m hm).2.1.trans hstack)
  · rw [List.pairwise_map]
    exact h.descending.imp apart_of_le

end AppTask

open AppTask

/-- A program that ends in the first page of the upper half. -/
def smallProgram : AppTask :=
  { cr3 := 0
    dpagingBegin := elfNextPage 0xffff800000000800
    dpagingEnd := elfNextPage 0xffff800000000800
    fileMapEnd := kStackFrameAddr }

theorem smallProgram_entered : Entered smallProgram := ⟨0xffff800000000800, rfl, rfl, rfl, rfl⟩

namespace System

variable {s s' : System} {task file : Nat} {image : Nat → UInt8}

theorem setupPml4_fileMaps (s : System) (task k : Nat) :
    ((s.setupPml4 task).2.tasks k).fileMaps = (s.tasks k).fileMaps := by
  unfold setupPml4
  dsimp only
  split
  · rfl
  · by_cases hk : k = task
    · rw [hk]
      show (Function.update s.tasks task _ task).fileMaps = _
      rw [Function.update_self]
    · show (Function.update s.tasks task _ k).fileMaps = _
      rw [Function.update_of_ne hk]

theorem loadPrototype_fileMaps (s : System) (task file : Nat) (image : Nat → UInt8) (k : Nat) :
    ((s.loadPrototype task file image).2.tasks k).fileMaps = (s.tasks k).fileMaps := by
  have hpml4 := s.setupPml4_fileMaps task k
  unfold loadPrototype
  generalize s.setupPml4 task = call at hpml4
  obtain ⟨pml4, s₁⟩ := call
  dsimp only
  split
  · exact hpml4
  · generalize Elf.loadElf image pml4.value s₁.machine = loaded
    obtain ⟨lastAddr, m, writes⟩ := loaded
    dsimp only
    split
    · exact hpml4
    · exact hpml4

theorem copyPrototype_tasks (s : System) (file dest : Nat) (info : AppLoadInfo) :
    (s.copyPrototype file dest info).2.tasks = s.tasks := rfl

theorem loadApp_fileMaps (s : System) (task file : Nat) (image : Nat → UInt8) (k : Nat) :
    ((s.loadApp task file image).2.tasks k).fileMaps = (s.tasks k).fileMaps := by
  unfold loadApp
  split
  · have hpml4 := s.setupPml4_fileMaps task k
    generalize s.setupPml4 task = call at hpml4
    obtain ⟨pml4, s₁⟩ := call
    dsimp only
    split
    · exact hpml4
    · rw [copyPrototype_tasks]
      exact hpml4
  · split
    · rfl
    · have hprototype := s.loadPrototype_fileMaps task file image k
      generalize s.loadPrototype task file image = call at hprototype
      obtain ⟨info, s₁⟩ := call
      dsimp only
      split
      · exact hprototype
      · have hpml4 := s₁.setupPml4_fileMaps task k
        generalize s₁.setupPml4 task = call at hpml4
        obtain ⟨pml4, s₂⟩ := call
        dsimp only
        split
        · exact hpml4.trans hprototype
        · rw [copyPrototype_tasks]
          exact hpml4.trans hprototype

/-- A call of `ExecuteFile` that gets to the application starts it with a region of pages on demand that is
empty and without mappings. -/
theorem executeFile_entered {command : List UInt8} {arg : Option (List UInt8)}
    (hmaps : (s.tasks task).fileMaps = [])
    (h : s.executeFile task file image command arg = (.kSuccess, s')) : (s'.tasks task).Entered := by
  have hkept := s.loadApp_fileMaps task file image task
  unfold executeFile at h
  generalize s.loadApp task file image = call at h hkept
  obtain ⟨appLoad, s₁⟩ := call
  dsimp only at h
  split at h
  · rename_i herr
    exact absurd (Prod.ext_iff.mp h).1 herr
  · generalize setupStack s₁.machine (s₁.tasks task).cr3 (command :: (arg.map words).getD []) = stack at h
    obtain ⟨err, m⟩ := stack
    dsimp only at h
    split at h
    · rename_i herr
      exact absurd (Prod.ext_iff.mp h).1 herr
    · have hs' := (Prod.ext_iff.mp h).2
      dsimp only at hs'
      refine ⟨appLoad.value.vaddrEnd, ?_⟩
      rw [← hs', setTask]
      dsimp only
      rw [Function.update_self]
      exact ⟨rfl, rfl, rfl, hkept.trans hmaps⟩

end System

end MikanSaos
