import MikanSaos.App.Instances
import MikanSaos.App.LoaderSafety

/-!
# StartErrors — what `ExecuteFile` leaves behind when it does not start the application

`startFile` is `ExecuteFile` up to the point where code of the file runs, with all its ways to get there:
a flat `ONLYHLT` file is called at once, and a file that is linked to the lower half is called in the
kernel after the same preparations as an application.  Every error in between is returned as it is.
-/

namespace MikanSaos

open Machine

/-- `"ONLYHLT"` -/
def kOnlyHlt : List UInt8 := [0x4f, 0x4e, 0x4c, 0x59, 0x48, 0x4c, 0x54]

namespace System

/-- `ExecuteFile` until code of the file is called, which is `none`, or an error is returned.  `name` is
what `FormatName` makes of the entry. -/
def startFile (s : System) (task file : Nat) (name : List UInt8) (image : Nat → UInt8)
    (command : List UInt8) (arg : Option (List UInt8)) : Option Error × System :=
  if name = kOnlyHlt ∧ ¬ isElf image then (none, s)
  else
    let (appLoad, s) := s.loadApp task file image
    if appLoad.error ≠ .kSuccess ∧ appLoad.error ≠ .kInvalidFormatLA then (some appLoad.error, s)
    else
      let (err, m) := setupStack s.machine (s.tasks task).cr3 (command :: (arg.map words).getD [])
      let s := s.setMachine m
      if err ≠ .kSuccess then (some err, s) else (none, s)

/-- For an application linked to the upper half this is `executeFile`. -/
theorem startFile_error (s : System) (task file : Nat) {name : List UInt8} (image : Nat → UInt8)
    (command : List UInt8) (arg : Option (List UInt8)) (hname : name ≠ kOnlyHlt)
    (hupper : (s.loadApp task file image).1.error ≠ .kInvalidFormatLA) :
    (s.executeFile task file image command arg).1 =
      (s.startFile task file name image command arg).1.getD .kSuccess := by
  unfold executeFile startFile
  rw [if_neg fun h => hname h.1]
  generalize s.loadApp task file image = call at hupper ⊢
  obtain ⟨appLoad, s₁⟩ := call
  dsimp only at hupper ⊢
  by_cases hload : appLoad.error = .kSuccess
  · have hgo : ¬ (appLoad.error ≠ .kSuccess ∧ appLoad.error ≠ .kInvalidFormatLA) := fun h => h.1 hload
    rw [if_neg (not_not.mpr hload), if_neg hgo]
    generalize setupStack s₁.machine (s₁.tasks task).cr3 (command :: (arg.map words).getD []) = stack
    obtain ⟨err, m⟩ := stack
    dsimp only
    by_cases herr : err = .kSuccess
    · rw [if_neg (not_not.mpr herr), if_neg (not_not.mpr herr)]
      rfl
    · rw [if_pos herr, if_pos herr]
      rfl
  · rw [if_pos hload, if_pos ⟨hload, hupper⟩]
    rfl

/-- What a call that returns an error is to leave behind: the page map of the task, no frame more, and
the prototype, if there was one, with its instance count. -/
structure FailedCleanly (s s' : System) (task file : Nat) : Prop where
  cr3 : (s'.tasks task).cr3 = (s.tasks task).cr3
  frames : ∀ f, s.machine.mm.getBit f = false → s'.machine.mm.getBit f = false
  count : (s'.appLoads file).map AppLoadInfo.count = (s.appLoads file).map AppLoadInfo.count

end System

/-! ## No step gives a frame back -/

namespace Machine

theorem copyPageMaps_marked (part start : Nat) (m : Machine) (dest src : Nat) :
    m.mm.marked ⊆ (copyPageMaps part start m dest src).2.mm.marked := by
  induction part generalizing start m dest src with
  | zero => exact subset_rfl
  | succ part ih =>
    have hentry : ∀ m' i, m'.mm.marked ⊆
        (copyEntry (copyPageMaps part 0) (part + 1) dest src m' i).2.mm.marked := by
      intro m' i
      unfold copyEntry
      dsimp only
      split
      · exact subset_rfl
      · split
        · exact subset_rfl
        · have hnew := newPageMap_marked m'
          generalize m'.newPageMap = call at hnew ⊢
          obtain ⟨table, m₁⟩ := call
          dsimp only at hnew ⊢
          split
          · exact hnew
          · exact subset_trans hnew (ih 0 (m₁.setEntry dest i _) _ _)
    rw [copyPageMaps]
    -- over the rounds of the loop
    generalize 512 - start = n
    induction n generalizing m with
    | zero => exact subset_rfl
    | succ n ihn =>
      have hfirst := hentry m (512 - (n + 1))
      rw [forEntries]
      dsimp only
      split
      · exact hfirst
      · exact subset_trans hfirst (ihn _)

theorem makeArgv_mm (cr3 argv argvLen argbuf argbufLen : Nat) (strings : List (List UInt8))
    (argc argbufIndex : Nat) (m : Machine) :
    (makeArgv cr3 argv argvLen argbuf argbufLen strings argc argbufIndex m).2.mm = m.mm := by
  induction strings generalizing argc argbufIndex m with
  | nil => rfl
  | cons str rest ih =>
    rw [makeArgv]
    split
    · rfl
    · obtain ⟨bytes, heq⟩ := m.storeBytes_bytes cr3 (add64 argv (8 * argc))
        (fun k => UInt8.ofNat (add64 argbuf argbufIndex / 256 ^ k)) 8
      obtain ⟨bytes', heq'⟩ := Machine.storeBytes_bytes { m with bytes := bytes } cr3
        (add64 argbuf argbufIndex) (fun k => str.getD k 0) (str.length + 1)
      dsimp only
      rw [ih, heq, heq']

end Machine

theorem setupStack_marked (m : Machine) (cr3 : Nat) (strings : List (List UInt8)) :
    m.mm.marked ⊆ (System.setupStack m cr3 strings).2.mm.marked := by
  have hpages := fun (m : Machine) addr n => coversSetup_marked.setupPageMap true 4 m cr3 addr n
  have hargs := hpages m kArgsFrameAddr 1
  unfold System.setupStack Machine.setupPageMaps
  dsimp only
  generalize setupPageMap true 4 m cr3 kArgsFrameAddr 1 = call at hargs ⊢
  obtain ⟨res, m₁⟩ := call
  dsimp only at hargs ⊢
  split
  · exact hargs
  · have hargv := makeArgv_mm cr3 kArgsFrameAddr 32 (kArgsFrameAddr + 8 * 32) (4096 - 8 * 32) strings
      0 0 m₁
    generalize makeArgv cr3 kArgsFrameAddr 32 (kArgsFrameAddr + 8 * 32) (4096 - 8 * 32) strings
      0 0 m₁ = call at hargv ⊢
    obtain ⟨argc, m₂⟩ := call
    dsimp only at hargv ⊢
    rw [← hargv] at hargs
    split
    · exact hargs
    · exact subset_trans hargs (hpages m₂ _ _)

theorem Elf.loadElf_marked (file : Nat → UInt8) (cr3 : Nat) (m : Machine) :
    m.mm.marked ⊆ (Elf.loadElf file cr3 m).2.1.mm.marked := by
  by_cases hrefused : Elf.Refused file
  · rw [(Elf.loadElf_refused hrefused cr3 m).2.1]
  · rw [(Elf.loadElf_log hrefused cr3 m).2.1]
    exact Elf.copyLoadSegments_marked file cr3 _ 0 m

namespace System

variable {s s' : System} {task file : Nat} {image : Nat → UInt8}

/-- `SetupPML4` switches the task to a frame that was free, or fails and changes nothing. -/
theorem setupPml4_cases (s : System) (task : Nat) :
    (∃ g, (s.setupPml4 task).1 = ⟨g, .kSuccess⟩ ∧ s.machine.mm.getBit g = false ∧
      (s.setupPml4 task).2.machine.mm.marked = insert g s.machine.mm.marked) ∨
    s.setupPml4 task = (⟨0, .kNoEnoughMemory⟩, s) ∧ ∀ q, ¬ s.machine.mm.FreeBlock 1 q := by
  unfold setupPml4 Machine.setupPml4
  rcases s.machine.newPageMap_cases with ⟨g, heq, hg, -⟩ | ⟨heq, hfull⟩
  · rw [heq]
    exact .inl ⟨g, rfl, hg, s.machine.marked_withPageMap g⟩
  · rw [heq]
    exact .inr ⟨rfl, hfull⟩

theorem setupPml4_marked (s : System) (task : Nat) :
    s.machine.mm.marked ⊆ (s.setupPml4 task).2.machine.mm.marked := by
  rcases s.setupPml4_cases task with ⟨g, -, -, heq⟩ | ⟨heq, -⟩
  · rw [heq]
    exact Set.subset_insert g _
  · rw [heq]

theorem copyPrototype_marked (s : System) (file dest : Nat) (info : AppLoadInfo) :
    s.machine.mm.marked ⊆ (s.copyPrototype file dest info).2.machine.mm.marked :=
  copyPageMaps_marked 4 256 s.machine dest info.pml4

/-- From the first `SetupPML4` on, `LoadApp` of a new file only takes frames. -/
theorem loadPrototype_marked (s : System) (task file : Nat) (image : Nat → UInt8) :
    (s.setupPml4 task).2.machine.mm.marked ⊆
      (s.loadPrototype task file image).2.machine.mm.marked := by
  unfold loadPrototype
  generalize s.setupPml4 task = call
  obtain ⟨pml4, s₁⟩ := call
  dsimp only
  split
  · exact subset_rfl
  · have hload := Elf.loadElf_marked image pml4.value s₁.machine
    generalize Elf.loadElf image pml4.value s₁.machine = loaded at hload ⊢
    obtain ⟨lastAddr, m, log⟩ := loaded
    dsimp only at hload ⊢
    split
    · exact hload
    · exact hload

/-- An application that gets as far as its first `SetupPML4` keeps the frame it takes there. -/
theorem loadApp_marked (task : Nat) (happ : s.appLoads file ≠ none ∨ isElf image = true) :
    (s.setupPml4 task).2.machine.mm.marked ⊆ (s.loadApp task file image).2.machine.mm.marked := by
  unfold loadApp
  split
  · -- a file that is loaded
    generalize s.setupPml4 task = call
    obtain ⟨pml4, s₁⟩ := call
    dsimp only
    split
    · exact subset_rfl
    · exact s₁.copyPrototype_marked file pml4.value _
  · -- a new one
    rename_i hnone
    have helf := happ.resolve_left (not_not.mpr hnone)
    rw [if_neg (not_not.mpr helf)]
    have hproto := s.loadPrototype_marked task file image
    generalize s.loadPrototype task file image = call at hproto ⊢
    obtain ⟨info, s₁⟩ := call
    dsimp only at hproto ⊢
    split
    · exact hproto
    · have hpml4 := s₁.setupPml4_marked task
      generalize s₁.setupPml4 task = call at hpml4 ⊢
      obtain ⟨pml4, s₂⟩ := call
      dsimp only at hpml4 ⊢
      split
      · exact subset_trans hproto hpml4
      · exact subset_trans (subset_trans hproto hpml4) (s₂.copyPrototype_marked file pml4.value _)

theorem startFile_marked {name command : List UInt8} {arg : Option (List UInt8)} {err : Error}
    (h : s.startFile task file name image command arg = (some err, s')) :
    (s.loadApp task file image).2.machine.mm.marked ⊆ s'.machine.mm.marked := by
  unfold startFile at h
  split at h
  · cases h
  · generalize s.loadApp task file image = call at h ⊢
    obtain ⟨appLoad, s₁⟩ := call
    dsimp only at h ⊢
    split at h
    · cases h
      exact subset_rfl
    · have hstack := setupStack_marked s₁.machine (s₁.tasks task).cr3
        (command :: (arg.map words).getD [])
      generalize setupStack s₁.machine (s₁.tasks task).cr3 (command :: (arg.map words).getD []) = stack
        at h hstack
      obtain ⟨err', m⟩ := stack
      dsimp only at h hstack
      split at h
      · cases h
        exact hstack
      · cases h

theorem setupPml4_full (hfull : ∀ q, ¬ s.machine.mm.FreeBlock 1 q) :
    s.setupPml4 task = (⟨0, .kNoEnoughMemory⟩, s) := by
  unfold setupPml4 Machine.setupPml4
  rw [s.machine.newPageMap_full hfull]
  rfl

/-- Without a frame, and for a file that is no application, `LoadApp` fails before it changes
anything. -/
theorem loadApp_refused (task : Nat) (h : (s.appLoads file = none ∧ isElf image = false) ∨
    ∀ q, ¬ s.machine.mm.FreeBlock 1 q) :
    (s.loadApp task file image).2 = s ∧ ((s.loadApp task file image).1.error = .kInvalidFile ∨
      (s.loadApp task file image).1.error = .kNoEnoughMemory) := by
  unfold loadApp
  split
  · rename_i info hsome
    have hfull := h.resolve_left fun hnew => by rw [hsome] at hnew; cases hnew.1
    rw [setupPml4_full hfull]
    exact ⟨rfl, .inr rfl⟩
  · cases helf : isElf image with
    | false => exact ⟨rfl, .inl rfl⟩
    | true =>
      have hfull := h.resolve_left fun hnew => by rw [helf] at hnew; cases hnew.2
      rw [if_neg (by decide)]
      unfold loadPrototype
      rw [setupPml4_full hfull]
      exact ⟨rfl, .inr rfl⟩

/-- **When `ExecuteFile` fails cleanly.**  A call that returns an error before it starts the application
leaves the page map of the task, the free frames and the instance count as they were exactly when it
fails before the first `SetupPML4` has switched `CR3`: on a file that is neither loaded nor an ELF file,
or because no frame is free. -/
theorem failedCleanly_iff {name command : List UInt8} {arg : Option (List UInt8)} {err : Error}
    (h : s.startFile task file name image command arg = (some err, s')) :
    FailedCleanly s s' task file ↔
      (s.appLoads file = none ∧ isElf image = false) ∨ ∀ q, ¬ s.machine.mm.FreeBlock 1 q := by
  constructor
  · intro hclean
    by_contra hnot
    obtain ⟨hnew, hfree⟩ := not_or.mp hnot
    have happ : s.appLoads file ≠ none ∨ isElf image = true := by
      rw [← Bool.not_eq_false]
      exact not_and_or.mp hnew
    rcases s.setupPml4_cases task with ⟨g, -, hg, hmarked⟩ | ⟨-, hfull⟩
    · -- the frame of the new page map was free, and nothing gives it back
      have hkept : g ∈ s'.machine.mm.marked := by
        refine startFile_marked h (loadApp_marked task happ ?_)
        rw [hmarked]
        exact Set.mem_insert g _
      rw [BitmapMemoryManager.mem_marked, hclean.frames g hg] at hkept
      cases hkept
    · exact hfree hfull
  · -- `LoadApp` has changed nothing
    intro hrefused
    obtain ⟨hsame, herr⟩ := loadApp_refused task hrefused
    unfold startFile at h
    split at h
    · cases h
    · generalize s.loadApp task file image = call at h hsame herr
      obtain ⟨appLoad, s₁⟩ := call
      dsimp only at h hsame herr
      have hstop : appLoad.error ≠ .kSuccess ∧ appLoad.error ≠ .kInvalidFormatLA := by
        rcases herr with herr | herr <;> rw [herr] <;> exact ⟨nofun, nofun⟩
      rw [if_pos hstop] at h
      cases h
      subst hsame
      exact ⟨rfl, fun _ hf => hf, rfl⟩

/-- A task in page map 1, with the frames from 1024 on free. -/
def freshSystem : System where
  machine := Elf.identityMachine
  kernelPml4 := 1
  tasks := fun _ => { cr3 := 1 }
  appLoads := fun _ => none

/-- `"\x7f" "ELF"` and nothing behind it, so that the type is not `ET_EXEC`. -/
def elfMagic : Nat → UInt8 := Reasoning.writeLE (fun _ => 0) 0 4 0x464c457f

/-- A text file is refused and nothing has changed. -/
theorem failedCleanly_text_file :
    FailedCleanly freshSystem (freshSystem.startFile 0 7 [] (fun _ => 0x20) [] none).2 0 7 := by
  have herr : (freshSystem.startFile 0 7 [] (fun _ => 0x20) [] none).1 = some .kInvalidFile := by
    decide +kernel
  exact (failedCleanly_iff (Prod.ext herr rfl)).mpr (.inl ⟨rfl, by decide +kernel⟩)

/-- `CR3` is switched before the header is looked at, and the error returns with the new page map. -/
theorem startFile_keeps_new_page_map :
    (freshSystem.startFile 0 7 [] elfMagic [] none).1 = some .kInvalidFormat ∧
      ((freshSystem.startFile 0 7 [] elfMagic [] none).2.tasks 0).cr3 = 1024 ∧
      ¬ FailedCleanly freshSystem (freshSystem.startFile 0 7 [] elfMagic [] none).2 0 7 := by
  have hcr3 : ((freshSystem.startFile 0 7 [] elfMagic [] none).2.tasks 0).cr3 = 1024 := by
    decide +kernel
  refine ⟨by decide +kernel, hcr3, fun hclean => ?_⟩
  have hkept := hclean.cr3
  rw [hcr3] at hkept
  exact absurd hkept (by decide)

end System

end MikanSaos
