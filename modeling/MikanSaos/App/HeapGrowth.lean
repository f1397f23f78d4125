import MikanSaos.App.AddressRegions
import MikanSaos.Reasoning.Pool
import Mathlib.Order.Interval.Set.Disjoint
import Mathlib.Order.Interval.Set.LinearOrder

/-!
# HeapGrowth — `sbrk` over pages on demand

The library of an application keeps the end of the pages it has asked for, and asks for more when an increment
does not fit below it.  What is left below it is abandoned then.  The number of pages is an `int` in the library
and a `size_t` in the kernel.
-/

open Reasoning

namespace MikanSaos

/-- The task of the application and the two static variables of `sbrk`.  `obtained` is what has been handed out:
the regions that `sbrk` has returned and the pages of direct system calls, the last one first. -/
structure AppHeap where
  task : AppTask
  dpageEnd : Nat
  programBreak : Nat
  obtained : List AppTask.Region

/-- The increments are of type `int` and not negative. -/
inductive HeapCall where
  | sbrk (incr : Int) (nonneg : 0 ≤ incr) (isInt : incr < 2 ^ 31)
  | demandPages (numPages : Nat)

namespace AppHeap

/-- Does `sbrk` ask for pages? -/
def Asks (h : AppHeap) (incr : Int) : Prop := h.dpageEnd = 0 ∨ h.dpageEnd < word64 (h.programBreak + incr)

instance {h : AppHeap} {incr : Int} : Decidable (h.Asks incr) := inferInstanceAs (Decidable (_ ∨ _))

/-- `(incr + 4096-1) / 4096` -/
def numPages (incr : Int) : Int := (int32 (incr + 4096 - 1)).tdiv 4096

/-- `sbrk` up to its return.  The system call reports no error. -/
def grow (h : AppHeap) (incr : Int) : AppHeap :=
  if h.Asks incr then
    let (value, task) := h.task.demandPages (word64 (numPages incr))
    { h with task, programBreak := value, dpageEnd := word64 (value + int32 (4096 * numPages incr)) }
  else h

/-- The break that is returned is the one before the increment. -/
def sbrk (h : AppHeap) (incr : Int) : Nat × AppHeap :=
  let h := h.grow incr
  (h.programBreak, { h with programBreak := word64 (h.programBreak + incr) })

/-- A call and what it hands out. -/
def call (h : AppHeap) : HeapCall → AppHeap
  | .sbrk incr _ _ =>
    let (prevBreak, h) := h.sbrk incr
    { h with obtained := (prevBreak, prevBreak + incr.toNat) :: h.obtained }
  | .demandPages numPages =>
    let (value, task) := h.task.demandPages numPages
    { h with task, obtained := (value, value + mul64 4096 numPages) :: h.obtained }

/-- The application has been entered, and `sbrk` has not been called. -/
def Start (h : AppHeap) : Prop := h.task.Entered ∧ h.dpageEnd = 0 ∧ h.programBreak = 0 ∧ h.obtained = []

/-- What has been handed out lies in the pages on demand, and nothing has been handed out twice. -/
structure Sound (h : AppHeap) : Prop where
  inside : ∀ r ∈ h.obtained, h.task.dpagingBegin ≤ r.1 ∧ r.2 ≤ h.task.dpagingEnd
  disjoint : (h.obtained.map fun r => Set.Ico r.1 r.2).Pairwise Disjoint

/-- The pages that are asked for, and a region for which none are asked for, end in the address space.  A number
of pages is taken as the kernel takes it, so what has become negative in the library is almost `2 ^ 64`. -/
def Guard (h : AppHeap) : HeapCall → Prop
  | .sbrk incr _ _ =>
    if h.Asks incr then h.task.dpagingEnd + mul64 4096 (word64 (numPages incr)) < 2 ^ 64
    else h.programBreak + incr < 2 ^ 64
  | .demandPages numPages => h.task.dpagingEnd + mul64 4096 numPages < 2 ^ 64

/-! ## The pages of an increment -/

variable {h h' : AppHeap} {incr : Int} {pages : Nat}

theorem numPages_bounds (hnonneg : 0 ≤ incr) (hint : incr < 2 ^ 31) :
    (incr ≤ 2 ^ 31 - 4096 → incr ≤ 4096 * numPages incr) ∧ (2 ^ 31 - 4096 < incr → numPages incr < 0) ∧
      -2 ^ 31 ≤ 4096 * numPages incr ∧ 4096 * numPages incr < 2 ^ 31 := by
  unfold numPages
  by_cases hsmall : incr ≤ 2 ^ 31 - 4096
  · have hvalue : int32 (incr + 4096 - 1) = incr + 4095 := by
      unfold int32
      omega
    rw [hvalue, Int.tdiv_eq_ediv_of_nonneg (by omega)]
    omega
  · -- the sum is taken for a negative number
    have hvalue : int32 (incr + 4096 - 1) = -(2 ^ 32 - incr - 4095) := by
      unfold int32
      omega
    rw [hvalue, Int.neg_tdiv, Int.tdiv_eq_ediv_of_nonneg (by omega)]
    omega

/-- The library and the kernel agree on the new end, and the increment fits below it. -/
theorem numPages_spec (value : Nat) (hnonneg : 0 ≤ incr) (hint : incr < 2 ^ 31) :
    incr ≤ mul64 4096 (word64 (numPages incr)) ∧
      word64 (value + int32 (4096 * numPages incr)) = add64 value (mul64 4096 (word64 (numPages incr))) := by
  obtain ⟨hfits, hneg, hlow, hhigh⟩ := numPages_bounds hnonneg hint
  unfold int32 word64 mul64 add64
  constructor <;> omega

/-! ## The calls one after another -/

/-- The rest below the end of the pages that the library knows has not been handed out.  It is what the blocks of
the pool do not use. -/
structure Inv (h : AppHeap) : Prop where
  begins : h.task.dpagingBegin ≤ h.task.dpagingEnd
  ends : h.task.dpagingEnd < 2 ^ 64
  rest : h.programBreak ≤ h.dpageEnd
  known : h.dpageEnd ≤ h.task.dpagingEnd
  break_begins : h.dpageEnd ≠ 0 → h.task.dpagingBegin ≤ h.programBreak
  inside : ∀ r ∈ h.obtained, h.task.dpagingBegin ≤ r.1 ∧ r.2 ≤ h.task.dpagingEnd
  used : (Pool.mk (Set.Ico h.task.dpagingBegin h.task.dpagingEnd \ Set.Ico h.programBreak h.dpageEnd)
    (h.obtained.map fun r => Set.Ico r.1 r.2)).Sound

theorem Inv.sound (hinv : h.Inv) : h.Sound := ⟨hinv.inside, hinv.used.disjoint⟩

theorem Start.inv (hstart : h.Start) : h.Inv := by
  obtain ⟨hentered, hend, hbreak, hobtained⟩ := hstart
  have hlayout := hentered.layout
  refine ⟨hlayout.begins, hlayout.ends, by omega, by omega, fun hne => absurd hend hne, ?_, ?_⟩
  · simp [hobtained]
  · rw [hobtained]
    exact ⟨by simp, List.Pairwise.nil⟩

theorem call_demandPages : h.call (.demandPages pages) = { h with
    task := { h.task with dpagingEnd := add64 h.task.dpagingEnd (mul64 4096 pages) }
    obtained := (h.task.dpagingEnd, h.task.dpagingEnd + mul64 4096 pages) :: h.obtained } := rfl

theorem grow_of_asks (hasks : h.Asks incr) : h.grow incr = { h with
    task := { h.task with dpagingEnd := add64 h.task.dpagingEnd (mul64 4096 (word64 (numPages incr))) }
    programBreak := h.task.dpagingEnd
    dpageEnd := word64 (h.task.dpagingEnd + int32 (4096 * numPages incr)) } := if_pos hasks

theorem grow_of_not_asks (hasks : ¬ h.Asks incr) : h.grow incr = h := if_neg hasks

/-- New pages are above everything that has been handed out. -/
theorem Inv.demandPages (hinv : h.Inv) (hguard : h.Guard (.demandPages pages)) :
    (h.call (.demandPages pages)).Inv ∧
      h.task.dpagingEnd ≤ (h.call (.demandPages pages)).task.dpagingEnd := by
  have hend : add64 h.task.dpagingEnd (mul64 4096 pages) = h.task.dpagingEnd + mul64 4096 pages :=
    Nat.mod_eq_of_lt hguard
  have hbegins := hinv.begins
  have hknown := hinv.known
  rw [call_demandPages, hend]
  refine ⟨⟨?_, hguard, hinv.rest, ?_, hinv.break_begins, ?_, ?_⟩, Nat.le_add_right _ _⟩
  · exact hbegins.trans (Nat.le_add_right _ _)
  · exact hknown.trans (Nat.le_add_right _ _)
  · intro r hr
    rcases List.mem_cons.mp hr with rfl | hr
    · exact ⟨hbegins, Nat.le_refl _⟩
    · exact ⟨(hinv.inside r hr).1, (hinv.inside r hr).2.trans (Nat.le_add_right _ _)⟩
  · have htake := hinv.used.step (.take (Set.Ico h.task.dpagingEnd (h.task.dpagingEnd + mul64 4096 pages))
      (Set.Ico_disjoint_Ico_same.symm.mono_right Set.sdiff_subset))
    have hused : Set.Ico h.task.dpagingBegin (h.task.dpagingEnd + mul64 4096 pages) \
        Set.Ico h.programBreak h.dpageEnd = Set.Ico h.task.dpagingBegin h.task.dpagingEnd \
          Set.Ico h.programBreak h.dpageEnd ∪ Set.Ico h.task.dpagingEnd (h.task.dpagingEnd + mul64 4096 pages) := by
      ext vaddr
      simp only [Set.mem_sdiff, Set.mem_union, Set.mem_Ico]
      omega
    dsimp only [List.map_cons]
    rw [hused]
    exact htake

/-- The pages that `sbrk` asks for take the place of the rest of the pages before. -/
theorem Inv.grow (hinv : h.Inv) (hnonneg : 0 ≤ incr) (hint : incr < 2 ^ 31) (hasks : h.Asks incr)
    (hguard : h.task.dpagingEnd + mul64 4096 (word64 (numPages incr)) < 2 ^ 64) :
    (h.grow incr).Inv ∧ h.task.dpagingEnd ≤ (h.grow incr).task.dpagingEnd ∧ (h.grow incr).obtained = h.obtained ∧
      h.task.dpagingBegin ≤ (h.grow incr).programBreak ∧
      (h.grow incr).programBreak + incr ≤ (h.grow incr).dpageEnd := by
  obtain ⟨hcover, hagree⟩ := numPages_spec h.task.dpagingEnd hnonneg hint
  have hend : add64 h.task.dpagingEnd (mul64 4096 (word64 (numPages incr))) =
      h.task.dpagingEnd + mul64 4096 (word64 (numPages incr)) := Nat.mod_eq_of_lt hguard
  have hbegins := hinv.begins
  rw [grow_of_asks hasks, hagree, hend]
  refine ⟨⟨?_, hguard, Nat.le_add_right _ _, Nat.le_refl _, fun _ => hbegins, ?_, ?_⟩, Nat.le_add_right _ _, rfl,
    hbegins, ?_⟩
  · exact hbegins.trans (Nat.le_add_right _ _)
  · exact fun r hr => ⟨(hinv.inside r hr).1, (hinv.inside r hr).2.trans (Nat.le_add_right _ _)⟩
  · have hmark := hinv.used.step (.mark (Set.Ico h.task.dpagingBegin h.task.dpagingEnd))
    have hused : Set.Ico h.task.dpagingBegin (h.task.dpagingEnd + mul64 4096 (word64 (numPages incr))) \
        Set.Ico h.task.dpagingEnd (h.task.dpagingEnd + mul64 4096 (word64 (numPages incr))) =
          Set.Ico h.task.dpagingBegin h.task.dpagingEnd := by
      ext vaddr
      simp only [Set.mem_sdiff, Set.mem_Ico]
      omega
    dsimp only at hmark ⊢
    rw [Set.union_eq_right.mpr Set.sdiff_subset] at hmark
    rw [hused]
    exact hmark
  · dsimp only
    omega

/-- A region that fits is taken from the rest. -/
theorem Inv.take (hinv : h.Inv) (hnonneg : 0 ≤ incr) (hbegin : h.task.dpagingBegin ≤ h.programBreak)
    (hfits : h.programBreak + incr ≤ h.dpageEnd) :
    Inv { h with programBreak := word64 (h.programBreak + incr)
                 obtained := (h.programBreak, h.programBreak + incr.toNat) :: h.obtained } := by
  have hknown := hinv.known
  have hends := hinv.ends
  have hbreak : word64 (h.programBreak + incr) = h.programBreak + incr.toNat := by
    unfold word64
    omega
  rw [hbreak]
  refine ⟨hinv.begins, hends, ?_, hknown, fun _ => hbegin.trans (Nat.le_add_right _ _), ?_, ?_⟩
  · dsimp only
    omega
  · intro r hr
    rcases List.mem_cons.mp hr with rfl | hr
    · dsimp only
      exact ⟨hbegin, by omega⟩
    · exact hinv.inside r hr
  · have hfresh : Disjoint (Set.Ico h.programBreak (h.programBreak + incr.toNat))
        (Set.Ico h.task.dpagingBegin h.task.dpagingEnd \ Set.Ico h.programBreak h.dpageEnd) := by
      apply Set.disjoint_left.mpr
      intro vaddr hregion hused
      exact hused.2 ⟨hregion.1, by have := hregion.2; omega⟩
    have htake := hinv.used.step (.take _ hfresh)
    have hused : Set.Ico h.task.dpagingBegin h.task.dpagingEnd \
        Set.Ico (h.programBreak + incr.toNat) h.dpageEnd =
          Set.Ico h.task.dpagingBegin h.task.dpagingEnd \ Set.Ico h.programBreak h.dpageEnd ∪
            Set.Ico h.programBreak (h.programBreak + incr.toNat) := by
      ext vaddr
      simp only [Set.mem_sdiff, Set.mem_union, Set.mem_Ico]
      omega
    dsimp only [List.map_cons]
    rw [hused]
    exact htake

theorem call_sbrk {hnonneg : 0 ≤ incr} {hint : incr < 2 ^ 31} : h.call (.sbrk incr hnonneg hint) =
    { h.grow incr with
      programBreak := word64 ((h.grow incr).programBreak + incr)
      obtained := ((h.grow incr).programBreak, (h.grow incr).programBreak + incr.toNat) ::
        (h.grow incr).obtained } := rfl

theorem guard_sbrk {hnonneg : 0 ≤ incr} {hint : incr < 2 ^ 31} : h.Guard (.sbrk incr hnonneg hint) ↔
    if h.Asks incr then h.task.dpagingEnd + mul64 4096 (word64 (numPages incr)) < 2 ^ 64
    else h.programBreak + incr < 2 ^ 64 := Iff.rfl

theorem Inv.sbrk (hinv : h.Inv) {hnonneg : 0 ≤ incr} {hint : incr < 2 ^ 31}
    (hguard : h.Guard (.sbrk incr hnonneg hint)) :
    (h.call (.sbrk incr hnonneg hint)).Inv ∧
      h.task.dpagingEnd ≤ (h.call (.sbrk incr hnonneg hint)).task.dpagingEnd := by
  rw [guard_sbrk] at hguard
  by_cases hasks : h.Asks incr
  · rw [if_pos hasks] at hguard
    obtain ⟨hgrown, hend, -, hbegin, hfits⟩ := hinv.grow hnonneg hint hasks hguard
    have hsame : (h.grow incr).task.dpagingBegin = h.task.dpagingBegin := by
      rw [grow_of_asks hasks]
    exact ⟨hgrown.take hnonneg (hsame ▸ hbegin) hfits, hend⟩
  · rw [if_neg hasks] at hguard
    unfold Asks word64 at hasks
    rw [not_or] at hasks
    have hbegin := hinv.break_begins hasks.1
    rw [call_sbrk, grow_of_not_asks (by unfold Asks word64; exact not_or.mpr hasks)]
    exact ⟨hinv.take hnonneg hbegin (by omega), Nat.le_refl _⟩

/-- A call that the guard excludes makes the pages on demand fewer, or returns a region that is not inside. -/
theorem Inv.guard_of_sound (hinv : h.Inv) {c : HeapCall} (hsound : (h.call c).Sound)
    (hend : h.task.dpagingEnd ≤ (h.call c).task.dpagingEnd) : h.Guard c := by
  have hless : ∀ pages, h.task.dpagingEnd ≤ add64 h.task.dpagingEnd (mul64 4096 pages) →
      h.task.dpagingEnd + mul64 4096 pages < 2 ^ 64 := by
    intro pages hle
    have hends := hinv.ends
    have hword : mul64 4096 pages < 2 ^ 64 := Nat.mod_lt _ (Nat.two_pow_pos 64)
    unfold add64 at hle
    omega
  cases c with
  | demandPages pages => exact hless pages hend
  | sbrk incr hnonneg hint =>
    rw [call_sbrk] at hend hsound
    rw [guard_sbrk]
    split
    · rename_i hasks
      rw [grow_of_asks hasks] at hend
      exact hless _ hend
    · rename_i hasks
      rw [grow_of_not_asks hasks] at hsound
      have hregion := (hsound.inside _ List.mem_cons_self).2
      have hends := hinv.ends
      dsimp only at hregion
      omega

theorem Inv.call_iff (hinv : h.Inv) (c : HeapCall) :
    (h.call c).Sound ∧ h.task.dpagingEnd ≤ (h.call c).task.dpagingEnd ↔ h.Guard c := by
  constructor
  · intro hcall
    exact hinv.guard_of_sound hcall.1 hcall.2
  · intro hguard
    cases c with
    | sbrk incr hnonneg hint => exact ⟨(hinv.sbrk hguard).1.sound, (hinv.sbrk hguard).2⟩
    | demandPages pages => exact ⟨(hinv.demandPages hguard).1.sound, (hinv.demandPages hguard).2⟩

/-- **The heap grows soundly.**  As long as what is asked for ends in the address space, everything that is handed
out lies in the pages on demand, nothing is handed out twice and the pages never become fewer; and the next call
keeps it so exactly when it asks for no more than that. -/
theorem call_run (hrun : Reachable Start (GuardedStep (fun h c h' => h' = h.call c) Guard) h) :
    h.Sound ∧ ∀ c, ((h.call c).Sound ∧ h.task.dpagingEnd ≤ (h.call c).task.dpagingEnd ↔ h.Guard c) := by
  have hinv : h.Inv := by
    apply hrun.invariant
    · exact fun h hstart => hstart.inv
    · intro h h' hinv hstep
      obtain ⟨c, hguard, rfl⟩ := hstep
      cases c with
      | sbrk incr hnonneg hint => exact (hinv.sbrk hguard).1
      | demandPages pages => exact (hinv.demandPages hguard).1
  exact ⟨hinv.sound, hinv.call_iff⟩

/-- The program that ends in the first page of the upper half. -/
def smallHeap : AppHeap := ⟨smallProgram, 0, 0, []⟩

theorem smallHeap_start : smallHeap.Start := ⟨smallProgram_entered, rfl, rfl, rfl⟩

theorem call_run_smallHeap :
    (smallHeap.call (.sbrk 100 (by decide) (by decide))).Sound ∧
      smallHeap.task.dpagingEnd ≤ (smallHeap.call (.sbrk 100 (by decide) (by decide))).task.dpagingEnd := by
  have hguard : smallHeap.Guard (.sbrk 100 (by decide) (by decide)) := by
    rw [guard_sbrk, if_pos (by decide)]
    decide
  exact ((call_run (.start smallHeap_start)).2 _).mpr hguard

/-- Two gigabytes but one byte: the number of pages is negative, and there are two gigabytes less than before. -/
theorem call_run_wraps :
    smallHeap.Start ∧
      (smallHeap.call (.sbrk 0x7fffffff (by decide) (by decide))).task.dpagingEnd + (2 ^ 31 - 4096) =
        smallHeap.task.dpagingEnd ∧
      ¬ (smallHeap.call (.sbrk 0x7fffffff (by decide) (by decide))).Sound := by
  refine ⟨smallHeap_start, by decide, ?_⟩
  intro hsound
  have hregion := (hsound.inside _ List.mem_cons_self).2
  revert hregion
  decide

end AppHeap

end MikanSaos
