import Mathlib.Data.List.Nodup

/-!
# Linked chains in a table

A table `next` gives every cell its successor; the cell whose successor is a `stop` mark is the last
one of its chain.  Chains have no cells of their own, so that all facts are about the list of the cells
a walk visits.
-/

namespace Reasoning

variable {α : Type*} {next next' : α → α} {stop : α → Prop}

/-- The walk from `c` visits the cells `l` and stops. -/
inductive Chain (next : α → α) (stop : α → Prop) : α → List α → Prop
  | last {c : α} (h : stop (next c)) : Chain next stop c [c]
  | link {c : α} {l : List α} (h : ¬ stop (next c)) (hl : Chain next stop (next c) l) :
      Chain next stop c (c :: l)

namespace Chain

variable {c d e : α} {l l' m : List α}

theorem exists_cons (h : Chain next stop c l) : ∃ t, l = c :: t := by
  cases h with
  | last => exact ⟨[], rfl⟩
  | link => exact ⟨_, rfl⟩

theorem head_mem (h : Chain next stop c l) : c ∈ l := by
  obtain ⟨t, rfl⟩ := h.exists_cons
  exact List.mem_cons_self

theorem ne_nil (h : Chain next stop c l) : l ≠ [] := List.ne_nil_of_mem h.head_mem

theorem unique (h : Chain next stop c l) (h' : Chain next stop c l') : l = l' := by
  induction h generalizing l' with
  | last hs =>
    cases h' with
    | last => rfl
    | link hn => exact absurd hs hn
  | link hn hl ih =>
    cases h' with
    | last hs => exact absurd hs hn
    | link _ hl' => rw [ih hl']

/-- Walking on from a visited cell visits the rest. -/
theorem suffix (h : Chain next stop c l) (hd : d ∈ l) :
    ∃ pre l', l = pre ++ l' ∧ Chain next stop d l' := by
  induction h with
  | last hs =>
    obtain rfl := List.mem_singleton.mp hd
    exact ⟨[], _, rfl, .last hs⟩
  | @link c l hn hl ih =>
    rcases List.mem_cons.mp hd with rfl | hd
    · exact ⟨[], _, rfl, .link hn hl⟩
    · obtain ⟨pre, l', rfl, hl'⟩ := ih hd
      exact ⟨c :: pre, l', rfl, hl'⟩

/-- A walk that stops visits no cell twice: a second visit would never end. -/
theorem nodup (h : Chain next stop c l) : l.Nodup := by
  induction h with
  | last => exact List.nodup_singleton _
  | @link c l hn hl ih =>
    refine List.nodup_cons.mpr ⟨fun hc => ?_, ih⟩
    obtain ⟨pre, l', heq, hl'⟩ := hl.suffix hc
    have hlen := congrArg List.length ((hl'.unique (.link hn hl)).symm.trans rfl)
    have hle := congrArg List.length heq
    rw [List.length_cons] at hlen
    rw [List.length_append] at hle
    omega

theorem congr (h : Chain next stop c l) (hsame : ∀ x ∈ l, next' x = next x) :
    Chain next' stop c l := by
  induction h with
  | @last c hs =>
    have hc := hsame c List.mem_cons_self
    exact .last (by rw [hc]; exact hs)
  | @link c l hn hl ih =>
    have hc := hsame c List.mem_cons_self
    have hl' := ih fun x hx => hsame x (List.mem_cons_of_mem c hx)
    exact .link (by rw [hc]; exact hn) (by rw [hc]; exact hl')

theorem stop_getLast (h : Chain next stop c l) (he : l.getLast? = some e) : stop (next e) := by
  induction h with
  | last hs =>
    rw [List.getLast?_singleton, Option.some_inj] at he
    exact he ▸ hs
  | link hn hl ih =>
    obtain ⟨t, rfl⟩ := hl.exists_cons
    exact ih (by rw [← he, List.getLast?_cons_cons])

/-- Only the last cell of a chain is marked. -/
theorem next_getElem (h : Chain next stop c l) {i : Nat} (hi : i + 1 < l.length) :
    ¬ stop (next l[i]) ∧ next l[i] = l[i + 1] := by
  induction h generalizing i with
  | last => exact absurd hi (by simp)
  | @link c l hn hl ih =>
    cases i with
    | zero =>
      obtain ⟨t, rfl⟩ := hl.exists_cons
      exact ⟨hn, rfl⟩
    | succ i => exact ih (by rw [List.length_cons] at hi; omega)

/-- Redirecting the last cell to another chain joins the two. -/
theorem append (h : Chain next stop c l) (he : l.getLast? = some e) (hd : ¬ stop d)
    (hm : Chain next' stop d m) (hlast : next' e = d)
    (hsame : ∀ x ∈ l, x ≠ e → next' x = next x) : Chain next' stop c (l ++ m) := by
  induction h with
  | last hs =>
    rw [List.getLast?_singleton, Option.some_inj] at he
    subst he
    exact .link (by rw [hlast]; exact hd) (by rw [hlast]; exact hm)
  | @link c l hn hl ih =>
    obtain ⟨t, rfl⟩ := hl.exists_cons
    rw [List.getLast?_cons_cons] at he
    have hne : c ≠ e := by
      rintro rfl
      exact (List.nodup_cons.mp (Chain.link hn hl).nodup).1 (List.mem_of_getLast? he)
    have hc := hsame c List.mem_cons_self hne
    have hrest := ih he fun x hx => hsame x (List.mem_cons_of_mem c hx)
    exact .link (by rw [hc]; exact hn) (by rw [hc]; exact hrest)

/-- The last cell may be given another mark. -/
theorem close (h : Chain next stop c l) (he : l.getLast? = some e) (hstop : stop (next' e))
    (hsame : ∀ x ∈ l, x ≠ e → next' x = next x) : Chain next' stop c l := by
  induction h with
  | last hs =>
    rw [List.getLast?_singleton, Option.some_inj] at he
    exact .last (he ▸ hstop)
  | @link c l hn hl ih =>
    obtain ⟨t, rfl⟩ := hl.exists_cons
    rw [List.getLast?_cons_cons] at he
    have hne : c ≠ e := by
      rintro rfl
      exact (List.nodup_cons.mp (Chain.link hn hl).nodup).1 (List.mem_of_getLast? he)
    have hc := hsame c List.mem_cons_self hne
    have hrest := ih he fun x hx => hsame x (List.mem_cons_of_mem c hx)
    exact .link (by rw [hc]; exact hn) (by rw [hc]; exact hrest)

end Chain

/-! ## Chains of several owners -/

/-- Every owner that has a chain has it to itself, in cells that are `used`. -/
structure ChainFamily {ι : Type*} (next : α → α) (stop used : α → Prop) (head : ι → α → Prop) :
    Prop where
  chain : ∀ i c, head i c → ∃ l, Chain next stop c l ∧ ∀ x ∈ l, used x
  disjoint : ∀ i j c d l m, head i c → head j d → i ≠ j → Chain next stop c l →
    Chain next stop d m → l.Disjoint m

namespace ChainFamily

variable {ι : Type*} {used used' : α → Prop} {head head' : ι → α → Prop} {i : ι} {old new : List α}

/-- One owner `i` gives up the cells `old` and gets the cells `new`, which were not used before; the
other cells in use stay as they are. -/
structure Replaces (next next' : α → α) (stop used used' : α → Prop) (head : ι → α → Prop) (i : ι)
    (old new : List α) : Prop where
  owned : old = [] ∨ ∃ c, head i c ∧ Chain next stop c old
  fresh : ∀ x ∈ new, x ∈ old ∨ ¬ used x
  next_eq : ∀ x, used x → x ∉ old → x ∉ new → next' x = next x
  used_of : ∀ x, used x → x ∉ old → x ∉ new → used' x

/-- The other owners' cells are not among those that change. -/
theorem not_mem (h : ChainFamily next stop used head)
    (hr : Replaces next next' stop used used' head i old new) {j : ι} {d : α} {m : List α}
    (hne : j ≠ i) (hd : head j d) (hm : Chain next stop d m) {x : α} (hx : x ∈ m) :
    x ∉ old ∧ x ∉ new := by
  have hold : x ∉ old := by
    rcases hr.owned with rfl | ⟨c, hc, hl⟩
    · exact List.not_mem_nil
    · exact fun hxo => h.disjoint j i d c m old hd hc hne hm hl hx hxo
  refine ⟨hold, fun hxn => ?_⟩
  obtain ⟨m', hm', hused⟩ := h.chain j d hd
  rcases hr.fresh x hxn with hxo | hfree
  · exact hold hxo
  · exact hfree (hused x (hm.unique hm' ▸ hx))

/-- The other owners keep their chains. -/
theorem keeps (h : ChainFamily next stop used head)
    (hr : Replaces next next' stop used used' head i old new) {j : ι} {d : α} {m : List α}
    (hne : j ≠ i) (hd : head j d) (hm : Chain next stop d m) :
    Chain next' stop d m ∧ ∀ x ∈ m, used' x := by
  obtain ⟨m', hm', hused⟩ := h.chain j d hd
  obtain rfl := hm.unique hm'
  constructor
  · apply hm.congr
    intro x hx
    obtain ⟨hxo, hxn⟩ := h.not_mem hr hne hd hm hx
    exact hr.next_eq x (hused x hx) hxo hxn
  · intro x hx
    obtain ⟨hxo, hxn⟩ := h.not_mem hr hne hd hm hx
    exact hr.used_of x (hused x hx) hxo hxn

/-- The family with the chain of one owner replaced. -/
theorem replace (h : ChainFamily next stop used head)
    (hr : Replaces next next' stop used used' head i old new)
    (hothers : ∀ j ≠ i, ∀ d, head' j d → head j d)
    (hself : ∀ c, head' i c → Chain next' stop c new ∧ ∀ x ∈ new, used' x) :
    ChainFamily next' stop used' head' := by
  constructor
  · intro j d hd
    by_cases hji : j = i
    · subst hji
      exact ⟨new, hself d hd⟩
    · obtain ⟨m, hm, -⟩ := h.chain j d (hothers j hji d hd)
      exact ⟨m, h.keeps hr hji (hothers j hji d hd) hm⟩
  · -- an owner's chain against that of `i`, from either side
    have hagainst : ∀ j ≠ i, ∀ c d m l, head' i c → head' j d → Chain next' stop c l →
        Chain next' stop d m → l.Disjoint m := by
      intro j hji c d m l hc hd hl hm x hxl hxm
      have hd' := hothers j hji d hd
      obtain ⟨m', hm', -⟩ := h.chain j d hd'
      obtain rfl := hm.unique (h.keeps hr hji hd' hm').1
      obtain rfl := hl.unique (hself c hc).1
      exact (h.not_mem hr hji hd' hm' hxm).2 hxl
    intro j k c d l m hc hd hjk hl hm
    by_cases hji : j = i
    · subst hji
      exact hagainst k (Ne.symm hjk) c d m l hc hd hl hm
    · by_cases hki : k = i
      · subst hki
        exact fun x hxl hxm => hagainst j hji d c l m hd hc hm hl hxm hxl
      · have hc' := hothers j hji c hc
        have hd' := hothers k hki d hd
        obtain ⟨l', hl', -⟩ := h.chain j c hc'
        obtain ⟨m', hm', -⟩ := h.chain k d hd'
        obtain rfl := hl.unique (h.keeps hr hji hc' hl').1
        obtain rfl := hm.unique (h.keeps hr hki hd' hm').1
        exact h.disjoint j k c d l m hc' hd' hjk hl' hm'

end ChainFamily

end Reasoning
