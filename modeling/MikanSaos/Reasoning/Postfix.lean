import Mathlib.Data.List.Induction

/-!
# Postfix — expressions behind their operands, and the stack that evaluates them

The machine reads tokens, pushes an operand and replaces the two topmost values by the result of an operator.  Its
stack has room for `cap` values.  Operands may have no value, and operators no result.
-/

namespace Reasoning.Postfix

universe u v w

/-- Expressions over the operands `α` and the binary operators `ω`. -/
inductive Expr (α : Type u) (ω : Type v) where
  | operand (a : α)
  | binary (op : ω) (left right : Expr α ω)

inductive Token (α : Type u) (ω : Type v) where
  | operand (a : α)
  | operator (op : ω)
  deriving DecidableEq

variable {α : Type u} {ω : Type v} {β : Type w}

namespace Expr

/-- Reverse Polish notation. -/
def tokens : Expr α ω → List (Token α ω)
  | operand a => [.operand a]
  | binary op left right => left.tokens ++ right.tokens ++ [.operator op]

def eval (value : α → Option β) (apply : ω → β → β → Option β) : Expr α ω → Option β
  | operand a => value a
  | binary op left right => do
    let x ← left.eval value apply
    let y ← right.eval value apply
    apply op x y

/-- The values that are on the stack at most while the expression is evaluated. -/
def depth : Expr α ω → Nat
  | operand _ => 1
  | binary _ left right => max left.depth (right.depth + 1)

end Expr

section Machine

variable (cap : Nat) (value : α → Option β) (apply : ω → β → β → Option β)

/-- The topmost value comes first. -/
def step (stack : List β) : Token α ω → Option (List β)
  | .operand a => (value a).bind fun x => if stack.length < cap then some (x :: stack) else none
  | .operator op =>
    match stack with
    | y :: x :: stack => (apply op x y).map (· :: stack)
    | _ => none

def run (stack : List β) (tokens : List (Token α ω)) : Option (List β) := tokens.foldlM (step cap value apply) stack

variable {cap value apply} {stack vs : List β} {tokens : List (Token α ω)} {es : List (Expr α ω)}

@[simp] theorem run_nil : run cap value apply stack [] = some stack := rfl

@[simp] theorem run_cons (t : Token α ω) :
    run cap value apply stack (t :: tokens) =
      (step cap value apply stack t).bind fun stack => run cap value apply stack tokens := rfl

theorem run_append (tokens' : List (Token α ω)) :
    run cap value apply stack (tokens ++ tokens') =
      (run cap value apply stack tokens).bind fun stack => run cap value apply stack tokens' :=
  List.foldlM_append ..

/-- **An expression in front pushes its value**, if it has one and there is room. -/
theorem run_tokens (e : Expr α ω) (stack : List β) :
    run cap value apply stack e.tokens =
      if stack.length + e.depth ≤ cap then (e.eval value apply).map (· :: stack) else none := by
  induction e generalizing stack with
  | operand a =>
    show ((value a).bind fun x => if stack.length < cap then some (x :: stack) else none).bind _ = _
    by_cases hroom : stack.length < cap
    · have hdepth : stack.length + (Expr.operand (ω := ω) a).depth ≤ cap := hroom
      simp [hroom, hdepth, Expr.eval, Option.map_eq_bind, Function.comp_def]
    · have hdepth : ¬ stack.length + (Expr.operand (ω := ω) a).depth ≤ cap := hroom
      simp [hroom, hdepth]
  | binary op left right ihl ihr =>
    have hdepth : stack.length + (Expr.binary op left right).depth ≤ cap ↔
        stack.length + left.depth ≤ cap ∧ stack.length + 1 + right.depth ≤ cap := by
      rw [Expr.depth]
      omega
    rw [Expr.tokens, run_append, run_append, ihl]
    by_cases hleft : stack.length + left.depth ≤ cap
    · rw [if_pos hleft]
      cases hx : left.eval value apply with
      | none => simp [Expr.eval, hx]
      | some x =>
        -- the value of the left operand is below that of the right one
        have hright := ihr (x :: stack)
        rw [List.length_cons] at hright
        rw [Option.map_some, Option.bind_some, hright]
        by_cases hroom : stack.length + 1 + right.depth ≤ cap
        · rw [if_pos hroom, if_pos (hdepth.mpr ⟨hleft, hroom⟩), Expr.eval, hx]
          cases right.eval value apply with
          | none => rfl
          | some y => simp [step]
        · rw [if_neg hroom, if_neg fun h => hroom (hdepth.mp h).2]
          rfl
    · rw [if_neg hleft, if_neg fun h => hleft (hdepth.mp h).1]
      rfl

end Machine

/-! ## What the machine accepts -/

/-- The expressions have been evaluated one after the other, and their values are on the stack, the last one first. -/
inductive Evaluated (cap : Nat) (value : α → Option β) (apply : ω → β → β → Option β) :
    List (Expr α ω) → List β → Prop
  | nil : Evaluated cap value apply [] []
  | snoc {es : List (Expr α ω)} {stack : List β} {e : Expr α ω} {x : β} (h : Evaluated cap value apply es stack)
      (hroom : stack.length + e.depth ≤ cap) (heval : e.eval value apply = some x) :
      Evaluated cap value apply (es ++ [e]) (x :: stack)

section Accepts

variable {cap : Nat} {value : α → Option β} {apply : ω → β → β → Option β} {stack : List β} {tokens : List (Token α ω)}
  {es : List (Expr α ω)}

theorem Evaluated.run_eq (h : Evaluated cap value apply es stack) :
    run cap value apply [] (es.flatMap Expr.tokens) = some stack := by
  induction h with
  | nil => rfl
  | snoc _ hroom heval ih =>
    rw [List.flatMap_append, run_append, ih, List.flatMap_singleton, Option.bind_some, run_tokens, if_pos hroom, heval]
    rfl

/-- An operand is an expression more; an operator makes one of the last two. -/
theorem Evaluated.step {t : Token α ω} {stack' : List β} (h : Evaluated cap value apply es stack)
    (hstep : Postfix.step cap value apply stack t = some stack') :
    ∃ es', es'.flatMap Expr.tokens = es.flatMap Expr.tokens ++ [t] ∧ Evaluated cap value apply es' stack' := by
  cases t with
  | operand a =>
    obtain ⟨x, hx, hpush⟩ := Option.bind_eq_some_iff.mp hstep
    by_cases hroom : stack.length < cap
    · rw [if_pos hroom] at hpush
      cases hpush
      refine ⟨es ++ [.operand a], ?_, h.snoc (e := .operand a) hroom hx⟩
      rw [List.flatMap_append, List.flatMap_singleton]
      rfl
    · rw [if_neg hroom] at hpush
      cases hpush
  | operator op =>
    rcases h with _ | ⟨_ | ⟨h, hroom, heval⟩, hroom', heval'⟩
    · cases hstep
    · cases hstep
    · rename_i e' y rest stack e x
      obtain ⟨z, hz, hpush⟩ := Option.map_eq_some_iff.mp hstep
      subst hpush
      refine ⟨rest ++ [.binary op e e'], ?_, h.snoc ?_ ?_⟩
      · simp [Expr.tokens]
      · rw [List.length_cons] at hroom'
        rw [Expr.depth]
        omega
      · rw [Expr.eval, heval, heval']
        exact hz

/-- **The machine ends with a stack just on the expressions in reverse Polish notation**, one behind the other, that
have values and for which there is room. -/
theorem run_eq_some_iff : run cap value apply [] tokens = some stack ↔
    ∃ es, tokens = es.flatMap Expr.tokens ∧ Evaluated cap value apply es stack := by
  constructor
  · induction tokens using List.reverseRecOn generalizing stack with
    | nil =>
      intro hrun
      cases hrun
      exact ⟨[], rfl, .nil⟩
    | append_singleton tokens t ih =>
      intro hrun
      rw [run_append] at hrun
      obtain ⟨stack', hrun', hlast⟩ := Option.bind_eq_some_iff.mp hrun
      obtain ⟨es, htokens, hevaluated⟩ := ih hrun'
      rw [run_cons] at hlast
      obtain ⟨_, hstep, hend⟩ := Option.bind_eq_some_iff.mp hlast
      cases hend
      obtain ⟨es', htokens', hevaluated'⟩ := hevaluated.step hstep
      exact ⟨es', by rw [htokens', htokens], hevaluated'⟩
  · rintro ⟨es, rfl, h⟩
    exact h.run_eq

end Accepts

end Reasoning.Postfix
