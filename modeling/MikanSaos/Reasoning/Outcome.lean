/-!
# Outcome — what a fallible computation may end in

`Yields bad post x` says that `x` ends in no error of `bad`, and that `post` holds of what it returns.  Other
errors are allowed: they end the computation, and nothing is said about it.
-/

namespace Reasoning

variable {ε α β : Type} {bad : ε → Prop} {post post' : α → Prop} {x : Except ε α} {a : α} {e : ε}

def Yields (bad : ε → Prop) (post : α → Prop) : Except ε α → Prop
  | .ok a => post a
  | .error e => ¬ bad e

namespace Yields

theorem pure (h : post a) : Yields bad post (.ok a) := h

theorem mono (h : Yields bad post x) (himp : ∀ a, post a → post' a) : Yields bad post' x := by
  cases x with
  | ok a => exact himp a h
  | error e => exact h

theorem bind {f : α → Except ε β} {post' : β → Prop} (h : Yields bad post x)
    (hf : ∀ a, post a → Yields bad post' (f a)) : Yields bad post' (x >>= f) := by
  cases x with
  | ok a => exact hf a h
  | error e => exact h

theorem map {f : α → β} {post' : β → Prop} (h : Yields bad post x) (hf : ∀ a, post a → post' (f a)) :
    Yields bad post' (x.map f) := by
  cases x with
  | ok a => exact hf a h
  | error e => exact h

theorem of_ok (h : Yields bad post x) (hx : x = .ok a) : post a := by
  rw [hx] at h
  exact h

theorem not_bad (h : Yields bad post x) (hx : x = .error e) : ¬ bad e := by
  rw [hx] at h
  exact h

end Yields

end Reasoning
