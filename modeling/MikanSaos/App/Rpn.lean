import MikanSaos.Reasoning.Postfix
import MikanSaos.Terminal.ArgumentVector
import Mathlib.Data.Nat.Digits.Defs

/-!
# Rpn — the calculator `rpnnolib`

A string stands for the memory behind a pointer.  Overflow of a `long` and an access outside `stack` are undefined
behaviour, for which there is no result.
-/

open Reasoning

namespace MikanSaos

namespace Rpn

/-- `char` is signed. -/
def char (c : UInt8) : Int := c.toInt8.toInt

/-- A `long` can have the value. -/
def Long (v : Int) : Prop := -2 ^ 63 ≤ v ∧ v < 2 ^ 63

instance (v : Int) : Decidable (Long v) := inferInstanceAs (Decidable (_ ∧ _))

/-- The result of an operation on `long`s. -/
def long (v : Int) : Option Int := if Long v then some v else none

def strcmp : List UInt8 → List UInt8 → Int
  | a :: as, b :: bs =>
    if a ≠ 0 ∧ b ≠ 0 then
      if a ≠ b then char a - char b else strcmp as bs
    else char a - char b
  | as, bs => char (as.headD 0) - char (bs.headD 0)

/-- The loop of `atol` from `s[i]` on. -/
def atolLoop (v : Int) : List UInt8 → Option Int
  | [] => some v
  | c :: s =>
    if c = 0 then some v
    else do
      let tens ← long (v * 10)
      let v ← long (tens + (char c - 48))
      atolLoop v s

def atol (s : List UInt8) : Option Int := atolLoop 0 s

/-- `stack_ptr` and `stack` -/
structure Machine where
  stackPtr : Int
  stack : Nat → Int

def stackSize : Nat := 100

namespace Machine

def pop (m : Machine) : Option (Int × Machine) :=
  if 0 ≤ m.stackPtr ∧ m.stackPtr < stackSize then
    some (m.stack m.stackPtr.toNat, { m with stackPtr := m.stackPtr - 1 })
  else none

def push (m : Machine) (value : Int) : Option Machine :=
  let stackPtr := m.stackPtr + 1
  if 0 ≤ stackPtr ∧ stackPtr < stackSize then some ⟨stackPtr, Function.update m.stack stackPtr.toNat value⟩
  else none

/-- The loop of `main` with `argv[i]`. -/
def round (m : Machine) (arg : List UInt8) : Option Machine :=
  -- "+"
  if strcmp arg [43] = 0 then do
    let (b, m) ← m.pop
    let (a, m) ← m.pop
    m.push (← long (a + b))
  -- "-"
  else if strcmp arg [45] = 0 then do
    let (b, m) ← m.pop
    let (a, m) ← m.pop
    m.push (← long (a - b))
  else do
    let a ← atol arg
    m.push a

end Machine

/-- `static_cast<int>` -/
def toInt (v : Int) : Int := v.bmod (2 ^ 32)

def main (argv : List (List UInt8)) : Option Int := do
  let m ← (argv.drop 1).foldlM Machine.round ⟨-1, fun _ => 0⟩
  if m.stackPtr < 0 then some 0
  else do
    let (v, _) ← m.pop
    some (toInt v)

/-! ## Strings -/

section Strings

variable {a b s : List UInt8} {c d : UInt8}

theorem char_inj : char c = char d ↔ c = d := by
  unfold char
  rw [Int8.toInt_inj]
  exact ⟨fun h => by simpa using congrArg Int8.toUInt8 h, fun h => by rw [h]⟩

theorem strcmp_eq_zero (a b : List UInt8) : strcmp a b = 0 ↔ cString a = cString b := by
  have hend : ∀ c, char c - char 0 = 0 ↔ c = 0 := fun c => by rw [Int.sub_eq_zero, char_inj]
  have hbegin : ∀ c, char 0 - char c = 0 ↔ c = 0 := fun c => by rw [Int.sub_eq_zero, char_inj, eq_comm]
  induction a generalizing b with
  | nil =>
    cases b with
    | nil => exact iff_of_true rfl rfl
    | cons d b =>
      show char 0 - char d = 0 ↔ _
      rw [hbegin]
      by_cases hd : d = 0
      · simp [cString, hd]
      · simp [cString, hd]
  | cons c a ih =>
    cases b with
    | nil =>
      show char c - char 0 = 0 ↔ _
      rw [hend]
      by_cases hc : c = 0
      · simp [cString, hc]
      · simp [cString, hc]
    | cons d b =>
      rw [strcmp]
      by_cases hboth : c ≠ 0 ∧ d ≠ 0
      · rw [if_pos hboth]
        have hc : cString (c :: a) = c :: cString a := List.takeWhile_cons_of_pos (by simpa using hboth.1)
        have hd : cString (d :: b) = d :: cString b := List.takeWhile_cons_of_pos (by simpa using hboth.2)
        rw [hc, hd, List.cons.injEq]
        by_cases hcd : c = d
        · simp [hcd, ih b]
        · simp [hcd, Int.sub_eq_zero, char_inj]
      · -- one of the strings ends here
        rw [if_neg hboth, Int.sub_eq_zero, char_inj]
        by_cases hc : c = 0
        · by_cases hd : d = 0
          · simp [cString, hc, hd]
          · simp [cString, hc, hd, Ne.symm hd]
        · have hd : d = 0 := by
            by_contra hd
            exact hboth ⟨hc, hd⟩
          simp [cString, hc, hd]

end Strings

/-! ## The stack -/

inductive Operator where
  | plus
  | minus
  deriving DecidableEq

def Operator.apply : Operator → Int → Int → Option Int
  | plus, a, b => long (a + b)
  | minus, a, b => long (a - b)

/-- What a string is to `main`. -/
def token (arg : List UInt8) : Postfix.Token (List UInt8) Operator :=
  if cString arg = [43] then .operator .plus
  else if cString arg = [45] then .operator .minus
  else .operand arg

/-- The values on the stack, the topmost first. -/
structure Machine.Holds (m : Machine) (values : List Int) : Prop where
  stackPtr : m.stackPtr = values.length - 1
  stack : ∀ i x, values.reverse[i]? = some x → m.stack i = x
  room : values.length ≤ stackSize

section Stack

variable {m : Machine} {values : List Int} {x : Int}

theorem Machine.Holds.pop_nil (h : m.Holds []) : m.pop = none := by
  have hptr : m.stackPtr = -1 := h.stackPtr
  unfold pop
  rw [hptr]
  rfl

theorem Machine.Holds.pop (h : m.Holds (x :: values)) : ∃ m', m.pop = some (x, m') ∧ m'.Holds values := by
  have hptr : m.stackPtr = values.length := by
    rw [h.stackPtr, List.length_cons]
    omega
  have hroom := h.room
  rw [List.length_cons] at hroom
  have htop : m.stack values.length = x := h.stack _ _ (by simp)
  refine ⟨{ m with stackPtr := m.stackPtr - 1 }, ?_, by rw [hptr], fun i y hy => h.stack i y ?_, by omega⟩
  · unfold Machine.pop
    rw [hptr, if_pos (by omega), Int.toNat_natCast, htop]
  · rw [List.reverse_cons]
    exact List.getElem?_append_left (List.getElem?_eq_some_iff.mp hy).1 ▸ hy

theorem Machine.Holds.push_full (h : m.Holds values) (hfull : ¬ values.length < stackSize) : m.push x = none := by
  have hptr : m.stackPtr + 1 = values.length := by
    rw [h.stackPtr]
    omega
  unfold push
  rw [hptr]
  exact if_neg (by omega)

theorem Machine.Holds.push (h : m.Holds values) (hroom : values.length < stackSize) (x : Int) :
    ∃ m', m.push x = some m' ∧ m'.Holds (x :: values) := by
  have hptr : m.stackPtr + 1 = values.length := by
    rw [h.stackPtr]
    omega
  refine ⟨⟨values.length, Function.update m.stack values.length x⟩, ?_, ?_, fun i y hy => ?_, hroom⟩
  · unfold Machine.push
    rw [hptr]
    exact if_pos (by omega)
  · rw [List.length_cons]
    show (values.length : Int) = _
    omega
  · show Function.update m.stack values.length x i = y
    rw [List.reverse_cons] at hy
    by_cases hi : i = values.length
    · subst hi
      rw [Function.update_self]
      simpa using hy
    · have hlt : i < values.reverse.length := by
        have hbound := (List.getElem?_eq_some_iff.mp hy).1
        rw [List.length_append, List.length_singleton] at hbound
        rw [List.length_reverse] at hbound ⊢
        omega
      rw [Function.update_of_ne hi]
      rw [List.getElem?_append_left hlt] at hy
      exact h.stack i y hy

end Stack

/-! ## The calculator and the abstract machine -/

section Evaluates

variable {m : Machine} {values : List Int} {argv : List (List UInt8)}

/-- `b` is popped before `a`. -/
theorem round_operator (h : m.Holds values) (op : Operator) :
    Option.Rel Machine.Holds
      (do
        let (b, m) ← m.pop
        let (a, m) ← m.pop
        m.push (← op.apply a b))
      (Postfix.step stackSize atol Operator.apply values (.operator op)) := by
  match values with
  | [] =>
    rw [h.pop_nil]
    exact .none
  | [b] =>
    obtain ⟨m₁, hpop, h₁⟩ := h.pop
    rw [hpop]
    show Option.Rel _ (m₁.pop >>= _) _
    rw [h₁.pop_nil]
    exact .none
  | b :: a :: values =>
    obtain ⟨m₁, hpop, h₁⟩ := h.pop
    obtain ⟨m₂, hpop', h₂⟩ := h₁.pop
    rw [hpop]
    show Option.Rel _ (m₁.pop >>= _) _
    rw [hpop']
    show Option.Rel _ (op.apply a b >>= m₂.push) ((op.apply a b).map (· :: values))
    cases op.apply a b with
    | none => exact .none
    | some x =>
      have hroom := h₁.room
      obtain ⟨m₃, hpush, h₃⟩ := h₂.push hroom x
      show Option.Rel _ (m₂.push x) _
      rw [hpush]
      exact .some h₃

theorem round_step (h : m.Holds values) (arg : List UInt8) :
    Option.Rel Machine.Holds (m.round arg) (Postfix.step stackSize atol Operator.apply values (token arg)) := by
  have hplus : strcmp arg [43] = 0 ↔ cString arg = [43] := strcmp_eq_zero arg [43]
  have hminus : strcmp arg [45] = 0 ↔ cString arg = [45] := strcmp_eq_zero arg [45]
  unfold Machine.round token
  by_cases hp : cString arg = [43]
  · rw [if_pos (hplus.mpr hp), if_pos hp]
    exact round_operator h .plus
  rw [if_neg (mt hplus.mp hp), if_neg hp]
  by_cases hm : cString arg = [45]
  · rw [if_pos (hminus.mpr hm), if_pos hm]
    exact round_operator h .minus
  rw [if_neg (mt hminus.mp hm), if_neg hm]
  show Option.Rel _ (atol arg >>= m.push) ((atol arg).bind _)
  cases atol arg with
  | none => exact .none
  | some x =>
    show Option.Rel _ (m.push x) (if values.length < stackSize then some (x :: values) else none)
    by_cases hroom : values.length < stackSize
    · obtain ⟨m', hpush, h'⟩ := h.push hroom x
      rw [if_pos hroom, hpush]
      exact .some h'
    · rw [if_neg hroom, h.push_full hroom]
      exact .none

theorem loop_run (h : m.Holds values) (args : List (List UInt8)) :
    Option.Rel Machine.Holds (args.foldlM Machine.round m)
      (Postfix.run stackSize atol Operator.apply values (args.map token)) := by
  induction args generalizing m values with
  | nil => exact .some h
  | cons arg args ih =>
    rw [List.foldlM_cons, List.map_cons, Postfix.run_cons]
    have hstep := round_step h arg
    generalize m.round arg = r, Postfix.step stackSize atol Operator.apply values (token arg) = r' at hstep ⊢
    cases hstep with
    | none => exact .none
    | some hnext => exact ih hnext

/-- What `main` returns with these values on the stack. -/
def result : List Int → Int
  | [] => 0
  | v :: _ => toInt v

theorem start_holds (stack : Nat → Int) : Machine.Holds ⟨-1, stack⟩ [] where
  stackPtr := rfl
  stack := fun i x h => by simp at h
  room := Nat.zero_le _

/-- `main` is the abstract machine on the tokens. -/
theorem main_eq (argv : List (List UInt8)) :
    main argv = (Postfix.run stackSize atol Operator.apply [] ((argv.drop 1).map token)).map result := by
  have hloop := loop_run (start_holds fun _ => 0) (argv.drop 1)
  unfold main
  generalize (argv.drop 1).foldlM Machine.round ⟨-1, fun _ => 0⟩ = r,
    Postfix.run stackSize atol Operator.apply [] ((argv.drop 1).map token) = r' at hloop ⊢
  cases hloop with
  | none => rfl
  | @some m values h =>
    show (if m.stackPtr < 0 then some 0 else m.pop >>= _) = some (result values)
    cases values with
    | nil =>
      have hptr : m.stackPtr = -1 := h.stackPtr
      rw [if_pos (by omega)]
      rfl
    | cons v values =>
      have hptr := h.stackPtr
      rw [List.length_cons] at hptr
      obtain ⟨m', hpop, -⟩ := h.pop
      rw [if_neg (by omega), hpop]
      rfl

/-- **What the calculator accepts.**  It returns a result just if its arguments are expressions in reverse Polish
notation, one behind the other, for which the stack has room and which have values; then it is the value of the
last one as an `int`, and 0 without an argument. -/
theorem main_eq_some_iff (argv : List (List UInt8)) (r : Int) :
    main argv = some r ↔ ∃ es values, (argv.drop 1).map token = es.flatMap Postfix.Expr.tokens ∧
      Postfix.Evaluated stackSize atol Operator.apply es values ∧ r = result values := by
  rw [main_eq, Option.map_eq_some_iff]
  constructor
  · rintro ⟨values, hrun, rfl⟩
    obtain ⟨es, htokens, hevaluated⟩ := Postfix.run_eq_some_iff.mp hrun
    exact ⟨es, values, htokens, hevaluated, rfl⟩
  · rintro ⟨es, values, htokens, hevaluated, rfl⟩
    exact ⟨values, Postfix.run_eq_some_iff.mpr ⟨es, htokens, hevaluated⟩, rfl⟩

end Evaluates

/-! ## Formulas -/

/-- A number as it is typed. -/
structure Numeral where
  digits : List UInt8
  ne_nil : digits ≠ []
  isDigit : ∀ c ∈ digits, 48 ≤ c ∧ c ≤ 57

def Numeral.value (n : Numeral) : Nat := Nat.ofDigits 10 (n.digits.reverse.map fun c => c.toNat - 48)

abbrev Formula := Postfix.Expr Numeral Operator

namespace Formula

def value : Formula → Int
  | .operand n => n.value
  | .binary .plus left right => value left + value right
  | .binary .minus left right => value left - value right

/-- The numbers and all results are values of a `long`. -/
def Fits : Formula → Prop
  | .operand n => n.value < 2 ^ 63
  | .binary op left right => Fits left ∧ Fits right ∧ Long (value (.binary op left right))

end Formula

/-- What is typed for a token. -/
def word : Postfix.Token Numeral Operator → List UInt8
  | .operand n => n.digits
  | .operator .plus => [43]
  | .operator .minus => [45]

/-- What is typed for a formula, word by word. -/
def Formula.words (e : Formula) : List (List UInt8) := e.tokens.map word

section Formulas

theorem digit_bounds {c : UInt8} (h : 48 ≤ c ∧ c ≤ 57) : char c = (c.toNat : Int) ∧ 48 ≤ c.toNat ∧ c ≠ 0 := by
  have hge : 48 ≤ c.toNat := UInt8.le_iff_toNat_le.mp h.1
  have hle : c.toNat ≤ 57 := UInt8.le_iff_toNat_le.mp h.2
  have hchar : char c = c.toBitVec.toInt := rfl
  have hsmall : 2 * c.toBitVec.toNat < 2 ^ 8 := by
    show 2 * c.toNat < 2 ^ 8
    omega
  refine ⟨by rw [hchar, BitVec.toInt_eq_toNat_of_lt hsmall]; rfl, hge, ?_⟩
  rintro rfl
  exact absurd hge (by decide)

theorem atolLoop_digits {s : List UInt8} (hs : ∀ c ∈ s, 48 ≤ c ∧ c ≤ 57) (v : Nat)
    (hfits : v * 10 ^ s.length + Nat.ofDigits 10 (s.reverse.map fun c => c.toNat - 48) < 2 ^ 63) :
    atolLoop v s = some (v * 10 ^ s.length + Nat.ofDigits 10 (s.reverse.map fun c => c.toNat - 48) : Nat) := by
  induction s generalizing v with
  | nil => simp [atolLoop]
  | cons c s ih =>
    rw [List.forall_mem_cons] at hs
    obtain ⟨hchar, hdigit, hne⟩ := digit_bounds hs.1
    have hvalue : v * 10 ^ (c :: s).length + Nat.ofDigits 10 ((c :: s).reverse.map fun c => c.toNat - 48) =
        (v * 10 + (c.toNat - 48)) * 10 ^ s.length + Nat.ofDigits 10 (s.reverse.map fun c => c.toNat - 48) := by
      rw [List.reverse_cons, List.map_append, List.map_singleton, Nat.ofDigits_append, Nat.ofDigits_singleton,
        List.length_map, List.length_reverse, List.length_cons]
      ring
    rw [hvalue] at hfits ⊢
    -- the values on the way are smaller
    have hpow : 0 < 10 ^ s.length := Nat.pos_of_ne_zero (by simp)
    have hle : v * 10 + (c.toNat - 48) ≤ (v * 10 + (c.toNat - 48)) * 10 ^ s.length := Nat.le_mul_of_pos_right _ hpow
    have htens : long (v * 10) = some ((v * 10 : Nat) : Int) := if_pos ⟨by omega, by omega⟩
    have hnext : long ((v * 10 : Nat) + (char c - 48)) = some ((v * 10 + (c.toNat - 48) : Nat) : Int) := by
      rw [hchar, show ((v * 10 : Nat) : Int) + ((c.toNat : Int) - 48) = (v * 10 + (c.toNat - 48) : Nat) by omega]
      exact if_pos ⟨by omega, by omega⟩
    rw [atolLoop, if_neg hne, htens, Option.bind_eq_bind, Option.bind_some, hnext]
    exact ih hs.2 _ hfits

theorem atol_numeral {n : Numeral} (h : n.value < 2 ^ 63) : atol n.digits = some (n.value : Int) := by
  have hloop := @atolLoop_digits n.digits n.isDigit 0
  rw [Nat.zero_mul, Nat.zero_add] at hloop
  exact hloop h

/-- A number is not an operator. -/
theorem token_numeral (n : Numeral) : token n.digits = .operand n.digits := by
  have hdigits : ∀ c ∈ n.digits, decide (c ≠ 0) = true := fun c hc => by simpa using (digit_bounds (n.isDigit c hc)).2.2
  have hstring : cString n.digits = n.digits := List.takeWhile_eq_self_iff.mpr hdigits
  have hoperator : ∀ c < 48, cString n.digits ≠ [c] := by
    intro c hc heq
    rw [hstring] at heq
    have hdigit := (n.isDigit c (by rw [heq]; exact List.mem_singleton_self c)).1
    exact absurd hc (UInt8.not_lt.mpr hdigit)
  unfold token
  rw [if_neg (hoperator 43 (by decide)), if_neg (hoperator 45 (by decide))]

/-- The formula as `main` sees it. -/
def Formula.typed : Formula → Postfix.Expr (List UInt8) Operator
  | .operand n => .operand n.digits
  | .binary op left right => .binary op (typed left) (typed right)

theorem tokens_typed (e : Formula) : e.words.map token = (Formula.typed e).tokens := by
  unfold Formula.words
  induction e with
  | operand n => exact congrArg (fun t => [t]) (token_numeral n)
  | binary op left right ihl ihr =>
    have hop : token (word (.operator op)) = .operator op := by cases op <;> rfl
    simp only [List.map_map] at ihl ihr
    simp [Postfix.Expr.tokens, Formula.typed, ihl, ihr, hop]

theorem eval_typed {e : Formula} (h : e.Fits) : (Formula.typed e).eval atol Operator.apply = some e.value := by
  induction e with
  | operand n => exact atol_numeral h
  | binary op left right ihl ihr =>
    obtain ⟨hl, hr, hlong⟩ := h
    rw [Formula.typed, Postfix.Expr.eval, ihl hl, ihr hr]
    cases op with
    | plus => exact if_pos hlong
    | minus => exact if_pos hlong

theorem depth_typed (e : Formula) : (Formula.typed e).depth ≤ e.words.length := by
  unfold Formula.words
  rw [List.length_map]
  induction e with
  | operand n => exact Nat.le_refl 1
  | binary op left right ihl ihr =>
    simp only [Formula.typed, Postfix.Expr.depth, Postfix.Expr.tokens, List.length_append, List.length_singleton]
    have hpos : 0 < left.tokens.length := by
      cases left <;> simp [Postfix.Expr.tokens]
    omega

theorem main_formula {e : Formula} (command : List UInt8) (hfits : e.Fits) (hdepth : e.words.length ≤ stackSize) :
    main (command :: e.words) = some (toInt e.value) := by
  have hroom := depth_typed e
  have hevaluated : Postfix.Evaluated stackSize atol Operator.apply [Formula.typed e] [e.value] :=
    Postfix.Evaluated.snoc .nil (by rw [List.length_nil]; omega) (eval_typed hfits)
  have hrun := hevaluated.run_eq
  rw [List.flatMap_singleton, ← tokens_typed] at hrun
  rw [main_eq, List.drop_one, List.tail_cons, hrun]
  rfl

/-- The room for arguments that `ExecuteFile` hands to `MakeArgv`. -/
def argvLen : Nat := 32

def argbufLen : Nat := 4096 - 8 * argvLen

/-- **A formula that is typed behind the command is calculated.**  Where there is room for its words, `MakeArgv`
passes them, and `main` returns the value as an `int`. -/
theorem typed_formula {e : Formula} {line : List UInt8} (command : List UInt8) (argv : Nat → Nat) (argbuf : Nat → UInt8)
    (hfits : e.Fits) (hline : words (cString line) = e.words) (hslots : e.words.length < argvLen)
    (hbytes : ArgVector.total (command :: e.words) ≤ argbufLen) :
    ∃ v, makeArgv argvLen argbufLen command (some line) (.unset argv argbuf) = some (.kSuccess, v) ∧
      v.argc = e.words.length + 1 ∧ (∀ i w, (command :: e.words)[i]? = some w → v.Points i w) ∧
      main (command :: e.words) = some (toInt e.value) := by
  obtain ⟨d, hpushed⟩ := @ArgVector.pushWords_pushed argvLen argbufLen _ []
    (ArgVector.unset_holds argv argbuf) (by simp) (command :: e.words)
  have hmake := ArgVector.makeArgv_eq argvLen argbufLen command (some line) (.unset argv argbuf)
  rw [Option.map_some, Option.getD_some, hline] at hmake
  rw [List.nil_append] at hpushed
  have hmeets := hpushed.meets_iff.mpr fun i _ _ _ =>
    (ArgVector.total_le_of_isPrefix (List.take_prefix ..)).trans hbytes
  generalize ArgVector.pushWords argvLen argbufLen (command :: e.words) (.unset argv argbuf) = run at hmake hmeets
  obtain ⟨err, v⟩ := run
  rcases hmeets.result with ⟨hsuccess, hargc, hpoints⟩ | hfull
  · subst hsuccess
    refine ⟨v, hmake, hargc, hpoints, main_formula command hfits ?_⟩
    have hstack : argvLen ≤ stackSize := by decide
    omega
  · rcases hmeets.full.mp hfull with hlong | hlong
    · rw [List.length_cons] at hlong
      omega
    · omega

/-- `12 30 -` -/
def exampleFormula : Formula :=
  .binary .minus (.operand ⟨[49, 50], by simp, by simp⟩) (.operand ⟨[51, 48], by simp, by simp⟩)

theorem exampleFormula_fits : exampleFormula.Fits := by
  refine ⟨?_, ?_, ?_⟩
  · show Nat.ofDigits 10 [2, 1] < 2 ^ 63
    decide
  · show Nat.ofDigits 10 [0, 3] < 2 ^ 63
    decide
  · show Long (((Nat.ofDigits 10 [2, 1] : Nat) : Int) - (Nat.ofDigits 10 [0, 3] : Nat))
    decide

/-- The line `rpn 12 30 -`. -/
theorem exampleFormula_typed :
    ∃ v, makeArgv argvLen argbufLen [114, 112, 110] (some [32, 49, 50, 32, 51, 48, 32, 45, 0])
        (.unset (fun _ => 0) fun _ => 0) = some (.kSuccess, v) ∧
      v.argc = 4 ∧ (∀ i w, ([114, 112, 110] :: exampleFormula.words)[i]? = some w → v.Points i w) ∧
      main ([114, 112, 110] :: exampleFormula.words) = some (-18) :=
  typed_formula (e := exampleFormula) [114, 112, 110] (fun _ => 0) (fun _ => 0) exampleFormula_fits (by decide)
    (by decide) (by decide)

end Formulas

end Rpn

end MikanSaos
