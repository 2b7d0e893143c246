/-
bootable/recovery/edify/expr.c: expressions and their evaluation.

An expression holds the function that evaluates it, so evaluation is the run
of that function, in which the arguments are evaluated in turn.  Evaluation
gives nothing where C leaves undefined what happens.
-/
import MetaOS.UpdaterFunctions

namespace MetaOS

namespace Edify

open Updater

/-- The functions an expression can point to: those of expr.c, and those of
the updater. -/
inductive Function where
  | Literal
  | ConcatFn
  | IfElseFn
  | AbortFn
  | AssertFn
  | SleepFn
  | StdoutFn
  | LogicalAndFn
  | LogicalOrFn
  | LogicalNotFn
  | SubstringFn
  | EqualityFn
  | InequalityFn
  | SequenceFn
  | LessThanIntFn
  | GreaterThanIntFn
  | install (fn : InstallFn)
deriving DecidableEq

def Function.body (sha1 : Bytes → Bytes) (name : Bytes) (argc : Nat) :
    Function → Body Outcome
  | Literal => literal name
  | ConcatFn => concatFn argc
  | IfElseFn => ifElseFn argc
  | AbortFn => abortFn argc
  | AssertFn => assertFn argc
  | SleepFn => sleepFn
  | StdoutFn => stdoutFn argc
  | LogicalAndFn => logicalAndFn
  | LogicalOrFn => logicalOrFn
  | LogicalNotFn => logicalNotFn
  | SubstringFn => substringFn
  | EqualityFn => equalityFn
  | InequalityFn => inequalityFn
  | SequenceFn => sequenceFn
  | LessThanIntFn => lessThanIntFn argc id
  | GreaterThanIntFn => greaterThanIntFn argc
  | install fn => fn.body sha1 name argc

/-- `start` and `stop` delimit the text of the script that the expression was
read from. -/
inductive Expr where
  | node (fn : Function) (name : Bytes) (argv : List Expr) (start stop : Int)

def Expr.span : Expr → Int × Int
  | node _ _ _ start stop => (start, stop)

/-- The state of an evaluation, what has been printed, and the rest of the
world. -/
structure State (W : Type) where
  script : Bytes
  errmsg : Option Bytes
  stdout : Bytes
  world : W

/-- What evaluation needs to know of an element of `argv`. -/
structure Argument (W : Type) where
  value : State W → Option (Option Value × State W)
  span : Int × Int

section Evaluation

variable {W : Type}

/-- `Evaluate`, after `EvaluateValue`: a value must be a string. -/
def expectString : Option Value × State W → Option Bytes × State W
  | (none, s) => (none, s)
  | (some (.string data), s) => (some data, s)
  | (some (.blob data), s) =>
      (none, { s with errmsg := some (abortMessage
        (.ofString "expecting string, got value type " ++
          decimal (Value.blob data).type)) })

variable (outside : (e : Outside) → W → e.Answer × W)
  (argv : List (Argument W))

/-- Run a function on its arguments. -/
def interpret {α : Type} : Body α → State W → Option (α × State W)
  | .ret value, s => some (value, s)
  | .call (.evaluate i) next, s => do
      let arg ← argv[i]?
      let (value, s) := expectString (← arg.value s)
      interpret (next value) s
  | .call (.evaluateValue i) next, s => do
      let arg ← argv[i]?
      let (value, s) ← arg.value s
      interpret (next value) s
  | .call (.span i) next, s => do
      let arg ← argv[i]?
      interpret (next arg.span) s
  | .call .script next, s => interpret (next s.script) s
  | .call (.errmsg text) next, s =>
      interpret (next ()) { s with errmsg := some text }
  | .call (.fputs text) next, s =>
      interpret (next ()) { s with stdout := s.stdout ++ text }
  | .call (.sleep _) next, s => interpret (next ()) s
  | .call (.outside e) next, s =>
      let (r, world) := outside e s.world
      interpret (next r) { s with world := world }

theorem interpret_bind {α β : Type} (prog : Body α) (f : α → Body β)
    (s : State W) :
    interpret outside argv (prog >>= f) s =
      (interpret outside argv prog s).bind fun result =>
        interpret outside argv (f result.1) result.2 := by
  induction prog generalizing s with
  | ret value => rfl
  | call c next ih =>
      rw [Prog.call_bind]
      cases c with
      | evaluate i | evaluateValue i =>
          simp only [interpret, Option.bind_eq_bind]
          cases argv[i]? with
          | none => rfl
          | some arg =>
              cases harg : arg.value s with
              | none => simp [harg]
              | some result =>
                  simp only [Option.bind_some, harg]
                  exact ih _ _
      | span i =>
          simp only [interpret, Option.bind_eq_bind]
          cases argv[i]? with
          | none => rfl
          | some arg => exact ih _ _
      | script | errmsg text | fputs text | sleep n | outside e =>
          exact ih _ _

/-- The pointer a function returns. -/
def returned : Outcome × State W → Option (Option Value × State W)
  | (.returned value, s) => some (value, s)
  | (.undefined, _) => none

variable (sha1 : Bytes → Bytes)

mutual

/-- `EvaluateValue` -/
def Expr.evaluateValue : Expr → State W → Option (Option Value × State W)
  | .node fn name argv _ _, s =>
      (interpret outside (evaluateArgs argv) (fn.body sha1 name argv.length)
        s).bind returned

def evaluateArgs : List Expr → List (Argument W)
  | [] => []
  | e :: argv => ⟨e.evaluateValue, e.span⟩ :: evaluateArgs argv

end

/-- `Evaluate` -/
def Expr.evaluate (e : Expr) (s : State W) :
    Option (Option Bytes × State W) :=
  (e.evaluateValue outside sha1 s).map expectString

theorem evaluateValue_node (fn : Function) (name : Bytes) (argv : List Expr)
    (start stop : Int) (s : State W) :
    (Expr.node fn name argv start stop).evaluateValue outside sha1 s =
      (interpret outside (evaluateArgs outside sha1 argv)
        (fn.body sha1 name argv.length) s).bind returned := by
  rw [Expr.evaluateValue]

theorem interpret_assertFailed (i : Nat) (s : State W) :
    interpret outside argv (assertFailed i) s = argv[i]?.bind fun arg =>
      if 0 ≤ arg.span.1 ∧ arg.span.1 ≤ arg.span.2 ∧
          arg.span.2 ≤ s.script.length then
        some (null, { s with errmsg := some (.ofString "assert failed: " ++
          s.script.window arg.span.1.toNat
            (arg.span.2 - arg.span.1).toNat) })
      else some (.undefined, s) := by
  have hspan : interpret outside argv (argSpan i) s =
      argv[i]?.bind fun arg => some (arg.span, s) := rfl
  unfold assertFailed
  rw [interpret_bind, hspan]
  cases argv[i]? with
  | none => rfl
  | some arg =>
      have hscript : interpret outside argv stateScript s =
        some (s.script, s) := rfl
      simp only [Option.bind_some, interpret_bind, hscript]
      split
      · rfl
      · rfl

section Running

variable {outside argv} {β : Type} {a : Argument W} {i : Nat} {s s' : State W}

/-- An argument is evaluated to a string or aborts. -/
theorem interpret_evaluate (value : Option Bytes) (hget : argv[i]? = some a)
    (ha : a.value s = some (value.map .string, s'))
    (k : Option Bytes → Body β) :
    interpret outside argv (Edify.evaluate i >>= k) s =
      interpret outside argv (k value) s' := by
  have hrun : interpret outside argv (Edify.evaluate i) s =
      argv[i]?.bind fun arg => (arg.value s).bind fun result =>
        some (expectString result) := rfl
  rw [interpret_bind, hrun, hget, Option.bind_some, ha]
  cases value with
  | none => rfl
  | some data => rfl

theorem interpret_evaluateValue (value : Option Value)
    (hget : argv[i]? = some a) (ha : a.value s = some (value, s'))
    (k : Option Value → Body β) :
    interpret outside argv (Edify.evaluateValue i >>= k) s =
      interpret outside argv (k value) s' := by
  have hrun : interpret outside argv (Edify.evaluateValue i) s =
      argv[i]?.bind fun arg => (arg.value s).bind fun result =>
        some result := rfl
  rw [interpret_bind, hrun, hget, Option.bind_some, ha]
  rfl

end Running

section Arguments

variable (a : Argument W)

theorem interpret_evaluate_succ {β : Type} (i : Nat)
    (f f' : Option Bytes → Body β) (s : State W)
    (hnext : ∀ value s, interpret outside (a :: argv) (f value) s =
      interpret outside argv (f' value) s) :
    interpret outside (a :: argv) (Edify.evaluate (i + 1) >>= f) s =
      interpret outside argv (Edify.evaluate i >>= f') s := by
  rw [interpret_bind, interpret_bind]
  simp only [hnext]
  rfl

/-- Reading behind the first argument is reading the others. -/
theorem interpret_readEach_succ (i count : Nat) (s : State W) :
    interpret outside (a :: argv) (readEach Edify.evaluate (i + 1) count) s =
      interpret outside argv (readEach Edify.evaluate i count) s := by
  induction count generalizing i s with
  | zero => rfl
  | succ count ih =>
      apply interpret_evaluate_succ
      rintro (_ | arg) s
      · rfl
      · simp only [interpret_bind, ih]
        rfl

theorem interpret_assertFrom_succ (i count : Nat) (s : State W) :
    interpret outside (a :: argv) (assertFrom (i + 1) count) s =
      interpret outside argv (assertFrom i count) s := by
  induction count generalizing i s with
  | zero => rfl
  | succ count ih =>
      apply interpret_evaluate_succ
      rintro (_ | arg) s
      · rfl
      · dsimp only
        split
        · exact ih (i + 1) s
        · rw [interpret_assertFailed, interpret_assertFailed]
          rfl

theorem interpret_stdoutFrom_succ (i count : Nat) (s : State W) :
    interpret outside (a :: argv) (stdoutFrom (i + 1) count) s =
      interpret outside argv (stdoutFrom i count) s := by
  induction count generalizing i s with
  | zero => rfl
  | succ count ih =>
      apply interpret_evaluate_succ
      rintro (_ | arg) s
      · rfl
      · exact ih (i + 1) _

end Arguments

end Evaluation

end Edify

end MetaOS
