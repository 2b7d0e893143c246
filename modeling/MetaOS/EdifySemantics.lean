/-
The language of bootable/recovery/edify/README, and that expr.c evaluates it.

`Term` is the syntax: string literals, the operators, and the builtins with
the arguments they take.  `Evaluates` is its big-step semantics: what an
expression prints, and the value it has or the message it aborts with.  The
expressions that expr.c evaluates are the images of terms.
-/
import MetaOS.EdifyEvaluate

namespace MetaOS

namespace Edify

open Updater

/-- A part of a script. -/
structure Span (script : Bytes) where
  start : Nat
  stop : Nat
  ordered : start ≤ stop
  inside : stop ≤ script.length

def Span.source {script : Bytes} (span : Span script) : Bytes :=
  script.window span.start (span.stop - span.start)

/-- `if` can be written as an operator and as the builtin `ifelse`. -/
inductive Form where
  | operator
  | builtin

/-- An expression of a script, each part with the text it was read from. -/
inductive Term (script : Bytes) where
  | literal (span : Span script) (text : Bytes)
  | sequence (span : Span script) (left right : Term script)
  | plus (span : Span script) (left right : Term script)
  | equal (span : Span script) (left right : Term script)
  | notEqual (span : Span script) (left right : Term script)
  | and (span : Span script) (left right : Term script)
  | or (span : Span script) (left right : Term script)
  | not (span : Span script) (arg : Term script)
  | ifThen (span : Span script) (form : Form) (cond yes : Term script)
  | ifThenElse (span : Span script) (form : Form) (cond yes no : Term script)
  | isSubstring (span : Span script) (needle haystack : Term script)
  | abort (span : Span script) (args : List (Term script))
  | assert (span : Span script) (args : List (Term script))
  | concat (span : Span script) (args : List (Term script))
  | stdout (span : Span script) (args : List (Term script))

namespace Term

variable {script : Bytes}

def span : Term script → Span script
  | literal span _ | sequence span _ _ | plus span _ _ | equal span _ _
  | notEqual span _ _ | and span _ _ | or span _ _ | not span _
  | ifThen span _ _ _ | ifThenElse span _ _ _ _ | isSubstring span _ _
  | abort span _ | assert span _ | concat span _ | stdout span _ => span

/-- What is evaluated first and must not abort. -/
def first? : Term script → Option (Term script)
  | literal _ _ | abort _ _ => none
  | sequence _ left _ | plus _ left _ | equal _ left _ | notEqual _ left _
  | and _ left _ | or _ left _ => some left
  | not _ arg => some arg
  | ifThen _ _ cond _ | ifThenElse _ _ cond _ _ => some cond
  | isSubstring _ needle _ => some needle
  | assert _ args | concat _ args | stdout _ args => args.head?

/-- The strings that stand for true and false. -/
def truth (b : Bool) : Bytes := if b then .ofString "t" else []

/-- A term prints `output` and has a value or aborts with a message. -/
inductive Evaluates : Term script → Bytes → Except Bytes Bytes → Prop
  | literal (span : Span script) (text : Bytes) :
      Evaluates (.literal span text) [] (.ok text)
  | aborts {term first : Term script} {output message : Bytes}
      (hfirst : term.first? = some first)
      (habort : Evaluates first output (.error message)) :
      Evaluates term output (.error message)
  | sequence (span : Span script) {left right : Term script}
      {output output' v : Bytes} {result : Except Bytes Bytes}
      (hleft : Evaluates left output (.ok v))
      (hright : Evaluates right output' result) :
      Evaluates (.sequence span left right) (output ++ output') result
  | plus (span : Span script) {left right : Term script}
      {output output' v : Bytes} {result : Except Bytes Bytes}
      (hleft : Evaluates left output (.ok v))
      (hright : Evaluates right output' result) :
      Evaluates (.plus span left right) (output ++ output')
        (result.map (v ++ ·))
  | equal (span : Span script) {left right : Term script}
      {output output' v : Bytes} {result : Except Bytes Bytes}
      (hleft : Evaluates left output (.ok v))
      (hright : Evaluates right output' result) :
      Evaluates (.equal span left right) (output ++ output')
        (result.map fun w => truth (decide (v = w)))
  | notEqual (span : Span script) {left right : Term script}
      {output output' v : Bytes} {result : Except Bytes Bytes}
      (hleft : Evaluates left output (.ok v))
      (hright : Evaluates right output' result) :
      Evaluates (.notEqual span left right) (output ++ output')
        (result.map fun w => truth (decide (v ≠ w)))
  | andTrue (span : Span script) {left right : Term script}
      {output output' v : Bytes} {result : Except Bytes Bytes}
      (hleft : Evaluates left output (.ok v)) (htrue : v ≠ [])
      (hright : Evaluates right output' result) :
      Evaluates (.and span left right) (output ++ output') result
  | andFalse (span : Span script) {left : Term script}
      (right : Term script) {output : Bytes}
      (hleft : Evaluates left output (.ok [])) :
      Evaluates (.and span left right) output (.ok [])
  | orTrue (span : Span script) {left : Term script} (right : Term script)
      {output v : Bytes} (hleft : Evaluates left output (.ok v))
      (htrue : v ≠ []) :
      Evaluates (.or span left right) output (.ok v)
  | orFalse (span : Span script) {left right : Term script}
      {output output' : Bytes} {result : Except Bytes Bytes}
      (hleft : Evaluates left output (.ok []))
      (hright : Evaluates right output' result) :
      Evaluates (.or span left right) (output ++ output') result
  | not (span : Span script) {arg : Term script} {output v : Bytes}
      (harg : Evaluates arg output (.ok v)) :
      Evaluates (.not span arg) output (.ok (truth (decide (v = []))))
  | thenTrue (span : Span script) (form : Form) {cond yes : Term script}
      {output output' v : Bytes} {result : Except Bytes Bytes}
      (hcond : Evaluates cond output (.ok v)) (htrue : v ≠ [])
      (hyes : Evaluates yes output' result) :
      Evaluates (.ifThen span form cond yes) (output ++ output') result
  | thenFalse (span : Span script) (form : Form) {cond : Term script}
      (yes : Term script) {output : Bytes}
      (hcond : Evaluates cond output (.ok [])) :
      Evaluates (.ifThen span form cond yes) output (.ok [])
  | elseTrue (span : Span script) (form : Form) {cond yes : Term script}
      (no : Term script) {output output' v : Bytes}
      {result : Except Bytes Bytes}
      (hcond : Evaluates cond output (.ok v)) (htrue : v ≠ [])
      (hyes : Evaluates yes output' result) :
      Evaluates (.ifThenElse span form cond yes no) (output ++ output') result
  | elseFalse (span : Span script) (form : Form) {cond no : Term script}
      (yes : Term script) {output output' : Bytes}
      {result : Except Bytes Bytes}
      (hcond : Evaluates cond output (.ok []))
      (hno : Evaluates no output' result) :
      Evaluates (.ifThenElse span form cond yes no) (output ++ output') result
  | isSubstring (span : Span script) {needle haystack : Term script}
      {output output' v : Bytes} {result : Except Bytes Bytes}
      (hneedle : Evaluates needle output (.ok v))
      (hhaystack : Evaluates haystack output' result) :
      Evaluates (.isSubstring span needle haystack) (output ++ output')
        (result.map fun w => truth (decide (v <:+: w)))
  | abortPlain (span : Span script) :
      Evaluates (.abort span []) [] (.error (.ofString "called abort()"))
  | abortMessage (span : Span script) {arg : Term script}
      (rest : List (Term script)) {output message : Bytes}
      (harg : Evaluates arg output (.ok message)) :
      Evaluates (.abort span (arg :: rest)) output (.error message)
  | abortAborted (span : Span script) {arg : Term script}
      (rest : List (Term script)) {output message : Bytes}
      (harg : Evaluates arg output (.error message)) :
      Evaluates (.abort span (arg :: rest)) output
        (.error (.ofString "called abort()"))
  | assertNil (span : Span script) : Evaluates (.assert span []) [] (.ok [])
  | assertTrue (span : Span script) {arg : Term script}
      {rest : List (Term script)} {output output' v : Bytes}
      {result : Except Bytes Bytes} (harg : Evaluates arg output (.ok v))
      (htrue : v ≠ [])
      (hrest : Evaluates (.assert span rest) output' result) :
      Evaluates (.assert span (arg :: rest)) (output ++ output') result
  | assertFalse (span : Span script) {arg : Term script}
      (rest : List (Term script)) {output : Bytes}
      (harg : Evaluates arg output (.ok [])) :
      Evaluates (.assert span (arg :: rest)) output
        (.error (.ofString "assert failed: " ++ arg.span.source))
  | concatNil (span : Span script) : Evaluates (.concat span []) [] (.ok [])
  | concatCons (span : Span script) {arg : Term script}
      {rest : List (Term script)} {output output' v : Bytes}
      {result : Except Bytes Bytes} (harg : Evaluates arg output (.ok v))
      (hrest : Evaluates (.concat span rest) output' result) :
      Evaluates (.concat span (arg :: rest)) (output ++ output')
        (result.map (v ++ ·))
  | stdoutNil (span : Span script) : Evaluates (.stdout span []) [] (.ok [])
  | stdoutCons (span : Span script) {arg : Term script}
      {rest : List (Term script)} {output output' v : Bytes}
      {result : Except Bytes Bytes} (harg : Evaluates arg output (.ok v))
      (hrest : Evaluates (.stdout span rest) output' result) :
      Evaluates (.stdout span (arg :: rest)) (output ++ v ++ output') result

def Form.name : Form → Bytes
  | .operator => .ofString "(operator)"
  | .builtin => .ofString "ifelse"

/-- The node that `Build` makes, or the one of a call. -/
def build (fn : Function) (span : Span script) (name : Bytes)
    (argv : List Expr) : Expr :=
  .node fn name argv span.start span.stop

def operator : Bytes := .ofString "(operator)"

mutual

/-- The expression that the parser makes of a term. -/
def toExpr : Term script → Expr
  | .literal span text => build .Literal span text []
  | .sequence span left right =>
      build .SequenceFn span operator [left.toExpr, right.toExpr]
  | .plus span left right =>
      build .ConcatFn span operator [left.toExpr, right.toExpr]
  | .equal span left right =>
      build .EqualityFn span operator [left.toExpr, right.toExpr]
  | .notEqual span left right =>
      build .InequalityFn span operator [left.toExpr, right.toExpr]
  | .and span left right =>
      build .LogicalAndFn span operator [left.toExpr, right.toExpr]
  | .or span left right =>
      build .LogicalOrFn span operator [left.toExpr, right.toExpr]
  | .not span arg => build .LogicalNotFn span operator [arg.toExpr]
  | .ifThen span form cond yes =>
      build .IfElseFn span (Form.name form) [cond.toExpr, yes.toExpr]
  | .ifThenElse span form cond yes no =>
      build .IfElseFn span (Form.name form)
        [cond.toExpr, yes.toExpr, no.toExpr]
  | .isSubstring span needle haystack =>
      build .SubstringFn span (.ofString "is_substring")
        [needle.toExpr, haystack.toExpr]
  | .abort span args => build .AbortFn span (.ofString "abort") (toExprs args)
  | .assert span args =>
      build .AssertFn span (.ofString "assert") (toExprs args)
  | .concat span args =>
      build .ConcatFn span (.ofString "concat") (toExprs args)
  | .stdout span args =>
      build .StdoutFn span (.ofString "stdout") (toExprs args)

def toExprs : List (Term script) → List Expr
  | [] => []
  | arg :: args => arg.toExpr :: toExprs args

end

end Term

/-- The state after an evaluation. -/
def State.after {W : Type} (s : State W) (output : Bytes)
    (result : Except Bytes Bytes) : State W :=
  { s with
    stdout := s.stdout ++ output
    errmsg := match result with
      | .ok _ => s.errmsg
      | .error message => some message }

/-- The pointer that is returned. -/
def pointer (result : Except Bytes Bytes) : Option Value :=
  result.toOption.map .string

section Soundness

variable {W : Type} {script : Bytes}
  (outside : (e : Outside) → W → e.Answer × W) (sha1 : Bytes → Bytes)

theorem after_after (s : State W) (output output' v : Bytes)
    (result : Except Bytes Bytes) :
    (s.after output (.ok v)).after output' result =
      s.after (output ++ output') result := by
  simp only [State.after, List.append_assoc]

/-- Evaluating the term gives the result. -/
def Term.Gives (term : Term script) (s : State W) (output : Bytes)
    (result : Except Bytes Bytes) : Prop :=
  term.toExpr.evaluateValue outside sha1 s =
    some (pointer result, s.after output result)

def Term.argument (term : Term script) : Argument W :=
  ⟨term.toExpr.evaluateValue outside sha1, term.toExpr.span⟩

/-- Running a function on its arguments gives the result. -/
def FnGives (argv : List (Argument W)) (fn : Body Outcome) (s : State W)
    (output : Bytes) (result : Except Bytes Bytes) : Prop :=
  (interpret outside argv fn s).bind returned =
    some (pointer result, s.after output result)

variable {outside sha1} {s : State W} {argv : List (Argument W)} {i : Nat}
  {arg : Term script} {output output' v w message : Bytes}
  {result : Except Bytes Bytes}

theorem fnGives_string (w : Bytes) :
    FnGives outside argv (pure (stringValue (some w))) s [] (.ok w) := by
  simp [FnGives, interpret, returned, stringValue, pointer, State.after,
    Except.toOption]

theorem interpret_argument (harg : arg.Gives outside sha1 s output result)
    {β : Type} (k : Option Bytes → Body β)
    (hget : argv[i]? = some (arg.argument outside sha1)) :
    interpret outside argv (evaluate i >>= k) s =
      interpret outside argv (k result.toOption) (s.after output result) :=
  interpret_evaluate result.toOption hget harg k

/-- The argument has a value, and the function goes on with it. -/
theorem fnGives_evaluate {k : Option Bytes → Body Outcome}
    (hget : argv[i]? = some (arg.argument outside sha1))
    (harg : arg.Gives outside sha1 s output (.ok v))
    (hnext : FnGives outside argv (k (some v)) (s.after output (.ok v))
      output' result) :
    FnGives outside argv (evaluate i >>= k) s (output ++ output') result := by
  unfold FnGives
  rw [interpret_argument harg k hget, ← after_after]
  exact hnext

/-- The value of the argument decides the value of the function. -/
theorem fnGives_evaluate_pure {k : Option Bytes → Body Outcome}
    (hget : argv[i]? = some (arg.argument outside sha1))
    (harg : arg.Gives outside sha1 s output (.ok v))
    (hnext : k (some v) = pure (stringValue (some w))) :
    FnGives outside argv (evaluate i >>= k) s output (.ok w) := by
  rw [← List.append_nil output]
  apply fnGives_evaluate hget harg
  rw [hnext]
  exact fnGives_string w

/-- The argument aborts, and so does the function. -/
theorem fnGives_evaluate_error {k : Option Bytes → Body Outcome}
    (hget : argv[i]? = some (arg.argument outside sha1))
    (harg : arg.Gives outside sha1 s output (.error message))
    (hnext : k none = pure null) :
    FnGives outside argv (evaluate i >>= k) s output (.error message) := by
  unfold FnGives
  rw [interpret_argument harg k hget]
  change (interpret outside argv (k none) _).bind _ = _
  rw [hnext]
  rfl

/-- The last argument decides the value of the function through `f`. -/
theorem fnGives_evaluate_map {k : Option Bytes → Body Outcome}
    (f : Bytes → Bytes) (hget : argv[i]? = some (arg.argument outside sha1))
    (harg : arg.Gives outside sha1 s output result)
    (hnext : ∀ w, k (some w) = pure (stringValue (some (f w))))
    (hnone : k none = pure null) :
    FnGives outside argv (evaluate i >>= k) s output (result.map f) := by
  cases result with
  | ok w => exact fnGives_evaluate_pure hget harg (hnext w)
  | error message => exact fnGives_evaluate_error hget harg hnone

theorem fnGives_evaluateValue {k : Option Value → Body Outcome}
    (hget : argv[i]? = some (arg.argument outside sha1))
    (harg : arg.Gives outside sha1 s output (.ok v))
    (hnext : FnGives outside argv (k (some (.string v)))
      (s.after output (.ok v)) output' result) :
    FnGives outside argv (evaluateValue i >>= k) s (output ++ output')
      result := by
  unfold FnGives
  rw [interpret_evaluateValue _ hget harg, ← after_after]
  exact hnext

theorem fnGives_evaluateValue_error {k : Option Value → Body Outcome}
    (hget : argv[i]? = some (arg.argument outside sha1))
    (harg : arg.Gives outside sha1 s output (.error message))
    (hnext : k none = pure null) :
    FnGives outside argv (evaluateValue i >>= k) s output
      (.error message) := by
  unfold FnGives
  rw [interpret_evaluateValue _ hget harg]
  change (interpret outside argv (k none) _).bind _ = _
  rw [hnext]
  rfl

/-- The function returns what its argument is evaluated to. -/
theorem fnGives_tail (hget : argv[i]? = some (arg.argument outside sha1))
    (harg : arg.Gives outside sha1 s output result) :
    FnGives outside argv (do return .returned (← evaluateValue i)) s output
      result := by
  unfold FnGives
  rw [interpret_evaluateValue _ hget harg]
  rfl

theorem Term.gives_of_fn {term : Term script} {fn : Function}
    {span : Span script} {name : Bytes} {exprs : List Expr}
    (hexpr : term.toExpr = Term.build fn span name exprs)
    (hfn : FnGives outside (evaluateArgs outside sha1 exprs)
      (fn.body sha1 name exprs.length) s output result) :
    term.Gives outside sha1 s output result := by
  unfold Term.Gives
  rw [hexpr, Term.build, evaluateValue_node]
  exact hfn

section Lists

theorem interpret_concatFn (argc : Nat) (s : State W) :
    interpret outside argv (concatFn argc) s =
      (interpret outside argv (readEach evaluate 0 argc) s).bind fun result =>
        some (stringValue (result.1.map List.flatten), result.2) := by
  unfold concatFn
  split
  next hzero =>
    subst hzero
    rfl
  next =>
    rw [interpret_bind]
    rfl

theorem fnGives_concat_error
    (harg : arg.Gives outside sha1 s output (.error message)) (argc : Nat) :
    FnGives outside (arg.argument outside sha1 :: argv) (concatFn (argc + 1))
      s output (.error message) := by
  unfold FnGives
  rw [interpret_concatFn, readEach, interpret_argument harg _ rfl]
  rfl

theorem fnGives_concat_cons
    (harg : arg.Gives outside sha1 s output (.ok v)) {argc : Nat}
    (hrest : FnGives outside argv (concatFn argc) (s.after output (.ok v))
      output' result) :
    FnGives outside (arg.argument outside sha1 :: argv) (concatFn (argc + 1))
      s (output ++ output') (result.map (v ++ ·)) := by
  unfold FnGives at hrest ⊢
  rw [interpret_concatFn] at hrest
  rw [interpret_concatFn, readEach, interpret_argument harg _ rfl]
  simp only [Except.toOption]
  rw [interpret_bind, interpret_readEach_succ,
    ← after_after s output output' v]
  cases hread : interpret outside argv (readEach evaluate 0 argc)
      (s.after output (.ok v)) with
  | none =>
      rw [hread] at hrest
      cases hrest
  | some read =>
      obtain ⟨strings, s'⟩ := read
      rw [hread] at hrest
      obtain ⟨hvalue, rfl⟩ := Prod.mk.inj (Option.some.inj hrest)
      cases strings with
      | none =>
          cases result with
          | ok w => cases hvalue
          | error message => rfl
      | some strings =>
          cases result with
          | ok w =>
              obtain rfl : strings.flatten = w :=
                Value.string.inj (Option.some.inj hvalue)
              rfl
          | error message => cases hvalue

theorem fnGives_concat_one (harg : arg.Gives outside sha1 s output result) :
    FnGives outside [arg.argument outside sha1] (concatFn 1) s output
      result := by
  cases result with
  | ok w =>
      have hnone : FnGives outside ([] : List (Argument W)) (concatFn 0)
          (s.after output (.ok w)) [] (.ok []) := fnGives_string []
      simpa [Except.map] using fnGives_concat_cons harg hnone
  | error message => exact fnGives_concat_error harg 0

/-- Behind the first argument, `assert` goes on with the others. -/
theorem fnGives_assert_cons
    (harg : arg.Gives outside sha1 s output (.ok v)) (htrue : v ≠ [])
    {argc : Nat}
    (hrest : FnGives outside argv (assertFn argc) (s.after output (.ok v))
      output' result) :
    FnGives outside (arg.argument outside sha1 :: argv) (assertFn (argc + 1))
      s (output ++ output') result := by
  apply fnGives_evaluate rfl harg
  unfold FnGives at hrest ⊢
  dsimp only
  rw [if_pos (by simp [booleanString, htrue]), interpret_assertFrom_succ]
  exact hrest

theorem toExpr_span (term : Term script) :
    term.toExpr.span = ((term.span.start : Int), (term.span.stop : Int)) := by
  cases term <;> rfl

/-- The message on an argument that is false is its text. -/
theorem fnGives_assert_false (hscript : s.script = script)
    (harg : arg.Gives outside sha1 s output (.ok [])) (argc : Nat) :
    FnGives outside (arg.argument outside sha1 :: argv) (assertFn (argc + 1))
      s output (.error (.ofString "assert failed: " ++ arg.span.source)) := by
  have hinside := arg.span.inside
  have hordered := arg.span.ordered
  unfold FnGives
  rw [assertFn, assertFrom, interpret_argument harg _ rfl]
  change (interpret outside _ (assertFailed 0) _).bind _ = _
  rw [interpret_assertFailed]
  simp only [List.getElem?_cons_zero, Option.bind_some, Term.argument,
    toExpr_span]
  rw [if_pos ⟨by omega, by omega, by simp only [State.after, hscript]; omega⟩]
  simp [State.after, hscript, Span.source, returned, null, pointer,
    Except.toOption]

/-- The message of `abort`, whatever comes of its argument. -/
def abortText : Except Bytes Bytes → Bytes
  | .ok message => message
  | .error _ => .ofString "called abort()"

theorem fnGives_abort_cons (harg : arg.Gives outside sha1 s output result)
    (argc : Nat) :
    FnGives outside (arg.argument outside sha1 :: argv) (abortFn (argc + 1))
      s output (.error (abortText result)) := by
  unfold FnGives
  rw [abortFn, if_pos (Nat.succ_pos argc), interpret_argument harg _ rfl]
  cases result with
  | ok message => rfl
  | error message => rfl

theorem fnGives_stdout_cons
    (harg : arg.Gives outside sha1 s output (.ok v)) {argc : Nat}
    (hrest : FnGives outside argv (stdoutFn argc)
      (s.after (output ++ v) (.ok v)) output' result) :
    FnGives outside (arg.argument outside sha1 :: argv) (stdoutFn (argc + 1))
      s (output ++ v ++ output') result := by
  unfold FnGives at hrest ⊢
  rw [stdoutFn, stdoutFrom, interpret_argument harg _ rfl]
  have hprinted : interpret outside (arg.argument outside sha1 :: argv)
      (stdoutFrom 1 argc) (s.after (output ++ v) (.ok v)) =
      interpret outside argv (stdoutFn argc) (s.after (output ++ v) (.ok v)) :=
    interpret_stdoutFrom_succ outside argv _ 0 argc _
  rw [← hprinted, after_after] at hrest
  rw [← hrest]
  simp only [State.after, ← List.append_assoc]
  rfl

end Lists

/-- A term aborts with what it evaluates first. -/
theorem gives_of_first {term first : Term script}
    (hfirst : term.first? = some first)
    (habort : first.Gives outside sha1 s output (.error message)) :
    term.Gives outside sha1 s output (.error message) := by
  cases term with
  | literal | abort => cases hfirst
  | sequence span left right =>
      cases hfirst
      exact Term.gives_of_fn rfl (fnGives_evaluateValue_error rfl habort rfl)
  | plus span left right =>
      cases hfirst
      exact Term.gives_of_fn rfl (fnGives_concat_error habort 1)
  | equal | notEqual | and | or | not | isSubstring =>
      cases hfirst
      exact Term.gives_of_fn rfl (fnGives_evaluate_error rfl habort rfl)
  | ifThen | ifThenElse =>
      cases hfirst
      exact Term.gives_of_fn rfl (fnGives_evaluate_error rfl habort rfl)
  | assert span args =>
      obtain ⟨rest, rfl⟩ := List.head?_eq_some_iff.mp hfirst
      exact Term.gives_of_fn rfl (fnGives_evaluate_error rfl habort rfl)
  | concat span args =>
      obtain ⟨rest, rfl⟩ := List.head?_eq_some_iff.mp hfirst
      exact Term.gives_of_fn rfl (fnGives_concat_error habort _)
  | stdout span args =>
      obtain ⟨rest, rfl⟩ := List.head?_eq_some_iff.mp hfirst
      exact Term.gives_of_fn rfl (fnGives_evaluate_error rfl habort rfl)

theorem fnGives_compare {left right : Term script}
    (holds : Bytes → Bytes → Bool)
    (hleft : left.Gives outside sha1 s output (.ok v))
    (hright : right.Gives outside sha1 (s.after output (.ok v)) output'
      result) :
    FnGives outside (evaluateArgs outside sha1 [left.toExpr, right.toExpr])
      (compareFn holds) s (output ++ output')
      (result.map fun w => Term.truth (holds v w)) := by
  apply fnGives_evaluate rfl hleft
  apply fnGives_evaluate_map _ rfl hright
  · intro w
    cases hholds : holds v w with
    | true => simp [hholds, Term.truth, text]
    | false => simp [hholds, Term.truth, text]; rfl
  · rfl

theorem fnGives_ifElse_true {name : Bytes} {cond yes : Term script}
    {exprs : List Expr} (hargc : exprs.length = 0 ∨ exprs.length = 1)
    (hcond : cond.Gives outside sha1 s output (.ok v)) (htrue : v ≠ [])
    (hyes : yes.Gives outside sha1 (s.after output (.ok v)) output' result) :
    FnGives outside
      (evaluateArgs outside sha1 (cond.toExpr :: yes.toExpr :: exprs))
      (Function.IfElseFn.body sha1 name (exprs.length + 2)) s
      (output ++ output') result := by
  unfold Function.body ifElseFn
  rw [if_neg (by omega)]
  apply fnGives_evaluate rfl hcond
  dsimp only
  rw [if_pos (by simp [booleanString, htrue])]
  exact fnGives_tail rfl hyes

/-- The semantics is what is evaluated. -/
theorem gives_of_evaluates {term : Term script}
    (heval : term.Evaluates output result) {s : State W}
    (hscript : s.script = script) :
    term.Gives outside sha1 s output result := by
  induction heval generalizing s with
  | literal span text => exact Term.gives_of_fn rfl (fnGives_string text)
  | aborts hfirst _ ih => exact gives_of_first hfirst (ih hscript)
  | sequence span _ _ ihleft ihright =>
      exact Term.gives_of_fn rfl (fnGives_evaluateValue rfl (ihleft hscript)
        (fnGives_tail rfl (ihright hscript)))
  | plus span _ _ ihleft ihright =>
      apply Term.gives_of_fn rfl
      exact fnGives_concat_cons (ihleft hscript)
        (fnGives_concat_one (ihright hscript))
  | equal span _ _ ihleft ihright =>
      exact Term.gives_of_fn rfl
        (fnGives_compare _ (ihleft hscript) (ihright hscript))
  | notEqual span _ _ ihleft ihright =>
      exact Term.gives_of_fn rfl
        (fnGives_compare _ (ihleft hscript) (ihright hscript))
  | isSubstring span _ _ ihneedle ihhaystack =>
      exact Term.gives_of_fn rfl
        (fnGives_compare _ (ihneedle hscript) (ihhaystack hscript))
  | andTrue span _ htrue _ ihleft ihright =>
      apply Term.gives_of_fn rfl
      apply fnGives_evaluate rfl (ihleft hscript)
      dsimp only
      rw [if_pos (by simp [booleanString, htrue])]
      exact fnGives_tail rfl (ihright hscript)
  | andFalse span right _ ih =>
      exact Term.gives_of_fn rfl
        (fnGives_evaluate_pure rfl (ih hscript) rfl)
  | orTrue span right _ htrue ih =>
      apply Term.gives_of_fn rfl
      apply fnGives_evaluate_pure rfl (ih hscript)
      dsimp only
      rw [if_neg (by simp [booleanString, htrue])]
  | orFalse span _ _ ihleft ihright =>
      exact Term.gives_of_fn rfl (fnGives_evaluate rfl (ihleft hscript)
        (fnGives_tail rfl (ihright hscript)))
  | not span harg ih =>
      rename_i arg output v
      apply Term.gives_of_fn rfl
      apply fnGives_evaluate_pure rfl (ih hscript)
      cases v with
      | nil => rfl
      | cons c v => rfl
  | thenTrue span form _ htrue _ ihcond ihyes =>
      exact Term.gives_of_fn rfl (fnGives_ifElse_true (.inl rfl)
        (ihcond hscript) htrue (ihyes hscript))
  | thenFalse span form yes _ ih =>
      exact Term.gives_of_fn rfl
        (fnGives_evaluate_pure rfl (ih hscript) rfl)
  | elseTrue span form no _ htrue _ ihcond ihyes =>
      exact Term.gives_of_fn rfl (fnGives_ifElse_true (.inr rfl)
        (ihcond hscript) htrue (ihyes hscript))
  | elseFalse span form yes _ _ ihcond ihno =>
      exact Term.gives_of_fn rfl (fnGives_evaluate rfl (ihcond hscript)
        (fnGives_tail rfl (ihno hscript)))
  | abortPlain span =>
      apply Term.gives_of_fn rfl
      simp only [FnGives, State.after, List.append_nil]
      rfl
  | abortMessage span rest _ ih =>
      exact Term.gives_of_fn rfl (fnGives_abort_cons (ih hscript)
        (Term.toExprs rest).length)
  | abortAborted span rest _ ih =>
      exact Term.gives_of_fn rfl (fnGives_abort_cons (ih hscript)
        (Term.toExprs rest).length)
  | assertNil span => exact Term.gives_of_fn rfl (fnGives_string [])
  | assertTrue span _ htrue _ iharg ihrest =>
      exact Term.gives_of_fn rfl
        (fnGives_assert_cons (iharg hscript) htrue (ihrest hscript))
  | assertFalse span rest _ ih =>
      exact Term.gives_of_fn rfl
        (fnGives_assert_false hscript (ih hscript) _)
  | concatNil span => exact Term.gives_of_fn rfl (fnGives_string [])
  | concatCons span _ _ iharg ihrest =>
      exact Term.gives_of_fn rfl
        (fnGives_concat_cons (iharg hscript) (ihrest hscript))
  | stdoutNil span => exact Term.gives_of_fn rfl (fnGives_string [])
  | stdoutCons span _ _ iharg ihrest =>
      exact Term.gives_of_fn rfl
        (fnGives_stdout_cons (iharg hscript) (ihrest hscript))

end Soundness

namespace Term

variable {script : Bytes}

/-- The term has a result. -/
def Total (term : Term script) : Prop :=
  ∃ output result, term.Evaluates output result

theorem Total.of_first {term first : Term script}
    (hfirst : term.first? = some first) (htotal : first.Total)
    (hok : ∀ output v, first.Evaluates output (.ok v) → term.Total) :
    term.Total := by
  obtain ⟨output, message | v, heval⟩ := htotal
  · exact ⟨output, .error message, .aborts hfirst heval⟩
  · exact hok output v heval

theorem Total.assert {span : Span script} {args : List (Term script)}
    (hargs : ∀ arg ∈ args, arg.Total) : (Term.assert span args).Total := by
  induction args with
  | nil => exact ⟨[], .ok [], .assertNil span⟩
  | cons arg rest ih =>
      apply Total.of_first rfl (hargs arg (List.mem_cons_self ..))
      intro output v heval
      by_cases hv : v = []
      · subst hv
        exact ⟨output, _, .assertFalse span rest heval⟩
      · obtain ⟨output', result, hrest⟩ :=
          ih fun arg harg => hargs arg (List.mem_cons_of_mem _ harg)
        exact ⟨_, result, .assertTrue span heval hv hrest⟩

theorem Total.concat {span : Span script} {args : List (Term script)}
    (hargs : ∀ arg ∈ args, arg.Total) : (Term.concat span args).Total := by
  induction args with
  | nil => exact ⟨[], .ok [], .concatNil span⟩
  | cons arg rest ih =>
      apply Total.of_first rfl (hargs arg (List.mem_cons_self ..))
      intro output v heval
      obtain ⟨output', result, hrest⟩ :=
        ih fun arg harg => hargs arg (List.mem_cons_of_mem _ harg)
      exact ⟨_, _, .concatCons span heval hrest⟩

theorem Total.stdout {span : Span script} {args : List (Term script)}
    (hargs : ∀ arg ∈ args, arg.Total) : (Term.stdout span args).Total := by
  induction args with
  | nil => exact ⟨[], .ok [], .stdoutNil span⟩
  | cons arg rest ih =>
      apply Total.of_first rfl (hargs arg (List.mem_cons_self ..))
      intro output v heval
      obtain ⟨output', result, hrest⟩ :=
        ih fun arg harg => hargs arg (List.mem_cons_of_mem _ harg)
      exact ⟨_, _, .stdoutCons span heval hrest⟩

theorem Total.abort {span : Span script} {args : List (Term script)}
    (hargs : ∀ arg ∈ args, arg.Total) : (Term.abort span args).Total := by
  cases args with
  | nil => exact ⟨[], _, .abortPlain span⟩
  | cons arg rest =>
      obtain ⟨output, message | message, heval⟩ :=
        hargs arg (List.mem_cons_self ..)
      · exact ⟨output, _, .abortAborted span rest heval⟩
      · exact ⟨output, _, .abortMessage span rest heval⟩

theorem total : (term : Term script) → term.Total
  | .literal span text => ⟨[], .ok text, .literal span text⟩
  | .sequence span left right =>
      .of_first rfl left.total fun _ _ hleft =>
        let ⟨_, result, hright⟩ := right.total
        ⟨_, result, .sequence span hleft hright⟩
  | .plus span left right =>
      .of_first rfl left.total fun _ _ hleft =>
        let ⟨_, _, hright⟩ := right.total
        ⟨_, _, .plus span hleft hright⟩
  | .equal span left right =>
      .of_first rfl left.total fun _ _ hleft =>
        let ⟨_, _, hright⟩ := right.total
        ⟨_, _, .equal span hleft hright⟩
  | .notEqual span left right =>
      .of_first rfl left.total fun _ _ hleft =>
        let ⟨_, _, hright⟩ := right.total
        ⟨_, _, .notEqual span hleft hright⟩
  | .isSubstring span needle haystack =>
      .of_first rfl needle.total fun _ _ hneedle =>
        let ⟨_, _, hhaystack⟩ := haystack.total
        ⟨_, _, .isSubstring span hneedle hhaystack⟩
  | .and span left right => by
      apply Total.of_first rfl left.total
      intro output v hleft
      by_cases hv : v = []
      · subst hv
        exact ⟨output, .ok [], .andFalse span right hleft⟩
      · obtain ⟨output', result, hright⟩ := right.total
        exact ⟨_, result, .andTrue span hleft hv hright⟩
  | .or span left right => by
      apply Total.of_first rfl left.total
      intro output v hleft
      by_cases hv : v = []
      · subst hv
        obtain ⟨output', result, hright⟩ := right.total
        exact ⟨_, result, .orFalse span hleft hright⟩
      · exact ⟨output, .ok v, .orTrue span right hleft hv⟩
  | .not span arg =>
      .of_first rfl arg.total fun output _ harg =>
        ⟨output, _, .not span harg⟩
  | .ifThen span form cond yes => by
      apply Total.of_first rfl cond.total
      intro output v hcond
      by_cases hv : v = []
      · subst hv
        exact ⟨output, .ok [], .thenFalse span form yes hcond⟩
      · obtain ⟨output', result, hyes⟩ := yes.total
        exact ⟨_, result, .thenTrue span form hcond hv hyes⟩
  | .ifThenElse span form cond yes no => by
      apply Total.of_first rfl cond.total
      intro output v hcond
      by_cases hv : v = []
      · subst hv
        obtain ⟨output', result, hno⟩ := no.total
        exact ⟨_, result, .elseFalse span form yes hcond hno⟩
      · obtain ⟨output', result, hyes⟩ := yes.total
        exact ⟨_, result, .elseTrue span form no hcond hv hyes⟩
  | .abort _ args => .abort fun arg _ => arg.total
  | .assert _ args => .assert fun arg _ => arg.total
  | .concat _ args => .concat fun arg _ => arg.total
  | .stdout _ args => .stdout fun arg _ => arg.total

end Term

section Agreement

variable {W : Type} (outside : (e : Outside) → W → e.Answer × W)
  (sha1 : Bytes → Bytes)

theorem after_injective {s : State W} {output output' : Bytes}
    {result result' : Except Bytes Bytes}
    (hvalue : result.toOption = result'.toOption)
    (hafter : s.after output result = s.after output' result') :
    output = output' ∧ result = result' := by
  have hstdout : s.stdout ++ output = s.stdout ++ output' :=
    congrArg State.stdout hafter
  refine ⟨List.append_cancel_left hstdout, ?_⟩
  cases result with
  | ok v =>
      cases result' with
      | ok w => exact congrArg Except.ok (Option.some.inj hvalue)
      | error message => cases hvalue
  | error message =>
      cases result' with
      | ok w => cases hvalue
      | error message' =>
          have herrmsg : some message = some message' :=
            congrArg State.errmsg hafter
          exact congrArg Except.error (Option.some.inj herrmsg)

/-- `Evaluate` and `EvaluateValue` return the value, print the output and set
the message that the semantics gives, and it gives exactly one of each. -/
theorem evaluates_iff_evaluation (s : State W) (term : Term s.script) :
    (∃ output result, term.Evaluates output result) ∧
      ∀ output result,
        (term.Evaluates output result ↔
          term.toExpr.evaluateValue outside sha1 s =
            some (pointer result, s.after output result)) ∧
        (term.Evaluates output result ↔
          term.toExpr.evaluate outside sha1 s =
            some (result.toOption, s.after output result)) := by
  refine ⟨term.total, fun output result => ?_⟩
  obtain ⟨output', result', heval⟩ := term.total
  have hvalue : term.toExpr.evaluateValue outside sha1 s =
      some (pointer result', s.after output' result') :=
    gives_of_evaluates heval rfl
  have hstring : term.toExpr.evaluate outside sha1 s =
      some (result'.toOption, s.after output' result') := by
    rw [Expr.evaluate, hvalue]
    cases result' with
    | ok v => rfl
    | error message => rfl
  constructor
  · constructor
    · exact fun hgiven => gives_of_evaluates hgiven rfl
    · intro hgiven
      obtain ⟨hpointer, hafter⟩ :=
        Prod.mk.inj (Option.some.inj (hvalue.symm.trans hgiven))
      have hoption : result'.toOption = result.toOption :=
        Option.map_injective (fun _ _ => Value.string.inj) hpointer
      obtain ⟨rfl, rfl⟩ := after_injective hoption hafter
      exact heval
  · rw [hstring]
    constructor
    · intro hgiven
      have hsame := (hvalue.symm.trans (gives_of_evaluates hgiven rfl))
      obtain ⟨hpointer, hafter⟩ := Prod.mk.inj (Option.some.inj hsame)
      have hoption : result'.toOption = result.toOption :=
        Option.map_injective (fun _ _ => Value.string.inj) hpointer
      rw [hoption, hafter]
    · intro hgiven
      obtain ⟨hoption, hafter⟩ := Prod.mk.inj (Option.some.inj hgiven)
      obtain ⟨rfl, rfl⟩ := after_injective hoption hafter
      exact heval

end Agreement

namespace EdifySemanticsExample

def script : Bytes := .ofString "stdout(a); assert(b == c)"

/-- The text between two places of the script. -/
def within (start stop : Fin 26) (h : start ≤ stop) : Span script where
  start := start
  stop := stop
  ordered := h
  inside := Nat.le_of_lt_succ stop.isLt

def letter (pos : Fin 25) : Term script :=
  .literal (within pos.castSucc pos.succ (Fin.castSucc_lt_succ.le))
    [script.get pos]

def printed : Term script := .stdout (within 0 9 (by decide)) [letter 7]

def compared : Term script :=
  .equal (within 18 24 (by decide)) (letter 18) (letter 23)

def asserted : Term script := .assert (within 11 25 (by decide)) [compared]

/-- The text is printed before the script aborts. -/
example : (Term.sequence (within 0 25 (by decide)) printed asserted).Evaluates
    (.ofString "a") (.error (.ofString "assert failed: b == c")) := by
  have hprinted : printed.Evaluates (.ofString "a") (.ok []) :=
    .stdoutCons _ (.literal _ _) (.stdoutNil _)
  have hcompared : compared.Evaluates [] (.ok []) :=
    .equal _ (.literal _ _) (.literal _ _)
  have hasserted : asserted.Evaluates []
      (.error (.ofString "assert failed: b == c")) :=
    .assertFalse _ [] hcompared
  exact .sequence _ hprinted hasserted

end EdifySemanticsExample

end Edify

end MetaOS
