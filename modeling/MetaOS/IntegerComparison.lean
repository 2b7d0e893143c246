/-
bootable/recovery/edify/expr.c: `less_than_int` and `greater_than_int` on the
numbers their arguments denote.  `strtol` skips blanks in front of a number
and takes the nearest `long` for a number that does not fit one.
-/
import MetaOS.EdifySemantics
import MetaOS.Numerals
import MetaOS.UpdaterArguments

namespace MetaOS

namespace Edify

open Updater CString

theorem wholeInt_eq_some_iff {text : Bytes} {v : Int} :
    wholeInt text = some v ↔ ∃ n, Numeral text n ∧ v = clamp n := by
  constructor
  · intro hwhole
    rw [wholeInt] at hwhole
    dsimp only at hwhole
    split at hwhole
    · cases hwhole
    · rename_i hfull
      rw [not_or, not_not] at hfull
      obtain ⟨n, hn⟩ := numeral_of_strtol hfull.1 hfull.2
      rw [strtol_numeral hn] at hwhole
      exact ⟨n, hn, (Option.some.inj hwhole).symm⟩
  · rintro ⟨n, hn, rfl⟩
    have hne : text ≠ [] := by
      rintro rfl
      rw [numeral_iff, decimalInteger_iff] at hn
      exact hn.1.1 rfl
    rw [wholeInt, strtol_numeral hn]
    simp [hne]

/-- What `less_than_int` makes of two texts. -/
def lessInt (left right : Bytes) : Bool :=
  match wholeInt left, wholeInt right with
  | some l, some r => decide (l < r)
  | _, _ => false

/-- Both texts denote numbers, the first the smaller one, and they are not
both at or above `LONG_MAX` or both at or below `LONG_MIN`. -/
def LessThan (left right : Bytes) : Prop :=
  ∃ l r, Numeral left l ∧ Numeral right r ∧ l < r ∧
    l < LONG_MAX ∧ LONG_MIN < r

theorem lessInt_iff {left right : Bytes} :
    lessInt left right = true ↔ LessThan left right := by
  constructor
  · intro hless
    unfold lessInt at hless
    split at hless
    · rename_i l r hleft hright
      obtain ⟨m, hm, rfl⟩ := wholeInt_eq_some_iff.mp hleft
      obtain ⟨n, hn, rfl⟩ := wholeInt_eq_some_iff.mp hright
      exact ⟨m, n, hm, hn, clamp_lt_clamp_iff.mp (of_decide_eq_true hless)⟩
    · cases hless
  · rintro ⟨m, n, hm, hn, hlt⟩
    have hleft := wholeInt_eq_some_iff.mpr ⟨m, hm, rfl⟩
    have hright := wholeInt_eq_some_iff.mpr ⟨n, hn, rfl⟩
    rw [lessInt, hleft, hright]
    exact decide_eq_true (clamp_lt_clamp_iff.mpr hlt)

section Running

variable {W : Type} (outside : (e : Outside) → W → e.Answer × W)
  (argv : List (Argument W)) (order : Nat → Nat)

/-- The comparison of two arguments that evaluate to strings. -/
theorem interpret_lessThanIntFn {a b : Argument W}
    {s s' s'' : State W} {left right : Bytes}
    (hleft : argv[order 0]? = some a) (hright : argv[order 1]? = some b)
    (ha : a.value s = some (some (.string left), s'))
    (hb : b.value s' = some (some (.string right), s'')) :
    interpret outside argv (lessThanIntFn 2 order) s =
      some (stringValue (some (Term.truth (lessInt left right))), s'') := by
  have hread : interpret outside argv
      (readEach (fun i => evaluate (order i)) 0 2) s =
      some (some [left, right], s'') := by
    unfold readEach
    rw [interpret_evaluate (some left) hleft ha]
    unfold readEach
    rw [interpret_bind]
    simp only [Nat.zero_add]
    rw [interpret_evaluate (some right) hright hb]
    rfl
  unfold lessThanIntFn
  rw [if_neg (by simp), interpret_bind, hread]
  simp only [Option.bind_some]
  unfold lessInt
  cases wholeInt left with
  | none => rfl
  | some l =>
      cases wholeInt right with
      | none => rfl
      | some r =>
          by_cases hlt : l < r
          · simp only [hlt, if_true, decide_true]
            rfl
          · simp only [hlt, if_false, decide_false]
            rfl

end Running

/-- A call of a comparison on two string literals, wherever they stand in the
script, returns `result` and leaves everything else as it was. -/
def Returns (fn : Function) (left right result : Bytes) : Prop :=
  ∀ (W : Type) (outside : (e : Outside) → W → e.Answer × W)
    (sha1 : Bytes → Bytes) (name : Bytes) (span first second : Int × Int)
    (s : State W),
    (Expr.node fn name
        [.node .Literal left [] first.1 first.2,
          .node .Literal right [] second.1 second.2]
        span.1 span.2).evaluateValue outside sha1 s =
      some (some (.string result), s)

section Literals

variable {W : Type} (outside : (e : Outside) → W → e.Answer × W)
  (sha1 : Bytes → Bytes)

theorem literal_value (text : Bytes) (start stop : Int) (s : State W) :
    (Expr.node .Literal text [] start stop).evaluateValue outside sha1 s =
      some (some (.string text), s) := by
  rw [evaluateValue_node]
  rfl

end Literals

section Texts

variable (left right : Bytes)

theorem returns_lessThanInt :
    Returns .LessThanIntFn left right (Term.truth (lessInt left right)) := by
  intro W outside sha1 name span first second s
  rw [evaluateValue_node]
  change (interpret outside _ (lessThanIntFn 2 id) s).bind returned = _
  rw [interpret_lessThanIntFn outside _ id rfl rfl
    (literal_value outside sha1 left first.1 first.2 s)
    (literal_value outside sha1 right second.1 second.2 s)]
  rfl

/-- The arguments change places. -/
theorem returns_greaterThanInt :
    Returns .GreaterThanIntFn left right
      (Term.truth (lessInt right left)) := by
  intro W outside sha1 name span first second s
  have hbody : Function.GreaterThanIntFn.body sha1 name 2 =
      lessThanIntFn 2 (1 - ·) := by
    rw [Function.body, greaterThanIntFn, if_neg (by simp)]
  rw [evaluateValue_node]
  change (interpret outside _ (Function.GreaterThanIntFn.body sha1 name 2)
    s).bind returned = _
  rw [hbody, interpret_lessThanIntFn outside _ (1 - ·) rfl rfl
    (literal_value outside sha1 right second.1 second.2 s)
    (literal_value outside sha1 left first.1 first.2 s)]
  rfl

end Texts

theorem LessThan.irrefl (text : Bytes) : ¬ LessThan text text := by
  rintro ⟨l, r, hl, hr, hlt, -⟩
  rw [hl.unique hr] at hlt
  exact lt_irrefl r hlt

theorem LessThan.trans {a b c : Bytes} (hab : LessThan a b)
    (hbc : LessThan b c) : LessThan a c := by
  obtain ⟨l, m, hl, hm, hlm, hmax, -⟩ := hab
  obtain ⟨m', r, hm', hr, hmr, -, hmin⟩ := hbc
  rw [hm'.unique hm] at hmr
  exact ⟨l, r, hl, hr, hlm.trans hmr, hmax, hmin⟩

/-- A `long` holds the number. -/
def FitsLong (n : Int) : Prop := LONG_MIN ≤ n ∧ n ≤ LONG_MAX

theorem lessThan_iff_of_fits {left right : Bytes} {l r : Int}
    (hl : Numeral left l) (hr : Numeral right r) (hleft : FitsLong l)
    (hright : FitsLong r) : LessThan left right ↔ l < r := by
  constructor
  · rintro ⟨l', r', hl', hr', hlt, -⟩
    rwa [hl'.unique hl, hr'.unique hr] at hlt
  · intro hlt
    exact ⟨l, r, hl, hr, hlt, hlt.trans_le hright.2, hleft.1.trans_lt hlt⟩

/-- `less_than_int` and `greater_than_int` of any two texts are true or false
as `LessThan` has it, which is a strict order on all texts and the order of
the integers on those whose numbers fit a `long`. -/
theorem int_comparison :
    (∀ left right,
      (LessThan left right → Returns .LessThanIntFn left right [116]) ∧
      (¬ LessThan left right → Returns .LessThanIntFn left right []) ∧
      (LessThan right left → Returns .GreaterThanIntFn left right [116]) ∧
      (¬ LessThan right left → Returns .GreaterThanIntFn left right [])) ∧
    (∀ a, ¬ LessThan a a) ∧
    (∀ a b c, LessThan a b → LessThan b c → LessThan a c) ∧
    (∀ a b l r, Numeral a l → Numeral b r → FitsLong l → FitsLong r →
      (LessThan a b ↔ l < r) ∧ (l ≠ r → LessThan a b ∨ LessThan b a)) := by
  refine ⟨?_, LessThan.irrefl, fun a b c => LessThan.trans, ?_⟩
  · intro left right
    have hless : Returns .LessThanIntFn left right
        (Term.truth (lessInt left right)) := returns_lessThanInt left right
    have hgreater : Returns .GreaterThanIntFn left right
        (Term.truth (lessInt right left)) := returns_greaterThanInt left right
    have htrue : Term.truth true = [116] := rfl
    have hfalse : Term.truth false = [] := rfl
    simp only [← lessInt_iff]
    refine ⟨?_, ?_, ?_, ?_⟩
    · intro hlt
      rw [hlt, htrue] at hless
      exact hless
    · intro hnot
      rw [Bool.not_eq_true] at hnot
      rw [hnot, hfalse] at hless
      exact hless
    · intro hlt
      rw [hlt, htrue] at hgreater
      exact hgreater
    · intro hnot
      rw [Bool.not_eq_true] at hnot
      rw [hnot, hfalse] at hgreater
      exact hgreater
  · intro a b l r ha hb hl hr
    refine ⟨lessThan_iff_of_fits ha hb hl hr, ?_⟩
    intro hne
    rw [lessThan_iff_of_fits ha hb hl hr, lessThan_iff_of_fits hb ha hr hl]
    exact lt_or_gt_of_ne hne

namespace IntegerComparisonWitness

open UpdaterArgumentsWitness

def longMax : Bytes := .ofString "2147483647"
def longMaxSucc : Bytes := .ofString "2147483648"
def blankOne : Bytes := .ofString " 1"
def two : Bytes := .ofString "2"

/-- One result for one pair of texts. -/
theorem returns_unique {fn : Function} {left right a b : Bytes}
    (ha : Returns fn left right a) (hb : Returns fn left right b) : a = b := by
  have hfirst := ha Unit (fun e _ => (nothing e, ())) noHash [] (0, 0)
    (0, 0) (0, 0) ⟨[], none, [], ()⟩
  have hsecond := hb Unit (fun e _ => (nothing e, ())) noHash [] (0, 0)
    (0, 0) (0, 0) ⟨[], none, [], ()⟩
  rw [hfirst] at hsecond
  simpa using hsecond

/-- Two numbers that `long` does not tell apart, and a text with a blank that
is taken for a number. -/
theorem comparison_not_exact :
    (¬ ∀ left right l r, DecimalInteger left l → DecimalInteger right r →
      (Returns .LessThanIntFn left right [116] ↔ l < r)) ∧
    (¬ ∀ left right, (¬ ∃ l, DecimalInteger left l) →
      Returns .LessThanIntFn left right []) := by
  constructor
  · intro hall
    have hless := (hall longMax longMaxSucc 2147483647 2147483648
      (.unsigned ⟨by decide +kernel, by decide +kernel⟩)
      (.unsigned ⟨by decide +kernel, by decide +kernel⟩)).mpr (by decide)
    have hsame := returns_unique hless (returns_lessThanInt _ _)
    revert hsame
    decide +kernel
  · intro hall
    have hless := hall blankOne two (by
      rintro ⟨l, hl⟩
      have hdigits := (decimalInteger_iff.mp hl).1.2
      revert hdigits
      decide)
    have hsame := returns_unique hless (returns_lessThanInt _ _)
    revert hsame
    decide +kernel

end IntegerComparisonWitness

end Edify

end MetaOS
