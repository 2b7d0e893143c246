/-
bootable/recovery/edify/parser.y: the derivation that the precedences choose.

The productions are ambiguous.  Where all of a rule has been read and an
operator comes next, the parser that is made from the file compares the
precedence of the rule, which is that of its last token, with that of the
operator: it reduces if the rule's is higher or, as all binary operators are
`%left`, the same, and it shifts if it is lower.
-/
import MetaOS.EdifyParser

namespace MetaOS

namespace Edify

/-- The lines of the declarations, in increasing order; `','` is 2. -/
def Operator.precedence : Operator → Nat
  | sequence => 1
  | or => 3
  | and => 4
  | equal => 5
  | notEqual => 5
  | concat => 6

/-- `%right '!'` -/
def bangPrecedence : Nat := 7

/-- Where nothing is compared. -/
def unrivalled : Nat := 8

/-- The derivations in which every comparison went as declared.  `loosest` is
the lowest precedence of the operators outside of brackets, each of which has
been an operator that came next, and `rule` that of the rule reduced last. -/
inductive Resolved (find : Bytes → Option Function) :
    (loosest rule : Nat) → List Lexeme → Semantic → Prop
  | string (text : Bytes) (loc : YYLTYPE) :
      Resolved find unrivalled unrivalled [⟨.STRING text, loc⟩]
        (.expr (.node .Literal text [] loc.start loc.stop) loc)
  | paren {w : List Lexeme} {e : Expr} {loc : YYLTYPE} {loosest rule : Nat}
      (l₁ l₃ : YYLTYPE) (hexpr : Resolved find loosest rule w (.expr e loc)) :
      Resolved find unrivalled unrivalled
        (⟨.lparen, l₁⟩ :: w ++ [⟨.rparen, l₃⟩])
        (.expr (e.locate (l₁.to l₃)) (l₁.to l₃))
  | trailing {w : List Lexeme} {e : Expr} {l₁ : YYLTYPE} {loosest rule : Nat}
      (l₂ : YYLTYPE) (hexpr : Resolved find loosest rule w (.expr e l₁)) :
      Resolved find Operator.sequence.precedence unrivalled
        (w ++ [⟨.semicolon, l₂⟩]) (.expr (e.locate l₁) (l₁.to l₂))
  -- The left operand was reduced before the operator, and what is in the right
  -- one was shifted behind it.
  | binary {u v : List Lexeme} {e₁ e₃ : Expr} {l₁ l₃ : YYLTYPE}
      {loosest₁ rule₁ loosest₃ rule₃ : Nat} (op : Operator) (l₂ : YYLTYPE)
      (hleft : Resolved find loosest₁ rule₁ u (.expr e₁ l₁))
      (hright : Resolved find loosest₃ rule₃ v (.expr e₃ l₃))
      (hreduce : op.precedence ≤ rule₁) (hshift : op.precedence < loosest₃) :
      Resolved find (min loosest₁ op.precedence) op.precedence
        (u ++ ⟨op.token, l₂⟩ :: v)
        (.expr (build op.fn (l₁.to l₃) [e₁, e₃]) (l₁.to l₃))
  | not {w : List Lexeme} {e : Expr} {l₂ : YYLTYPE} {loosest rule : Nat}
      (l₁ : YYLTYPE) (hexpr : Resolved find loosest rule w (.expr e l₂))
      (hshift : bangPrecedence < loosest) :
      Resolved find unrivalled bangPrecedence (⟨.bang, l₁⟩ :: w)
        (.expr (build .LogicalNotFn (l₁.to l₂) [e]) (l₁.to l₂))
  | ifThen {u v : List Lexeme} {e₂ e₄ : Expr} {l₂ l₄ : YYLTYPE}
      {loosest₂ rule₂ loosest₄ rule₄ : Nat} (l₁ l₃ l₅ : YYLTYPE)
      (hcond : Resolved find loosest₂ rule₂ u (.expr e₂ l₂))
      (hyes : Resolved find loosest₄ rule₄ v (.expr e₄ l₄)) :
      Resolved find unrivalled unrivalled
        (⟨.IF, l₁⟩ :: (u ++ ⟨.THEN, l₃⟩ :: v) ++ [⟨.ENDIF, l₅⟩])
        (.expr (build .IfElseFn (l₁.to l₅) [e₂, e₄]) (l₁.to l₅))
  | ifThenElse {u v w : List Lexeme} {e₂ e₄ e₆ : Expr} {l₂ l₄ l₆ : YYLTYPE}
      {loosest₂ rule₂ loosest₄ rule₄ loosest₆ rule₆ : Nat}
      (l₁ l₃ l₅ l₇ : YYLTYPE)
      (hcond : Resolved find loosest₂ rule₂ u (.expr e₂ l₂))
      (hyes : Resolved find loosest₄ rule₄ v (.expr e₄ l₄))
      (hno : Resolved find loosest₆ rule₆ w (.expr e₆ l₆)) :
      Resolved find unrivalled unrivalled
        (⟨.IF, l₁⟩ :: (u ++ ⟨.THEN, l₃⟩ :: (v ++ ⟨.ELSE, l₅⟩ :: w)) ++
          [⟨.ENDIF, l₇⟩])
        (.expr (build .IfElseFn (l₁.to l₇) [e₂, e₄, e₆]) (l₁.to l₇))
  | call {w : List Lexeme} {argv : List Expr} {name : Bytes} {fn : Function}
      (l₁ l₂ l₄ : YYLTYPE) (hfind : find name = some fn)
      (hargs : Resolved find unrivalled unrivalled w (.arglist argv)) :
      Resolved find unrivalled unrivalled
        (⟨.STRING name, l₁⟩ :: (⟨.lparen, l₂⟩ :: w ++ [⟨.rparen, l₄⟩]))
        (.expr (.node fn name argv l₁.start l₄.stop) (l₁.to l₄))
  | empty : Resolved find unrivalled unrivalled [] (.arglist [])
  | one {w : List Lexeme} {e : Expr} {loc : YYLTYPE} {loosest rule : Nat}
      (hexpr : Resolved find loosest rule w (.expr e loc)) :
      Resolved find unrivalled unrivalled w (.arglist [e])
  | more {u v : List Lexeme} {argv : List Expr} {e : Expr} {l₃ : YYLTYPE}
      {loosest rule : Nat} (l₂ : YYLTYPE)
      (hargs : Resolved find unrivalled unrivalled u (.arglist argv))
      (hexpr : Resolved find loosest rule v (.expr e l₃)) :
      Resolved find unrivalled unrivalled (u ++ ⟨.comma, l₂⟩ :: v)
        (.arglist (argv ++ [e]))

/-- What is relied on of the parser that is made from the grammar: it gives a
root and no errors for the scripts that have a derivation as the precedences
are declared, and the root is that of such a derivation. -/
structure FollowsPrecedences (find : Bytes → Option Function)
    (yyparse : List Lexeme → Option Expr × Nat) : Prop where
  sound : ∀ w e, yyparse w = (some e, 0) →
    ∃ loosest rule loc, Resolved find loosest rule w (.expr e loc)
  complete : ∀ loosest rule w e loc,
    Resolved find loosest rule w (.expr e loc) →
    ∃ root, yyparse w = (some root, 0)

section Resolution

variable {find : Bytes → Option Function} {loosest rule : Nat}
  {w : List Lexeme} {sem : Semantic}

theorem Operator.precedence_lt (op : Operator) :
    op.precedence < bangPrecedence := by
  cases op <;> decide

theorem Operator.sequence_le (op : Operator) :
    Operator.sequence.precedence ≤ op.precedence := by
  cases op <;> decide

theorem Resolved.sequence_le (hresolved : Resolved find loosest rule w sem) :
    Operator.sequence.precedence ≤ loosest := by
  induction hresolved with
  | binary op l₂ _ _ _ _ ihLeft _ => exact le_min ihLeft op.sequence_le
  | _ => decide

theorem Resolved.derives (hresolved : Resolved find loosest rule w sem) :
    Derives find w sem := by
  induction hresolved with
  | string text loc => exact .string text loc
  | paren l₁ l₃ _ ih => exact .paren l₁ l₃ ih
  | trailing l₂ _ ih => exact .trailing l₂ ih
  | binary op l₂ _ _ _ _ ihLeft ihRight => exact .binary op l₂ ihLeft ihRight
  | not l₁ _ _ ih => exact .not l₁ ih
  | ifThen l₁ l₃ l₅ _ _ ihCond ihYes => exact .ifThen l₁ l₃ l₅ ihCond ihYes
  | ifThenElse l₁ l₃ l₅ l₇ _ _ _ ihCond ihYes ihNo =>
      exact .ifThenElse l₁ l₃ l₅ l₇ ihCond ihYes ihNo
  | call l₁ l₂ l₄ hfind _ ih => exact .call l₁ l₂ l₄ hfind ih
  | empty => exact .empty
  | one _ ih => exact .one ih
  | more l₂ _ _ ihArgs ihExpr => exact .more l₂ ihArgs ihExpr

/-- A script has a derivation with these operators in it. -/
def HasResolved (find : Bytes → Option Function) (loosest : Nat)
    (w : List Lexeme) : Prop :=
  ∃ rule e loc, Resolved find loosest rule w (.expr e loc)

/-- An operand that binds tighter than its operator goes to the last rule that
is not of a lower precedence. -/
theorem Resolved.attach (hleft : Resolved find loosest rule w sem)
    {e₁ : Expr} {l₁ : YYLTYPE} (hsem : sem = .expr e₁ l₁) (op : Operator)
    (l₂ : YYLTYPE) {v : List Lexeme} {e₃ : Expr} {l₃ : YYLTYPE}
    {loosest₃ rule₃ : Nat}
    (hright : Resolved find loosest₃ rule₃ v (.expr e₃ l₃))
    (hshift : op.precedence < loosest₃) :
    HasResolved find (min loosest op.precedence)
      (w ++ ⟨op.token, l₂⟩ :: v) := by
  have hbang := op.precedence_lt
  have hdirect : ∀ {loosest rule u e l}, op.precedence ≤ rule →
      Resolved find loosest rule u (.expr e l) →
      HasResolved find (min loosest op.precedence)
        (u ++ ⟨op.token, l₂⟩ :: v) := by
    intro loosest rule u e l hreduce hexpr
    exact ⟨_, _, _, .binary op l₂ hexpr hright hreduce hshift⟩
  have hfree : op.precedence ≤ unrivalled := by
    simp only [unrivalled, bangPrecedence] at *
    omega
  induction hleft generalizing e₁ l₁ with
  | string text loc => exact hdirect hfree (.string text loc)
  | paren l l' hexpr _ => exact hdirect hfree (.paren l l' hexpr)
  | trailing l hexpr _ => exact hdirect hfree (.trailing l hexpr)
  | @binary u x a b la lb loosestA ruleA loosestB ruleB op' l hleft hright'
      hreduce' hshift' ihLeft ihRight =>
      by_cases hreduce : op.precedence ≤ op'.precedence
      · exact hdirect hreduce (.binary op' l hleft hright' hreduce' hshift')
      · obtain ⟨rule', e, loc, hinner⟩ := ihRight rfl
        have houter := Resolved.binary op' l hleft hinner hreduce' (by omega)
        rw [List.append_assoc, List.cons_append]
        rw [show min (min loosestA op'.precedence) op.precedence =
          min loosestA op'.precedence by omega]
        exact ⟨_, _, _, houter⟩
  | not l hexpr hshift _ =>
      exact hdirect (le_of_lt hbang) (.not l hexpr hshift)
  | ifThen l l' l'' hcond hyes _ _ =>
      exact hdirect hfree (.ifThen l l' l'' hcond hyes)
  | ifThenElse l l' l'' l''' hcond hyes hno _ _ _ =>
      exact hdirect hfree (.ifThenElse l l' l'' l''' hcond hyes hno)
  | call l l' l'' hfind hargs _ =>
      exact hdirect hfree (.call l l' l'' hfind hargs)
  | empty | one _ _ | more _ _ _ _ _ => cases hsem

/-- An expression behind something that takes an operand which binds tighter
than `bound`: the operand ends at the first operator that does not, and the
rest is attached. -/
theorem Resolved.behind (hright : Resolved find loosest rule w sem)
    {e : Expr} {l : YYLTYPE} (hsem : sem = .expr e l) {bound cap : Nat}
    (first : List Lexeme) (hpos : Operator.sequence.precedence ≤ cap)
    (hcap : cap ≤ unrivalled) (hbound : bound < unrivalled)
    (htight : ∀ {loosest rule v e l}, bound < loosest →
      Resolved find loosest rule v (.expr e l) →
      HasResolved find cap (first ++ v)) :
    HasResolved find (min cap loosest) (first ++ w) := by
  have hleaf : ∀ {rule v e l},
      Resolved find unrivalled rule v (.expr e l) →
      HasResolved find (min cap unrivalled) (first ++ v) := by
    intro rule v e l hexpr
    rw [Nat.min_eq_left hcap]
    exact htight hbound hexpr
  induction hright generalizing e l with
  | string text loc => exact hleaf (.string text loc)
  | paren l₁ l₃ hexpr _ => exact hleaf (.paren l₁ l₃ hexpr)
  | trailing l₂ hexpr ih =>
      obtain ⟨rule', e', loc, hinner⟩ := ih rfl
      rw [← List.append_assoc, Nat.min_eq_right hpos]
      exact ⟨_, _, _, .trailing l₂ hinner⟩
  | binary op l₂ _ hright' _ hshift' ihLeft _ =>
      obtain ⟨rule', e', loc, hinner⟩ := ihLeft rfl
      rw [← List.append_assoc, ← Nat.min_assoc]
      exact hinner.attach rfl op l₂ hright' hshift'
  | not l₁ hexpr hshift _ => exact hleaf (.not l₁ hexpr hshift)
  | ifThen l₁ l₃ l₅ hcond hyes _ _ =>
      exact hleaf (.ifThen l₁ l₃ l₅ hcond hyes)
  | ifThenElse l₁ l₃ l₅ l₇ hcond hyes hno _ _ _ =>
      exact hleaf (.ifThenElse l₁ l₃ l₅ l₇ hcond hyes hno)
  | call l₁ l₂ l₄ hfind hargs _ => exact hleaf (.call l₁ l₂ l₄ hfind hargs)
  | empty | one _ _ | more _ _ _ _ _ => cases hsem

/-- What `Derives.resolved` shows of a nonterminal. -/
def Semantic.HasResolved (find : Bytes → Option Function) (w : List Lexeme) :
    Semantic → Prop
  | .expr _ _ => ∃ loosest, Edify.HasResolved find loosest w
  | .arglist _ => ∃ argv, Resolved find unrivalled unrivalled w (.arglist argv)

/-- The precedences leave every script of the grammar a derivation. -/
theorem Derives.resolved (hderives : Derives find w sem) :
    sem.HasResolved find w := by
  induction hderives with
  | string text loc => exact ⟨_, _, _, _, .string text loc⟩
  | paren l₁ l₃ _ ih =>
      obtain ⟨_, _, _, _, hexpr⟩ := ih
      exact ⟨_, _, _, _, .paren l₁ l₃ hexpr⟩
  | trailing l₂ _ ih =>
      obtain ⟨_, _, _, _, hexpr⟩ := ih
      exact ⟨_, _, _, _, .trailing l₂ hexpr⟩
  | @binary u v _ _ _ _ op l₂ _ _ ihLeft ihRight =>
      obtain ⟨loosest₁, _, _, _, hleft⟩ := ihLeft
      obtain ⟨loosest₃, _, _, _, hright⟩ := ihRight
      have hbang := op.precedence_lt
      have hbound : op.precedence < unrivalled :=
        lt_trans hbang (by decide)
      have hpos : Operator.sequence.precedence ≤
          min loosest₁ op.precedence :=
        le_min hleft.sequence_le op.sequence_le
      have hjoined := hright.behind rfl (u ++ [⟨op.token, l₂⟩]) hpos
        (le_trans (min_le_right _ _) hbound.le) hbound fun hshift hexpr => by
          rw [List.append_assoc]
          exact hleft.attach rfl op l₂ hexpr hshift
      rw [List.append_assoc] at hjoined
      exact ⟨_, hjoined⟩
  | not l₁ _ ih =>
      obtain ⟨_, _, _, _, hexpr⟩ := ih
      have hbehind := hexpr.behind rfl [⟨.bang, l₁⟩]
        (by decide) le_rfl (by decide) fun hshift hexpr =>
          ⟨_, _, _, .not l₁ hexpr hshift⟩
      exact ⟨_, hbehind⟩
  | ifThen l₁ l₃ l₅ _ _ ihCond ihYes =>
      obtain ⟨_, _, _, _, hcond⟩ := ihCond
      obtain ⟨_, _, _, _, hyes⟩ := ihYes
      exact ⟨_, _, _, _, .ifThen l₁ l₃ l₅ hcond hyes⟩
  | ifThenElse l₁ l₃ l₅ l₇ _ _ _ ihCond ihYes ihNo =>
      obtain ⟨_, _, _, _, hcond⟩ := ihCond
      obtain ⟨_, _, _, _, hyes⟩ := ihYes
      obtain ⟨_, _, _, _, hno⟩ := ihNo
      exact ⟨_, _, _, _, .ifThenElse l₁ l₃ l₅ l₇ hcond hyes hno⟩
  | call l₁ l₂ l₄ hfind _ ih =>
      obtain ⟨_, hargs⟩ := ih
      exact ⟨_, _, _, _, .call l₁ l₂ l₄ hfind hargs⟩
  | empty => exact ⟨_, .empty⟩
  | one _ ih =>
      obtain ⟨_, _, _, _, hexpr⟩ := ih
      exact ⟨_, .one hexpr⟩
  | more l₂ _ _ ihArgs ihExpr =>
      obtain ⟨_, hargs⟩ := ihArgs
      obtain ⟨_, _, _, _, hexpr⟩ := ihExpr
      exact ⟨_, .more l₂ hargs hexpr⟩

/-- A parser that follows the precedences parses the grammar. -/
theorem FollowsPrecedences.acceptsGrammar
    {yyparse : List Lexeme → Option Expr × Nat}
    (hparser : FollowsPrecedences find yyparse) :
    AcceptsGrammar find yyparse where
  sound := by
    intro w e hparse
    obtain ⟨_, _, loc, hresolved⟩ := hparser.sound w e hparse
    exact ⟨loc, hresolved.derives⟩
  complete := by
    intro w e loc hderives
    obtain ⟨loosest, rule, e', loc', hresolved⟩ := hderives.resolved
    exact hparser.complete loosest rule w e' loc' hresolved

end Resolution

end Edify

end MetaOS
