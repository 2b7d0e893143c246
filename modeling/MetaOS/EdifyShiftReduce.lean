/-
bootable/recovery/edify/parser.y: the precedences choose one derivation.

A parser that shifts and reduces, and that decides between the two by the next
token, goes through every derivation of `Resolved` from the left to the right.
As its steps are determined, a script has at most one.
-/
import Mathlib.Computability.StateTransition
import MetaOS.EdifyPrecedence

namespace MetaOS

namespace Edify

open StateTransition

section Machine

/-- What the stack of the parser holds, besides its states. -/
inductive Symbol where
  | terminal (t : Lexeme)
  | value (sem : Semantic)

/-- The tokens that an expression begins with. -/
def Token.starts : Token → Bool
  | STRING _ | lparen | bang | IF => true
  | _ => false

/-- The tokens behind an argument. -/
def Token.endsArg : Token → Bool
  | comma | rparen => true
  | _ => false

def Token.operator? : Token → Option Operator
  | semicolon => some .sequence
  | plus => some .concat
  | EQ => some .equal
  | NE => some .notEqual
  | AND => some .and
  | OR => some .or
  | _ => none

/-- No operator of a higher precedence comes next. -/
def Operator.reducesBefore (op : Operator) (ahead : Option Token) : Bool :=
  (ahead.bind Token.operator?).all (·.precedence ≤ op.precedence)

/-- The rules that end with an expression. -/
def reduceExpr (ahead : Option Token) (e : Expr) (loc : YYLTYPE) :
    List Symbol → Option (List Symbol)
  | .terminal ⟨.bang, l₁⟩ :: stack =>
      some (.value (.expr (build .LogicalNotFn (l₁.to loc) [e]) (l₁.to loc)) ::
        stack)
  | .terminal ⟨.lparen, l₂⟩ :: .terminal ⟨.STRING name, l₁⟩ :: stack =>
      if ahead.any Token.endsArg then
        some (.value (.arglist [e]) :: .terminal ⟨.lparen, l₂⟩ ::
          .terminal ⟨.STRING name, l₁⟩ :: stack)
      else none
  | .terminal ⟨.comma, _⟩ :: .value (.arglist argv) :: stack =>
      if ahead.any Token.endsArg then
        some (.value (.arglist (argv ++ [e])) :: stack)
      else none
  | .terminal ⟨t, _⟩ :: .value (.expr e₁ l₁) :: stack =>
      match t.operator? with
      | some op =>
          if op.reducesBefore ahead then
            some (.value (.expr (build op.fn (l₁.to loc) [e₁, e])
              (l₁.to loc)) :: stack)
          else none
      | none => none
  | _ => none

/-- The rules that end with `')'`. -/
def reduceParen (find : Bytes → Option Function) (l : YYLTYPE) :
    List Symbol → Option (List Symbol)
  | .value (.expr e _) :: .terminal ⟨.lparen, l₁⟩ :: stack =>
      some (.value (.expr (e.locate (l₁.to l)) (l₁.to l)) :: stack)
  | .value (.arglist argv) :: .terminal ⟨.lparen, _⟩ ::
      .terminal ⟨.STRING name, l₁⟩ :: stack =>
      (find name).map fun fn =>
        .value (.expr (.node fn name argv l₁.start l.stop) (l₁.to l)) :: stack
  | _ => none

/-- The rules that end with `ENDIF`. -/
def reduceIf (l : YYLTYPE) : List Symbol → Option (List Symbol)
  | .value (.expr e₄ _) :: .terminal ⟨.THEN, _⟩ :: .value (.expr e₂ _) ::
      .terminal ⟨.IF, l₁⟩ :: stack =>
      some (.value (.expr (build .IfElseFn (l₁.to l) [e₂, e₄]) (l₁.to l)) ::
        stack)
  | .value (.expr e₆ _) :: .terminal ⟨.ELSE, _⟩ :: .value (.expr e₄ _) ::
      .terminal ⟨.THEN, _⟩ :: .value (.expr e₂ _) :: .terminal ⟨.IF, l₁⟩ ::
      stack =>
      some (.value (.expr (build .IfElseFn (l₁.to l) [e₂, e₄, e₆])
        (l₁.to l)) :: stack)
  | _ => none

/-- The reduction that is made before the next token, if there is one. -/
def reduce (find : Bytes → Option Function) (ahead : Option Token) :
    List Symbol → Option (List Symbol)
  | .terminal ⟨.STRING text, loc⟩ :: stack =>
      if ahead = some .lparen then none
      else some (.value (.expr (.node .Literal text [] loc.start loc.stop)
        loc) :: stack)
  | .terminal ⟨.lparen, l₂⟩ :: .terminal ⟨.STRING name, l₁⟩ :: stack =>
      if ahead.any Token.endsArg then
        some (.value (.arglist []) :: .terminal ⟨.lparen, l₂⟩ ::
          .terminal ⟨.STRING name, l₁⟩ :: stack)
      else none
  | .terminal ⟨.semicolon, l₂⟩ :: .value (.expr e l₁) :: stack =>
      if ahead.any Token.starts then none
      else some (.value (.expr (e.locate l₁) (l₁.to l₂)) :: stack)
  | .terminal ⟨.rparen, l⟩ :: stack => reduceParen find l stack
  | .terminal ⟨.ENDIF, l⟩ :: stack => reduceIf l stack
  | .value (.expr e loc) :: stack => reduceExpr ahead e loc stack
  | _ => none

/-- Reduce, or else shift. -/
def step (find : Bytes → Option Function) :
    List Symbol × List Lexeme → Option (List Symbol × List Lexeme)
  | (stack, input) =>
      match reduce find (input.head?.map Lexeme.token) stack with
      | some stack => some (stack, input)
      | none =>
          match input with
          | [] => none
          | t :: input => some (.terminal t :: stack, input)

end Machine

section Runs

variable {find : Bytes → Option Function} {stack : List Symbol}
  {loosest rule : Nat}

theorem reaches_reduce {stack' : List Symbol} {input : List Lexeme}
    (hreduce : reduce find (input.head?.map Lexeme.token) stack =
      some stack') :
    Reaches (step find) (stack, input) (stack', input) := by
  apply Relation.ReflTransGen.single
  simp only [Option.mem_def, step, hreduce]

theorem reaches_shift {t : Lexeme} {input : List Lexeme}
    (hreduce : reduce find (some t.token) stack = none) :
    Reaches (step find) (stack, t :: input) (.terminal t :: stack, input) := by
  apply Relation.ReflTransGen.single
  simp only [Option.mem_def, step, List.head?_cons, Option.map_some, hreduce]

@[simp] theorem Operator.operator?_token (op : Operator) :
    op.token.operator? = some op := by
  cases op <;> rfl

@[simp] theorem Operator.starts_token (op : Operator) :
    op.token.starts = false := by
  cases op <;> rfl

@[simp] theorem Operator.endsArg_token (op : Operator) :
    op.token.endsArg = false := by
  cases op <;> rfl

/-- An expression, in which the operators outside of brackets are not looser
than `loosest`, is read whole when it begins on this stack. -/
structure Ready (find : Bytes → Option Function) (stack : List Symbol)
    (loosest : Nat) : Prop where
  begins : ∀ t : Token, t.starts = true → reduce find (some t) stack = none
  goesOn : ∀ (op : Operator) (e : Expr) (loc : YYLTYPE),
    loosest ≤ op.precedence → reduceExpr (some op.token) e loc stack = none
  noName : ∀ text loc below, stack ≠ .terminal ⟨.STRING text, loc⟩ :: below

theorem Ready.mono {loosest' : Nat} (hready : Ready find stack loosest)
    (hle : loosest ≤ loosest') : Ready find stack loosest' where
  begins := hready.begins
  goesOn := fun op e loc hop => hready.goesOn op e loc (le_trans hle hop)
  noName := hready.noName

/-- What may come behind an expression that `rule` has reduced. -/
def Follows (rule : Nat) (input : List Lexeme) : Prop :=
  ∀ t ∈ input.head?.map Lexeme.token, t.starts = false ∧
    ∀ op, t.operator? = some op → op.precedence ≤ rule

theorem Follows.mono {rule' : Nat} {input : List Lexeme}
    (hfollows : Follows rule input) (hle : rule ≤ rule') :
    Follows rule' input := by
  intro t ht
  obtain ⟨hstarts, hop⟩ := hfollows t ht
  exact ⟨hstarts, fun op heq => le_trans (hop op heq) hle⟩

theorem follows_cons {t : Token} {loc : YYLTYPE} {input : List Lexeme}
    (hstarts : t.starts = false)
    (hop : ∀ op, t.operator? = some op → op.precedence ≤ rule) :
    Follows rule (⟨t, loc⟩ :: input) := by
  rintro _ ⟨⟩
  exact ⟨hstarts, hop⟩

/-- Brackets and keywords, from which no rule goes on to an expression that it
ends with. -/
def Token.opens : Token → Bool
  | IF | THEN | ELSE => true
  | _ => false

theorem reduceExpr_of_opens {t : Token} (hopens : t.opens = true)
    (ahead : Option Token) (e : Expr) (loc l : YYLTYPE) :
    reduceExpr ahead e loc (.terminal ⟨t, l⟩ :: stack) = none := by
  cases t <;> simp only [Token.opens, Bool.false_eq_true] at hopens <;>
    (rcases stack with _ | ⟨(_ | _ | _), _⟩ <;> rfl)

theorem ready_of_opens (stack : List Symbol) {t : Token}
    (hopens : t.opens = true) (l : YYLTYPE) :
    Ready find (.terminal ⟨t, l⟩ :: stack) loosest where
  begins := by
    intro t' _
    cases t <;> simp only [Token.opens, Bool.false_eq_true] at hopens <;> rfl
  goesOn := fun op e loc _ => reduceExpr_of_opens hopens _ e loc l
  noName := by
    rintro text loc below ⟨⟩
    simp [Token.opens] at hopens

theorem ready_lparen (hname : ∀ text loc below,
    stack ≠ .terminal ⟨.STRING text, loc⟩ :: below) (l : YYLTYPE) :
    Ready find (.terminal ⟨.lparen, l⟩ :: stack) loosest ∧
      ∀ ahead e loc,
        reduceExpr ahead e loc (.terminal ⟨.lparen, l⟩ :: stack) = none := by
  have hgoesOn : ∀ ahead e loc,
      reduceExpr ahead e loc (.terminal ⟨.lparen, l⟩ :: stack) = none := by
    intro ahead e loc
    rcases stack with _ | ⟨⟨⟨t, l'⟩⟩ | (_ | _), below⟩
    · rfl
    · cases t with
      | STRING text => exact absurd rfl (hname text l' below)
      | _ => rfl
    · rfl
    · rfl
  refine ⟨⟨?_, fun op e loc _ => hgoesOn _ e loc, ?_⟩, hgoesOn⟩
  · intro t _
    rcases stack with _ | ⟨⟨⟨t', l'⟩⟩ | (_ | _), below⟩
    · rfl
    · cases t' with
      | STRING text => exact absurd rfl (hname text l' below)
      | _ => rfl
    · rfl
    · rfl
  · rintro text loc below ⟨⟩

theorem ready_bang (stack : List Symbol) (l : YYLTYPE)
    (hloosest : bangPrecedence < loosest) :
    Ready find (.terminal ⟨.bang, l⟩ :: stack) loosest where
  begins := fun _ _ => rfl
  goesOn := by
    intro op e loc hop
    exact absurd (le_trans hloosest.le hop) (not_le_of_gt op.precedence_lt)
  noName := by
    rintro text loc below ⟨⟩

theorem reduceExpr_operator (op : Operator) (ahead : Option Token)
    (e e₁ : Expr) (loc l₁ l₂ : YYLTYPE) :
    reduceExpr ahead e loc
        (.terminal ⟨op.token, l₂⟩ :: .value (.expr e₁ l₁) :: stack) =
      if op.reducesBefore ahead then
        some (.value (.expr (build op.fn (l₁.to loc) [e₁, e]) (l₁.to loc)) ::
          stack)
      else none := by
  cases op <;> rfl

theorem ready_operator (stack : List Symbol) (op : Operator) (e₁ : Expr)
    (l₁ l₂ : YYLTYPE) (hloosest : op.precedence < loosest) :
    Ready find (.terminal ⟨op.token, l₂⟩ :: .value (.expr e₁ l₁) :: stack)
      loosest where
  begins := by
    intro t hstarts
    cases op with
    | sequence => simp [Operator.token, reduce, hstarts]
    | _ => rfl
  goesOn := by
    intro op' e loc hop
    have hlt : op.precedence < op'.precedence := lt_of_lt_of_le hloosest hop
    rw [reduceExpr_operator, if_neg]
    simp [Operator.reducesBefore, hlt]
  noName := by
    intro text loc below heq
    cases op <;> cases heq

theorem ready_argument (stack : List Symbol) (l : YYLTYPE) {t : Token}
    {t' : Symbol} (hshape :
      (∃ name l', t = .lparen ∧ t' = .terminal ⟨.STRING name, l'⟩) ∨
      ∃ argv, t = .comma ∧ t' = .value (.arglist argv)) :
    Ready find (.terminal ⟨t, l⟩ :: t' :: stack) loosest := by
  obtain ⟨name, l', rfl, rfl⟩ | ⟨argv, rfl, rfl⟩ := hshape
  · refine ⟨?_, ?_, ?_⟩
    · intro t hstarts
      cases t <;> first | rfl | cases hstarts
    · intro op e loc _
      simp [reduceExpr]
    · rintro text loc below ⟨⟩
  · refine ⟨fun _ _ => rfl, ?_, ?_⟩
    · intro op e loc _
      simp [reduceExpr]
    · rintro text loc below ⟨⟩

/-- The last rule is no looser than what is in it. -/
theorem Resolved.min_le_rule {w : List Lexeme} {sem : Semantic}
    (hresolved : Resolved find loosest rule w sem) :
    min loosest bangPrecedence ≤ rule := by
  cases hresolved with
  | binary => exact le_trans (min_le_left _ _) (min_le_right _ _)
  | not => exact min_le_right _ _
  | _ => decide

/-- The parser reads the script of a derivation as the derivation has it. -/
def Runs (find : Bytes → Option Function) (loosest rule : Nat)
    (w : List Lexeme) : Semantic → Prop
  | .expr e loc =>
      ∀ (stack : List Symbol) (input : List Lexeme),
        Ready find stack loosest → Follows rule input →
        Reaches (step find) (stack, w ++ input)
          (.value (.expr e loc) :: stack, input)
  | .arglist argv =>
      ∀ (stack : List Symbol) (name : Bytes) (l₁ l₂ : YYLTYPE) (t : Token)
        (l : YYLTYPE) (input : List Lexeme), t.endsArg = true →
        Reaches (step find)
          (.terminal ⟨.lparen, l₂⟩ :: .terminal ⟨.STRING name, l₁⟩ :: stack,
            w ++ ⟨t, l⟩ :: input)
          (.value (.arglist argv) :: .terminal ⟨.lparen, l₂⟩ ::
            .terminal ⟨.STRING name, l₁⟩ :: stack, ⟨t, l⟩ :: input)

theorem follows_of_endsArg {t : Token} {l : YYLTYPE} {input : List Lexeme}
    (hends : t.endsArg = true) : Follows rule (⟨t, l⟩ :: input) := by
  cases t with
  | comma | rparen => exact follows_cons rfl (by rintro op ⟨⟩)
  | _ => cases hends

/-- A token is shifted behind an expression. -/
theorem reaches_behind (find : Bytes → Option Function) {e : Expr}
    {loc : YYLTYPE} (t : Lexeme) (input : List Lexeme)
    (hreduce : reduceExpr (some t.token) e loc stack = none) :
    Reaches (step find) (.value (.expr e loc) :: stack, t :: input)
      (.terminal t :: .value (.expr e loc) :: stack, input) :=
  reaches_shift hreduce

/-- The first token of an expression is shifted. -/
theorem Ready.reaches (hready : Ready find stack loosest) (t : Token)
    (hstarts : t.starts = true) (l : YYLTYPE) (input : List Lexeme) :
    Reaches (step find) (stack, ⟨t, l⟩ :: input)
      (.terminal ⟨t, l⟩ :: stack, input) :=
  reaches_shift (hready.begins t hstarts)

/-- What stands between two keywords is read, and the second is shifted. -/
theorem Runs.between {w : List Lexeme} {e : Expr} {loc : YYLTYPE}
    (hruns : Runs find loosest rule w (.expr e loc))
    (t t' : Token) (hopens : t.opens = true) (hstarts : t'.starts = false)
    (hoperator : t'.operator? = none) (l l' : YYLTYPE)
    (stack : List Symbol) (input : List Lexeme) :
    Reaches (step find) (.terminal ⟨t, l⟩ :: stack, w ++ ⟨t', l'⟩ :: input)
      (.terminal ⟨t', l'⟩ :: .value (.expr e loc) :: .terminal ⟨t, l⟩ ::
        stack, input) := by
  have hfollows : Follows rule (⟨t', l'⟩ :: input) :=
    follows_cons hstarts (by simp [hoperator])
  have hexpr := hruns _ _ (ready_of_opens stack hopens l) hfollows
  exact hexpr.trans (reaches_behind find _ _
    (reduceExpr_of_opens hopens _ e loc l))

theorem Resolved.runs {w : List Lexeme} {sem : Semantic}
    (hresolved : Resolved find loosest rule w sem) :
    Runs find loosest rule w sem := by
  induction hresolved with
  | string text loc =>
      intro stack input hready hfollows
      have hshift := hready.reaches (.STRING text) rfl loc input
      refine hshift.trans (reaches_reduce (if_neg ?_))
      intro hahead
      exact absurd (hfollows _ hahead).1 (by decide)
  | @paren w e loc _ _ l₁ l₃ _ ih =>
      intro stack input hready hfollows
      obtain ⟨hinner, hstays⟩ := ready_lparen hready.noName l₁
      have hopen := hready.reaches .lparen rfl l₁
        (w ++ ⟨.rparen, l₃⟩ :: input)
      have hexpr := ih _ (⟨.rparen, l₃⟩ :: input) hinner
        (follows_of_endsArg rfl)
      have hclose := reaches_behind find ⟨.rparen, l₃⟩ input
        (hstays (some .rparen) e loc)
      simp only [List.cons_append, List.append_assoc, List.nil_append]
      exact ((hopen.trans hexpr).trans hclose).trans (reaches_reduce rfl)
  | @trailing w e l₁ _ _ l₂ hexpr ih =>
      intro stack input hready hfollows
      have hrule := hexpr.min_le_rule
      have hloosest := hexpr.sequence_le
      have hexpr := ih stack (⟨.semicolon, l₂⟩ :: input)
        (hready.mono hloosest) (follows_cons rfl (by
          rintro op ⟨⟩
          exact le_trans (le_min hloosest (by decide)) hrule))
      have hshift := reaches_behind find ⟨.semicolon, l₂⟩ input
        (hready.goesOn .sequence e l₁ le_rfl)
      simp only [List.append_assoc, List.cons_append, List.nil_append]
      refine (hexpr.trans hshift).trans (reaches_reduce (if_neg ?_))
      simp only [Option.any_eq_true, not_exists, not_and]
      intro t hahead
      simp [(hfollows t hahead).1]
  | @binary u v e₁ e₃ l₁ l₃ _ _ _ _ op l₂ hleft hright hreduce hshift ihLeft
      ihRight =>
      intro stack input hready hfollows
      have hfirst := ihLeft stack (⟨op.token, l₂⟩ :: (v ++ input))
        (hready.mono (min_le_left _ _)) (follows_cons op.starts_token (by
          rw [op.operator?_token]
          rintro _ ⟨⟩
          exact hreduce))
      have hoperator := reaches_behind find ⟨op.token, l₂⟩ (v ++ input)
        (hready.goesOn op e₁ l₁ (min_le_right _ _))
      have hrule := hright.min_le_rule
      have hsecond := ihRight _ input (ready_operator stack op e₁ l₁ l₂ hshift)
        (hfollows.mono (le_trans (le_min hshift.le op.precedence_lt.le)
          hrule))
      simp only [List.append_assoc, List.cons_append]
      refine ((hfirst.trans hoperator).trans hsecond).trans
        (reaches_reduce ?_)
      rw [reduce, reduceExpr_operator, if_pos]
      simp only [Operator.reducesBefore, Option.all_eq_true]
      intro op' hahead
      obtain ⟨t, ht, hop'⟩ := Option.bind_eq_some_iff.mp hahead
      simpa using (hfollows t ht).2 op' hop'
  | @not w e l₂ _ _ l₁ hexpr hshift ih =>
      intro stack input hready hfollows
      have hfirst := hready.reaches .bang rfl l₁ (w ++ input)
      have hrule := hexpr.min_le_rule
      have hoperand := ih _ input (ready_bang stack l₁ hshift)
        (hfollows.mono (le_trans (le_min hshift.le le_rfl) hrule))
      exact (hfirst.trans hoperand).trans (reaches_reduce rfl)
  | ifThen l₁ l₃ l₅ hcond hyes ihCond ihYes =>
      intro stack input hready hfollows
      have hif := hready.reaches .IF rfl l₁
      have hthen := ihCond.between .IF .THEN rfl rfl rfl l₁ l₃
      have hendif := ihYes.between .THEN .ENDIF rfl rfl rfl l₃ l₅
      simp only [List.cons_append, List.append_assoc, List.nil_append]
      exact (((hif _).trans (hthen _ _)).trans (hendif _ _)).trans
        (reaches_reduce rfl)
  | ifThenElse l₁ l₃ l₅ l₇ hcond hyes hno ihCond ihYes ihNo =>
      intro stack input hready hfollows
      have hif := hready.reaches .IF rfl l₁
      have hthen := ihCond.between .IF .THEN rfl rfl rfl l₁ l₃
      have helse := ihYes.between .THEN .ELSE rfl rfl rfl l₃ l₅
      have hendif := ihNo.between .ELSE .ENDIF rfl rfl rfl l₅ l₇
      simp only [List.cons_append, List.append_assoc, List.nil_append]
      exact ((((hif _).trans (hthen _ _)).trans (helse _ _)).trans
        (hendif _ _)).trans (reaches_reduce rfl)
  | @call w argv name fn l₁ l₂ l₄ hfind hargs ih =>
      intro stack input hready hfollows
      have hname := hready.reaches (.STRING name) rfl l₁
        (⟨.lparen, l₂⟩ :: (w ++ ⟨.rparen, l₄⟩ :: input))
      have hopen : Reaches (step find)
          (.terminal ⟨.STRING name, l₁⟩ :: stack,
            ⟨.lparen, l₂⟩ :: (w ++ ⟨.rparen, l₄⟩ :: input)) _ :=
        reaches_shift rfl
      have harglist := ih stack name l₁ l₂ .rparen l₄ input rfl
      have hclose : Reaches (step find) (.value (.arglist argv) ::
          .terminal ⟨.lparen, l₂⟩ :: .terminal ⟨.STRING name, l₁⟩ :: stack,
            ⟨.rparen, l₄⟩ :: input) _ := reaches_shift rfl
      simp only [List.cons_append, List.append_assoc, List.nil_append]
      refine (((hname.trans hopen).trans harglist).trans hclose).trans
        (reaches_reduce ?_)
      simp only [reduce, reduceParen, hfind, Option.map_some]
  | empty =>
      intro stack name l₁ l₂ t l input hends
      exact reaches_reduce (if_pos hends)
  | one hexpr ih =>
      intro stack name l₁ l₂ t l input hends
      have hread := ih _ (⟨t, l⟩ :: input) (ready_argument stack l₂
        (.inl ⟨name, l₁, rfl, rfl⟩)) (follows_of_endsArg hends)
      exact hread.trans (reaches_reduce (if_pos hends))
  | @more u v argv e l₃ _ _ l₂ hargs hexpr ihArgs ihExpr =>
      intro stack name l₁ l₂' t l input hends
      have hfirst := ihArgs stack name l₁ l₂' .comma l₂
        (v ++ ⟨t, l⟩ :: input) rfl
      have hcomma : Reaches (step find) (.value (.arglist argv) ::
          .terminal ⟨.lparen, l₂'⟩ :: .terminal ⟨.STRING name, l₁⟩ :: stack,
            ⟨.comma, l₂⟩ :: (v ++ ⟨t, l⟩ :: input)) _ := reaches_shift rfl
      have hnext := ihExpr _ (⟨t, l⟩ :: input) (ready_argument
        (.terminal ⟨.lparen, l₂'⟩ :: .terminal ⟨.STRING name, l₁⟩ :: stack)
        l₂ (.inr ⟨argv, rfl, rfl⟩)) (follows_of_endsArg hends)
      simp only [List.append_assoc, List.cons_append]
      exact ((hfirst.trans hcomma).trans hnext).trans
        (reaches_reduce (if_pos hends))

/-- The precedences leave a script no second derivation. -/
theorem Resolved.unique {w : List Lexeme} {e e' : Expr} {l l' : YYLTYPE}
    {loosest' rule' : Nat}
    (hresolved : Resolved find loosest rule w (.expr e l))
    (hother : Resolved find loosest' rule' w (.expr e' l')) :
    e = e' ∧ l = l' := by
  have hempty : ∀ loosest, Ready find [] loosest := fun loosest =>
    ⟨fun _ _ => rfl, fun _ _ _ _ => rfl, by rintro text loc below ⟨⟩⟩
  have hend : ∀ rule, Follows rule [] := by
    rintro rule t ⟨⟩
  have hfinal : ∀ {loosest rule e l},
      Resolved find loosest rule w (.expr e l) →
      ([.value (.expr e l)], []) ∈ eval (step find) ([], w) := by
    intro loosest rule e l hexpr
    have hruns := hexpr.runs [] [] (hempty _) (hend _)
    rw [List.append_nil] at hruns
    exact mem_eval.mpr ⟨hruns, rfl⟩
  have heq := Part.mem_unique (hfinal hresolved) (hfinal hother)
  cases heq
  exact ⟨rfl, rfl⟩

end Runs

end Edify

end MetaOS
