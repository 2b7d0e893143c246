/-
The parser gives back the tree that was printed.

The printed text has derivations of one tree only: the parentheses that the
printer writes leave no operator outside of them, so every production but one
would need a cut at a symbol that is not there.
-/
import MetaOS.Brackets
import MetaOS.EdifyParser

namespace MetaOS

namespace Edify

open Brackets

mutual

/-- The expression has the functions, names and arguments of the tree. -/
def Tree.Reads (entries : List NamedFunction) : Tree → Expr → Prop
  | .literal text, .node fn name argv _ _ =>
      fn = .Literal ∧ name = text ∧ argv = []
  | .binary op left right, .node fn name argv _ _ =>
      fn = op.fn ∧ name = .ofString "(operator)" ∧ ∃ e₁ e₂,
        argv = [e₁, e₂] ∧ left.Reads entries e₁ ∧ right.Reads entries e₂
  | .not arg, .node fn name argv _ _ =>
      fn = .LogicalNotFn ∧ name = .ofString "(operator)" ∧ ∃ e,
        argv = [e] ∧ arg.Reads entries e
  | .ifThen cond yes, .node fn name argv _ _ =>
      fn = .IfElseFn ∧ name = .ofString "(operator)" ∧ ∃ e₁ e₂,
        argv = [e₁, e₂] ∧ cond.Reads entries e₁ ∧ yes.Reads entries e₂
  | .ifThenElse cond yes no, .node fn name argv _ _ =>
      fn = .IfElseFn ∧ name = .ofString "(operator)" ∧ ∃ e₁ e₂ e₃,
        argv = [e₁, e₂, e₃] ∧ cond.Reads entries e₁ ∧
          yes.Reads entries e₂ ∧ no.Reads entries e₃
  | .call callee args, .node fn name argv _ _ =>
      ⟨callee, fn⟩ ∈ entries ∧ name = callee ∧ ArgsRead entries args argv

def ArgsRead (entries : List NamedFunction) : List Tree → List Expr → Prop
  | [], argv => argv = []
  | arg :: args, argv => ∃ e rest, argv = e :: rest ∧
      arg.Reads entries e ∧ ArgsRead entries args rest

end

mutual

/-- All names that the tree calls are registered. -/
def Tree.NamesRegistered (entries : List NamedFunction) : Tree → Prop
  | .literal _ => True
  | .binary _ left right =>
      left.NamesRegistered entries ∧ right.NamesRegistered entries
  | .not arg => arg.NamesRegistered entries
  | .ifThen cond yes =>
      cond.NamesRegistered entries ∧ yes.NamesRegistered entries
  | .ifThenElse cond yes no => cond.NamesRegistered entries ∧
      yes.NamesRegistered entries ∧ no.NamesRegistered entries
  | .call name args =>
      (∃ fn, ⟨name, fn⟩ ∈ entries) ∧ ArgNamesRegistered entries args

def ArgNamesRegistered (entries : List NamedFunction) : List Tree → Prop
  | [] => True
  | arg :: args =>
      arg.NamesRegistered entries ∧ ArgNamesRegistered entries args

end

def Token.kind : Token → Kind
  | lparen | IF => .opening
  | rparen | ENDIF => .closing
  | _ => .inner

theorem Operator.kind_token (op : Operator) : op.token.kind = .inner := by
  cases op with
  | _ => rfl

section Words

variable {find : Bytes → Option Function} {w : List Lexeme} {sem : Semantic}

/-- What does not stand outside of the brackets in an expression or an
argument list. -/
def Semantic.stops : Semantic → List Token
  | expr _ _ => [.THEN, .ELSE, .comma]
  | arglist _ => [.THEN, .ELSE]

theorem Derives.closed (hderives : Derives find w sem) :
    Closed Token.kind sem.stops (w.map Lexeme.token) := by
  induction hderives with
  | string text loc => exact closed_nil.cons rfl (by simp [Semantic.stops])
  | paren l₁ l₃ hexpr ih =>
      rw [List.map_append, List.map_cons]
      exact ih.balanced.closed_enclosed rfl rfl
  | trailing l₂ hexpr ih =>
      rw [List.map_append]
      exact ih.append (closed_nil.cons rfl (by simp [Semantic.stops]))
  | binary op l₂ hleft hright ihleft ihright =>
      rw [List.map_append, List.map_cons]
      refine ihleft.append (ihright.cons op.kind_token ?_)
      cases op with
      | _ => simp [Semantic.stops, Operator.token]
  | not l₁ hexpr ih =>
      rw [List.map_cons]
      exact ih.cons rfl (by simp [Semantic.stops])
  | ifThen l₁ l₃ l₅ hcond hyes ihcond ihyes =>
      rw [List.map_append, List.map_cons, List.map_append, List.map_cons]
      apply Balanced.closed_enclosed _ rfl rfl
      exact ihcond.balanced.append ((balanced_cons rfl).mpr ihyes.balanced)
  | ifThenElse l₁ l₃ l₅ l₇ hcond hyes hno ihcond ihyes ihno =>
      simp only [List.map_append, List.map_cons]
      apply Balanced.closed_enclosed _ rfl rfl
      exact ihcond.balanced.append ((balanced_cons rfl).mpr
        (ihyes.balanced.append ((balanced_cons rfl).mpr ihno.balanced)))
  | call l₁ l₂ l₄ hfind hargs ih =>
      rw [List.map_cons, List.map_append, List.map_cons]
      exact (ih.balanced.closed_enclosed rfl rfl).cons rfl
        (by simp [Semantic.stops])
  | empty => exact closed_nil
  | one hexpr ih => exact ih.mono (by simp [Semantic.stops])
  | more l₂ hargs hexpr ihargs ihexpr =>
      rw [List.map_append, List.map_cons]
      refine ihargs.append ((ihexpr.mono ?_).cons rfl ?_)
      · simp [Semantic.stops]
      · simp [Semantic.stops]

theorem Derives.ne_nil {e : Expr} {loc : YYLTYPE}
    (hderives : Derives find w (.expr e loc)) :
    w.map Lexeme.token ≠ [] := by
  cases hderives with
  | _ => simp

end Words

section Printed

/-- What stands between the parentheses of an operator. -/
inductive Tree.Body : Tree → List Token → Prop
  | binary (op : Operator) (left right : Tree) :
      Body (.binary op left right) (left.tokens ++ op.token :: right.tokens)
  | not (arg : Tree) : Body (.not arg) (.bang :: arg.tokens)
  | ifThen (cond yes : Tree) : Body (.ifThen cond yes)
      (.IF :: (cond.tokens ++ .THEN :: yes.tokens) ++ [.ENDIF])
  | ifThenElse (cond yes no : Tree) : Body (.ifThenElse cond yes no)
      (.IF :: (cond.tokens ++ .THEN :: (yes.tokens ++ .ELSE :: no.tokens)) ++
        [.ENDIF])

theorem Tree.tokens_cases (tree : Tree) :
    (∃ text, tree = .literal text) ∨ (∃ name args, tree = .call name args) ∨
      ∃ body, tree.Body body ∧
        tree.tokens = .lparen :: body ++ [.rparen] := by
  cases tree with
  | literal text => exact .inl ⟨text, rfl⟩
  | call name args => exact .inr (.inl ⟨name, args, rfl⟩)
  | binary op left right =>
      exact .inr (.inr ⟨_, .binary op left right, by rw [tokens]⟩)
  | not arg => exact .inr (.inr ⟨_, .not arg, by rw [tokens]⟩)
  | ifThen cond yes =>
      exact .inr (.inr ⟨_, .ifThen cond yes, by simp [tokens]⟩)
  | ifThenElse cond yes no =>
      exact .inr (.inr ⟨_, .ifThenElse cond yes no, by simp [tokens]⟩)

theorem argTokens_cons_cons (arg next : Tree) (args : List Tree) :
    argTokens (arg :: next :: args) =
      arg.tokens ++ .comma :: argTokens (next :: args) := by
  rw [argTokens]
  exact List.cons_ne_nil _ _

/-- A printed tree may have strings outside of its brackets. -/
abbrev NoStrings (stops : List Token) : Prop := ∀ text, .STRING text ∉ stops

mutual

/-- A printed tree has at most a string outside of its brackets. -/
theorem Tree.closed : (tree : Tree) → (stops : List Token) →
    NoStrings stops → Closed Token.kind stops tree.tokens
  | .literal text, _, hstops => by
      rw [Tree.tokens]
      exact closed_nil.cons rfl (hstops text)
  | .binary op left right, _, _ => by
      rw [Tree.tokens]
      exact (left.balanced.append ((balanced_cons op.kind_token).mpr
        right.balanced)).closed_enclosed rfl rfl
  | .not arg, _, _ => by
      rw [Tree.tokens]
      exact ((balanced_cons rfl).mpr arg.balanced).closed_enclosed rfl rfl
  | .ifThen cond yes, _, _ => by
      rw [Tree.tokens]
      apply Balanced.closed_enclosed _ rfl rfl
      have hbody := (cond.balanced.append ((balanced_cons (a := .THEN)
        rfl).mpr yes.balanced)).enclosed (a := .IF) (b := .ENDIF) rfl rfl
      simpa using hbody
  | .ifThenElse cond yes no, _, _ => by
      rw [Tree.tokens]
      apply Balanced.closed_enclosed _ rfl rfl
      have hbody := (cond.balanced.append ((balanced_cons (a := .THEN)
        rfl).mpr (yes.balanced.append ((balanced_cons (a := .ELSE)
        rfl).mpr no.balanced)))).enclosed (a := .IF) (b := .ENDIF) rfl rfl
      simpa using hbody
  | .call name args, _, hstops => by
      rw [Tree.tokens]
      exact ((balanced_argTokens args).closed_enclosed rfl rfl).cons rfl
        (hstops name)

theorem Tree.balanced : (tree : Tree) → Balanced Token.kind tree.tokens
  | tree => (tree.closed [] fun _ => List.not_mem_nil).balanced

theorem balanced_argTokens :
    (args : List Tree) → Balanced Token.kind (argTokens args)
  | [] => balanced_nil
  | [arg] => arg.balanced
  | arg :: next :: args => by
      rw [argTokens_cons_cons]
      exact arg.balanced.append
        ((balanced_cons rfl).mpr (balanced_argTokens (next :: args)))

end

theorem Tree.tokens_head (tree : Tree) : ∃ first rest,
    tree.tokens = first :: rest ∧
      (first = .lparen ∨ ∃ text, first = .STRING text) := by
  rcases tree.tokens_cases with ⟨text, rfl⟩ | ⟨name, args, rfl⟩ |
    ⟨body, -, htokens⟩
  · exact ⟨_, [], by rw [Tree.tokens], .inr ⟨text, rfl⟩⟩
  · exact ⟨_, _, by rw [Tree.tokens]; rfl, .inr ⟨name, rfl⟩⟩
  · exact ⟨_, _, htokens, .inl rfl⟩

theorem Tree.tokens_ne_nil (tree : Tree) : tree.tokens ≠ [] := by
  obtain ⟨first, rest, htokens, -⟩ := tree.tokens_head
  rw [htokens]
  exact List.cons_ne_nil _ _

variable {u v : List Token}

/-- A printed tree cannot be cut at a symbol that is no string. -/
theorem Tree.no_cut {tree : Tree} {o : Token}
    (hcut : tree.tokens = u ++ o :: v) (hu : Balanced Token.kind u)
    (ho : o.kind = .inner) : ∃ text, o = .STRING text := by
  by_contra hstring
  have hclosed := tree.closed [o] (by
    intro text hmem
    exact hstring ⟨text, (List.mem_singleton.mp hmem).symm⟩)
  rw [hcut] at hclosed
  exact hclosed.no_cut hu ho (List.mem_singleton_self o)

theorem Operator.token_ne_string (op : Operator) (text : Bytes) :
    op.token ≠ .STRING text := by
  cases op with
  | _ => simp [Operator.token]

theorem Operator.token_injective {op op' : Operator}
    (heq : op.token = op'.token) : op = op' := by
  cases op with
  | _ => cases op' with
    | _ => first | rfl | cases heq

theorem Tree.no_operator {tree : Tree} {op : Operator}
    (hu : Balanced Token.kind u) : tree.tokens ≠ u ++ op.token :: v := by
  intro hcut
  obtain ⟨text, htext⟩ := Tree.no_cut hcut hu op.kind_token
  exact op.token_ne_string text htext

/-- The only cut of a body at an operator is at the operator of the tree. -/
theorem Tree.Body.cut {tree : Tree} {body : List Token} {op : Operator}
    (hbody : tree.Body body) (hcut : body = u ++ op.token :: v)
    (hu : Balanced Token.kind u) (hne : u ≠ []) :
    ∃ left right : Tree, tree = .binary op left right ∧ u = left.tokens ∧
      v = right.tokens := by
  cases hbody with
  | binary op' left right =>
      have hfree : ∀ (tree : Tree) (op : Operator),
          op.token ∉ top Token.kind 0 tree.tokens := fun tree op =>
        (tree.closed [op.token] fun text hmem =>
          op.token_ne_string text (List.mem_singleton.mp hmem).symm).free _
            (List.mem_singleton_self _)
      obtain ⟨rfl, hop, rfl⟩ := cut_unique hcut left.balanced hu
        op'.kind_token op.kind_token (.inr (hfree right op))
        (.inl (hfree left op))
      exact ⟨left, right, by rw [Operator.token_injective hop], rfl, rfl⟩
  | not arg =>
      obtain ⟨first, u, rfl⟩ := List.exists_cons_of_ne_nil hne
      obtain ⟨rfl, hrest⟩ := List.cons.inj hcut
      exact absurd hrest (Tree.no_operator ((balanced_cons rfl).mp hu))
  | ifThen cond yes =>
      have hclosed : Closed Token.kind [op.token] _ :=
        (cond.balanced.append ((balanced_cons (a := .THEN) rfl).mpr
          yes.balanced)).closed_enclosed (a := .IF) (b := .ENDIF) rfl rfl
      rw [hcut] at hclosed
      exact absurd (List.mem_singleton_self _)
        (hclosed.no_cut hu op.kind_token)
  | ifThenElse cond yes no =>
      have hclosed : Closed Token.kind [op.token] _ :=
        (cond.balanced.append ((balanced_cons (a := .THEN) rfl).mpr
          (yes.balanced.append ((balanced_cons (a := .ELSE) rfl).mpr
            no.balanced)))).closed_enclosed (a := .IF) (b := .ENDIF) rfl rfl
      rw [hcut] at hclosed
      exact absurd (List.mem_singleton_self _)
        (hclosed.no_cut hu op.kind_token)

/-- The only cut at a word that stands behind a printed tree. -/
theorem cut_word {left : Tree} {y : List Token} {o : Token}
    {stops : List Token} (hcut : left.tokens ++ o :: y = u ++ o :: v)
    (hu : Closed Token.kind stops u) (hstop : o ∈ stops)
    (ho : o.kind = .inner) (hword : ∀ text, o ≠ .STRING text) :
    left.tokens = u ∧ y = v := by
  have hfree := (left.closed [o] fun text hmem =>
    hword text (List.mem_singleton.mp hmem).symm).free o
      (List.mem_singleton_self o)
  obtain ⟨hleft, -, hright⟩ := cut_unique hcut left.balanced hu.balanced ho ho
    (.inl (hu.free o hstop)) (.inl hfree)
  exact ⟨hleft, hright⟩

theorem argTokens_concat {init : List Tree} (hinit : init ≠ [])
    (last : Tree) : argTokens (init ++ [last]) =
      argTokens init ++ .comma :: last.tokens := by
  induction init with
  | nil => exact absurd rfl hinit
  | cons arg init ih =>
      cases init with
      | nil => simp [argTokens]
      | cons next init =>
          have hrest := ih (List.cons_ne_nil next init)
          simp only [List.cons_append] at hrest
          simp [argTokens, hrest]

theorem argTokens_eq_nil {args : List Tree} (hnil : argTokens args = []) :
    args = [] := by
  match args with
  | [] => rfl
  | [arg] => exact absurd hnil arg.tokens_ne_nil
  | arg :: next :: args => simp [argTokens_cons_cons] at hnil

end Printed

section Uniqueness

variable {entries : List NamedFunction}

theorem Tree.reads_locate {tree : Tree} {e : Expr} (loc : YYLTYPE)
    (hreads : tree.Reads entries e) : tree.Reads entries (e.locate loc) := by
  cases e with
  | node fn name argv start stop =>
      cases tree with
      | _ => exact hreads

theorem argsRead_concat {args : List Tree} {argv : List Expr} {arg : Tree}
    {e : Expr} (hargs : ArgsRead entries args argv)
    (harg : arg.Reads entries e) :
    ArgsRead entries (args ++ [arg]) (argv ++ [e]) := by
  induction args generalizing argv with
  | nil =>
      rw [ArgsRead] at hargs
      subst hargs
      exact ⟨e, [], rfl, harg, rfl⟩
  | cons first args ih =>
      obtain ⟨e₁, rest, rfl, hfirst, hrest⟩ := hargs
      exact ⟨e₁, rest ++ [e], rfl, hfirst, ih hrest⟩

/-- What is derived from the words of a tree reads the tree. -/
def Meaning (entries : List NamedFunction) (word : List Token) :
    Semantic → Prop
  | .expr e _ => (∀ tree : Tree, tree.tokens = word → tree.Reads entries e) ∧
      ∀ (tree : Tree) (body : List Token), tree.Body body → body = word →
        tree.Reads entries e
  | .arglist argv => ∀ args, argTokens args = word →
      ArgsRead entries args argv

variable {u v w : List Token} {e e₂ e₃ : Expr} {argv : List Expr}
  {loc l₂ l₃ : YYLTYPE}

theorem Tree.tokens_ne_cons {tree : Tree} {t : Token} (hparen : t ≠ .lparen)
    (hstring : ∀ text, t ≠ .STRING text) : tree.tokens ++ v ≠ t :: w := by
  intro htokens
  obtain ⟨first, rest, hhead, hfirst⟩ := tree.tokens_head
  rw [hhead] at htokens
  obtain ⟨rfl, -⟩ := List.cons.inj htokens
  rcases hfirst with hfirst | ⟨text, hfirst⟩
  · exact hparen hfirst
  · exact hstring text hfirst

/-- The body of a binary operator is not closed up. -/
theorem not_closed_binary {op : Operator} {left right : Tree}
    (hclosed : Closed Token.kind [op.token] w) :
    left.tokens ++ op.token :: right.tokens ≠ w := by
  rintro rfl
  exact hclosed.no_cut left.balanced op.kind_token
    (List.mem_singleton_self _)

theorem meaning_string (text : Bytes) (loc : YYLTYPE) :
    Meaning entries [.STRING text]
      (.expr (.node .Literal text [] loc.start loc.stop) loc) := by
  constructor
  · intro tree htokens
    rcases tree.tokens_cases with ⟨text, rfl⟩ | ⟨name, args, rfl⟩ |
      ⟨body, -, hparens⟩
    · rw [Tree.tokens] at htokens
      cases htokens
      exact ⟨rfl, rfl, rfl⟩
    · rw [Tree.tokens] at htokens
      cases htokens
    · rw [hparens] at htokens
      cases htokens
  · intro tree body hbody hword
    cases hbody with
    | binary op left right =>
        refine absurd hword (not_closed_binary (closed_nil.cons rfl ?_))
        simpa using (op.token_ne_string text).symm
    | not arg => cases hword
    | ifThen cond yes => cases hword
    | ifThenElse cond yes no => cases hword

theorem meaning_paren (l : YYLTYPE) (hw : Balanced Token.kind w)
    (hexpr : Meaning entries w (.expr e loc)) :
    Meaning entries (.lparen :: w ++ [.rparen]) (.expr (e.locate l) l) := by
  constructor
  · intro tree htokens
    rcases tree.tokens_cases with ⟨text, rfl⟩ | ⟨name, args, rfl⟩ |
      ⟨body, hbody, hparens⟩
    · rw [Tree.tokens] at htokens
      cases htokens
    · rw [Tree.tokens] at htokens
      cases htokens
    · rw [hparens] at htokens
      have hword := List.append_cancel_right (List.cons.inj htokens).2
      exact Tree.reads_locate l (hexpr.2 tree body hbody hword)
  · intro tree body hbody hword
    cases hbody with
    | binary op left right =>
        exact absurd hword
          (not_closed_binary (hw.closed_enclosed rfl rfl))
    | not arg => cases hword
    | ifThen cond yes => cases hword
    | ifThenElse cond yes no => cases hword

/-- No printed tree needs the semicolon behind an expression. -/
theorem meaning_trailing (hu : Balanced Token.kind u) (hne : u ≠ []) :
    Meaning entries (u ++ [.semicolon]) (.expr e loc) := by
  constructor
  · intro tree htokens
    have hcut : tree.tokens ≠ u ++ Operator.sequence.token :: [] :=
      Tree.no_operator hu
    exact absurd htokens hcut
  · intro tree body hbody hword
    have hcut : body = u ++ Operator.sequence.token :: [] := hword
    obtain ⟨left, right, -, -, hright⟩ := hbody.cut hcut hu hne
    exact absurd hright.symm right.tokens_ne_nil

theorem meaning_binary (op : Operator) (l l' : YYLTYPE)
    (hu : Balanced Token.kind u) (hne : u ≠ [])
    (hleft : Meaning entries u (.expr e₂ l₂))
    (hright : Meaning entries v (.expr e₃ l₃)) :
    Meaning entries (u ++ op.token :: v)
      (.expr (build op.fn l [e₂, e₃]) l') := by
  constructor
  · intro tree htokens
    exact absurd htokens (Tree.no_operator hu)
  · intro tree body hbody hword
    obtain ⟨left, right, rfl, rfl, rfl⟩ := hbody.cut hword hu hne
    exact ⟨rfl, rfl, e₂, e₃, rfl, hleft.1 left rfl, hright.1 right rfl⟩

theorem meaning_not (l l' : YYLTYPE)
    (hexpr : Meaning entries w (.expr e loc)) :
    Meaning entries (.bang :: w)
      (.expr (build .LogicalNotFn l [e]) l') := by
  constructor
  · intro tree htokens
    rw [← List.append_nil tree.tokens] at htokens
    exact absurd htokens (Tree.tokens_ne_cons (by simp) (by simp))
  · intro tree body hbody hword
    cases hbody with
    | binary op left right =>
        exact absurd hword (Tree.tokens_ne_cons (by simp) (by simp))
    | not arg =>
        cases hword
        exact ⟨rfl, rfl, e, rfl, hexpr.1 arg rfl⟩
    | ifThen cond yes => cases hword
    | ifThenElse cond yes no => cases hword

/-- A conditional is read as the words between `if` and `endif` are. -/
theorem meaning_if (hthen : ∀ cond yes : Tree,
      cond.tokens ++ .THEN :: yes.tokens = w →
      (Tree.ifThen cond yes).Reads entries e)
    (helse : ∀ cond yes no : Tree,
      cond.tokens ++ .THEN :: (yes.tokens ++ .ELSE :: no.tokens) = w →
      (Tree.ifThenElse cond yes no).Reads entries e) :
    Meaning entries (.IF :: w ++ [.ENDIF]) (.expr e loc) := by
  constructor
  · intro tree htokens
    rw [← List.append_nil tree.tokens] at htokens
    exact absurd htokens (Tree.tokens_ne_cons (by simp) (by simp))
  · intro tree body hbody hword
    cases hbody with
    | binary op left right =>
        exact absurd hword (Tree.tokens_ne_cons (by simp) (by simp))
    | not arg => cases hword
    | ifThen cond yes =>
        exact hthen cond yes (List.append_cancel_right (List.cons.inj hword).2)
    | ifThenElse cond yes no =>
        exact helse cond yes no
          (List.append_cancel_right (List.cons.inj hword).2)

theorem meaning_ifThen (l l' : YYLTYPE)
    (hu : Closed Token.kind (Semantic.expr e₂ l₂).stops u)
    (hv : Closed Token.kind (Semantic.expr e₃ l₃).stops v)
    (hcond : Meaning entries u (.expr e₂ l₂))
    (hyes : Meaning entries v (.expr e₃ l₃)) :
    Meaning entries (.IF :: (u ++ .THEN :: v) ++ [.ENDIF])
      (.expr (build .IfElseFn l [e₂, e₃]) l') := by
  apply meaning_if
  · intro cond yes hword
    obtain ⟨rfl, rfl⟩ := cut_word hword hu (by simp [Semantic.stops]) rfl
      (by simp)
    exact ⟨rfl, rfl, e₂, e₃, rfl, hcond.1 cond rfl, hyes.1 yes rfl⟩
  · intro cond yes no hword
    obtain ⟨rfl, rfl⟩ := cut_word hword hu (by simp [Semantic.stops]) rfl
      (by simp)
    exact absurd (by simp [Semantic.stops]) (hv.no_cut yes.balanced rfl)

theorem meaning_ifThenElse {e₄ : Expr} {l₄ : YYLTYPE} (l l' : YYLTYPE)
    (hu : Closed Token.kind (Semantic.expr e₂ l₂).stops u)
    (hv : Closed Token.kind (Semantic.expr e₃ l₃).stops v)
    (hcond : Meaning entries u (.expr e₂ l₂))
    (hyes : Meaning entries v (.expr e₃ l₃))
    (hno : Meaning entries w (.expr e₄ l₄)) :
    Meaning entries (.IF :: (u ++ .THEN :: (v ++ .ELSE :: w)) ++ [.ENDIF])
      (.expr (build .IfElseFn l [e₂, e₃, e₄]) l') := by
  apply meaning_if
  · intro cond yes hword
    obtain ⟨rfl, hyes⟩ := cut_word hword hu (by simp [Semantic.stops]) rfl
      (by simp)
    obtain ⟨text, htext⟩ := Tree.no_cut hyes hv.balanced rfl
    cases htext
  · intro cond yes no hword
    obtain ⟨rfl, hrest⟩ := cut_word hword hu (by simp [Semantic.stops]) rfl
      (by simp)
    obtain ⟨rfl, rfl⟩ := cut_word hrest hv (by simp [Semantic.stops]) rfl
      (by simp)
    exact ⟨rfl, rfl, e₂, e₃, e₄, rfl, hcond.1 cond rfl, hyes.1 yes rfl,
      hno.1 no rfl⟩

theorem meaning_call {name : Bytes} {fn : Function} (start stop : Int)
    (hfind : ⟨name, fn⟩ ∈ entries) (hw : Balanced Token.kind w)
    (hargs : Meaning entries w (.arglist argv)) :
    Meaning entries (.STRING name :: (.lparen :: w ++ [.rparen]))
      (.expr (.node fn name argv start stop) loc) := by
  constructor
  · intro tree htokens
    rcases tree.tokens_cases with ⟨text, rfl⟩ | ⟨callee, args, rfl⟩ |
      ⟨body, -, hparens⟩
    · rw [Tree.tokens] at htokens
      cases htokens
    · rw [Tree.tokens, List.cons_append, List.cons_append] at htokens
      obtain ⟨hname, hrest⟩ := List.cons.inj htokens
      cases hname
      have hword := List.append_cancel_right (List.cons.inj hrest).2
      exact ⟨hfind, rfl, hargs args hword⟩
    · rw [hparens] at htokens
      cases htokens
  · intro tree body hbody hword
    cases hbody with
    | binary op left right =>
        refine absurd hword
          (not_closed_binary ((hw.closed_enclosed rfl rfl).cons rfl ?_))
        simpa using (op.token_ne_string name).symm
    | not arg => cases hword
    | ifThen cond yes => cases hword
    | ifThenElse cond yes no => cases hword

theorem meaning_one (hne : w ≠ [])
    (hw : Closed Token.kind (Semantic.expr e loc).stops w)
    (hexpr : Meaning entries w (.expr e loc)) :
    Meaning entries w (.arglist [e]) := by
  intro args hword
  match args with
  | [] => exact absurd hword.symm hne
  | [arg] => exact ⟨e, [], rfl, hexpr.1 arg hword, rfl⟩
  | arg :: next :: args =>
      rw [← hword, argTokens_cons_cons] at hw
      exact absurd (by simp [Semantic.stops]) (hw.no_cut arg.balanced rfl)

theorem meaning_more
    (hu : Balanced Token.kind u)
    (hv : Closed Token.kind (Semantic.expr e loc).stops v)
    (hargs : Meaning entries u (.arglist argv))
    (hexpr : Meaning entries v (.expr e loc)) :
    Meaning entries (u ++ .comma :: v) (.arglist (argv ++ [e])) := by
  intro args hword
  rcases args.eq_nil_or_concat' with rfl | ⟨init, last, rfl⟩
  · cases u with
    | nil => cases hword
    | cons t u => cases hword
  · by_cases hinit : init = []
    · subst hinit
      obtain ⟨text, htext⟩ := Tree.no_cut hword hu rfl
      cases htext
    · rw [argTokens_concat hinit] at hword
      have hlast :=
        (last.closed [.comma] (by simp [NoStrings])).free .comma (by simp)
      have hcomma := hv.free .comma (by simp [Semantic.stops])
      obtain ⟨rfl, -, rfl⟩ := cut_unique hword (balanced_argTokens init) hu
        rfl rfl (.inr hlast) (.inr hcomma)
      exact argsRead_concat (hargs init rfl) (hexpr.1 last rfl)

theorem Derives.reads {w : List Lexeme} {sem : Semantic}
    (hderives : Derives (findFunction (finishRegistration entries)) w sem) :
    Meaning entries (w.map Lexeme.token) sem := by
  induction hderives with
  | string text loc => exact meaning_string text loc
  | paren l₁ l₃ hexpr ih =>
      rw [List.map_append, List.map_cons]
      exact meaning_paren _ hexpr.closed.balanced ih
  | trailing l₂ hexpr ih =>
      rw [List.map_append]
      exact meaning_trailing hexpr.closed.balanced hexpr.ne_nil
  | binary op l₂ hleft hright ihleft ihright =>
      rw [List.map_append, List.map_cons]
      exact meaning_binary op _ _ hleft.closed.balanced hleft.ne_nil ihleft
        ihright
  | not l₁ hexpr ih => exact meaning_not _ _ ih
  | ifThen l₁ l₃ l₅ hcond hyes ihcond ihyes =>
      simp only [List.map_append, List.map_cons]
      exact meaning_ifThen _ _ hcond.closed hyes.closed ihcond ihyes
  | ifThenElse l₁ l₃ l₅ l₇ hcond hyes hno ihcond ihyes ihno =>
      simp only [List.map_append, List.map_cons]
      exact meaning_ifThenElse _ _ hcond.closed hyes.closed ihcond ihyes ihno
  | call l₁ l₂ l₄ hfind hargs ih =>
      simp only [List.map_append, List.map_cons]
      exact meaning_call _ _ (mem_of_findFunction hfind)
        hargs.closed.balanced ih
  | empty =>
      intro args hword
      rw [argTokens_eq_nil hword]
      rfl
  | one hexpr ih => exact meaning_one hexpr.ne_nil hexpr.closed ih
  | more l₂ hargs hexpr ihargs ihexpr =>
      rw [List.map_append, List.map_cons]
      exact meaning_more hargs.closed.balanced hexpr.closed ihargs ihexpr

end Uniqueness

section Existence

variable {entries : List NamedFunction}

/-- A word of the grammar that is derived as an expression. -/
def IsExpr (entries : List NamedFunction) (w : List Lexeme) : Prop :=
  ∃ e loc, Derives (findFunction (finishRegistration entries)) w (.expr e loc)

def IsArglist (entries : List NamedFunction) (w : List Lexeme) : Prop :=
  ∃ argv, Derives (findFunction (finishRegistration entries)) w
    (.arglist argv)

theorem split_token {w : List Lexeme} {t : Token} {ts : List Token}
    (hw : w.map Lexeme.token = t :: ts) :
    ∃ loc rest, w = ⟨t, loc⟩ :: rest ∧ rest.map Lexeme.token = ts := by
  obtain ⟨⟨token, loc⟩, rest, rfl, rfl, hrest⟩ := List.map_eq_cons_iff.mp hw
  exact ⟨loc, rest, rfl, hrest⟩

/-- A word between two brackets. -/
theorem split_enclosed {w : List Lexeme} {a b : Token} {ts : List Token}
    (hw : w.map Lexeme.token = a :: ts ++ [b]) :
    ∃ l l' inside, w = ⟨a, l⟩ :: inside ++ [⟨b, l'⟩] ∧
      inside.map Lexeme.token = ts := by
  obtain ⟨l, rest, rfl, hrest⟩ := split_token hw
  obtain ⟨inside, last, rfl, hinside, hlast⟩ := List.map_eq_append_iff.mp hrest
  obtain ⟨l', behind, rfl, hbehind⟩ := split_token hlast
  obtain rfl := List.map_eq_nil_iff.mp hbehind
  exact ⟨l, l', inside, rfl, hinside⟩

/-- A word that is cut at a token. -/
theorem split_cut {w : List Lexeme} {t : Token} {ts ts' : List Token}
    (hw : w.map Lexeme.token = ts ++ t :: ts') :
    ∃ loc u v, w = u ++ ⟨t, loc⟩ :: v ∧ u.map Lexeme.token = ts ∧
      v.map Lexeme.token = ts' := by
  obtain ⟨u, rest, rfl, hu, hrest⟩ := List.map_eq_append_iff.mp hw
  obtain ⟨loc, v, rfl, hv⟩ := split_token hrest
  exact ⟨loc, u, v, rfl, hu, hv⟩

theorem argTokens_cons (arg : Tree) (args : List Tree) :
    argTokens (arg :: args) =
      arg.tokens ++ args.flatMap fun arg => .comma :: arg.tokens := by
  induction args generalizing arg with
  | nil => simp [argTokens]
  | cons next args ih => rw [argTokens_cons_cons, ih, List.flatMap_cons]; rfl

mutual

/-- The tokens of a tree are an expression. -/
theorem Tree.isExpr : (tree : Tree) → tree.NamesRegistered entries →
    ∀ w : List Lexeme, w.map Lexeme.token = tree.tokens → IsExpr entries w
  | .literal text, _, w, hw => by
      rw [Tree.tokens] at hw
      obtain ⟨loc, rest, rfl, hrest⟩ := split_token hw
      obtain rfl := List.map_eq_nil_iff.mp hrest
      exact ⟨_, _, .string text loc⟩
  | .binary op left right, hnames, w, hw => by
      rw [Tree.tokens] at hw
      obtain ⟨l₁, l₂, body, rfl, hbody⟩ := split_enclosed hw
      obtain ⟨l₃, u, v, rfl, hu, hv⟩ := split_cut hbody
      obtain ⟨_, _, hleft⟩ := left.isExpr hnames.1 u hu
      obtain ⟨_, _, hright⟩ := right.isExpr hnames.2 v hv
      exact ⟨_, _, .paren l₁ l₂ (.binary op l₃ hleft hright)⟩
  | .not arg, hnames, w, hw => by
      rw [Tree.tokens] at hw
      obtain ⟨l₁, l₂, body, rfl, hbody⟩ := split_enclosed hw
      obtain ⟨l₃, v, rfl, hv⟩ := split_token hbody
      obtain ⟨_, _, harg⟩ := arg.isExpr hnames v hv
      exact ⟨_, _, .paren l₁ l₂ (.not l₃ harg)⟩
  | .ifThen cond yes, hnames, w, hw => by
      rw [Tree.tokens] at hw
      obtain ⟨l₁, l₂, body, rfl, hbody⟩ := split_enclosed hw
      obtain ⟨l₃, l₄, inside, rfl, hinside⟩ := split_enclosed hbody
      obtain ⟨l₅, u, v, rfl, hu, hv⟩ := split_cut hinside
      obtain ⟨_, _, hcond⟩ := cond.isExpr hnames.1 u hu
      obtain ⟨_, _, hyes⟩ := yes.isExpr hnames.2 v hv
      exact ⟨_, _, .paren l₁ l₂ (.ifThen l₃ l₅ l₄ hcond hyes)⟩
  | .ifThenElse cond yes no, hnames, w, hw => by
      have htokens : w.map Lexeme.token = .lparen :: (.IF :: (cond.tokens ++
          .THEN :: (yes.tokens ++ .ELSE :: no.tokens)) ++ [.ENDIF]) ++
          [.rparen] := by
        simpa [Tree.tokens] using hw
      obtain ⟨l₁, l₂, body, rfl, hbody⟩ := split_enclosed htokens
      obtain ⟨l₃, l₄, inside, rfl, hinside⟩ := split_enclosed hbody
      obtain ⟨l₅, u, rest, rfl, hu, hrest⟩ := split_cut hinside
      obtain ⟨l₆, v, x, rfl, hv, hx⟩ := split_cut hrest
      obtain ⟨_, _, hcond⟩ := cond.isExpr hnames.1 u hu
      obtain ⟨_, _, hyes⟩ := yes.isExpr hnames.2.1 v hv
      obtain ⟨_, _, hno⟩ := no.isExpr hnames.2.2 x hx
      exact ⟨_, _, .paren l₁ l₂ (.ifThenElse l₃ l₅ l₆ l₄ hcond hyes hno)⟩
  | .call name args, hnames, w, hw => by
      rw [Tree.tokens] at hw
      obtain ⟨l₁, rest, rfl, hrest⟩ := split_token hw
      obtain ⟨l₂, l₃, inside, rfl, hinside⟩ := split_enclosed hrest
      obtain ⟨⟨fn, hmem⟩, hargs⟩ := hnames
      obtain ⟨found, hfind⟩ := exists_findFunction hmem
      obtain ⟨argv, harglist⟩ := isArglist args hargs inside hinside
      exact ⟨_, _, .call l₁ l₂ l₃ hfind harglist⟩

theorem isArglist : (args : List Tree) → ArgNamesRegistered entries args →
    ∀ w : List Lexeme, w.map Lexeme.token = argTokens args →
      IsArglist entries w
  | [], _, w, hw => by
      rw [argTokens] at hw
      obtain rfl := List.map_eq_nil_iff.mp hw
      exact ⟨[], .empty⟩
  | arg :: args, hnames, w, hw => by
      rw [argTokens_cons] at hw
      obtain ⟨u, v, rfl, hu, hv⟩ := List.map_eq_append_iff.mp hw
      obtain ⟨e, _, harg⟩ := arg.isExpr hnames.1 u hu
      exact isArglist_append args hnames.2 u v ⟨[e], .one harg⟩ hv

/-- Arguments that are added behind others. -/
theorem isArglist_append :
    (args : List Tree) → ArgNamesRegistered entries args →
    ∀ u v : List Lexeme, IsArglist entries u →
      v.map Lexeme.token = args.flatMap (fun arg => .comma :: arg.tokens) →
      IsArglist entries (u ++ v)
  | [], _, u, v, hu, hv => by
      obtain rfl := List.map_eq_nil_iff.mp hv
      rwa [List.append_nil]
  | arg :: args, hnames, u, v, hu, hv => by
      rw [List.flatMap_cons] at hv
      obtain ⟨loc, rest, rfl, hrest⟩ := split_token hv
      obtain ⟨x, y, rfl, hx, hy⟩ := List.map_eq_append_iff.mp hrest
      obtain ⟨argv, hargs⟩ := hu
      obtain ⟨e, _, harg⟩ := arg.isExpr hnames.1 x hx
      have hmore := isArglist_append args hnames.2 _ y
        ⟨_, .more loc hargs harg⟩ hy
      simpa using hmore

end

end Existence

/-- A tree that is printed, and whose names are registered, is read back. -/
theorem yyparse_print {entries : List NamedFunction}
    {yyparse : List Lexeme → Option Expr × Nat}
    (hparser : AcceptsGrammar (findFunction (finishRegistration entries))
      yyparse)
    (tree : Tree) (hstrings : tree.StringsOk)
    (hnames : tree.NamesRegistered entries) :
    ∃ lexemes e, yylex tree.print = some lexemes ∧
      yyparse lexemes = (some e, 0) ∧ tree.Reads entries e := by
  obtain ⟨lexemes, hlex, htokens⟩ := yylex_print tree hstrings
  obtain ⟨e', loc', hderives⟩ := tree.isExpr hnames lexemes htokens
  obtain ⟨e, hparse⟩ := hparser.complete lexemes e' loc' hderives
  obtain ⟨loc, hroot⟩ := hparser.sound lexemes e hparse
  exact ⟨lexemes, e, hlex, hparse, hroot.reads.1 tree htokens.symm⟩

namespace EdifyRoundTripWitness

/-- The functions that the updater registers. -/
def entries : List NamedFunction :=
  registerInstallFunctions (registerBuiltins [])

open Classical in
/-- A parser that takes any of the derivations. -/
noncomputable def anyDerivation (find : Bytes → Option Function)
    (w : List Lexeme) : Option Expr × Nat :=
  if hexpr : ∃ e loc, Derives find w (.expr e loc) then (some hexpr.choose, 0)
  else (none, 1)

theorem anyDerivation_accepts (find : Bytes → Option Function) :
    AcceptsGrammar find (anyDerivation find) where
  sound := by
    intro w e hparse
    unfold anyDerivation at hparse
    split at hparse
    next hexpr =>
      cases hparse
      exact hexpr.choose_spec
    next => cases hparse
  complete := by
    intro w e loc hderives
    have hexpr : ∃ e loc, Derives find w (.expr e loc) := ⟨e, loc, hderives⟩
    exact ⟨hexpr.choose, by rw [anyDerivation, dif_pos hexpr]⟩

/-- `(if (!is_mounted("/x")) then ui_print("a\"b\n") else abort() endif)` -/
def tree : Tree :=
  .ifThenElse
    (.not (.call (.ofString "is_mounted") [.literal (.ofString "/x")]))
    (.call (.ofString "ui_print") [.literal (.ofString "a\"b\n")])
    (.call (.ofString "abort") [])

theorem tree_parse_print :
    ∃ lexemes e, yylex tree.print = some lexemes ∧
      anyDerivation (findFunction (finishRegistration entries)) lexemes =
        (some e, 0) ∧ tree.Reads entries e := by
  apply yyparse_print (anyDerivation_accepts _) tree
  · simp only [tree, Tree.StringsOk, argsStringsOk, StringOk]
    decide
  · simp only [tree, Tree.NamesRegistered, ArgNamesRegistered, and_true]
    exact ⟨⟨.install .IsMountedFn, by decide⟩, ⟨.install .UIPrintFn, by decide⟩,
      ⟨.AbortFn, by decide⟩⟩

end EdifyRoundTripWitness

end Edify

end MetaOS
