/-
bootable/recovery/edify/parser.y, and the function table of expr.c.

The grammar is a relation between tokens and the values that its actions
build.  The productions with `error` are left out: they are taken behind a
syntax error only.
-/
import Mathlib.Data.List.Sort
import MetaOS.BinarySearch
import MetaOS.EdifyPrinter

namespace MetaOS

namespace Edify

open Updater BinarySearch

section FunctionTable

structure NamedFunction where
  name : Bytes
  fn : Function
deriving DecidableEq

/-- `strcmp` orders names as their characters are ordered. -/
def NamedFunction.key (entry : NamedFunction) : List Nat :=
  entry.name.map UInt8.toNat

def registerFunction (table : List NamedFunction) (name : Bytes)
    (fn : Function) : List NamedFunction :=
  table ++ [⟨name, fn⟩]

def finishRegistration (table : List NamedFunction) : List NamedFunction :=
  table.insertionSort fun a b => a.key ≤ b.key

def findFunction (table : List NamedFunction) (name : Bytes) :
    Option Function :=
  (bsearch NamedFunction.key (name.map UInt8.toNat) table.length table).map
    NamedFunction.fn

def builtins : List (String × Function) :=
  [("ifelse", .IfElseFn), ("abort", .AbortFn), ("assert", .AssertFn),
    ("concat", .ConcatFn), ("is_substring", .SubstringFn),
    ("stdout", .StdoutFn), ("sleep", .SleepFn),
    ("less_than_int", .LessThanIntFn),
    ("greater_than_int", .GreaterThanIntFn)]

def registerBuiltins (table : List NamedFunction) : List NamedFunction :=
  builtins.foldl (fun table (name, fn) =>
    registerFunction table (.ofString name) fn) table

def registerInstallFunctions (table : List NamedFunction) :
    List NamedFunction :=
  installFunctions.foldl (fun table (name, fn) =>
    registerFunction table (.ofString name) (.install fn)) table

theorem map_toNat_injective {a b : Bytes}
    (heq : a.map UInt8.toNat = b.map UInt8.toNat) : a = b :=
  List.map_injective_iff.mpr (fun _ _ => UInt8.toNat_inj.mp) heq

variable {entries : List NamedFunction} {name : Bytes} {fn : Function}

theorem mem_of_findFunction
    (hfind : findFunction (finishRegistration entries) name = some fn) :
    ⟨name, fn⟩ ∈ entries := by
  obtain ⟨entry, hsearch, rfl⟩ := Option.map_eq_some_iff.mp hfind
  obtain ⟨hmem, hkey⟩ := mem_of_bsearch hsearch
  have hname : entry.name = name := map_toNat_injective hkey
  rw [← hname]
  exact (List.mem_insertionSort _).mp hmem

/-- A name that is registered is found. -/
theorem exists_findFunction (hmem : ⟨name, fn⟩ ∈ entries) :
    ∃ found, findFunction (finishRegistration entries) name = some found := by
  have hsorted : (finishRegistration entries).Pairwise
      fun a b => a.key ≤ b.key :=
    List.pairwise_insertionSort _ entries
  obtain ⟨entry, hsearch⟩ := exists_bsearch (le_refl _) hsorted
    ((List.mem_insertionSort _).mpr hmem)
  have hkey : NamedFunction.key ⟨name, fn⟩ = name.map UInt8.toNat := rfl
  rw [hkey] at hsearch
  exact ⟨entry.fn, by rw [findFunction, hsearch, Option.map_some]⟩

end FunctionTable

section Grammar

def build (fn : Function) (loc : YYLTYPE) (argv : List Expr) : Expr :=
  .node fn (.ofString "(operator)") argv loc.start loc.stop

/-- `$$->start` and `$$->end` are set. -/
def Expr.locate (loc : YYLTYPE) : Expr → Expr
  | node fn name argv _ _ => node fn name argv loc.start loc.stop

/-- The values of the nonterminals; where an argument list stands is never
asked for. -/
inductive Semantic where
  | expr (e : Expr) (loc : YYLTYPE)
  | arglist (argv : List Expr)

/-- `@$`: from the first symbol to the last. -/
def YYLTYPE.to (first last : YYLTYPE) : YYLTYPE := ⟨first.start, last.stop⟩

/-- The productions, with their actions.  `find` is `FindFunction`. -/
inductive Derives (find : Bytes → Option Function) :
    List Lexeme → Semantic → Prop
  | string (text : Bytes) (loc : YYLTYPE) :
      Derives find [⟨.STRING text, loc⟩]
        (.expr (.node .Literal text [] loc.start loc.stop) loc)
  | paren {w : List Lexeme} {e : Expr} {loc : YYLTYPE} (l₁ l₃ : YYLTYPE)
      (hexpr : Derives find w (.expr e loc)) :
      Derives find (⟨.lparen, l₁⟩ :: w ++ [⟨.rparen, l₃⟩])
        (.expr (e.locate (l₁.to l₃)) (l₁.to l₃))
  | trailing {w : List Lexeme} {e : Expr} {l₁ : YYLTYPE} (l₂ : YYLTYPE)
      (hexpr : Derives find w (.expr e l₁)) :
      Derives find (w ++ [⟨.semicolon, l₂⟩])
        (.expr (e.locate l₁) (l₁.to l₂))
  | binary {u v : List Lexeme} {e₁ e₃ : Expr} {l₁ l₃ : YYLTYPE}
      (op : Operator) (l₂ : YYLTYPE) (hleft : Derives find u (.expr e₁ l₁))
      (hright : Derives find v (.expr e₃ l₃)) :
      Derives find (u ++ ⟨op.token, l₂⟩ :: v)
        (.expr (build op.fn (l₁.to l₃) [e₁, e₃]) (l₁.to l₃))
  | not {w : List Lexeme} {e : Expr} {l₂ : YYLTYPE} (l₁ : YYLTYPE)
      (hexpr : Derives find w (.expr e l₂)) :
      Derives find (⟨.bang, l₁⟩ :: w)
        (.expr (build .LogicalNotFn (l₁.to l₂) [e]) (l₁.to l₂))
  | ifThen {u v : List Lexeme} {e₂ e₄ : Expr} {l₂ l₄ : YYLTYPE}
      (l₁ l₃ l₅ : YYLTYPE) (hcond : Derives find u (.expr e₂ l₂))
      (hyes : Derives find v (.expr e₄ l₄)) :
      Derives find
        (⟨.IF, l₁⟩ :: (u ++ ⟨.THEN, l₃⟩ :: v) ++ [⟨.ENDIF, l₅⟩])
        (.expr (build .IfElseFn (l₁.to l₅) [e₂, e₄]) (l₁.to l₅))
  | ifThenElse {u v w : List Lexeme} {e₂ e₄ e₆ : Expr} {l₂ l₄ l₆ : YYLTYPE}
      (l₁ l₃ l₅ l₇ : YYLTYPE) (hcond : Derives find u (.expr e₂ l₂))
      (hyes : Derives find v (.expr e₄ l₄))
      (hno : Derives find w (.expr e₆ l₆)) :
      Derives find
        (⟨.IF, l₁⟩ :: (u ++ ⟨.THEN, l₃⟩ :: (v ++ ⟨.ELSE, l₅⟩ :: w)) ++
          [⟨.ENDIF, l₇⟩])
        (.expr (build .IfElseFn (l₁.to l₇) [e₂, e₄, e₆]) (l₁.to l₇))
  | call {w : List Lexeme} {argv : List Expr} {name : Bytes} {fn : Function}
      (l₁ l₂ l₄ : YYLTYPE) (hfind : find name = some fn)
      (hargs : Derives find w (.arglist argv)) :
      Derives find (⟨.STRING name, l₁⟩ :: (⟨.lparen, l₂⟩ :: w ++
          [⟨.rparen, l₄⟩]))
        (.expr (.node fn name argv l₁.start l₄.stop) (l₁.to l₄))
  | empty : Derives find [] (.arglist [])
  | one {w : List Lexeme} {e : Expr} {loc : YYLTYPE}
      (hexpr : Derives find w (.expr e loc)) :
      Derives find w (.arglist [e])
  | more {u v : List Lexeme} {argv : List Expr} {e : Expr} {l₃ : YYLTYPE}
      (l₂ : YYLTYPE) (hargs : Derives find u (.arglist argv))
      (hexpr : Derives find v (.expr e l₃)) :
      Derives find (u ++ ⟨.comma, l₂⟩ :: v) (.arglist (argv ++ [e]))

/-- What is relied on of the parser that is made from the grammar: it gives
a root and no errors for the scripts of the grammar and for no others.  A
script may have several derivations, from which the precedences choose. -/
structure AcceptsGrammar (find : Bytes → Option Function)
    (yyparse : List Lexeme → Option Expr × Nat) : Prop where
  sound : ∀ w e, yyparse w = (some e, 0) →
    ∃ loc, Derives find w (.expr e loc)
  complete : ∀ w e loc, Derives find w (.expr e loc) →
    ∃ root, yyparse w = (some root, 0)

end Grammar

end Edify

end MetaOS
