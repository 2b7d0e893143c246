/-
bootable/recovery/edify: the text that an expression was read from.

Every node of a tree has the place of an expression of the grammar: that which
it is the value of, or that which was put in parentheses around it, or that in
front of a semicolon behind it.  The text at this place is read again as the
node, and it is what a failing `assert` shows.
-/
import MetaOS.EdifyPieces
import MetaOS.EdifyRoundTrip
import MetaOS.EdifyShiftReduce

namespace MetaOS

namespace Edify

open Updater

section Shape

mutual

def Expr.withoutSpans : Expr → Expr
  | .node fn name argv _ _ => .node fn name (argsWithoutSpans argv) 0 0

def argsWithoutSpans : List Expr → List Expr
  | [] => []
  | e :: argv => e.withoutSpans :: argsWithoutSpans argv

end

def Expr.argv : Expr → List Expr
  | node _ _ argv _ _ => argv

/-- `node` is the root of the tree or below it. -/
inductive Expr.HasNode : Expr → Expr → Prop
  | root (e : Expr) : HasNode e e
  | arg {fn : Function} {name : Bytes} {argv : List Expr} {start stop : Int}
      {e node : Expr} (hmem : e ∈ argv) (hnode : HasNode e node) :
      HasNode (.node fn name argv start stop) node

theorem Expr.HasNode.trans {root node below : Expr}
    (hnode : root.HasNode node) (hbelow : node.HasNode below) :
    root.HasNode below := by
  induction hnode with
  | root => exact hbelow
  | arg hmem _ ih => exact .arg hmem (ih hbelow)

/-- The text between `start` and `end`. -/
def Expr.source (script : Bytes) (e : Expr) : Bytes :=
  script.window e.span.1.toNat (e.span.2 - e.span.1).toNat

@[simp] theorem locate_withoutSpans (e : Expr) (loc : YYLTYPE) :
    (e.locate loc).withoutSpans = e.withoutSpans := by
  cases e
  rfl

theorem locate_span (e : Expr) (loc : YYLTYPE) :
    (e.locate loc).span = ((loc.start : Int), (loc.stop : Int)) := by
  cases e
  rfl

theorem argsWithoutSpans_append (argv argv' : List Expr) :
    argsWithoutSpans (argv ++ argv') =
      argsWithoutSpans argv ++ argsWithoutSpans argv' := by
  induction argv with
  | nil => rfl
  | cons e argv ih => simp [argsWithoutSpans, ih]

end Shape

section Rereading

variable {find : Bytes → Option Function} {loosest rule : Nat}
  {w : List Lexeme} {sem : Semantic}

/-- The tokens are read as the value, but for the places. -/
def ReadsAs (find : Bytes → Option Function) (loosest rule : Nat)
    (w : List Lexeme) : Semantic → Prop
  | .expr e _ => ∃ e' loc, Resolved find loosest rule w (.expr e' loc) ∧
      e'.withoutSpans = e.withoutSpans
  | .arglist argv => ∃ argv', Resolved find loosest rule w (.arglist argv') ∧
      argsWithoutSpans argv' = argsWithoutSpans argv

/-- A derivation does not ask where the tokens stand. -/
theorem Resolved.readsAs (hresolved : Resolved find loosest rule w sem) :
    ∀ w' : List Lexeme, w'.map Lexeme.token = w.map Lexeme.token →
      ReadsAs find loosest rule w' sem := by
  induction hresolved with
  | string text loc =>
      intro w' hw
      obtain ⟨loc', rest, rfl, hrest⟩ := split_token hw
      obtain rfl := List.map_eq_nil_iff.mp hrest
      exact ⟨_, _, .string text loc', rfl⟩
  | @paren w e loc _ _ l₁ l₃ _ ih =>
      intro w' hw
      simp only [List.map_append, List.map_cons, List.map_nil] at hw
      obtain ⟨l, l', inside, rfl, hinside⟩ := split_enclosed hw
      obtain ⟨e', loc', hexpr, hshape⟩ := ih inside hinside
      exact ⟨_, _, .paren l l' hexpr, by simpa using hshape⟩
  | trailing l₂ _ ih =>
      intro w' hw
      rw [List.map_append] at hw
      obtain ⟨l, u, v, rfl, hu, hv⟩ := split_cut hw
      obtain rfl := List.map_eq_nil_iff.mp hv
      obtain ⟨e', loc', hexpr, hshape⟩ := ih u hu
      exact ⟨_, _, .trailing l hexpr, by simpa using hshape⟩
  | binary op l₂ _ _ hreduce hshift ihLeft ihRight =>
      intro w' hw
      rw [List.map_append] at hw
      obtain ⟨l, u, v, rfl, hu, hv⟩ := split_cut hw
      obtain ⟨e₁, l₁, hleft, hshape₁⟩ := ihLeft u hu
      obtain ⟨e₃, l₃, hright, hshape₃⟩ := ihRight v hv
      refine ⟨_, _, .binary op l hleft hright hreduce hshift, ?_⟩
      simp [build, Expr.withoutSpans, argsWithoutSpans, hshape₁, hshape₃]
  | not l₁ _ hshift ih =>
      intro w' hw
      obtain ⟨l, v, rfl, hv⟩ := split_token hw
      obtain ⟨e', loc', hexpr, hshape⟩ := ih v hv
      refine ⟨_, _, .not l hexpr hshift, ?_⟩
      simp [build, Expr.withoutSpans, argsWithoutSpans, hshape]
  | ifThen l₁ l₃ l₅ _ _ ihCond ihYes =>
      intro w' hw
      simp only [List.map_append, List.map_cons, List.map_nil] at hw
      obtain ⟨l, l', inside, rfl, hinside⟩ := split_enclosed hw
      obtain ⟨l'', u, v, rfl, hu, hv⟩ := split_cut hinside
      obtain ⟨e₂, l₂, hcond, hshape₂⟩ := ihCond u hu
      obtain ⟨e₄, l₄, hyes, hshape₄⟩ := ihYes v hv
      refine ⟨_, _, .ifThen l l'' l' hcond hyes, ?_⟩
      simp [build, Expr.withoutSpans, argsWithoutSpans, hshape₂, hshape₄]
  | ifThenElse l₁ l₃ l₅ l₇ _ _ _ ihCond ihYes ihNo =>
      intro w' hw
      simp only [List.map_append, List.map_cons, List.map_nil] at hw
      obtain ⟨l, l', inside, rfl, hinside⟩ := split_enclosed hw
      obtain ⟨m, u, rest, rfl, hu, hrest⟩ := split_cut hinside
      obtain ⟨m', v, x, rfl, hv, hx⟩ := split_cut hrest
      obtain ⟨e₂, l₂, hcond, hshape₂⟩ := ihCond u hu
      obtain ⟨e₄, l₄, hyes, hshape₄⟩ := ihYes v hv
      obtain ⟨e₆, l₆, hno, hshape₆⟩ := ihNo x hx
      refine ⟨_, _, .ifThenElse l m m' l' hcond hyes hno, ?_⟩
      simp [build, Expr.withoutSpans, argsWithoutSpans, hshape₂, hshape₄,
        hshape₆]
  | call l₁ l₂ l₄ hfind _ ih =>
      intro w' hw
      obtain ⟨l, rest, rfl, hrest⟩ := split_token hw
      simp only [List.map_append, List.map_cons, List.map_nil] at hrest
      obtain ⟨m, m', inside, rfl, hinside⟩ := split_enclosed hrest
      obtain ⟨argv', hargs, hshapes⟩ := ih inside hinside
      refine ⟨_, _, .call l m m' hfind hargs, ?_⟩
      simp [Expr.withoutSpans, hshapes]
  | empty =>
      intro w' hw
      obtain rfl := List.map_eq_nil_iff.mp hw
      exact ⟨_, .empty, rfl⟩
  | one _ ih =>
      intro w' hw
      obtain ⟨e', loc', hexpr, hshape⟩ := ih w' hw
      exact ⟨_, .one hexpr, by simp [argsWithoutSpans, hshape]⟩
  | more l₂ _ _ ihArgs ihExpr =>
      intro w' hw
      rw [List.map_append] at hw
      obtain ⟨l, u, v, rfl, hu, hv⟩ := split_cut hw
      obtain ⟨argv', hargs, hshapes⟩ := ihArgs u hu
      obtain ⟨e', loc', hexpr, hshape⟩ := ihExpr v hv
      refine ⟨_, .more l hargs hexpr, ?_⟩
      simp [argsWithoutSpans_append, argsWithoutSpans, hshapes, hshape]

end Rereading

section Places

variable {find : Bytes → Option Function} {w w' : List Lexeme}

/-- The tokens are an expression with the value of the node, and the node has
their place. -/
def ReadFrom (find : Bytes → Option Function) (w : List Lexeme)
    (node : Expr) : Prop :=
  ∃ loosest rule e loc, Resolved find loosest rule w (.expr e loc) ∧
    e.withoutSpans = node.withoutSpans ∧
    node.span = ((loc.start : Int), (loc.stop : Int))

/-- Every node is read from some of the tokens, and its arguments from some of
these. -/
def Placed (find : Bytes → Option Function) (w : List Lexeme)
    (root : Expr) : Prop :=
  ∀ node, root.HasNode node →
    ∃ seg, seg <:+: w ∧ ReadFrom find seg node ∧
      ∀ arg ∈ node.argv, ∃ inner, inner <:+: seg ∧ ReadFrom find inner arg

theorem Placed.mono {root : Expr} (hplaced : Placed find w root)
    (hpart : w <:+: w') : Placed find w' root := by
  intro node hnode
  obtain ⟨seg, hseg, hread⟩ := hplaced node hnode
  exact ⟨seg, hseg.trans hpart, hread⟩

variable {fn : Function} {name : Bytes} {argv : List Expr} {start stop : Int}

theorem Placed.args (hplaced : Placed find w (.node fn name argv start stop)) :
    ∀ arg ∈ argv, Placed find w arg :=
  fun _ hmem node hnode => hplaced node (.arg hmem hnode)

/-- A node whose arguments are placed in the tokens that it is read from. -/
theorem placed_node {seg : List Lexeme} (hpart : seg <:+: w)
    (hread : ReadFrom find seg (.node fn name argv start stop))
    (hargs : ∀ arg ∈ argv, Placed find seg arg) :
    Placed find w (.node fn name argv start stop) := by
  intro node hnode
  cases hnode with
  | root =>
      refine ⟨seg, hpart, hread, fun arg hmem => ?_⟩
      obtain ⟨inner, hinner, hreadInner, -⟩ := hargs arg hmem arg (.root arg)
      exact ⟨inner, hinner, hreadInner⟩
  | arg hmem hnode =>
      exact (hargs _ hmem).mono hpart node hnode

/-- What a value says of its tokens. -/
def Semantic.Placed (find : Bytes → Option Function) (w : List Lexeme) :
    Semantic → Prop
  | .expr e _ => Edify.Placed find w e
  | .arglist argv => ∀ arg ∈ argv, Edify.Placed find w arg

theorem placed_locate {e : Expr} {seg : List Lexeme} {loc : YYLTYPE}
    (hpart : seg <:+: w) (hread : ReadFrom find seg (e.locate loc))
    (hplaced : Placed find seg e) : Placed find w (e.locate loc) := by
  obtain ⟨fn, name, argv, start, stop⟩ := e
  exact placed_node hpart hread hplaced.args

theorem placed_self {loosest rule : Nat} {loc : YYLTYPE}
    (hresolved : Resolved find loosest rule w
      (.expr (.node fn name argv loc.start loc.stop) loc))
    (hargs : ∀ arg ∈ argv, Placed find w arg) :
    Placed find w (.node fn name argv loc.start loc.stop) :=
  placed_node List.infix_rfl ⟨_, _, _, _, hresolved, rfl, rfl⟩ hargs

theorem Resolved.placed {loosest rule : Nat} {sem : Semantic}
    (hresolved : Resolved find loosest rule w sem) : sem.Placed find w := by
  induction hresolved with
  | string text loc => exact placed_self (.string text loc) (by simp)
  | @paren w e loc _ _ l₁ l₃ hexpr ih =>
      have hinside : w <:+: ⟨.lparen, l₁⟩ :: w ++ [⟨.rparen, l₃⟩] :=
        ⟨[⟨.lparen, l₁⟩], [⟨.rparen, l₃⟩], rfl⟩
      refine placed_locate List.infix_rfl ?_ (ih.mono hinside)
      exact ⟨_, _, _, _, .paren l₁ l₃ hexpr, rfl, locate_span e _⟩
  | @trailing w e l₁ _ _ l₂ hexpr ih =>
      refine placed_locate (List.prefix_append w _).isInfix ?_ ih
      exact ⟨_, _, _, _, hexpr, (locate_withoutSpans e l₁).symm,
        locate_span e l₁⟩
  | @binary u v e₁ e₃ _ _ _ _ _ _ op l₂ hleft hright hreduce hshift ihLeft
      ihRight =>
      refine placed_self (.binary op l₂ hleft hright hreduce hshift) ?_
      simp only [List.mem_cons, List.not_mem_nil, or_false]
      rintro arg (rfl | rfl)
      · exact ihLeft.mono (List.prefix_append u _).isInfix
      · exact ihRight.mono ⟨u ++ [⟨op.token, l₂⟩], [], by simp⟩
  | not l₁ hexpr hshift ih =>
      refine placed_self (.not l₁ hexpr hshift) ?_
      simp only [List.forall_mem_singleton]
      exact ih.mono (List.suffix_cons _ _).isInfix
  | @ifThen u v _ _ _ _ _ _ _ _ l₁ l₃ l₅ hcond hyes ihCond ihYes =>
      refine placed_self (.ifThen l₁ l₃ l₅ hcond hyes) ?_
      simp only [List.mem_cons, List.not_mem_nil, or_false]
      rintro arg (rfl | rfl)
      · exact ihCond.mono ⟨[⟨.IF, l₁⟩], ⟨.THEN, l₃⟩ :: v ++ [⟨.ENDIF, l₅⟩],
          by simp⟩
      · exact ihYes.mono ⟨⟨.IF, l₁⟩ :: u ++ [⟨.THEN, l₃⟩], [⟨.ENDIF, l₅⟩],
          by simp⟩
  | @ifThenElse u v w _ _ _ _ _ _ _ _ _ _ _ _ l₁ l₃ l₅ l₇ hcond hyes hno
      ihCond ihYes ihNo =>
      refine placed_self (.ifThenElse l₁ l₃ l₅ l₇ hcond hyes hno) ?_
      simp only [List.mem_cons, List.not_mem_nil, or_false]
      rintro arg (rfl | rfl | rfl)
      · exact ihCond.mono ⟨[⟨.IF, l₁⟩],
          ⟨.THEN, l₃⟩ :: (v ++ ⟨.ELSE, l₅⟩ :: w) ++ [⟨.ENDIF, l₇⟩], by simp⟩
      · exact ihYes.mono ⟨⟨.IF, l₁⟩ :: u ++ [⟨.THEN, l₃⟩],
          ⟨.ELSE, l₅⟩ :: w ++ [⟨.ENDIF, l₇⟩], by simp⟩
      · exact ihNo.mono
          ⟨⟨.IF, l₁⟩ :: (u ++ ⟨.THEN, l₃⟩ :: v) ++ [⟨.ELSE, l₅⟩],
            [⟨.ENDIF, l₇⟩], by simp⟩
  | @call w argv name fn l₁ l₂ l₄ hfind hargs ih =>
      change Placed find _
        (.node fn name argv (l₁.to l₄).start (l₁.to l₄).stop)
      refine placed_self (.call l₁ l₂ l₄ hfind hargs) fun arg hmem => ?_
      exact (ih arg hmem).mono
        ⟨[⟨.STRING name, l₁⟩, ⟨.lparen, l₂⟩], [⟨.rparen, l₄⟩], by simp⟩
  | empty => simp [Semantic.Placed]
  | one hexpr ih =>
      simp only [Semantic.Placed, List.forall_mem_singleton]
      exact ih
  | @more u v argv e _ _ _ l₂ hargs hexpr ihArgs ihExpr =>
      simp only [Semantic.Placed, List.forall_mem_append,
        List.forall_mem_singleton]
      constructor
      · exact fun arg hmem =>
          (ihArgs arg hmem).mono (List.prefix_append u _).isInfix
      · exact ihExpr.mono ⟨u ++ [⟨.comma, l₂⟩], [], by simp⟩

theorem spans_between (first last : Lexeme) (w : List Lexeme) :
    Spans (first :: w ++ [last]) first.loc.start last.loc.stop :=
  ⟨⟨first, rfl, rfl⟩, last, List.getLast?_concat .., rfl⟩

theorem Spans.append {u v : List Lexeme} {a b c d : Nat}
    (hfirst : Spans u a b) (hlast : Spans v c d) : Spans (u ++ v) a d := by
  obtain ⟨⟨first, hhead, hstart⟩, -⟩ := hfirst
  obtain ⟨-, last, hend, hstop⟩ := hlast
  refine ⟨⟨first, ?_, hstart⟩, last, ?_, hstop⟩
  · rw [Option.mem_def, List.head?_append, hhead, Option.some_or]
  · rw [Option.mem_def, List.getLast?_append, hend, Option.some_or]

theorem spans_single (l : Lexeme) : Spans [l] l.loc.start l.loc.stop :=
  ⟨⟨l, rfl, rfl⟩, l, rfl, rfl⟩

/-- The place of an expression is that of its tokens. -/
theorem Derives.spans {sem : Semantic} (hderives : Derives find w sem) :
    ∀ e loc, sem = .expr e loc → Spans w loc.start loc.stop := by
  induction hderives with
  | string text loc =>
      rintro _ _ ⟨⟩
      exact spans_single _
  | paren l₁ l₃ _ _ =>
      rintro _ _ ⟨⟩
      exact spans_between _ _ _
  | trailing l₂ _ ih =>
      rintro _ _ ⟨⟩
      exact (ih _ _ rfl).append (spans_single ⟨.semicolon, l₂⟩)
  | binary op l₂ _ _ ihLeft ihRight =>
      rintro _ _ ⟨⟩
      have hleft := ihLeft _ _ rfl
      have hright := ihRight _ _ rfl
      exact hleft.append ((spans_single ⟨op.token, l₂⟩).append hright)
  | not l₁ _ ih =>
      rintro _ _ ⟨⟩
      have hexpr := ih _ _ rfl
      exact (spans_single ⟨.bang, l₁⟩).append hexpr
  | ifThen l₁ l₃ l₅ _ _ _ _ =>
      rintro _ _ ⟨⟩
      exact spans_between _ _ _
  | ifThenElse l₁ l₃ l₅ l₇ _ _ _ _ _ _ =>
      rintro _ _ ⟨⟩
      exact spans_between _ _ _
  | @call w _ name _ l₁ l₂ l₄ _ _ _ =>
      rintro _ _ ⟨⟩
      exact spans_between ⟨.STRING name, l₁⟩ ⟨.rparen, l₄⟩ (⟨.lparen, l₂⟩ :: w)
  | empty | one _ _ | more _ _ _ _ _ =>
      rintro _ _ ⟨⟩

theorem Derives.noBad {sem : Semantic} (hderives : Derives find w sem) :
    ∀ l ∈ w, l.token ≠ .BAD := by
  induction hderives with
  | binary op l₂ _ _ ihLeft ihRight =>
      have hop : op.token ≠ .BAD := by cases op <;> decide
      simp_all [or_imp]
  | _ => simp_all [or_imp]

/-- A node as it is read from a script: it has a place in the script, its
arguments have theirs in it, and the text there is read as the node. -/
structure ReadsBack (yyparse : List Lexeme → Option Expr × Nat)
    (script : Bytes) (node : Expr) : Prop where
  inside : 0 ≤ node.span.1 ∧ node.span.1 ≤ node.span.2 ∧
    node.span.2 ≤ script.length
  nested : ∀ arg ∈ node.argv,
    node.span.1 ≤ arg.span.1 ∧ arg.span.2 ≤ node.span.2
  again : ∃ lexemes tree, yylex (node.source script) = some lexemes ∧
    yyparse lexemes = (some tree, 0) ∧
    tree.withoutSpans = node.withoutSpans

theorem readsBack {yyparse : List Lexeme → Option Expr × Nat}
    (hparser : FollowsPrecedences find yyparse) {script : Bytes}
    {lexemes : List Lexeme} {root node : Expr}
    (hlex : yylex script = some lexemes)
    (hparse : yyparse lexemes = (some root, 0)) (hnode : root.HasNode node) :
    ReadsBack yyparse script node := by
  obtain ⟨_, _, _, hroot⟩ := hparser.sound lexemes root hparse
  obtain ⟨seg, hseg, ⟨_, _, e, loc, hexpr, hshape, hspan⟩, hargs⟩ :=
    hroot.placed node hnode
  obtain ⟨hordered, hstop, hinner, again, hagain, htokens⟩ :=
    yylex_window hlex hroot.derives.noBad hseg
      (hexpr.derives.spans e loc rfl)
  refine ⟨?_, ?_, ?_⟩
  · rw [hspan]
    exact ⟨Int.natCast_nonneg _, Int.ofNat_le.mpr hordered,
      Int.ofNat_le.mpr hstop⟩
  · intro arg hmem
    obtain ⟨inner, hpart, _, _, e', loc', hexpr', -, hspan'⟩ :=
      hargs arg hmem
    obtain ⟨hstart', hstop'⟩ := hinner inner _ _ hpart
      (hexpr'.derives.spans e' loc' rfl)
    rw [hspan, hspan']
    exact ⟨Int.ofNat_le.mpr hstart', Int.ofNat_le.mpr hstop'⟩
  · obtain ⟨e', loc', hexpr', hshape'⟩ := hexpr.readsAs again htokens
    obtain ⟨tree, htree⟩ := hparser.complete _ _ again e' loc' hexpr'
    obtain ⟨_, _, _, hresolved⟩ := hparser.sound again tree htree
    have hsame : tree = e' := (hresolved.unique hexpr').1
    have hsource : node.source script =
        script.window loc.start (loc.stop - loc.start) := by
      rw [Expr.source, hspan]
      congr 1
      omega
    refine ⟨again, tree, ?_, htree, ?_⟩
    · rw [hsource]
      exact hagain
    · rw [hsame, hshape', hshape]

end Places

section Asserting

variable {W : Type} (outside : (e : Outside) → W → e.Answer × W)
  (sha1 : Bytes → Bytes)

/-- What a value is asked for leaves the script as it is. -/
def KeepsScript (value : State W → Option (Option Value × State W)) : Prop :=
  ∀ s result, value s = some result → result.2.script = s.script

theorem expectString_script (result : Option Value × State W) :
    (expectString result).2.script = result.2.script := by
  obtain ⟨_ | _ | _, s⟩ := result <;> rfl

theorem interpret_script {α : Type} {argv : List (Argument W)}
    (hargs : ∀ arg ∈ argv, KeepsScript arg.value) (prog : Body α)
    {s : State W} {result : α × State W}
    (hrun : interpret outside argv prog s = some result) :
    result.2.script = s.script := by
  induction prog generalizing s with
  | ret value =>
      cases hrun
      rfl
  | call c next ih =>
      cases c with
      | evaluate i =>
          simp only [interpret, Option.bind_eq_bind, Option.bind_eq_some_iff]
            at hrun
          obtain ⟨arg, hget, r, hvalue, hnext⟩ := hrun
          rw [ih _ hnext, expectString_script]
          exact hargs arg (List.mem_of_getElem? hget) s r hvalue
      | evaluateValue i =>
          simp only [interpret, Option.bind_eq_bind, Option.bind_eq_some_iff]
            at hrun
          obtain ⟨arg, hget, r, hvalue, hnext⟩ := hrun
          rw [ih _ hnext]
          exact hargs arg (List.mem_of_getElem? hget) s r hvalue
      | span i =>
          simp only [interpret, Option.bind_eq_bind, Option.bind_eq_some_iff]
            at hrun
          obtain ⟨arg, hget, hnext⟩ := hrun
          exact ih _ hnext
      | script | sleep n => exact ih _ hrun
      | errmsg text =>
          have hnext : interpret outside argv (next ())
            { s with errmsg := some text } = some result := hrun
          have hscript := ih () hnext
          exact hscript
      | fputs text =>
          have hnext : interpret outside argv (next ())
            { s with stdout := s.stdout ++ text } = some result := hrun
          have hscript := ih () hnext
          exact hscript
      | outside e =>
          have hnext : interpret outside argv (next (outside e s.world).1)
            { s with world := (outside e s.world).2 } = some result := hrun
          have hscript := ih _ hnext
          exact hscript

mutual

theorem Expr.keepsScript : (e : Expr) →
    KeepsScript (e.evaluateValue outside sha1)
  | .node fn name argv start stop => by
      intro s result hvalue
      rw [evaluateValue_node] at hvalue
      obtain ⟨⟨outcome, s'⟩, hrun, hreturned⟩ :=
        Option.bind_eq_some_iff.mp hvalue
      have hscript := interpret_script outside (argsKeepScript argv) _ hrun
      cases outcome with
      | returned value =>
          cases hreturned
          exact hscript
      | undefined => cases hreturned

theorem argsKeepScript : (argv : List Expr) →
    ∀ arg ∈ evaluateArgs outside sha1 argv, KeepsScript arg.value
  | [] => by simp [evaluateArgs]
  | e :: argv => by
      rw [evaluateArgs]
      rintro arg (_ | ⟨_, hmem⟩)
      · exact e.keepsScript
      · exact argsKeepScript argv arg hmem

end

/-- The arguments are evaluated in turn, and are true up to `arg`, which is
false. -/
inductive FailsAt : List Expr → State W → Expr → State W → Prop
  | here {e : Expr} {argv : List Expr} {s s' : State W}
      (hvalue : e.evaluateValue outside sha1 s =
        some (some (.string []), s')) :
      FailsAt (e :: argv) s e s'
  | later {e arg : Expr} {argv : List Expr} {s s' s'' : State W} {v : Bytes}
      (hvalue : e.evaluateValue outside sha1 s = some (some (.string v), s'))
      (htrue : v ≠ []) (hfails : FailsAt argv s' arg s'') :
      FailsAt (e :: argv) s arg s''

variable {outside sha1} {argv : List Expr} {arg : Expr} {s s' : State W}

theorem FailsAt.mem (hfails : FailsAt outside sha1 argv s arg s') :
    arg ∈ argv := by
  induction hfails with
  | here => exact List.mem_cons_self
  | later _ _ _ ih => exact List.mem_cons_of_mem _ ih

theorem FailsAt.script (hfails : FailsAt outside sha1 argv s arg s') :
    s'.script = s.script := by
  induction hfails with
  | here hvalue => exact Expr.keepsScript outside sha1 _ _ _ hvalue
  | later hvalue _ _ ih =>
      exact ih.trans (Expr.keepsScript outside sha1 _ _ _ hvalue)

theorem FailsAt.interpret (hfails : FailsAt outside sha1 argv s arg s')
    (hinside : 0 ≤ arg.span.1 ∧ arg.span.1 ≤ arg.span.2 ∧
      arg.span.2 ≤ s'.script.length) :
    Edify.interpret outside (evaluateArgs outside sha1 argv)
        (assertFrom 0 argv.length) s =
      some (null, { s' with errmsg := some (.ofString "assert failed: " ++
        arg.source s'.script) }) := by
  induction hfails with
  | @here e argv s s' hvalue =>
      rw [evaluateArgs, List.length_cons, assertFrom,
        interpret_evaluate (some []) rfl hvalue]
      change Edify.interpret outside _ (assertFailed 0) s' = _
      rw [interpret_assertFailed, List.getElem?_cons_zero, Option.bind_some,
        if_pos hinside]
      rfl
  | @later e arg argv s s' s'' v hvalue htrue _ ih =>
      rw [evaluateArgs, List.length_cons, assertFrom,
        interpret_evaluate (some v) rfl hvalue]
      dsimp only
      rw [if_pos (by simp [booleanString, htrue]), interpret_assertFrom_succ]
      exact ih hinside

/-- The message of an `assert` is the text of the argument that is false. -/
theorem FailsAt.evaluateValue (hfails : FailsAt outside sha1 argv s arg s')
    (hinside : 0 ≤ arg.span.1 ∧ arg.span.1 ≤ arg.span.2 ∧
      arg.span.2 ≤ s'.script.length) (name : Bytes) (start stop : Int) :
    (Expr.node .AssertFn name argv start stop).evaluateValue outside sha1 s =
      some (none, { s' with errmsg := some (.ofString "assert failed: " ++
        arg.source s'.script) }) := by
  rw [evaluateValue_node, Function.body, assertFn, hfails.interpret hinside]
  rfl

end Asserting

/-- In a script that is parsed without errors, which has no character that
belongs to no token then, every node of the tree has its place in the script
and in that of the node above it, its text is read as the node by itself, and
an `assert` that fails reports the text of the argument that is false. -/
theorem source_faithful {find : Bytes → Option Function}
    {yyparse : List Lexeme → Option Expr × Nat}
    (hparser : FollowsPrecedences find yyparse) (script : Bytes)
    (lexemes : List Lexeme) (root : Expr)
    (hlex : yylex script = some lexemes)
    (hparse : yyparse lexemes = (some root, 0)) :
    (∀ node, root.HasNode node → ReadsBack yyparse script node) ∧
      ∀ (name : Bytes) (argv : List Expr) (start stop : Int),
        root.HasNode (.node .AssertFn name argv start stop) →
        ∀ {W : Type} (outside : (e : Outside) → W → e.Answer × W)
          (sha1 : Bytes → Bytes) (s s' : State W) (arg : Expr),
          s.script = script → FailsAt outside sha1 argv s arg s' →
          arg ∈ argv ∧ ReadsBack yyparse script arg ∧
            (Expr.node .AssertFn name argv start stop).evaluateValue outside
                sha1 s =
              some (none, { s' with errmsg := some (.ofString
                "assert failed: " ++ arg.source script) }) := by
  have hnodes : ∀ node, root.HasNode node → ReadsBack yyparse script node :=
    fun node hnode => readsBack hparser hlex hparse hnode
  refine ⟨hnodes, ?_⟩
  intro name argv start stop hassert W outside sha1 s s' arg hscript hfails
  have harg : ReadsBack yyparse script arg :=
    hnodes arg (hassert.trans (.arg hfails.mem (.root arg)))
  have hkept : s'.script = script := hfails.script.trans hscript
  have hvalue := hfails.evaluateValue (hkept ▸ harg.inside) name start stop
  rw [show arg.source s'.script = arg.source script by rw [hkept]] at hvalue
  exact ⟨hfails.mem, harg, hvalue⟩

namespace EdifySpansWitness

open Classical in
/-- A parser that takes the derivation of the precedences. -/
noncomputable def resolve (find : Bytes → Option Function)
    (w : List Lexeme) : Option Expr × Nat :=
  if hexpr : ∃ e loosest rule loc, Resolved find loosest rule w (.expr e loc)
  then (some hexpr.choose, 0) else (none, 1)

theorem resolve_eq {find : Bytes → Option Function} {loosest rule : Nat}
    {w : List Lexeme} {e : Expr} {loc : YYLTYPE}
    (hresolved : Resolved find loosest rule w (.expr e loc)) :
    resolve find w = (some e, 0) := by
  have hexpr : ∃ e loosest rule loc,
      Resolved find loosest rule w (.expr e loc) := ⟨e, _, _, _, hresolved⟩
  obtain ⟨_, _, _, hchosen⟩ := hexpr.choose_spec
  rw [resolve, dif_pos hexpr, (hchosen.unique hresolved).1]

theorem resolve_follows (find : Bytes → Option Function) :
    FollowsPrecedences find (resolve find) where
  sound := by
    intro w e hparse
    unfold resolve at hparse
    split at hparse
    next hexpr =>
      cases hparse
      exact hexpr.choose_spec
    next => cases hparse
  complete := fun _ _ _ e _ hresolved => ⟨e, resolve_eq hresolved⟩

def registered : List NamedFunction :=
  finishRegistration EdifyRoundTripWitness.entries

def script : Bytes := .ofString "assert(\"\" == a);"

def lexemes : List Lexeme :=
  [⟨.STRING (.ofString "assert"), 0, 6⟩, ⟨.lparen, 6, 7⟩,
    ⟨.STRING [], 7, 9⟩, ⟨.EQ, 10, 12⟩, ⟨.STRING (.ofString "a"), 13, 14⟩,
    ⟨.rparen, 14, 15⟩, ⟨.semicolon, 15, 16⟩]

/-- `"" == a` -/
def comparison : Expr :=
  build .EqualityFn ⟨7, 14⟩
    [.node .Literal [] [] 7 9, .node .Literal (.ofString "a") [] 13 14]

def root : Expr :=
  .node .AssertFn (.ofString "assert") [comparison] 0 15

theorem script_lexes : yylex script = some lexemes := by
  rfl

theorem find_assert :
    findFunction registered (.ofString "assert") = some .AssertFn := by
  decide +kernel

theorem root_resolved : Resolved (findFunction registered) 1 8 lexemes
    (.expr root ⟨0, 16⟩) := by
  have hcomparison := @Resolved.binary (findFunction registered) _ _ _ _ _ _
    _ _ _ _ .equal ⟨10, 12⟩ (.string [] ⟨7, 9⟩)
    (.string (.ofString "a") ⟨13, 14⟩) (by decide) (by decide)
  exact .trailing ⟨15, 16⟩
    (.call ⟨0, 6⟩ ⟨6, 7⟩ ⟨14, 15⟩ find_assert (.one hcomparison))

/-- The `assert` is given its argument, which is false. -/
theorem assert_reports :
    ReadsBack (resolve (findFunction registered)) script comparison ∧
      ∀ s : State Unit, s.script = script →
        ∀ outside, (root.evaluateValue outside id s).map (·.2.errmsg) =
          some (some (.ofString "assert failed: \"\" == a")) := by
  have hfaithful := source_faithful (resolve_follows _) script lexemes root
    script_lexes (resolve_eq root_resolved)
  refine ⟨hfaithful.1 comparison (.arg (List.mem_singleton.mpr rfl)
    (.root _)), fun s hscript outside => ?_⟩
  have hfails : FailsAt outside id [comparison] s comparison s := by
    exact .here (by
      rw [comparison, build, evaluateValue_node]
      rfl)
  obtain ⟨-, -, hvalue⟩ := hfaithful.2 _ _ _ _ (.root root) outside id s s
    comparison hscript hfails
  rw [root, hvalue]
  rfl

end EdifySpansWitness

end Edify

end MetaOS
