/-
Expression trees as text, and that the lexer reads the text back.

The printer puts every operator in parentheses and every string literal in
quotes.  Each piece it prints lexes to its tokens, whatever comes behind it as
long as the next character does not belong to the piece.
-/
import MetaOS.EdifyEvaluate
import MetaOS.EdifyLexer

namespace MetaOS

namespace Edify

open CString

/-- The binary operators of the grammar. -/
inductive Operator where
  | sequence
  | concat
  | equal
  | notEqual
  | and
  | or

def Operator.token : Operator → Token
  | sequence => .semicolon
  | concat => .plus
  | equal => .EQ
  | notEqual => .NE
  | and => .AND
  | or => .OR

def Operator.fn : Operator → Function
  | sequence => .SequenceFn
  | concat => .ConcatFn
  | equal => .EqualityFn
  | notEqual => .InequalityFn
  | and => .LogicalAndFn
  | or => .LogicalOrFn

def Operator.text : Operator → Bytes
  | sequence => .ofString ";"
  | concat => .ofString "+"
  | equal => .ofString "=="
  | notEqual => .ofString "!="
  | and => .ofString "&&"
  | or => .ofString "||"

/-- Expressions without their places in a script. -/
inductive Tree where
  | literal (text : Bytes)
  | binary (op : Operator) (left right : Tree)
  | not (arg : Tree)
  | ifThen (cond yes : Tree)
  | ifThenElse (cond yes no : Tree)
  | call (name : Bytes) (args : List Tree)

/-- The words that are no strings. -/
def reserved : List Bytes :=
  [.ofString "if", .ofString "then", .ofString "else", .ofString "endif"]

/-- A string that can be written without quotes. -/
def IsBare (text : Bytes) : Prop :=
  text ≠ [] ∧ (∀ c ∈ text, isWord c = true) ∧ text ∉ reserved

instance (text : Bytes) : Decidable (IsBare text) :=
  inferInstanceAs (Decidable (_ ∧ _))

/-- Backslash, quote, newline and tab are escaped. -/
def escapeChar (c : UInt8) : Bytes :=
  if c = 92 then [92, 92]
  else if c = 34 then [92, 34]
  else if c = 10 then [92, 110]
  else if c = 9 then [92, 116]
  else [c]

def quote (text : Bytes) : Bytes := 34 :: (text.flatMap escapeChar ++ [34])

def printName (name : Bytes) : Bytes :=
  if IsBare name then name else quote name

mutual

def Tree.print : Tree → Bytes
  | .literal text => quote text
  | .binary op left right =>
      .ofString "(" ++ left.print ++ op.text ++ right.print ++ .ofString ")"
  | .not arg => .ofString "(!" ++ arg.print ++ .ofString ")"
  | .ifThen cond yes =>
      .ofString "(if " ++ cond.print ++ .ofString " then " ++ yes.print ++
        .ofString " endif)"
  | .ifThenElse cond yes no =>
      .ofString "(if " ++ cond.print ++ .ofString " then " ++ yes.print ++
        .ofString " else " ++ no.print ++ .ofString " endif)"
  | .call name args =>
      printName name ++ .ofString "(" ++ printArgs args ++ .ofString ")"

def printArgs : List Tree → Bytes
  | [] => []
  | [arg] => arg.print
  | arg :: args => arg.print ++ .ofString "," ++ printArgs args

end

mutual

/-- The tokens of the printed text. -/
def Tree.tokens : Tree → List Token
  | .literal text => [.STRING text]
  | .binary op left right =>
      .lparen :: (left.tokens ++ op.token :: right.tokens) ++ [.rparen]
  | .not arg => .lparen :: (.bang :: arg.tokens) ++ [.rparen]
  | .ifThen cond yes =>
      .lparen :: (.IF :: cond.tokens ++ .THEN :: yes.tokens ++ [.ENDIF]) ++
        [.rparen]
  | .ifThenElse cond yes no =>
      .lparen :: (.IF :: cond.tokens ++ .THEN :: yes.tokens ++
        .ELSE :: no.tokens ++ [.ENDIF]) ++ [.rparen]
  | .call name args =>
      .STRING name :: .lparen :: argTokens args ++ [.rparen]

def argTokens : List Tree → List Token
  | [] => []
  | [arg] => arg.tokens
  | arg :: args => arg.tokens ++ .comma :: argTokens args

end

/-- A string that the lexer can hold. -/
def StringOk (text : Bytes) : Prop :=
  (0 : UInt8) ∉ text ∧ text.length < MAX_STRING_LEN

mutual

/-- All strings of the tree can be held. -/
def Tree.StringsOk : Tree → Prop
  | .literal text => StringOk text
  | .binary _ left right => left.StringsOk ∧ right.StringsOk
  | .not arg => arg.StringsOk
  | .ifThen cond yes => cond.StringsOk ∧ yes.StringsOk
  | .ifThenElse cond yes no => cond.StringsOk ∧ yes.StringsOk ∧ no.StringsOk
  | .call name args => StringOk name ∧ argsStringsOk args

def argsStringsOk : List Tree → Prop
  | [] => True
  | arg :: args => arg.StringsOk ∧ argsStringsOk args

end

section Longest

variable {input : Bytes}

theorem mem_of_longest {rs : List Rule} {rule : Rule} {len : Nat}
    (hlongest : longest input rs = some (rule, len)) :
    rule ∈ rs ∧ len = rule.length input := by
  induction rs with
  | nil => cases hlongest
  | cons first rs ih =>
      rw [longest] at hlongest
      split at hlongest
      next =>
        split at hlongest
        · cases hlongest
          exact ⟨List.mem_cons_self .., rfl⟩
        · cases hlongest
      next best n hbest =>
        split at hlongest
        · cases hlongest
          exact ⟨List.mem_cons_self .., rfl⟩
        · cases hlongest
          exact ⟨List.mem_cons_of_mem _ (ih hbest).1, (ih hbest).2⟩

/-- The longest match, if the rules before it match less and those behind it
not more. -/
theorem longest_of_bounds {before behind : List Rule} {rule : Rule}
    (hpos : 0 < rule.length input)
    (hbefore : ∀ r ∈ before, r.length input < rule.length input)
    (hbehind : ∀ r ∈ behind, r.length input ≤ rule.length input) :
    longest input (before ++ rule :: behind) =
      some (rule, rule.length input) := by
  induction before with
  | nil =>
      rw [List.nil_append, longest]
      cases hrest : longest input behind with
      | none => rw [if_pos hpos]
      | some best =>
          obtain ⟨best, len⟩ := best
          obtain ⟨hmem, rfl⟩ := mem_of_longest hrest
          dsimp only
          rw [if_pos (hbehind best hmem)]
  | cons first before ih =>
      rw [List.cons_append, longest,
        ih fun r hr => hbefore r (List.mem_cons_of_mem _ hr)]
      dsimp only
      rw [if_neg (Nat.not_le.mpr (hbefore first (List.mem_cons_self ..)))]

end Longest

/-- The rules with their texts character by character. -/
theorem rules_eq : rules =
    [.quote, .fixed [105, 102] .IF, .fixed [116, 104, 101, 110] .THEN,
      .fixed [101, 108, 115, 101] .ELSE,
      .fixed [101, 110, 100, 105, 102] .ENDIF, .word, .fixed [38, 38] .AND,
      .fixed [124, 124] .OR, .fixed [61, 61] .EQ, .fixed [33, 61] .NE,
      .punctuation, .blanks, .lineEnd, .other] := by
  decide

section Lexing

/-- Whatever allowed text follows, the piece is read as the tokens. -/
def Lexes (text : Bytes) (tokens : List Token) (follow : Bytes → Prop) :
    Prop :=
  ∀ rest, follow rest → ∀ fuel pos loc, text.length + rest.length < fuel →
    ∃ fuel' pos' loc' lexemes, rest.length < fuel' ∧
      lexemes.map Lexeme.token = tokens ∧
      lex fuel pos loc (text ++ rest) =
        (lex fuel' pos' loc' rest).map (lexemes ++ ·)

variable {text text' : Bytes} {tokens tokens' : List Token}
  {follow follow' : Bytes → Prop}

theorem Lexes.append (htext : Lexes text tokens follow)
    (htext' : Lexes text' tokens' follow')
    (hfollow : ∀ rest, follow' rest → follow (text' ++ rest)) :
    Lexes (text ++ text') (tokens ++ tokens') follow' := by
  intro rest hrest fuel pos loc hfuel
  rw [List.length_append] at hfuel
  obtain ⟨fuel₁, pos₁, loc₁, first, hfuel₁, hfirst, hlex⟩ :=
    htext (text' ++ rest) (hfollow rest hrest) fuel pos loc
      (by rw [List.length_append]; omega)
  obtain ⟨fuel₂, pos₂, loc₂, second, hfuel₂, hsecond, hlex'⟩ :=
    htext' rest hrest fuel₁ pos₁ loc₁ (by rwa [List.length_append] at hfuel₁)
  refine ⟨fuel₂, pos₂, loc₂, first ++ second, hfuel₂, ?_, ?_⟩
  · rw [List.map_append, hfirst, hsecond]
  · rw [List.append_assoc, hlex, hlex', Option.map_map]
    congr 1
    funext lexemes
    exact (List.append_assoc first second lexemes).symm

theorem lex_of_go {fuel pos pos' : Nat} {loc loc' : YYLTYPE}
    {input rest : Bytes} {lexeme : Option Lexeme}
    (hgo : next pos loc input = .go lexeme pos' loc' rest) :
    lex (fuel + 1) pos loc input =
      (lex fuel pos' loc' rest).map (lexeme.toList ++ ·) := by
  rw [lex_succ fuel hgo]

theorem next_of_longest {pos len : Nat} {loc : YYLTYPE} {input : Bytes}
    {rule : Rule} (hlongest : longest input rules = some (rule, len)) :
    next pos loc input = rule.action pos loc input len := by
  rw [next_eq pos loc hlongest]

/-- A piece of which one match makes a token or nothing. -/
theorem lexes_of_next (hne : text ≠ [])
    (hnext : ∀ rest, follow rest → ∀ pos loc, ∃ lexeme pos' loc',
      lexeme.toList.map Lexeme.token = tokens ∧
      next pos loc (text ++ rest) = .go lexeme pos' loc' rest) :
    Lexes text tokens follow := by
  intro rest hrest fuel pos loc hfuel
  have hpos := List.length_pos_iff.mpr hne
  obtain ⟨fuel, rfl⟩ : ∃ n, fuel = n + 1 := ⟨fuel - 1, by omega⟩
  obtain ⟨lexeme, pos', loc', htokens, hgo⟩ := hnext rest hrest pos loc
  exact ⟨fuel, pos', loc', lexeme.toList, by omega, htokens, lex_of_go hgo⟩

/-- A piece that one rule matches, and that is one token. -/
theorem lexes_of_rule {rule : Rule} {token : Token} (hne : text ≠ [])
    (htoken : rule.token? text = some token)
    (hrule : ∀ rest, follow rest →
      longest (text ++ rest) rules = some (rule, text.length)) :
    Lexes text [token] follow := by
  apply lexes_of_next hne
  intro rest hrest pos loc
  refine ⟨some ⟨token, pos, pos + text.length⟩, pos + text.length,
    ⟨pos, pos + text.length⟩, rfl, ?_⟩
  rw [next_of_longest (hrule rest hrest)]
  cases rule with
  | quote | blanks | lineEnd | other => cases htoken
  | fixed | word | punctuation =>
      simp only [Rule.action, List.take_left', List.drop_left', htoken]
      rfl

/-- Blanks are passed over. -/
theorem lexes_blanks (hne : text ≠ []) (hrule : ∀ rest, follow rest →
    longest (text ++ rest) rules = some (.blanks, text.length)) :
    Lexes text [] follow := by
  apply lexes_of_next hne
  intro rest hrest pos loc
  refine ⟨none, pos + text.length, ⟨pos, pos + text.length⟩, rfl, ?_⟩
  rw [next_of_longest (hrule rest hrest)]
  simp only [Rule.action, List.drop_left']

theorem lexString_cons {c : UInt8} (hquote : c ≠ 34) (hescape : c ≠ 92)
    (input : Bytes) :
    lexString (c :: input) = lexString.stored c 1 (lexString input) := by
  rw [lexString.eq_def]
  split <;> simp_all

/-- Inside a string, the printed character is read as the character. -/
theorem lexString_escapeChar (c : UInt8) (input : Bytes) :
    ∃ len, lexString (escapeChar c ++ input) =
      lexString.stored c len (lexString input) := by
  unfold escapeChar
  split
  next hc =>
    subst hc
    exact ⟨2, rfl⟩
  next hescape =>
    split
    next hc =>
      subst hc
      exact ⟨2, rfl⟩
    next hquote =>
      split
      next hc =>
        subst hc
        exact ⟨2, rfl⟩
      next =>
        split
        next hc =>
          subst hc
          exact ⟨2, rfl⟩
        next => exact ⟨1, lexString_cons hquote hescape input⟩

theorem lexString_escaped (text rest : Bytes) :
    ∃ count, lexString (text.flatMap escapeChar ++ 34 :: rest) =
      (text, count, some rest) := by
  induction text with
  | nil => exact ⟨1, rfl⟩
  | cons c text ih =>
      obtain ⟨count, hread⟩ := ih
      obtain ⟨len, hc⟩ := lexString_escapeChar c
        (text.flatMap escapeChar ++ 34 :: rest)
      refine ⟨len + count, ?_⟩
      rw [List.flatMap_cons, List.append_assoc, hc, hread]
      rfl

/-- Anything may follow. -/
def Anything (_ : Bytes) : Prop := True

/-- What follows does not begin with such a character. -/
def NotBefore (bad : UInt8 → Bool) (rest : Bytes) : Prop :=
  ∀ c, rest.head? = some c → bad c = false

theorem lexes_quote {text : Bytes} (hok : StringOk text) :
    Lexes (quote text) [.STRING text] Anything := by
  have hne : quote text ≠ [] := List.cons_ne_nil _ _
  apply lexes_of_next hne
  intro rest _ pos loc
  obtain ⟨count, hread⟩ := lexString_escaped text rest
  refine ⟨some ⟨.STRING text, pos, pos + 1 + count⟩, pos + 1 + count,
    ⟨pos, pos + 1 + count⟩, rfl, ?_⟩
  have hlongest : longest (quote text ++ rest) rules = some (.quote, 1) := by
    simp [quote, longest, rules_eq, Rule.length, punctuation?, isWord,
      isBlank]
  have hrest : (quote text ++ rest).drop 1 =
      text.flatMap escapeChar ++ 34 :: rest := by
    simp [quote]
  rw [next_of_longest hlongest, Rule.action, hrest, lexQuoted, hread]
  simp only [hok.2, if_true, cstr_eq_self hok.1]

theorem takeWhile_append_of_follow {p : UInt8 → Bool} {text rest : Bytes}
    (htext : ∀ c ∈ text, p c = true) (hrest : NotBefore p rest) :
    (text ++ rest).takeWhile p = text := by
  rw [List.takeWhile_append_of_pos htext]
  cases rest with
  | nil => simp
  | cons c rest => simp [hrest c rfl]

theorem ne_of_isWord {c d : UInt8} (hc : isWord c = true)
    (hd : isWord d = false) : c ≠ d := by
  rintro rfl
  rw [hc] at hd
  cases hd

/-- A reserved word at the head of a bare one is shorter. -/
theorem length_lt_of_reserved {text rest word : Bytes}
    (hword : ∀ c ∈ text, isWord c = true) (hrest : NotBefore isWord rest)
    (hall : ∀ c ∈ word, isWord c = true) (hne : word ≠ text)
    (hpre : word <+: text ++ rest) : word.length < text.length := by
  obtain ⟨behind, hsplit⟩ := hpre
  obtain ⟨z, rfl, -⟩ | ⟨z, rfl, hz⟩ := List.append_eq_append_iff.mp hsplit
  · have hz : z ≠ [] := by
      rintro rfl
      exact hne (List.append_nil word).symm
    rw [List.length_append]
    have hpos := List.length_pos_iff.mpr hz
    omega
  · cases z with
    | nil => exact absurd (List.append_nil text) hne
    | cons d z =>
        have hd := hrest d (by rw [hz]; rfl)
        rw [hall d (by simp)] at hd
        cases hd

theorem reserved_isWord :
    ∀ word ∈ reserved, ∀ c ∈ word, isWord c = true := by
  decide +kernel

/-- A bare word that is not reserved. -/
theorem lexes_bare {text : Bytes} (hbare : IsBare text) :
    Lexes text [.STRING text] (NotBefore isWord) := by
  obtain ⟨hne, hword, hreserved⟩ := hbare
  apply lexes_of_rule hne (show Rule.token? text .word = _ from rfl)
  intro rest hrest
  have hlength : Rule.length .word (text ++ rest) = text.length := by
    rw [Rule.length, takeWhile_append_of_follow hword hrest]
  have hpos : 0 < text.length := List.length_pos_iff.mpr hne
  obtain ⟨c, tail, rfl⟩ := List.exists_cons_of_ne_nil hne
  have hc : isWord c = true := hword c (List.mem_cons_self ..)
  have hshort : ∀ word ∈ reserved, word <+: c :: tail ++ rest →
      word.length < (c :: tail).length := by
    intro word hmem hpre
    refine length_lt_of_reserved hword hrest (reserved_isWord word hmem) ?_
      hpre
    rintro rfl
    exact hreserved hmem
  rw [← hlength]
  have hrules : rules = rules.take 5 ++ .word :: rules.drop 6 := by decide
  rw [hrules]
  refine longest_of_bounds (by rw [hlength]; exact hpos) ?_ ?_
  · rw [hlength]
    intro r hr
    simp only [rules_eq, List.take_succ_cons, List.take_zero, List.mem_cons,
      List.not_mem_nil, or_false] at hr
    obtain rfl | rfl | rfl | rfl | rfl := hr
    · simp [Rule.length, ne_of_isWord hc (show isWord 34 = false by decide)]
    all_goals
      rw [Rule.length]
      split
      · apply hshort _ _ (by assumption)
        decide
      · exact hpos
  · rw [hlength]
    intro r hr
    have hother : ∀ d, isWord d = false → c ≠ d :=
      fun d => ne_of_isWord hc
    simp only [rules_eq, List.drop_succ_cons, List.drop_zero, List.mem_cons,
      List.not_mem_nil, or_false] at hr
    obtain rfl | rfl | rfl | rfl | rfl | rfl | rfl | rfl := hr
    · simp [Rule.length, (hother 38 (by decide)).symm]
    · simp [Rule.length, (hother 124 (by decide)).symm]
    · simp [Rule.length, (hother 61 (by decide)).symm]
    · simp [Rule.length, (hother 33 (by decide)).symm]
    · simp [Rule.length, punctuation?, hother 43 (by decide),
        hother 40 (by decide), hother 41 (by decide), hother 44 (by decide),
        hother 33 (by decide), hother 59 (by decide)]
    · simp [Rule.length, isBlank, hother 32 (by decide),
        hother 9 (by decide)]
    · simp [Rule.length, hother 35 (by decide), hother 10 (by decide)]
    · simp [Rule.length, hother 10 (by decide)]

theorem lexes_punctuation {c : UInt8} {token : Token}
    (htoken : punctuation? c = some token)
    (hc : c ∈ ([40, 41, 43, 44, 59] : Bytes)) :
    Lexes [c] [token] Anything := by
  apply lexes_of_rule (List.cons_ne_nil _ _)
    (show Rule.token? [c] .punctuation = _ from htoken)
  intro rest _
  simp only [List.mem_cons, List.not_mem_nil, or_false] at hc
  obtain rfl | rfl | rfl | rfl | rfl := hc
  all_goals
    simp [longest, rules_eq, Rule.length, punctuation?, isWord, isBlank]

theorem lexes_lparen : Lexes (.ofString "(") [.lparen] Anything :=
  lexes_punctuation (by decide) (by decide)

theorem lexes_rparen : Lexes (.ofString ")") [.rparen] Anything :=
  lexes_punctuation (by decide) (by decide)

theorem lexes_comma : Lexes (.ofString ",") [.comma] Anything :=
  lexes_punctuation (by decide) (by decide)

/-- The mark must not be the beginning of an inequality. -/
theorem lexes_bang : Lexes [33] [.bang] (NotBefore (· == 61)) := by
  apply lexes_of_rule (List.cons_ne_nil _ _)
    (show Rule.token? [33] .punctuation = _ from rfl)
  intro rest hrest
  have hequal : ¬ [61] <+: rest := by
    rintro ⟨behind, rfl⟩
    cases hrest 61 rfl
  simp [longest, rules_eq, Rule.length, punctuation?, isWord, isBlank, hequal]

theorem lexes_fixed {text : Bytes} {token : Token} {follow : Bytes → Prop}
    (hne : text ≠ []) (hrule : ∀ rest, follow rest →
      longest (text ++ rest) rules = some (.fixed text token, text.length)) :
    Lexes text [token] follow :=
  lexes_of_rule hne rfl hrule

theorem lexes_operator (op : Operator) :
    Lexes op.text [op.token] Anything := by
  cases op with
  | sequence => exact lexes_punctuation (by decide) (by decide)
  | concat => exact lexes_punctuation (by decide) (by decide)
  | equal =>
      rw [show Operator.equal.text = [61, 61] by decide]
      apply lexes_fixed (List.cons_ne_nil _ _)
      simp [Operator.token, longest, rules_eq, Rule.length, punctuation?,
        isWord, isBlank]
  | notEqual =>
      rw [show Operator.notEqual.text = [33, 61] by decide]
      apply lexes_fixed (List.cons_ne_nil _ _)
      simp [Operator.token, longest, rules_eq, Rule.length, punctuation?,
        isWord, isBlank]
  | and =>
      rw [show Operator.and.text = [38, 38] by decide]
      apply lexes_fixed (List.cons_ne_nil _ _)
      simp [Operator.token, longest, rules_eq, Rule.length, punctuation?,
        isWord, isBlank]
  | or =>
      rw [show Operator.or.text = [124, 124] by decide]
      apply lexes_fixed (List.cons_ne_nil _ _)
      simp [Operator.token, longest, rules_eq, Rule.length, punctuation?,
        isWord, isBlank]

theorem takeWhile_of_follow {p : UInt8 → Bool} {rest : Bytes}
    (hrest : NotBefore p rest) : rest.takeWhile p = [] :=
  takeWhile_append_of_follow (List.forall_mem_nil _) hrest

theorem lexes_space : Lexes [32] [] (NotBefore isBlank) := by
  apply lexes_blanks (List.cons_ne_nil _ _)
  intro rest hrest
  have hblank : isBlank 32 = true := by decide
  simp [longest, rules_eq, Rule.length, punctuation?, isWord, hblank,
    takeWhile_of_follow hrest]

/-- The reserved words and their tokens. -/
def reservedTokens : List (Bytes × Token) :=
  [([105, 102], .IF), ([116, 104, 101, 110], .THEN),
    ([101, 108, 115, 101], .ELSE), ([101, 110, 100, 105, 102], .ENDIF)]

theorem lexes_reserved {text : Bytes} {token : Token}
    (hmem : (text, token) ∈ reservedTokens) :
    Lexes text [token] (NotBefore isWord) := by
  simp only [reservedTokens, List.mem_cons, List.not_mem_nil, or_false,
    Prod.mk.injEq] at hmem
  obtain ⟨rfl, rfl⟩ | ⟨rfl, rfl⟩ | ⟨rfl, rfl⟩ | ⟨rfl, rfl⟩ := hmem
  all_goals
    apply lexes_fixed (List.cons_ne_nil _ _)
    intro rest hrest
    simp [longest, rules_eq, Rule.length, punctuation?, isWord, isBlank,
      takeWhile_of_follow hrest]

theorem Lexes.andThen {text text' : Bytes} {tokens tokens' : List Token}
    {follow : Bytes → Prop} (htext : Lexes text tokens Anything)
    (htext' : Lexes text' tokens' follow) :
    Lexes (text ++ text') (tokens ++ tokens') follow :=
  htext.append htext' fun _ _ => trivial

theorem notBefore_cons {p : UInt8 → Bool} {c : UInt8} {rest : Bytes}
    (hc : p c = false) : NotBefore p (c :: rest) := by
  intro d hd
  rw [← Option.some.inj hd]
  exact hc

theorem lexes_openNot :
    Lexes (.ofString "(!") [.lparen, .bang] (NotBefore (· == 61)) := by
  rw [show Bytes.ofString "(!" = Bytes.ofString "(" ++ [33] by decide]
  exact lexes_lparen.andThen lexes_bang

theorem lexes_openIf :
    Lexes (.ofString "(if ") [.lparen, .IF] (NotBefore isBlank) := by
  rw [show Bytes.ofString "(if " =
    Bytes.ofString "(" ++ (([105, 102] : Bytes) ++ [32]) by decide]
  exact lexes_lparen.andThen ((lexes_reserved (by decide)).append lexes_space
    fun _ _ => notBefore_cons (by decide))

/-- A reserved word between blanks. -/
theorem lexes_between {text : Bytes} {token : Token}
    (hmem : (text, token) ∈ reservedTokens) :
    Lexes ([32] ++ text ++ [32]) [token] (NotBefore isBlank) := by
  refine (lexes_space.append (lexes_reserved hmem) ?_).append lexes_space
    fun _ _ => notBefore_cons (by decide)
  intro rest _
  simp only [reservedTokens, List.mem_cons, List.not_mem_nil, or_false,
    Prod.mk.injEq] at hmem
  obtain ⟨rfl, rfl⟩ | ⟨rfl, rfl⟩ | ⟨rfl, rfl⟩ | ⟨rfl, rfl⟩ := hmem
  all_goals exact notBefore_cons (by decide)

theorem lexes_then :
    Lexes (.ofString " then ") [.THEN] (NotBefore isBlank) := by
  rw [show Bytes.ofString " then " =
    [32] ++ [116, 104, 101, 110] ++ [32] by decide]
  exact lexes_between (by decide)

theorem lexes_else :
    Lexes (.ofString " else ") [.ELSE] (NotBefore isBlank) := by
  rw [show Bytes.ofString " else " =
    [32] ++ [101, 108, 115, 101] ++ [32] by decide]
  exact lexes_between (by decide)

theorem lexes_closeIf :
    Lexes (.ofString " endif)") [.ENDIF, .rparen] Anything := by
  rw [show Bytes.ofString " endif)" =
    [32] ++ [101, 110, 100, 105, 102] ++ Bytes.ofString ")" by decide]
  refine (lexes_space.append (lexes_reserved (by decide)) ?_).append
    lexes_rparen ?_
  · exact fun _ _ => notBefore_cons (by decide)
  · intro rest _
    rw [show Bytes.ofString ")" = [41] by decide]
    exact notBefore_cons (by decide)

theorem lexes_name {name : Bytes} (hok : StringOk name) :
    Lexes (printName name ++ .ofString "(") [.STRING name, .lparen]
      Anything := by
  unfold printName
  split
  next hbare =>
    apply (lexes_bare hbare).append lexes_lparen
    intro rest _
    rw [show Bytes.ofString "(" = [40] by decide]
    exact notBefore_cons (by decide)
  next => exact (lexes_quote hok).andThen lexes_lparen

/-- A tree begins with a quote, a parenthesis or a word. -/
theorem print_head (tree : Tree) : ∃ c, tree.print.head? = some c ∧
    (c = 34 ∨ c = 40 ∨ isWord c = true) := by
  cases tree with
  | literal text => exact ⟨34, rfl, .inl rfl⟩
  | binary op left right =>
      refine ⟨40, ?_, .inr (.inl rfl)⟩
      rw [Tree.print, show Bytes.ofString "(" = [40] by decide]
      rfl
  | not arg =>
      refine ⟨40, ?_, .inr (.inl rfl)⟩
      rw [Tree.print, show Bytes.ofString "(!" = [40, 33] by decide]
      rfl
  | ifThen cond yes =>
      refine ⟨40, ?_, .inr (.inl rfl)⟩
      rw [Tree.print, show Bytes.ofString "(if " = [40, 105, 102, 32] by decide]
      rfl
  | ifThenElse cond yes no =>
      refine ⟨40, ?_, .inr (.inl rfl)⟩
      rw [Tree.print, show Bytes.ofString "(if " = [40, 105, 102, 32] by decide]
      rfl
  | call name args =>
      rw [Tree.print, printName]
      split
      next hbare =>
        obtain ⟨c, tail, rfl⟩ := List.exists_cons_of_ne_nil hbare.1
        exact ⟨c, rfl, .inr (.inr (hbare.2.1 c (List.mem_cons_self ..)))⟩
      next => exact ⟨34, rfl, .inl rfl⟩

theorem notBefore_print {p : UInt8 → Bool} (hquote : p 34 = false)
    (hparen : p 40 = false) (hword : ∀ c, isWord c = true → p c = false)
    (tree : Tree) (rest : Bytes) : NotBefore p (tree.print ++ rest) := by
  obtain ⟨c, hhead, hc⟩ := print_head tree
  intro d hd
  rw [List.head?_append, hhead, Option.some_or] at hd
  rw [← Option.some.inj hd]
  obtain rfl | rfl | hc := hc
  · exact hquote
  · exact hparen
  · exact hword c hc

theorem notBlank_print (tree : Tree) (rest : Bytes) :
    NotBefore isBlank (tree.print ++ rest) := by
  apply notBefore_print (by decide) (by decide)
  intro c hc
  simp [isBlank, ne_of_isWord hc (show isWord 32 = false by decide),
    ne_of_isWord hc (show isWord 9 = false by decide)]

theorem notEqual_print (tree : Tree) (rest : Bytes) :
    NotBefore (· == 61) (tree.print ++ rest) := by
  apply notBefore_print (by decide) (by decide)
  intro c hc
  simp [ne_of_isWord hc (show isWord 61 = false by decide)]

theorem lexes_nil : Lexes [] [] Anything := by
  intro rest _ fuel pos loc hfuel
  refine ⟨fuel, pos, loc, [], by simpa using hfuel, rfl, ?_⟩
  simp

mutual

/-- The lexer reads the tokens of a tree back from its text. -/
theorem Tree.lexes : (tree : Tree) → tree.StringsOk →
    Lexes tree.print tree.tokens Anything
  | .literal text, hok => lexes_quote hok
  | .binary op left right, hok => by
      have hlex := (((lexes_lparen.andThen (left.lexes hok.1)).andThen
        (lexes_operator op)).andThen (right.lexes hok.2)).andThen lexes_rparen
      simpa [Tree.print, Tree.tokens] using hlex
  | .not arg, hok => by
      have hlex := (lexes_openNot.append (arg.lexes hok)
        fun rest _ => notEqual_print arg rest).andThen lexes_rparen
      simpa [Tree.print, Tree.tokens] using hlex
  | .ifThen cond yes, hok => by
      have hlex := (((lexes_openIf.append (cond.lexes hok.1)
        fun rest _ => notBlank_print cond rest).andThen lexes_then).append
        (yes.lexes hok.2) fun rest _ => notBlank_print yes rest).andThen
        lexes_closeIf
      simpa [Tree.print, Tree.tokens] using hlex
  | .ifThenElse cond yes no, hok => by
      have hlex := (((((lexes_openIf.append (cond.lexes hok.1)
        fun rest _ => notBlank_print cond rest).andThen lexes_then).append
        (yes.lexes hok.2.1) fun rest _ => notBlank_print yes rest).andThen
        lexes_else).append (no.lexes hok.2.2)
        fun rest _ => notBlank_print no rest).andThen lexes_closeIf
      simpa [Tree.print, Tree.tokens] using hlex
  | .call name args, hok => by
      have hlex := ((lexes_name hok.1).andThen (lexes_args args hok.2)).andThen
        lexes_rparen
      simpa [Tree.print, Tree.tokens] using hlex

theorem lexes_args : (args : List Tree) → argsStringsOk args →
    Lexes (printArgs args) (argTokens args) Anything
  | [], _ => lexes_nil
  | [arg], hok => arg.lexes hok.1
  | arg :: next :: args, hok => by
      have hlex := ((arg.lexes hok.1).andThen lexes_comma).andThen
        (lexes_args (next :: args) hok.2)
      simpa [printArgs, argTokens] using hlex

end

/-- The tokens of the printed text of a tree. -/
theorem yylex_print (tree : Tree) (hok : tree.StringsOk) :
    ∃ lexemes, yylex tree.print = some lexemes ∧
      lexemes.map Lexeme.token = tree.tokens := by
  obtain ⟨fuel, pos, loc, lexemes, hfuel, htokens, hlex⟩ :=
    tree.lexes hok [] trivial (tree.print.length + 1) 0 ⟨0, 0⟩ (by simp)
  obtain ⟨fuel, rfl⟩ : ∃ n, fuel = n + 1 := ⟨fuel - 1, by omega⟩
  refine ⟨lexemes, ?_, htokens⟩
  have hend : lex (fuel + 1) pos loc [] = some [] := rfl
  rw [List.append_nil, hend] at hlex
  rw [yylex, hlex, Option.map_some, List.append_nil]

end Lexing

end Edify

end MetaOS
