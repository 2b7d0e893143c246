/-
bootable/recovery/edify/lexer.l: the tokens of a script.

The rules are those of the file, in its order; the longest match is taken, and
the first rule among equals.  Lines and columns, which only error messages
show, are left out.
-/
import MetaOS.CString

namespace MetaOS

namespace Edify

open CString

def MAX_STRING_LEN : Nat := 1024

inductive Token where
  | AND
  | OR
  | EQ
  | NE
  | IF
  | THEN
  | ELSE
  | ENDIF
  | STRING (str : Bytes)
  | BAD
  | plus
  | lparen
  | rparen
  | comma
  | bang
  | semicolon
deriving DecidableEq

structure YYLTYPE where
  start : Nat
  stop : Nat

/-- A token with the value of `yylloc` when it is returned. -/
structure Lexeme where
  token : Token
  loc : YYLTYPE

/-- `[a-zA-Z0-9_:/.]` -/
def isWord (c : UInt8) : Bool :=
  (97 ≤ c && c ≤ 122) || (65 ≤ c && c ≤ 90) || (48 ≤ c && c ≤ 57) ||
    c == 95 || c == 58 || c == 47 || c == 46

def isBlank (c : UInt8) : Bool := c == 32 || c == 9

/-- `[+(),!;]` -/
def punctuation? (c : UInt8) : Option Token :=
  if c = 43 then some .plus
  else if c = 40 then some .lparen
  else if c = 41 then some .rparen
  else if c = 44 then some .comma
  else if c = 33 then some .bang
  else if c = 59 then some .semicolon
  else none

/-- The rules outside of strings. -/
inductive Rule where
  | quote
  | fixed (text : Bytes) (token : Token)
  | word
  | punctuation
  | blanks
  | lineEnd
  | other
deriving DecidableEq

def rules : List Rule :=
  [.quote, .fixed (.ofString "if") .IF, .fixed (.ofString "then") .THEN,
    .fixed (.ofString "else") .ELSE, .fixed (.ofString "endif") .ENDIF, .word,
    .fixed (.ofString "&&") .AND, .fixed (.ofString "||") .OR,
    .fixed (.ofString "==") .EQ, .fixed (.ofString "!=") .NE, .punctuation,
    .blanks, .lineEnd, .other]

/-- How much of the input a rule matches, 0 if it does not. -/
def Rule.length : Rule → Bytes → Nat
  | quote, input => if input.head? = some 34 then 1 else 0
  | fixed text _, input => if text <+: input then List.length text else 0
  | word, input => (input.takeWhile isWord).length
  | punctuation, input =>
      if (input.head?.bind punctuation?).isSome then 1 else 0
  | blanks, input => (input.takeWhile isBlank).length
  | lineEnd, input =>
      let comment := if input.head? = some 35 then input.takeWhile (· != 10)
        else []
      if input[comment.length]? = some 10 then comment.length + 1 else 0
  | other, input =>
      match input with
      | c :: _ => if c = 10 then 0 else 1
      | [] => 0

/-- The rule that is taken, and the length of its match. -/
def longest (input : Bytes) : List Rule → Option (Rule × Nat)
  | [] => none
  | rule :: rules =>
      match longest input rules with
      | none =>
          if 0 < rule.length input then some (rule, rule.length input)
          else none
      | some (best, len) =>
          if len ≤ rule.length input then some (rule, rule.length input)
          else some (best, len)

def hexDigit? (c : UInt8) : Option Nat := digit? 16 c

/-- The rules inside of strings: what is stored, how many characters were read
and what is left behind the closing quote, if there is one. -/
def lexString : Bytes → Bytes × Nat × Option Bytes
  | [] => ([], 0, none)
  | 34 :: input => ([], 1, some input)
  | 92 :: 110 :: input => stored 10 2 (lexString input)
  | 92 :: 116 :: input => stored 9 2 (lexString input)
  | 92 :: 34 :: input => stored 34 2 (lexString input)
  | 92 :: 92 :: input => stored 92 2 (lexString input)
  | 92 :: 120 :: a :: b :: input =>
      match hexDigit? a, hexDigit? b with
      | some high, some low =>
          stored (UInt8.ofNat (16 * high + low)) 4 (lexString input)
      | _, _ => stored 92 1 (lexString (120 :: a :: b :: input))
  | c :: input => stored c 1 (lexString input)
where
  stored (c : UInt8) (len : Nat) (read : Bytes × Nat × Option Bytes) :
      Bytes × Nat × Option Bytes :=
    (c :: read.1, len + read.2.1, read.2.2)

/-- The token of a rule that returns one at once. -/
def Rule.token? (text : Bytes) : Rule → Option Token
  | fixed _ token => some token
  | word => some (.STRING text)
  | punctuation => text.head?.bind punctuation?
  | quote | blanks | lineEnd | other => none

/-- What one rule does: the input ends, a string overruns its buffer, or the
lexer goes on behind the match, perhaps with a token. -/
inductive Next where
  | done
  | overrun
  | go (lexeme : Option Lexeme) (pos : Nat) (yylloc : YYLTYPE) (rest : Bytes)

def lexQuoted (pos : Nat) (input : Bytes) : Next :=
  match lexString input with
  | (text, _, none) =>
      if text.length ≤ MAX_STRING_LEN then .done else .overrun
  | (text, count, some rest) =>
      if text.length < MAX_STRING_LEN then
        .go (some ⟨.STRING (cstr text), pos, pos + 1 + count⟩)
          (pos + 1 + count) ⟨pos, pos + 1 + count⟩ rest
      else .overrun

/-- The action of a rule that has matched `len` characters at position `pos`.
A character without a rule of its own does not move the position. -/
def Rule.action (pos : Nat) (yylloc : YYLTYPE) (input : Bytes) (len : Nat) :
    Rule → Next
  | quote => lexQuoted pos (input.drop len)
  | blanks => .go none (pos + len) ⟨pos, pos + len⟩ (input.drop len)
  | lineEnd => .go none (pos + len) yylloc (input.drop len)
  | other => .go (some ⟨.BAD, yylloc⟩) pos yylloc (input.drop len)
  | rule => .go ((rule.token? (input.take len)).map fun token =>
      ⟨token, pos, pos + len⟩) (pos + len) ⟨pos, pos + len⟩ (input.drop len)

def next (pos : Nat) (yylloc : YYLTYPE) (input : Bytes) : Next :=
  match longest input rules with
  | none => .done
  | some (rule, len) => rule.action pos yylloc input len

theorem next_eq (pos : Nat) (yylloc : YYLTYPE) {input : Bytes}
    {found : Option (Rule × Nat)} : longest input rules = found →
    next pos yylloc input =
      match found with
      | none => .done
      | some (rule, len) => rule.action pos yylloc input len := by
  rintro rfl
  rfl

/-- All tokens, from position `pos` on, unless a string overruns its
buffer. -/
def lex : (fuel pos : Nat) → (yylloc : YYLTYPE) → Bytes →
    Option (List Lexeme)
  | 0, _, _, _ => some []
  | fuel + 1, pos, yylloc, input =>
      match next pos yylloc input with
      | .done => some []
      | .overrun => none
      | .go lexeme pos yylloc rest =>
          (lex fuel pos yylloc rest).map (lexeme.toList ++ ·)

theorem lex_succ (fuel : Nat) {pos : Nat} {yylloc : YYLTYPE} {input : Bytes}
    {found : Next} : next pos yylloc input = found →
    lex (fuel + 1) pos yylloc input =
      match found with
      | .done => some []
      | .overrun => none
      | .go lexeme pos yylloc rest =>
          (lex fuel pos yylloc rest).map (lexeme.toList ++ ·) := by
  rintro rfl
  rfl

/-- The tokens of a script that is the first the process reads. -/
def yylex (script : Bytes) : Option (List Lexeme) :=
  lex (script.length + 1) 0 ⟨0, 0⟩ script

end Edify

end MetaOS
