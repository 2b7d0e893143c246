/-
hardware/ril/reference-ril/at_tok.c: the tokens of a line from the modem.

A cursor points into a line, or is null behind its last token.
-/
import MetaOS.CString

namespace MetaOS

namespace AtTok

open CString

abbrev Cursor := Option Bytes

/-- Skips what stands before the colon. -/
def atTokStart (line : Bytes) : Option Cursor :=
  match line.dropWhile (· != 58) with
  | [] => none
  | _ :: rest => some (some rest)

/-- `strsep` with one delimiter: the token, and the text behind the
delimiter. -/
def strsep (delim : UInt8) (text : Bytes) : Bytes × Cursor :=
  (text.takeWhile (· != delim),
    match text.dropWhile (· != delim) with
    | [] => none
    | _ :: rest => some rest)

def skipNextComma (cur : Cursor) : Cursor :=
  cur.map fun text => (text.dropWhile (· != 44)).drop 1

/-- On a cursor that is not null. -/
def nextTok (text : Bytes) : Bytes × Cursor :=
  match text.dropWhile isSpace with
  | 34 :: quoted =>
      let (token, cur) := strsep 34 quoted
      (token, skipNextComma cur)
  | text => strsep 44 text

/-- The two functions that read a number; `convert` is the one of the C
library that is used. -/
def atTokNextintBase (convert : Bytes → Int × Bytes) (cur : Cursor) :
    Option (Int × Cursor) :=
  match cur with
  | none => none
  | some text =>
      let (token, cur) := nextTok text
      let (value, rest) := convert token
      -- `end == ret`: nothing was read
      if rest.length = token.length then none
      else some (value, cur)

def atTokNextint : Cursor → Option (Int × Cursor) :=
  atTokNextintBase strtol

/-- The value is stored in an `int`. -/
def atTokNexthexint : Cursor → Option (Int × Cursor) :=
  atTokNextintBase fun token =>
    ((Int.ofNat (strtoul16 token).1).bmod (2 ^ 32), (strtoul16 token).2)

def atTokNextbool (cur : Cursor) : Option (Bool × Cursor) :=
  match atTokNextint cur with
  | some (0, cur) => some (false, cur)
  | some (1, cur) => some (true, cur)
  | _ => none

def atTokNextstr (cur : Cursor) : Option (Bytes × Cursor) :=
  cur.map nextTok

def atTokHasmore (cur : Cursor) : Bool :=
  match cur with
  | none | some [] => false
  | some (_ :: _) => true

end AtTok

end MetaOS
