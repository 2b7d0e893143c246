/-
bootable/recovery/edify/expr.c: the functions that scripts are made of.

A function is a program over what it asks of its surroundings: the values of
its arguments, the message of the state, and its effects.  A `char *` is the
bytes before its NUL, a null pointer is `none`, memory does not run out, and
what is printed on `stderr` is left out.
-/
import MetaOS.CString
import MetaOS.ProgramLogic

namespace MetaOS

namespace Edify

/-- A blob without contents has size -1. -/
inductive Value where
  | string (data : Bytes)
  | blob (data : Option Bytes)
deriving DecidableEq

/-- `VAL_STRING` and `VAL_BLOB` -/
def Value.type : Value → Nat
  | string _ => 1
  | blob _ => 2

/-- How a function comes to an end: a value or a null pointer is returned, or
memory is used in a way that C leaves undefined. -/
inductive Outcome where
  | returned (value : Option Value)
  | undefined
deriving DecidableEq

/-- What a function asks for.  Arguments are named by their position in
`argv`; `E` is what else there is outside the language. -/
inductive Call (E : Type) where
  | evaluate (i : Nat)
  | evaluateValue (i : Nat)
  | span (i : Nat)
  | script
  | errmsg (text : Bytes)
  | fputs (text : Bytes)
  | sleep (seconds : Int)
  | outside (e : E)

def Call.Answer {E : Type} (A : E → Type) : Call E → Type
  | .evaluate _ => Option Bytes
  | .evaluateValue _ => Option Value
  | .span _ => Int × Int
  | .script => Bytes
  | .errmsg _ | .fputs _ | .sleep _ => Unit
  | .outside e => A e

variable {E : Type} {A : E → Type}

abbrev FnProg (E : Type) (A : E → Type) := Prog (Call E) (Call.Answer A)

/-- `Evaluate(state, argv[i])` -/
def evaluate (i : Nat) : FnProg E A (Option Bytes) :=
  Prog.perform (Call.evaluate i)

/-- `EvaluateValue(state, argv[i])` -/
def evaluateValue (i : Nat) : FnProg E A (Option Value) :=
  Prog.perform (Call.evaluateValue i)

/-- `argv[i]->start` and `argv[i]->end` -/
def argSpan (i : Nat) : FnProg E A (Int × Int) :=
  Prog.perform (Call.span i)

def stateScript : FnProg E A Bytes := Prog.perform Call.script

/-- `free(state->errmsg); state->errmsg = text` -/
def setErrmsg (text : Bytes) : FnProg E A Unit :=
  Prog.perform (Call.errmsg text)

def fputs (text : Bytes) : FnProg E A Unit := Prog.perform (Call.fputs text)

def sleep (seconds : Int) : FnProg E A Unit :=
  Prog.perform (Call.sleep seconds)

/-- `StringValue` -/
def stringValue (text : Option Bytes) : Outcome :=
  .returned (text.map .string)

def text (constant : String) : Outcome :=
  stringValue (some (.ofString constant))

/-- `return NULL` -/
def null : Outcome := .returned none

/-- `ErrorAbort` cuts a message to its buffer of 4096 bytes. -/
def abortMessage (message : Bytes) : Bytes := message.take 4095

/-- `%d` -/
def decimal (n : Int) : Bytes := .ofString (toString n)

def booleanString (s : Bytes) : Bool := decide (s ≠ [])

/-- The arguments from `first` on, up to the first that is null. -/
def readEach {α : Type} (read : Nat → FnProg E A (Option α)) :
    (first count : Nat) → FnProg E A (Option (List α))
  | _, 0 => pure (some [])
  | first, count + 1 => do
      match ← read first with
      | none => pure none
      | some arg =>
          let rest ← readEach read (first + 1) count
          pure (rest.map (arg :: ·))

def readArgs (count : Nat) : FnProg E A (Option (List Bytes)) :=
  readEach evaluate 0 count

def readValueArgs (count : Nat) : FnProg E A (Option (List Value)) :=
  readEach evaluateValue 0 count

/-- `ReadVarArgs(state, count, argv + first)` -/
def readVarArgs (first count : Nat) : FnProg E A (Option (List Bytes)) :=
  readEach evaluate first count

/-- `ReadValueVarArgs(state, count, argv + first)` -/
def readValueVarArgs (first count : Nat) : FnProg E A (Option (List Value)) :=
  readEach evaluateValue first count

def literal (name : Bytes) : FnProg E A Outcome :=
  pure (stringValue (some name))

def concatFn (argc : Nat) : FnProg E A Outcome := do
  if argc = 0 then pure (text "")
  else
    let strings ← readEach evaluate 0 argc
    pure (stringValue (strings.map List.flatten))

def ifElseFn (argc : Nat) : FnProg E A Outcome := do
  if argc ≠ 2 ∧ argc ≠ 3 then
    setErrmsg (.ofString "ifelse expects 2 or 3 arguments")
    pure null
  else
    match ← evaluate 0 with
    | none => pure null
    | some cond =>
        if booleanString cond = true then
          return .returned (← evaluateValue 1)
        else if argc = 3 then
          return .returned (← evaluateValue 2)
        else pure (stringValue (some cond))

def abortFn (argc : Nat) : FnProg E A Outcome := do
  let msg ← if 0 < argc then evaluate 0 else pure none
  match msg with
  | some msg => setErrmsg msg
  | none => setErrmsg (.ofString "called abort()")
  pure null

/-- The message is made of the bytes of the script that the argument was read
from; they are copied without a look at the length of the script. -/
def assertFailed (i : Nat) : FnProg E A Outcome := do
  let (start, stop) ← argSpan i
  let script ← stateScript
  if 0 ≤ start ∧ start ≤ stop ∧ stop ≤ script.length then
    setErrmsg (.ofString "assert failed: " ++
      script.window start.toNat (stop - start).toNat)
    pure null
  else pure .undefined

def assertFrom : (i count : Nat) → FnProg E A Outcome
  | _, 0 => pure (text "")
  | i, count + 1 => do
      match ← evaluate i with
      | none => pure null
      | some v =>
          if booleanString v = true then assertFrom (i + 1) count
          else assertFailed i

def assertFn (argc : Nat) : FnProg E A Outcome := assertFrom 0 argc

def stdoutFrom : (i count : Nat) → FnProg E A Outcome
  | _, 0 => pure (text "")
  | i, count + 1 => do
      match ← evaluate i with
      | none => pure null
      | some v =>
          fputs v
          stdoutFrom (i + 1) count

def stdoutFn (argc : Nat) : FnProg E A Outcome := stdoutFrom 0 argc

def sleepFn : FnProg E A Outcome := do
  match ← evaluate 0 with
  | none => pure null
  | some val =>
      sleep (CString.strtol val).1
      pure (stringValue (some val))

def logicalAndFn : FnProg E A Outcome := do
  match ← evaluate 0 with
  | none => pure null
  | some left =>
      if booleanString left = true then
        return .returned (← evaluateValue 1)
      else pure (stringValue (some left))

def logicalOrFn : FnProg E A Outcome := do
  match ← evaluate 0 with
  | none => pure null
  | some left =>
      if booleanString left = false then
        return .returned (← evaluateValue 1)
      else pure (stringValue (some left))

def logicalNotFn : FnProg E A Outcome := do
  match ← evaluate 0 with
  | none => pure null
  | some val => pure (text (if booleanString val then "" else "t"))

/-- Two strings are compared, the first of which is evaluated first. -/
def compareFn (holds : Bytes → Bytes → Bool) : FnProg E A Outcome := do
  match ← evaluate 0 with
  | none => pure null
  | some left =>
      match ← evaluate 1 with
      | none => pure null
      | some right => pure (text (if holds left right then "t" else ""))

/-- `strstr(haystack, needle)` -/
def substringFn : FnProg E A Outcome :=
  compareFn fun needle haystack => decide (needle <:+: haystack)

/-- `strcmp(left, right) == 0` -/
def equalityFn : FnProg E A Outcome :=
  compareFn fun left right => decide (left = right)

def inequalityFn : FnProg E A Outcome :=
  compareFn fun left right => decide (left ≠ right)

def sequenceFn : FnProg E A Outcome := do
  match ← evaluateValue 0 with
  | none => pure null
  | some _ => return .returned (← evaluateValue 1)

/-- Whether a text is a number to its end, and which. -/
def wholeInt (text : Bytes) : Option Int :=
  let (value, rest) := CString.strtol text
  if text = [] ∨ rest ≠ [] then none else some value

/-- `argv` is the array of arguments it is given. -/
def lessThanIntFn (argc : Nat) (argv : Nat → Nat) : FnProg E A Outcome := do
  if argc ≠ 2 then
    setErrmsg (.ofString "less_than_int expects 2 arguments")
    pure null
  else
    match ← readEach (fun i => evaluate (argv i)) 0 2 with
    | some [left, right] =>
        match wholeInt left, wholeInt right with
        | some l, some r => pure (text (if l < r then "t" else ""))
        | _, _ => pure (text "")
    | _ => pure null

def greaterThanIntFn (argc : Nat) : FnProg E A Outcome := do
  if argc ≠ 2 then
    setErrmsg (.ofString "greater_than_int expects 2 arguments")
    pure null
  else lessThanIntFn 2 fun i => 1 - i

end Edify

end MetaOS
