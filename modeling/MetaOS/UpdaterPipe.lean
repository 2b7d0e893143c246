/-
The pipe from the updater to recovery: updater/install.c and updater.c write
the commands, install.c reads them back and ui.c performs them.

A command is a line of text.  Floating point numbers and the functions that
read and print them are parameters.  What C leaves undefined (a null pointer
that is read, a conversion without its argument) has no result here.
-/
import MetaOS.UpdaterArguments

namespace MetaOS

namespace CommandPipe

open Edify CString

/-- Floating point numbers.  A number is printed without blanks, in at most a
sign, 309 digits, a point and six digits more. -/
structure Libc where
  Double : Type
  Float : Type
  strtod : Bytes → Double
  strtof : Bytes → Float
  narrow : Double → Float
  /-- `fraction * (1-VERIFICATION_PROGRESS_FRACTION)` -/
  updateFraction : Float → Float
  /-- `%f` -/
  printF : Double → Bytes
  printF_ne_nil (x : Double) : printF x ≠ []
  printF_length (x : Double) : (printF x).length ≤ 317
  printF_mem {x : Double} {c : UInt8} (hc : c ∈ printF x) :
    c ≠ 32 ∧ c ≠ 10 ∧ c ≠ 0

/-- What reaches the screen: characters, one after the other, and changes of
the progress bar. -/
inductive Shown (Float : Type) where
  | put (c : UInt8)
  | showProgress (portion : Float) (seconds : Int)
  | setProgress (fraction : Float)
  deriving DecidableEq

section Recovery

/-- `ui_print(fmt)`: the text is cut to the 256 bytes of its buffer. -/
def uiPrint {Float : Type} (fmt : Bytes) : Option (List (Shown Float)) :=
  (printed fmt).map fun text => (text.take 255).map .put

/-- `LOGE("unknown command [%s]\n", command)` -/
def unknownCommand {Float : Type} (command : Bytes) : List (Shown Float) :=
  ((Bytes.ofString "E:unknown command [" ++ command ++
    Bytes.ofString "]\n").take 255).map .put

def isBlank (c : UInt8) : Bool := c == 32 || c == 10

/-- What is done for a line in the buffer. -/
def performCommand (libc : Libc) (line : Bytes) :
    Option (List (Shown libc.Float)) :=
  match strtok isBlank (line ++ [0]) 0 with
  | none => some []
  | some (command, buffer, pos) =>
      if command = .ofString "progress" then do
        let (fractionS, buffer, pos) ← strtok isBlank buffer pos
        let (secondsS, _, _) ← strtok isBlank buffer pos
        return [.showProgress (libc.updateFraction (libc.strtof fractionS))
          (strtol secondsS).1]
      else if command = .ofString "set_progress" then do
        let (fractionS, _, _) ← strtok isBlank buffer pos
        return [.setProgress (libc.strtof fractionS)]
      else if command = .ofString "ui_print" then
        match strtok (· == 10) buffer pos with
        | some (str, _, _) => uiPrint str
        | none => uiPrint [10]
      else some (unknownCommand command)

def readCommands (libc : Libc) : (fuel : Nat) → Bytes →
    Option (List (Shown libc.Float))
  | 0, _ => some []
  | fuel + 1, fromChild =>
      match fgets 1024 fromChild with
      | none => some []
      | some (buffer, fromChild) => do
          let first ← performCommand libc buffer
          let later ← readCommands libc fuel fromChild
          return first ++ later

/-- The loop of `try_update_binary`, on all that is written to the pipe. -/
def tryUpdateBinary (libc : Libc) (pipe : Bytes) :
    Option (List (Shown libc.Float)) :=
  readCommands libc pipe.length pipe

end Recovery

section Updater

/-- A string of a script. -/
abbrev Text := {text : Bytes // (0 : UInt8) ∉ text}

/-- A call with arguments that the function accepts. -/
inductive UiCall where
  | uiPrint (args : List Text)
  | showProgress (frac sec : Text)
  | setProgress (frac : Text)

def UiCall.args : UiCall → List Text
  | uiPrint args => args
  | showProgress frac sec => [frac, sec]
  | setProgress frac => [frac]

def UiCall.body : UiCall → Updater.Body Outcome
  | uiPrint args => Updater.uiPrintFn args.length
  | showProgress _ _ => Updater.showProgressFn (.ofString "show_progress") 2
  | setProgress _ => Updater.setProgressFn (.ofString "set_progress") 1

/-- The lines of the two progress functions. -/
def progressLine (libc : Libc) (fracStr : Bytes) (sec : Int) : Bytes :=
  .ofString "progress " ++ libc.printF (libc.strtod fracStr) ++
    .ofString " " ++ decimal sec ++ .ofString "\n"

def setProgressLine (libc : Libc) (fracStr : Bytes) : Bytes :=
  .ofString "set_progress " ++ libc.printF (libc.strtod fracStr) ++
    .ofString "\n"

/-- The state is what has been written to the pipe so far.  All other calls
outside are as they are in some setting. -/
def onPipe (libc : Libc) (g : Updater.Setting Bytes) (args : List Text) :
    Updater.Setting Bytes :=
  { g with
    value := fun i => args[i]?.map fun text => .string text.1
    outside := fun
      | .cmdPipe line, pipe => ((), pipe ++ line)
      | .progress fracStr sec, pipe =>
          ((), pipe ++ progressLine libc fracStr sec)
      | .setProgress fracStr, pipe =>
          ((), pipe ++ setProgressLine libc fracStr)
      | e, pipe => g.outside e pipe }

/-- How the script ends: with a result, or aborted with a message if there is
one. -/
inductive Ending where
  | result
  | aborted (errmsg : Option Text)

/-- What `main` writes to the pipe at the end. -/
def Ending.report : Ending → Updater.Action Unit
  | result => pure ()
  | aborted none => do
      let _ ← Updater.ask (.cmdPipe
        (.ofString "ui_print script aborted (no error message)\n"))
      pure ()
  | aborted (some errmsg) =>
      Updater.printLines
        (strtokMany (· == 10) (errmsg.1.length + 1) errmsg.1 0).1

/-- The calls of a script that write to the pipe. -/
structure Session where
  calls : List UiCall
  ending : Ending

variable (libc : Libc) (g : Updater.Setting Bytes)

def UiCall.write (call : UiCall) (pipe : Bytes) : Bytes :=
  (call.body.eval (onPipe libc g call.args).handler pipe).2

def Ending.write (ending : Ending) (pipe : Bytes) : Bytes :=
  ((Updater.act ending.report).eval (onPipe libc g []).handler pipe).2

def Session.pipe (session : Session) : Bytes :=
  session.ending.write libc g
    (session.calls.foldl (fun pipe call => call.write libc g pipe) [])

end Updater

section Meaning

variable (libc : Libc)

/-- A text and the end of its last line. -/
def shownText {Float : Type} (text : Bytes) : List (Shown Float) :=
  (text ++ [10]).map .put

/-- The texts of a call, put together. -/
def joined (args : List Text) : Bytes := (args.map Subtype.val).flatten

def UiCall.meaning : UiCall → List (Shown libc.Float)
  | uiPrint args => shownText (joined args)
  | showProgress frac sec =>
      [.showProgress (libc.updateFraction (libc.narrow (libc.strtod frac.1)))
        (strtol sec.1).1]
  | setProgress frac => [.setProgress (libc.narrow (libc.strtod frac.1))]

def Ending.meaning {Float : Type} : Ending → List (Shown Float)
  | result => []
  | aborted none =>
      (Bytes.ofString "script aborted (no error message)").map .put
  | aborted (some errmsg) => shownText errmsg.1

def Session.meaning (session : Session) : List (Shown libc.Float) :=
  session.calls.flatMap (UiCall.meaning libc) ++ session.ending.meaning

/-- A single line that fits in the buffer of `ui_print` and is its own
format. -/
def Printable (text : Bytes) : Prop :=
  text.length ≤ 255 ∧ (10 : UInt8) ∉ text ∧ (37 : UInt8) ∉ text

/-- Six decimals are enough to tell the number. -/
def UiCall.Kept : UiCall → Prop
  | uiPrint args => Printable (joined args)
  | showProgress frac _ =>
      libc.updateFraction (libc.strtof (libc.printF (libc.strtod frac.1))) =
        libc.updateFraction (libc.narrow (libc.strtod frac.1))
  | setProgress frac =>
      libc.strtof (libc.printF (libc.strtod frac.1)) =
        libc.narrow (libc.strtod frac.1)

def Ending.Kept : Ending → Prop
  | result | aborted none => True
  | aborted (some errmsg) => Printable errmsg.1

def Session.Kept (session : Session) : Prop :=
  (∀ call ∈ session.calls, call.Kept libc) ∧ session.ending.Kept

end Meaning

end CommandPipe

end MetaOS
