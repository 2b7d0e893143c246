/-
minzip/Zip.c: the two loops that stream the contents of an entry through a
function of the caller, and the functions that are used with them.

`zlib` is a decoder.  The file is read at the position of its descriptor, and
the system answers the calls; the loop around `inflate` is followed for
`calls` calls, and it has no result if it has not come to an end by then.
-/
import MetaOS.MinZip
import MetaOS.StreamDecoder
import MetaOS.ProgramLogic

namespace MetaOS

namespace MinZip

inductive Call where
  | lseekCur
  | lseekSet (offset : Int)
  | read (size : Int)
  | inflateInit
  /-- The function that `mzProcessZipEntryContents` is given. -/
  | processFunction (data : Bytes)
  /-- `memmove` to the place in the caller's buffer. -/
  | memmove (data : Bytes)
  | write (fd : Nat) (data : Bytes)
  | allocate (size : Int)
  | dirCreateHierarchy (path : Bytes) (stripFileName : Bool)
  | creat (path : Bytes)
  | close (fd : Nat)
  | utime (path : Bytes)
  | symlink (target path : Bytes)
  | callback (path : Bytes)
  | logError (message : String)
deriving DecidableEq

/-- What the code looks at in each answer.  A `write` that is interrupted is
tried again; its answer is the first that is not an interruption. -/
abbrev Answer : Call → Type
  | .lseekCur => Int
  | .read _ => Option Bytes
  | .inflateInit | .processFunction _ | .allocate _
  | .dirCreateHierarchy _ _ | .utime _ | .symlink _ _ => Bool
  | .write _ _ | .creat _ => Option Nat
  | .lseekSet _ | .memmove _ | .close _ | .callback _ | .logError _ => Unit

abbrev ZipProg := Prog Call Answer

/-- `sizeof(buf)` of the two loops. -/
def bufSize : Nat := 32 * 1024

/-- A function of the caller, with its cookie. -/
abbrev ProcessFunction (σ : Type) := σ → Bytes → ZipProg (Bool × σ)

section Loops

variable {σ : Type} (process : ProcessFunction σ)

/-- The loop of `processStoredEntry`; `rounds` is large enough. -/
def storedLoop : (rounds bytesLeft : Nat) → σ → ZipProg (Bool × σ)
  | 0, _, cookie => pure (true, cookie)
  | rounds + 1, bytesLeft, cookie => do
      if bytesLeft = 0 then pure (true, cookie)
      else
        let count := min bytesLeft bufSize
        match ← Prog.perform (Call.read count) with
        | none => pure (false, cookie)
        | some data =>
            if data.length ≠ count then pure (false, cookie)
            else
              let (ret, cookie) ← process cookie data
              if ret then storedLoop rounds (bytesLeft - count) cookie
              else pure (false, cookie)

def processStoredEntry (entry : ZipEntry) (cookie : σ) :
    ZipProg (Bool × σ) :=
  storedLoop process (toSize entry.compLen / bufSize + 1)
    (toSize entry.compLen) cookie

variable (lib : Decoder)

/-- `z_stream`: the decoder's state, the input it has not taken, the output
in `procBuf` and the count of all output. -/
structure ZStream where
  state : lib.State
  input : Bytes
  procBuf : Bytes
  totalOut : Nat

def ZStream.init : ZStream lib := ⟨lib.init, [], [], 0⟩

variable {lib} (stack : Bytes)

/-- Read as much as we can.  A read of -1 bytes fails with the number that was
asked for; `avail_in` is then 2^32 - 1, and what lies on the `stack` from
`readBuf` on is taken for input. -/
def refill (z : ZStream lib) (compRemaining : Int) :
    ZipProg (Option (ZStream lib × Int)) := do
  if z.input ≠ [] then pure (some (z, compRemaining))
  else
    let getSize : Int :=
      if bufSize < compRemaining then bufSize else compRemaining
    match ← Prog.perform (Call.read getSize) with
    | none =>
        if getSize = -1 then
          pure (some ({ z with input := stack }, compRemaining - getSize))
        else pure none
    | some data =>
        if (data.length : Int) = getSize then
          pure (some ({ z with input := data }, compRemaining - getSize))
        else pure none

/-- The loop of `processDeflatedEntry`.  The first part of its value is
`result`. -/
def inflateLoop : (calls : Nat) → ZStream lib → (compRemaining : Int) → σ →
    ZipProg (Option (Int × σ))
  | 0, _, _, _ => pure none
  | calls + 1, z, compRemaining, cookie => do
      match ← refill stack z compRemaining with
      | none => pure (some (-1, cookie))
      | some (z, compRemaining) =>
          let step := lib.decompress z.state z.input
            (bufSize - z.procBuf.length)
          let procBuf := z.procBuf ++ step.output
          let totalOut := z.totalOut + step.output.length
          let input := z.input.drop step.taken
          match step.status with
          | .error _ => pure (some (-1, cookie))
          | .ok =>
              if procBuf.length = bufSize then
                let (ret, cookie) ← process cookie procBuf
                if ret then
                  inflateLoop calls ⟨step.next, input, [], totalOut⟩
                    compRemaining cookie
                else pure (some (-1, cookie))
              else
                inflateLoop calls ⟨step.next, input, procBuf, totalOut⟩
                  compRemaining cookie
          | .streamEnd =>
              if procBuf ≠ [] then
                let (ret, cookie) ← process cookie procBuf
                if ret then pure (some (toLong totalOut, cookie))
                else pure (some (-1, cookie))
              else pure (some (toLong totalOut, cookie))

def processDeflatedEntry (calls : Nat) (lib : Decoder) (entry : ZipEntry)
    (cookie : σ) : ZipProg (Option (Bool × σ)) := do
  if ← Prog.perform Call.inflateInit then
    match ← inflateLoop process stack calls (ZStream.init lib) entry.compLen
      cookie with
    | none => pure none
    | some (result, cookie) =>
        pure (some (decide (result = entry.uncompLen), cookie))
  else pure (some (decide (-1 = entry.uncompLen), cookie))

/-- The switch on the compression. -/
def processEntry (calls : Nat) (lib : Decoder) (entry : ZipEntry)
    (cookie : σ) : ZipProg (Option (Bool × σ)) :=
  if entry.compression = STORED then do
    let r ← processStoredEntry process entry cookie
    pure (some r)
  else if entry.compression = DEFLATED then
    processDeflatedEntry process stack calls lib entry cookie
  else pure (some (false, cookie))

def mzProcessZipEntryContents (calls : Nat) (lib : Decoder)
    (entry : ZipEntry) (cookie : σ) : ZipProg (Option (Bool × σ)) := do
  let oldOff ← Prog.perform Call.lseekCur
  Prog.perform (Call.lseekSet entry.offset)
  match ← processEntry process stack calls lib entry cookie with
  | none => pure none
  | some (ret, cookie) =>
      Prog.perform (Call.lseekSet oldOff)
      pure (some (ret, cookie))

end Loops

section Consumers

/-- Any function of the caller. -/
def callerFunction : ProcessFunction Unit := fun cookie data => do
  let ret ← Prog.perform (Call.processFunction data)
  pure (ret, cookie)

/-- The cookie is the rest of `CopyProcessArgs`: what has been copied, and
`bufLen`. -/
def copyProcessFunction : ProcessFunction (Bytes × Int) :=
  fun (copied, bufLen) data =>
    if (data.length : Int) ≤ bufLen then
      pure (true, copied ++ data, bufLen - data.length)
    else pure (false, copied, bufLen)

/-- The loop of `writeProcessFunction`, which ends at once if a `write` gets
nothing done. -/
def writeLoop (fd : Nat) : (rounds : Nat) → Bytes → ZipProg Bool
  | 0, _ => pure false
  | rounds + 1, data => do
      match ← Prog.perform (Call.write fd data) with
      | none => pure false
      | some n =>
          if n = 0 then pure false
          else if n = data.length then pure true
          else if data.length < n then pure false
          else writeLoop fd rounds (data.drop n)

/-- The cookie is the descriptor. -/
def writeProcessFunction : ProcessFunction Nat := fun fd data => do
  let ret ← writeLoop fd (data.length + 1) data
  pure (ret, fd)

/-- The cookie is `bec->len`. -/
def bufferProcessFunction : ProcessFunction Int := fun len data => do
  Prog.perform (Call.memmove data)
  pure (true, len - data.length)

variable (stack : Bytes) (calls : Nat) (lib : Decoder) (entry : ZipEntry)

/-- What has been copied is handed back as well. -/
def mzReadZipEntry (bufLen : Int) : ZipProg (Option (Bool × Bytes)) := do
  match ← mzProcessZipEntryContents copyProcessFunction stack calls lib entry
    ([], bufLen) with
  | none => pure none
  | some (ret, copied, _) => pure (some (ret, copied))

def mzExtractZipEntryToFile (fd : Nat) : ZipProg (Option Bool) := do
  match ← mzProcessZipEntryContents writeProcessFunction stack calls lib entry
    fd with
  | none => pure none
  | some (ret, _) => pure (some ret)

def mzExtractZipEntryToBuffer : ZipProg (Option Bool) := do
  match ← mzProcessZipEntryContents bufferProcessFunction stack calls lib
    entry entry.uncompLen with
  | none => pure none
  | some (ret, len) => pure (some (ret && decide (len = 0)))

end Consumers

end MinZip

end MetaOS
