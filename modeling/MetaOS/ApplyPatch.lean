/-
applypatch.c: loading and saving file contents, and `applypatch` itself.

The patch functions hand their output to a sink piece by piece and feed the
same hash context as they go.  Here they are programs over a single call, the
sink, that return their result and the bytes they have hashed; `applypatch`
runs them on a file or on a buffer in memory.
-/
import MetaOS.CString
import MetaOS.FreeCache
import MetaOS.MtdReader
import MetaOS.MtdWriter
import Mathlib.Data.List.Sort

namespace MetaOS

namespace ApplyPatch

open FileSystem CString

/-- What `file->data` points to. -/
inductive Buffer where
  | null
  | live (bytes : Bytes)
  | freed
deriving DecidableEq

structure FileContents where
  sha1 : Bytes
  data : Buffer
  size : Nat
  st : Stat

def isMtd (filename : Path) : Bool := decide (ascii "MTD:" <+: filename)

def hexDigit (c : UInt8) : Option UInt8 :=
  if 48 ≤ c ∧ c ≤ 57 then some (c - 48)
  else if 97 ≤ c ∧ c ≤ 102 then some (c - 97 + 10)
  else if 65 ≤ c ∧ c ≤ 70 then some (c - 65 + 10)
  else none

/-- The bytes that pairs of digits stand for, and the rest of the text. -/
def parseDigits : (count : Nat) → Bytes → Option (Bytes × Bytes)
  | 0, text => some ([], text)
  | count + 1, high :: low :: text => do
      let high ← hexDigit high
      let low ← hexDigit low
      let (digest, rest) ← parseDigits count text
      return ((high <<< 4 ||| low) :: digest, rest)
  | _ + 1, _ => none

/-- `ParseSha1` takes the digits and then insists on the end of the text. -/
def parseSha1 (text : Bytes) : Option Bytes :=
  match parseDigits 20 text with
  | some (digest, []) => some digest
  | _ => none

def findMatchingPatch (sha1 : Bytes) (patchSha1Str : List Bytes) :
    Option Nat :=
  patchSha1Str.findIdx? fun text => decide (parseSha1 text = some sha1)

/-- `strtol(text, NULL, 10)`, stored in a `size_t`. -/
def strtolSize (text : Bytes) : Nat :=
  let isDigit (c : UInt8) : Bool := 48 ≤ c && c ≤ 57
  let text := text.dropWhile fun c => c == 32 || (9 ≤ c && c ≤ 13)
  let negative := text.head? = some 45
  let text := if negative ∨ text.head? = some 43 then text.tail else text
  let value := (text.takeWhile isDigit).foldl
    (fun value c => 10 * value + (c.toNat - 48)) 0
  if negative then (2 ^ 32 - min value (2 ^ 31)) % 2 ^ 32
  else min value (2 ^ 31 - 1)

def isColon (c : UInt8) : Bool := c == 58

section Load

variable (sha1 : Bytes → Bytes)

/-- The sizes and hashes in the name of a partition.  A hash that `strtok`
does not find is `NULL`; a size that it does not find ends the process. -/
def parsePairs : (pairs : Nat) → (toks : List Bytes) →
    SysProg (Option (List (Nat × Option Bytes)))
  | 0, _ => pure (some [])
  | _ + 1, [] => crash
  | pairs + 1, size :: toks => do
      if strtolSize size = 0 then pure none
      else
        let rest ← parsePairs pairs toks.tail
        pure (rest.map ((strtolSize size, toks.head?) :: ·))

/-- Read on to each size in turn until the hash of all that was read matches.
The result is whether it does, and what was read. -/
def matchPairs (name : Bytes) (part : Mtd.Partition) :
    List (Nat × Option Bytes) → Mtd.ReadContext → (soFar : Bytes) →
    SysProg (Bool × Bytes)
  | [], _, soFar => pure (false, soFar)
  | (size, sha1sum) :: pairs, ctx, soFar => do
      let (read, ctx) ←
        onFlash name (Mtd.mtdReadData part ctx (size - soFar.length))
      match read with
      | none => pure (false, soFar)
      | some data =>
          if data.length ≠ size - soFar.length then pure (false, soFar)
          else
            let soFar := soFar ++ data
            match sha1sum with
            | none => crash
            | some text =>
                match parseSha1 text with
                | none => pure (false, soFar)
                | some parsed =>
                    if sha1 soFar = parsed then pure (true, soFar)
                    else matchPairs name part pairs ctx soFar

def loadMTDContents (file : FileContents) (filename : Path) :
    SysProg (Bool × FileContents) := do
  let toks := tokens isColon filename
  if toks.head? ≠ some (ascii "MTD") then pure (false, file)
  else
    let colons := filename.countP isColon
    match ← parsePairs ((colons - 1) / 2) (toks.drop 2) with
    | none => pure (false, file)
    | some pairs =>
        match toks.tail.head? with
        | none => crash
        | some partition =>
            let pairs := pairs.insertionSort fun a b => a.1 ≤ b.1
            match ← mtdFind partition with
            | none => pure (false, file)
            | some part =>
                match ← onFlash partition (Mtd.mtdReadPartition part) with
                | none => pure (false, file)
                | some ctx =>
                    let (found, soFar) ←
                      matchPairs sha1 partition part pairs ctx []
                    if found then
                      pure (true, ⟨sha1 soFar, .live soFar, soFar.length,
                        ⟨0o644, 0, 0⟩⟩)
                    else pure (false, { file with size := soFar.length })

def loadFileContents (file : FileContents) (filename : Path) :
    SysProg (Bool × FileContents) := do
  let file := { file with data := .null }
  if isMtd filename then loadMTDContents sha1 file filename
  else
    match ← stat filename with
    | none => pure (false, file)
    | some (size, st) =>
        let file := { file with size := size, st := st }
        if ← fopen filename then
          let data ← fread filename size
          if data.length ≠ size then pure (false, file)
          else
            let _ ← close filename
            pure (true, { file with data := .live data, sha1 := sha1 data })
        else pure (false, file)

end Load

/-- The loop of `FileSink`.  Every pass writes a byte at least. -/
def fileSinkLoop (path : Path) : (fuel : Nat) → (data : Bytes) →
    (done : Nat) → SysProg Nat
  | 0, _, done => pure done
  | fuel + 1, data, done => do
      if data = [] then pure done
      else
        let wrote ← write path data
        if wrote ≤ 0 then pure done
        else fileSinkLoop path fuel (data.drop wrote.toNat) (done + wrote.toNat)

def fileSink (path : Path) (data : Bytes) : SysProg Int := do
  let done ← fileSinkLoop path data.length data 0
  pure done

/-- The bytes behind a pointer that may not be valid. -/
def Buffer.read (data : Buffer) (size : Nat) : SysProg Bytes :=
  match data with
  | .live bytes => pure bytes
  | .null | .freed => garbage size

def saveFileContents (filename : Path) (file : FileContents) :
    SysProg Bool := do
  if ← openTrunc filename then
    let bytes ← file.data.read file.size
    let bytesWritten ← fileSink filename bytes
    if bytesWritten ≠ file.size then
      let _ ← close filename
      pure false
    else
      let _ ← fsync filename
      let _ ← close filename
      if ← chmod filename file.st.mode then
        chown filename file.st.uid file.st.gid
      else pure false
  else pure false

/-- The use of the write context in `WriteToMTDPartition`. -/
def writePartition (part : Mtd.Partition) (data : Bytes) :
    Mtd.MtdProg Bool := do
  match ← Mtd.mtdWritePartition with
  | none => pure false
  | some ctx =>
      let (ok, ctx) ← Mtd.mtdWriteData part ctx data
      if ok then
        let (erased, ctx) ← Mtd.mtdEraseBlocks part ctx (-1)
        if erased.isSome then Mtd.mtdWriteClose part ctx
        else
          let _ ← Mtd.mtdWriteClose part ctx
          pure false
      else
        let _ ← Mtd.mtdWriteClose part ctx
        pure false

/-- The text between the first colon and the next. -/
def partitionOf (targetMtd : Path) : Bytes :=
  ((targetMtd.dropWhile (!isColon ·)).drop 1).takeWhile (!isColon ·)

def writeToMTDPartition (data : Bytes) (targetMtd : Path) :
    SysProg Bool := do
  if targetMtd.any isColon then
    let partition := partitionOf targetMtd
    match ← mtdFind partition with
    | none => pure false
    | some part => onFlash partition (writePartition part data)
  else pure false

inductive ValueType where
  | string
  | blob
deriving DecidableEq

structure Value where
  type : ValueType
  data : Bytes
deriving DecidableEq

/-- A patch function: calls of the sink, then the result and the bytes fed to
the hash context. -/
abbrev PatchProg := Prog Bytes (fun _ => Int) (Int × Bytes)

structure PatchFunctions where
  applyBSDiffPatch : (oldData patch : Bytes) → PatchProg
  applyImagePatch : (oldData patch : Bytes) → PatchProg

/-- `MemorySink` on a buffer of `size` bytes that is filled up to its
position. -/
def memorySink (size : Nat) (data buffer : Bytes) : Int × Bytes :=
  if size - buffer.length < data.length then (-1, buffer)
  else (data.length, buffer ++ data)

/-- The arguments of `applypatch`. -/
structure Args where
  sourceFilename : Path
  targetFilename : Path
  targetSha1Str : Bytes
  targetSize : Nat
  patchSha1Str : List Bytes
  patchData : List (Option Value)

/-- `-` means the same as the source. -/
def Args.target (args : Args) : Path :=
  if args.targetFilename = ascii "-" then args.sourceFilename
  else args.targetFilename

/-- The file the output goes to before it replaces the target. -/
def Args.outname (args : Args) : Path := args.target ++ ascii ".patch"

/-- The top-level directory of the target. -/
def Args.targetFs (args : Args) : Path :=
  args.target.take 1 ++ (args.target.drop 1).takeWhile (· ≠ 47)

/-- The source as it was loaded, and the data and patch to use: those of the
source or those of the saved copy. -/
structure Selection where
  sourceFile : FileContents
  fromSource : Bool
  toUse : FileContents
  patch : Value

inductive Output where
  | file
  | memory (buffer : Bytes)

/-- How a pass of the loop ends. -/
inductive Outcome where
  | exit (code : Int)
  | again (madeCopy : Bool)
  | patched (output : Output) (fed : Bytes) (madeCopy : Bool)

section ApplyPatch

variable (sha1 : Bytes → Bytes) (patchers : PatchFunctions) (args : Args)

/-- `patch_data[to_use]`, which may be `NULL`. -/
def Args.patchFor (digest : Bytes) : Option Value :=
  match findMatchingPatch digest args.patchSha1Str with
  | none => none
  | some toUse => (args.patchData[toUse]?).join

/-- Load the source, unless it is the target and that was loaded. -/
def loadSource (sourceFile : FileContents) : SysProg FileContents := do
  if sourceFile.data = .null ∨ args.target ≠ args.sourceFilename then
    let (_, sourceFile) ← loadFileContents sha1 sourceFile args.sourceFilename
    pure sourceFile
  else pure sourceFile

/-- The source, or else the saved copy. -/
def selectSource (sourceFile : FileContents) : SysProg (Option Selection) := do
  let sourcePatchValue :=
    if sourceFile.data = .null then none else args.patchFor sourceFile.sha1
  match sourcePatchValue with
  | some patch => pure (some ⟨sourceFile, true, sourceFile, patch⟩)
  | none =>
      let sourceFile := { sourceFile with
        data := if sourceFile.data = .null then .null else .freed }
      let (size, st) ← uninitialised
      let (loaded, copyFile) ← loadFileContents sha1 ⟨[], .null, size, st⟩
        CACHE_TEMP_SOURCE
      if loaded then
        match args.patchFor copyFile.sha1 with
        | some patch => pure (some ⟨sourceFile, false, copyFile, patch⟩)
        | none => pure none
      else pure none

/-- Keep a copy of the source on `/cache`. -/
def backUp (sourceFile : FileContents) : SysProg Bool := do
  if ← makeFreeSpaceOnCache sourceFile.size then
    saveFileContents CACHE_TEMP_SOURCE sourceFile
  else pure false

/-- 256k (two-block) minimum, and a 50% margin of error. -/
def Args.Fits (freeSpace : Nat) : Prop :=
  256 * 2 ^ 10 < freeSpace ∧ args.targetSize * 3 % 2 ^ 32 / 2 < freeSpace

instance (freeSpace : Nat) : Decidable (args.Fits freeSpace) :=
  inferInstanceAs (Decidable (_ ∧ _))

/-- The space is only looked at while there is a retry left. -/
def enoughSpace (retry : Nat) : SysProg Bool := do
  if 0 < retry then
    let freeSpace ← freeSpaceForFile args.targetFs
    pure (decide (args.Fits freeSpace))
  else pure false

/-- Is there enough room to hold the patched file?  The result is the new
value of `retry` and of `made_copy`. -/
def prepare (sel : Selection) (retry : Nat) (madeCopy : Bool) :
    SysProg (Option (Nat × Bool)) := do
  if isMtd args.target then
    if ← backUp sel.sourceFile then pure (some (0, true)) else pure none
  else
    if ← enoughSpace args retry then pure (some (retry, madeCopy))
    else if sel.fromSource then
      if isMtd args.sourceFilename then pure none
      else if ← backUp sel.sourceFile then
        let _ ← unlink args.sourceFilename
        let _ ← freeSpaceForFile args.targetFs
        pure (some (0, true))
      else pure none
    else pure (some (0, madeCopy))

/-- The patch function that the header asks for. -/
def patchProgram (oldData patch : Bytes) : Option PatchProg :=
  if ascii "BSDIFF40" <+: patch then
    some (patchers.applyBSDiffPatch oldData patch)
  else if ascii "IMGDIFF2" <+: patch then
    some (patchers.applyImagePatch oldData patch)
  else none

theorem patchProgram_cases {patchers : PatchFunctions} {oldData patch : Bytes}
    {prog : PatchProg}
    (hprog : patchProgram patchers oldData patch = some prog) :
    prog = patchers.applyBSDiffPatch oldData patch ∨
      prog = patchers.applyImagePatch oldData patch := by
  unfold patchProgram at hprog
  split at hprog
  · exact .inl (Option.some.inj hprog).symm
  · split at hprog
    · exact .inr (Option.some.inj hprog).symm
    · cases hprog

/-- Run the patch function on a file, or on a buffer in memory. -/
def runPatch (oldData patch : Bytes) :
    SysProg (Option (Int × Bytes × Output)) := do
  if isMtd args.target then
    if ← malloc args.targetSize then
      match patchProgram patchers oldData patch with
      | none => pure none
      | some prog =>
          let ((result, fed), buffer) :=
            prog.eval (memorySink args.targetSize) []
          pure (some (result, fed, .memory buffer))
    else pure none
  else if ← openTrunc args.outname then
    match patchProgram patchers oldData patch with
    | none => pure none
    | some prog =>
        let (result, fed) ← prog.hoist (fileSink args.outname)
        let _ ← fsync args.outname
        let _ ← close args.outname
        pure (some (result, fed, .file))
  else pure none

/-- One pass of the loop. -/
def attempt (sel : Selection) (retry : Nat) (madeCopy : Bool) :
    SysProg Outcome := do
  match ← prepare args sel retry madeCopy with
  | none => pure (.exit 1)
  | some (retry, madeCopy) =>
      if sel.patch.type ≠ .blob then pure (.exit 1)
      else
        match sel.toUse.data with
        | .null | .freed => crash
        | .live oldData =>
            match ← runPatch patchers args oldData sel.patch.data with
            | none => pure (.exit 1)
            | some (result, fed, output) =>
                if result = 0 then pure (.patched output fed madeCopy)
                else if retry = 0 then pure (.exit 1)
                else
                  if !isMtd args.target then
                    let _ ← unlink args.outname
                  pure (.again madeCopy)

/-- `do … while (retry-- > 0)` -/
def patchLoop (sel : Selection) : (retry : Nat) → (madeCopy : Bool) →
    SysProg Outcome
  | 0, madeCopy => attempt patchers args sel 0 madeCopy
  | retry + 1, madeCopy => do
      match ← attempt patchers args sel (retry + 1) madeCopy with
      | .again madeCopy => patchLoop sel retry madeCopy
      | outcome => pure outcome

/-- Put the output in the place of the target. -/
def replaceTarget (st : Stat) : Output → SysProg Bool
  | .memory buffer => writeToMTDPartition buffer args.target
  | .file => do
      if ← chmod args.outname st.mode then
        if ← chown args.outname st.uid st.gid then
          rename args.outname args.target
        else pure false
      else pure false

def commit (targetSha1 : Bytes) (sel : Selection) : Outcome → SysProg Int
  | .exit code => pure code
  | .again _ => pure 1
  | .patched output fed madeCopy => do
      if sha1 fed ≠ targetSha1 then pure 1
      else if ← replaceTarget args sel.toUse.st output then
        if madeCopy then
          let _ ← unlink CACHE_TEMP_SOURCE
        pure 0
      else pure 1

def applypatch : SysProg Int := do
  match parseSha1 args.targetSha1Str with
  | none => pure 1
  | some targetSha1 =>
      let (size, st) ← uninitialised
      let (loaded, sourceFile) ←
        loadFileContents sha1 ⟨[], .null, size, st⟩ args.target
      if loaded ∧ sourceFile.sha1 = targetSha1 then pure 0
      else
        let sourceFile ← loadSource sha1 args sourceFile
        match ← selectSource sha1 args sourceFile with
        | none => pure 1
        | some sel =>
            let outcome ← patchLoop patchers args sel 1 false
            commit sha1 args targetSha1 sel outcome

end ApplyPatch

end ApplyPatch

end MetaOS
