/-
minzip/Zip.c: `mzExtractRecursive`.

The loop goes over the sorted entries, extracts those that start with the
canonical `zipDir`, and gives up at the first mismatch after a match.  Of the
messages, those that the function itself logs as errors are kept.
-/
import MetaOS.ZipContents

namespace MetaOS

namespace MinZip

def MZ_EXTRACT_FILES_ONLY : Nat := 1
def MZ_EXTRACT_DRY_RUN : Nat := 2

def slash : UInt8 := 47

/-- S_ISLNK of the upper half of the attributes of a Unix entry. -/
def mzIsZipEntrySymlink (entry : ZipEntry) : Bool :=
  entry.versionMadeBy / 256 * 256 = CENVEM_UNIX &&
    decide (entry.externalFileAttributes / 2 ^ 16 % 2 ^ 16 / 2 ^ 12 = 10)

/-- The arguments, with `flags` as a bit pattern; `timestamp` and `callback`
say whether the pointers are there. -/
structure ExtractArgs where
  zipDir : Bytes
  targetDir : Bytes
  flags : Nat
  timestamp : Bool
  callback : Bool
deriving DecidableEq

namespace ExtractArgs

variable (args : ExtractArgs)

def filesOnly : Bool := args.flags &&& MZ_EXTRACT_FILES_ONLY ≠ 0

def dryRun : Bool := args.flags &&& MZ_EXTRACT_DRY_RUN ≠ 0

end ExtractArgs

/-- A slash at the end, unless there is one. -/
def withSlash (dir : Bytes) : Bytes :=
  if dir.getLast? = some slash then dir else dir ++ [slash]

/-- `zpath`: nothing if the entire archive is extracted. -/
def canonicalPath (zipDir : Bytes) : Bytes :=
  if zipDir = [] then [] else withSlash zipDir

/-- `buf` is the part of the buffer that all paths have in common. -/
structure MzPathHelper where
  targetDirLen : Nat
  buf : Option Bytes
  bufLen : Nat
deriving DecidableEq

def MzPathHelper.init (args : ExtractArgs) : MzPathHelper :=
  ⟨args.targetDir.length, none, 0⟩

/-- How an entry has ended: well, with `ok = false`, or with the `ok` of an
inner block set to false, which leaves the one that is returned true. -/
inductive Verdict where
  | fine
  | failed
  | lost
deriving DecidableEq

/-- What surrounds a run: zlib, what lies on the stack behind `readBuf`, what
lies in fresh memory, the byte that precedes the name of an entry in the
directory, and how many calls of `inflate` are followed for an entry. -/
structure Surroundings where
  lib : Decoder
  stack : Bytes
  heap : Bytes
  before : ZipEntry → UInt8
  calls : Nat

section Extraction

variable (env : Surroundings) (args : ExtractArgs)

/-- The path of the target, in a buffer that grows as needed. -/
def targetEntryPath (helper : MzPathHelper) (entry : ZipEntry) :
    ZipProg (Option (Bytes × MzPathHelper)) := do
  let zipDirLen := (canonicalPath args.zipDir).length
  let needLen :=
    helper.targetDirLen + 1 + (entry.fileName.length - zipDirLen) + 1
  let bufLen := if helper.bufLen < needLen then needLen * 2 else helper.bufLen
  let granted ←
    if helper.bufLen < needLen then Prog.perform (Call.allocate bufLen)
    else pure true
  if granted then
    let root := helper.buf.getD (withSlash args.targetDir)
    pure (some (root ++ entry.fileName.drop zipDirLen,
      ⟨root.length, some root, bufLen⟩))
  else pure none

/-- Whether the last byte of the name is a slash.  For an empty name that is
the byte in front of it. -/
def isDirectory (entry : ZipEntry) : Bool :=
  entry.fileName.getLast?.getD (env.before entry) = slash

def logFailure (message : String) : ZipProg Verdict := do
  Prog.perform (Call.logError message)
  pure .failed

def extractDirectory (path : Bytes) : ZipProg Verdict := do
  if args.filesOnly then pure .fine
  else if ← Prog.perform (Call.dirCreateHierarchy path false) then pure .fine
  else logFailure "Can't create containing directory"

/-- `linkTarget`, as `symlink` reads it. -/
def linkTarget (entry : ZipEntry) (copied : Bytes) : Bytes :=
  let buffer := copied ++ env.heap.drop copied.length
  (buffer.take entry.uncompLen.toNat).takeWhile (· ≠ 0)

def extractSymlink (entry : ZipEntry) (path : Bytes) :
    ZipProg (Option Verdict) := do
  if entry.uncompLen = 0 then
    let v ← logFailure "Symlink entry has no target"
    pure (some v)
  else if ← Prog.perform (Call.allocate (entry.uncompLen + 1)) then
    match ← mzReadZipEntry env.stack env.calls env.lib entry
      entry.uncompLen with
    | none => pure none
    | some (ok, copied) =>
        if ok then
          let target := linkTarget env entry copied
          if ← Prog.perform (Call.symlink target path) then
            pure (some .fine)
          else
            let v ← logFailure "Can't symlink"
            pure (some v)
        else
          let v ← logFailure "Can't read symlink target"
          pure (some v)
  else pure (some .failed)

/-- The `ok` of this block hides the one of the function. -/
def extractFile (entry : ZipEntry) (path : Bytes) :
    ZipProg (Option Verdict) := do
  match ← Prog.perform (Call.creat path) with
  | none =>
      let v ← logFailure "Can't create target file"
      pure (some v)
  | some fd =>
      match ← mzExtractZipEntryToFile env.stack env.calls env.lib entry
        fd with
      | none => pure none
      | some ok =>
          Prog.perform (Call.close fd)
          if ok then
            if args.timestamp then
              if ← Prog.perform (Call.utime path) then pure (some .fine)
              else
                Prog.perform (Call.logError "Error touching")
                pure (some .lost)
            else pure (some .fine)
          else
            Prog.perform (Call.logError "Error extracting")
            pure (some .lost)

/-- Create the file or directory. -/
def createEntry (entry : ZipEntry) (path : Bytes) :
    ZipProg (Option Verdict) := do
  if isDirectory env entry then
    let v ← extractDirectory args path
    pure (some v)
  else if ← Prog.perform (Call.dirCreateHierarchy path true) then
    if !args.filesOnly && mzIsZipEntrySymlink entry then
      extractSymlink env entry path
    else extractFile env args entry path
  else
    let v ← logFailure "Can't create containing directory"
    pure (some v)

/-- The part of the loop's body that follows a match. -/
def extractEntry (helper : MzPathHelper) (entry : ZipEntry) :
    ZipProg (Option (Verdict × MzPathHelper)) := do
  match ← targetEntryPath args helper entry with
  | none =>
      let v ← logFailure "Can't assemble target path"
      pure (some (v, helper))
  | some (path, helper) =>
      match ← (if args.dryRun then pure (some .fine)
        else createEntry env args entry path) with
      | none => pure none
      | some .fine =>
          if args.callback then Prog.perform (Call.callback path)
          pure (some (.fine, helper))
      | some v => pure (some (v, helper))

/-- How the loop was left, and the entries it has taken up until then. -/
structure Walk where
  verdict : Verdict
  processed : List ZipEntry
deriving DecidableEq

/-- The loop.  `processed` is not kept by the source. -/
def extractEntries : List ZipEntry → MzPathHelper → (seenMatch : Bool) →
    (processed : List ZipEntry) → ZipProg (Option Walk)
  | [], _, _, processed => pure (some ⟨.fine, processed⟩)
  | entry :: rest, helper, seenMatch, processed => do
      let zpath := canonicalPath args.zipDir
      if entry.fileName.length < zpath.length then
        if seenMatch then pure (some ⟨.fine, processed⟩)
        else extractEntries rest helper seenMatch processed
      else if entry.fileName.take zpath.length ≠ zpath then
        if seenMatch then pure (some ⟨.fine, processed⟩)
        else extractEntries rest helper seenMatch processed
      else
        match ← extractEntry env args helper entry with
        | none => pure none
        | some (.fine, helper) =>
            extractEntries rest helper true (processed ++ [entry])
        | some (v, _) => pure (some ⟨v, processed ++ [entry]⟩)

/-- What stands around the loop, which is a parameter here. -/
def extractWith (loop : MzPathHelper → ZipProg (Option Walk)) :
    ZipProg (Option Bool) := do
  if args.zipDir.head? = some slash then
    Prog.perform (Call.logError "zipDir must be a relative path.")
    pure (some false)
  else if args.targetDir.head? ≠ some slash then
    Prog.perform (Call.logError "targetDir must be an absolute path.")
    pure (some false)
  else if ← Prog.perform (Call.allocate (args.zipDir.length + 2)) then
    match ← loop (MzPathHelper.init args) with
    | none => pure none
    | some walk => pure (some (decide (walk.verdict ≠ .failed)))
  else
    Prog.perform (Call.logError "Can't allocate bytes for zip path")
    pure (some false)

def mzExtractRecursive (archive : ZipArchive) : ZipProg (Option Bool) :=
  extractWith args fun helper =>
    extractEntries env args archive.pEntries helper false []

end Extraction

end MinZip

end MetaOS
