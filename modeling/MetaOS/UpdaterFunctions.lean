/-
bootable/recovery/updater/install.c: the functions that update scripts call.

What a function does to files, to flash, to the screen and to other processes
is a call outside the language.  All of them are meant to read their arguments
first and to return a null pointer, without any such call, as soon as one
argument is null.
-/
import MetaOS.ApplyPatch
import MetaOS.EdifyFunctions
import Mathlib.Data.List.DropRight

namespace MetaOS

namespace Updater

open Edify CString

/-- Calls outside the language.  Opening a file for reading is answered with
the pieces that `fread` will deliver. -/
inductive Outside where
  | mkdir (path : Bytes)
  | mtdScanPartitions
  | mtdFindPartitionByName (name : Bytes)
  | mtdMountPartition (name mountPoint : Bytes)
  | mount (location mountPoint type : Bytes)
  | scanMountedVolumes
  | findMountedVolumeByMountPoint (mountPoint : Bytes)
  | unmountMountedVolume (mountPoint : Bytes)
  | mtdWritePartition (name : Bytes)
  | mtdWriteData (data : Bytes)
  | mtdEraseBlocks (blocks : Int)
  | mtdWriteClose
  | unlink (path : Bytes)
  | dirUnlinkHierarchy (path : Bytes)
  | progress (frac : Bytes) (sec : Int)
  | setProgress (frac : Bytes)
  | cmdPipe (line : Bytes)
  | mzExtractRecursive (zipPath destPath : Bytes)
  | mzFindZipEntry (zipPath : Bytes)
  | mzExtractZipEntryToFile (zipPath : Bytes)
  | mzExtractZipEntryToBuffer (zipPath : Bytes)
  | fopenWrite (path : Bytes)
  | fopenRead (path : Bytes)
  | fclose
  | stat (path : Bytes)
  | strerror
  | symlink (target src : Bytes)
  | chown (path : Bytes) (uid gid : Nat)
  | chmod (path : Bytes) (mode : Nat)
  | dirSetHierarchyPermissions (path : Bytes)
      (uid gid dirMode fileMode : Nat)
  | propertyGet (key : Bytes)
  | printf (line : Bytes)
  | cacheSizeCheck (bytes : Nat)
  | applypatch (source target targetSha1 : Bytes) (targetSize : Nat)
      (patchSha1s : List Bytes) (patches : List Value)
  | applypatchCheck (filename : Bytes) (sha1s : Option (List Bytes))
  | forkAndWait (args : List Bytes)
  | loadFileContents (filename : Bytes)
  | missingArgument

/-- Whether a call succeeds, unless there is more to its answer. -/
def Outside.Answer : Outside → Type
  | .mkdir _ | .mtdScanPartitions | .scanMountedVolumes | .fclose
  | .unmountMountedVolume _ | .progress _ _ | .setProgress _ | .cmdPipe _
  | .symlink _ _ | .chown _ _ _ | .chmod _ _ | .printf _
  | .dirSetHierarchyPermissions _ _ _ _ _ => Unit
  | .mtdFindPartitionByName _ | .mtdMountPartition _ _ | .mount _ _ _
  | .findMountedVolumeByMountPoint _ | .mtdWritePartition _
  | .mtdWriteData _ | .mtdEraseBlocks _ | .mtdWriteClose | .unlink _
  | .dirUnlinkHierarchy _ | .mzExtractRecursive _ _ | .mzFindZipEntry _
  | .mzExtractZipEntryToFile _ | .fopenWrite _ | .cacheSizeCheck _
  | .applypatch _ _ _ _ _ _ => Bool
  | .applypatchCheck _ _ => Option Bool
  | .mzExtractZipEntryToBuffer _ | .loadFileContents _ => Option Bytes
  | .fopenRead _ => Option (List Bytes)
  | .stat _ => Option Nat
  | .strerror | .propertyGet _ => Bytes
  | .forkAndWait _ | .missingArgument => Int

/-- What a function does once it has its arguments. -/
inductive Act where
  | errmsg (text : Bytes)
  | outside (e : Outside)

def Act.Answer : Act → Type
  | .errmsg _ => Unit
  | .outside e => e.Answer

abbrev Action := Prog Act Act.Answer

abbrev Body := FnProg Outside Outside.Answer

def Act.perform : (c : Act) → Body c.Answer
  | .errmsg text => setErrmsg text
  | .outside e => Prog.perform (Call.outside e)

/-- An action as part of a function. -/
def act {α : Type} (action : Action α) : Body α := action.hoist Act.perform

instance : MonadLift Action Body := ⟨act⟩

def ask (e : Outside) : Action e.Answer := Prog.perform (Act.outside e)

/-- A question about success. -/
def succeeds (e : Outside) (h : e.Answer = Bool) : Action Bool := do
  return h.mp (← ask e)

def errorAbort (message : Bytes) : Action Outcome := do
  let _ ← Prog.perform (Act.errmsg (abortMessage message))
  pure null

def quoted (s : Bytes) : Bytes := .ofString "\"" ++ s ++ .ofString "\""

/-- A function of a fixed number of strings. -/
def takesArgs (name : Bytes) (argc count : Nat) (expected : String)
    (body : List Bytes → Action Outcome) : Body Outcome := do
  if argc ≠ count then
    errorAbort (name ++ .ofString "() expects " ++ .ofString expected ++
      .ofString ", got " ++ decimal argc)
  else
    match ← readArgs count with
    | none => pure null
    | some args => body args

def emptyArgument (what : String) (name : Bytes) : Action Outcome :=
  errorAbort (.ofString what ++ .ofString " argument to " ++ name ++
    .ofString "() can't be empty")

def mountFn (name : Bytes) (argc : Nat) : Body Outcome :=
  takesArgs name argc 3 "3 args" fun
    | [type, location, mountPoint] => do
        if type = [] then emptyArgument "type" name
        else if location = [] then emptyArgument "location" name
        else if mountPoint = [] then emptyArgument "mount_point" name
        else
          let _ ← ask (.mkdir mountPoint)
          if type = .ofString "MTD" then
            let _ ← ask .mtdScanPartitions
            if ← succeeds (.mtdFindPartitionByName location) rfl then
              if ← succeeds (.mtdMountPartition location mountPoint) rfl then
                pure (stringValue (some mountPoint))
              else pure (text "")
            else pure (text "")
          else if ← succeeds (.mount location mountPoint type) rfl then
            pure (stringValue (some mountPoint))
          else pure (text "")
    | _ => pure null

def isMountedFn (name : Bytes) (argc : Nat) : Body Outcome :=
  takesArgs name argc 1 "1 arg" fun
    | [mountPoint] => do
        if mountPoint = [] then
          emptyArgument "mount_point" (.ofString "unmount")
        else
          let _ ← ask .scanMountedVolumes
          if ← succeeds (.findMountedVolumeByMountPoint mountPoint) rfl then
            pure (stringValue (some mountPoint))
          else pure (text "")
    | _ => pure null

def unmountFn (name : Bytes) (argc : Nat) : Body Outcome :=
  takesArgs name argc 1 "1 arg" fun
    | [mountPoint] => do
        if mountPoint = [] then
          emptyArgument "mount_point" (.ofString "unmount")
        else
          let _ ← ask .scanMountedVolumes
          if ← succeeds (.findMountedVolumeByMountPoint mountPoint) rfl then
            let _ ← ask (.unmountMountedVolume mountPoint)
            pure (stringValue (some mountPoint))
          else pure (text "")
    | _ => pure null

def formatFn (name : Bytes) (argc : Nat) : Body Outcome :=
  takesArgs name argc 2 "2 args" fun
    | [type, location] => do
        if type = [] then emptyArgument "type" name
        else if location = [] then emptyArgument "location" name
        else if type = .ofString "MTD" then
          let _ ← ask .mtdScanPartitions
          if ← succeeds (.mtdFindPartitionByName location) rfl then
            if ← succeeds (.mtdWritePartition location) rfl then
              if ← succeeds (.mtdEraseBlocks (-1)) rfl then
                if ← succeeds .mtdWriteClose rfl then
                  pure (stringValue (some location))
                else pure (text "")
              else
                let _ ← ask .mtdWriteClose
                pure (text "")
            else pure (text "")
          else pure (text "")
        else pure null
    | _ => pure null

/-- The paths up to the first that is null, whose position is the error. -/
def readPaths : (i count : Nat) → Body (Except Nat (List Bytes))
  | _, 0 => pure (.ok [])
  | i, count + 1 => do
      match ← evaluate i with
      | none => pure (.error i)
      | some path =>
          let rest ← readPaths (i + 1) count
          pure (rest.map (path :: ·))

/-- How many of the paths are removed. -/
def deletePaths (recursive : Bool) : List Bytes → Action Nat
  | [] => pure 0
  | path :: paths => do
      let success ←
        if recursive then succeeds (.dirUnlinkHierarchy path) rfl
        else succeeds (.unlink path) rfl
      let rest ← deletePaths recursive paths
      pure (if success then rest + 1 else rest)

/-- The loop that frees the paths read so far counts `i` and not `j`, so it
frees the first path again and again. -/
def deleteFn (name : Bytes) (argc : Nat) : Body Outcome := do
  match ← readPaths 0 argc with
  | .error 0 => pure null
  | .error (_ + 1) => pure .undefined
  | .ok paths =>
      let success ← deletePaths
        (decide (name = .ofString "delete_recursive")) paths
      pure (stringValue (some (decimal success)))

def showProgressFn (name : Bytes) (argc : Nat) : Body Outcome :=
  takesArgs name argc 2 "2 args" fun
    | [fracStr, secStr] => do
        let _ ← ask (.progress fracStr (strtol secStr).1)
        pure (stringValue (some fracStr))
    | _ => pure null

def setProgressFn (name : Bytes) (argc : Nat) : Body Outcome :=
  takesArgs name argc 1 "1 arg" fun
    | [fracStr] => do
        let _ ← ask (.setProgress fracStr)
        pure (stringValue (some fracStr))
    | _ => pure null

def packageExtractDirFn (name : Bytes) (argc : Nat) : Body Outcome :=
  takesArgs name argc 2 "2 args" fun
    | [zipPath, destPath] => do
        let success ← succeeds (.mzExtractRecursive zipPath destPath) rfl
        pure (text (if success then "t" else ""))
    | _ => pure null

def extractToFile (zipPath destPath : Bytes) : Action Outcome := do
  if ← succeeds (.mzFindZipEntry zipPath) rfl then
    if ← succeeds (.fopenWrite destPath) rfl then
      let success ← succeeds (.mzExtractZipEntryToFile zipPath) rfl
      let _ ← ask .fclose
      pure (text (if success then "t" else ""))
    else pure (text "")
  else pure (text "")

def extractToBuffer (zipPath : Bytes) : Action Outcome := do
  if ← succeeds (.mzFindZipEntry zipPath) rfl then
    let data ← ask (.mzExtractZipEntryToBuffer zipPath)
    pure (.returned (some (.blob data)))
  else pure (.returned (some (.blob none)))

def packageExtractFileFn (name : Bytes) (argc : Nat) : Body Outcome := do
  if argc ≠ 1 ∧ argc ≠ 2 then
    errorAbort (name ++ .ofString "() expects 1 or 2 args, got " ++
      decimal argc)
  else
    match ← readArgs argc with
    | some [zipPath, destPath] => extractToFile zipPath destPath
    | some [zipPath] => extractToBuffer zipPath
    | _ => pure null

def linkEach (target : Bytes) : List Bytes → Action Outcome
  | [] => pure (text "")
  | src :: srcs => do
      let _ ← ask (.unlink src)
      let _ ← ask (.symlink target src)
      linkEach target srcs

def symlinkFn (name : Bytes) (argc : Nat) : Body Outcome := do
  if argc = 0 then
    errorAbort (name ++ .ofString "() expects 1+ args, got " ++ decimal argc)
  else
    match ← evaluate 0 with
    | none => pure null
    | some target =>
        match ← readVarArgs 1 (argc - 1) with
        | none => pure null
        | some srcs => linkEach target srcs

/-- A number that takes up all of a text. -/
def wholeUnsigned (text : Bytes) : Option Nat :=
  let (value, rest) := strtoul text
  if rest ≠ [] ∨ text = [] then none else some value

def invalidNumber (name arg : Bytes) (what : String) : Action Outcome :=
  errorAbort (name ++ .ofString ": " ++ quoted arg ++
    .ofString " not a valid " ++ .ofString what)

def permEach (uid gid mode : Nat) : List Bytes → Action Outcome
  | [] => pure (text "")
  | path :: paths => do
      let _ ← ask (.chown path uid gid)
      let _ ← ask (.chmod path mode)
      permEach uid gid mode paths

def permHierarchies (uid gid dirMode fileMode : Nat) :
    List Bytes → Action Outcome
  | [] => pure (text "")
  | path :: paths => do
      let _ ← ask (.dirSetHierarchyPermissions path uid gid dirMode fileMode)
      permHierarchies uid gid dirMode fileMode paths

def setPerm (name : Bytes) (recursive : Bool) : List Bytes → Action Outcome
  | uidText :: gidText :: modeText :: rest =>
      match wholeUnsigned uidText with
      | none => invalidNumber name uidText "uid"
      | some uid =>
          match wholeUnsigned gidText with
          | none => invalidNumber name gidText "gid"
          | some gid =>
              if recursive then
                match wholeUnsigned modeText, rest with
                | none, _ => invalidNumber name modeText "dirmode"
                | some dirMode, fileText :: paths =>
                    match wholeUnsigned fileText with
                    | none => invalidNumber name fileText "filemode"
                    | some fileMode =>
                        permHierarchies uid gid dirMode fileMode paths
                | some _, [] => pure .undefined
              else
                match wholeUnsigned modeText with
                | none => invalidNumber name modeText "mode"
                | some mode => permEach uid gid mode rest
  | _ => pure .undefined

/-- The message on too few arguments is printed from one number less than its
format has. -/
def setPermFn (name : Bytes) (argc : Nat) : Body Outcome := do
  let recursive := decide (name = .ofString "set_perm_recursive")
  if argc < 4 + (if recursive then 1 else 0) then
    let (missing : Int) ← ask .missingArgument
    errorAbort (name ++ .ofString "() expects " ++ decimal argc ++
      .ofString "+ args, got " ++ decimal missing)
  else
    match ← readVarArgs 0 argc with
    | none => pure null
    | some args => setPerm name recursive args

def getProp (key : Bytes) : Action Outcome := do
  let (value : Bytes) ← ask (.propertyGet key)
  pure (stringValue (some value))

def getPropFn (name : Bytes) (argc : Nat) : Body Outcome := do
  if argc ≠ 1 then
    errorAbort (name ++ .ofString "() expects 1 arg, got " ++ decimal argc)
  else
    match ← evaluate 0 with
    | none => pure null
    | some key => getProp key

def MAX_FILE_GETPROP_SIZE : Nat := 65536

def trimEnd (text : Bytes) : Bytes := text.rdropWhile isSpace

/-- One line of a property file: nothing, a key and its value, or a line that
is not of this form. -/
def propLine (line : Bytes) : Except Bytes (Option (Bytes × Bytes)) :=
  match line.dropWhile isSpace with
  | [] => .ok none
  | 35 :: _ => .ok none
  | line =>
      if 61 ∈ line then
        let value := (line.dropWhile (· != 61)).tail
        .ok (some (trimEnd (line.takeWhile (· != 61)),
          trimEnd (value.dropWhile isSpace)))
      else .error line

/-- The value of the first line with the key. -/
def findProp (key : Bytes) : List Bytes → Except Bytes Bytes
  | [] => .ok []
  | line :: lines =>
      match propLine line with
      | .error malformed => .error malformed
      | .ok none => findProp key lines
      | .ok (some (found, value)) =>
          if key = found then .ok value else findProp key lines

/-- The loop runs once before it looks whether there is a line. -/
def fileGetProp (name filename key buffer : Bytes) : Action Outcome :=
  match tokens (· == 10) (cstr buffer) with
  | [] => pure .undefined
  | lines =>
      match findProp key lines with
      | .ok value => pure (stringValue (some value))
      | .error line =>
          errorAbort (name ++ .ofString ": malformed line " ++ quoted line ++
            .ofString ": " ++ filename ++ .ofString " not a prop file?")

def readPropFile (name filename key : Bytes) : Action Outcome := do
  match ← ask (.stat filename) with
  | none =>
      let (error : Bytes) ← ask .strerror
      errorAbort (name ++ .ofString ": failed to stat " ++ quoted filename ++
        .ofString ": " ++ error)
  | some size =>
      if MAX_FILE_GETPROP_SIZE < size then
        errorAbort (filename ++ .ofString " too large for " ++ name ++
          .ofString " (max " ++ decimal MAX_FILE_GETPROP_SIZE ++
          .ofString ")")
      else
        match ← ask (.fopenRead filename) with
        | none =>
            let (error : Bytes) ← ask .strerror
            errorAbort (name ++ .ofString ": failed to open " ++ filename ++
              .ofString ": " ++ error)
        | some pieces =>
            let buffer := (List.flatten pieces).take size
            let _ ← ask .fclose
            if buffer.length ≠ size then
              errorAbort (name ++ .ofString ": failed to read " ++
                decimal (size + 1) ++ .ofString " bytes from " ++ filename)
            else fileGetProp name filename key buffer

def fileGetPropFn (name : Bytes) : Body Outcome := do
  match ← readArgs 2 with
  | some [filename, key] => readPropFile name filename key
  | _ => pure null

/-- Whether all pieces could be written. -/
def writePieces : List Bytes → Action Bool
  | [] => pure true
  | piece :: pieces => do
      if ← succeeds (.mtdWriteData piece) rfl then writePieces pieces
      else pure false

def writeRawImage (name filename partition : Bytes) : Action Outcome := do
  if partition = [] then
    errorAbort (.ofString "partition argument to " ++ name ++
      .ofString " can't be empty")
  else if filename = [] then
    errorAbort (.ofString "file argument to " ++ name ++
      .ofString " can't be empty")
  else
    let _ ← ask .mtdScanPartitions
    if ← succeeds (.mtdFindPartitionByName partition) rfl then
      if ← succeeds (.mtdWritePartition partition) rfl then
        match ← ask (.fopenRead filename) with
        | none => pure (text "")
        | some pieces =>
            let success ← writePieces pieces
            let _ ← ask .fclose
            let _ ← ask (.mtdEraseBlocks (-1))
            let _ ← ask .mtdWriteClose
            let _ ← ask (.printf ((if success then .ofString "wrote "
              else .ofString "failed to write ") ++ partition ++
                .ofString " partition from " ++ filename))
            pure (if success then stringValue (some partition) else text "")
      else pure (text "")
    else pure (text "")

def writeRawImageFn (name : Bytes) : Body Outcome := do
  match ← readArgs 2 with
  | some [filename, partition] => writeRawImage name filename partition
  | _ => pure null

/-- A count of bytes, in a `size_t`; no digits are no count. -/
def byteCount (text : Bytes) : Option Nat :=
  let (value, rest) := strtol text
  if value = 0 ∧ rest = text then none else some (value % 2 ^ 32).toNat

def applyPatchSpace (name bytesStr : Bytes) : Action Outcome := do
  match byteCount bytesStr with
  | none =>
      errorAbort (name ++ .ofString "(): can't parse " ++ quoted bytesStr ++
        .ofString " as byte count\n\n")
  | some bytes =>
      let enough ← succeeds (.cacheSizeCheck bytes) rfl
      pure (text (if enough then "t" else ""))

def applyPatchSpaceFn (name : Bytes) : Body Outcome := do
  match ← readArgs 1 with
  | some [bytesStr] => applyPatchSpace name bytesStr
  | _ => pure null

/-- The hashes and patches that the values are, or the message on the first
that is of another type. -/
def patchPairs (name : Bytes) : (i : Nat) → List Value →
    Except Bytes (List Bytes × List Value)
  | i, .string sha1 :: .blob patch :: rest => do
      let (sha1s, patches) ← patchPairs name (i + 1) rest
      return (sha1 :: sha1s, .blob patch :: patches)
  | i, .string _ :: .string _ :: _ =>
      .error (name ++ .ofString "(): patch #" ++ decimal i ++
        .ofString " is not blob")
  | i, .blob _ :: _ =>
      .error (name ++ .ofString "(): sha-1 #" ++ decimal i ++
        .ofString " is not string")
  | _, _ => .ok ([], [])

def applyPatch (name source target targetSha1 : Bytes) (targetSize : Nat)
    (values : List Value) : Action Outcome := do
  match patchPairs name 0 values with
  | .error message => errorAbort message
  | .ok (sha1s, patches) =>
      let success ← succeeds
        (.applypatch source target targetSha1 targetSize sha1s patches) rfl
      pure (text (if success then "t" else ""))

/-- The hashes and patches are looked at even if they could not be read. -/
def applyPatchFn (name : Bytes) (argc : Nat) : Body Outcome := do
  if argc < 6 ∨ argc % 2 = 1 then
    errorAbort (name ++ .ofString
      "(): expected at least 6 args and an even number, got " ++ decimal argc)
  else
    match ← readArgs 4 with
    | some [source, target, targetSha1, targetSizeStr] =>
        match byteCount targetSizeStr with
        | none =>
            errorAbort (name ++ .ofString "(): can't parse " ++
              quoted targetSizeStr ++ .ofString " as byte count")
        | some targetSize =>
            match ← readValueVarArgs 4 (argc - 4) with
            | none => pure .undefined
            | some values =>
                applyPatch name source target targetSha1 targetSize values
    | _ => pure null

/-- The hashes are freed even if they could not be read. -/
def applyPatchCheckFn (name : Bytes) (argc : Nat) : Body Outcome := do
  if argc < 1 then
    errorAbort (name ++ .ofString "(): expected at least 1 arg, got " ++
      decimal argc)
  else
    match ← readArgs 1 with
    | some [filename] =>
        let sha1s ← readVarArgs 1 (argc - 1)
        match ← ask (.applypatchCheck filename sha1s) with
        | none => pure .undefined
        | some found =>
            if sha1s = none then pure .undefined
            else pure (text (if found then "t" else ""))
    | _ => pure null

def printLines : List Bytes → Action Unit
  | [] => do
      let _ ← ask (.cmdPipe (.ofString "ui_print\n"))
      pure ()
  | line :: lines => do
      let _ ← ask (.cmdPipe
        (.ofString "ui_print " ++ line ++ .ofString "\n"))
      printLines lines

/-- The value is what `strtok` leaves of the text. -/
def uiPrint (buffer : Bytes) : Action Outcome := do
  let (lines, buffer) := strtokMany (· == 10) (buffer.length + 1) buffer 0
  printLines lines
  pure (stringValue (some (cstr buffer)))

def uiPrintFn (argc : Nat) : Body Outcome := do
  match ← readVarArgs 0 argc with
  | none => pure null
  | some args => uiPrint args.flatten

def runProgram (args : List Bytes) : Action Outcome := do
  let (status : Int) ← ask (.forkAndWait args)
  pure (stringValue (some (decimal status)))

def runProgramFn (name : Bytes) (argc : Nat) : Body Outcome := do
  if argc < 1 then
    errorAbort (name ++ .ofString "() expects at least 1 arg")
  else
    match ← readVarArgs 0 argc with
    | none => pure null
    | some args => runProgram args

def hexNibble (n : Nat) : UInt8 :=
  if n < 10 then UInt8.ofNat (48 + n) else UInt8.ofNat (87 + n)

def printSha1 (digest : Bytes) : Bytes :=
  digest.flatMap fun b => [hexNibble (b.toNat / 16), hexNibble (b.toNat % 16)]

/-- The first of the values that is the digest in hexadecimal. -/
def matchingSha1 (digest : Bytes) (values : List Value) : Option Value :=
  values.find? fun
    | .string text => decide (ApplyPatch.parseSha1 text = some digest)
    | .blob _ => false

def Value.contents : Value → Option Bytes
  | .string data => some data
  | .blob data => data

def sha1Check (digest : Bytes) (values : List Value) : Outcome :=
  match values with
  | [] => stringValue (some (printSha1 digest))
  | values =>
      match matchingSha1 digest values with
      | none => text ""
      | some value => .returned (some value)

def sha1CheckFn (sha1 : Bytes → Bytes) (name : Bytes) (argc : Nat) :
    Body Outcome := do
  if argc < 1 then
    errorAbort (name ++ .ofString "() expects at least 1 arg")
  else
    match ← readValueVarArgs 0 argc with
    | some (file :: values) =>
        match Value.contents file with
        | none => pure (text "")
        | some data => pure (sha1Check (sha1 data) values)
    | _ => pure null

def readFileFn (name : Bytes) (argc : Nat) : Body Outcome :=
  takesArgs name argc 1 "1 arg" fun
    | [filename] => do
        match ← ask (.loadFileContents filename) with
        | none =>
            let (error : Bytes) ← ask .strerror
            errorAbort (name ++ .ofString "() loading " ++ quoted filename ++
              .ofString " failed: " ++ error)
        | some data => pure (.returned (some (.blob (some data))))
    | _ => pure null

/-- The functions of install.c. -/
inductive InstallFn where
  | MountFn
  | IsMountedFn
  | UnmountFn
  | FormatFn
  | ShowProgressFn
  | SetProgressFn
  | DeleteFn
  | PackageExtractDirFn
  | PackageExtractFileFn
  | SymlinkFn
  | SetPermFn
  | GetPropFn
  | FileGetPropFn
  | WriteRawImageFn
  | ApplyPatchFn
  | ApplyPatchCheckFn
  | ApplyPatchSpaceFn
  | ReadFileFn
  | Sha1CheckFn
  | UIPrintFn
  | RunProgramFn
deriving DecidableEq

def InstallFn.body (sha1 : Bytes → Bytes) (name : Bytes) (argc : Nat) :
    InstallFn → Body Outcome
  | MountFn => mountFn name argc
  | IsMountedFn => isMountedFn name argc
  | UnmountFn => unmountFn name argc
  | FormatFn => formatFn name argc
  | ShowProgressFn => showProgressFn name argc
  | SetProgressFn => setProgressFn name argc
  | DeleteFn => deleteFn name argc
  | PackageExtractDirFn => packageExtractDirFn name argc
  | PackageExtractFileFn => packageExtractFileFn name argc
  | SymlinkFn => symlinkFn name argc
  | SetPermFn => setPermFn name argc
  | GetPropFn => getPropFn name argc
  | FileGetPropFn => fileGetPropFn name
  | WriteRawImageFn => writeRawImageFn name
  | ApplyPatchFn => applyPatchFn name argc
  | ApplyPatchCheckFn => applyPatchCheckFn name argc
  | ApplyPatchSpaceFn => applyPatchSpaceFn name
  | ReadFileFn => readFileFn name argc
  | Sha1CheckFn => sha1CheckFn sha1 name argc
  | UIPrintFn => uiPrintFn argc
  | RunProgramFn => runProgramFn name argc

/-- `RegisterInstallFunctions` -/
def installFunctions : List (String × InstallFn) :=
  [("mount", .MountFn), ("is_mounted", .IsMountedFn),
    ("unmount", .UnmountFn), ("format", .FormatFn),
    ("show_progress", .ShowProgressFn), ("set_progress", .SetProgressFn),
    ("delete", .DeleteFn), ("delete_recursive", .DeleteFn),
    ("package_extract_dir", .PackageExtractDirFn),
    ("package_extract_file", .PackageExtractFileFn),
    ("symlink", .SymlinkFn), ("set_perm", .SetPermFn),
    ("set_perm_recursive", .SetPermFn), ("getprop", .GetPropFn),
    ("file_getprop", .FileGetPropFn), ("write_raw_image", .WriteRawImageFn),
    ("apply_patch", .ApplyPatchFn),
    ("apply_patch_check", .ApplyPatchCheckFn),
    ("apply_patch_space", .ApplyPatchSpaceFn), ("read_file", .ReadFileFn),
    ("sha1_check", .Sha1CheckFn), ("ui_print", .UIPrintFn),
    ("run_program", .RunProgramFn)]

end Updater

end MetaOS
