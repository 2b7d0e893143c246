/-
install.c: the key file parser and the control flow of `install_package` up
to the execution of the package's update binary.  A run is recorded as the
list of its security-relevant events, so that "only after verification" is a
statement about the order of that list.
-/
import MetaOS.Verifier

namespace MetaOS

namespace InstallPackage

open Verifier MinZip

def isSpace (c : UInt8) : Bool := c == 32 || (9 ≤ c && c ≤ 13)

def skipSpace (text : Bytes) : Bytes := text.dropWhile isSpace

/-- A literal character of a format. -/
def scanChar (c : Char) : Bytes → Option Bytes
  | [] => none
  | b :: rest => if b.toNat = c.toNat then some rest else none

def digitValue (b : UInt8) : Nat :=
  if 48 ≤ b.toNat ∧ b.toNat ≤ 57 then b.toNat - 48
  else if 97 ≤ b.toNat ∧ b.toNat ≤ 102 then b.toNat - 87
  else if 65 ≤ b.toNat ∧ b.toNat ≤ 70 then b.toNat - 55
  else 16

/-- The digits at the head of a text: their number, their value and the
rest. -/
def scanDigits (base : Nat) : Bytes → (count acc : Nat) → Nat × Nat × Bytes
  | [], count, acc => (count, acc, [])
  | b :: rest, count, acc =>
      if digitValue b < base then
        scanDigits base rest (count + 1) (acc * base + digitValue b)
      else (count, acc, b :: rest)

def scanSign : Bytes → Bool × Bytes
  | [] => (false, [])
  | b :: rest =>
      if b.toNat = 45 then (true, rest)
      else if b.toNat = 43 then (false, rest)
      else (false, b :: rest)

/-- Drop a `0x` that is followed by a hexadecimal digit. -/
def dropHexPrefix : Bytes → Option Bytes
  | 48 :: x :: d :: rest =>
      if (x.toNat = 120 ∨ x.toNat = 88) ∧ digitValue d < 16 then
        some (d :: rest)
      else none
  | _ => none

/-- The 32 bits that `%u` and `%x` store of what `strtouq` finds. -/
def storeWord (negative : Bool) (value : Nat) : Nat :=
  if 2 ^ 64 ≤ value then 2 ^ 32 - 1
  else if negative then (2 ^ 64 - value) % 2 ^ 32
  else value % 2 ^ 32

/-- The 32 bits that `%i` stores of what `strtoq` finds, the nearest of 64
bits. -/
def storeInt (negative : Bool) (value : Nat) : Nat :=
  if negative then (2 ^ 64 - min value (2 ^ 63)) % 2 ^ 32
  else min value (2 ^ 63 - 1) % 2 ^ 32

def scanNumber (store : Bool → Nat → Nat) (base : Nat) (negative : Bool)
    (text : Bytes) : Option (Nat × Bytes) :=
  match scanDigits base text 0 0 with
  | (0, _, _) => none
  | (_, value, rest) => some (store negative value, rest)

/-- `%u` -/
def scanU (text : Bytes) : Option (Nat × Bytes) :=
  let (negative, digits) := scanSign (skipSpace text)
  scanNumber storeWord 10 negative digits

/-- `%x` -/
def scanX (text : Bytes) : Option (Nat × Bytes) :=
  let (negative, digits) := scanSign (skipSpace text)
  scanNumber storeWord 16 negative ((dropHexPrefix digits).getD digits)

/-- `%i` takes its base from the prefix of the number. -/
def scanI (text : Bytes) : Option (Int × Bytes) :=
  let (negative, digits) := scanSign (skipSpace text)
  let number :=
    match dropHexPrefix digits with
    | some rest => scanNumber storeInt 16 negative rest
    | none =>
        if digits.head? = some 48 then scanNumber storeInt 8 negative digits
        else scanNumber storeInt 10 negative digits
  number.map fun (word, rest) => (toLong word, rest)

/-- `" , %u"`, as often as the loop asks for it. -/
def scanWords : Nat → Bytes → Option (List Nat × Bytes)
  | 0, text => some ([], text)
  | count + 1, text => do
      let text ← scanChar ',' (skipSpace text)
      let (word, text) ← scanU text
      let (words, text) ← scanWords count text
      return (word :: words, text)

/-- `" } } "`, whose result the source ignores: it consumes what matches. -/
def scanClose (text : Bytes) : Bytes :=
  let text := skipSpace text
  match scanChar '}' text with
  | none => text
  | some text =>
      let text := skipSpace text
      match scanChar '}' text with
      | none => text
      | some text => skipSpace text

def scanKey (text : Bytes) : Option (RSAPublicKey × Bytes) := do
  let text ← scanChar '{' (skipSpace text)
  let (len, text) ← scanI text
  let text ← scanChar ',' (skipSpace text)
  let text ← scanChar '0' (skipSpace text)
  let text ← scanChar 'x' text
  let (n0inv, text) ← scanX text
  let text ← scanChar ',' (skipSpace text)
  let text ← scanChar '{' (skipSpace text)
  let (firstN, text) ← scanU text
  if len ≠ RSANUMWORDS then none
  else
    let (restN, text) ← scanWords (RSANUMWORDS - 1) text
    let text ← scanChar '}' (skipSpace text)
    let text ← scanChar ',' (skipSpace text)
    let text ← scanChar '{' (skipSpace text)
    let (firstR, text) ← scanU text
    let (restR, text) ← scanWords (RSANUMWORDS - 1) text
    return (⟨len, n0inv, firstN :: restN, firstR :: restR⟩, scanClose text)

/-- The loop over the keys of the file.  Each key takes at least one byte, so
`fuel` is the length of the text. -/
def loadKeysFrom : (fuel : Nat) → Bytes → Option (List RSAPublicKey)
  | 0, _ => none
  | fuel + 1, text =>
      match scanKey text with
      | none => none
      | some (key, []) => some [key]
      | some (key, b :: rest) =>
          if b.toNat = 44 then
            (loadKeysFrom fuel rest).map fun keys => key :: keys
          else none

/-- `none` is the `NULL` that stands for a file that cannot be opened, does
not parse or holds no key. -/
def loadKeys (file : Option Bytes) : Option (List RSAPublicKey) :=
  match file with
  | none => none
  | some text => loadKeysFrom (text.length + 1) text

/-- Name and mount point of the roots; a root without a mount point holds no
files. -/
def gRoots : List (String × Option String) :=
  [("BOOT:", none), ("CACHE:", some "/cache"), ("DATA:", some "/data"),
    ("MISC:", none), ("PACKAGE:", none), ("RECOVERY:", some "/"),
    ("SDCARD:", some "/sdcard"), ("SYSTEM:", some "/system"),
    ("MBM:", none), ("TMP:", some "/tmp"), ("RECOVERYSYS:", some "/system")]

def getRootInfoForPath (rootPath : String) : Option (String × Option String) :=
  let name := rootPath.toList.takeWhile (· ≠ ':')
  if name.length = rootPath.toList.length then none
  else gRoots.find? fun info => info.1.toList = name ++ [':']

def translateRootPath (rootPath : String) (outBufLen : Nat) :
    Option String := do
  let (name, mountPoint) ← getRootInfoForPath rootPath
  let mountPoint ← mountPoint
  let relative := (rootPath.toList.drop name.length).dropWhile (· = '/')
  if outBufLen < mountPoint.length + 1 + relative.length + 1 then none
  else if mountPoint.toList.getLast? = some '/' then
    return mountPoint ++ String.ofList relative
  else return mountPoint ++ "/" ++ String.ofList relative

inductive InstallEvent where
  | verifyFile (path : String) (pKeys : List RSAPublicKey)
      (result : VerifyResult)
  | handleUpdatePackage (path : String)
  | execUpdateBinary (binary : Bytes)
deriving DecidableEq

def INSTALL_SUCCESS : Int := 0
def INSTALL_ERROR : Int := 1
def INSTALL_CORRUPT : Int := 2

/-- `META-INF/com/google/android/update-binary` -/
def ASSUMED_UPDATE_BINARY_NAME : Bytes :=
  "META-INF/com/google/android/update-binary".toList.map
    fun c => UInt8.ofNat c.toNat

/-- Everything outside `install_package` that a run depends on: the argument,
the files it reads and the outcomes of its calls.  `package` is the content
and the address of the mapping, if the file could be opened and mapped. -/
structure InstallEnv where
  rootPath : String
  mounted : Bool
  keysFile : Option Bytes
  package : Option MemMapping
  creat : Bool
  writeBinary : Bool
  fork : Bool
  execv : Bool
  childExited : Bool
  childStatus : Int

/-- The contents `mzExtractZipEntryToFile` writes, if it succeeds. -/
def entryContents (inflate : Bytes → Option (Bytes × Nat)) (file : Bytes)
    (entry : ZipEntry) : Option Bytes :=
  let start := if 0 ≤ entry.offset then entry.offset.toNat else 0
  let data := file.window start (toSize entry.compLen)
  if data.length ≠ toSize entry.compLen then none
  else if entry.compression = STORED then some data
  else if entry.compression = DEFLATED then
    match inflate data with
    | none => none
    | some (contents, _) =>
        if (contents.length : Int) = entry.uncompLen then some contents
        else none
  else none

section Install

variable (inflate : Bytes → Option (Bytes × Nat))

def tryUpdateBinary (env : InstallEnv) (file : Bytes) (zip : ZipArchive) :
    List InstallEvent × Int :=
  match mzFindZipEntry zip ASSUMED_UPDATE_BINARY_NAME with
  | none => ([], INSTALL_CORRUPT)
  | some entry =>
      if !env.creat then ([], 1)
      else
        match entryContents inflate file entry with
        | none => ([], 1)
        | some binary =>
            if !env.writeBinary then ([], 1)
            else
              let events := if env.fork && env.execv then
                [InstallEvent.execUpdateBinary binary] else []
              if !env.childExited || env.childStatus ≠ 0 then
                (events, INSTALL_ERROR)
              else (events, INSTALL_SUCCESS)

def handleUpdatePackage (env : InstallEnv) (path : String) (file : Bytes)
    (zip : ZipArchive) : List InstallEvent × Int :=
  let (events, result) := tryUpdateBinary inflate env file zip
  (.handleUpdatePackage path :: events, result)

def PATH_MAX : Nat := 4096

def installPackage (env : InstallEnv) : List InstallEvent × Int :=
  if !env.mounted then ([], INSTALL_CORRUPT)
  else
    match translateRootPath env.rootPath PATH_MAX with
    | none => ([], INSTALL_CORRUPT)
    | some path =>
        match loadKeys env.keysFile with
        | none => ([], INSTALL_CORRUPT)
        | some _loadedKeys =>
            -- The call of `verify_file` is commented out in the source; the
            -- result it would have given is replaced by a constant.
            let err := VerifyResult.success
            if err ≠ .success then ([], INSTALL_CORRUPT)
            else
              match env.package with
              | none => ([], INSTALL_CORRUPT)
              | some map =>
                  match mzOpenZipArchive (some map) with
                  | none => ([], INSTALL_CORRUPT)
                  | some zip =>
                      handleUpdatePackage inflate env path map.file zip

/-- The update package is only handled after `verify_file`, on the same path
and with the keys of the key file, has returned success. -/
def SignedOnly (env : InstallEnv) : Prop :=
  ∀ path, .handleUpdatePackage path ∈ (installPackage inflate env).1 →
    ∃ pKeys, loadKeys env.keysFile = some pKeys ∧
      [.verifyFile path pKeys .success, .handleUpdatePackage path].Sublist
        (installPackage inflate env).1

/-- The update binary of a package that matches none of the loaded keys is
never executed. -/
def UnsignedNeverRuns (sha1 : Bytes → Bytes)
    (rsaVerify : RSAPublicKey → Bytes → Bytes → Bool) (io : VerifyIo)
    (env : InstallEnv) : Prop :=
  ∀ map pKeys, env.package = some map → loadKeys env.keysFile = some pKeys →
    verifyFile sha1 rsaVerify io map.file pKeys = .failure →
    ∀ binary, .execUpdateBinary binary ∉ (installPackage inflate env).1

/-- The run ends before the package is handled: the root cannot be mounted,
the path does not translate, no key loads or the package is not an archive
minzip can open. -/
def StopsBeforeHandling (env : InstallEnv) : Prop :=
  env.mounted = false ∨ translateRootPath env.rootPath PATH_MAX = none ∨
    loadKeys env.keysFile = none ∨ mzOpenZipArchive env.package = none

theorem tryUpdateBinary_events (env : InstallEnv) (file : Bytes)
    (zip : ZipArchive) :
    ∀ event ∈ (tryUpdateBinary inflate env file zip).1,
      ∃ binary, event = .execUpdateBinary binary := by
  intro event hevent
  unfold tryUpdateBinary at hevent
  split at hevent
  · simp at hevent
  · split at hevent
    · simp at hevent
    · split at hevent
      · simp at hevent
      · rename_i binary _
        split at hevent
        · simp at hevent
        · refine ⟨binary, ?_⟩
          split at hevent <;> split at hevent <;> simp_all

theorem installPackage_of_stops {env : InstallEnv}
    (hstops : StopsBeforeHandling env) :
    (installPackage inflate env).1 = [] := by
  unfold installPackage
  split
  · rfl
  · rename_i hmounted
    cases hpath : translateRootPath env.rootPath PATH_MAX with
    | none => rfl
    | some path =>
        cases hkeys : loadKeys env.keysFile with
        | none => rfl
        | some pKeys =>
            have hopen : mzOpenZipArchive env.package = none := by
              rcases hstops with h | h | h | h
              · simp [h] at hmounted
              · simp [hpath] at h
              · simp [hkeys] at h
              · exact h
            cases hpackage : env.package with
            | none => rfl
            | some map =>
                rw [hpackage] at hopen
                simp [hopen]

/-- A run that does not stop handles the package, and no verification precedes
it. -/
theorem installPackage_of_not_stops {env : InstallEnv}
    (hruns : ¬ StopsBeforeHandling env) :
    ∃ path rest, (installPackage inflate env).1 =
        .handleUpdatePackage path :: rest ∧
      ∀ event ∈ rest, ∃ binary, event = .execUpdateBinary binary := by
  simp only [StopsBeforeHandling, not_or, Bool.not_eq_false] at hruns
  obtain ⟨hmounted, hpath, hkeys, hopen⟩ := hruns
  obtain ⟨path, hpath⟩ := Option.ne_none_iff_exists'.mp hpath
  obtain ⟨pKeys, hkeys⟩ := Option.ne_none_iff_exists'.mp hkeys
  cases hpackage : env.package with
  | none => simp [hpackage, mzOpenZipArchive] at hopen
  | some map =>
      rw [hpackage] at hopen
      obtain ⟨zip, hopen⟩ := Option.ne_none_iff_exists'.mp hopen
      refine ⟨path, (tryUpdateBinary inflate env map.file zip).1, ?_,
        tryUpdateBinary_events inflate env map.file zip⟩
      simp [installPackage, hmounted, hpath, hkeys, hpackage, hopen,
        handleUpdatePackage]

/-- No package is handled under verification: installation is confined to
signed packages exactly in the runs that stop before they handle one. -/
theorem signedOnly_iff_stops (sha1 : Bytes → Bytes)
    (rsaVerify : RSAPublicKey → Bytes → Bytes → Bool) (io : VerifyIo)
    (env : InstallEnv) :
    SignedOnly inflate env ∧
        UnsignedNeverRuns inflate sha1 rsaVerify io env ↔
      StopsBeforeHandling env := by
  constructor
  · rintro ⟨hsigned, -⟩
    by_contra hruns
    obtain ⟨path, rest, hevents, hrest⟩ :=
      installPackage_of_not_stops inflate hruns
    obtain ⟨pKeys, -, hsublist⟩ := hsigned path (by simp [hevents])
    have hverified : .verifyFile path pKeys .success ∈
        (installPackage inflate env).1 := hsublist.subset (by simp)
    rw [hevents, List.mem_cons] at hverified
    rcases hverified with hhead | htail
    · simp at hhead
    · obtain ⟨binary, hbinary⟩ := hrest _ htail
      simp at hbinary
  · intro hstops
    have hnone := installPackage_of_stops inflate hstops
    constructor
    · intro path hpath
      simp [hnone] at hpath
    · intro map pKeys _ _ _ binary hbinary
      simp [hnone] at hbinary

end Install

namespace InstallWitness

def ascii (text : String) : Bytes :=
  text.toList.map fun c => UInt8.ofNat c.toNat

/-- A key file with one key of the documented form. -/
def keyText : Bytes :=
  let words := ascii "1" ++ (List.replicate 63 (ascii ",1")).flatten
  ascii "\x7b64,0x1,\x7b" ++ words ++ ascii "\x7d,\x7b" ++ words ++
    ascii "\x7d\x7d"

/-- The content of the update binary. -/
def payload : Bytes := ascii "#!"

/-- An archive with the update binary as its one stored entry, with no
comment and so with no signature. -/
def unsignedPackage : Bytes :=
  let name := ASSUMED_UPDATE_BINARY_NAME
  let size := Bytes.ofLeNat 4 payload.length
  Bytes.ofLeNat 4 LOCSIG ++ List.replicate 14 0 ++ size ++ size ++
    Bytes.ofLeNat 2 name.length ++ [0, 0] ++ name ++ payload ++
    Bytes.ofLeNat 4 CENSIG ++ List.replicate 16 0 ++ size ++ size ++
    Bytes.ofLeNat 2 name.length ++ List.replicate 16 0 ++ name ++
    Bytes.ofLeNat 4 ENDSIG ++ [0, 0, 0, 0, 1, 0, 1, 0] ++
    Bytes.ofLeNat 4 (CENHDR + name.length) ++
    Bytes.ofLeNat 4 (LOCHDR + name.length + payload.length) ++ [0, 0]

/-- The entry minzip finds in it. -/
def binaryEntry : ZipEntry where
  fileName := ASSUMED_UPDATE_BINARY_NAME
  offset := LOCHDR + ASSUMED_UPDATE_BINARY_NAME.length
  compLen := payload.length
  uncompLen := payload.length
  compression := STORED
  modTime := 0
  crc32 := 0
  versionMadeBy := 0
  externalFileAttributes := 0

/-- The package lies on the SD card; every call succeeds. -/
def unsignedEnv : InstallEnv where
  rootPath := "SDCARD:update.zip"
  mounted := true
  keysFile := some keyText
  package := some ⟨0x40000000, unsignedPackage⟩
  creat := true
  writeBinary := true
  fork := true
  execv := true
  childExited := true
  childStatus := 0

def quietIo : VerifyIo where
  fopen := true
  seekFooter := true
  readFooter := true
  seekEocd := true
  mallocEocd := true
  readEocd := true
  mallocBuffer := true
  readBody := fun _ => true
  below := []

/-- The archive has no signature footer, so whatever the hash and the
signature scheme are, `verify_file` would reject it; its update binary is
executed. -/
theorem unsignedPackage_runs :
    verifyStructure unsignedPackage = none ∧
    ∀ (inflate : Bytes → Option (Bytes × Nat)) (sha1 : Bytes → Bytes)
      (rsaVerify : RSAPublicKey → Bytes → Bytes → Bool),
      (∀ pKeys, verifyFile sha1 rsaVerify quietIo unsignedPackage pKeys =
        .failure) ∧
      .execUpdateBinary payload ∈ (installPackage inflate unsignedEnv).1 ∧
      ¬ SignedOnly inflate unsignedEnv ∧
      ¬ UnsignedNeverRuns inflate sha1 rsaVerify quietIo unsignedEnv := by
  have hstructure : verifyStructure unsignedPackage = none := by
    decide +kernel
  refine ⟨hstructure, fun inflate sha1 rsaVerify => ?_⟩
  have hverify : ∀ pKeys, verifyFile sha1 rsaVerify quietIo unsignedPackage
      pKeys = .failure := by
    intro pKeys
    simp [verifyFile, quietIo, hstructure]
  obtain ⟨keys, hkeys⟩ : ∃ keys, loadKeys (some keyText) = some keys :=
    Option.isSome_iff_exists.mp (by decide +kernel)
  have hpath : translateRootPath "SDCARD:update.zip" PATH_MAX =
      some "/sdcard/update.zip" := by decide +kernel
  have hopen : mzOpenZipArchive (some ⟨0x40000000, unsignedPackage⟩) =
      some ⟨[binaryEntry], [binaryEntry]⟩ := by decide +kernel
  have hfind : mzFindZipEntry ⟨[binaryEntry], [binaryEntry]⟩
      ASSUMED_UPDATE_BINARY_NAME = some binaryEntry := by decide +kernel
  have hwindow : unsignedPackage.window binaryEntry.offset.toNat
      (toSize binaryEntry.compLen) = payload := by decide +kernel
  have hcontents : entryContents inflate unsignedPackage binaryEntry =
      some payload := by
    have hpos : (0 : Int) ≤ binaryEntry.offset := by decide +kernel
    have hlength : payload.length = toSize binaryEntry.compLen := by
      decide +kernel
    have hstored : binaryEntry.compression = STORED := rfl
    simp [entryContents, hpos, hwindow, hlength, hstored]
  have hevents : (installPackage inflate unsignedEnv).1 =
      [.handleUpdatePackage "/sdcard/update.zip",
        .execUpdateBinary payload] := by
    simp [installPackage, unsignedEnv, hpath, hkeys, hopen,
      handleUpdatePackage, tryUpdateBinary, hfind, hcontents]
  refine ⟨hverify, by simp [hevents], ?_, ?_⟩
  · intro hsigned
    obtain ⟨found, -, hsublist⟩ :=
      hsigned "/sdcard/update.zip" (by simp [hevents])
    have hverified := hsublist.subset List.mem_cons_self
    simp [hevents] at hverified
  · intro hnever
    exact hnever _ keys rfl hkeys (hverify keys) payload
      (by simp [hevents])

end InstallWitness

end InstallPackage

end MetaOS
