/-
minzip/Zip.c: parsing the central directory of a mapped archive.  `long` and
`size_t` are 32 bits wide, as on the device.  Offsets are relative to the
start of the mapping; `addr` is the address it was mapped at.
-/
import MetaOS.ByteString

namespace MetaOS

namespace MinZip

def CENSIG : Nat := 0x02014b50
def CENHDR : Nat := 46
def CENVEM : Nat := 4
def CENHOW : Nat := 10
def CENTIM : Nat := 12
def CENCRC : Nat := 16
def CENSIZ : Nat := 20
def CENLEN : Nat := 24
def CENNAM : Nat := 28
def CENEXT : Nat := 30
def CENCOM : Nat := 32
def CENATX : Nat := 38
def CENOFF : Nat := 42
def ENDSIG : Nat := 0x06054b50
def ENDHDR : Nat := 22
def ENDSUB : Nat := 8
def ENDOFF : Nat := 16
def LOCSIG : Nat := 0x04034b50
def LOCHDR : Nat := 30
def LOCNAM : Nat := 26
def LOCEXT : Nat := 28
def STORED : Nat := 0
def DEFLATED : Nat := 8
def CENVEM_UNIX : Nat := 3 * 256
def PATH_MAX : Nat := 4096

def get2LE (file : Bytes) (off : Nat) : Nat := file.leAt off 2

def get4LE (file : Bytes) (off : Nat) : Nat := file.leAt off 4

/-- A 32-bit pattern read as a signed `long`. -/
def toLong (n : Nat) : Int :=
  if n % 2 ^ 32 < 2 ^ 31 then (n % 2 ^ 32 : Nat)
  else ((n % 2 ^ 32 : Nat) : Int) - 2 ^ 32

/-- A `long` or `int` used where a `size_t` is expected. -/
def toSize (i : Int) : Nat := (i % 2 ^ 32).toNat

/-- `safe_add` on two `long`s. -/
def safeAddLong (a b : Int) : Bool :=
  decide (-(2 ^ 31) ≤ a + b ∧ a + b < 2 ^ 31)

/-- `safe_add` on two `uintptr_t`s. -/
def safeAddPtr (a b : Nat) : Bool := decide (a + b < 2 ^ 32)

structure ZipEntry where
  fileName : Bytes
  offset : Int
  compLen : Int
  uncompLen : Int
  compression : Nat
  modTime : Int
  crc32 : Int
  versionMadeBy : Nat
  externalFileAttributes : Int
deriving DecidableEq, Repr

structure MemMapping where
  addr : Nat
  file : Bytes

structure ZipArchive where
  pEntries : List ZipEntry
  pHash : List ZipEntry
deriving DecidableEq

/-- Printable ASCII only, and shorter than a path. -/
def validFilename (fileName : Bytes) : Bool :=
  decide (fileName.length < PATH_MAX) &&
    fileName.all fun c => decide (32 ≤ c.toNat ∧ c.toNat < 127)

/-- The backward scan for the end-of-central-directory record, starting at
`ptr` and giving up below the start of the mapping. -/
def scanEnd (file : Bytes) : Nat → Option Nat
  | 0 => if get4LE file 0 = ENDSIG then some 0 else none
  | ptr + 1 =>
      if get4LE file (ptr + 1) = ENDSIG then some (ptr + 1)
      else scanEnd file ptr

/-- Where `parseZipArchive` finds the end-of-central-directory record. -/
def findEnd (file : Bytes) : Option Nat :=
  scanEnd file (file.length - ENDHDR)

/-- The entry count and the central-directory offset minzip uses. -/
def endFields (file : Bytes) : Option (Nat × Nat) :=
  (findEnd file).map fun ptr =>
    (get2LE file (ptr + ENDSUB), get4LE file (ptr + ENDOFF))

/-- `strncmp` on the common length, then the difference of the lengths. -/
def nameDiff : Bytes → Bytes → Int
  | [], name => 0 - name.length
  | entry, [] => entry.length
  | a :: entry, b :: name =>
      if a = b then nameDiff entry name else (a.toNat : Int) - b.toNat

/-- The binary search for the slot of a new entry.  The result is the final
value of `high`; `fuel` bounds the interval that is halved. -/
def searchSlot (entries : List ZipEntry) (name : Bytes) :
    (fuel : Nat) → (low high : Int) → Int
  | 0, _, high => high
  | fuel + 1, low, high =>
      if low ≤ high then
        let mid := low + (high - low) / 2
        let diff := ((entries[mid.toNat]?).map fun entry =>
          nameDiff entry.fileName name).getD 0
        if diff < 0 then searchSlot entries name fuel (mid + 1) high
        else if 0 < diff then searchSlot entries name fuel low (mid - 1)
        else mid
      else high

/-- Insert an entry where the binary search puts it. -/
def insertEntry (entries : List ZipEntry) (entry : ZipEntry) :
    List ZipEntry :=
  let high := searchSlot entries entry.fileName (entries.length + 1) 0
    ((entries.length : Int) - 1)
  let target := (high + 1).toNat
  entries.take target ++ entry :: entries.drop target

/-- Read one central-directory record at `ptr`.  `none` is a `goto bail`. -/
def parseRecord (map : MemMapping) (ptr : Nat) : Option ZipEntry :=
  let file := map.file
  if file.length < ptr + CENHDR then none
  else if get4LE file ptr ≠ CENSIG then none
  else
    let localHdrOffset := get4LE file (ptr + CENOFF)
    let fileNameLen := get2LE file (ptr + CENNAM)
    if file.length < ptr + CENHDR + fileNameLen then none
    else
      let fileName := file.window (ptr + CENHDR) fileNameLen
      if !validFilename fileName then none
      else
        let versionMadeBy := get2LE file (ptr + CENVEM)
        let system := versionMadeBy / 256 * 256
        if system ≠ 0 ∧ system ≠ CENVEM_UNIX then none
        else if !safeAddPtr map.addr localHdrOffset then none
        else if (map.addr + file.length) % 2 ^ 32 <
            (map.addr + localHdrOffset + LOCHDR) % 2 ^ 32 then none
        else if get4LE file localHdrOffset ≠ LOCSIG then none
        else
          let offset := toLong (localHdrOffset + LOCHDR
            + get2LE file (localHdrOffset + LOCNAM)
            + get2LE file (localHdrOffset + LOCEXT))
          let compLen := toLong (get4LE file (ptr + CENSIZ))
          if !safeAddLong offset compLen then none
          else if file.length < (toSize offset + toSize compLen) % 2 ^ 32 then
            none
          else some {
            fileName := fileName
            offset := offset
            compLen := compLen
            uncompLen := toLong (get4LE file (ptr + CENLEN))
            compression := get2LE file (ptr + CENHOW)
            modTime := toLong (get4LE file (ptr + CENTIM))
            crc32 := toLong (get4LE file (ptr + CENCRC))
            versionMadeBy := versionMadeBy
            externalFileAttributes := toLong (get4LE file (ptr + CENATX)) }

/-- Read `count` records from `ptr` on, keeping the entries sorted. -/
def parseDirectory (map : MemMapping) :
    (count ptr : Nat) → List ZipEntry → Option (List ZipEntry)
  | 0, _, entries => some entries
  | count + 1, ptr, entries =>
      match parseRecord map ptr with
      | none => none
      | some entry =>
          let next := ptr + CENHDR + get2LE map.file (ptr + CENNAM)
            + get2LE map.file (ptr + CENEXT) + get2LE map.file (ptr + CENCOM)
          parseDirectory map count next (insertEntry entries entry)

/-- A name that is already in the table keeps its first entry. -/
def addEntryToHashTable (table : List ZipEntry) (entry : ZipEntry) :
    List ZipEntry :=
  if table.any fun found => found.fileName == entry.fileName then table
  else table ++ [entry]

def parseZipArchive (map : MemMapping) : Option ZipArchive :=
  if get4LE map.file 0 ≠ LOCSIG then none
  else
    match endFields map.file with
    | none => none
    | some (numEntries, cdOffset) =>
        if numEntries = 0 ∨ map.file.length ≤ cdOffset then none
        else
          (parseDirectory map numEntries cdOffset []).map fun entries =>
            ⟨entries, entries.foldl addEntryToHashTable []⟩

/-- `mapped` is what `open` and `sysMapFileInShmem` made of the file, if both
succeeded. -/
def mzOpenZipArchive (mapped : Option MemMapping) : Option ZipArchive :=
  match mapped with
  | none => none
  | some map =>
      if map.file.length < ENDHDR then none else parseZipArchive map

def mzFindZipEntry (archive : ZipArchive) (entryName : Bytes) :
    Option ZipEntry :=
  archive.pHash.find? fun entry => entry.fileName == entryName

end MinZip

end MetaOS
