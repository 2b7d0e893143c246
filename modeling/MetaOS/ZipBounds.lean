/-
minzip/Zip.c: what `parseZipArchive` reads of the mapping and around it, and
whether the entries it accepts lie inside.

`memory` is the mapped file and what stands behind it.  Addresses wrap where
the source adds them as `uintptr_t`; `length` is a `size_t`, and the lengths
and the offset of an entry are `long`s.
-/
import MetaOS.MinZip
import MetaOS.TracedRun

namespace MetaOS

namespace MinZip

open TracedRun

/-- Bytes that are read, counted from the start of the mapping. -/
structure Access where
  start : Nat
  len : Nat
deriving DecidableEq, Repr

section Program

variable (memory : Bytes)

def readLE (start len : Nat) : TracedRun Access Nat :=
  ⟨some (.ok (memory.leAt start len)), [⟨start, len⟩]⟩

def readBytes (start len : Nat) : TracedRun Access Bytes :=
  ⟨some (.ok (memory.window start len)), [⟨start, len⟩]⟩

variable (map : MemMapping)

/-- The backward scan: one byte, and the whole signature where it may start. -/
def readEnd : (ptr : Nat) → TracedRun Access Nat
  | 0 => do
      if (← readLE memory 0 1) = ENDSIG % 256 then
        if (← readLE memory 0 4) = ENDSIG then pure 0
        else fail "Could not find end-of-central-directory in Zip"
      else fail "Could not find end-of-central-directory in Zip"
  | ptr + 1 => do
      if (← readLE memory (ptr + 1) 1) = ENDSIG % 256 then
        if (← readLE memory (ptr + 1) 4) = ENDSIG then pure (ptr + 1)
        else readEnd ptr
      else readEnd ptr

/-- The local header of a record, which says where its data starts. -/
def readLocalHeader (localHdrOffset : Nat) : TracedRun Access Int := do
  if !safeAddPtr map.addr localHdrOffset then
    fail "Integer overflow adding in parseZipArchive"
  else if (map.addr + map.file.length) % 2 ^ 32 <
      (map.addr + localHdrOffset + LOCHDR) % 2 ^ 32 then
    fail "Bad offset to local header"
  else if (← readLE memory localHdrOffset 4) ≠ LOCSIG then
    fail "Missed a local header sig"
  else
    let name ← readLE memory (localHdrOffset + LOCNAM) 2
    let ext ← readLE memory (localHdrOffset + LOCEXT) 2
    pure (toLong (localHdrOffset + LOCHDR + name + ext))

/-- One pass of the loop over the central directory: the entry, and where the
next record starts. -/
def readRecord (ptr : Nat) : TracedRun Access (ZipEntry × Nat) := do
  if map.file.length < ptr + CENHDR then fail "Ran off the end"
  else if (← readLE memory ptr 4) ≠ CENSIG then
    fail "Missed a central dir sig"
  else
    let localHdrOffset ← readLE memory (ptr + CENOFF) 4
    let fileNameLen ← readLE memory (ptr + CENNAM) 2
    let extraLen ← readLE memory (ptr + CENEXT) 2
    let commentLen ← readLE memory (ptr + CENCOM) 2
    if map.file.length < ptr + CENHDR + fileNameLen then
      fail "Filename ran off the end"
    else
      let fileName ← readBytes memory (ptr + CENHDR) fileNameLen
      if !validFilename fileName then fail "Invalid filename"
      else
        let compLen ← readLE memory (ptr + CENSIZ) 4
        let uncompLen ← readLE memory (ptr + CENLEN) 4
        let compression ← readLE memory (ptr + CENHOW) 2
        let modTime ← readLE memory (ptr + CENTIM) 4
        let crc32 ← readLE memory (ptr + CENCRC) 4
        let versionMadeBy ← readLE memory (ptr + CENVEM) 2
        let system := versionMadeBy / 256 * 256
        if system ≠ 0 ∧ system ≠ CENVEM_UNIX then
          fail "Incompatible \"version made by\""
        else
          let attributes ← readLE memory (ptr + CENATX) 4
          let offset ← readLocalHeader memory map localHdrOffset
          if !safeAddLong offset (toLong compLen) then
            fail "Integer overflow adding in parseZipArchive"
          else if map.file.length <
              (toSize offset + toSize (toLong compLen)) % 2 ^ 32 then
            fail "Data ran off the end"
          else pure (⟨fileName, offset, toLong compLen, toLong uncompLen,
              compression, toLong modTime, toLong crc32, versionMadeBy,
              toLong attributes⟩,
            ptr + CENHDR + fileNameLen + extraLen + commentLen)

def readDirectory :
    (count ptr : Nat) → List ZipEntry → TracedRun Access (List ZipEntry)
  | 0, _, entries => pure entries
  | count + 1, ptr, entries => do
      let (entry, next) ← readRecord memory map ptr
      readDirectory count next (insertEntry entries entry)

/-- The two fields of the end record, and the directory they lead to. -/
def readEntries (ptr : Nat) : TracedRun Access (List ZipEntry) := do
  let numEntries ← readLE memory (ptr + ENDSUB) 2
  let cdOffset ← readLE memory (ptr + ENDOFF) 4
  if numEntries = 0 ∨ map.file.length ≤ cdOffset then fail "Invalid entries"
  else readDirectory memory map numEntries cdOffset []

/-- `parseZipArchive`, up to the entries. -/
def readArchive : TracedRun Access (List ZipEntry) := do
  if (← readLE memory 0 4) ≠ LOCSIG then fail "Not a Zip archive"
  else
    let ptr ← readEnd memory (map.file.length - ENDHDR)
    readEntries memory map ptr

end Program

section Reading

variable {memory : Bytes} {β : Type} {allowed : Access → Prop}

@[simp] theorem readLE_bind_result (start len : Nat)
    (k : Nat → TracedRun Access β) :
    (readLE memory start len >>= k).result =
      (k (memory.leAt start len)).result := rfl

@[simp] theorem readBytes_bind_result (start len : Nat)
    (k : Bytes → TracedRun Access β) :
    (readBytes memory start len >>= k).result =
      (k (memory.window start len)).result := rfl

theorem within_readLE_bind (start len : Nat) (k : Nat → TracedRun Access β) :
    (readLE memory start len >>= k).Within allowed ↔
      allowed ⟨start, len⟩ ∧ (k (memory.leAt start len)).Within allowed := by
  rw [within_bind]
  simp [readLE, Within]

theorem within_readBytes_bind (start len : Nat)
    (k : Bytes → TracedRun Access β) :
    (readBytes memory start len >>= k).Within allowed ↔
      allowed ⟨start, len⟩ ∧ (k (memory.window start len)).Within allowed := by
  rw [within_bind]
  simp [readBytes, Within]

end Reading

/-- A mapping as the kernel makes it on the device: it ends below the addresses
that the kernel keeps to itself, and `mzOpenZipArchive` has looked that an end
record fits. -/
structure UserMapping extends MemMapping where
  below : addr + file.length ≤ 3 * 2 ^ 30
  large : ENDHDR ≤ file.length

/-- The bytes lie in the mapping. -/
def UserMapping.Inside (map : UserMapping) (a : Access) : Prop :=
  a.start + a.len ≤ map.file.length

/-- The offset of the local header that a record names. -/
def localHdr (memory : Bytes) (ptr : Nat) : Nat := get4LE memory (ptr + CENOFF)

/-- Where the data of a record starts, by its local header. -/
def dataStart (memory : Bytes) (ptr : Nat) : Nat :=
  localHdr memory ptr + LOCHDR + get2LE memory (localHdr memory ptr + LOCNAM) +
    get2LE memory (localHdr memory ptr + LOCEXT)

def nextRecord (memory : Bytes) (ptr : Nat) : Nat :=
  ptr + CENHDR + get2LE memory (ptr + CENNAM) + get2LE memory (ptr + CENEXT) +
    get2LE memory (ptr + CENCOM)

section Records

variable {memory : Bytes} {map : UserMapping}

/-- What the checks on a local header leave open: whether the end of the
header has wrapped around. -/
theorem readLocalHeader_ok {off : Nat} {offset : Int}
    (hok : (readLocalHeader memory map.toMemMapping off).result =
      some (.ok offset)) :
    offset = toLong (off + LOCHDR + get2LE memory (off + LOCNAM) +
        get2LE memory (off + LOCEXT)) ∧
      map.addr + off < 2 ^ 32 ∧
      (map.addr + off + LOCHDR < 2 ^ 32 → off + LOCHDR ≤ map.file.length) ∧
      ((readLocalHeader memory map.toMemMapping off).Within map.Inside ↔
        map.addr + off + LOCHDR < 2 ^ 32) := by
  have hbelow := map.below
  unfold readLocalHeader at hok ⊢
  split at hok
  · cases hok
  · rename_i hadd
    split at hok
    · cases hok
    · rename_i hend
      rw [readLE_bind_result] at hok
      split at hok
      · cases hok
      · rename_i hsig
        simp only [readLE_bind_result, pure_result, Option.some.injEq,
          Except.ok.injEq] at hok
        rw [if_neg hadd, if_neg hend, within_readLE_bind, if_neg hsig]
        simp only [within_readLE_bind]
        rw [Bool.not_eq_true, Bool.not_eq_false', safeAddPtr,
          decide_eq_true_eq] at hadd
        rw [Nat.mod_eq_of_lt (by omega)] at hend
        have hheader : map.addr + off + LOCHDR < 2 ^ 32 →
            off + LOCHDR ≤ map.file.length := by
          intro hlow
          rw [Nat.mod_eq_of_lt hlow] at hend
          omega
        refine ⟨hok.symm, hadd, hheader, ?_⟩
        simp only [UserMapping.Inside, LOCHDR, LOCNAM, LOCEXT] at hheader ⊢
        constructor
        · rintro ⟨hfirst, -⟩
          omega
        · intro hlow
          have hin := hheader hlow
          exact ⟨by omega, by omega, by omega, within_pure _⟩

/-- What the checks on a record ensure. -/
structure RecordRead (memory : Bytes) (map : UserMapping) (ptr : Nat)
    (entry : ZipEntry) (next : Nat) : Prop where
  fileName : entry.fileName =
    memory.window (ptr + CENHDR) (get2LE memory (ptr + CENNAM))
  name_in : ptr + CENHDR + get2LE memory (ptr + CENNAM) ≤ map.file.length
  offset : entry.offset = toLong (dataStart memory ptr)
  compLen : entry.compLen = toLong (get4LE memory (ptr + CENSIZ))
  safe : safeAddLong entry.offset entry.compLen = true
  data_in : (toSize entry.offset + toSize entry.compLen) % 2 ^ 32 ≤
    map.file.length
  next_eq : next = nextRecord memory ptr
  header_in : map.addr + localHdr memory ptr + LOCHDR < 2 ^ 32 →
    localHdr memory ptr + LOCHDR ≤ map.file.length
  within_iff : (readRecord memory map.toMemMapping ptr).Within map.Inside ↔
    map.addr + localHdr memory ptr + LOCHDR < 2 ^ 32

theorem within_ite {α : Type} {allowed : Access → Prop} {p : Prop}
    [Decidable p] {first second : TracedRun Access α}
    (hfirst : first.Within allowed) (hsecond : second.Within allowed) :
    (if p then first else second).Within allowed := by
  split
  · exact hfirst
  · exact hsecond

/-- The reads of an accepted record are those of its local header and others
that lie inside. -/
theorem readRecord_ok {ptr next : Nat} {entry : ZipEntry}
    (hok : (readRecord memory map.toMemMapping ptr).result =
      some (.ok (entry, next))) :
    RecordRead memory map ptr entry next := by
  unfold readRecord at hok
  split at hok
  · cases hok
  · rename_i hrecord
    rw [readLE_bind_result] at hok
    split at hok
    · cases hok
    · rename_i hsig
      simp only [readLE_bind_result] at hok
      split at hok
      · cases hok
      · rename_i hname
        rw [readBytes_bind_result] at hok
        split at hok
        · cases hok
        · rename_i hvalid
          simp only [readLE_bind_result] at hok
          split at hok
          · cases hok
          · rename_i hsystem
            rw [readLE_bind_result] at hok
            obtain ⟨offset, hlocal, hrest⟩ := ok_of_bind hok
            obtain ⟨hoffset, -, hheader, hlocalWithin⟩ :=
              readLocalHeader_ok hlocal
            split at hrest
            · cases hrest
            · rename_i hsafe
              split at hrest
              · cases hrest
              · rename_i hdata
                simp only [pure_result, Option.some.injEq, Except.ok.injEq,
                  Prod.mk.injEq] at hrest
                obtain ⟨rfl, rfl⟩ := hrest
                rw [Bool.not_eq_true, Bool.not_eq_false'] at hsafe
                refine ⟨rfl, not_lt.mp hname, hoffset, rfl, hsafe,
                  not_lt.mp hdata, rfl, hheader, ?_⟩
                unfold readRecord
                rw [if_neg hrecord, within_readLE_bind, if_neg hsig]
                simp only [within_readLE_bind]
                rw [if_neg hname, within_readBytes_bind, if_neg hvalid]
                simp only [within_readLE_bind]
                rw [if_neg hsystem, within_readLE_bind, within_bind]
                rw [not_lt] at hrecord hname
                simp only [UserMapping.Inside, CENHDR, CENOFF, CENNAM, CENEXT,
                  CENCOM, CENSIZ, CENLEN, CENHOW, CENTIM, CENCRC, CENVEM,
                  CENATX] at hrecord hname ⊢
                constructor
                · intro hall
                  exact hlocalWithin.mp hall.2.2.2.2.2.2.2.2.2.2.2.2.2.1
                · intro hlow
                  have hlocalIn := hlocalWithin.mpr hlow
                  refine ⟨by omega, by omega, by omega, by omega, by omega,
                    by omega, by omega, by omega, by omega, by omega,
                    by omega, by omega, by omega, hlocalIn, ?_⟩
                  intro value _
                  exact within_ite (within_fail _)
                    (within_ite (within_fail _) (within_pure _))

/-- An entry lies in the mapping, its name and its data. -/
structure EntryInside (map : UserMapping) (entry : ZipEntry) : Prop where
  offset : 0 ≤ entry.offset
  compLen : 0 ≤ entry.compLen
  data : entry.offset + entry.compLen ≤ map.file.length
  name : ∃ start, start + entry.fileName.length ≤ map.file.length ∧
    entry.fileName = map.file.window start entry.fileName.length

/-- The fields of a record fit the types they pass through: the length and the
start of the data are no negative `long`s, and the end of the local header is
an address. -/
structure RecordFits (memory : Bytes) (map : UserMapping) (ptr : Nat) :
    Prop where
  compLen : get4LE memory (ptr + CENSIZ) < 2 ^ 31
  offset : dataStart memory ptr < 2 ^ 31
  header : map.addr + localHdr memory ptr + LOCHDR < 2 ^ 32

theorem leAt_lt (memory : Bytes) (off width : Nat) :
    memory.leAt off width < 256 ^ width := by
  have hlength : (memory.window off width).length ≤ width := by
    rw [Bytes.window_length]
    exact Nat.min_le_left _ _
  exact (Bytes.leNat_lt _).trans_le (Nat.pow_le_pow_right (by decide) hlength)

theorem toLong_nonneg_iff {n : Nat} (hn : n < 2 ^ 32) :
    0 ≤ toLong n ↔ n < 2 ^ 31 := by
  rw [toLong, Nat.mod_eq_of_lt hn]
  split
  · omega
  · omega

theorem toLong_of_lt {n : Nat} (hn : n < 2 ^ 31) : toLong n = n := by
  rw [toLong, Nat.mod_eq_of_lt (by omega), if_pos hn]

theorem dataStart_lt {ptr : Nat} {map : UserMapping}
    (hheader : localHdr memory ptr + LOCHDR ≤ map.file.length) :
    dataStart memory ptr < 2 ^ 32 := by
  have hname := leAt_lt memory (localHdr memory ptr + LOCNAM) 2
  have hext := leAt_lt memory (localHdr memory ptr + LOCEXT) 2
  have hbelow := map.below
  rw [dataStart, get2LE, get2LE]
  omega

/-- An accepted record is inside exactly if its fields fit. -/
theorem RecordRead.inside_iff {behind : Bytes} {ptr next : Nat}
    {entry : ZipEntry}
    (hread : RecordRead (map.file ++ behind) map ptr entry next) :
    EntryInside map entry ∧
        (readRecord (map.file ++ behind) map.toMemMapping ptr).Within
          map.Inside ↔
      RecordFits (map.file ++ behind) map ptr := by
  have hcomp := leAt_lt (map.file ++ behind) (ptr + CENSIZ) 4
  change get4LE (map.file ++ behind) (ptr + CENSIZ) < _ at hcomp
  rw [hread.within_iff]
  constructor
  · rintro ⟨hinside, hheader⟩
    have hstart := dataStart_lt (hread.header_in hheader)
    refine ⟨?_, ?_, hheader⟩
    · rw [← toLong_nonneg_iff (by omega), ← hread.compLen]
      exact hinside.compLen
    · rw [← toLong_nonneg_iff hstart, ← hread.offset]
      exact hinside.offset
  · rintro ⟨hcompLen, hoffset, hheader⟩
    have hoffsetEq := hread.offset.trans (toLong_of_lt hoffset)
    have hcompLenEq := hread.compLen.trans (toLong_of_lt hcompLen)
    have hsafe := hread.safe
    have hdata := hread.data_in
    rw [safeAddLong, decide_eq_true_eq] at hsafe
    rw [toSize, toSize] at hdata
    refine ⟨⟨?_, ?_, ?_, ptr + CENHDR, ?_⟩, hheader⟩
    · omega
    · omega
    · omega
    · have hname := hread.name_in
      have hwindow : entry.fileName = map.file.window (ptr + CENHDR)
          (get2LE (map.file ++ behind) (ptr + CENNAM)) := by
        rw [hread.fileName, Bytes.window_of_append_left _ _ _ _ hname]
      have hlength : entry.fileName.length =
          get2LE (map.file ++ behind) (ptr + CENNAM) := by
        rw [hwindow, Bytes.window_length]
        omega
      rw [hlength]
      exact ⟨hname, hwindow⟩

/-- The offsets of the records that the loop comes to. -/
def recordPtrs (memory : Bytes) : (count ptr : Nat) → List Nat
  | 0, _ => []
  | count + 1, ptr => ptr :: recordPtrs memory count (nextRecord memory ptr)

theorem mem_insertEntry {entries : List ZipEntry} {entry e : ZipEntry} :
    e ∈ insertEntry entries entry ↔ e = entry ∨ e ∈ entries := by
  unfold insertEntry
  dsimp only
  generalize (searchSlot entries entry.fileName (entries.length + 1) 0
    ((entries.length : Int) - 1) + 1).toNat = target
  conv_rhs => rw [← List.take_append_drop target entries]
  simp only [List.mem_append, List.mem_cons]
  tauto

/-- The loop over the directory, from the entries that are there. -/
theorem readDirectory_ok {behind : Bytes} {count ptr : Nat}
    {entries result : List ZipEntry}
    (hok : (readDirectory (map.file ++ behind) map.toMemMapping count ptr
      entries).result = some (.ok result)) :
    (∀ e ∈ result, EntryInside map e) ∧
        (readDirectory (map.file ++ behind) map.toMemMapping count ptr
          entries).Within map.Inside ↔
      (∀ e ∈ entries, EntryInside map e) ∧
        ∀ p ∈ recordPtrs (map.file ++ behind) count ptr,
          RecordFits (map.file ++ behind) map p := by
  induction count generalizing ptr entries with
  | zero =>
      simp only [readDirectory, pure_result, Option.some.injEq,
        Except.ok.injEq] at hok
      subst hok
      simp [readDirectory, within_pure, recordPtrs]
  | succ count ih =>
      rw [readDirectory] at hok ⊢
      obtain ⟨⟨entry, next⟩, hrecord, hrest⟩ := ok_of_bind hok
      have hread := readRecord_ok hrecord
      have hinside := hread.inside_iff
      have hdirectory := ih hrest
      rw [hread.next_eq] at hdirectory hrecord
      simp only [mem_insertEntry, forall_eq_or_imp] at hdirectory
      rw [within_bind, hrecord]
      simp only [Option.some.injEq, Except.ok.injEq, forall_eq',
        recordPtrs, List.mem_cons, forall_eq_or_imp]
      tauto

end Records

section Archives

variable {memory : Bytes} {map : UserMapping}

/-- The first byte of a number. -/
theorem leAt_one (memory : Bytes) (off : Nat) :
    memory.leAt off 1 = memory.leAt off 4 % 256 := by
  simp only [Bytes.leAt, Bytes.window]
  cases memory.drop off with
  | nil => rfl
  | cons b rest =>
      have hb := b.toNat_lt
      simp only [List.take_succ_cons, List.take_zero, Bytes.leNat]
      omega

/-- The scan finds what `scanEnd` finds. -/
theorem readEnd_result (memory : Bytes) (ptr : Nat) :
    (readEnd memory ptr).result = some (match scanEnd memory ptr with
      | some found => .ok found
      | none =>
          .error "Could not find end-of-central-directory in Zip") := by
  have hbyte : ∀ off, memory.leAt off 4 = ENDSIG →
      memory.leAt off 1 = ENDSIG % 256 := by
    intro off hsig
    rw [leAt_one, hsig]
  induction ptr with
  | zero =>
      rw [readEnd, readLE_bind_result, scanEnd, get4LE]
      by_cases hsig : memory.leAt 0 4 = ENDSIG
      · rw [if_pos (hbyte 0 hsig), readLE_bind_result, if_pos hsig,
          if_pos hsig]
        rfl
      · rw [if_neg hsig]
        split
        · rw [readLE_bind_result, if_neg hsig]
          rfl
        · rfl
  | succ ptr ih =>
      rw [readEnd, readLE_bind_result, scanEnd, get4LE]
      by_cases hsig : memory.leAt (ptr + 1) 4 = ENDSIG
      · rw [if_pos (hbyte (ptr + 1) hsig), readLE_bind_result, if_pos hsig,
          if_pos hsig]
        rfl
      · rw [if_neg hsig, ← ih]
        split
        · rw [readLE_bind_result, if_neg hsig]
        · rfl

theorem readEnd_within (memory : Bytes) {ptr : Nat}
    (hin : ptr + 4 ≤ map.file.length) :
    (readEnd memory ptr).Within map.Inside := by
  induction ptr with
  | zero =>
      rw [readEnd, within_readLE_bind]
      refine ⟨?_, within_ite ?_ (within_fail _)⟩
      · simp only [UserMapping.Inside]
        omega
      · rw [within_readLE_bind]
        exact ⟨hin, within_ite (within_pure 0) (within_fail _)⟩
  | succ ptr ih =>
      have hrest := ih (by omega)
      rw [readEnd, within_readLE_bind]
      refine ⟨?_, within_ite ?_ hrest⟩
      · simp only [UserMapping.Inside]
        omega
      · rw [within_readLE_bind]
        exact ⟨hin, within_ite (within_pure _) hrest⟩

theorem scanEnd_le {ptr found : Nat}
    (hscan : scanEnd memory ptr = some found) : found ≤ ptr := by
  induction ptr with
  | zero =>
      rw [scanEnd] at hscan
      split at hscan
      · cases hscan
        exact le_refl 0
      · cases hscan
  | succ ptr ih =>
      rw [scanEnd] at hscan
      split at hscan
      · cases hscan
        exact le_refl _
      · exact (ih hscan).trans (Nat.le_succ ptr)

/-- The records of the directory that the end record names. -/
def directory (memory : Bytes) (map : UserMapping) : List Nat :=
  match scanEnd memory (map.file.length - ENDHDR) with
  | none => []
  | some ptr => recordPtrs memory (get2LE memory (ptr + ENDSUB))
      (get4LE memory (ptr + ENDOFF))

theorem readEntries_ok {behind : Bytes} {ptr : Nat} {entries : List ZipEntry}
    (hin : ptr + ENDHDR ≤ map.file.length)
    (hok : (readEntries (map.file ++ behind) map.toMemMapping ptr).result =
      some (.ok entries)) :
    (∀ e ∈ entries, EntryInside map e) ∧
        (readEntries (map.file ++ behind) map.toMemMapping ptr).Within
          map.Inside ↔
      ∀ p ∈ recordPtrs (map.file ++ behind)
          (get2LE (map.file ++ behind) (ptr + ENDSUB))
          (get4LE (map.file ++ behind) (ptr + ENDOFF)),
        RecordFits (map.file ++ behind) map p := by
  unfold readEntries at hok ⊢
  simp only [readLE_bind_result] at hok
  split at hok
  · cases hok
  · rename_i hfields
    have hdirectory := readDirectory_ok hok
    have hsub : map.Inside ⟨ptr + ENDSUB, 2⟩ := by
      simp only [UserMapping.Inside, ENDSUB, ENDHDR] at hin ⊢
      omega
    have hoff : map.Inside ⟨ptr + ENDOFF, 4⟩ := by
      simp only [UserMapping.Inside, ENDOFF, ENDHDR] at hin ⊢
      omega
    simp only [List.not_mem_nil, false_implies, implies_true, true_and]
      at hdirectory
    rw [within_readLE_bind, within_readLE_bind, if_neg hfields]
    exact ⟨fun h => hdirectory.mp ⟨h.1, h.2.2.2⟩,
      fun h => ⟨(hdirectory.mpr h).1, hsub, hoff, (hdirectory.mpr h).2⟩⟩

/-- If the archive is accepted, its entries and all reads are inside exactly
if the fields of every record fit. -/
theorem archive_inside_iff (map : UserMapping) (behind : Bytes)
    (entries : List ZipEntry)
    (hparse : (readArchive (map.file ++ behind) map.toMemMapping).result =
      some (.ok entries)) :
    (∀ e ∈ entries, EntryInside map e) ∧
        (readArchive (map.file ++ behind) map.toMemMapping).Within
          map.Inside ↔
      ∀ ptr ∈ directory (map.file ++ behind) map,
        RecordFits (map.file ++ behind) map ptr := by
  have hlarge := map.large
  unfold readArchive at hparse ⊢
  rw [readLE_bind_result] at hparse
  split at hparse
  · cases hparse
  · rename_i hloc
    obtain ⟨ptr, hend, hrest⟩ := ok_of_bind hparse
    have hfirst : map.Inside ⟨0, 4⟩ := by
      simp only [UserMapping.Inside, ENDHDR] at hlarge ⊢
      omega
    have hendWithin : (readEnd (map.file ++ behind)
        (map.file.length - ENDHDR)).Within map.Inside := by
      apply readEnd_within
      simp only [ENDHDR] at hlarge ⊢
      omega
    have hscan : scanEnd (map.file ++ behind)
        (map.file.length - ENDHDR) = some ptr := by
      rw [readEnd_result] at hend
      split at hend
      · rename_i found hscan
        cases hend
        exact hscan
      · cases hend
    have hle := scanEnd_le hscan
    have hptr : ptr + ENDHDR ≤ map.file.length := by omega
    have hentries := readEntries_ok hptr hrest
    have hdirectory : directory (map.file ++ behind) map =
        recordPtrs (map.file ++ behind)
          (get2LE (map.file ++ behind) (ptr + ENDSUB))
          (get4LE (map.file ++ behind) (ptr + ENDOFF)) := by
      unfold directory
      rw [hscan]
    rw [hdirectory, ← hentries, within_readLE_bind, if_neg hloc, within_bind]
    refine and_congr_right fun _ => ?_
    constructor
    · rintro ⟨-, -, hall⟩
      exact hall ptr hend
    · intro hrestWithin
      refine ⟨hfirst, hendWithin, ?_⟩
      intro found hfound
      rw [hend] at hfound
      cases hfound
      exact hrestWithin

end Archives

section Refinement

variable {α β : Type}

/-- The value a run comes to, if it does. -/
def value? (run : TracedRun Access α) : Option α :=
  run.result.bind Except.toOption

theorem value?_bind (run : TracedRun Access α)
    (next : α → TracedRun Access β) :
    value? (run >>= next) = (value? run).bind fun v => value? (next v) := by
  rw [value?, value?, result_bind]
  rcases run.result with - | - | v
  · rfl
  · rfl
  · rfl

@[simp] theorem value?_fail (message : String) :
    value? (fail message : TracedRun Access α) = none := rfl

@[simp] theorem value?_pure (v : α) :
    value? (pure v : TracedRun Access α) = some v := rfl

@[simp] theorem value?_read2_bind (memory : Bytes) (start : Nat)
    (k : Nat → TracedRun Access β) :
    value? (readLE memory start 2 >>= k) =
      value? (k (get2LE memory start)) := rfl

@[simp] theorem value?_read4_bind (memory : Bytes) (start : Nat)
    (k : Nat → TracedRun Access β) :
    value? (readLE memory start 4 >>= k) =
      value? (k (get4LE memory start)) := rfl

@[simp] theorem value?_readBytes_bind (memory : Bytes) (start len : Nat)
    (k : Bytes → TracedRun Access β) :
    value? (readBytes memory start len >>= k) =
      value? (k (memory.window start len)) := rfl

theorem value?_ite {p : Prop} [Decidable p] (a b : TracedRun Access α) :
    value? (if p then a else b) = if p then value? a else value? b :=
  apply_ite value? p a b

variable (map : MemMapping)

theorem value?_readLocalHeader (off : Nat) :
    value? (readLocalHeader map.file map off) =
      if !safeAddPtr map.addr off then none
      else if (map.addr + map.file.length) % 2 ^ 32 <
          (map.addr + off + LOCHDR) % 2 ^ 32 then none
      else if get4LE map.file off ≠ LOCSIG then none
      else some (toLong (off + LOCHDR + get2LE map.file (off + LOCNAM) +
        get2LE map.file (off + LOCEXT))) := by
  unfold readLocalHeader
  rw [value?_ite, value?_ite, value?_read4_bind, value?_ite]
  rfl

/-- On the bytes of the file alone a record is read as `parseRecord` reads
it. -/
theorem value?_readRecord (ptr : Nat) :
    value? (readRecord map.file map ptr) =
      (parseRecord map ptr).map fun entry =>
        (entry, nextRecord map.file ptr) := by
  unfold readRecord parseRecord
  dsimp only
  by_cases hrecord : map.file.length < ptr + CENHDR
  · rw [if_pos hrecord, if_pos hrecord]
    rfl
  rw [if_neg hrecord, if_neg hrecord, value?_read4_bind]
  by_cases hsig : get4LE map.file ptr ≠ CENSIG
  · rw [if_pos hsig, if_pos hsig]
    rfl
  rw [if_neg hsig, if_neg hsig]
  simp only [value?_read2_bind, value?_read4_bind]
  by_cases hname : map.file.length <
      ptr + CENHDR + get2LE map.file (ptr + CENNAM)
  · rw [if_pos hname, if_pos hname]
    rfl
  rw [if_neg hname, if_neg hname, value?_readBytes_bind]
  by_cases hvalid : (!validFilename (map.file.window (ptr + CENHDR)
      (get2LE map.file (ptr + CENNAM)))) = true
  · rw [if_pos hvalid, if_pos hvalid]
    rfl
  rw [if_neg hvalid, if_neg hvalid]
  simp only [value?_read2_bind, value?_read4_bind]
  by_cases hsystem : get2LE map.file (ptr + CENVEM) / 256 * 256 ≠ 0 ∧
      get2LE map.file (ptr + CENVEM) / 256 * 256 ≠ CENVEM_UNIX
  · rw [if_pos hsystem, if_pos hsystem]
    rfl
  rw [if_neg hsystem, if_neg hsystem, value?_read4_bind, value?_bind,
    value?_readLocalHeader]
  by_cases hadd : (!safeAddPtr map.addr
      (get4LE map.file (ptr + CENOFF))) = true
  · rw [if_pos hadd, if_pos hadd]
    rfl
  rw [if_neg hadd, if_neg hadd]
  by_cases hend : (map.addr + map.file.length) % 2 ^ 32 <
      (map.addr + get4LE map.file (ptr + CENOFF) + LOCHDR) % 2 ^ 32
  · rw [if_pos hend, if_pos hend]
    rfl
  rw [if_neg hend, if_neg hend]
  by_cases hloc : get4LE map.file (get4LE map.file (ptr + CENOFF)) ≠ LOCSIG
  · rw [if_pos hloc, if_pos hloc]
    rfl
  rw [if_neg hloc, if_neg hloc, Option.bind_some, value?_ite, value?_ite]
  split
  · rfl
  · split
    · rfl
    · rfl

theorem value?_readDirectory (count ptr : Nat) (entries : List ZipEntry) :
    value? (readDirectory map.file map count ptr entries) =
      parseDirectory map count ptr entries := by
  induction count generalizing ptr entries with
  | zero => rfl
  | succ count ih =>
      rw [readDirectory, value?_bind, value?_readRecord, parseDirectory]
      cases parseRecord map ptr with
      | none => rfl
      | some entry =>
          simp only [Option.map_some, Option.bind_some, ih]
          rfl

/-- On the bytes of the file alone the archive is read as `parseZipArchive`
reads it. -/
theorem value?_readArchive :
    value? (readArchive map.file map) =
      (parseZipArchive map).map ZipArchive.pEntries := by
  unfold readArchive parseZipArchive
  rw [value?_read4_bind]
  by_cases hloc : get4LE map.file 0 ≠ LOCSIG
  · rw [if_pos hloc, if_pos hloc]
    rfl
  rw [if_neg hloc, if_neg hloc, value?_bind, value?, readEnd_result]
  unfold endFields findEnd
  cases scanEnd map.file (map.file.length - ENDHDR) with
  | none => rfl
  | some ptr =>
      simp only [Option.bind_some, Except.toOption, Option.map_some]
      unfold readEntries
      rw [value?_read2_bind, value?_read4_bind, value?_ite,
        value?_readDirectory]
      split
      · rfl
      · rw [Option.map_map]
        exact Option.map_id'.symm

end Refinement

namespace ZipBoundsWitness

/-- The entry `a`, whose three bytes are stored. -/
def stored : UserMapping where
  addr := 0x40000000
  file :=
    [0x50, 0x4b, 3, 4] ++ List.replicate 22 0 ++ [1, 0, 0, 0] ++ [97] ++
      [1, 2, 3] ++
      ([0x50, 0x4b, 1, 2] ++ List.replicate 16 0 ++ [3, 0, 0, 0] ++
        [3, 0, 0, 0] ++ [1, 0] ++ List.replicate 16 0 ++ [97]) ++
      ([0x50, 0x4b, 5, 6, 0, 0, 0, 0, 1, 0, 1, 0] ++
        [47, 0, 0, 0, 34, 0, 0, 0] ++ [0, 0])
  below := by decide
  large := by decide

theorem stored_inside :
    (∀ e ∈ [(⟨[97], 31, 3, 3, 0, 0, 0, 0, 0⟩ : ZipEntry)],
      EntryInside stored e) ∧
    (readArchive (stored.file ++ []) stored.toMemMapping).Within
      stored.Inside := by
  refine (archive_inside_iff stored [] _ (by rfl)).mpr fun ptr hptr => ?_
  have hdirectory : directory (stored.file ++ []) stored = [34] := by
    decide +kernel
  rw [hdirectory] at hptr
  obtain rfl := List.mem_singleton.mp hptr
  exact ⟨by decide +kernel, by decide +kernel, by decide +kernel⟩

/-- A local header whose name has 20 bytes, all of them zero, and a directory
of one record without a name, whose compressed length is given. -/
def archive (compLen : Bytes) : Bytes :=
  [0x50, 0x4b, 3, 4] ++ List.replicate 22 0 ++ [20, 0, 0, 0] ++
    List.replicate 20 0 ++
    ([0x50, 0x4b, 1, 2] ++ List.replicate 16 0 ++ compLen ++
      List.replicate 22 0) ++
    ([0x50, 0x4b, 5, 6, 0, 0, 0, 0, 1, 0, 1, 0] ++ [46, 0, 0, 0, 50, 0, 0, 0] ++
      [0, 0])

def mapped (compLen : Bytes) (hlength : (archive compLen).length = 118) :
    UserMapping where
  addr := 0x40000000
  file := archive compLen
  below := by omega
  large := by simp only [ENDHDR]; omega

/-- The compressed length is -50. -/
def negative : UserMapping := mapped [0xce, 0xff, 0xff, 0xff] rfl

def entryOf (compLen : Int) : ZipEntry := ⟨[], 50, compLen, 0, 0, 0, 0, 0, 0⟩

/-- An entry whose data has a negative length is accepted. -/
theorem negative_not_inside :
    ¬ ∀ (map : UserMapping) (behind : Bytes) (entries : List ZipEntry),
      (readArchive (map.file ++ behind) map.toMemMapping).result =
        some (.ok entries) →
      (∀ e ∈ entries, EntryInside map e) ∧
        (readArchive (map.file ++ behind) map.toMemMapping).Within
          map.Inside := by
  intro hall
  have hinside := (hall negative [] [entryOf (-50)] (by rfl)).1 (entryOf (-50))
    List.mem_cons_self
  exact absurd hinside.compLen (by decide)

end ZipBoundsWitness

end MinZip

end MetaOS
