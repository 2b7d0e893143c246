/-
minzip/Zip.c: the hash table of a parsed archive and how `mzFindZipEntry`
finds an entry in it.

The items of the table are pointers to the entries, added in their order, so
that of the entries with one name the table keeps the first.  A name is looked
up by a comparison function of its own.
-/
import MetaOS.ZipOrder
import MetaOS.MinZipHashMap

namespace MetaOS

namespace MinZip

namespace Hashed

open MinZipHash SortedInsertion

/-- What the table compares: a pointer into `pEntries`, or the name that is
looked for. -/
inductive Item (entries : List ZipEntry) where
  | entry (slot : Fin entries.length)
  | name (text : Bytes)
deriving DecidableEq

variable {entries : List ZipEntry}

def Item.fileName : Item entries → Bytes
  | .entry slot => entries[slot].fileName
  | .name text => text

/-- The entry behind a pointer that was found. -/
def Item.entry? : Item entries → Option ZipEntry
  | .entry slot => some entries[slot]
  | .name _ => none

/-- `char` is unsigned, as on the device. -/
def computeHash (name : Bytes) : UInt32 :=
  name.foldl (fun hash c => hash * 31 + c.toUInt32) 2

/-- The difference of the lengths, and then `memcmp`. -/
def hashcmp (fileName name : Bytes) : Int :=
  if fileName.length ≠ name.length then
    (fileName.length : Int) - name.length
  else nameDiff fileName name

def hashcmpZipEntry (entry1 entry2 : ZipEntry) : Int :=
  hashcmp entry1.fileName entry2.fileName

def hashcmpZipName (entry : ZipEntry) (name : Bytes) : Int :=
  hashcmp entry.fileName name

/-- The comparison function that goes with an item.  Only entries are ever in
the table. -/
def sameName (found item : Item entries) : Bool :=
  match found, item with
  | .entry slot, .entry other =>
      hashcmpZipEntry entries[slot] entries[other] = 0
  | .entry slot, .name text => hashcmpZipName entries[slot] text = 0
  | .name text, item => hashcmp text item.fileName = 0

section Operations

variable (memory : Nat → Bool)

def addEntryToHashTable (table : HashTable (Item entries))
    (slot : Fin entries.length) :
    Except Failure (HashTable (Item entries)) := do
  let (_, table) ← mzHashTableLookup memory sameName table
    (computeHash entries[slot].fileName) (.entry slot) true
  .ok table

/-- The loop that adds the first `count` entries. -/
def addEntries (table : HashTable (Item entries)) :
    (count : Nat) → count ≤ entries.length →
    Except Failure (HashTable (Item entries))
  | 0, _ => .ok table
  | count + 1, hcount => do
      let table ← addEntries table count (Nat.le_of_succ_le hcount)
      addEntryToHashTable memory table ⟨count, hcount⟩

/-- The table of `parseZipArchive`. -/
def hashEntries (entries : List ZipEntry) :
    Except Failure (HashTable (Item entries)) := do
  let table ← mzHashTableCreate memory
    (mzHashSize (UInt32.ofNat entries.length))
  addEntries memory table entries.length le_rfl

structure ZipArchive where
  pEntries : List ZipEntry
  pHash : HashTable (Item pEntries)

def parseZipArchive (map : MemMapping) : Option ZipArchive := do
  let archive ← MinZip.parseZipArchive map
  let pHash ← (hashEntries memory archive.pEntries).toOption
  some ⟨archive.pEntries, pHash⟩

def mzFindZipEntry (archive : ZipArchive) (entryName : Bytes) :
    Except Failure (Option ZipEntry) := do
  let (found, _) ← mzHashTableLookup memory sameName archive.pHash
    (computeHash entryName) (.name entryName) false
  .ok (found.bind Item.entry?)

end Operations

section Comparison

theorem hashcmp_eq_zero_iff (fileName name : Bytes) :
    hashcmp fileName name = 0 ↔ fileName = name := by
  unfold hashcmp
  split
  next hne =>
    constructor
    · intro hzero
      exact absurd (by omega) hne
    · rintro rfl
      exact absurd rfl hne
  next => exact nameDiff_eq_zero_iff fileName name

theorem sameName_iff (found item : Item entries) :
    sameName found item = true ↔ found.fileName = item.fileName := by
  cases found with
  | entry slot =>
      cases item <;>
        simp [sameName, hashcmpZipEntry, hashcmpZipName, Item.fileName,
          hashcmp_eq_zero_iff]
  | name text => simp [sameName, Item.fileName, hashcmp_eq_zero_iff]

theorem keyed : Keyed (sameName : Item entries → Item entries → Bool)
    fun item => computeHash item.fileName where
  refl x := (sameName_iff x x).mpr rfl
  symm hxy := (sameName_iff _ _).mpr ((sameName_iff _ _).mp hxy).symm
  trans hxy hyz := (sameName_iff _ _).mpr
    (((sameName_iff _ _).mp hxy).trans ((sameName_iff _ _).mp hyz))
  hash_eq hxy := by rw [(sameName_iff _ _).mp hxy]

end Comparison

section Table

variable {memory : Nat → Bool} {table : HashTable (Item entries)}
  {map : Finset (Item entries)}

/-- The table stands for the map. -/
abbrev Stands (table : HashTable (Item entries))
    (map : Finset (Item entries)) : Prop :=
  Represents sameName (fun item => computeHash item.fileName) table map

/-- A lookup is a step of the map. -/
theorem lookup_step (hstands : Stands table map) (item : Item entries)
    (doAdd : Bool) {found : Option (Item entries)}
    {after : HashTable (Item entries)}
    (hlookup : mzHashTableLookup memory sameName table
      (computeHash item.fileName) item doAdd = .ok (found, after)) :
    ∃ map', MapStep sameName map (.lookup item doAdd) (.found found) map' ∧
      Stands after map' := by
  have hperform : perform memory sameName
      (fun item => computeHash item.fileName) table (.lookup item doAdd) =
      .ok (.found found, after) := by
    rw [perform, hlookup]
    rfl
  obtain ⟨-, -, herror⟩ | ⟨answer, table', map', hok, hstep, hstands'⟩ :=
    lookup_refines keyed memory hstands item doAdd
  · rw [hperform] at herror
    cases herror
  · rw [hperform] at hok
    cases hok
    exact ⟨map', hstep, hstands'⟩

/-- A lookup that adds nothing asks for no memory. -/
theorem lookup_returns (hstands : Stands table map) (item : Item entries) :
    ∃ found after, mzHashTableLookup memory sameName table
      (computeHash item.fileName) item false = .ok (found, after) := by
  have hends : ∀ stop, search table (computeHash item.fileName) stop ≠
      none := by
    intro stop hnone
    obtain ⟨d, -, hsearch, -, -⟩ := hstands.valid.loaded.search_eq
      (computeHash item.fileName) stop
    rw [hsearch] at hnone
    cases hnone
  unfold mzHashTableLookup
  simp only [if_neg hstands.valid.size_pos.ne']
  split
  next hnone => exact absurd hnone (hends _)
  next =>
    split
    · exact ⟨_, _, rfl⟩
    · exact ⟨_, _, rfl⟩
    · exact ⟨_, _, rfl⟩

/-- No entry before it has its name. -/
def First (slot : Fin entries.length) : Prop :=
  ∀ other : Fin entries.length, other < slot →
    entries[other].fileName ≠ entries[slot].fileName

theorem exists_first (slot : Fin entries.length) :
    ∃ first ≤ slot, First first ∧
      entries[first].fileName = entries[slot].fileName := by
  induction slot using WellFoundedLT.induction with
  | ind slot ih =>
      by_cases hfirst : First slot
      · exact ⟨slot, le_rfl, hfirst, rfl⟩
      · unfold First at hfirst
        push Not at hfirst
        obtain ⟨other, hlt, hname⟩ := hfirst
        obtain ⟨first, hle, hfirst, heq⟩ := ih other hlt
        exact ⟨first, hle.trans hlt.le, hfirst, heq.trans hname⟩

/-- The map holds the first entry of each name among `count` entries. -/
def Holds (count : Nat) (map : Finset (Item entries)) : Prop :=
  ∀ item, item ∈ map ↔
    ∃ slot : Fin entries.length, item = .entry slot ∧ slot < count ∧ First slot

theorem addEntryToHashTable_holds {slot : Fin entries.length}
    (hstands : Stands table map) (hholds : Holds slot map)
    {after : HashTable (Item entries)}
    (hadd : addEntryToHashTable memory table slot = .ok after) :
    ∃ map', Stands after map' ∧ Holds (slot + 1) map' := by
  unfold addEntryToHashTable at hadd
  cases hlookup : mzHashTableLookup memory sameName table
      (computeHash entries[slot].fileName) (.entry slot) true with
  | error failure =>
      rw [hlookup] at hadd
      cases hadd
  | ok answer =>
      obtain ⟨found, table'⟩ := answer
      rw [hlookup] at hadd
      obtain rfl : table' = after := Except.ok.inj hadd
      obtain ⟨map', hstep, hstands'⟩ :=
        lookup_step hstands (.entry slot) true hlookup
      refine ⟨map', hstands', ?_⟩
      cases hstep with
      | present hmem hkey =>
          -- An earlier entry has the name.
          obtain ⟨earlier, rfl, hlt, -⟩ := (hholds _).mp hmem
          have hname := (sameName_iff _ _).mp hkey
          intro item
          rw [hholds item]
          constructor
          · rintro ⟨other, hitem, hother, hfirst⟩
            exact ⟨other, hitem, by omega, hfirst⟩
          · rintro ⟨other, hitem, hother, hfirst⟩
            refine ⟨other, hitem, ?_, hfirst⟩
            by_contra hge
            obtain rfl : other = slot := Fin.ext (by omega)
            exact hfirst earlier hlt hname
      | added habsent =>
          have hfirst : First slot := by
            intro other hlt hname
            obtain ⟨first, hle, hfirst, heq⟩ := exists_first other
            have hmem : Item.entry first ∈ map :=
              (hholds _).mpr ⟨first, rfl, lt_of_le_of_lt hle hlt, hfirst⟩
            have hdiffer := habsent _ hmem
            rw [← Bool.not_eq_true, sameName_iff] at hdiffer
            exact hdiffer (heq.trans hname)
          intro item
          rw [Finset.mem_insert, hholds item]
          constructor
          · rintro (rfl | ⟨other, hitem, hother, hfirst⟩)
            · exact ⟨slot, rfl, by omega, hfirst⟩
            · exact ⟨other, hitem, by omega, hfirst⟩
          · rintro ⟨other, hitem, hother, hother_first⟩
            by_cases heq : other = slot
            · subst heq
              exact .inl hitem
            · have hne : (other : Nat) ≠ slot := fun h => heq (Fin.ext h)
              exact .inr ⟨other, hitem, by omega, hother_first⟩

theorem addEntries_holds {count : Nat} {hcount : count ≤ entries.length}
    (hstands : Stands table ∅) {after : HashTable (Item entries)}
    (hadd : addEntries memory table count hcount = .ok after) :
    ∃ map, Stands after map ∧ Holds count map := by
  induction count generalizing after with
  | zero =>
      obtain rfl : table = after := Except.ok.inj hadd
      refine ⟨∅, hstands, ?_⟩
      intro item
      simp
  | succ count ih =>
      rw [addEntries] at hadd
      cases hbefore : addEntries memory table count
          (Nat.le_of_succ_le hcount) with
      | error failure =>
          rw [hbefore] at hadd
          cases hadd
      | ok before =>
          rw [hbefore] at hadd
          obtain ⟨map, hstands', hholds⟩ := ih hbefore
          have hlast : addEntryToHashTable memory before ⟨count, hcount⟩ =
              .ok after := hadd
          exact addEntryToHashTable_holds hstands' hholds hlast

/-- The table of `parseZipArchive`, if it could be made. -/
theorem hashEntries_holds (hlength : entries.length < 2 ^ 16)
    (hhash : hashEntries memory entries = .ok table) :
    ∃ map, Stands table map ∧ Holds entries.length map := by
  have hsize : (mzHashSize (UInt32.ofNat entries.length)).toNat =
      entries.length * LOAD_DENOM / LOAD_NUMER + 1 := by
    have hone : (1 : UInt32).toNat = 1 := rfl
    have hcount : entries.length % 2 ^ 32 = entries.length :=
      Nat.mod_eq_of_lt (by omega)
    have hproduct : entries.length * 8 % 2 ^ 32 = entries.length * 8 :=
      Nat.mod_eq_of_lt (by omega)
    simp only [mzHashSize, LOAD_DENOM, LOAD_NUMER, UInt32.toNat_add,
      UInt32.toNat_div, UInt32.toNat_mul, UInt32.toNat_ofNat', hone, hcount]
    rw [Nat.mod_eq_of_lt (show 8 < 2 ^ 32 by decide),
      Nat.mod_eq_of_lt (show 5 < 2 ^ 32 by decide), hproduct]
    exact Nat.mod_eq_of_lt (by omega)
  simp only [LOAD_DENOM, LOAD_NUMER] at hsize
  generalize hinitial : mzHashSize (UInt32.ofNat entries.length) = initialSize
    at hsize
  have hne : initialSize ≠ 0 := by
    rintro rfl
    simp at hsize
  rw [hashEntries, hinitial] at hhash
  obtain ⟨-, herror⟩ | hcreate :=
    mzHashTableCreate_cases (Item entries) memory hne
  · rw [herror] at hhash
    cases hhash
  · rw [hcreate] at hhash
    have hpos : 0 < initialSize.toNat := by omega
    have hle : initialSize.toNat ≤ 2 ^ 31 := by omega
    obtain ⟨k, hk⟩ := roundUpPower2_power hpos hle
    exact addEntries_holds (represents_empty hk) hhash

/-- The entry that is found is the first with the name. -/
theorem find_of_holds {archive : ZipArchive}
    {map : Finset (Item archive.pEntries)}
    (hstands : Stands archive.pHash map)
    (hholds : Holds archive.pEntries.length map) (name : Bytes) :
    mzFindZipEntry memory archive name =
      .ok (archive.pEntries.find? fun entry => entry.fileName == name) := by
  obtain ⟨found, after, hlookup⟩ : ∃ found after,
      mzHashTableLookup memory sameName archive.pHash
        (computeHash (Item.name name : Item archive.pEntries).fileName)
        (.name name) false = .ok (found, after) :=
    lookup_returns hstands (.name name)
  obtain ⟨map', hstep, -⟩ := lookup_step hstands (.name name) false hlookup
  have hfound : found.bind Item.entry? =
      archive.pEntries.find? fun entry => entry.fileName == name := by
    cases hstep with
    | present hmem hkey =>
        obtain ⟨slot, rfl, -, hfirst⟩ := (hholds _).mp hmem
        have hname : archive.pEntries[slot].fileName = name :=
          (sameName_iff _ _).mp hkey
        symm
        apply List.find?_eq_some_iff_getElem.mpr
        refine ⟨by simpa using hname, slot, slot.isLt, rfl, ?_⟩
        intro other hlt
        have hother := hfirst ⟨other, by omega⟩ hlt
        rw [hname] at hother
        simpa using hother
    | absent habsent =>
        symm
        apply List.find?_eq_none.mpr
        intro entry hentry hname
        obtain ⟨i, hi, rfl⟩ := List.mem_iff_getElem.mp hentry
        obtain ⟨first, -, hfirst, heq⟩ := exists_first ⟨i, hi⟩
        have hmem : Item.entry first ∈ map :=
          (hholds _).mpr ⟨first, rfl, first.isLt, hfirst⟩
        have hdiffer := habsent _ hmem
        rw [← Bool.not_eq_true, sameName_iff] at hdiffer
        have hname' : archive.pEntries[i].fileName = name := by
          simpa using hname
        exact hdiffer (heq.trans hname')
  have hrun : mzHashTableLookup memory sameName archive.pHash
      (computeHash name) (.name name) false = .ok (found, after) := hlookup
  rw [mzFindZipEntry, hrun, ← hfound]
  rfl

end Table

section Archive

variable {memory : Nat → Bool} {map : MemMapping} {archive : ZipArchive}

theorem parseZipArchive_cases
    (hparse : parseZipArchive memory map = some archive) :
    ∃ plain, MinZip.parseZipArchive map = some plain ∧
      plain.pEntries = archive.pEntries ∧
      hashEntries memory archive.pEntries = .ok archive.pHash := by
  obtain ⟨plain, hplain, hrest⟩ := Option.bind_eq_some_iff.mp hparse
  obtain ⟨pHash, hhash, heq⟩ := Option.bind_eq_some_iff.mp hrest
  obtain rfl : ⟨plain.pEntries, pHash⟩ = archive := Option.some_inj.mp heq
  refine ⟨plain, hplain, rfl, ?_⟩
  cases hhash' : hashEntries memory plain.pEntries with
  | error failure => simp [hhash', Except.toOption] at hhash
  | ok table =>
      rw [hhash'] at hhash
      rw [Option.some_inj.mp hhash]

/-- In a parsed archive, a name is found where the entries have it first. -/
theorem find_parsed (hparse : parseZipArchive memory map = some archive)
    (name : Bytes) :
    mzFindZipEntry memory archive name =
      .ok (archive.pEntries.find? fun entry => entry.fileName == name) := by
  obtain ⟨plain, hplain, hentries, hhash⟩ := parseZipArchive_cases hparse
  obtain ⟨records, -, hcount, harranged, -⟩ := parseZipArchive_arranged hplain
  have hlength : archive.pEntries.length < 2 ^ 16 := by
    obtain ⟨fields, hfields, hfst⟩ := Option.map_eq_some_iff.mp hcount
    rw [← hentries, harranged.perm.length_eq, ← hfst]
    exact endFields_lt hfields
  obtain ⟨found, hstands, hholds⟩ := hashEntries_holds hlength hhash
  exact find_of_holds hstands hholds name

/-- The list that stands for the hash table answers with the first entry of a
name. -/
theorem find_foldl_addEntry (table entries : List ZipEntry) (name : Bytes) :
    (entries.foldl MinZip.addEntryToHashTable table).find?
        (fun entry => entry.fileName == name) =
      (table ++ entries).find? fun entry => entry.fileName == name := by
  induction entries generalizing table with
  | nil => rw [List.foldl_nil, List.append_nil]
  | cons entry entries ih =>
      rw [List.foldl_cons, ih, MinZip.addEntryToHashTable]
      split
      next hany =>
        -- An entry of the same name is in the table already.
        obtain ⟨earlier, hmem, hname⟩ := List.any_eq_true.mp hany
        rw [List.find?_append, List.find?_append, List.find?_cons]
        cases heq : entry.fileName == name with
        | false => rfl
        | true =>
            have hfound : (table.find? fun entry =>
                entry.fileName == name).isSome = true := by
              rw [List.find?_isSome]
              exact ⟨earlier, hmem, by rwa [eq_of_beq hname]⟩
            obtain ⟨first, hfirst⟩ := Option.isSome_iff_exists.mp hfound
            rw [hfirst]
            rfl
      next => rw [List.append_assoc, List.singleton_append]

/-- Lookups go as in the model without the hash table. -/
theorem mzFindZipEntry_refines
    (hparse : parseZipArchive memory map = some archive) :
    ∃ plain, MinZip.parseZipArchive map = some plain ∧
      plain.pEntries = archive.pEntries ∧
      ∀ name, mzFindZipEntry memory archive name =
        .ok (MinZip.mzFindZipEntry plain name) := by
  obtain ⟨plain, hplain, hentries, -⟩ := parseZipArchive_cases hparse
  obtain ⟨-, -, -, -, htable⟩ := parseZipArchive_arranged hplain
  refine ⟨plain, hplain, hentries, ?_⟩
  intro name
  rw [find_parsed hparse, MinZip.mzFindZipEntry, htable, find_foldl_addEntry,
    List.nil_append, hentries]

/-- A parsed archive holds the records of its central directory, sorted by
name, and a lookup answers with the first record of the name. -/
theorem parsed_directory (memory : Nat → Bool) (map : MemMapping)
    {archive : ZipArchive}
    (hparse : parseZipArchive memory map = some archive) :
    ∃ records, directoryRecords map = some records ∧
      (endFields map.file).map Prod.fst = some records.length ∧
      archive.pEntries.Perm records ∧
      archive.pEntries.Pairwise (fun entry next =>
        entry.fileName ≤ next.fileName) ∧
      ∀ name, mzFindZipEntry memory archive name =
        .ok (records.find? fun record => record.fileName == name) := by
  obtain ⟨plain, hplain, hentries, -⟩ := parseZipArchive_cases hparse
  obtain ⟨records, hrecords, hcount, harranged, -⟩ :=
    parseZipArchive_arranged hplain
  rw [hentries] at harranged
  refine ⟨records, hrecords, hcount, harranged.perm, harranged.sorted, ?_⟩
  intro name
  rw [find_parsed hparse, harranged.first]

end Archive

namespace ZipLookupWitness

/-- A record of the directory, with a name of one character. -/
def recordOf (crc name : UInt8) : Bytes :=
  [0x50, 0x4b, 1, 2] ++ List.replicate 12 0 ++ [crc, 0, 0, 0] ++
    List.replicate 8 0 ++ [1, 0] ++ List.replicate 16 0 ++ [name]

/-- Three records, of which the first and the last have one name. -/
def twice : MemMapping where
  addr := 0x40000000
  file :=
    [0x50, 0x4b, 3, 4] ++ List.replicate 26 0 ++
      (recordOf 1 98 ++ recordOf 2 97 ++ recordOf 3 98) ++
      ([0x50, 0x4b, 5, 6, 0, 0, 0, 0, 3, 0, 3, 0] ++
        [141, 0, 0, 0, 30, 0, 0, 0] ++ [0, 0])

/-- The name of two records leads to the first of them. -/
theorem twice_first :
    ∃ archive record, parseZipArchive (fun _ => true) twice = some archive ∧
      mzFindZipEntry (fun _ => true) archive [98] = .ok (some record) ∧
      record.crc32 = 1 := by
  have hsome : (parseZipArchive (fun _ => true) twice).isSome = true := by
    decide +kernel
  obtain ⟨archive, hparse⟩ := Option.isSome_iff_exists.mp hsome
  obtain ⟨records, hrecords, -, -, -, hfind⟩ :=
    parsed_directory (fun _ => true) twice hparse
  have hfirst : ((directoryRecords twice).bind fun records =>
      (records.find? fun record => record.fileName == [98]).map
        ZipEntry.crc32) = some 1 := by
    decide +kernel
  rw [hrecords] at hfirst
  obtain ⟨record, hrecord, hcrc⟩ := Option.map_eq_some_iff.mp hfirst
  exact ⟨archive, record, hparse, by rw [hfind, hrecord], hcrc⟩

end ZipLookupWitness

end Hashed

end MinZip

end MetaOS
