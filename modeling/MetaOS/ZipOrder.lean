/-
minzip/Zip.c: the order of the entries of a parsed archive.

The binary search of `parseZipArchive` keeps the entries in the byte order of
their names, and of the records with one name the first stays in front.
-/
import MetaOS.ZipBounds
import MetaOS.SortedInsertion

namespace MetaOS

namespace MinZip

open SortedInsertion

/-- The comparison of the binary search is the order of byte strings, in which
a prefix comes before what continues it. -/
theorem nameDiff_neg_iff (entry name : Bytes) :
    nameDiff entry name < 0 ↔ entry < name := by
  induction entry generalizing name with
  | nil =>
      cases name with
      | nil => simp [nameDiff]
      | cons b name =>
          simp only [nameDiff, List.nil_lt_cons, iff_true, List.length_cons]
          omega
  | cons a entry ih =>
      cases name with
      | nil =>
          simp only [nameDiff, List.not_lt_nil, iff_false, List.length_cons]
          omega
      | cons b name =>
          rw [nameDiff, List.cons_lt_cons_iff]
          by_cases hab : a = b
          · subst hab
            simp [ih]
          · rw [if_neg hab, UInt8.lt_iff_toNat_lt]
            simp [hab]

theorem nameDiff_swap (entry name : Bytes) :
    nameDiff entry name = -nameDiff name entry := by
  induction entry generalizing name with
  | nil => cases name <;> simp [nameDiff]
  | cons a entry ih =>
      cases name with
      | nil => simp [nameDiff]
      | cons b name =>
          rw [nameDiff, nameDiff]
          by_cases hab : a = b
          · rw [if_pos hab, if_pos hab.symm, ih]
          · rw [if_neg hab, if_neg (Ne.symm hab)]
            omega

theorem nameDiff_pos_iff (entry name : Bytes) :
    0 < nameDiff entry name ↔ name < entry := by
  rw [nameDiff_swap, ← nameDiff_neg_iff]
  omega

theorem nameDiff_eq_zero_iff (entry name : Bytes) :
    nameDiff entry name = 0 ↔ entry = name := by
  have hlt := nameDiff_neg_iff entry name
  have hgt := nameDiff_pos_iff entry name
  constructor
  · intro hzero
    apply Std.le_antisymm
    · exact Std.not_lt.mp (mt hgt.mpr (by omega))
    · exact Std.not_lt.mp (mt hlt.mpr (by omega))
  · rintro rfl
    have hirrefl : ¬entry < entry := Std.lt_irrefl
    have hlow := mt hlt.mp hirrefl
    have hhigh := mt hgt.mp hirrefl
    omega

/-- The halving ends at a slot for the name. -/
theorem searchSlot_slot {entries : List ZipEntry} {name : Bytes}
    (hsorted : Sorted ZipEntry.fileName entries) {fuel : Nat}
    {low high : Int}
    (hnarrow : Narrowed ZipEntry.fileName entries name low high)
    (hfuel : high - low < fuel) :
    Slot ZipEntry.fileName entries name
      (searchSlot entries name fuel low high + 1).toNat := by
  induction fuel generalizing low high with
  | zero => exact hnarrow.slot (by omega)
  | succ fuel ih =>
      rw [searchSlot]
      by_cases hle : low ≤ high
      · rw [if_pos hle]
        have hnonneg := hnarrow.low_nonneg
        have hhigh := hnarrow.high_lt
        obtain ⟨mid, hmid⟩ : ∃ mid : Nat, low + (high - low) / 2 = mid :=
          Int.eq_ofNat_of_zero_le (by omega)
        have hlt : mid < entries.length := by omega
        dsimp only
        rw [hmid, Int.toNat_natCast, List.getElem?_eq_getElem hlt,
          Option.map_some, Option.getD_some]
        by_cases hneg : nameDiff entries[mid].fileName name < 0
        · rw [if_pos hneg]
          apply ih _ (by omega)
          apply hnarrow.right hsorted hlt (by omega)
          exact (nameDiff_neg_iff _ _).mp hneg
        · rw [if_neg hneg]
          by_cases hpos : 0 < nameDiff entries[mid].fileName name
          · rw [if_pos hpos]
            apply ih _ (by omega)
            apply hnarrow.left hsorted hlt (by omega)
            exact (nameDiff_pos_iff _ _).mp hpos
          · rw [if_neg hpos]
            apply hsorted.slot hlt
            exact (nameDiff_eq_zero_iff _ _).mp (by omega)
      · rw [if_neg hle]
        exact hnarrow.slot (by omega)

/-- One record more. -/
theorem insertEntry_arranged {came entries : List ZipEntry}
    (harranged : Arranged ZipEntry.fileName came entries) (entry : ZipEntry) :
    Arranged ZipEntry.fileName (came ++ [entry])
      (insertEntry entries entry) := by
  apply harranged.insert
  exact searchSlot_slot harranged.sorted (narrowed_all _ _ _) (by omega)

/-- The loop over the directory arranges the records it comes to. -/
theorem parseDirectory_arranged {map : MemMapping} {count ptr : Nat}
    {came entries result : List ZipEntry}
    (harranged : Arranged ZipEntry.fileName came entries)
    (hparse : parseDirectory map count ptr entries = some result) :
    ∃ records,
      (recordPtrs map.file count ptr).mapM (parseRecord map) = some records ∧
      records.length = count ∧
      Arranged ZipEntry.fileName (came ++ records) result := by
  induction count generalizing ptr came entries with
  | zero =>
      obtain rfl : entries = result := by
        simpa [parseDirectory] using hparse
      exact ⟨[], rfl, rfl, by simpa using harranged⟩
  | succ count ih =>
      rw [parseDirectory] at hparse
      cases hrecord : parseRecord map ptr with
      | none => simp [hrecord] at hparse
      | some entry =>
          rw [hrecord] at hparse
          obtain ⟨records, hrecords, hlength, hresult⟩ :=
            ih (insertEntry_arranged harranged entry) hparse
          refine ⟨entry :: records, ?_, by rw [List.length_cons, hlength], ?_⟩
          · rw [recordPtrs, List.mapM_cons, hrecord]
            simp [nextRecord, hrecords]
          · simpa using hresult

/-- The records of the central directory, in its order. -/
def directoryRecords (map : MemMapping) : Option (List ZipEntry) := do
  let (numEntries, cdOffset) ← endFields map.file
  (recordPtrs map.file numEntries cdOffset).mapM (parseRecord map)

/-- A parsed archive holds the records of the directory, arranged. -/
theorem parseZipArchive_arranged {map : MemMapping} {archive : ZipArchive}
    (hparse : parseZipArchive map = some archive) :
    ∃ records, directoryRecords map = some records ∧
      (endFields map.file).map Prod.fst = some records.length ∧
      Arranged ZipEntry.fileName records archive.pEntries ∧
      archive.pHash = archive.pEntries.foldl addEntryToHashTable [] := by
  unfold parseZipArchive at hparse
  split at hparse
  next => cases hparse
  next =>
    split at hparse
    next => cases hparse
    next numEntries cdOffset hfields =>
      split at hparse
      next => cases hparse
      next =>
        obtain ⟨entries, hentries, rfl⟩ := Option.map_eq_some_iff.mp hparse
        obtain ⟨records, hrecords, hlength, harranged⟩ :=
          parseDirectory_arranged (arranged_nil _) hentries
        refine ⟨records, ?_, ?_, by simpa using harranged, rfl⟩
        · rw [directoryRecords, hfields]
          exact hrecords
        · rw [hfields, hlength]
          rfl

theorem endFields_lt {file : Bytes} {numEntries cdOffset : Nat}
    (hfields : endFields file = some (numEntries, cdOffset)) :
    numEntries < 2 ^ 16 := by
  obtain ⟨ptr, -, heq⟩ := Option.map_eq_some_iff.mp hfields
  obtain ⟨rfl, -⟩ := Prod.mk.inj heq
  exact leAt_lt file (ptr + ENDSUB) 2

end MinZip

end MetaOS
