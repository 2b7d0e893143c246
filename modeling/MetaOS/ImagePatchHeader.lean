/-
imgpatch.c: the records in the header of an image patch.  What the loop over
the chunks reads of a record is apart from what it does with it, so that
applying a patch is reading its records and applying each in turn.
-/
import MetaOS.ImagePatch

namespace MetaOS

namespace ImagePatch

open Bytes Bspatch TracedRun

/-- What a record says.  The data of a raw chunk stand in the patch, from
`start` on. -/
inductive Record where
  | normal (extent : Extent)
  | raw (start dataLen : Int)
  | deflate (extent : Extent) (expandedLen targetLen : Nat)
      (level method windowBits memLevel strategy : Int)

section Reading

variable (patch : Memory)

def readNormal (pos : Int) : TracedRun Access (Record × Int) := do
  let header := pos
  let pos := int32 (pos + 24)
  if patch.data.length < pos then
    .fail "failed to read chunk %d normal header data"
  else
    .touch (.patch header 24)
    pure (.normal (readExtent patch header), pos)

def readRaw (pos : Int) : TracedRun Access (Record × Int) := do
  let header := pos
  let pos := int32 (pos + 4)
  if patch.data.length < pos then
    .fail "failed to read chunk %d raw header data"
  else
    .touch (.patch header 4)
    let dataLen := read4 patch header
    if patch.data.length < int32 (pos + dataLen) then
      .fail "failed to read chunk %d raw data"
    else pure (.raw pos dataLen, int32 (pos + dataLen))

def readDeflate (pos : Int) : TracedRun Access (Record × Int) := do
  let header := pos
  let pos := int32 (pos + 60)
  if patch.data.length < pos then
    .fail "failed to read chunk %d deflate header data"
  else
    .touch (.patch header 60)
    pure (.deflate (readExtent patch header)
      (uint32 (read8 patch (header + 24)))
      (uint32 (read8 patch (header + 32)))
      (read4 patch (header + 40)) (read4 patch (header + 44))
      (read4 patch (header + 48)) (read4 patch (header + 52))
      (read4 patch (header + 56)), pos)

def readType (type pos : Int) : TracedRun Access (Record × Int) :=
  if type = CHUNK_NORMAL then readNormal patch pos
  else if type = CHUNK_RAW then readRaw patch pos
  else if type = CHUNK_DEFLATE then readDeflate patch pos
  else .fail "patch chunk %d is unknown type %d"

/-- A record from `pos` on, and the position behind it. -/
def readRecord (pos : Int) : TracedRun Access (Record × Int) := do
  if patch.data.length < int32 (pos + 4) then
    .fail "failed to read chunk %d record"
  else
    .touch (.patch pos 4)
    readType patch (read4 patch pos) (int32 (pos + 4))

def readRecords : (count : Nat) → (pos : Int) →
    TracedRun Access (List Record × Int)
  | 0, pos => pure ([], pos)
  | count + 1, pos => do
      let (record, pos) ← readRecord patch pos
      let (records, pos) ← readRecords count pos
      pure (record :: records, pos)

/-- All records, and the end of the header. -/
def readHeader : TracedRun Access (List Record × Int) := do
  if patch.data.length < 12 then
    .fail "patch too short to contain header"
  else
    .touch (.patch 0 8)
    if patch.read 0 8 = ofString "IMGDIFF2" then
      .touch (.patch 8 4)
      readRecords patch (read4 patch 8).toNat 12
    else .fail "corrupt patch file header (magic number)"

end Reading

section Applying

variable (lib : Decoder) (zlib : Zlib) (patch : Memory) (fuel : Nat)
  (malloc : Malloc) (old : Memory) {sink : Sink}

def applyRecord : Record → Out sink → TracedRun Access (Out sink)
  | .normal extent, out => do
      let (_, out) ← applyBSDiffPatch lib patch fuel malloc old extent out
      pure out
  | .raw start dataLen, out => writeRaw patch start dataLen out
  | .deflate extent expandedLen _ level method windowBits memLevel strategy,
      out => do
      let expanded ← inflateSource zlib malloc old extent.srcStart
        extent.srcLen expandedLen
      let target ← applyExpanded lib patch fuel malloc expanded
        extent.patchOffset
      let size ← tempSize malloc expandedLen
      deflateLoop zlib size fuel
        (zlib.deflateInit2 level method windowBits memLevel strategy target)
        out

/-- Apply records to the output of those before them. -/
def applyRecords (records : List Record) (out : Out sink) :
    TracedRun Access (Out sink) :=
  records.foldlM (fun out record =>
    applyRecord lib zlib patch fuel malloc old record out) out

/-- A pass of the loop reads a record and applies it. -/
theorem applyChunk_eq (pos : Int) (out : Out sink) :
    applyChunk lib zlib patch fuel malloc old pos out = (do
      let (record, pos) ← readRecord patch pos
      let out ← applyRecord lib zlib patch fuel malloc old record out
      pure (pos, out)) := by
  unfold applyChunk readRecord
  split
  · rfl
  rw [bind_assoc]
  congr 1
  funext _
  unfold applyType readType
  split
  · unfold normalChunk readNormal
    dsimp only
    split
    · rfl
    · simp only [bind_assoc, pure_bind, applyRecord]
  split
  · unfold rawChunk readRaw
    dsimp only
    split
    · rfl
    · simp only [bind_assoc]
      congr 1
      funext _
      split
      · rfl
      · simp only [pure_bind, applyRecord]
  split
  · unfold deflateChunk readDeflate deflateSetup deflateStart
    dsimp only
    split
    · rfl
    · simp only [bind_assoc, pure_bind, applyRecord]
  · rfl

/-- Where the records can be read, each of them is applied to the output of
those before it. -/
theorem applyChunks_of_read {count : Nat} {pos next : Int}
    {records : List Record}
    (hread : (readRecords patch count pos).result =
      some (.ok (records, next))) (out : Out sink) :
    (applyChunks lib zlib patch fuel malloc old count pos out).result =
      (applyRecords lib zlib patch fuel malloc old records out).result := by
  induction count generalizing pos records out with
  | zero =>
      obtain ⟨rfl, rfl⟩ : [] = records ∧ pos = next := by
        simpa [readRecords] using hread
      rfl
  | succ count ih =>
      obtain ⟨⟨record, middle⟩, hrecord, hread⟩ := ok_of_bind hread
      obtain ⟨⟨others, last⟩, hothers, hread⟩ := ok_of_bind hread
      obtain ⟨rfl, rfl⟩ : record :: others = records ∧ last = next := by
        simpa using hread
      rw [applyChunks, applyChunk_eq, applyRecords, List.foldlM_cons,
        bind_assoc, result_bind_of_ok hrecord]
      simp only [bind_assoc, pure_bind]
      exact result_bind_congr (ih hothers)

/-- Where a patch is applied, the records have been read. -/
theorem read_of_applyChunks {count : Nat} {pos : Int} {out out' : Out sink}
    (hok : (applyChunks lib zlib patch fuel malloc old count pos out).result =
      some (.ok out')) :
    ∃ records next,
      (readRecords patch count pos).result = some (.ok (records, next)) := by
  induction count generalizing pos out with
  | zero => exact ⟨[], pos, rfl⟩
  | succ count ih =>
      rw [applyChunks, applyChunk_eq] at hok
      simp only [bind_assoc, pure_bind] at hok
      obtain ⟨⟨record, middle⟩, hrecord, hok⟩ := ok_of_bind hok
      obtain ⟨applied, -, hok⟩ := ok_of_bind hok
      obtain ⟨records, next, hrecords⟩ := ih hok
      refine ⟨record :: records, next, ?_⟩
      rw [readRecords, result_bind_of_ok hrecord]
      dsimp only
      rw [result_bind_of_ok hrecords]
      rfl

/-- Applying a patch whose header can be read is applying its records. -/
theorem applyImagePatch_of_read {records : List Record} {next : Int}
    (hread : (readHeader patch).result = some (.ok (records, next)))
    (token : sink.State) :
    (applyImagePatch lib zlib patch fuel malloc old token).result =
      (applyRecords lib zlib patch fuel malloc old records
        (Out.start token)).result := by
  rw [readHeader] at hread
  rw [applyImagePatch]
  by_cases hshort : patch.data.length < 12
  · rw [if_pos hshort] at hread
    simp at hread
  rw [if_neg hshort, touch_bind_result] at hread ⊢
  by_cases hmagic : patch.read 0 8 = ofString "IMGDIFF2"
  · rw [if_pos hmagic, touch_bind_result] at hread ⊢
    exact applyChunks_of_read lib zlib patch fuel malloc old hread _
  · rw [if_neg hmagic] at hread
    simp at hread

theorem read_of_applyImagePatch {token : sink.State} {out : Out sink}
    (hok : (applyImagePatch lib zlib patch fuel malloc old token).result =
      some (.ok out)) :
    ∃ records next,
      (readHeader patch).result = some (.ok (records, next)) := by
  rw [applyImagePatch] at hok
  rw [readHeader]
  by_cases hshort : patch.data.length < 12
  · rw [if_pos hshort] at hok
    simp at hok
  rw [if_neg hshort, touch_bind_result] at hok ⊢
  by_cases hmagic : patch.read 0 8 = ofString "IMGDIFF2"
  · rw [if_pos hmagic, touch_bind_result] at hok ⊢
    exact read_of_applyChunks lib zlib patch fuel malloc old hok
  · rw [if_neg hmagic] at hok
    simp at hok

theorem applyImagePatch_ok_iff {token : sink.State} {out : Out sink} :
    (applyImagePatch lib zlib patch fuel malloc old token).result =
        some (.ok out) ↔
      ∃ records next,
        (readHeader patch).result = some (.ok (records, next)) ∧
        (applyRecords lib zlib patch fuel malloc old records
          (Out.start token)).result = some (.ok out) := by
  constructor
  · intro hok
    obtain ⟨records, next, hread⟩ :=
      read_of_applyImagePatch lib zlib patch fuel malloc old hok
    rw [applyImagePatch_of_read lib zlib patch fuel malloc old hread] at hok
    exact ⟨records, next, hread, hok⟩
  · rintro ⟨records, next, hread, hok⟩
    rwa [applyImagePatch_of_read lib zlib patch fuel malloc old hread]

end Applying

end ImagePatch

end MetaOS
