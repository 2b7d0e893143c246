/-
imgdiff.c `main`: the header of an image patch and the patches behind it.  The
size of the header is computed in one loop and its records are written in
another; `ApplyImagePatch` reads them in a third.
-/
import MetaOS.ImagePatchHeader
import MetaOS.Imgdiff

namespace MetaOS

namespace Imgdiff

open Bytes Bspatch ImagePatch

/-- `(value >> shift) & 0xff` as a character. -/
def byteOf (value : Int) (shift : Nat) : UInt8 :=
  UInt8.ofNat ((value >>> shift) % 256).toNat

def write4 (value : Int) : Bytes :=
  [byteOf value 0, byteOf value 8, byteOf value 16, byteOf value 24]

def write8 (value : Int) : Bytes :=
  [byteOf value 0, byteOf value 8, byteOf value 16, byteOf value 24,
    byteOf value 32, byteOf value 40, byteOf value 48, byteOf value 56]

def ChunkType.code : ChunkType → Int
  | .normal => CHUNK_NORMAL
  | .deflate => CHUNK_DEFLATE
  | .raw => CHUNK_RAW

/-- A target chunk as `MakePatch` leaves it, and its patch.  The patch of a raw
chunk is the data themselves. -/
structure TargetChunk where
  type : ChunkType
  sourceStart : UInt32
  sourceLen : UInt32
  sourceUncompressedLen : UInt32
  len : UInt32
  level : Int32
  method : Int32
  windowBits : Int32
  memLevel : Int32
  strategy : Int32
  patchData : Bytes

namespace TargetChunk

variable (chunk : TargetChunk)

/-- What the chunk adds to `total_header_size`. -/
def headerSize : Nat :=
  4 + match chunk.type with
    | .normal => 8 * 3
    | .deflate => 8 * 5 + 4 * 5
    | .raw => 4 + chunk.patchData.length

/-- The record of the chunk, if its patch goes to `offset`. -/
def header (offset : Nat) : Bytes :=
  write4 chunk.type.code ++
    match chunk.type with
    | .normal =>
        write8 chunk.sourceStart.toNat ++ (write8 chunk.sourceLen.toNat ++
          write8 offset)
    | .deflate =>
        write8 chunk.sourceStart.toNat ++ (write8 chunk.sourceLen.toNat ++
          write8 offset) ++
        (write8 chunk.sourceUncompressedLen.toNat ++
          (write8 chunk.len.toNat ++ (write4 chunk.level.toInt ++
            (write4 chunk.method.toInt ++ (write4 chunk.windowBits.toInt ++
              (write4 chunk.memLevel.toInt ++
                write4 chunk.strategy.toInt))))))
    | .raw => write4 (int32 chunk.patchData.length) ++ chunk.patchData

/-- What is appended to the headers. -/
def appended : Bytes :=
  if chunk.type ≠ .raw then chunk.patchData else []

/-- `offset` after the chunk. -/
def nextOffset (offset : Nat) : Nat :=
  match chunk.type with
  | .raw => offset
  | _ => uint32 (offset + chunk.patchData.length)

end TargetChunk

def totalHeaderSize (chunks : List TargetChunk) : Nat :=
  chunks.foldl (fun total chunk => uint32 (total + chunk.headerSize)) 12

def writeHeaders : (offset : Nat) → List TargetChunk → Bytes
  | _, [] => []
  | offset, chunk :: chunks =>
      chunk.header offset ++ writeHeaders (chunk.nextOffset offset) chunks

def writePatches (chunks : List TargetChunk) : Bytes :=
  chunks.flatMap TargetChunk.appended

/-- What is written before the first patch is appended. -/
def patchHeader (chunks : List TargetChunk) : Bytes :=
  ofString "IMGDIFF2" ++ (write4 chunks.length ++
    writeHeaders (totalHeaderSize chunks) chunks)

/-- The patch file. -/
def patchFile (chunks : List TargetChunk) : Bytes :=
  patchHeader chunks ++ writePatches chunks

/-- The record that is written of a chunk.  It begins at `pos`, and the patch
goes to `offset`; the data of a raw chunk follow their length. -/
def TargetChunk.record (chunk : TargetChunk) (pos offset : Nat) : Record :=
  match chunk.type with
  | .normal =>
      .normal ⟨chunk.sourceStart.toNat, chunk.sourceLen.toNat, offset⟩
  | .deflate =>
      .deflate ⟨chunk.sourceStart.toNat, chunk.sourceLen.toNat, offset⟩
        chunk.sourceUncompressedLen.toNat chunk.len.toNat
        chunk.level.toInt chunk.method.toInt chunk.windowBits.toInt
        chunk.memLevel.toInt chunk.strategy.toInt
  | .raw => .raw (pos + 8 : Nat) chunk.patchData.length

def records : (pos offset : Nat) → List TargetChunk → List Record
  | _, _, [] => []
  | pos, offset, chunk :: chunks =>
      chunk.record pos offset ::
        records (pos + chunk.headerSize) (chunk.nextOffset offset) chunks

/-- The offset that a record gives is that of the chunk's patch. -/
def Delimits (file : Bytes) (chunk : TargetChunk) : Record → Prop
  | .normal extent => file.StandsAt extent.patchOffset chunk.patchData
  | .deflate extent _ _ _ _ _ _ _ =>
      file.StandsAt extent.patchOffset chunk.patchData
  | .raw start dataLen =>
      dataLen = chunk.patchData.length ∧
        file.StandsAt start.toNat chunk.patchData

theorem write4_eq (value : Int) : write4 value = ofLeInt 4 value := by
  calc write4 value = ofLeInt 4 (value >>> (0 : Nat)) := by
        simp only [ofLeInt_shift]
        rfl
    _ = ofLeInt 4 value := by rw [Int.shiftRight_zero]

theorem write8_eq (value : Int) : write8 value = ofLeInt 8 value := by
  calc write8 value = ofLeInt 8 (value >>> (0 : Nat)) := by
        simp only [ofLeInt_shift]
        rfl
    _ = ofLeInt 8 value := by rw [Int.shiftRight_zero]

@[simp] theorem write4_length (value : Int) : (write4 value).length = 4 := rfl

@[simp] theorem write8_length (value : Int) : (write8 value).length = 8 := rfl

theorem leInt_write4 {value : Int} (hlow : -2 ^ 31 ≤ value)
    (hhigh : value < 2 ^ 31) : leInt (write4 value) = value := by
  rw [write4_eq, leInt_ofLeInt]
  exact Int.bmod_eq_of_le (by norm_num; omega) (by norm_num; omega)

theorem leInt_write8 {value : Int} (hlow : -2 ^ 63 ≤ value)
    (hhigh : value < 2 ^ 63) : leInt (write8 value) = value := by
  rw [write8_eq, leInt_ofLeInt]
  exact Int.bmod_eq_of_le (by norm_num; omega) (by norm_num; omega)

theorem header_length (chunk : TargetChunk) (offset : Nat) :
    (chunk.header offset).length = chunk.headerSize := by
  unfold TargetChunk.header TargetChunk.headerSize
  cases chunk.type <;> simp

theorem nextOffset_lt {offset : Nat} (chunk : TargetChunk)
    (hoffset : offset < 2 ^ 32) : chunk.nextOffset offset < 2 ^ 32 := by
  unfold TargetChunk.nextOffset
  cases chunk.type
  · exact uint32_lt _
  · exact uint32_lt _
  · exact hoffset

theorem nextOffset_eq {offset : Nat} {chunk : TargetChunk}
    (hfits : offset + chunk.appended.length < 2 ^ 32) :
    chunk.nextOffset offset = offset + chunk.appended.length := by
  unfold TargetChunk.nextOffset
  unfold TargetChunk.appended at hfits ⊢
  cases htype : chunk.type <;> simp [htype] at hfits ⊢ <;>
    exact_mod_cast uint32_of_lt hfits

theorem writeHeaders_length (offset : Nat) (chunks : List TargetChunk) :
    (writeHeaders offset chunks).length =
      (chunks.map TargetChunk.headerSize).sum := by
  induction chunks generalizing offset with
  | nil => rfl
  | cons chunk chunks ih =>
      rw [writeHeaders, List.length_append, header_length, ih, List.map_cons,
        List.sum_cons]

theorem length_le_writeHeaders (offset : Nat) (chunks : List TargetChunk) :
    chunks.length ≤ (writeHeaders offset chunks).length := by
  induction chunks generalizing offset with
  | nil => exact Nat.zero_le _
  | cons chunk chunks ih =>
      have hrest := ih (chunk.nextOffset offset)
      have hsize : 4 ≤ chunk.headerSize := Nat.le_add_right 4 _
      rw [writeHeaders, List.length_append, header_length, List.length_cons]
      omega

theorem totalHeaderSize_eq {chunks : List TargetChunk}
    (hfits : 12 + (chunks.map TargetChunk.headerSize).sum < 2 ^ 32) :
    totalHeaderSize chunks =
      12 + (chunks.map TargetChunk.headerSize).sum := by
  suffices hloop : ∀ total : Nat,
      total + (chunks.map TargetChunk.headerSize).sum < 2 ^ 32 →
      chunks.foldl (fun total chunk => uint32 (total + chunk.headerSize))
          total =
        total + (chunks.map TargetChunk.headerSize).sum from
    hloop 12 hfits
  clear hfits
  induction chunks with
  | nil => intro total _; rfl
  | cons chunk chunks ih =>
      intro total hfits
      rw [List.map_cons, List.sum_cons] at hfits ⊢
      have hsum : uint32 (total + chunk.headerSize) =
          total + chunk.headerSize := by
        rw [← Nat.cast_add]
        exact uint32_of_lt (by omega)
      rw [List.foldl_cons, hsum, ih _ (by omega)]
      omega

/-- The header is as long as the first loop says. -/
theorem patchHeader_length {chunks : List TargetChunk}
    (hfits : (patchHeader chunks).length < 2 ^ 32) :
    (patchHeader chunks).length = totalHeaderSize chunks := by
  have hlength : (patchHeader chunks).length =
      12 + (chunks.map TargetChunk.headerSize).sum := by
    rw [patchHeader, List.length_append, List.length_append, write4_length,
      writeHeaders_length]
    have hmagic : (ofString "IMGDIFF2").length = 8 := by decide
    omega
  rw [hlength, totalHeaderSize_eq (by omega)]

section Reading

variable {patch : Memory} {pos : Nat}

theorem read_of_standsAt {bytes : Bytes}
    (hstands : patch.data.StandsAt pos bytes) :
    patch.read pos bytes.length = bytes := by
  rw [read_eq_window hstands.1]
  exact hstands.2

theorem read4_of_standsAt {value : Int}
    (hstands : patch.data.StandsAt pos (write4 value))
    (hlow : -2 ^ 31 ≤ value) (hhigh : value < 2 ^ 31) :
    read4 patch pos = value := by
  have hread := read_of_standsAt hstands
  rw [write4_length] at hread
  rw [read4, hread, leInt_write4 hlow hhigh]

theorem read4_int32 {value : Int32}
    (hstands : patch.data.StandsAt pos (write4 value.toInt)) :
    read4 patch pos = value.toInt :=
  read4_of_standsAt hstands value.le_toInt value.toInt_lt

theorem read8_of_standsAt {value : Nat}
    (hstands : patch.data.StandsAt pos (write8 value))
    (hvalue : value < 2 ^ 32) : uint32 (read8 patch pos) = value := by
  have hread := read_of_standsAt hstands
  rw [write8_length] at hread
  rw [read8, hread, leInt_write8 (by omega) (by omega), uint32_of_lt hvalue]

theorem readExtent_of_standsAt {srcStart srcLen patchOffset : Nat}
    (hstands : patch.data.StandsAt pos (write8 srcStart ++
      (write8 srcLen ++ write8 patchOffset)))
    (hstart : srcStart < 2 ^ 32) (hlen : srcLen < 2 ^ 32)
    (hoffset : patchOffset < 2 ^ 32) :
    readExtent patch pos = ⟨srcStart, srcLen, patchOffset⟩ := by
  simp only [standsAt_append, write8_length, Nat.add_assoc] at hstands
  obtain ⟨hfirst, hsecond, hthird⟩ := hstands
  have hreadStart := read8_of_standsAt hfirst hstart
  have hreadLen := read8_of_standsAt hsecond hlen
  have hreadOffset := read8_of_standsAt hthird hoffset
  push_cast at hreadLen hreadOffset
  rw [readExtent, hreadStart, hreadLen, hreadOffset]

/-- Within the patch no position overflows. -/
theorem int32_of_le {n : Nat} (hle : pos + n ≤ patch.data.length) :
    int32 ((pos : Int) + n) = (pos + n : Nat) :=
  int32_add (lt_of_le_of_lt hle patch.size_lt)

end Reading

section Records

variable {patch : Memory} {pos offset : Nat}

theorem readNormal_of_standsAt {srcStart srcLen : Nat}
    (hstands : patch.data.StandsAt pos
      (write8 srcStart ++ (write8 srcLen ++ write8 offset)))
    (hstart : srcStart < 2 ^ 32) (hlen : srcLen < 2 ^ 32)
    (hoffset : offset < 2 ^ 32) :
    (readNormal patch pos).result =
      some (.ok (.normal ⟨srcStart, srcLen, offset⟩, (pos + 24 : Nat))) := by
  have hin : pos + 24 ≤ patch.data.length := by simpa using hstands.1
  have hnext : int32 ((pos : Int) + 24) = (pos + 24 : Nat) := int32_of_le hin
  rw [readNormal, hnext, if_neg (by omega), TracedRun.touch_bind_result,
    readExtent_of_standsAt hstands hstart hlen hoffset]
  rfl

theorem readRaw_of_standsAt {data : Bytes}
    (hstands : patch.data.StandsAt pos
      (write4 (int32 data.length) ++ data)) :
    (readRaw patch pos).result =
      some (.ok (.raw (pos + 4 : Nat) data.length,
        (pos + 4 + data.length : Nat))) := by
  have hin := hstands.1
  have hsize := patch.size_lt
  simp only [List.length_append, write4_length] at hin
  have hlength := (standsAt_append.mp hstands).1
  rw [int32_natCast (by omega)] at hlength
  have hread : read4 patch pos = data.length :=
    read4_of_standsAt hlength (by omega) (by omega)
  have hmiddle : int32 ((pos : Int) + 4) = (pos + 4 : Nat) :=
    @int32_add pos 4 (by omega)
  have hnext : int32 (((pos + 4 : Nat) : Int) + data.length) =
      (pos + 4 + data.length : Nat) := int32_add (by omega)
  rw [readRaw, hmiddle, if_neg (by omega), TracedRun.touch_bind_result,
    hread]
  simp only [hnext]
  rw [if_neg (by omega)]
  rfl

theorem readDeflate_of_standsAt {srcStart srcLen expandedLen targetLen : Nat}
    {level method windowBits memLevel strategy : Int32}
    (hstands : patch.data.StandsAt pos
      (write8 srcStart ++ (write8 srcLen ++ write8 offset) ++
        (write8 expandedLen ++ (write8 targetLen ++ (write4 level.toInt ++
          (write4 method.toInt ++ (write4 windowBits.toInt ++
            (write4 memLevel.toInt ++ write4 strategy.toInt))))))))
    (hstart : srcStart < 2 ^ 32) (hlen : srcLen < 2 ^ 32)
    (hoffset : offset < 2 ^ 32) (hexpandedLen : expandedLen < 2 ^ 32)
    (htargetLen : targetLen < 2 ^ 32) :
    (readDeflate patch pos).result =
      some (.ok (.deflate ⟨srcStart, srcLen, offset⟩ expandedLen targetLen
        level.toInt method.toInt windowBits.toInt memLevel.toInt
        strategy.toInt, (pos + 60 : Nat))) := by
  have hin : pos + 60 ≤ patch.data.length := by simpa using hstands.1
  have hnext : int32 ((pos : Int) + 60) = (pos + 60 : Nat) := int32_of_le hin
  obtain ⟨hextent, hfields⟩ := standsAt_append.mp hstands
  simp only [standsAt_append, write8_length, write4_length,
    List.length_append, Nat.add_assoc, Nat.reduceAdd] at hfields
  obtain ⟨hexpanded, htarget, hlevel, hmethod, hwindowBits, hmemLevel,
    hstrategy⟩ := hfields
  have hreadExpanded := read8_of_standsAt hexpanded hexpandedLen
  have hreadTarget := read8_of_standsAt htarget htargetLen
  have hreadLevel := read4_int32 hlevel
  have hreadMethod := read4_int32 hmethod
  have hreadWindowBits := read4_int32 hwindowBits
  have hreadMemLevel := read4_int32 hmemLevel
  have hreadStrategy := read4_int32 hstrategy
  rw [readDeflate, hnext, if_neg (by omega), TracedRun.touch_bind_result,
    readExtent_of_standsAt hextent hstart hlen hoffset]
  push_cast at *
  rw [hreadExpanded, hreadTarget, hreadLevel, hreadMethod, hreadWindowBits,
    hreadMemLevel, hreadStrategy]
  rfl

theorem readType_code (type : ChunkType) (pos : Int) :
    readType patch type.code pos =
      match type with
      | .normal => readNormal patch pos
      | .deflate => readDeflate patch pos
      | .raw => readRaw patch pos := by
  cases type with
  | normal => exact if_pos rfl
  | deflate =>
      exact (if_neg (by decide)).trans ((if_neg (by decide)).trans
        (if_pos rfl))
  | raw => exact (if_neg (by decide)).trans (if_pos rfl)

/-- A record of the header is read back, up to its end. -/
theorem readRecord_of_standsAt {chunk : TargetChunk}
    (hstands : patch.data.StandsAt pos (chunk.header offset))
    (hoffset : offset < 2 ^ 32) :
    (readRecord patch pos).result =
      some (.ok (chunk.record pos offset, (pos + chunk.headerSize : Nat))) := by
  obtain ⟨htype, hbody⟩ := standsAt_append.mp hstands
  rw [write4_length] at hbody
  have hin : pos + 4 ≤ patch.data.length := by simpa using htype.1
  have hnext : int32 ((pos : Int) + 4) = (pos + 4 : Nat) := int32_of_le hin
  have hcode : read4 patch pos = chunk.type.code :=
    read4_of_standsAt htype (by cases chunk.type <;> decide)
      (by cases chunk.type <;> decide)
  rw [readRecord, hnext, if_neg (by omega), TracedRun.touch_bind_result,
    hcode, readType_code]
  unfold TargetChunk.record TargetChunk.headerSize
  cases hkind : chunk.type with
  | normal =>
      simp only [hkind] at hbody ⊢
      have hread := readNormal_of_standsAt hbody chunk.sourceStart.toNat_lt
        chunk.sourceLen.toNat_lt hoffset
      rwa [Nat.add_assoc] at hread
  | deflate =>
      simp only [hkind] at hbody ⊢
      have hread := readDeflate_of_standsAt hbody chunk.sourceStart.toNat_lt
        chunk.sourceLen.toNat_lt hoffset chunk.sourceUncompressedLen.toNat_lt
        chunk.len.toNat_lt
      rwa [Nat.add_assoc] at hread
  | raw =>
      simp only [hkind] at hbody ⊢
      have hread := readRaw_of_standsAt hbody
      rwa [Nat.add_assoc (pos + 4), Nat.add_assoc pos 4 4,
        Nat.add_assoc pos] at hread

/-- So are all of them. -/
theorem readRecords_of_standsAt {chunks : List TargetChunk}
    (hstands : patch.data.StandsAt pos (writeHeaders offset chunks))
    (hoffset : offset < 2 ^ 32) :
    (readRecords patch chunks.length pos).result =
      some (.ok (records pos offset chunks,
        (pos + (writeHeaders offset chunks).length : Nat))) := by
  induction chunks generalizing pos offset with
  | nil => rfl
  | cons chunk chunks ih =>
      obtain ⟨hfirst, hrest⟩ := standsAt_append.mp hstands
      rw [header_length] at hrest
      rw [List.length_cons, readRecords, TracedRun.result_bind_of_ok
        (readRecord_of_standsAt hfirst hoffset)]
      dsimp only
      rw [TracedRun.result_bind_of_ok
        (ih hrest (nextOffset_lt chunk hoffset)), writeHeaders,
        List.length_append, header_length, ← Nat.add_assoc]
      rfl

end Records

/-- Every offset in the records is that of a patch. -/
theorem records_delimit {file : Bytes} {pos offset : Nat}
    {chunks : List TargetChunk} (hfits : file.length < 2 ^ 32)
    (hheaders : file.StandsAt pos (writeHeaders offset chunks))
    (hpatches : file.StandsAt offset (writePatches chunks)) :
    List.Forall₂ (Delimits file) chunks (records pos offset chunks) := by
  induction chunks generalizing pos offset with
  | nil => exact .nil
  | cons chunk chunks ih =>
      obtain ⟨hheader, hheaders⟩ := standsAt_append.mp hheaders
      obtain ⟨hpatch, hpatches⟩ := standsAt_append.mp hpatches
      have hle := hpatch.1
      rw [header_length] at hheaders
      rw [← nextOffset_eq (by omega)] at hpatches
      refine .cons ?_ (ih hheaders hpatches)
      unfold TargetChunk.header at hheader
      unfold TargetChunk.appended at hpatch
      unfold TargetChunk.record
      cases hkind : chunk.type with
      | normal => simpa [Delimits, hkind] using hpatch
      | deflate => simpa [Delimits, hkind] using hpatch
      | raw =>
          simp only [hkind, standsAt_append, write4_length,
            Nat.add_assoc] at hheader
          exact ⟨rfl, hheader.2.2⟩

section Header

variable {chunks : List TargetChunk}

theorem ofString_magic_length : (ofString "IMGDIFF2").length = 8 := by decide

/-- Where the parts of the file stand. -/
theorem patchFile_standsAt (chunks : List TargetChunk) :
    (patchFile chunks).StandsAt 0 (ofString "IMGDIFF2") ∧
      (patchFile chunks).StandsAt 8 (write4 chunks.length) ∧
      (patchFile chunks).StandsAt 12
        (writeHeaders (totalHeaderSize chunks) chunks) ∧
      (patchFile chunks).StandsAt (patchHeader chunks).length
        (writePatches chunks) := by
  obtain ⟨hheader, hpatches⟩ :=
    standsAt_append.mp (standsAt_zero (patchFile chunks))
  obtain ⟨hmagic, hbody⟩ := standsAt_append.mp hheader
  obtain ⟨hcount, hheaders⟩ := standsAt_append.mp hbody
  rw [ofString_magic_length, Nat.zero_add] at hcount hheaders
  rw [Nat.zero_add] at hpatches
  exact ⟨hmagic, hcount, hheaders, hpatches⟩

theorem readHeader_of_standsAt {patch : Memory} {offset : Nat}
    (hmagic : patch.data.StandsAt 0 (ofString "IMGDIFF2"))
    (hcount : patch.data.StandsAt 8 (write4 chunks.length))
    (hheaders : patch.data.StandsAt 12 (writeHeaders offset chunks))
    (hoffset : offset < 2 ^ 32) :
    (ImagePatch.readHeader patch).result =
      some (.ok (records 12 offset chunks,
        (12 + (writeHeaders offset chunks).length : Nat))) := by
  have hin := hheaders.1
  have hsize := patch.size_lt
  have hchunks := length_le_writeHeaders offset chunks
  have hreadMagic : patch.read 0 8 = ofString "IMGDIFF2" :=
    read_of_standsAt hmagic
  have hreadCount : read4 patch 8 = chunks.length :=
    read4_of_standsAt hcount (by omega) (by omega)
  rw [ImagePatch.readHeader, if_neg (by omega), TracedRun.touch_bind_result,
    if_pos hreadMagic, TracedRun.touch_bind_result, hreadCount,
    Int.toNat_natCast]
  exact readRecords_of_standsAt hheaders hoffset

/-- An image patch that can be loaded is read as it was written.  Its header
is as long as computed.  All records are read back, up to the end of the
header, and the patches stand where they say.  Applying the patch is applying
these records. -/
theorem patchFile_readsBack (chunks : List TargetChunk) (around : Int → UInt8)
    (hfits : (patchFile chunks).length < 2 ^ 31) :
    let patch : Memory := ⟨⟨patchFile chunks, around⟩, hfits⟩
    let written := records 12 (totalHeaderSize chunks) chunks
    (patchHeader chunks).length = totalHeaderSize chunks ∧
      (ImagePatch.readHeader patch).result =
        some (.ok (written, (patchHeader chunks).length)) ∧
      List.Forall₂ (Delimits (patchFile chunks)) chunks written ∧
      ∀ lib zlib fuel malloc old (sink : Sink) (token : sink.State),
        (applyImagePatch lib zlib patch fuel malloc old token).result =
          (applyRecords lib zlib patch fuel malloc old written
            (Out.start token)).result := by
  intro patch written
  obtain ⟨hmagic, hcount, hheaders, hpatches⟩ := patchFile_standsAt chunks
  have hin := hpatches.1
  have hlength : (patchHeader chunks).length =
      12 + (writeHeaders (totalHeaderSize chunks) chunks).length := by
    rw [patchHeader, List.length_append, ofString_magic_length,
      List.length_append, write4_length]
    omega
  have htotal : (patchHeader chunks).length = totalHeaderSize chunks :=
    patchHeader_length (by omega)
  have hread : (ImagePatch.readHeader patch).result =
      some (.ok (written, (patchHeader chunks).length)) := by
    rw [hlength]
    exact readHeader_of_standsAt hmagic hcount hheaders (by omega)
  rw [htotal] at hpatches
  exact ⟨htotal, hread, records_delimit (by omega) hheaders hpatches,
    fun lib zlib fuel malloc old _ token =>
      applyImagePatch_of_read lib zlib patch fuel malloc old hread token⟩

end Header

namespace ImgdiffHeaderWitness

/-- A chunk of each kind.  The deflate chunk has no zlib header. -/
def mixed : List TargetChunk :=
  [⟨.normal, 0, 100, 0, 90, 0, 0, 0, 0, 0, [1, 2, 3]⟩,
    ⟨.raw, 0, 0, 0, 2, 0, 0, 0, 0, 0, [7, 8]⟩,
    ⟨.deflate, 100, 50, 200, 210, 9, 8, -15, 8, 0, [4, 5]⟩]

theorem mixed_fits : (patchFile mixed).length < 2 ^ 31 := by decide

theorem mixed_readsBack :
    (ImagePatch.readHeader
      ⟨⟨patchFile mixed, fun _ => 0⟩, mixed_fits⟩).result =
        some (.ok ([.normal ⟨0, 100, 114⟩, .raw 48 2,
          .deflate ⟨100, 50, 117⟩ 200 210 9 8 (-15) 8 0], 114)) :=
  (patchFile_readsBack mixed (fun _ => 0) mixed_fits).2.1

end ImgdiffHeaderWitness

end Imgdiff

end MetaOS
