/-
What `MakePatch` makes of a pair of chunks: a record that gives the piece of
the target that the chunk stands for.

Of `zlib` two things are relied on.  `deflate` with `Z_FINISH` comes to the end
of the stream, and the stream does not depend on how much room a call has; and
a single call of `inflate` with room for all of the data gives what the loops
of `imgdiff` have found.
-/
import MetaOS.ChunkTiling
import MetaOS.ImagePatchRecords
import MetaOS.ImgdiffPatches

namespace MetaOS

namespace Imgdiff

open Bytes Bspatch ImagePatch Filter

/-- With either level, `deflate` gives this stream for the data. -/
def DeflatesTo (zlib : Zlib) (level : Int) (data output : Bytes) : Prop :=
  ∀ room, BUFFER_SIZE ≤ room → ∃ fuel, deflateOutput zlib room fuel
    (zlib.deflateInit2 level Z_DEFLATED (-15) 8 Z_DEFAULT_STRATEGY data) =
      some output

/-- `deflate` comes to an end, and its stream does not depend on the room. -/
def Deflates (zlib : Zlib) : Prop :=
  ∀ level, level = 6 ∨ level = 9 → ∀ data, ∃ output,
    DeflatesTo zlib level data output

/-- One call of `inflate` is enough where there is room for all of the data. -/
def InflatesAtOnce (flate : Decoder) (zlib : Zlib) : Prop :=
  ∀ piece data, InflatesTo flate piece data →
    (zlib.inflate piece data.length).init = Z_OK ∧
      (zlib.inflate piece data.length).ret = Z_STREAM_END ∧
      (zlib.inflate piece data.length).output = data

section Reading

theorem vadd_block (n : Nat) (p : Pointer) : (n +ᵥ p).block = p.block := rfl

theorem vadd_offset (n : Nat) (p : Pointer) :
    (n +ᵥ p).offset = p.offset + n := rfl

theorem block_read_add (block : Block) (start : Int) (a b : Nat) :
    block.read start (a + b) = block.read start a ++
      block.read (start + a) b := by
  simp only [Block.read, List.range_add, List.map_append, List.map_map]
  congr 2
  funext i
  simp only [Function.comp_apply]
  congr 1
  omega

theorem Loaded.read_add (file : Loaded) (p : Pointer) (a b : Nat) :
    file.read p (a + b) = file.read p a ++ file.read (a +ᵥ p) b := by
  unfold Loaded.read
  rw [vadd_block, vadd_offset]
  cases p.block with
  | zero => exact block_read_add _ _ _ _
  | succ block => exact block_read_add _ _ _ _

@[simp] theorem Loaded.read_length (file : Loaded) (p : Pointer) (len : Nat) :
    (file.read p len).length = len := by
  unfold Loaded.read
  cases p.block with
  | zero => exact Bspatch.read_length _ _ _
  | succ block => exact Bspatch.read_length _ _ _

end Reading

section Reconstruction

variable {zlib : Zlib} {file : Loaded} {chunk : ImageChunk Pointer}

/-- The loop finds out if the stream is what stands in the file. -/
theorem tryLoop_of_output {fuel : Nat} {strm : Option zlib.State}
    {output : Bytes}
    (houtput : deflateOutput zlib BUFFER_SIZE fuel strm = some output)
    (p : Nat) :
    tryLoop zlib file chunk fuel strm p =
      some (decide (file.read (p +ᵥ chunk.deflateData) output.length =
        output ∧ p + output.length = chunk.deflateLen)) := by
  induction fuel generalizing strm output p with
  | zero => cases houtput
  | succ fuel ih =>
      rw [deflateOutput] at houtput
      rw [tryLoop]
      generalize zlib.deflate strm BUFFER_SIZE = deflated at houtput ⊢
      split at houtput
      · next hended =>
          cases houtput
          by_cases hsame : deflated.output =
              file.read (p +ᵥ chunk.deflateData) deflated.output.length
          · simp [hended, hsame.symm]
          · rw [if_pos hsame, decide_eq_false (fun hboth =>
              hsame hboth.1.symm)]
      · next hended =>
          obtain ⟨rest, hrest, rfl⟩ := Option.map_eq_some_iff.mp houtput
          have hread := Loaded.read_add file (p +ᵥ chunk.deflateData)
            deflated.output.length rest.length
          rw [vadd_vadd, Nat.add_comm deflated.output.length p] at hread
          rw [List.length_append, hread]
          by_cases hsame : deflated.output =
              file.read (p +ᵥ chunk.deflateData) deflated.output.length
          · rw [if_neg (not_not.mpr hsame), if_neg hended, ih hrest,
              ← hsame, Nat.add_assoc]
            simp only [List.append_cancel_left_eq]
          · have hdiffer : file.read (p +ᵥ chunk.deflateData)
                deflated.output.length ++
                  file.read ((p + deflated.output.length) +ᵥ
                    chunk.deflateData) rest.length ≠
                deflated.output ++ rest := by
              intro heq
              exact hsame (List.append_inj_left heq
                (file.read_length _ _)).symm
            rw [if_pos hsame, decide_eq_false fun hboth => hdiffer hboth.1]

/-- A level with which the compressed data of the chunk can be had back. -/
structure Reproduces (zlib : Zlib) (file : Loaded)
    (chunk : ImageChunk Pointer) (level : Int) : Prop where
  level_eq : level = 6 ∨ level = 9
  stream : DeflatesTo zlib level (file.read chunk.data chunk.len)
    (file.read chunk.deflateData chunk.deflateLen)

/-- An attempt ends, and what it finds does not depend on the fuel. -/
theorem tryReconstruction_ends (hdeflates : Deflates zlib) (file : Loaded)
    (chunk : ImageChunk Pointer) {level : Int}
    (hlevel : level = 6 ∨ level = 9) :
    ∃ found : Bool, (∀ᶠ fuel in atTop,
        tryReconstruction zlib file fuel chunk level = some found) ∧
      (found = true → Reproduces zlib file chunk level) := by
  obtain ⟨output, houtput⟩ := hdeflates level hlevel
    (file.read chunk.data chunk.len)
  obtain ⟨enough, henough⟩ := houtput BUFFER_SIZE le_rfl
  refine ⟨decide (file.read chunk.deflateData output.length = output ∧
    output.length = chunk.deflateLen), ?_, ?_⟩
  · filter_upwards [eventually_ge_atTop enough] with fuel hfuel
    rw [tryReconstruction,
      tryLoop_of_output (deflateOutput_mono hfuel henough), zero_vadd,
      Nat.zero_add]
  · intro hfound
    obtain ⟨hread, hlength⟩ := of_decide_eq_true hfound
    refine ⟨hlevel, ?_⟩
    rw [← hlength, hread]
    exact houtput

/-- So does `ReconstructDeflateChunk`. -/
theorem reconstructDeflateChunk_ends (hdeflates : Deflates zlib)
    (file : Loaded) (chunk : ImageChunk Pointer) :
    ∃ level : Option Int, (∀ᶠ fuel in atTop,
        reconstructDeflateChunk zlib file fuel chunk = some level) ∧
      ∀ found ∈ level, Reproduces zlib file chunk found := by
  by_cases hdeflate : chunk.type = .deflate
  · obtain ⟨six, hsix, hsix'⟩ :=
      tryReconstruction_ends hdeflates file chunk (Or.inl rfl)
    obtain ⟨nine, hnine, hnine'⟩ :=
      tryReconstruction_ends hdeflates file chunk (Or.inr rfl)
    refine ⟨if six then some 6 else if nine then some 9 else none, ?_, ?_⟩
    · filter_upwards [hsix, hnine] with fuel hsix hnine
      rw [reconstructDeflateChunk, if_neg (not_not.mpr hdeflate), hsix,
        hnine]
      cases six <;> cases nine <;> rfl
    · intro found hfound
      cases six with
      | true =>
          cases hfound
          exact hsix' rfl
      | false =>
          cases nine with
          | true =>
              cases hfound
              exact hnine' rfl
          | false => cases hfound
  · refine ⟨none, Eventually.of_forall fun fuel => ?_, fun _ hfound => ?_⟩
    · rw [reconstructDeflateChunk, if_pos hdeflate]
    · cases hfound

end Reconstruction

section Patches

/-- A chunk stands for a piece of its file, and its data are those bytes or
what they inflate to. -/
structure Situated (flate : Decoder) (loaded : Loaded) (file : Bytes)
    (chunk : ImageChunk Pointer) : Prop where
  not_raw : chunk.type ≠ .raw
  inside : chunk.start + chunk.extent ≤ file.length
  piece : loaded.read chunk.extentData chunk.extent =
    file.window chunk.start chunk.extent
  inflated : chunk.type = .deflate →
    InflatesTo flate (file.window chunk.start chunk.extent)
      (loaded.read chunk.data chunk.len)
  len_lt : chunk.len < 2 ^ 31

/-- The piece of the file. -/
def pieceOf (file : Bytes) (chunk : ImageChunk Pointer) : Bytes :=
  file.window chunk.start chunk.extent

section Situated

variable {flate : Decoder} {loaded : Loaded} {file : Bytes}
  {chunk : ImageChunk Pointer}

theorem Situated.normal (hchunk : Situated flate loaded file chunk)
    (htype : chunk.type = .normal) :
    chunk.start + chunk.len ≤ file.length ∧
      loaded.read chunk.data chunk.len = pieceOf file chunk ∧
      pieceOf file chunk = file.window chunk.start chunk.len := by
  have hextent : chunk.extent = chunk.len := by
    rw [ImageChunk.extent, htype]
  have hdata : chunk.extentData = chunk.data := by
    rw [ImageChunk.extentData, htype]
  rw [pieceOf, ← hextent, ← hdata]
  exact ⟨hchunk.inside, hchunk.piece, rfl⟩

theorem Situated.deflate (hchunk : Situated flate loaded file chunk)
    (htype : chunk.type = .deflate) :
    chunk.start + chunk.deflateLen ≤ file.length ∧
      loaded.read chunk.deflateData chunk.deflateLen = pieceOf file chunk ∧
      pieceOf file chunk = file.window chunk.start chunk.deflateLen ∧
      InflatesTo flate (pieceOf file chunk)
        (loaded.read chunk.data chunk.len) := by
  have hextent : chunk.extent = chunk.deflateLen := by
    rw [ImageChunk.extent, htype]
  have hdata : chunk.extentData = chunk.deflateData := by
    rw [ImageChunk.extentData, htype]
  rw [pieceOf, ← hextent, ← hdata]
  exact ⟨hchunk.inside, hchunk.piece, rfl, hchunk.inflated htype⟩

theorem Situated.type_cases (hchunk : Situated flate loaded file chunk) :
    chunk.type = .normal ∨ chunk.type = .deflate := by
  have hnotRaw := hchunk.not_raw
  cases htype : chunk.type with
  | normal => exact Or.inl rfl
  | deflate => exact Or.inr rfl
  | raw => exact absurd htype hnotRaw

end Situated

/-- The index of a source chunk, if it has been made. -/
def CacheGood (cached : Option (List Nat)) (old : Bytes) : Prop :=
  ∀ index ∈ cached, Bsdiff.Indexes index old

theorem indexOf_good (fresh : Fresh) {cached : Option (List Nat)}
    {old : Bytes} (hcached : CacheGood cached old) :
    ∃ index, indexOf fresh cached old = some index ∧
      Bsdiff.Indexes index old := by
  cases cached with
  | some index => exact ⟨index, rfl, hcached index rfl⟩
  | none =>
      obtain ⟨hI, hV⟩ := (fresh old.length).2
      obtain ⟨index, hsort, harray⟩ := Bsdiff.qsufsort_run old _ hI hV
      refine ⟨index, ?_, harray.indexes⟩
      rw [indexOf, hsort, Option.map_some, List.map_map]
      congr 1
      exact (List.map_congr_left fun _ _ => Int.toNat_natCast _).trans
        (List.map_id index)

/-- How a chunk of the target is decoded on the device: the libraries, the
memory there and the old file. -/
structure Device where
  bzip2 : Decoder
  zlib : Zlib
  malloc : Malloc
  old : Memory
  sink : Sink

/-- The record of the chunk gives this piece, wherever its patch stands. -/
def GivesPiece (device : Device) (chunk : TargetChunk) (output : Bytes) :
    Prop :=
  ∀ (patch : Memory) (pos offset : Nat),
    Delimits patch.data chunk (chunk.record pos offset) →
    Gives device.bzip2 device.zlib patch device.malloc device.old device.sink
      (chunk.record pos offset) output

/-- What is relied on. -/
structure Relies (flate : Decoder) (compress : Bytes → Bytes)
    (device : Device) : Prop where
  lossless : ∃ laws : device.bzip2.Laws, ∀ data trailing : Bytes,
    laws.data device.bzip2.init (compress data ++ trailing) = data
  inflates : InflatesAtOnce flate device.zlib
  deflates : Deflates device.zlib
  malloc : ∀ size, (device.malloc size).isSome
  takes : device.sink.TakesAll

variable {flate : Decoder} {compress : Bytes → Bytes} {device : Device}
  {src tgt : Loaded} {tgtFile : Bytes} {s t : ImageChunk Pointer}

theorem standsAt_offset {patch : Memory} {offset : Nat} {data : Bytes}
    (hstands : patch.data.StandsAt offset data) :
    int32 (offset : Int) = offset := by
  have hin := hstands.1
  have hsize := patch.size_lt
  exact int32_natCast (by omega)

theorem givesPiece_raw (hrelies : Relies flate compress device)
    {output : Bytes} (houtput : tgt.read t.data t.len = output) :
    GivesPiece device (rawTarget tgt t) output := by
  intro patch pos offset hdelimits
  obtain ⟨-, hstands⟩ := hdelimits
  rw [Int.toNat_natCast] at hstands
  have hgives : Gives device.bzip2 device.zlib patch device.malloc device.old
      device.sink (.raw (pos + 8 : Nat) (tgt.read t.data t.len).length)
      (tgt.read t.data t.len) := gives_raw hrelies.takes hstands
  rw [← houtput]
  exact hgives

theorem ofNat_toNat {n : Nat} (hn : n < 2 ^ 31) :
    (UInt32.ofNat n).toNat = n :=
  UInt32.toNat_ofNat_of_lt' (Nat.lt_trans hn (by decide))

/-- What `bsdiff` gives is applied to the piece of the source. -/
theorem givesPiece_normal (hrelies : Relies flate compress device)
    (hs : Situated flate src device.old.data s) (htype : s.type = .normal)
    {len : Nat} {new patchData : Bytes} (hnew : new.length < 2 ^ 31)
    {index : List Nat}
    (hindex : Bsdiff.Indexes index (src.read s.data s.len))
    (hbsdiff : Bsdiff.bsdiff index (src.read s.data s.len) new compress =
      some patchData) :
    GivesPiece device ⟨.normal, UInt32.ofNat s.start, UInt32.ofNat s.len, 0,
      UInt32.ofNat len, 0, 0, 0, 0, 0, patchData⟩ new := by
  intro patch pos offset hdelimits
  obtain ⟨laws, hlossless⟩ := hrelies.lossless
  obtain ⟨hinside, hpiece, hwindow⟩ := hs.normal htype
  have hsize := device.old.size_lt
  have hread := src.read_length s.data s.len
  obtain ⟨file, hfile, hpart⟩ := Bsdiff.bspatch_part hlossless hindex
    (by omega) hnew
  rw [hbsdiff] at hfile
  cases hfile
  simp only [TargetChunk.record, Delimits] at hdelimits ⊢
  refine gives_normal hrelies.takes ?_
  have hstart : (UInt32.ofNat s.start).toNat = s.start :=
    ofNat_toNat (by omega)
  have hlen : (UInt32.ofNat s.len).toNat = s.len := ofNat_toNat (by omega)
  obtain ⟨bound, hbound⟩ := hpart device.malloc patch offset device.old
    s.start (hrelies.malloc _) hdelimits (by omega)
    (by rw [hread, hpiece, hwindow])
  filter_upwards [eventually_ge_atTop bound] with fuel hfuel
  rw [applyExtent]
  dsimp only
  rw [hstart, hlen, int32_natCast (by omega), standsAt_offset hdelimits]
  rw [hread] at hbound
  exact hbound fuel hfuel

theorem ofInt_level {level : Int} (hlevel : level = 6 ∨ level = 9) :
    (Int32.ofInt level).toInt = level := by
  rcases hlevel with rfl | rfl <;> decide

/-- The patch is applied to what the source inflates to, and `deflate` with
the level that was found gives the piece again. -/
theorem givesPiece_deflate (hrelies : Relies flate compress device)
    (hs : Situated flate src device.old.data s) (htype : s.type = .deflate)
    {level : Int} {len : Nat} {new output patchData : Bytes}
    (hlevel : level = 6 ∨ level = 9) (hnew : new.length < 2 ^ 31)
    (hstream : DeflatesTo device.zlib level new output)
    {index : List Nat}
    (hindex : Bsdiff.Indexes index (src.read s.data s.len))
    (hbsdiff : Bsdiff.bsdiff index (src.read s.data s.len) new compress =
      some patchData) :
    GivesPiece device ⟨.deflate, UInt32.ofNat s.start,
      UInt32.ofNat s.deflateLen, UInt32.ofNat s.len, UInt32.ofNat len,
      Int32.ofInt level, Int32.ofInt Z_DEFLATED, -15, 8,
      Int32.ofInt Z_DEFAULT_STRATEGY, patchData⟩ output := by
  intro patch pos offset hdelimits
  obtain ⟨laws, hlossless⟩ := hrelies.lossless
  obtain ⟨hinside, -, hwindow, hinflated⟩ := hs.deflate htype
  have hsize := device.old.size_lt
  have hslen := hs.len_lt
  have hread := src.read_length s.data s.len
  obtain ⟨file, hfile, hpart⟩ := Bsdiff.bspatch_part hlossless hindex
    (by omega) hnew
  rw [hbsdiff] at hfile
  cases hfile
  simp only [TargetChunk.record, Delimits] at hdelimits ⊢
  have hstart : (UInt32.ofNat s.start).toNat = s.start :=
    ofNat_toNat (by omega)
  have hlen : (UInt32.ofNat s.deflateLen).toNat = s.deflateLen :=
    ofNat_toNat (by omega)
  have hexpanded : (UInt32.ofNat s.len).toNat =
      (src.read s.data s.len).length := by
    rw [hread, ofNat_toNat hslen]
  have hmethod : (Int32.ofInt Z_DEFLATED).toInt = Z_DEFLATED := by decide
  have hwindowBits : (-15 : Int32).toInt = -15 := by decide
  have hmemLevel : (8 : Int32).toInt = 8 := by decide
  have hstrategy : (Int32.ofInt Z_DEFAULT_STRATEGY).toInt =
      Z_DEFAULT_STRATEGY := by decide
  rw [hstart, hlen, hexpanded, ofInt_level hlevel, hmethod, hwindowBits,
    hmemLevel, hstrategy]
  obtain ⟨bound, hbound⟩ := hpart device.malloc patch offset
    ⟨src.read s.data s.len, fun _ => 0⟩ 0 (hrelies.malloc _) hdelimits
    (by simp) (Bytes.window_zero_length _)
  refine gives_deflate hrelies.takes hrelies.malloc (by omega)
    (inflateSource_result hrelies.malloc ?_) ?_ hstream
  · rw [read_eq_window (by simpa using hinside)]
    rw [hwindow] at hinflated
    exact hrelies.inflates _ _ hinflated
  · filter_upwards [eventually_ge_atTop bound] with fuel hfuel
    refine applyExpanded_result ?_
    rw [int32_natCast (by omega), standsAt_offset hdelimits]
    exact hbound fuel hfuel

/-- The level that the chunk is given is one that gives it back. -/
def LevelGood (zlib : Zlib) (tgt : Loaded) (t : ImageChunk Pointer)
    (level : Int) : Prop :=
  t.type = .deflate → Reproduces zlib tgt t level

/-- `MakePatch` ends, and its patch gives the piece of the target. -/
theorem makePatch_spec (hrelies : Relies flate compress device) (fresh : Fresh)
    (hs : Situated flate src device.old.data s)
    (ht : Situated flate tgt tgtFile t) (htypes : s.type = t.type)
    {cached : Option (List Nat)}
    (hcached : CacheGood cached (src.read s.data s.len)) {level : Int}
    (hlevel : LevelGood device.zlib tgt t level) :
    ∃ target index,
      makePatch compress fresh src tgt cached s t level =
          some (target, index) ∧
        CacheGood index (src.read s.data s.len) ∧
        GivesPiece device target (pieceOf tgtFile t) := by
  have hraw : t.type = .normal →
      GivesPiece device (rawTarget tgt t) (pieceOf tgtFile t) :=
    fun htype => givesPiece_raw hrelies (ht.normal htype).2.1
  rw [makePatch]
  split
  · next hshort => exact ⟨_, _, rfl, hcached, hraw hshort.1⟩
  obtain ⟨index, hindexOf, hindex⟩ := indexOf_good fresh hcached
  have htlen := ht.len_lt
  have hnew : (tgt.read t.data t.len).length < 2 ^ 31 := by
    rw [Loaded.read_length]
    exact htlen
  obtain ⟨laws, hlossless⟩ := hrelies.lossless
  have hslen : (src.read s.data s.len).length < 2 ^ 31 := by
    rw [Loaded.read_length]
    exact hs.len_lt
  obtain ⟨patchData, hbsdiff, -⟩ := Bsdiff.bspatch_part hlossless hindex hslen
    hnew
  have hindex' : CacheGood (some index) (src.read s.data s.len) := by
    intro other hother
    cases hother
    exact hindex
  dsimp only
  rw [hindexOf, Option.bind_eq_bind, Option.bind_some, hbsdiff,
    Option.bind_eq_bind, Option.bind_some]
  split
  · next hlong => exact ⟨_, _, rfl, hindex', hraw hlong.1⟩
  refine ⟨_, _, rfl, hindex', ?_⟩
  rw [patchedTarget]
  rcases ht.type_cases with htype | htype
  · rw [htype]
    have hpiece := (ht.normal htype).2.1
    rw [hpiece] at hbsdiff hnew
    exact givesPiece_normal hrelies hs (htypes.trans htype) hnew hindex
      hbsdiff
  · rw [htype]
    obtain ⟨-, hpiece, -, -⟩ := ht.deflate htype
    obtain ⟨hlevel', hstream⟩ := hlevel htype
    rw [hpiece] at hstream
    exact givesPiece_deflate hrelies hs (htypes.trans htype) hlevel' hnew
      hstream hindex hbsdiff

end Patches

end Imgdiff

end MetaOS
