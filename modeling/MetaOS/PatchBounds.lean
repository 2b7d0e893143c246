/-
Where `ApplyImagePatch` reads and writes.  A chunk names a part of the source
and a bsdiff patch by offsets that nothing checks; every access stays in its
buffer if they lie where they should.
-/
import MetaOS.BsdiffRoundTrip
import MetaOS.BspatchBounds
import MetaOS.ImagePatchFailures

namespace MetaOS

namespace ImagePatch

open Bytes Bspatch

/-- The bsdiff patch that a normal chunk names lies in the patch, and what it
adds of its part of the source lies in the source. -/
def NormalContained {lib : Decoder} (laws : lib.Laws) (patch : Memory)
    (malloc : Malloc) (old : Memory) (extent : Extent) : Prop :=
  Contained laws patch malloc (int32 extent.srcLen)
    (fun i => extent.srcStart + i < old.data.length)
    (int32 extent.patchOffset)

/-- A part of the source inflates to exactly `expandedLen` bytes. -/
structure Inflates (zlib : Zlib) (malloc : Malloc) (old : Memory)
    (extent : Extent) (expandedLen : Nat) : Prop where
  memory : (malloc expandedLen).isSome
  init : (zlib.inflate (old.read extent.srcStart extent.srcLen)
    expandedLen).init = Z_OK
  ret : (zlib.inflate (old.read extent.srcStart extent.srcLen)
    expandedLen).ret = Z_STREAM_END
  full : (zlib.inflate (old.read extent.srcStart extent.srcLen)
    expandedLen).output.length = expandedLen

/-- The part of the source that a deflate chunk names lies in the source if
`inflate` is called for it, and the bsdiff patch lies in the patch if it comes
to be applied. -/
structure DeflateContained {lib : Decoder} (laws : lib.Laws) (zlib : Zlib)
    (patch : Memory) (malloc : Malloc) (old : Memory) (extent : Extent)
    (expandedLen : Nat) : Prop where
  source : (malloc expandedLen).isSome →
    (zlib.inflate (old.read extent.srcStart extent.srcLen)
      expandedLen).init = Z_OK →
    Inside old.data.length extent.srcStart extent.srcLen
  patch : Inflates zlib malloc old extent expandedLen →
    Contained laws patch malloc (int32 expandedLen) (fun _ => True)
      (int32 extent.patchOffset)

/-- What the chunk at `pos` names lies in the patch and in the source.  The
end of a record or of raw data has to be an `ssize_t` for the checks of the
code to mean something. -/
structure ChunkContained {lib : Decoder} (laws : lib.Laws) (zlib : Zlib)
    (patch : Memory) (malloc : Malloc) (old : Memory) (pos : Int) :
    Prop where
  record : pos + 4 < 2 ^ 31
  normal : pos + 4 ≤ patch.data.length → read4 patch pos = CHUNK_NORMAL →
    pos + 4 + 24 < 2 ^ 31 ∧ (pos + 4 + 24 ≤ patch.data.length →
      NormalContained laws patch malloc old (readExtent patch (pos + 4)))
  raw : pos + 4 ≤ patch.data.length → read4 patch pos = CHUNK_RAW →
    pos + 4 + 4 < 2 ^ 31 ∧ (pos + 4 + 4 ≤ patch.data.length →
      0 ≤ read4 patch (pos + 4) ∧
        pos + 4 + 4 + read4 patch (pos + 4) < 2 ^ 31)
  deflate : pos + 4 ≤ patch.data.length → read4 patch pos = CHUNK_DEFLATE →
    pos + 4 + 60 < 2 ^ 31 ∧ (pos + 4 + 60 ≤ patch.data.length →
      DeflateContained laws zlib patch malloc old (readExtent patch (pos + 4))
        (uint32 (read8 patch (pos + 4 + 24))))

/-- Every chunk that is reached is contained. -/
def ChunksContained {lib : Decoder} (laws : lib.Laws) (zlib : Zlib)
    (patch : Memory) (fuel : Nat) (malloc : Malloc) (old : Memory)
    {sink : Sink} : (count : Nat) → (pos : Int) → Out sink → Prop
  | 0, _, _ => True
  | count + 1, pos, out =>
      ChunkContained laws zlib patch malloc old pos ∧
        ∀ next out', (applyChunk lib zlib patch fuel malloc old pos
            out).result = some (.ok (next, out')) →
          ChunksContained laws zlib patch fuel malloc old count next out'

section Within

variable {lib : Decoder} {laws : lib.Laws} {zlib : Zlib} {patch : Memory}
  {malloc : Malloc} {old : Memory} {sink : Sink} {out : Out sink}

theorem int32_natCast_le (n : Nat) : int32 (n : Int) ≤ n := by
  rw [int32, Int.bmod]
  split <;> omega

theorem allows_extent (extent : Extent) :
    Allows (Access.InBounds patch.data.length old.data.length)
      patch.data.length extent.srcStart (int32 extent.srcLen)
      fun i => extent.srcStart + i < old.data.length := by
  refine ⟨id, ?_, id⟩
  intro i hlow _ hsource
  exact Or.inr ⟨by omega, by push_cast; omega⟩

theorem allows_expanded (n : Nat) :
    Allows (fun a => (onExpanded n a).InBounds patch.data.length
      old.data.length) patch.data.length 0 (int32 n) (fun _ => True) := by
  refine ⟨id, ?_, id⟩
  intro i hlow hhigh _
  have hle := int32_natCast_le n
  exact Or.inr ⟨by omega, by push_cast; omega⟩

theorem normalChunk_within {pos : Int} (fuel : Nat) (hlow : 0 ≤ pos)
    (hfits : pos + 24 < 2 ^ 31)
    (hextent : pos + 24 ≤ patch.data.length →
      NormalContained laws patch malloc old (readExtent patch pos)) :
    (normalChunk lib patch fuel malloc old pos out).Within
      (Access.InBounds patch.data.length old.data.length) := by
  have hend : int32 (pos + 24) = pos + 24 :=
    int32_of_range (by omega) (by omega)
  rw [normalChunk]
  dsimp only
  rw [hend]
  split
  · exact TracedRun.within_fail _
  next hheader =>
  have hextent' := hextent (not_lt.mp hheader)
  refine TracedRun.within_bind.mpr ⟨TracedRun.within_touch.mpr
    (Or.inr ⟨hlow, by push_cast; omega⟩), fun _ _ => ?_⟩
  refine TracedRun.within_bind.mpr ⟨?_, fun _ _ => TracedRun.within_pure _⟩
  rw [applyBSDiffPatch]
  refine TracedRun.within_bind.mpr ⟨TracedRun.within_attempt.mpr
    (applyBSDiffPatchMem_within hextent' (allows_extent _) _ fuel), ?_⟩
  rintro (- | new) -
  · exact TracedRun.within_pure _
  · dsimp only
    split <;> exact TracedRun.within_pure _

theorem rawChunk_within {pos : Int} (hlow : 0 ≤ pos)
    (hfits : pos + 4 < 2 ^ 31)
    (hdata : pos + 4 ≤ patch.data.length → 0 ≤ read4 patch pos ∧
      pos + 4 + read4 patch pos < 2 ^ 31) :
    (rawChunk patch pos out).Within
      (Access.InBounds patch.data.length old.data.length) := by
  have hend : int32 (pos + 4) = pos + 4 := int32_of_range (by omega) (by omega)
  rw [rawChunk]
  dsimp only
  rw [hend]
  split
  · exact TracedRun.within_fail _
  next hheader =>
  obtain ⟨hlen, hlen_fits⟩ := hdata (not_lt.mp hheader)
  refine TracedRun.within_bind.mpr ⟨TracedRun.within_touch.mpr
    (Or.inr ⟨hlow, by push_cast; omega⟩), fun _ _ => ?_⟩
  generalize read4 patch pos = dataLen at hlen hlen_fits ⊢
  have hlast : int32 (pos + 4 + dataLen) = pos + 4 + dataLen :=
    int32_of_range (by omega) (by omega)
  have hlen32 : uint32 dataLen = dataLen.toNat := by
    rw [uint32]
    omega
  rw [hlast]
  split
  · exact TracedRun.within_fail _
  next hroom =>
  refine TracedRun.within_bind.mpr ⟨?_, fun _ _ => TracedRun.within_pure _⟩
  rw [writeRaw, hlen32]
  refine TracedRun.within_bind.mpr ⟨TracedRun.within_touch.mpr
    (Or.inr ⟨by omega, by omega⟩), fun _ _ => ?_⟩
  split
  · exact TracedRun.within_cutOff
  · dsimp only
    split
    · exact TracedRun.within_fail _
    · exact TracedRun.within_pure _

theorem inflateSource_within {extent : Extent} {expandedLen : Nat}
    (hdeflate : DeflateContained laws zlib patch malloc old extent
      expandedLen) :
    (inflateSource zlib malloc old extent.srcStart extent.srcLen
      expandedLen).Within
      (Access.InBounds patch.data.length old.data.length) := by
  have htaken := zlib.taken_le (old.read extent.srcStart extent.srcLen)
    expandedLen
  have houtput := zlib.output_le (old.read extent.srcStart extent.srcLen)
    expandedLen
  rw [read_length] at htaken
  rw [inflateSource]
  split
  · exact TracedRun.within_fail _
  next memory hmemory =>
  dsimp only
  split
  · exact TracedRun.within_fail _
  next hinit =>
  have hinside := hdeflate.source (by rw [hmemory]; rfl) (not_not.mp hinit)
  have hpart : Inside old.data.length extent.srcStart
      (zlib.inflate (old.read extent.srcStart extent.srcLen)
        expandedLen).taken := by
    rcases hinside with hnone | ⟨hlow, hhigh⟩
    · exact Or.inl (by omega)
    · exact Or.inr ⟨hlow, by omega⟩
  refine TracedRun.within_bind.mpr ⟨TracedRun.within_touch.mpr hpart,
    fun _ _ => ?_⟩
  refine TracedRun.within_bind.mpr ⟨TracedRun.within_touch.mpr
    (Or.inr ⟨le_rfl, by omega⟩), fun _ _ => ?_⟩
  split
  · exact TracedRun.within_fail _
  split
  · exact TracedRun.within_fail _
  · exact TracedRun.within_pure _

theorem inflates_of_ok {extent : Extent} {expandedLen : Nat}
    {expanded : Bytes}
    (hok : (inflateSource zlib malloc old extent.srcStart extent.srcLen
      expandedLen).result = some (.ok expanded)) :
    Inflates zlib malloc old extent expandedLen ∧
      expanded.length = expandedLen := by
  rw [inflateSource] at hok
  split at hok
  · cases hok
  next memory hmemory =>
  dsimp only at hok
  split at hok
  · cases hok
  next hinit =>
  rw [TracedRun.touch_bind_result, TracedRun.touch_bind_result] at hok
  split at hok
  · cases hok
  next hret =>
  split at hok
  · cases hok
  next hfull =>
  cases hok
  refine ⟨⟨?_, not_not.mp hinit, not_not.mp hret, not_not.mp hfull⟩,
    not_not.mp hfull⟩
  rw [hmemory]
  rfl

theorem deflate_output_le (strm : Option zlib.State) (room : Nat) :
    (zlib.deflate strm room).output.length ≤ room := by
  cases strm with
  | none => exact Nat.zero_le _
  | some state => exact zlib.deflate_le state room

theorem deflateLoop_within {patchSize oldSize : Nat} (size fuel : Nat)
    (strm : Option zlib.State) (out : Out sink) :
    (deflateLoop zlib size fuel strm out).Within
      (Access.InBounds patchSize oldSize) := by
  induction fuel generalizing strm out with
  | zero => exact TracedRun.within_cutOff
  | succ fuel ih =>
      have houtput := deflate_output_le strm size
      rw [deflateLoop]
      refine TracedRun.within_bind.mpr ⟨TracedRun.within_touch.mpr
        (Or.inr ⟨le_rfl, by omega⟩), fun _ _ => ?_⟩
      dsimp only
      split
      · exact TracedRun.within_fail _
      split
      · exact TracedRun.within_pure _
      · exact ih _ _

theorem tempSize_within {allowed : Access → Prop} (expandedLen : Nat) :
    (tempSize malloc expandedLen).Within allowed := by
  rw [tempSize]
  split
  · split
    · exact TracedRun.within_cutOff
    · exact TracedRun.within_pure _
  · exact TracedRun.within_pure _

theorem deflateChunk_within {pos : Int} (fuel : Nat) (hlow : 0 ≤ pos)
    (hfits : pos + 60 < 2 ^ 31)
    (hextent : pos + 60 ≤ patch.data.length →
      DeflateContained laws zlib patch malloc old (readExtent patch pos)
        (uint32 (read8 patch (pos + 24)))) :
    (deflateChunk lib zlib patch fuel malloc old pos out).Within
      (Access.InBounds patch.data.length old.data.length) := by
  have hend : int32 (pos + 60) = pos + 60 :=
    int32_of_range (by omega) (by omega)
  rw [deflateChunk]
  dsimp only
  rw [hend]
  split
  · exact TracedRun.within_fail _
  next hheader =>
  have hdeflate := hextent (not_lt.mp hheader)
  refine TracedRun.within_bind.mpr ⟨TracedRun.within_touch.mpr
    (Or.inr ⟨hlow, by push_cast; omega⟩), fun _ _ => ?_⟩
  refine TracedRun.within_bind.mpr ⟨?_, ?_⟩
  · rw [deflateSetup]
    refine TracedRun.within_bind.mpr
      ⟨inflateSource_within hdeflate, fun expanded hok => ?_⟩
    obtain ⟨hinflates, hlength⟩ := inflates_of_ok hok
    have hpatch := hdeflate.patch hinflates
    rw [← hlength] at hpatch
    refine TracedRun.within_bind.mpr ⟨TracedRun.within_relabel.mpr
      (applyBSDiffPatchMem_within hpatch (allows_expanded _) _ fuel),
      fun target _ => ?_⟩
    exact TracedRun.within_bind.mpr
      ⟨tempSize_within _, fun _ _ => TracedRun.within_pure _⟩
  · rintro ⟨size, strm⟩ -
    exact TracedRun.within_bind.mpr ⟨deflateLoop_within size fuel strm out,
      fun _ _ => TracedRun.within_pure _⟩

/-- A chunk that is contained stays in the buffers. -/
theorem applyChunk_within {pos : Int} (fuel : Nat) (hlow : 0 ≤ pos)
    (hchunk : ChunkContained laws zlib patch malloc old pos) :
    (applyChunk lib zlib patch fuel malloc old pos out).Within
      (Access.InBounds patch.data.length old.data.length) := by
  have hfits := hchunk.record
  have hend : int32 (pos + 4) = pos + 4 := int32_of_range (by omega) (by omega)
  rw [applyChunk, hend]
  split
  · exact TracedRun.within_fail _
  next hrecord =>
  have hrecord' := not_lt.mp hrecord
  refine TracedRun.within_bind.mpr ⟨TracedRun.within_touch.mpr
    (Or.inr ⟨hlow, by push_cast; omega⟩), fun _ _ => ?_⟩
  rw [applyType]
  split
  · next htype =>
      obtain ⟨hheader, hextent⟩ := hchunk.normal hrecord' htype
      exact normalChunk_within fuel (by omega) hheader hextent
  split
  · next htype =>
      obtain ⟨hheader, hdata⟩ := hchunk.raw hrecord' htype
      exact rawChunk_within (by omega) hheader hdata
  split
  · next htype =>
      obtain ⟨hheader, hextent⟩ := hchunk.deflate hrecord' htype
      exact deflateChunk_within fuel (by omega) hheader hextent
  · exact TracedRun.within_fail _

/-- The next chunk does not begin before the patch. -/
theorem applyChunk_next {pos next : Int} {fuel : Nat} {out' : Out sink}
    (hlow : 0 ≤ pos) (hchunk : ChunkContained laws zlib patch malloc old pos)
    (hok : (applyChunk lib zlib patch fuel malloc old pos out).result =
      some (.ok (next, out'))) : 0 ≤ next := by
  have hfits := hchunk.record
  have hend : int32 (pos + 4) = pos + 4 := int32_of_range (by omega) (by omega)
  rw [applyChunk, hend] at hok
  split at hok
  · cases hok
  next hrecord =>
  have hrecord' := not_lt.mp hrecord
  rw [TracedRun.touch_bind_result, applyType] at hok
  split at hok
  · next htype =>
      obtain ⟨-, rfl, -⟩ := normalChunk_ok hok
      have hheader := (hchunk.normal hrecord' htype).1
      rw [int32_of_range (by omega) (by omega)]
      omega
  split at hok
  · next htype =>
      obtain ⟨hheader, hdata⟩ := hchunk.raw hrecord' htype
      obtain ⟨dataLen, hheader', hlen, -, rfl, -⟩ := rawChunk_ok hok
      have hafter : int32 (pos + 4 + 4) = pos + 4 + 4 :=
        int32_of_range (by omega) (by omega)
      rw [hafter] at hheader' ⊢
      have hlast := (hdata hheader').2
      rw [hlen] at hlast
      rw [int32_of_range (by omega) (by omega)]
      omega
  split at hok
  · next htype =>
      obtain ⟨-, rfl, -⟩ := deflateChunk_ok hok
      have hheader := (hchunk.deflate hrecord' htype).1
      rw [int32_of_range (by omega) (by omega)]
      omega
  · cases hok

theorem applyChunks_within {fuel count : Nat} {pos : Int} {out : Out sink}
    (hlow : 0 ≤ pos)
    (hchunks : ChunksContained laws zlib patch fuel malloc old count pos out) :
    (applyChunks lib zlib patch fuel malloc old count pos out).Within
      (Access.InBounds patch.data.length old.data.length) := by
  induction count generalizing pos out with
  | zero => exact TracedRun.within_pure _
  | succ count ih =>
      obtain ⟨hchunk, hothers⟩ := hchunks
      rw [applyChunks]
      refine TracedRun.within_bind.mpr
        ⟨applyChunk_within fuel hlow hchunk, ?_⟩
      rintro ⟨next, out'⟩ hok
      exact ih (applyChunk_next hlow hchunk hok) (hothers next out' hok)

end Within

/-- `ApplyBSDiffPatchMem` and `ApplyImagePatch` stay in the patch, the source
and the buffers they allocate if what a patch names lies there; and a patch
with which `ApplyBSDiffPatchMem` stays there has its header in the patch and
no pass that goes astray. -/
theorem patch_in_bounds (lib : Decoder) (laws : lib.Laws) (zlib : Zlib)
    (patch old : Memory) (malloc : Malloc) (sink : Sink) (token : sink.State) :
    (∀ patchOffset, Contained laws patch malloc old.data.length
        (fun _ => True) patchOffset →
      ∀ fuel, (applyBSDiffPatchMem lib patch fuel malloc old 0
        old.data.length patchOffset).Within
          (Access.InBounds patch.data.length old.data.length)) ∧
    (∀ patchOffset, (∀ fuel, (applyBSDiffPatchMem lib patch fuel malloc old 0
        old.data.length patchOffset).Within
          (Access.InBounds patch.data.length old.data.length)) →
      Bounded laws patch malloc patchOffset) ∧
    ∀ fuel, (¬ Refused patch → ChunksContained laws zlib patch fuel malloc old
        (read4 patch 8).toNat 12 (Out.start token)) →
      (applyImagePatch lib zlib patch fuel malloc old token).Within
        (Access.InBounds patch.data.length old.data.length) := by
  refine ⟨fun patchOffset hpatch fuel => ?_,
    fun patchOffset hwithin => bounded_of_within hwithin,
    fun fuel hchunks => ?_⟩
  · refine applyBSDiffPatchMem_within hpatch ⟨id, ?_, id⟩ old fuel
    intro i hlow hhigh _
    exact Or.inr ⟨by omega, by push_cast; omega⟩
  · rw [applyImagePatch]
    split
    · exact TracedRun.within_fail _
    next hlong =>
    refine TracedRun.within_bind.mpr ⟨TracedRun.within_touch.mpr
      (Or.inr ⟨le_rfl, by push_cast; omega⟩), fun _ _ => ?_⟩
    split
    · next hmagic =>
        refine TracedRun.within_bind.mpr ⟨TracedRun.within_touch.mpr
          (Or.inr ⟨by decide, by push_cast; omega⟩), fun _ _ => ?_⟩
        refine applyChunks_within (by decide) (hchunks ?_)
        rintro (hshort | hother)
        · exact hlong (by exact_mod_cast hshort)
        · exact hother hmagic
    · exact TracedRun.within_fail _

namespace PatchBoundsWitness

open ImagePatchWitness Bsdiff

/-- One normal chunk whose bsdiff patch should begin at offset 100. -/
def outside : Memory :=
  ⟨⟨ofString "IMGDIFF2" ++ [1, 0, 0, 0] ++ [0, 0, 0, 0] ++
    List.replicate 16 0 ++ [100, 0, 0, 0, 0, 0, 0, 0], fun _ => 0⟩, by decide⟩

def runOutside (fuel : Nat) : TracedRun Access (Out takesAll) :=
  applyImagePatch bzip2 zlib outside fuel anyMalloc empty ()

/-- The patch of 40 bytes is read at offset 100. -/
theorem outside_out_of_bounds :
    ¬ ∀ fuel, (runOutside fuel).Within
      (Access.InBounds outside.data.length empty.data.length) := by
  intro hwithin
  have htouched : Access.patch 100 8 ∈ (runOutside 0).touched := by
    decide +kernel
  have hinside : Inside outside.data.length 100 8 := hwithin 0 _ htouched
  have hend := (hinside.resolve_left (by decide)).2
  exact absurd hend (by decide)

/-- One normal chunk whose bsdiff patch stands behind the record, at offset
40. -/
def image : Memory :=
  ⟨⟨ofString "IMGDIFF2" ++ [1, 0, 0, 0] ++ [0, 0, 0, 0] ++
    [0, 0, 0, 0, 0, 0, 0, 0] ++ [6, 0, 0, 0, 0, 0, 0, 0] ++
    [40, 0, 0, 0, 0, 0, 0, 0] ++ BsdiffWitness.file, fun _ => 0⟩,
    by decide +kernel⟩

/-- The triple of the only pass is (6, 1, -4). -/
theorem image_firstPass :
    let p := firstPass BsdiffWitness.bzip2Laws image 40
    (p.oldpos, p.newpos, p.c.ctrl 0, p.c.ctrl 1, p.next.newpos) =
      (0, 0, 6, 1, 7) := by
  decide +kernel

theorem image_contained {source : Int → Prop}
    (hsource : ∀ i, 0 ≤ i → i < 6 → source i) :
    Contained BsdiffWitness.bzip2Laws image anyMalloc 6 source 40 := by
  have hblocks : BlocksInside image 40 := by
    unfold BlocksInside
    decide +kernel
  have hsize : (Bspatch.readHeader image 40).newSize = 7 := by decide +kernel
  have hfirst := image_firstPass
  simp only [Prod.mk.injEq] at hfirst
  obtain ⟨holdpos, hnewpos, hctrl0, hctrl1, hnext⟩ := hfirst
  refine ⟨by decide, by decide +kernel, fun _ => by decide +kernel, ?_⟩
  rw [hsize]
  intro _ p hbegins
  cases hbegins with
  | now hmore =>
      refine ⟨?_, fun _ _ => ?_, fun _ _ _ i hi hoverlaps => ?_,
        fun _ _ _ _ => ?_⟩
      · unfold ControlInside
        decide +kernel
      · rw [hnewpos, hctrl0]
        exact ⟨⟨by decide, by decide⟩, fun _ => hblocks⟩
      · rw [overlaps, Bool.and_eq_true, decide_eq_true_eq,
          decide_eq_true_eq] at hoverlaps
        exact hsource _ hoverlaps.1 hoverlaps.2
      · rw [hnewpos, hctrl0, hctrl1]
        exact ⟨⟨by decide, by decide⟩, fun _ => hblocks⟩
  | later hmore hgoes hrest =>
      have hover := hrest.newpos_lt
      rw [hnext] at hover
      exact absurd hover (by decide)

theorem image_chunk_contained :
    ChunkContained BsdiffWitness.bzip2Laws zlib image anyMalloc
      BsdiffWitness.old 12 := by
  have htype : read4 image 12 = CHUNK_NORMAL := by decide +kernel
  refine ⟨by decide, fun _ _ => ⟨by decide, fun _ => ?_⟩,
    fun _ htype' => ?_, fun _ htype' => ?_⟩
  · have hextent : readExtent image (12 + 4) = ⟨0, 6, 40⟩ := by
      rw [readExtent, Extent.mk.injEq]
      decide +kernel
    rw [hextent]
    apply image_contained
    intro i _ hhigh
    exact show (0 : Int) + i < 6 by omega
  · rw [htype] at htype'
    exact absurd htype' (by decide)
  · rw [htype] at htype'
    exact absurd htype' (by decide)

def runImage (fuel : Nat) : TracedRun Access (Out takesAll) :=
  applyImagePatch BsdiffWitness.bzip2 zlib image fuel anyMalloc
    BsdiffWitness.old ()

/-- Both functions apply the patch within the buffers. -/
theorem image_in_bounds :
    (∀ fuel, (applyBSDiffPatchMem BsdiffWitness.bzip2 image fuel anyMalloc
      BsdiffWitness.old 0 6 40).Within
        (Access.InBounds image.data.length 6)) ∧
    (∀ fuel, (runImage fuel).Within
      (Access.InBounds image.data.length 6)) ∧
    ((runImage 200).result.map fun r => r.toOption.map Out.accepted) =
      some (some BsdiffWitness.new) := by
  obtain ⟨hmem, -, himage⟩ := patch_in_bounds BsdiffWitness.bzip2
    BsdiffWitness.bzip2Laws zlib image BsdiffWitness.old anyMalloc takesAll ()
  refine ⟨hmem 40 (image_contained fun _ _ _ => trivial),
    fun fuel => himage fuel fun _ => ?_, by decide +kernel⟩
  have hcount : (read4 image 8).toNat = 1 := by decide +kernel
  rw [hcount]
  exact ⟨image_chunk_contained, fun _ _ _ => trivial⟩

end PatchBoundsWitness

end ImagePatch

end MetaOS
