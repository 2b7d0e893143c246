/-
`imgdiff.c`: from the chunks of two files to the patch file.  A deflate chunk
is patched as what it inflates to only if deflating that with one of two sets
of parameters gives the same bytes again.  Chunks that are equal, and those
that cannot be reconstructed, are patched as they stand in the file.

The program runs on the host and its `malloc` is taken to succeed.  What it
says about the loop around `deflate` with no room for errors holds here too:
where `deflate` does not get to the end of the stream, the run does not end.
-/
import MetaOS.BspatchExtent
import MetaOS.CString
import MetaOS.ImgdiffHeader
import MetaOS.ReadZip
import MetaOS.SuffixSortRuns

namespace MetaOS

namespace Imgdiff

open Bytes Bspatch ImagePatch

/-- A file that has been cut into chunks: the image in memory and the blocks
with inflated data. -/
structure Loaded where
  image : Block
  heap : Heap
  chunks : List (ImageChunk Pointer)

/-- What stands at a pointer. -/
def Loaded.read (file : Loaded) (p : Pointer) (len : Nat) : Bytes :=
  match p.block with
  | 0 => file.image.read p.offset len
  | block + 1 => Block.read ⟨file.heap.getD block [], fun _ => 0⟩ p.offset len

def BUFFER_SIZE : Nat := 32768

def Z_DEFLATED : Int := 8
def Z_DEFAULT_STRATEGY : Int := 0

section Reconstruction

variable (zlib : Zlib) (file : Loaded)

/-- The loop of `TryReconstruction`: does what `deflate` gives from `p` on
agree with the compressed data? -/
def tryLoop (chunk : ImageChunk Pointer) :
    (fuel : Nat) → (strm : Option zlib.State) → (p : Nat) → Option Bool
  | 0, _, _ => none
  | fuel + 1, strm, p =>
      let deflated := zlib.deflate strm BUFFER_SIZE
      let count := deflated.output.length
      if deflated.output ≠ file.read (p +ᵥ chunk.deflateData) count then
        some false
      else if deflated.ended then some (p + count = chunk.deflateLen)
      else tryLoop chunk fuel deflated.next (p + count)

/-- `TryReconstruction`: can the compressed data be had back with a level?
The other parameters are the same for both levels. -/
def tryReconstruction (fuel : Nat) (chunk : ImageChunk Pointer)
    (level : Int) : Option Bool :=
  tryLoop zlib file chunk fuel
    (zlib.deflateInit2 level Z_DEFLATED (-15) 8 Z_DEFAULT_STRATEGY
      (file.read chunk.data chunk.len)) 0

/-- `ReconstructDeflateChunk`: the level that is found. -/
def reconstructDeflateChunk (fuel : Nat) (chunk : ImageChunk Pointer) :
    Option (Option Int) :=
  if chunk.type ≠ .deflate then some none
  else do
    if ← tryReconstruction zlib file fuel chunk 6 then some (some 6)
    else if ← tryReconstruction zlib file fuel chunk 9 then some (some 9)
    else some none

end Reconstruction

/-- `AreChunksEqual` -/
def areChunksEqual (tgt src : Loaded) (a b : ImageChunk Pointer) : Bool :=
  if a.type ≠ b.type then false
  else
    match a.type with
    | .normal => a.len = b.len && tgt.read a.data a.len = src.read b.data a.len
    | .deflate => a.deflateLen = b.deflateLen &&
        tgt.read a.deflateData a.deflateLen =
          src.read b.deflateData a.deflateLen
    | .raw => false

/-- The arrays that `malloc` gives `bsdiff` for the index and the ranks. -/
abbrev Fresh := (size : Nat) →
  { a : Bsdiff.Arrays // a.I.length = size + 1 ∧ a.V.length = size + 1 }

section Patches

variable (zlib : Zlib) (compress : Bytes → Bytes) (fresh : Fresh)
  (src tgt : Loaded) (fuel : Nat)

/-- `*IP` after `bsdiff`: the index is made when there is none. -/
def indexOf (cached : Option (List Nat)) (old : Bytes) : Option (List Nat) :=
  match cached with
  | some index => some index
  | none => (Bsdiff.qsufsort old (fresh old.length).1).map
      (List.map Int.toNat)

/-- A chunk whose data stand in the patch. -/
def rawTarget (chunk : ImageChunk Pointer) : TargetChunk :=
  ⟨.raw, 0, 0, 0, UInt32.ofNat chunk.len, 0, 0, 0, 0, 0,
    tgt.read chunk.data chunk.len⟩

/-- A chunk that is patched; a deflate chunk has the parameters that
`ReconstructDeflateChunk` left in it. -/
def patchedTarget (s t : ImageChunk Pointer) (level : Int) (patch : Bytes) :
    TargetChunk :=
  match t.type with
  | .deflate =>
      ⟨.deflate, UInt32.ofNat s.start, UInt32.ofNat s.deflateLen,
        UInt32.ofNat s.len, UInt32.ofNat t.len, Int32.ofInt level,
        Int32.ofInt Z_DEFLATED, -15, 8, Int32.ofInt Z_DEFAULT_STRATEGY, patch⟩
  | _ =>
      ⟨.normal, UInt32.ofNat s.start, UInt32.ofNat s.len, 0,
        UInt32.ofNat t.len, 0, 0, 0, 0, 0, patch⟩

/-- `MakePatch`, and the index of the source chunk after it. -/
def makePatch (cached : Option (List Nat)) (s t : ImageChunk Pointer)
    (level : Int) : Option (TargetChunk × Option (List Nat)) :=
  if t.type = .normal ∧ t.len ≤ 160 then some (rawTarget tgt t, cached)
  else do
    let old := src.read s.data s.len
    let index ← indexOf fresh cached old
    let patch ← Bsdiff.bsdiff index old (tgt.read t.data t.len) compress
    if t.type = .normal ∧ t.len ≤ patch.length then
      some (rawTarget tgt t, some index)
    else some (patchedTarget s t level patch, some index)

/-- The level of a chunk of the target; only a deflate chunk has one. -/
def levelOf (t : ImageChunk Pointer) : Option Int :=
  (reconstructDeflateChunk zlib tgt fuel t).map fun level => level.getD 0

/-- Does `ReconstructDeflateChunk` succeed for the chunk at `i`? -/
def reconstructs (chunks : List (ImageChunk Pointer)) (i : Nat) : Bool :=
  match chunks[i]? with
  | some t => (reconstructDeflateChunk zlib tgt fuel t).join.isSome
  | none => false

/-- Are the chunks at `i` equal? -/
def equalAt (tgtChunks srcChunks : List (ImageChunk Pointer)) (i : Nat) :
    Bool :=
  match tgtChunks[i]?, srcChunks[i]? with
  | some t, some s => areChunksEqual tgt src t s
  | _, _ => false

/-- The patches of an image: each source chunk is used once, so that it has no
index yet. -/
def imagePatches : List (ImageChunk Pointer × ImageChunk Pointer) →
    Option (List TargetChunk)
  | [] => some []
  | (s, t) :: pairs => do
      let level ← levelOf zlib tgt fuel t
      let (target, _) ← makePatch compress fresh src tgt none s t level
      let targets ← imagePatches pairs
      some (target :: targets)

/-- `main` in image mode.  `none` is a run that does not end; the result of
one that ends may be an error. -/
def mainImage : Option (Option Bytes) :=
  let tgtChunks := mergeAdjacentNormalChunks tgt.chunks
  let srcChunks := mergeAdjacentNormalChunks src.chunks
  match imageMode (reconstructs zlib tgt fuel tgtChunks)
      (equalAt src tgt tgtChunks srcChunks) src.chunks tgt.chunks with
  | .patches pairs => do
      -- the run only gets here if every attempt to reconstruct ended
      let _ ← tgtChunks.mapM (reconstructDeflateChunk zlib tgt fuel)
      let targets ← imagePatches zlib compress fresh src tgt fuel pairs
      some (some (patchFile targets))
  | _ => some none

/-- `strcmp` says that two names are the same. -/
def sameName : Option Bytes → Option Bytes → Bool
  | some a, some b => CString.cstr a = CString.cstr b
  | _, _ => false

/-- `FindChunkByName`: the first deflate chunk with the name. -/
def findChunkByName (name : Option Bytes)
    (chunks : List (ImageChunk Pointer)) : Option Nat :=
  chunks.findIdx? fun chunk => chunk.type = .deflate ∧
    sameName name chunk.filename

/-- `ChangeDeflateChunkToNormal` on the chunk at `k`. -/
def changeAt (chunks : List (ImageChunk Pointer)) (k : Nat) :
    List (ImageChunk Pointer) :=
  chunks.modify k ImageChunk.changeDeflateChunkToNormal

/-- A target chunk: if it is a deflate chunk that cannot be reconstructed, or
has no source chunk of its name or one that is the same, it and that source
chunk become normal chunks. -/
def convertZipChunk (t : ImageChunk Pointer)
    (srcChunks : List (ImageChunk Pointer)) :
    Option (ImageChunk Pointer × List (ImageChunk Pointer)) :=
  if t.type ≠ .deflate then some (t, srcChunks)
  else do
    let level ← reconstructDeflateChunk zlib tgt fuel t
    match level, findChunkByName t.filename srcChunks with
    | _, none => some (t.changeDeflateChunkToNormal, srcChunks)
    | none, some k =>
        some (t.changeDeflateChunkToNormal, changeAt srcChunks k)
    | some _, some k => do
        let s ← srcChunks[k]?
        if areChunksEqual tgt src t s then
          some (t.changeDeflateChunkToNormal, changeAt srcChunks k)
        else some (t, srcChunks)

/-- The loop on the target chunks. -/
def convertZip : (todo : List (ImageChunk Pointer)) →
    (srcChunks : List (ImageChunk Pointer)) →
    Option (List (ImageChunk Pointer) × List (ImageChunk Pointer))
  | [], srcChunks => some ([], srcChunks)
  | t :: todo, srcChunks => do
      let (t, srcChunks) ← convertZipChunk zlib src tgt fuel t srcChunks
      let (todo, srcChunks) ← convertZip todo srcChunks
      some (t :: todo, srcChunks)

/-- The source chunk that `MakePatch` gets: that of the name, or the pseudo
chunk. -/
def sourceOf (srcChunks : List (ImageChunk Pointer))
    (t : ImageChunk Pointer) : Nat :=
  if t.type = .deflate then (findChunkByName t.filename srcChunks).getD 0
  else 0

/-- The patches of a zip file.  The index of a source chunk is kept for the
next target chunk that is patched against it. -/
def zipPatches (srcChunks : List (ImageChunk Pointer)) :
    (cache : Nat → Option (List Nat)) → List (ImageChunk Pointer) →
    Option (List TargetChunk)
  | _, [] => some []
  | cache, t :: todo => do
      let k := sourceOf srcChunks t
      let s ← srcChunks[k]?
      let level ← levelOf zlib tgt fuel t
      let (target, index) ← makePatch compress fresh src tgt (cache k) s t
        level
      let targets ← zipPatches srcChunks
        (fun i => if i = k then index else cache i) todo
      some (target :: targets)

/-- The pseudo chunk that stands for the whole file; `uninit` is what the
other fields happen to hold. -/
def pseudoChunk (uninit : ImageChunk Pointer) (size : Nat) :
    ImageChunk Pointer :=
  { uninit with
    type := .normal
    start := 0
    len := size
    data := img
    filename := none }

/-- `main` in zip mode. -/
def mainZip (uninit : ImageChunk Pointer) (srcSize : Nat) : Option Bytes := do
  let (tgtChunks, srcChunks) ← convertZip zlib src tgt fuel tgt.chunks
    (pseudoChunk uninit srcSize :: src.chunks)
  let targets ← zipPatches zlib compress fresh src tgt fuel srcChunks
    (fun _ => none) (mergeAdjacentNormalChunks tgtChunks)
  some (patchFile targets)

end Patches

end Imgdiff

end MetaOS
