/-
`imgdiff.c`: the chunks of an image and how those of two images are paired.

A chunk is a piece of the file; a deflate chunk also has the inflated data.
Offsets and lengths are those of a file that is in memory, so their sums do
not overflow.  Pointers are anything that lengths can be added to.
-/
import Mathlib.Algebra.Group.Action.Defs
import Mathlib.Algebra.Group.Nat.Defs
import MetaOS.ByteString

namespace MetaOS

namespace Imgdiff

inductive ChunkType where
  | normal
  | deflate
  | raw
deriving DecidableEq, Repr

/-- The fields that the code up to `MakePatch` sets or looks at. -/
structure ImageChunk (P : Type) where
  type : ChunkType
  start : Nat
  len : Nat
  data : P
  deflateLen : Nat
  deflateData : P
  filename : Option Bytes
deriving DecidableEq

namespace ImageChunk

variable {P : Type} (chunk : ImageChunk P)

/-- How much of the file the chunk stands for. -/
def extent : Nat :=
  match chunk.type with
  | .deflate => chunk.deflateLen
  | _ => chunk.len

/-- Where that part of the file is in memory. -/
def extentData : P :=
  match chunk.type with
  | .deflate => chunk.deflateData
  | _ => chunk.data

/-- `ChangeDeflateChunkToNormal` -/
def changeDeflateChunkToNormal : ImageChunk P :=
  if chunk.type ≠ .deflate then chunk
  else { chunk with
    type := .normal
    data := chunk.deflateData
    len := chunk.deflateLen }

end ImageChunk

section Merge

variable {P : Type} [VAdd Nat P] [DecidableEq P]

/-- The chunk begins where the one before it ends, in the file and in
memory. -/
def follows (prev chunk : ImageChunk P) : Bool :=
  chunk.type = .normal ∧ chunk.start = prev.start + prev.len ∧
    chunk.data = prev.len +ᵥ prev.data

/-- Look for the end of a run of normal chunks. -/
def runEnd (chunks : List (ImageChunk P)) : (fuel inEnd : Nat) → Nat
  | 0, inEnd => inEnd
  | fuel + 1, inEnd =>
      match chunks[inEnd - 1]?, chunks[inEnd]? with
      | some prev, some chunk =>
          if follows prev chunk then runEnd chunks fuel (inEnd + 1) else inEnd
      | _, _ => inEnd

/-- Merge chunks into the one at `out`, which keeps its other fields. -/
def mergeInto (old first last : ImageChunk P) : ImageChunk P :=
  { old with
    type := .normal
    start := first.start
    data := first.data
    len := last.len + (last.start - first.start) }

/-- The loop of `MergeAdjacentNormalChunks` works in place: the chunks in
front of `out` are done, those from `inStart` on are not. -/
def mergeLoop : (fuel : Nat) → List (ImageChunk P) → (out inStart : Nat) →
    List (ImageChunk P) × Nat
  | 0, chunks, out, _ => (chunks, out)
  | fuel + 1, chunks, out, inStart =>
      match chunks[inStart]? with
      | none => (chunks, out)
      | some first =>
          let inEnd :=
            if first.type ≠ .normal then inStart + 1
            else runEnd chunks chunks.length (inStart + 1)
          let chunks :=
            if inEnd = inStart + 1 then
              if out ≠ inStart then chunks.set out first else chunks
            else
              match chunks[out]?, chunks[inEnd - 1]? with
              | some old, some last =>
                  chunks.set out (mergeInto old first last)
              | _, _ => chunks
          mergeLoop fuel chunks (out + 1) inEnd

def mergeAdjacentNormalChunks (chunks : List (ImageChunk P)) :
    List (ImageChunk P) :=
  let (chunks, numChunks) := mergeLoop chunks.length chunks 0 0
  chunks.take numChunks

end Merge

section ImageMode

variable {P : Type}

/-- What becomes of a pair of chunks.  `reconstructs` and `equal` are the
answers of `ReconstructDeflateChunk` and `AreChunksEqual`. -/
def convertPair (reconstructs equal : Bool) (tgt src : ImageChunk P) :
    ImageChunk P × ImageChunk P :=
  if tgt.type = .deflate then
    if !reconstructs then
      (tgt.changeDeflateChunkToNormal, src.changeDeflateChunkToNormal)
    else if equal then
      (tgt.changeDeflateChunkToNormal, src.changeDeflateChunkToNormal)
    else (tgt, src)
  else (tgt, src)

/-- The answers are given by the index of the chunk. -/
def convert (reconstructs equal : Nat → Bool) :
    (i : Nat) → (tgt src : List (ImageChunk P)) →
    List (ImageChunk P) × List (ImageChunk P)
  | i, t :: tgt, s :: src =>
      let (t, s) := convertPair (reconstructs i) (equal i) t s
      let (tgt, src) := convert reconstructs equal (i + 1) tgt src
      (t :: tgt, s :: src)
  | _, tgt, src => (tgt, src)

/-- How `main` goes on in image mode. -/
inductive Outcome (P : Type) where
  | differentCount
  | differentStructure (i : Nat)
  | wentAwry
  | patches (pairs : List (ImageChunk P × ImageChunk P))

variable [VAdd Nat P] [DecidableEq P]

/-- `main` in image mode, from the chunks of the two images to the pairs that
`MakePatch` is called with. -/
def imageMode (reconstructs equal : Nat → Bool)
    (src tgt : List (ImageChunk P)) : Outcome P :=
  let tgt := mergeAdjacentNormalChunks tgt
  let src := mergeAdjacentNormalChunks src
  if src.length ≠ tgt.length then .differentCount
  else
    match (src.zip tgt).findIdx? fun pair => pair.1.type ≠ pair.2.type with
    | some i => .differentStructure i
    | none =>
        let (tgt, src) := convert reconstructs equal 0 tgt src
        let tgt := mergeAdjacentNormalChunks tgt
        let src := mergeAdjacentNormalChunks src
        if src.length ≠ tgt.length then .wentAwry
        else .patches (src.zip tgt)

end ImageMode

section Tiles

variable {P : Type} [VAdd Nat P]

/-- The offsets in the file that a chunk stands for, each with its place in
memory. -/
def ImageChunk.cells (chunk : ImageChunk P) : List (Nat × P) :=
  (List.range chunk.extent).map fun i =>
    (chunk.start + i, i +ᵥ chunk.extentData)

/-- The chunk is a piece of the file that `base` points to. -/
def ImageChunk.InPlace (base : P) (chunk : ImageChunk P) : Prop :=
  chunk.type ≠ .raw ∧ chunk.extentData = chunk.start +ᵥ base

/-- The chunks cover the file from an offset on, each of them from where the
one before it ends. -/
def TilesFrom (base : P) (size : Nat) : Nat → List (ImageChunk P) → Prop
  | pos, [] => pos = size
  | pos, chunk :: chunks => chunk.start = pos ∧ chunk.InPlace base ∧
      TilesFrom base size (pos + chunk.extent) chunks

def Tiles (base : P) (size : Nat) (chunks : List (ImageChunk P)) : Prop :=
  TilesFrom base size 0 chunks

end Tiles

end Imgdiff

end MetaOS
