/-
`ReadZip` of `imgdiff.c`: a zip file is cut into its deflated entries and what
lies between them.

The offsets and the lengths come from the central directory and are not
checked: the positions are `int` and may go anywhere, and whatever is read
there is memory around the file.
-/
import Mathlib.Data.List.Sort
import MetaOS.ReadImage

namespace MetaOS

namespace Imgdiff

open Bspatch Bytes

structure ZipFileEntry where
  dataOffset : Int
  deflateLen : Int
  uncompLen : Int
  filename : Bytes
deriving DecidableEq, Repr

section Parse

variable (file : Memory)

/-- `Read2` and `Read4` -/
def read2 (pos : Int) : Int := (leNat (file.read pos 2) : Int)

def read4 (pos : Int) : Int := leInt (file.read pos 4)

/-- Look for the end-of-central-directory record. -/
def findEnd : (fuel : Nat) → (i : Int) → Int
  | 0, i => i
  | fuel + 1, i =>
      if 0 ≤ i ∧ (file.data.length : Int) - 65600 < i then
        if file.read i 4 = [0x50, 0x4b, 0x05, 0x06] then i
        else findEnd fuel (i - 1)
      else i

/-- The deflated entries of the central directory. -/
def readEntries : (count : Nat) → (cd : Int) → Option (List ZipFileEntry)
  | 0, _ => some []
  | count + 1, cd =>
      if file.read cd 4 ≠ [0x50, 0x4b, 0x01, 0x02] then none
      else
        let clen := read4 file (cd + 20)
        let ulen := read4 file (cd + 24)
        let nlen := read2 file (cd + 28)
        let xlen := read2 file (cd + 30)
        let mlen := read2 file (cd + 32)
        let hoffset := read4 file (cd + 42)
        let filename := file.read (cd + 46) nlen.toNat
        let method := read2 file (cd + 10)
        let cd := cd + 46 + nlen + xlen + mlen
        if method ≠ 8 then readEntries count cd
        else if file.read hoffset 4 ≠ [0x50, 0x4b, 0x03, 0x04] then none
        else if read2 file (hoffset + 26) ≠ nlen ∨
            file.read (hoffset + 30) nlen.toNat ≠ filename then none
        else
          let xlen := read2 file (hoffset + 28)
          let entry := ⟨int32 (hoffset + 30 + nlen + xlen), clen, ulen,
            filename⟩
          (readEntries count cd).map (entry :: ·)

/-- The entries in the order of their data; equal ones stay as they are in the
central directory. -/
def zipEntries : Option (List ZipFileEntry) :=
  let i := findEnd file file.data.length ((file.data.length : Int) - 20)
  if file.read (i + 4) 4 ≠ [0, 0, 0, 0] then none
  else
    let cdcount := read2 file (i + 8)
    let cdoffset := read4 file (i + 16)
    (readEntries file cdcount.toNat cdoffset).map
      (List.insertionSort fun a b => a.dataOffset ≤ b.dataOffset)

end Parse

section Program

variable (lib : Decoder) (file : Memory) (uninit : ImageChunk Pointer)

/-- One call of `inflate` on the data of an entry. -/
def inflateEntry (entry : ZipFileEntry) : Decoder.Step lib.State :=
  lib.decompress lib.init
    (file.read entry.dataOffset (uint32 entry.deflateLen))
    (uint32 entry.uncompLen)

/-- The chunk of an entry that starts at `pos`. -/
def entryChunk (entry : ZipFileEntry) (heap : Heap) : ImageChunk Pointer where
  type := .deflate
  start := uint32 entry.dataOffset
  deflateLen := uint32 entry.deflateLen
  deflateData := ⟨0, entry.dataOffset⟩
  filename := some entry.filename
  len := uint32 entry.uncompLen
  data := ⟨heap.length + 1, 0⟩

/-- A normal chunk from an `int` position. -/
def plainChunk (pos : Int) (len : Nat) : ImageChunk Pointer :=
  { uninit with
    type := .normal
    start := uint32 pos
    len := len
    data := ⟨0, pos⟩
    filename := none }

/-- The loop of `ReadZip`. -/
def readZipLoop : (fuel : Nat) → (pos : Int) → List ZipFileEntry →
    List (ImageChunk Pointer) → Heap →
    Option (Option (List (ImageChunk Pointer) × Heap))
  | 0, _, _, _, _ => none
  | fuel + 1, pos, entries, chunks, heap =>
      if pos < file.data.length then
        match entries with
        | entry :: rest =>
            if pos = entry.dataOffset then
              let step := inflateEntry lib file entry
              if step.status ≠ .streamEnd then some none
              else
                readZipLoop fuel (int32 (pos + uint32 entry.deflateLen)) rest
                  (chunks ++ [entryChunk entry heap])
                  (heap ++ [step.output])
            else
              let len := uint32 (entry.dataOffset - pos)
              readZipLoop fuel (int32 (pos + len)) entries
                (chunks ++ [plainChunk uninit pos len]) heap
        | [] =>
            let len := uint32 ((file.data.length : Int) - pos)
            readZipLoop fuel (int32 (pos + len)) []
              (chunks ++ [plainChunk uninit pos len]) heap
      else some (some (chunks, heap))

/-- `ReadZip` without the pseudo chunk. -/
def readZip (fuel : Nat) :
    Option (Option (List (ImageChunk Pointer) × Heap)) :=
  match zipEntries file with
  | none => some none
  | some entries => readZipLoop lib file uninit fuel 0 entries [] []

end Program

end Imgdiff

end MetaOS
