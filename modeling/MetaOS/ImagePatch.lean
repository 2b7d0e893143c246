/-
`imgpatch.c`: an image patch is a list of chunks.  A chunk is a bsdiff patch
of a part of the source, a bsdiff patch of what a part of the source inflates
to, or data that stands in the patch.  What a chunk gives goes to a sink and
to a hash context.  The sink reports how much it took.
-/
import MetaOS.Bspatch

namespace MetaOS

namespace ImagePatch

open Bytes Bspatch

/-- A `SinkFn` with its token.  It does not take more than it is offered. -/
structure Sink where
  State : Type
  write : State → Bytes → Int × State
  write_le : ∀ state data, (write state data).1 ≤ data.length

/-- Where the output has gone: what the sink was offered and what it took, and
what was hashed. -/
structure Out (sink : Sink) where
  token : sink.State
  offered : Bytes
  accepted : Bytes
  hashed : Bytes

namespace Out

variable {sink : Sink}

/-- Nothing has been written yet. -/
def start (token : sink.State) : Out sink := ⟨token, [], [], []⟩

/-- Offer data to the sink. -/
def write (out : Out sink) (data : Bytes) : Int × Out sink :=
  let (count, token) := sink.write out.token data
  (count, { out with
    token := token
    offered := out.offered ++ data
    accepted := out.accepted ++ data.take count.toNat })

/-- `SHA_update`. -/
def update (out : Out sink) (data : Bytes) : Out sink :=
  { out with hashed := out.hashed ++ data }

end Out

/-- What `inflateInit2` and one call of `inflate` give. -/
structure Inflated where
  init : Int
  ret : Int
  taken : Nat
  output : Bytes

/-- What one call of `deflate` gives. -/
structure Deflated (State : Type) where
  ended : Bool
  output : Bytes
  next : State

/-- `zlib`: a call takes a part of its input and uses a part of its room. -/
structure Zlib where
  inflate : (input : Bytes) → (room : Nat) → Inflated
  taken_le : ∀ input room, (inflate input room).taken ≤ input.length
  output_le : ∀ input room, (inflate input room).output.length ≤ room
  State : Type
  deflateInit2 : (level method windowBits memLevel strategy : Int) →
    (input : Bytes) → Option State
  deflateFinish : State → (room : Nat) → Deflated State
  deflate_le : ∀ state room, (deflateFinish state room).output.length ≤ room

def Z_OK : Int := 0
def Z_STREAM_END : Int := 1

def CHUNK_NORMAL : Int := 0
def CHUNK_DEFLATE : Int := 2
def CHUNK_RAW : Int := 3

/-- `deflate` with `Z_FINISH`.  Without a state it reports an error. -/
def Zlib.deflate (zlib : Zlib) (strm : Option zlib.State) (room : Nat) :
    Deflated (Option zlib.State) :=
  match strm with
  | none => ⟨false, [], none⟩
  | some state =>
      let deflated := zlib.deflateFinish state room
      ⟨deflated.ended, deflated.output, some deflated.next⟩

/-- `Read4` and `Read8`. -/
def read4 (patch : Memory) (pos : Int) : Int := leInt (patch.read pos 4)

def read8 (patch : Memory) (pos : Int) : Int := leInt (patch.read pos 8)

/-- The fields that say where the data of a chunk come from, as `size_t`. -/
structure Extent where
  srcStart : Nat
  srcLen : Nat
  patchOffset : Nat

def readExtent (patch : Memory) (pos : Int) : Extent :=
  ⟨uint32 (read8 patch pos), uint32 (read8 patch (pos + 8)),
    uint32 (read8 patch (pos + 16))⟩

section Program

variable (lib : Decoder) (zlib : Zlib) (patch : Memory) (fuel : Nat)
  (malloc : Malloc) (old : Memory) {sink : Sink}

/-- `ApplyBSDiffPatchMem` on the part of the source that an extent names. -/
def applyExtent (extent : Extent) : TracedRun Access Bytes :=
  applyBSDiffPatchMem lib patch fuel malloc old extent.srcStart
    (int32 extent.srcLen) (int32 extent.patchOffset)

/-- `ApplyBSDiffPatch`: what it returns. -/
def applyBSDiffPatch (extent : Extent) (out : Out sink) :
    TracedRun Access (Int × Out sink) := do
  match ← (applyExtent lib patch fuel malloc old extent).attempt with
  | none => pure (-1, out)
  | some new =>
      let (count, out) := out.write new
      if count < new.length then pure (1, out)
      else pure (0, out.update new)

/-- A normal chunk; `pos` is behind its type. -/
def normalChunk (pos : Int) (out : Out sink) :
    TracedRun Access (Int × Out sink) := do
  let header := pos
  let pos := int32 (pos + 24)
  if patch.data.length < pos then
    .fail "failed to read chunk %d normal header data"
  else
    .touch (.patch header 24)
    let (_, out) ← applyBSDiffPatch lib patch fuel malloc old
      (readExtent patch header) out
    pure (pos, out)

/-- Hash and write `dataLen` bytes of the patch.  `SHA_update` counts a
negative length down to zero through all of memory, which no run survives. -/
def writeRaw (pos dataLen : Int) (out : Out sink) :
    TracedRun Access (Out sink) := do
  .touch (.patch pos (uint32 dataLen))
  if dataLen < 0 then .cutOff
  else
    let data := patch.read pos dataLen.toNat
    let out := out.update data
    let (count, out) := out.write data
    if count ≠ dataLen then .fail "failed to write chunk %d raw data"
    else pure out

/-- A raw chunk. -/
def rawChunk (pos : Int) (out : Out sink) :
    TracedRun Access (Int × Out sink) := do
  let header := pos
  let pos := int32 (pos + 4)
  if patch.data.length < pos then
    .fail "failed to read chunk %d raw header data"
  else
    .touch (.patch header 4)
    let dataLen := read4 patch header
    if patch.data.length < int32 (pos + dataLen) then
      .fail "failed to read chunk %d raw data"
    else
      let out ← writeRaw patch pos dataLen out
      pure (int32 (pos + dataLen), out)

/-- Inflate a part of the source to exactly `expandedLen` bytes. -/
def inflateSource (srcStart srcLen expandedLen : Nat) :
    TracedRun Access Bytes := do
  match malloc expandedLen with
  | none => .fail "failed to allocate %d bytes for expanded_source"
  | some _ =>
      let inflated := zlib.inflate (old.read srcStart srcLen) expandedLen
      if inflated.init ≠ Z_OK then .fail "failed to init source inflation: %d"
      else
        .touch (.source srcStart inflated.taken)
        .touch (.block expandedLen 0 inflated.output.length)
        if inflated.ret ≠ Z_STREAM_END then
          .fail "source inflation returned %d"
        else if inflated.output.length ≠ expandedLen then
          .fail "source inflation short by %d bytes"
        else pure inflated.output

/-- What an access of `ApplyBSDiffPatchMem` is on the inflated source. -/
def onExpanded (expandedLen : Nat) : Access → Access
  | .source start len => .block expandedLen start len
  | access => access

/-- `ApplyBSDiffPatchMem` on the inflated source.  It does not look at what is
around it. -/
def applyExpanded (expanded : Bytes) (patchOffset : Nat) :
    TracedRun Access Bytes :=
  (applyBSDiffPatchMem lib patch fuel malloc ⟨expanded, fun _ => 0⟩ 0
    (int32 expanded.length) (int32 patchOffset)).relabel
      (onExpanded expanded.length)

/-- The loop around `deflate`. -/
def deflateLoop (tempSize : Nat) : (fuel : Nat) → (strm : Option zlib.State) →
    Out sink → TracedRun Access (Out sink)
  | 0, _, _ => .cutOff
  | fuel + 1, strm, out => do
      let deflated := zlib.deflate strm tempSize
      .touch (.block tempSize 0 deflated.output.length)
      let (count, out) := out.write deflated.output
      if count ≠ deflated.output.length then
        .fail "failed to write %ld compressed bytes to output"
      else
        let out := out.update deflated.output
        if deflated.ended then pure out
        else deflateLoop tempSize fuel deflated.next out

/-- `temp_size`: the inflated source is reused if it is large enough.  The
other buffer is used without a look at what `malloc` returned. -/
def tempSize (expandedLen : Nat) : TracedRun Access Nat :=
  if int32 expandedLen < 32768 then
    match malloc 32768 with
    | none => .cutOff
    | some _ => pure 32768
  else pure expandedLen

/-- `deflateInit2` with the parameters of a chunk.  What it returns is not
looked at. -/
def deflateStart (header : Int) (target : Bytes) : Option zlib.State :=
  zlib.deflateInit2 (read4 patch (header + 40)) (read4 patch (header + 44))
    (read4 patch (header + 48)) (read4 patch (header + 52))
    (read4 patch (header + 56)) target

/-- What comes before the loop around `deflate`: the size of its buffer, and
the stream for the new data. -/
def deflateSetup (header : Int) :
    TracedRun Access (Nat × Option zlib.State) := do
  let extent := readExtent patch header
  let expandedLen := uint32 (read8 patch (header + 24))
  let expanded ← inflateSource zlib malloc old extent.srcStart extent.srcLen
    expandedLen
  let target ← applyExpanded lib patch fuel malloc expanded extent.patchOffset
  let size ← tempSize malloc expandedLen
  pure (size, deflateStart zlib patch header target)

/-- A deflate chunk. -/
def deflateChunk (pos : Int) (out : Out sink) :
    TracedRun Access (Int × Out sink) := do
  let header := pos
  let pos := int32 (pos + 60)
  if patch.data.length < pos then
    .fail "failed to read chunk %d deflate header data"
  else
    .touch (.patch header 60)
    let (size, strm) ← deflateSetup lib zlib patch fuel malloc old header
    let out ← deflateLoop zlib size fuel strm out
    pure (pos, out)

/-- A chunk of a given type; `pos` is behind it. -/
def applyType (type pos : Int) (out : Out sink) :
    TracedRun Access (Int × Out sink) :=
  if type = CHUNK_NORMAL then normalChunk lib patch fuel malloc old pos out
  else if type = CHUNK_RAW then rawChunk patch pos out
  else if type = CHUNK_DEFLATE then
    deflateChunk lib zlib patch fuel malloc old pos out
  else .fail "patch chunk %d is unknown type %d"

/-- One pass of the loop over the chunks. -/
def applyChunk (pos : Int) (out : Out sink) :
    TracedRun Access (Int × Out sink) := do
  if patch.data.length < int32 (pos + 4) then
    .fail "failed to read chunk %d record"
  else
    .touch (.patch pos 4)
    applyType lib zlib patch fuel malloc old (read4 patch pos) (int32 (pos + 4))
      out

def applyChunks : (count : Nat) → (pos : Int) → Out sink →
    TracedRun Access (Out sink)
  | 0, _, out => pure out
  | count + 1, pos, out => do
      let (pos, out) ← applyChunk lib zlib patch fuel malloc old pos out
      applyChunks count pos out

/-- `ApplyImagePatch`: a failure prints its message and returns -1; a result
means that 0 is returned. -/
def applyImagePatch (token : sink.State) : TracedRun Access (Out sink) := do
  if patch.data.length < 12 then
    .fail "patch too short to contain header"
  else
    .touch (.patch 0 8)
    if patch.read 0 8 = ofString "IMGDIFF2" then
      .touch (.patch 8 4)
      applyChunks lib zlib patch fuel malloc old (read4 patch 8).toNat 12
        (Out.start token)
    else .fail "corrupt patch file header (magic number)"

end Program

end ImagePatch

end MetaOS
