/-
`bspatch.c`: a bsdiff patch is applied in memory.  The patch may lie anywhere
in a larger one, and nothing of it has been checked before.  Buffers are
pieces of memory with something around them; a run logs every access, also
those that leave a buffer.
-/
import MetaOS.StreamDecoder
import MetaOS.TracedRun

namespace MetaOS

namespace Bspatch

open Bytes

/-- `int`, `off_t` and `ssize_t` have 32 bits on the device. -/
def int32 (x : Int) : Int := x.bmod (2 ^ 32)

/-- `unsigned int` and `size_t`. -/
def uint32 (x : Int) : Nat := (x % 2 ^ 32).toNat

/-- A buffer and the memory around it. -/
structure Block where
  data : Bytes
  around : Int → UInt8

/-- The byte at an offset, also outside the buffer. -/
def Block.at (block : Block) (i : Int) : UInt8 :=
  if 0 ≤ i then (block.data[i.toNat]?).getD (block.around i)
  else block.around i

def Block.read (block : Block) (start : Int) (len : Nat) : Bytes :=
  (List.range len).map fun i : Nat => block.at (start + i)

/-- A buffer whose size is an `ssize_t`. -/
structure Memory extends Block where
  size_lt : data.length < 2 ^ 31

instance : Coe Memory Block := ⟨Memory.toBlock⟩

/-- An access to the patch, to the source, or to a block of `size` bytes. -/
inductive Access where
  | patch (start : Int) (len : Nat)
  | source (start : Int) (len : Nat)
  | block (size start : Int) (len : Nat)
deriving DecidableEq, Repr

/-- `offtin`: sign and magnitude, least significant byte first. -/
def offtin (buf : Bytes) : Int :=
  let top := buf.getD 7 0
  let y := (buf.take 7).foldr (fun b y => int32 (int32 (y * 256) + b.toNat))
    ((top &&& 0x7F).toNat : Int)
  if top &&& 0x80 ≠ 0 then int32 (-y) else y

/-- `bz_stream`, as far as input goes. -/
structure Stream (lib : Decoder) where
  nextIn : Int
  availIn : Nat
  state : lib.State

section Program

variable (lib : Decoder) (patch : Memory) (fuel : Nat)

def Stream.input (s : Stream lib) : Bytes := patch.read s.nextIn s.availIn

/-- `FillBuffer`; `log` is where the output goes. -/
def fillBuffer (size : Int) (log : Nat → List Access) (s : Stream lib) :
    TracedRun Access (Bool × Bytes × Stream lib) :=
  let filled := lib.fill fuel s.state (s.input lib patch) (uint32 size)
  ⟨filled.done.map fun ok => .ok (ok, filled.output,
      ⟨s.nextIn + filled.taken, s.availIn - filled.taken, filled.next⟩),
    .patch s.nextIn filled.taken :: log filled.output.length⟩

/-- Bytes that are written at `pos`; what goes past the buffer is lost. -/
def place (new : Bytes) (pos : Int) (bytes : Bytes) : Bytes :=
  new.mapIdx fun i b =>
    if pos ≤ i then (bytes[(i - pos).toNat]?).getD b else b

/-- Is there old data to add to byte `i` of the diff string? -/
def overlaps (oldSize oldpos : Int) (i : Nat) : Bool :=
  0 ≤ int32 (oldpos + i) && int32 (oldpos + i) < oldSize

/-- The new file with old data added to the diff string. -/
def added (old : Block) (oldStart oldSize oldpos newpos : Int) (count : Nat)
    (new : Bytes) : Bytes :=
  new.mapIdx fun p b =>
    let i := (p - newpos).toNat
    if newpos ≤ p ∧ i < count ∧ overlaps oldSize oldpos i then
      b + old.at (oldStart + int32 (oldpos + i))
    else b

/-- Add old data to the diff string. -/
def addOldData (old : Block) (oldStart oldSize oldpos newSize newpos : Int)
    (count : Nat) (new : Bytes) : TracedRun Access Bytes :=
  ⟨some (.ok (added old oldStart oldSize oldpos newpos count new)),
    ((List.range count).filter (overlaps oldSize oldpos)).flatMap fun i : Nat =>
      [.source (oldStart + int32 (oldpos + i)) 1,
        .block newSize (newpos + i) 1]⟩

/-- The variables of the loop of `ApplyBSDiffPatchMem`. -/
structure Work where
  oldpos : Int
  newpos : Int
  new : Bytes
  cstream : Stream lib
  dstream : Stream lib
  estream : Stream lib

/-- One pass of the loop. -/
def patchStep (old : Block) (oldStart oldSize newSize : Int)
    (w : Work lib) : TracedRun Access (Work lib) := do
  -- Read control data
  let (ok, buf, cstream) ← fillBuffer lib patch fuel 24 (fun _ => []) w.cstream
  if ok then
    let ctrl0 := offtin (buf.window 0 8)
    let ctrl1 := offtin (buf.window 8 8)
    let ctrl2 := offtin (buf.window 16 8)
    if newSize < int32 (w.newpos + ctrl0) then
      .fail "corrupt patch (new file overrun)"
    else
      -- Read diff string
      let (ok, diff, dstream) ← fillBuffer lib patch fuel ctrl0
        (fun len => [.block newSize w.newpos len]) w.dstream
      if ok then
        let new ← addOldData old oldStart oldSize w.oldpos newSize w.newpos
          ctrl0.toNat (place w.new w.newpos diff)
        -- Adjust pointers
        let newpos := int32 (w.newpos + ctrl0)
        let oldpos := int32 (w.oldpos + ctrl0)
        if newSize < int32 (newpos + ctrl1) then
          .fail "corrupt patch (new file overrun)"
        else
          -- Read extra string
          let (ok, extra, estream) ← fillBuffer lib patch fuel ctrl1
            (fun len => [.block newSize newpos len]) w.estream
          if ok then
            pure ⟨int32 (oldpos + ctrl2), int32 (newpos + ctrl1),
              place new newpos extra, cstream, dstream, estream⟩
          else .fail "error while reading extra stream"
      else .fail "error while reading diff stream"
  else .fail "error while reading control stream"

def patchLoop (old : Block) (oldStart oldSize newSize : Int) :
    (passes : Nat) → Work lib → TracedRun Access Bytes
  | passes, w =>
      if w.newpos < newSize then
        match passes with
        | 0 => .cutOff
        | passes + 1 => do
            let w ← patchStep lib patch fuel old oldStart oldSize newSize w
            patchLoop old oldStart oldSize newSize passes w
      else pure w.new

/-- The header fields of a patch: the lengths of the control and diff blocks
and of the new file. -/
structure Header where
  ctrlLen : Int
  dataLen : Int
  newSize : Int

def readHeader (patchOffset : Int) : Header :=
  ⟨offtin (patch.read (patchOffset + 8) 8),
    offtin (patch.read (patchOffset + 16) 8),
    offtin (patch.read (patchOffset + 24) 8)⟩

/-- What `malloc` returns: memory of the right size with anything in it, or
nothing. -/
abbrev Malloc := (size : Nat) → Option { bytes : Bytes // bytes.length = size }

theorem zeros_length (size : Nat) :
    (List.replicate size (0 : UInt8)).length = size :=
  List.length_replicate

/-- The variables before the loop.  `lib.init` is what the initialisation
leaves, whether or not it reported an error. -/
def Header.start (header : Header) (patchOffset : Int) (new : Bytes) :
    Work lib :=
  let ctrl := patchOffset + 32
  let diff := ctrl + header.ctrlLen
  let extra := diff + header.dataLen
  { oldpos := 0
    newpos := 0
    new := new
    cstream := ⟨ctrl, uint32 header.ctrlLen, lib.init⟩
    dstream := ⟨diff, uint32 header.dataLen, lib.init⟩
    estream := ⟨extra, uint32 (patch.data.length - extra), lib.init⟩ }

/-- `ApplyBSDiffPatchMem` on `oldSize` bytes of `old` from `oldStart` on.  A
failure prints its message and returns 1. -/
def applyBSDiffPatchMem (malloc : Malloc) (old : Block)
    (oldStart oldSize : Int) (patchOffset : Int) : TracedRun Access Bytes := do
  .touch (.patch patchOffset 8)
  if patch.read patchOffset 8 = ofString "BSDIFF40" then
    .touch (.patch (patchOffset + 8) 24)
    let header := readHeader patch patchOffset
    if header.ctrlLen < 0 ∨ header.dataLen < 0 ∨ header.newSize < 0 then
      .fail "corrupt patch file header (data lengths)"
    else
      match malloc header.newSize.toNat with
      | none => .fail "failed to allocate memory for output file"
      | some new =>
          patchLoop lib patch fuel old oldStart oldSize header.newSize fuel
            (header.start lib patch patchOffset new)
  else .fail "corrupt bsdiff patch file header (magic number)"

end Program

theorem int32_of_range {x : Int} (hlow : -2 ^ 31 ≤ x) (hhigh : x < 2 ^ 31) :
    int32 x = x := by
  rw [int32]
  exact Int.bmod_eq_of_le (by omega) (by omega)

theorem int32_range (x : Int) : -2 ^ 31 ≤ int32 x ∧ int32 x < 2 ^ 31 := by
  have hlow := Int.le_bmod (x := x) (m := 2 ^ 32) (by norm_num)
  have hhigh := Int.bmod_lt (x := x) (m := 2 ^ 32) (by norm_num)
  rw [int32]
  omega

theorem int32_natCast {n : Nat} (hn : n < 2 ^ 31) : int32 (n : Int) = n :=
  int32_of_range (by omega) (by omega)

theorem int32_add {a b : Nat} (hsum : a + b < 2 ^ 31) :
    int32 ((a : Int) + b) = (a + b : Nat) := by
  rw [← Nat.cast_add]
  exact int32_natCast hsum

theorem uint32_of_lt {n : Nat} (hn : n < 2 ^ 32) : uint32 (n : Int) = n := by
  rw [uint32]
  omega

theorem uint32_lt (x : Int) : uint32 x < 2 ^ 32 := by
  have hlt := Int.emod_lt_of_pos x (by norm_num : (0 : Int) < 2 ^ 32)
  have hnonneg := Int.emod_nonneg x (by norm_num : (2 ^ 32 : Int) ≠ 0)
  rw [uint32]
  omega

theorem read_length (block : Block) (start : Int) (len : Nat) :
    (block.read start len).length = len := by
  simp [Block.read]

theorem read_drop (block : Block) (start : Int) (len count : Nat) :
    (block.read start len).drop count =
      block.read (start + count) (len - count) := by
  apply List.ext_getElem
  · simp [read_length]
  · intro i _ _
    simp only [Block.read, List.getElem_drop, List.getElem_map,
      List.getElem_range]
    congr 1
    push_cast
    ring

/-- What is read inside a buffer. -/
theorem read_eq_window {block : Block} {start len : Nat}
    (hle : start + len ≤ block.data.length) :
    block.read start len = block.data.window start len := by
  apply List.ext_getElem
  · rw [read_length, Bytes.window_length]
    omega
  · intro i hi _
    rw [read_length] at hi
    have hlt : start + i < block.data.length := by omega
    simp only [Block.read, Bytes.window, List.getElem_map, List.getElem_range,
      List.getElem_take, List.getElem_drop]
    rw [Block.at, if_pos (by omega), ← Nat.cast_add, Int.toNat_natCast,
      List.getElem?_eq_getElem hlt, Option.getD_some]

/-- A stream seen through its decoder: the data it holds, and whether a
request for more than that is answered. -/
structure Decoded where
  data : Bytes
  closed : Bool

def Decoded.skip (d : Decoded) (count : Nat) : Decoded :=
  ⟨d.data.drop count, d.closed⟩

section Decoding

variable {lib : Decoder} (laws : lib.Laws) (patch : Memory) (fuel : Nat)

def Stream.decoded (s : Stream lib) : Decoded :=
  ⟨laws.data s.state (s.input lib patch),
    laws.closed s.state (s.input lib patch)⟩

variable {patch fuel} {size : Int} {log : Nat → List Access} {s : Stream lib}

/-- `FillBuffer` returned 0: it got what the stream holds. -/
theorem fillBuffer_true {out : Bytes} {s' : Stream lib}
    (hresult : (fillBuffer lib patch fuel size log s).result =
      some (.ok (true, out, s'))) :
    uint32 size ≤ (s.decoded laws patch).data.length ∧
      out = (s.decoded laws patch).data.take (uint32 size) ∧
      s'.decoded laws patch = (s.decoded laws patch).skip (uint32 size) ∧
      s'.availIn ≤ s.availIn := by
  obtain ⟨ok, hdone, hvalue⟩ := Option.map_eq_some_iff.mp hresult
  obtain ⟨rfl, rfl, rfl⟩ : ok = true ∧ _ = out ∧ _ = s' := by
    simpa using hvalue
  obtain ⟨hlong, hout, hdata, hclosed⟩ := laws.fill_true hdone
  refine ⟨hlong, hout, ?_, Nat.sub_le _ _⟩
  rw [Stream.input, read_drop] at hdata hclosed
  simp only [Stream.decoded, Decoded.skip, Stream.input] at *
  rw [hdata, hclosed]

/-- It returned -1: more was asked for than a closed stream holds. -/
theorem fillBuffer_false {out : Bytes} {s' : Stream lib}
    (hresult : (fillBuffer lib patch fuel size log s).result =
      some (.ok (false, out, s'))) :
    (s.decoded laws patch).data.length < uint32 size ∧
      (s.decoded laws patch).closed = true := by
  obtain ⟨ok, hdone, hvalue⟩ := Option.map_eq_some_iff.mp hresult
  obtain ⟨rfl, -, -⟩ : ok = false ∧ _ = out ∧ _ = s' := by
    simpa using hvalue
  exact laws.fill_false hdone

theorem fillBuffer_ends (size : Int) (log : Nat → List Access)
    (hfuel : s.availIn + uint32 size < fuel)
    (hmore : uint32 size ≤ (s.decoded laws patch).data.length ∨
      (s.decoded laws patch).closed = true) :
    ∃ ok out s', (fillBuffer lib patch fuel size log s).result =
      some (.ok (ok, out, s')) := by
  have hroom : (s.input lib patch).length + uint32 size < fuel := by
    rwa [Stream.input, read_length]
  have hends := laws.fill_ends hroom hmore
  obtain ⟨ok, hok⟩ := Option.ne_none_iff_exists'.mp hends
  exact ⟨ok, _, _, by rw [fillBuffer, hok]; rfl⟩

/-- `FillBuffer` either does not return or returns 0 or -1. -/
theorem fillBuffer_cases (patch : Memory) (fuel : Nat) (size : Int)
    (log : Nat → List Access) (s : Stream lib) :
    (fillBuffer lib patch fuel size log s).result = none ∨
      ∃ ok out s', (fillBuffer lib patch fuel size log s).result =
        some (.ok (ok, out, s')) := by
  rw [fillBuffer]
  cases (lib.fill fuel s.state (s.input lib patch) (uint32 size)).done with
  | none => exact Or.inl rfl
  | some ok => exact Or.inr ⟨ok, _, _, rfl⟩

/-- The next control triple of a stream. -/
def Decoded.ctrl (c : Decoded) (i : Nat) : Int :=
  offtin (c.data.window (8 * i) 8)

/-- A pass of the loop goes through: the control stream holds a triple, the
other two what it asks for, and the checks let it pass. -/
structure Goes (newSize newpos : Int) (c d e : Decoded) : Prop where
  control : 24 ≤ c.data.length
  first : int32 (newpos + c.ctrl 0) ≤ newSize
  diff : uint32 (c.ctrl 0) ≤ d.data.length
  second : int32 (int32 (newpos + c.ctrl 0) + c.ctrl 1) ≤ newSize
  extra : uint32 (c.ctrl 1) ≤ e.data.length

/-- A pass of the loop asks an open stream for more than it holds. -/
inductive Hangs (newSize newpos : Int) (c d e : Decoded) : Prop
  | control (hshort : c.data.length < 24) (hopen : c.closed = false)
  | diff (hctrl : 24 ≤ c.data.length)
      (hfirst : int32 (newpos + c.ctrl 0) ≤ newSize)
      (hshort : d.data.length < uint32 (c.ctrl 0)) (hopen : d.closed = false)
  | extra (hctrl : 24 ≤ c.data.length)
      (hfirst : int32 (newpos + c.ctrl 0) ≤ newSize)
      (hdiff : uint32 (c.ctrl 0) ≤ d.data.length)
      (hsecond : int32 (int32 (newpos + c.ctrl 0) + c.ctrl 1) ≤ newSize)
      (hshort : e.data.length < uint32 (c.ctrl 1)) (hopen : e.closed = false)

theorem Goes.not_hangs {newSize newpos : Int} {c d e : Decoded}
    (hgoes : Goes newSize newpos c d e) : ¬ Hangs newSize newpos c d e := by
  obtain ⟨hctrl, hfirst, hdiff, hsecond, hextra⟩ := hgoes
  rintro (⟨hshort, -⟩ | ⟨-, -, hshort, -⟩ | ⟨-, -, -, -, hshort, -⟩) <;> omega

variable {old : Block} {oldStart oldSize newSize : Int} {w : Work lib}

/-- What a pass does to its variables. -/
structure Passed (laws : lib.Laws) (patch : Memory) (old : Block)
    (oldStart oldSize : Int) (w w' : Work lib) : Prop where
  oldpos : w'.oldpos = int32 (int32 (w.oldpos +
    (w.cstream.decoded laws patch).ctrl 0) +
      (w.cstream.decoded laws patch).ctrl 2)
  newpos : w'.newpos = int32 (int32 (w.newpos +
    (w.cstream.decoded laws patch).ctrl 0) +
      (w.cstream.decoded laws patch).ctrl 1)
  new : w'.new = place
    (added old oldStart oldSize w.oldpos w.newpos
      ((w.cstream.decoded laws patch).ctrl 0).toNat
      (place w.new w.newpos ((w.dstream.decoded laws patch).data.take
        (uint32 ((w.cstream.decoded laws patch).ctrl 0)))))
    (int32 (w.newpos + (w.cstream.decoded laws patch).ctrl 0))
    ((w.estream.decoded laws patch).data.take
      (uint32 ((w.cstream.decoded laws patch).ctrl 1)))
  cstream : w'.cstream.decoded laws patch =
    (w.cstream.decoded laws patch).skip 24
  dstream : w'.dstream.decoded laws patch = (w.dstream.decoded laws patch).skip
    (uint32 ((w.cstream.decoded laws patch).ctrl 0))
  estream : w'.estream.decoded laws patch = (w.estream.decoded laws patch).skip
    (uint32 ((w.cstream.decoded laws patch).ctrl 1))
  avail : w'.cstream.availIn ≤ w.cstream.availIn ∧
    w'.dstream.availIn ≤ w.dstream.availIn ∧
    w'.estream.availIn ≤ w.estream.availIn

/-- How a pass may end, whatever the fuel. -/
inductive PassEnd (laws : lib.Laws) (patch : Memory) (old : Block)
    (oldStart oldSize newSize : Int) (w : Work lib) :
    Option (Except String (Work lib)) → Prop
  | cutOff : PassEnd laws patch old oldStart oldSize newSize w none
  | fails (message : String)
      (hgoes : ¬ Goes newSize w.newpos (w.cstream.decoded laws patch)
        (w.dstream.decoded laws patch) (w.estream.decoded laws patch))
      (hhangs : ¬ Hangs newSize w.newpos (w.cstream.decoded laws patch)
        (w.dstream.decoded laws patch) (w.estream.decoded laws patch)) :
      PassEnd laws patch old oldStart oldSize newSize w
        (some (.error message))
  | passes (w' : Work lib)
      (hgoes : Goes newSize w.newpos (w.cstream.decoded laws patch)
        (w.dstream.decoded laws patch) (w.estream.decoded laws patch))
      (hpassed : Passed laws patch old oldStart oldSize w w') :
      PassEnd laws patch old oldStart oldSize newSize w (some (.ok w'))

theorem uint32_control : uint32 24 = 24 := by decide

theorem control_window (c : Decoded) (i : Nat) {off : Nat}
    (hoff : off = 8 * i) (hi : i < 3) :
    offtin (Bytes.window (c.data.take (uint32 24)) off 8) = c.ctrl i := by
  rw [uint32_control, hoff, Decoded.ctrl, window_take _ _ _ _ (by omega)]

/-- The three values of a triple that was read. -/
theorem ctrl_of_fill {buf : Bytes} {s' : Stream lib}
    (hresult : (fillBuffer lib patch fuel 24 log s).result =
      some (.ok (true, buf, s'))) :
    offtin (buf.window 0 8) = (s.decoded laws patch).ctrl 0 ∧
      offtin (buf.window 8 8) = (s.decoded laws patch).ctrl 1 ∧
      offtin (buf.window 16 8) = (s.decoded laws patch).ctrl 2 := by
  rw [(fillBuffer_true laws hresult).2.1]
  exact ⟨control_window _ 0 rfl (by decide), control_window _ 1 rfl (by decide),
    control_window _ 2 rfl (by decide)⟩

theorem patchStep_end (patch : Memory) (fuel : Nat) (old : Block)
    (oldStart oldSize newSize : Int) (w : Work lib) :
    PassEnd laws patch old oldStart oldSize newSize w
      (patchStep lib patch fuel old oldStart oldSize newSize w).result := by
  unfold patchStep
  rcases fillBuffer_cases patch fuel 24 (fun _ => []) w.cstream with
    hnone | ⟨ok, buf, cs, hctrl⟩
  · rw [TracedRun.result_bind_of_none hnone]
    exact .cutOff
  rw [TracedRun.result_bind_of_ok hctrl]
  cases ok with
  | false =>
      obtain ⟨hshort, hclosed⟩ := fillBuffer_false laws hctrl
      rw [uint32_control] at hshort
      refine .fails _ (fun hgoes => ?_) (fun hhangs => ?_)
      · have hlong := hgoes.control
        omega
      · rcases hhangs with ⟨-, hopen⟩ | ⟨hlong, -⟩ | ⟨hlong, -⟩
        · rw [hclosed] at hopen
          cases hopen
        · omega
        · omega
  | true =>
      obtain ⟨hlong, -, hcs, hcavail⟩ := fillBuffer_true laws hctrl
      rw [uint32_control] at hlong
      obtain ⟨hctrl0, hctrl1, hctrl2⟩ := ctrl_of_fill laws hctrl
      simp only [if_true, hctrl0, hctrl1, hctrl2]
      by_cases hfirst : newSize < int32 (w.newpos +
          (w.cstream.decoded laws patch).ctrl 0)
      · rw [if_pos hfirst]
        refine .fails _ (fun hgoes => ?_) (fun hhangs => ?_)
        · exact absurd hgoes.first (not_le.mpr hfirst)
        · rcases hhangs with ⟨hshort, -⟩ | ⟨-, hfits, -⟩ | ⟨-, hfits, -⟩ <;>
            omega
      rw [if_neg hfirst]
      rcases fillBuffer_cases patch fuel
        ((w.cstream.decoded laws patch).ctrl 0)
        (fun len => [.block newSize w.newpos len]) w.dstream with
        hnone | ⟨ok, diff, ds, hdiff⟩
      · rw [TracedRun.result_bind_of_none hnone]
        exact .cutOff
      rw [TracedRun.result_bind_of_ok hdiff]
      cases ok with
      | false =>
          obtain ⟨hshort, hclosed⟩ := fillBuffer_false laws hdiff
          refine .fails _ (fun hgoes => ?_) (fun hhangs => ?_)
          · exact absurd hgoes.diff (not_le.mpr hshort)
          · rcases hhangs with ⟨hnone, -⟩ | ⟨-, -, -, hopen⟩ | ⟨-, -, hfits, -⟩
            · omega
            · rw [hclosed] at hopen
              cases hopen
            · omega
      | true =>
          obtain ⟨hdlong, hdbuf, hds, hdavail⟩ := fillBuffer_true laws hdiff
          simp only [if_true]
          rw [TracedRun.result_bind_of_ok rfl]
          by_cases hsecond : newSize < int32 (int32 (w.newpos +
              (w.cstream.decoded laws patch).ctrl 0) +
                (w.cstream.decoded laws patch).ctrl 1)
          · rw [if_pos hsecond]
            refine .fails _ (fun hgoes => ?_) (fun hhangs => ?_)
            · exact absurd hgoes.second (not_le.mpr hsecond)
            · rcases hhangs with ⟨hshort, -⟩ | ⟨-, -, hshort, -⟩ |
                ⟨-, -, -, hfits, -⟩ <;> omega
          rw [if_neg hsecond]
          rcases fillBuffer_cases patch fuel
            ((w.cstream.decoded laws patch).ctrl 1)
            (fun len => [.block newSize (int32 (w.newpos +
              (w.cstream.decoded laws patch).ctrl 0)) len]) w.estream with
            hnone | ⟨ok, extra, es, hextra⟩
          · rw [TracedRun.result_bind_of_none hnone]
            exact .cutOff
          rw [TracedRun.result_bind_of_ok hextra]
          cases ok with
          | false =>
              obtain ⟨hshort, hclosed⟩ := fillBuffer_false laws hextra
              refine .fails _ (fun hgoes => ?_) (fun hhangs => ?_)
              · exact absurd hgoes.extra (not_le.mpr hshort)
              · rcases hhangs with ⟨hnone, -⟩ | ⟨-, -, hfits, -⟩ |
                  ⟨-, -, -, -, -, hopen⟩
                · omega
                · omega
                · rw [hclosed] at hopen
                  cases hopen
          | true =>
              obtain ⟨helong, hebuf, hes, heavail⟩ :=
                fillBuffer_true laws hextra
              rw [uint32_control] at hcs
              exact .passes _
                ⟨hlong, not_lt.mp hfirst, hdlong, not_lt.mp hsecond, helong⟩
                ⟨rfl, rfl, by rw [hdbuf, hebuf], hcs, hds, hes, hcavail,
                  hdavail, heavail⟩

/-- Fuel for every request that a pass may make. -/
def Work.Fueled (fuel : Nat) (w : Work lib) : Prop :=
  w.cstream.availIn + 2 ^ 32 ≤ fuel ∧ w.dstream.availIn + 2 ^ 32 ≤ fuel ∧
    w.estream.availIn + 2 ^ 32 ≤ fuel

/-- A pass comes to an end unless it hangs. -/
theorem patchStep_ends (hfuel : w.Fueled fuel)
    (hhangs : ¬ Hangs newSize w.newpos (w.cstream.decoded laws patch)
      (w.dstream.decoded laws patch) (w.estream.decoded laws patch)) :
    (patchStep lib patch fuel old oldStart oldSize newSize w).result ≠
      none := by
  obtain ⟨hcfuel, hdfuel, hefuel⟩ := hfuel
  have hfill : ∀ {size : Int} {log : Nat → List Access} {s : Stream lib},
      s.availIn + 2 ^ 32 ≤ fuel →
      ((s.decoded laws patch).data.length < uint32 size →
        (s.decoded laws patch).closed = false → False) →
      (fillBuffer lib patch fuel size log s).result ≠ none := by
    intro size log s hroom hopen
    have hlt := uint32_lt size
    have hmore : uint32 size ≤ (s.decoded laws patch).data.length ∨
        (s.decoded laws patch).closed = true := by
      by_contra hnone
      push Not at hnone
      exact hopen hnone.1 (by simpa using hnone.2)
    obtain ⟨ok, out, s', hresult⟩ := fillBuffer_ends laws size log
      (by omega : s.availIn + uint32 size < fuel) hmore
    rw [hresult]
    simp
  unfold patchStep
  refine TracedRun.bind_ends (hfill hcfuel ?_) ?_
  · intro hshort hopen
    exact hhangs (.control hshort hopen)
  rintro ⟨ok, buf, cs⟩ hctrl
  cases ok with
  | false => simp
  | true =>
      have hlong := (fillBuffer_true laws hctrl).1
      rw [uint32_control] at hlong
      obtain ⟨hctrl0, hctrl1, hctrl2⟩ := ctrl_of_fill laws hctrl
      simp only [if_true, hctrl0, hctrl1, hctrl2]
      split
      · simp
      next hfirst =>
      refine TracedRun.bind_ends (hfill hdfuel ?_) ?_
      · intro hshort hopen
        exact hhangs (.diff hlong (not_lt.mp hfirst) hshort hopen)
      rintro ⟨ok, diff, ds⟩ hdiff
      cases ok with
      | false => simp
      | true =>
          have hdlong := (fillBuffer_true laws hdiff).1
          simp only [if_true]
          rw [TracedRun.result_bind_of_ok rfl]
          split
          · simp
          next hsecond =>
          refine TracedRun.bind_ends (hfill hefuel ?_) ?_
          · intro hshort hopen
            exact hhangs (.extra hlong (not_lt.mp hfirst) hdlong
              (not_lt.mp hsecond) hshort hopen)
          rintro ⟨ok, extra, es⟩ hextra
          cases ok with
          | false => simp
          | true => simp

end Decoding

/-- The header is good and there is memory for the new file. -/
structure Accepted (patch : Memory) (malloc : Malloc) (patchOffset : Int) :
    Prop where
  magic : patch.read patchOffset 8 = ofString "BSDIFF40"
  ctrlLen : 0 ≤ (readHeader patch patchOffset).ctrlLen
  dataLen : 0 ≤ (readHeader patch patchOffset).dataLen
  newSize : 0 ≤ (readHeader patch patchOffset).newSize
  memory : (malloc (readHeader patch patchOffset).newSize.toNat).isSome = true

section Accepting

variable (lib : Decoder) {patch : Memory} (fuel : Nat) (old : Block)
  (oldStart oldSize : Int) {malloc : Malloc} {patchOffset : Int}

/-- An accepted patch is left to the loop. -/
theorem result_of_accepted (hgood : Accepted patch malloc patchOffset) :
    ∃ new : Bytes, new.length = (readHeader patch patchOffset).newSize.toNat ∧
      (applyBSDiffPatchMem lib patch fuel malloc old oldStart oldSize
        patchOffset).result =
      (patchLoop lib patch fuel old oldStart oldSize
        (readHeader patch patchOffset).newSize fuel
        ((readHeader patch patchOffset).start lib patch patchOffset
          new)).result := by
  obtain ⟨hmagic, hctrl, hdata, hsize, hmemory⟩ := hgood
  obtain ⟨new, hnew⟩ := Option.isSome_iff_exists.mp hmemory
  refine ⟨new.1, new.2, ?_⟩
  rw [applyBSDiffPatchMem, TracedRun.touch_bind_result, if_pos hmagic,
    TracedRun.touch_bind_result]
  dsimp only
  rw [if_neg (by omega), hnew]

/-- Any other patch is turned away. -/
theorem result_of_not_accepted (hbad : ¬ Accepted patch malloc patchOffset) :
    ∃ message, (applyBSDiffPatchMem lib patch fuel malloc old oldStart oldSize
      patchOffset).result = some (.error message) := by
  rw [applyBSDiffPatchMem, TracedRun.touch_bind_result]
  by_cases hmagic : patch.read patchOffset 8 = ofString "BSDIFF40"
  · rw [if_pos hmagic, TracedRun.touch_bind_result]
    dsimp only
    split
    · exact ⟨_, rfl⟩
    · next hlengths =>
        cases hnew : malloc (readHeader patch patchOffset).newSize.toNat with
        | none => exact ⟨_, rfl⟩
        | some new =>
            refine absurd ⟨hmagic, ?_, ?_, ?_, ?_⟩ hbad
            · omega
            · omega
            · omega
            · rw [hnew]
              rfl
  · rw [if_neg hmagic]
    exact ⟨_, rfl⟩

end Accepting

end Bspatch

end MetaOS
