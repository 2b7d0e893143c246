/-
`ReadImage` of `imgdiff.c`: an image is cut into gzip members and what lies
between them.

The search for the next member looks at the four zero bytes behind the image,
the test for a member does not; and `inflate` is called again until it reports
the end of the stream, whatever else it reports.  So the loop does not end on
every file, and a member that is cut off may be taken to reach past the end of
the file.
-/
import Mathlib.Logic.Relation
import MetaOS.Bspatch
import MetaOS.Imgdiff

namespace MetaOS

namespace Imgdiff

open Bspatch Bytes

/-- A place in a block of memory.  Block 0 is the image, the others come from
`malloc` one after the other. -/
structure Pointer where
  block : Nat
  offset : Int
deriving DecidableEq

instance : AddAction Nat Pointer where
  vadd n p := ⟨p.block, p.offset + n⟩
  zero_vadd p := by
    change Pointer.mk p.block (p.offset + (0 : Nat)) = p
    simp
  add_vadd m n p := by
    change Pointer.mk p.block (p.offset + (m + n : Nat)) =
      Pointer.mk p.block (p.offset + n + m)
    congr 1
    omega

/-- The start of the image. -/
def img : Pointer := ⟨0, 0⟩

/-- The bytes that were written to the blocks from `malloc`. -/
abbrev Heap := List Bytes

def GZIP_HEADER_LEN : Nat := 10
def GZIP_FOOTER_LEN : Nat := 8

section Program

/-- The image in memory, with four zero bytes behind it. -/
def padded (file : Memory) : Block :=
  ⟨file.data ++ [0, 0, 0, 0], file.around⟩

/-- The four-byte string `1f8b0800`. -/
def magicAt (block : Block) (i : Nat) : Bool :=
  block.at i == 0x1f && block.at (i + 1 : Nat) == 0x8b &&
    block.at (i + 2 : Nat) == 0x08 && block.at (i + 3 : Nat) == 0x00

/-- Is there the start of a gzip chunk? -/
def gzipAt (file : Memory) (pos : Nat) : Bool :=
  4 ≤ file.data.length - pos && magicAt (padded file) pos

/-- Scan forward for a gzip header. -/
def scan (file : Memory) (pos : Nat) : (left len : Nat) → Nat
  | 0, len => len
  | left + 1, len =>
      if magicAt (padded file) (pos + len) then len
      else scan file pos left (len + 1)

/-- The length of the normal chunk at an offset. -/
def normalLen (file : Memory) (pos : Nat) : Nat :=
  scan file pos (file.data.length - pos) 0

/-- `avail_in`, an `unsigned int`, when `inflate` starts at an offset. -/
def availIn (file : Memory) (pos : Nat) : Nat :=
  uint32 ((file.data.length : Int) - pos)

/-- What `inflate` finds there. -/
def inflateInput (file : Memory) (pos : Nat) : Bytes :=
  (padded file).read pos (availIn file pos)

/-- `deflate_len`, from the `avail_in` that `inflate` leaves. -/
def deflateLength (file : Memory) (pos taken : Nat) : Nat :=
  let left := availIn file pos - taken
  uint32 ((file.data.length : Int) - left - pos)

variable (lib : Decoder) (file : Memory) (uninit : ImageChunk Pointer)

/-- A normal chunk; `uninit` is what the other fields happen to hold. -/
def normalChunk (pos len : Nat) : ImageChunk Pointer :=
  { uninit with
    start := pos
    type := .normal
    len := len
    data := ⟨0, pos⟩ }

/-- The deflate chunk of a gzip member. -/
def deflateChunk (pos deflateLen len : Nat) (heap : Heap) :
    ImageChunk Pointer where
  type := .deflate
  filename := none
  len := len
  data := ⟨heap.length + 1, 0⟩
  start := pos
  deflateData := ⟨0, pos⟩
  deflateLen := deflateLen

/-- The size of the uncompressed data in the footer that ends at `pos`. -/
def footerSize (pos : Nat) : Nat :=
  uint32 (leInt ((padded file).read ((pos : Int) - 4) 4))

/-- The loop of `ReadImage`.  `none` is a loop that goes on; the result of one
that ends may be `NULL`. -/
def readImageLoop : (fuel pos : Nat) → List (ImageChunk Pointer) → Heap →
    Option (Option (List (ImageChunk Pointer) × Heap))
  | 0, _, _, _ => none
  | fuel + 1, pos, chunks, heap =>
      if pos < file.data.length then
        if gzipAt file pos then
          let header := normalChunk uninit pos GZIP_HEADER_LEN
          let pos := pos + GZIP_HEADER_LEN
          match lib.drain fuel lib.init (inflateInput file pos) 32768 [] with
          | none => none
          | some (data, taken) =>
              let deflateLen := deflateLength file pos taken
              let deflate := deflateChunk pos deflateLen data.length heap
              let pos := pos + deflateLen
              let footer := normalChunk uninit pos GZIP_FOOTER_LEN
              let pos := pos + GZIP_FOOTER_LEN
              if footerSize file pos ≠ data.length then some none
              else
                readImageLoop fuel pos (chunks ++ [header, deflate, footer])
                  (heap ++ [data])
        else
          let len := normalLen file pos
          readImageLoop fuel (pos + len)
            (chunks ++ [normalChunk uninit pos len]) heap
      else some (some (chunks, heap))

def readImage (fuel : Nat) :
    Option (Option (List (ImageChunk Pointer) × Heap)) :=
  readImageLoop lib file uninit fuel 0 [] []

end Program

section Positions

variable (lib : Decoder) (file : Memory)

/-- Called again and again, `inflate` reaches the end of the stream that
starts at an offset, with this data and after this many bytes. -/
def InflatesAt (pos : Nat) (data : Bytes) (taken : Nat) : Prop :=
  ∃ fuel, lib.drain fuel lib.init (inflateInput file pos) 32768 [] =
    some (data, taken)

/-- Where the loop goes on from an offset. -/
inductive Advances : Nat → Nat → Prop
  | normal {pos : Nat} (hlt : pos < file.data.length)
      (hgzip : gzipAt file pos = false) :
      Advances pos (pos + normalLen file pos)
  | member {pos taken : Nat} {data : Bytes} (hlt : pos < file.data.length)
      (hgzip : gzipAt file pos = true)
      (hinflates : InflatesAt lib file (pos + 10) data taken)
      (hfooter : footerSize file (pos + 10 + taken + 8) = data.length) :
      Advances pos (pos + 10 + taken + 8)

/-- The offsets at which the loop looks for a gzip header. -/
def Reached (pos : Nat) : Prop :=
  Relation.ReflTransGen (Advances lib file) 0 pos

variable {lib file}

theorem InflatesAt.unique {pos taken taken' : Nat} {data data' : Bytes}
    (hfirst : InflatesAt lib file pos data taken)
    (hsecond : InflatesAt lib file pos data' taken') :
    data = data' ∧ taken = taken' := by
  obtain ⟨fuel, hfirst⟩ := hfirst
  obtain ⟨fuel', hsecond⟩ := hsecond
  exact Prod.mk.inj (Decoder.drain_unique hfirst hsecond)

theorem inflateInput_length (pos : Nat) :
    (inflateInput file pos).length = availIn file pos :=
  read_length _ _ _

/-- The length that `ReadImage` computes is what `inflate` has taken. -/
theorem deflateLength_eq {pos taken : Nat} (hle : taken ≤ availIn file pos) :
    deflateLength file pos taken = taken := by
  have hlt := uint32_lt ((file.data.length : Int) - pos)
  simp only [deflateLength, availIn, uint32] at hle hlt ⊢
  omega

theorem scan_bounds (file : Memory) (pos left len : Nat) :
    len ≤ scan file pos left len ∧ scan file pos left len ≤ len + left := by
  induction left generalizing len with
  | zero => exact ⟨le_rfl, le_rfl⟩
  | succ left ih =>
      rw [scan]
      split
      · omega
      · have hrest := ih (len + 1)
        omega

theorem normalLen_le (file : Memory) (pos : Nat) :
    normalLen file pos ≤ file.data.length - pos := by
  have hle := (scan_bounds file pos (file.data.length - pos) 0).2
  rwa [Nat.zero_add] at hle

/-- The byte at an offset in the image or behind it. -/
theorem padded_at {pos : Nat} (hpos : pos ≤ file.data.length) (i : Nat) :
    (padded file).at (pos + i : Nat) =
      ((file.data.drop pos ++ [0, 0, 0, 0])[i]?).getD
        (file.around (pos + i : Nat)) := by
  rw [Block.at, if_pos (Int.natCast_nonneg _), Int.toNat_natCast, padded,
    ← List.drop_append_of_le_length hpos, List.getElem?_drop]

/-- Less than four bytes are left, and the zeros behind them are taken for
the last byte of a header. -/
theorem magicAt_end_iff {pos : Nat} (hlt : pos < file.data.length)
    (hfew : file.data.length - pos < 4) :
    magicAt (padded file) pos = true ↔
      file.data.drop pos = [0x1f, 0x8b, 0x08] := by
  have hlength : (file.data.drop pos).length = file.data.length - pos :=
    List.length_drop
  have hat := fun i => padded_at (Nat.le_of_lt hlt) i
  have hfirst := hat 0
  rw [Nat.add_zero] at hfirst
  rw [magicAt, hat 1, hat 2, hat 3, hfirst]
  generalize file.data.drop pos = rest at hlength
  match rest, hlength with
  | [], hlength =>
      rw [List.length_nil] at hlength
      omega
  | [a], _ => simp
  | [a, b], _ => simp
  | [a, b, c], _ => simp [and_assoc]
  | a :: b :: c :: d :: rest, hlength =>
      simp only [List.length_cons] at hlength
      omega

/-- The scan stops at once where a header would start, if there were a byte
more. -/
theorem normalLen_eq_zero_iff {pos : Nat} (hlt : pos < file.data.length)
    (hgzip : gzipAt file pos = false) :
    normalLen file pos = 0 ↔ file.data.drop pos = [0x1f, 0x8b, 0x08] := by
  obtain ⟨left, hleft⟩ : ∃ left, file.data.length - pos = left + 1 :=
    ⟨file.data.length - pos - 1, by omega⟩
  have hscan : normalLen file pos = 0 ↔ magicAt (padded file) pos = true := by
    rw [normalLen, hleft, scan, Nat.add_zero, Nat.zero_add]
    by_cases hmagic : magicAt (padded file) pos = true
    · simp [hmagic]
    · rw [if_neg hmagic]
      have hge := (scan_bounds file pos left 1).1
      exact ⟨fun hzero => by omega, fun htrue => absurd htrue hmagic⟩
  rw [hscan]
  by_cases hfew : file.data.length - pos < 4
  · exact magicAt_end_iff hlt hfew
  · -- a header that fits is found to be one
    constructor
    · intro hmagic
      have hfits : 4 ≤ file.data.length - pos := Nat.not_lt.mp hfew
      simp [gzipAt, hmagic, hfits] at hgzip
    · intro hrest
      have hcount := congrArg List.length hrest
      rw [List.length_drop] at hcount
      simp only [List.length_cons, List.length_nil] at hcount
      omega

end Positions

section Loop

variable {lib : Decoder} {file : Memory} {uninit : ImageChunk Pointer}
  {fuel pos : Nat} {chunks : List (ImageChunk Pointer)} {heap : Heap}

/-- The chunks of a gzip member. -/
def memberChunks (uninit : ImageChunk Pointer) (pos taken len : Nat)
    (heap : Heap) : List (ImageChunk Pointer) :=
  [normalChunk uninit pos GZIP_HEADER_LEN,
    deflateChunk (pos + 10) taken len heap,
    normalChunk uninit (pos + 10 + taken) GZIP_FOOTER_LEN]

theorem readImageLoop_done (hend : file.data.length ≤ pos) :
    readImageLoop lib file uninit (fuel + 1) pos chunks heap =
      some (some (chunks, heap)) := by
  rw [readImageLoop, if_neg (Nat.not_lt.mpr hend)]

theorem readImageLoop_normal (hlt : pos < file.data.length)
    (hgzip : gzipAt file pos = false) :
    readImageLoop lib file uninit (fuel + 1) pos chunks heap =
      readImageLoop lib file uninit fuel (pos + normalLen file pos)
        (chunks ++ [normalChunk uninit pos (normalLen file pos)]) heap := by
  rw [readImageLoop, if_pos hlt, hgzip]
  rfl

theorem readImageLoop_stuck (hlt : pos < file.data.length)
    (hgzip : gzipAt file pos = true)
    (hdrain : lib.drain fuel lib.init (inflateInput file (pos + 10)) 32768
      [] = none) :
    readImageLoop lib file uninit (fuel + 1) pos chunks heap = none := by
  rw [readImageLoop, if_pos hlt, if_pos hgzip]
  simp only [GZIP_HEADER_LEN, hdrain]

theorem readImageLoop_member {data : Bytes} {taken : Nat}
    (hlt : pos < file.data.length) (hgzip : gzipAt file pos = true)
    (hdrain : lib.drain fuel lib.init (inflateInput file (pos + 10)) 32768
      [] = some (data, taken)) :
    readImageLoop lib file uninit (fuel + 1) pos chunks heap =
      if footerSize file (pos + 10 + taken + 8) ≠ data.length then some none
      else readImageLoop lib file uninit fuel (pos + 10 + taken + 8)
        (chunks ++ memberChunks uninit pos taken data.length heap)
        (heap ++ [data]) := by
  have htaken := Decoder.drain_taken_le hdrain
  rw [inflateInput_length] at htaken
  rw [readImageLoop, if_pos hlt, if_pos hgzip]
  simp only [GZIP_HEADER_LEN, GZIP_FOOTER_LEN, memberChunks, hdrain,
    deflateLength_eq htaken]

/-- More fuel does not change the result. -/
theorem readImageLoop_mono {more : Nat} (hmore : fuel ≤ more)
    {result : Option (List (ImageChunk Pointer) × Heap)}
    (hloop : readImageLoop lib file uninit fuel pos chunks heap =
      some result) :
    readImageLoop lib file uninit more pos chunks heap = some result := by
  induction fuel generalizing more pos chunks heap with
  | zero => cases hloop
  | succ fuel ih =>
      obtain ⟨more, rfl⟩ : ∃ count, more = count + 1 :=
        ⟨more - 1, by omega⟩
      have hless := Nat.le_of_succ_le_succ hmore
      by_cases hlt : pos < file.data.length
      · cases hgzip : gzipAt file pos with
        | false =>
            rw [readImageLoop_normal hlt hgzip] at hloop ⊢
            exact ih hless hloop
        | true =>
            cases hdrain : lib.drain fuel lib.init
                (inflateInput file (pos + 10)) 32768 [] with
            | none =>
                rw [readImageLoop_stuck hlt hgzip hdrain] at hloop
                cases hloop
            | some pair =>
                have hdrain' := Decoder.drain_mono hless hdrain
                rw [readImageLoop_member hlt hgzip hdrain] at hloop
                rw [readImageLoop_member hlt hgzip hdrain']
                split at hloop
                next hfooter => rw [if_pos hfooter, hloop]
                next hfooter =>
                  rw [if_neg hfooter]
                  exact ih hless hloop
      · rw [readImageLoop_done (Nat.not_lt.mp hlt)] at hloop ⊢
        exact hloop

end Loop

section Termination

variable {lib : Decoder} {file : Memory} {uninit : ImageChunk Pointer}

/-- The loop gets on from an offset: a gzip member there comes to its end, and
the offset is not that of a final `1f8b08`. -/
def GetsOn (lib : Decoder) (file : Memory) (pos : Nat) : Prop :=
  (pos < file.data.length → gzipAt file pos = true →
      ∃ data taken, InflatesAt lib file (pos + 10) data taken) ∧
    file.data.drop pos ≠ [0x1f, 0x8b, 0x08]

theorem lt_of_drop {pos : Nat}
    (hrest : file.data.drop pos = [0x1f, 0x8b, 0x08]) :
    pos < file.data.length ∧ gzipAt file pos = false := by
  have hcount := congrArg List.length hrest
  rw [List.length_drop] at hcount
  simp only [List.length_cons, List.length_nil] at hcount
  refine ⟨by omega, ?_⟩
  have hfew : ¬ 4 ≤ file.data.length - pos := by omega
  simp [gzipAt, hfew]

/-- A loop that ends gets on from every offset it comes to. -/
theorem getsOn_of_loop {fuel pos pos' : Nat}
    {chunks : List (ImageChunk Pointer)} {heap : Heap}
    (hloop : readImageLoop lib file uninit fuel pos chunks heap ≠ none)
    (hreach : Relation.ReflTransGen (Advances lib file) pos pos') :
    GetsOn lib file pos' := by
  induction fuel generalizing pos chunks heap with
  | zero => exact absurd rfl hloop
  | succ fuel ih =>
      rcases hreach.cases_head with rfl | ⟨next, hstep, hrest⟩
      · refine ⟨?_, ?_⟩
        · intro hlt hgzip
          cases hdrain : lib.drain fuel lib.init
              (inflateInput file (pos + 10)) 32768 [] with
          | none => exact absurd (readImageLoop_stuck hlt hgzip hdrain) hloop
          | some pair => exact ⟨pair.1, pair.2, fuel, hdrain⟩
        · -- the loop would come back to this offset
          intro hend
          obtain ⟨hlt, hgzip⟩ := lt_of_drop hend
          have hzero := (normalLen_eq_zero_iff hlt hgzip).mpr hend
          rw [readImageLoop_normal hlt hgzip, hzero] at hloop
          exact (ih hloop Relation.ReflTransGen.refl).2 hend
      · cases hstep with
        | normal hlt hgzip =>
            rw [readImageLoop_normal hlt hgzip] at hloop
            exact ih hloop hrest
        | member hlt hgzip hinflates hfooter =>
            cases hdrain : lib.drain fuel lib.init
                (inflateInput file (pos + 10)) 32768 [] with
            | none =>
                exact absurd (readImageLoop_stuck hlt hgzip hdrain) hloop
            | some pair =>
                obtain ⟨rfl, rfl⟩ := hinflates.unique ⟨fuel, hdrain⟩
                rw [readImageLoop_member hlt hgzip hdrain,
                  if_neg (not_not.mpr hfooter)] at hloop
                exact ih hloop hrest

/-- A loop that gets on from every offset it comes to ends. -/
theorem loop_ends {pos : Nat}
    (hfine : ∀ pos', Relation.ReflTransGen (Advances lib file) pos pos' →
      GetsOn lib file pos') :
    ∃ fuel, ∀ chunks heap,
      readImageLoop lib file uninit fuel pos chunks heap ≠ none := by
  induction hleft : file.data.length - pos using Nat.strong_induction_on
    generalizing pos with
  | _ left ih =>
      have hrest : ∀ next, Advances lib file pos next → pos < next →
          pos < file.data.length → ∃ fuel, ∀ chunks heap,
            readImageLoop lib file uninit fuel next chunks heap ≠ none := by
        intro next hstep hlt hinside
        refine ih (file.data.length - next) (by omega) ?_ rfl
        exact fun pos' hreach => hfine pos' (hreach.head hstep)
      obtain ⟨hmember, hlast⟩ := hfine pos Relation.ReflTransGen.refl
      by_cases hlt : pos < file.data.length
      · cases hgzip : gzipAt file pos with
        | false =>
            have hpos : normalLen file pos ≠ 0 := fun hzero =>
              hlast ((normalLen_eq_zero_iff hlt hgzip).mp hzero)
            obtain ⟨fuel, hends⟩ := hrest _ (Advances.normal hlt hgzip)
              (by omega) hlt
            refine ⟨fuel + 1, fun chunks heap => ?_⟩
            rw [readImageLoop_normal hlt hgzip]
            exact hends _ _
        | true =>
            obtain ⟨data, taken, fuel, hdrain⟩ := hmember hlt hgzip
            by_cases hfooter : footerSize file (pos + 10 + taken + 8) =
                data.length
            · obtain ⟨fuel', hends⟩ := hrest _ (Advances.member hlt hgzip
                ⟨fuel, hdrain⟩ hfooter) (by omega) hlt
              refine ⟨max fuel fuel' + 1, fun chunks heap => ?_⟩
              have hdrain' := Decoder.drain_mono
                (Nat.le_max_left fuel fuel') hdrain
              rw [readImageLoop_member hlt hgzip hdrain',
                if_neg (not_not.mpr hfooter)]
              obtain ⟨result, hresult⟩ :=
                Option.ne_none_iff_exists'.mp (hends _ _)
              rw [readImageLoop_mono (Nat.le_max_right fuel fuel') hresult]
              exact Option.some_ne_none _
            · refine ⟨fuel + 1, fun chunks heap => ?_⟩
              rw [readImageLoop_member hlt hgzip hdrain, if_pos hfooter]
              exact Option.some_ne_none _
      · refine ⟨1, fun chunks heap => ?_⟩
        rw [readImageLoop_done (Nat.not_lt.mp hlt)]
        exact Option.some_ne_none _

/-- `ReadImage` ends if and only if every gzip member that it comes to ends
with a complete stream, and it does not come to a final `1f8b08`. -/
theorem readImage_ends_iff (lib : Decoder) (file : Memory)
    (uninit : ImageChunk Pointer) :
    (∃ fuel, readImage lib file uninit fuel ≠ none) ↔
      ∀ pos, Reached lib file pos → GetsOn lib file pos := by
  constructor
  · rintro ⟨fuel, hends⟩ pos hreach
    exact getsOn_of_loop hends hreach
  · intro hfine
    obtain ⟨fuel, hends⟩ := loop_ends hfine
    exact ⟨fuel, hends [] []⟩

end Termination

namespace ReadImageWitness

/-- No stream starts with what the file holds. -/
def noStream : Decoder.Format where
  front _ := .incomplete
  nil_incomplete := rfl
  stream_length := nofun

def anyChunk : ImageChunk Pointer := ⟨.raw, 0, 0, ⟨0, 0⟩, 0, ⟨0, 0⟩, none⟩

/-- The file `1f 8b 08`. -/
def cutMagic : Memory := ⟨⟨[0x1f, 0x8b, 0x08], fun _ => 0⟩, by decide⟩

/-- The loop adds chunks without a byte, for ever. -/
theorem cutMagic_never_ends : ¬ ∃ fuel,
    readImage (Decoder.ofFormat noStream) cutMagic anyChunk fuel ≠ none := by
  have hloop : ∀ fuel chunks, readImageLoop (Decoder.ofFormat noStream)
      cutMagic anyChunk fuel 0 chunks [] = none := by
    intro fuel
    induction fuel with
    | zero => exact fun _ => rfl
    | succ fuel ih =>
        intro chunks
        have hlen : normalLen cutMagic 0 = 0 := by decide
        rw [readImageLoop_normal (by decide) (by decide), hlen]
        exact ih _
  rintro ⟨fuel, hends⟩
  exact hends (hloop fuel [])

end ReadImageWitness

end Imgdiff

end MetaOS
