/-
When the chunks of a file cover it.

Both readers let each chunk start where the one before it ends.  What they do
not check is the end: the footer of a gzip member may reach behind the end of
the file, and the offsets and lengths of a zip file may be anything.
-/
import MetaOS.ReadZip

namespace MetaOS

namespace Imgdiff

open Bspatch Bytes

section Statement

variable (lib : Decoder)

/-- A piece of a file inflates to this data: fed with the piece and anything
behind it, the decoder gives the data and takes no more than the piece. -/
def InflatesTo (piece data : Bytes) : Prop :=
  ∃ (rest : Bytes) (taken : Nat), taken ≤ piece.length ∧
    lib.Decodes lib.init (piece ++ rest) data taken

variable (file : Memory) (heap : Heap)

/-- The data of a deflate chunk is what its piece of the file inflates to. -/
def Inflated (chunk : ImageChunk Pointer) : Prop :=
  ∃ block data, chunk.data = ⟨block + 1, 0⟩ ∧ heap[block]? = some data ∧
    data.length = chunk.len ∧
    InflatesTo lib (file.data.window chunk.start chunk.deflateLen) data

/-- The chunks from an offset on cover the file, and each of them designates
its data. -/
structure TilesFile (pos : Nat) (chunks : List (ImageChunk Pointer)) :
    Prop where
  tiles : TilesFrom img file.data.length pos chunks
  inflated : ∀ chunk ∈ chunks, chunk.type = .deflate →
    Inflated lib file heap chunk

/-- A gzip member at an offset lies inside the file with its footer. -/
def MemberInside (pos : Nat) : Prop :=
  pos < file.data.length → gzipAt file pos = true →
    ∀ data taken, InflatesAt lib file (pos + 10) data taken →
      pos + 10 + taken + 8 ≤ file.data.length

end Statement

section Chunks

variable {lib : Decoder} {file : Memory} {heap : Heap} {pos : Nat}
  {uninit : ImageChunk Pointer} {chunks : List (ImageChunk Pointer)}

theorem vadd_img (pos : Nat) : pos +ᵥ img = ⟨0, pos⟩ := by
  change Pointer.mk 0 (0 + (pos : Int)) = ⟨0, pos⟩
  rw [Int.zero_add]

theorem TilesFrom.le {base : Pointer} {size : Nat}
    (htiles : TilesFrom base size pos chunks) : pos ≤ size := by
  induction chunks generalizing pos with
  | nil => exact le_of_eq htiles
  | cons chunk chunks ih =>
      have hrest := ih htiles.2.2
      omega

theorem tilesFile_nil (heap : Heap) :
    TilesFile lib file heap file.data.length [] :=
  ⟨rfl, fun _ hmem => absurd hmem List.not_mem_nil⟩

/-- A chunk in its place, and those behind it. -/
theorem tilesFile_cons {chunk : ImageChunk Pointer}
    (htype : chunk.type ≠ .raw) (hstart : chunk.start = pos)
    (hdata : chunk.extentData = ⟨0, pos⟩) :
    TilesFile lib file heap pos (chunk :: chunks) ↔
      (chunk.type = .deflate → Inflated lib file heap chunk) ∧
        TilesFile lib file heap (pos + chunk.extent) chunks := by
  have hplace : chunk.InPlace img := by
    refine ⟨htype, ?_⟩
    rw [hstart, vadd_img]
    exact hdata
  constructor
  · intro htiles
    obtain ⟨-, -, hrest⟩ := htiles.tiles
    obtain ⟨hfirst, hlater⟩ := List.forall_mem_cons.mp htiles.inflated
    exact ⟨hfirst, hrest, hlater⟩
  · rintro ⟨hfirst, htiles⟩
    exact ⟨⟨hstart, hplace, htiles.tiles⟩,
      List.forall_mem_cons.mpr ⟨hfirst, htiles.inflated⟩⟩

theorem tilesFile_normal {chunk : ImageChunk Pointer}
    (htype : chunk.type = .normal) (hstart : chunk.start = pos)
    (hdata : chunk.data = ⟨0, pos⟩) :
    TilesFile lib file heap pos (chunk :: chunks) ↔
      TilesFile lib file heap (pos + chunk.len) chunks := by
  have hextent : chunk.extent = chunk.len := by
    rw [ImageChunk.extent, htype]
  have hpiece : chunk.extentData = chunk.data := by
    rw [ImageChunk.extentData, htype]
  rw [tilesFile_cons (by simp [htype]) hstart (hpiece.trans hdata), hextent]
  exact and_iff_right (by simp [htype])

theorem tilesFile_deflate {chunk : ImageChunk Pointer}
    (htype : chunk.type = .deflate) (hstart : chunk.start = pos)
    (hdata : chunk.deflateData = ⟨0, pos⟩) :
    TilesFile lib file heap pos (chunk :: chunks) ↔
      Inflated lib file heap chunk ∧
        TilesFile lib file heap (pos + chunk.deflateLen) chunks := by
  have hextent : chunk.extent = chunk.deflateLen := by
    rw [ImageChunk.extent, htype]
  have hpiece : chunk.extentData = chunk.deflateData := by
    rw [ImageChunk.extentData, htype]
  rw [tilesFile_cons (by simp [htype]) hstart (hpiece.trans hdata), hextent,
    forall_prop_of_true htype]

theorem tilesFile_normalChunk (len : Nat) :
    TilesFile lib file heap pos (normalChunk uninit pos len :: chunks) ↔
      TilesFile lib file heap (pos + len) chunks :=
  tilesFile_normal rfl rfl rfl

theorem tilesFile_deflateChunk (deflateLen len : Nat) (heap' : Heap) :
    TilesFile lib file heap pos
        (deflateChunk pos deflateLen len heap' :: chunks) ↔
      Inflated lib file heap (deflateChunk pos deflateLen len heap') ∧
        TilesFile lib file heap (pos + deflateLen) chunks :=
  tilesFile_deflate rfl rfl rfl

end Chunks

section Image

variable {lib : Decoder} {file : Memory} {uninit : ImageChunk Pointer}

/-- Inside the file, `inflate` is given what is left of it. -/
theorem inflateInput_eq {pos : Nat} (hpos : pos ≤ file.data.length) :
    inflateInput file pos = file.data.drop pos := by
  have hsize := file.size_lt
  have havail : availIn file pos = file.data.length - pos := by
    rw [availIn, ← Nat.cast_sub hpos, uint32_of_lt (by omega)]
  rw [inflateInput, havail, read_eq_window]
  · rw [Bytes.window, padded, List.drop_append_of_le_length hpos,
      List.take_append_of_le_length (by simp),
      List.take_of_length_le (by simp)]
  · rw [padded, List.length_append]
    omega

/-- The data of a member is what its piece of the file inflates to. -/
theorem inflatesTo_of_inflatesAt {pos taken : Nat} {data : Bytes}
    (hinflates : InflatesAt lib file pos data taken)
    (hinside : pos + taken ≤ file.data.length) :
    InflatesTo lib (file.data.window pos taken) data := by
  obtain ⟨fuel, hdrain⟩ := hinflates
  obtain ⟨out, rfl, hdecodes⟩ := Decoder.drain_decodes hdrain
  rw [inflateInput_eq (by omega)] at hdecodes
  refine ⟨(file.data.drop pos).drop taken, taken, ?_, ?_⟩
  · rw [Bytes.window_length]
    omega
  · rw [Bytes.window, List.take_append_drop]
    exact hdecodes

/-- From an offset with one way to go on. -/
theorem forall_reached_iff {p : Nat → Prop} {pos next : Nat}
    (hnext : Advances lib file pos next)
    (honly : ∀ other, Advances lib file pos other → other = next) :
    (∀ pos', Relation.ReflTransGen (Advances lib file) pos pos' → p pos') ↔
      p pos ∧
        ∀ pos', Relation.ReflTransGen (Advances lib file) next pos' →
          p pos' := by
  constructor
  · intro hall
    exact ⟨hall pos Relation.ReflTransGen.refl,
      fun pos' hreach => hall pos' (hreach.head hnext)⟩
  · rintro ⟨hhere, hall⟩ pos' hreach
    rcases hreach.cases_head with rfl | ⟨other, hstep, hrest⟩
    · exact hhere
    · rw [honly other hstep] at hrest
      exact hall pos' hrest

theorem advances_normal {pos : Nat} (hlt : pos < file.data.length)
    (hgzip : gzipAt file pos = false) :
    (∀ pos', Relation.ReflTransGen (Advances lib file) pos pos' →
        MemberInside lib file pos') ↔
      ∀ pos', Relation.ReflTransGen (Advances lib file)
        (pos + normalLen file pos) pos' → MemberInside lib file pos' := by
  rw [forall_reached_iff (Advances.normal hlt hgzip)]
  · refine and_iff_right ?_
    intro _ hgzip'
    rw [hgzip] at hgzip'
    cases hgzip'
  · intro other hstep
    cases hstep with
    | normal => rfl
    | member _ hgzip' =>
        rw [hgzip] at hgzip'
        cases hgzip'

theorem advances_member {pos taken : Nat} {data : Bytes}
    (hlt : pos < file.data.length) (hgzip : gzipAt file pos = true)
    (hinflates : InflatesAt lib file (pos + 10) data taken)
    (hfooter : footerSize file (pos + 10 + taken + 8) = data.length) :
    (∀ pos', Relation.ReflTransGen (Advances lib file) pos pos' →
        MemberInside lib file pos') ↔
      pos + 10 + taken + 8 ≤ file.data.length ∧
        ∀ pos', Relation.ReflTransGen (Advances lib file)
          (pos + 10 + taken + 8) pos' → MemberInside lib file pos' := by
  rw [forall_reached_iff (Advances.member hlt hgzip hinflates hfooter)]
  · refine and_congr_left fun _ => ?_
    constructor
    · exact fun hinside => hinside hlt hgzip data taken hinflates
    · intro hle _ _ data' taken' hinflates'
      rw [(hinflates'.unique hinflates).2]
      exact hle
  · intro other hstep
    cases hstep with
    | normal _ hgzip' =>
        rw [hgzip] at hgzip'
        cases hgzip'
    | member _ _ hinflates' _ => rw [(hinflates'.unique hinflates).2]

theorem tilesFile_member {pos taken : Nat} {data : Bytes} {heap tail : Heap}
    {chunks : List (ImageChunk Pointer)}
    (hinflates : InflatesAt lib file (pos + 10) data taken) :
    TilesFile lib file (heap ++ [data] ++ tail) pos
        (memberChunks uninit pos taken data.length heap ++ chunks) ↔
      TilesFile lib file (heap ++ [data] ++ tail)
        (pos + 10 + taken + 8) chunks := by
  rw [memberChunks, List.cons_append, List.cons_append, List.cons_append,
    List.nil_append, tilesFile_normalChunk, GZIP_HEADER_LEN,
    tilesFile_deflateChunk, tilesFile_normalChunk, GZIP_FOOTER_LEN]
  refine and_iff_right_of_imp fun htiles => ?_
  have hle : pos + 10 + taken + 8 ≤ file.data.length := htiles.tiles.le
  have hdata : pos + 10 + taken ≤ file.data.length := by omega
  refine ⟨heap.length, data, rfl, ?_, rfl, ?_⟩
  · rw [List.append_assoc, List.getElem?_append_right le_rfl, Nat.sub_self]
    rfl
  · exact inflatesTo_of_inflatesAt hinflates hdata

/-- Nothing is left to come to at the end of the file. -/
theorem memberInside_end {pos : Nat} (hend : ¬ pos < file.data.length)
    (pos' : Nat)
    (hreach : Relation.ReflTransGen (Advances lib file) pos pos') :
    MemberInside lib file pos' := by
  intro hinside
  rcases hreach.cases_head with rfl | ⟨other, hstep, -⟩
  · exact absurd hinside hend
  · cases hstep with
    | normal hlt => exact absurd hlt hend
    | member hlt => exact absurd hlt hend

/-- What a successful run adds to the chunks covers the rest of the file if
and only if every member it comes to lies inside the file. -/
theorem readImageLoop_tiles {fuel pos : Nat}
    {chunks chunks' : List (ImageChunk Pointer)} {heap heap' : Heap}
    (hloop : readImageLoop lib file uninit fuel pos chunks heap =
      some (some (chunks', heap'))) :
    ∃ more tail, chunks' = chunks ++ more ∧ heap' = heap ++ tail ∧
      (TilesFile lib file heap' pos more ↔ pos ≤ file.data.length ∧
        ∀ pos', Relation.ReflTransGen (Advances lib file) pos pos' →
          MemberInside lib file pos') := by
  induction fuel generalizing pos chunks heap with
  | zero => cases hloop
  | succ fuel ih =>
      by_cases hlt : pos < file.data.length
      · rw [and_iff_right hlt.le]
        cases hgzip : gzipAt file pos with
        | false =>
            rw [readImageLoop_normal hlt hgzip] at hloop
            have hlen := normalLen_le file pos
            have hle : pos + normalLen file pos ≤ file.data.length := by
              omega
            obtain ⟨more, tail, rfl, hheap, htiles⟩ := ih hloop
            refine ⟨normalChunk uninit pos (normalLen file pos) :: more,
              tail, List.append_assoc _ _ _, hheap, ?_⟩
            rw [tilesFile_normalChunk, advances_normal hlt hgzip, htiles]
            exact and_iff_right hle
        | true =>
            cases hdrain : lib.drain fuel lib.init
                (inflateInput file (pos + 10)) 32768 [] with
            | none =>
                rw [readImageLoop_stuck hlt hgzip hdrain] at hloop
                cases hloop
            | some pair =>
                obtain ⟨data, taken⟩ := pair
                have hinflates : InflatesAt lib file (pos + 10) data taken :=
                  ⟨fuel, hdrain⟩
                rw [readImageLoop_member hlt hgzip hdrain] at hloop
                split at hloop
                · cases hloop
                next hfooter =>
                  obtain ⟨more, tail, rfl, rfl, htiles⟩ := ih hloop
                  refine ⟨memberChunks uninit pos taken data.length heap ++
                    more, [data] ++ tail, List.append_assoc _ _ _,
                    List.append_assoc _ _ _, ?_⟩
                  rw [tilesFile_member hinflates, htiles,
                    advances_member hlt hgzip hinflates (not_not.mp hfooter)]
      · rw [readImageLoop_done (Nat.not_lt.mp hlt)] at hloop
        cases hloop
        refine ⟨[], [], (List.append_nil _).symm, (List.append_nil _).symm,
          ?_⟩
        rw [and_iff_left (memberInside_end hlt)]
        constructor
        · intro htiles
          exact htiles.tiles.le
        · intro hle
          have hend : pos = file.data.length := by omega
          subst hend
          exact tilesFile_nil _

end Image

section Zip

variable {lib : Decoder} {file : Memory} {uninit : ImageChunk Pointer}

/-- From an offset on, the entries lie one behind the other inside the file,
and each inflates to exactly its length.  An entry at the end of the file is
never looked at. -/
def Orderly (lib : Decoder) (file : Memory) : Int → List ZipFileEntry → Prop
  | _, [] => True
  | pos, entry :: entries =>
      pos = file.data.length ∨ pos ≤ entry.dataOffset ∧
        (entry.dataOffset = file.data.length ∨
          0 ≤ entry.deflateLen ∧
            entry.dataOffset + entry.deflateLen ≤ file.data.length ∧
            (inflateEntry lib file entry).output.length =
              uint32 entry.uncompLen ∧
            Orderly lib file (entry.dataOffset + entry.deflateLen) entries)

/-- The numbers of an entry are of type `int`. -/
structure ZipFileEntry.InRange (entry : ZipFileEntry) : Prop where
  dataOffset_ge : -2 ^ 31 ≤ entry.dataOffset
  dataOffset_lt : entry.dataOffset < 2 ^ 31
  deflateLen_ge : -2 ^ 31 ≤ entry.deflateLen
  deflateLen_lt : entry.deflateLen < 2 ^ 31

theorem read4_range (file : Memory) (pos : Int) :
    -2 ^ 31 ≤ read4 file pos ∧ read4 file pos < 2 ^ 31 := by
  have hrange := leInt_range (file.read pos 4)
  rw [read_length] at hrange
  rw [read4]
  omega

theorem readEntries_inRange {count : Nat} {cd : Int}
    {entries : List ZipFileEntry}
    (hread : readEntries file count cd = some entries) :
    ∀ entry ∈ entries, entry.InRange := by
  induction count generalizing cd entries with
  | zero =>
      cases hread
      simp
  | succ count ih =>
      rw [readEntries] at hread
      dsimp only at hread
      split at hread
      · cases hread
      · split at hread
        · exact ih hread
        · split at hread
          · cases hread
          · split at hread
            · cases hread
            · obtain ⟨rest, hrest, rfl⟩ := Option.map_eq_some_iff.mp hread
              intro entry hmem
              rcases List.mem_cons.mp hmem with rfl | hmem
              · have hoffset := int32_range
                have hlen := read4_range file (cd + 20)
                exact ⟨(hoffset _).1, (hoffset _).2, hlen.1, hlen.2⟩
              · exact ih hrest entry hmem

theorem zipEntries_inRange {entries : List ZipFileEntry}
    (hentries : zipEntries file = some entries) :
    ∀ entry ∈ entries, entry.InRange := by
  rw [zipEntries] at hentries
  dsimp only at hentries
  split at hentries
  · cases hentries
  · obtain ⟨found, hfound, rfl⟩ := Option.map_eq_some_iff.mp hentries
    intro entry hmem
    exact readEntries_inRange hfound entry
      ((List.mem_insertionSort _).mp hmem)

theorem readZipLoop_done {fuel : Nat} {pos : Int}
    {entries : List ZipFileEntry} {chunks : List (ImageChunk Pointer)}
    {heap : Heap} (hend : ¬ pos < file.data.length) :
    readZipLoop lib file uninit (fuel + 1) pos entries chunks heap =
      some (some (chunks, heap)) := by
  cases entries with
  | nil => rw [readZipLoop, if_neg hend]
  | cons entry entries => rw [readZipLoop, if_neg hend]

theorem readZipLoop_entry {fuel : Nat} {entry : ZipFileEntry}
    {entries : List ZipFileEntry} {chunks : List (ImageChunk Pointer)}
    {heap : Heap} (hlt : entry.dataOffset < file.data.length)
    (hend : (inflateEntry lib file entry).status = .streamEnd) :
    readZipLoop lib file uninit (fuel + 1) entry.dataOffset
        (entry :: entries) chunks heap =
      readZipLoop lib file uninit fuel
        (int32 (entry.dataOffset + uint32 entry.deflateLen)) entries
        (chunks ++ [entryChunk entry heap])
        (heap ++ [(inflateEntry lib file entry).output]) := by
  rw [readZipLoop, if_pos hlt]
  dsimp only
  rw [if_pos rfl, if_neg (not_not.mpr hend)]

theorem readZipLoop_failed {fuel : Nat} {entry : ZipFileEntry}
    {entries : List ZipFileEntry} {chunks : List (ImageChunk Pointer)}
    {heap : Heap} (hlt : entry.dataOffset < file.data.length)
    (hfail : (inflateEntry lib file entry).status ≠ .streamEnd) :
    readZipLoop lib file uninit (fuel + 1) entry.dataOffset
        (entry :: entries) chunks heap = some none := by
  rw [readZipLoop, if_pos hlt]
  dsimp only
  rw [if_pos rfl, if_pos hfail]

/-- Where a normal chunk from a position ends: at the next entry or at the end
of the file. -/
def nextStop (file : Memory) : List ZipFileEntry → Int
  | [] => file.data.length
  | entry :: _ => entry.dataOffset

theorem readZipLoop_plain {fuel : Nat} {pos : Int}
    {entries : List ZipFileEntry} {chunks : List (ImageChunk Pointer)}
    {heap : Heap} (hlt : pos < file.data.length)
    (hne : pos ≠ nextStop file entries) :
    readZipLoop lib file uninit (fuel + 1) pos entries chunks heap =
      readZipLoop lib file uninit fuel
        (int32 (pos + uint32 (nextStop file entries - pos))) entries
        (chunks ++ [plainChunk uninit pos
          (uint32 (nextStop file entries - pos))]) heap := by
  cases entries with
  | nil =>
      rw [readZipLoop, if_pos hlt]
      rfl
  | cons entry entries =>
      rw [readZipLoop, if_pos hlt]
      rw [nextStop] at hne ⊢
      dsimp only
      rw [if_neg hne]

/-- A run only adds chunks and blocks. -/
theorem readZipLoop_append {fuel : Nat} {pos : Int}
    {entries : List ZipFileEntry} {chunks chunks' : List (ImageChunk Pointer)}
    {heap heap' : Heap}
    (hloop : readZipLoop lib file uninit fuel pos entries chunks heap =
      some (some (chunks', heap'))) :
    ∃ more tail, chunks' = chunks ++ more ∧ heap' = heap ++ tail := by
  induction fuel generalizing pos entries chunks heap with
  | zero => cases hloop
  | succ fuel ih =>
      by_cases hlt : pos < file.data.length
      · by_cases hstop : pos = nextStop file entries
        · cases entries with
          | nil =>
              rw [nextStop] at hstop
              omega
          | cons entry entries =>
              rw [nextStop] at hstop
              subst hstop
              by_cases hend : (inflateEntry lib file entry).status =
                  .streamEnd
              · rw [readZipLoop_entry hlt hend] at hloop
                obtain ⟨more, tail, rfl, rfl⟩ := ih hloop
                exact ⟨_, _, List.append_assoc _ _ _,
                  List.append_assoc _ _ _⟩
              · rw [readZipLoop_failed hlt hend] at hloop
                cases hloop
        · rw [readZipLoop_plain hlt hstop] at hloop
          obtain ⟨more, tail, rfl, rfl⟩ := ih hloop
          exact ⟨_, tail, List.append_assoc _ _ _, rfl⟩
      · rw [readZipLoop_done hlt] at hloop
        cases hloop
        exact ⟨[], [], (List.append_nil _).symm, (List.append_nil _).symm⟩

theorem tilesFile_plainChunk {pos len : Nat} {heap : Heap}
    {chunks : List (ImageChunk Pointer)} (hpos : pos < file.data.length) :
    TilesFile lib file heap pos (plainChunk uninit pos len :: chunks) ↔
      TilesFile lib file heap (pos + len) chunks := by
  have hsize := file.size_lt
  have hstart : uint32 (pos : Int) = pos := uint32_of_lt (by omega)
  exact tilesFile_normal rfl hstart rfl

/-- The block of an entry holds what its piece of the file inflates to, unless
it is longer. -/
theorem inflated_entryChunk {entry : ZipFileEntry} {pos : Nat}
    {heap tail : Heap} (hpos : entry.dataOffset = pos)
    (hinside : pos + uint32 entry.deflateLen ≤ file.data.length)
    (hend : (inflateEntry lib file entry).status = .streamEnd) :
    Inflated lib file
        (heap ++ [(inflateEntry lib file entry).output] ++ tail)
        (entryChunk entry heap) ↔
      (inflateEntry lib file entry).output.length =
        uint32 entry.uncompLen := by
  have hsize := file.size_lt
  have hblock : (heap ++ [(inflateEntry lib file entry).output] ++
      tail)[heap.length]? = some (inflateEntry lib file entry).output := by
    rw [List.append_assoc, List.getElem?_append_right le_rfl, Nat.sub_self]
    rfl
  have hstart : (entryChunk entry heap).start = pos := by
    rw [entryChunk, hpos]
    exact uint32_of_lt (by omega)
  have hpiece : file.data.window pos (uint32 entry.deflateLen) =
      file.read entry.dataOffset (uint32 entry.deflateLen) := by
    rw [hpos]
    exact (read_eq_window hinside).symm
  constructor
  · rintro ⟨block, data, hdata, hheap, hlength, -⟩
    have hsame : heap.length = block := by
      have hblocks := congrArg Pointer.block hdata
      exact Nat.succ.inj hblocks
    rw [← hsame, hblock] at hheap
    cases hheap
    exact hlength
  · intro hlength
    have htaken := lib.taken_le lib.init
      (file.read entry.dataOffset (uint32 entry.deflateLen))
      (uint32 entry.uncompLen)
    have hdecodes := Decoder.Decodes.last (uint32 entry.uncompLen) hend
    have hextent : file.data.window (entryChunk entry heap).start
        (entryChunk entry heap).deflateLen =
          file.read entry.dataOffset (uint32 entry.deflateLen) := by
      rw [hstart]
      exact hpiece
    refine ⟨heap.length, _, rfl, hblock, hlength, [],
      (inflateEntry lib file entry).taken, ?_, ?_⟩
    · rw [hextent]
      exact htaken
    · rw [hextent, List.append_nil]
      exact hdecodes

/-- A length that is not checked either stays inside the file or, taken as an
`unsigned int`, leads behind its end. -/
theorem uint32_inside_iff {pos : Nat} {len : Int}
    (hge : -2 ^ 31 ≤ pos + len) (hlt : len < 2 ^ 32) :
    pos + uint32 len ≤ file.data.length ↔
      0 ≤ len ∧ pos + len ≤ file.data.length := by
  have hsize := file.size_lt
  simp only [uint32]
  omega

theorem orderly_end (entries : List ZipFileEntry) :
    Orderly lib file file.data.length entries := by
  cases entries with
  | nil => trivial
  | cons entry entries => exact Or.inl rfl

theorem orderly_entry {entry : ZipFileEntry} {entries : List ZipFileEntry}
    (hlt : entry.dataOffset < file.data.length) :
    Orderly lib file entry.dataOffset (entry :: entries) ↔
      (0 ≤ entry.deflateLen ∧
          entry.dataOffset + entry.deflateLen ≤ file.data.length) ∧
        (inflateEntry lib file entry).output.length =
            uint32 entry.uncompLen ∧
          Orderly lib file (entry.dataOffset + entry.deflateLen)
            entries := by
  rw [Orderly, or_iff_right hlt.ne, and_iff_right le_rfl,
    or_iff_right hlt.ne, and_assoc]

/-- The data in front of an entry is taken if the entry is not behind the end
of the file. -/
theorem orderly_plain {pos : Int} {entries : List ZipFileEntry}
    (hlt : pos < file.data.length) :
    Orderly lib file pos entries ↔
      (pos ≤ nextStop file entries ∧
          nextStop file entries ≤ file.data.length) ∧
        Orderly lib file (nextStop file entries) entries := by
  cases entries with
  | nil => simp [Orderly, nextStop, hlt.le]
  | cons entry entries =>
      rw [nextStop]
      constructor
      · intro horderly
        rw [Orderly, or_iff_right hlt.ne] at horderly
        obtain ⟨hle, hrest⟩ := horderly
        refine ⟨⟨hle, ?_⟩, Or.inr ⟨le_rfl, hrest⟩⟩
        rcases hrest with hend | ⟨hpos, hinside, -⟩
        · exact hend.le
        · omega
      · rintro ⟨⟨hle, -⟩, hend | ⟨-, hrest⟩⟩
        · exact Or.inr ⟨hle, Or.inl hend⟩
        · exact Or.inr ⟨hle, hrest⟩

/-- The chunk of an entry at a position covers its part of the file if it lies
inside the file and holds all of its data. -/
theorem tilesFile_entryChunk {entry : ZipFileEntry} {pos : Nat}
    {entries : List ZipFileEntry} {heap tail : Heap}
    {chunks : List (ImageChunk Pointer)} (hentry : entry.InRange)
    (hpos : entry.dataOffset = pos) (hlt : pos < file.data.length)
    (hend : (inflateEntry lib file entry).status = .streamEnd)
    (htiles : TilesFile lib file
        (heap ++ [(inflateEntry lib file entry).output] ++ tail)
        (pos + uint32 entry.deflateLen) chunks ↔
      pos + uint32 entry.deflateLen ≤ file.data.length ∧
        Orderly lib file (pos + uint32 entry.deflateLen : Nat) entries) :
    TilesFile lib file
        (heap ++ [(inflateEntry lib file entry).output] ++ tail) pos
        (entryChunk entry heap :: chunks) ↔
      Orderly lib file pos (entry :: entries) := by
  have hsize := file.size_lt
  have hge := hentry.deflateLen_ge
  have hless := hentry.deflateLen_lt
  have hinside : pos + uint32 entry.deflateLen ≤ file.data.length ↔ _ :=
    uint32_inside_iff (by omega) (by omega)
  have hstart : (entryChunk entry heap).start = pos := by
    rw [entryChunk, hpos]
    exact uint32_of_lt (by omega)
  have hdata : (entryChunk entry heap).deflateData = ⟨0, pos⟩ := by
    rw [entryChunk, hpos]
  have horderly : Orderly lib file entry.dataOffset (entry :: entries) ↔ _ :=
    orderly_entry (by omega)
  rw [hpos, ← hinside] at horderly
  rw [tilesFile_deflate rfl hstart hdata, entryChunk, htiles, horderly,
    and_left_comm]
  refine and_congr_right fun hle => ?_
  have hlen : (uint32 entry.deflateLen : Int) = entry.deflateLen := by
    have hnonneg := (hinside.mp hle).1
    rw [uint32]
    omega
  rw [Nat.cast_add, hlen]
  exact and_congr_left' (inflated_entryChunk hpos hle hend)

/-- A normal chunk up to the next entry. -/
theorem tilesFile_toStop {pos : Nat} {entries : List ZipFileEntry}
    {heap : Heap} {chunks : List (ImageChunk Pointer)}
    (hentries : ∀ entry ∈ entries, entry.InRange)
    (hlt : pos < file.data.length)
    (htiles : TilesFile lib file heap
        (pos + uint32 (nextStop file entries - pos)) chunks ↔
      pos + uint32 (nextStop file entries - pos) ≤ file.data.length ∧
        Orderly lib file
          (pos + uint32 (nextStop file entries - pos) : Nat) entries) :
    TilesFile lib file heap pos
        (plainChunk uninit pos (uint32 (nextStop file entries - pos)) ::
          chunks) ↔
      Orderly lib file pos entries := by
  have hsize := file.size_lt
  have hstop : -2 ^ 31 ≤ nextStop file entries ∧
      nextStop file entries < 2 ^ 31 := by
    cases entries with
    | nil =>
        rw [nextStop]
        omega
    | cons entry entries =>
        have hentry := hentries entry List.mem_cons_self
        exact ⟨hentry.dataOffset_ge, hentry.dataOffset_lt⟩
  have hinside : pos + uint32 (nextStop file entries - pos) ≤
      file.data.length ↔ _ := uint32_inside_iff (by omega) (by omega)
  have horderly : Orderly lib file pos entries ↔ _ :=
    orderly_plain (by omega)
  rw [tilesFile_plainChunk hlt, htiles, horderly, hinside, sub_nonneg,
    add_sub_cancel]
  refine and_congr_right fun hle => ?_
  have hlen : ((pos + uint32 (nextStop file entries - pos) : Nat) : Int) =
      nextStop file entries := by
    rw [uint32]
    omega
  rw [hlen]

/-- What a successful run adds to the chunks covers the rest of the file if
and only if the rest of the entries is orderly. -/
theorem readZipLoop_tiles {fuel pos : Nat} {entries : List ZipFileEntry}
    {chunks chunks' : List (ImageChunk Pointer)} {heap heap' : Heap}
    (hloop : readZipLoop lib file uninit fuel (int32 pos) entries chunks heap =
      some (some (chunks', heap')))
    (hentries : ∀ entry ∈ entries, entry.InRange) :
    ∃ more tail, chunks' = chunks ++ more ∧ heap' = heap ++ tail ∧
      (TilesFile lib file heap' pos more ↔
        pos ≤ file.data.length ∧ Orderly lib file pos entries) := by
  induction fuel generalizing pos entries chunks heap with
  | zero => cases hloop
  | succ fuel ih =>
      by_cases hle : pos ≤ file.data.length
      · have hsize := file.size_lt
        rw [int32_natCast (by omega)] at hloop
        rw [and_iff_right hle]
        by_cases hlt : (pos : Int) < file.data.length
        · by_cases hstop : (pos : Int) = nextStop file entries
          · cases entries with
            | nil => exact absurd hstop hlt.ne
            | cons entry entries =>
                rw [nextStop] at hstop
                by_cases hend : (inflateEntry lib file entry).status =
                    .streamEnd
                · rw [hstop, readZipLoop_entry (hstop ▸ hlt) hend, ← hstop,
                    ← Nat.cast_add] at hloop
                  obtain ⟨more, tail, rfl, rfl, htiles⟩ := ih hloop
                    fun other hmem =>
                      hentries other (List.mem_cons_of_mem _ hmem)
                  refine ⟨entryChunk entry heap :: more, _,
                    List.append_assoc _ _ _, List.append_assoc _ _ _, ?_⟩
                  exact tilesFile_entryChunk
                    (hentries entry List.mem_cons_self) hstop.symm
                    (Nat.cast_lt.mp hlt) hend htiles
                · rw [hstop, readZipLoop_failed (hstop ▸ hlt) hend] at hloop
                  cases hloop
          · rw [readZipLoop_plain hlt hstop, ← Nat.cast_add] at hloop
            obtain ⟨more, tail, rfl, rfl, htiles⟩ := ih hloop hentries
            refine ⟨plainChunk uninit pos _ :: more, tail,
              List.append_assoc _ _ _, rfl, ?_⟩
            exact tilesFile_toStop hentries (Nat.cast_lt.mp hlt) htiles
        · have hend : pos = file.data.length := by omega
          rw [readZipLoop_done hlt] at hloop
          cases hloop
          refine ⟨[], [], (List.append_nil _).symm, (List.append_nil _).symm,
            ?_⟩
          subst hend
          exact iff_of_true (tilesFile_nil _) (orderly_end _)
      · -- chunks that lead behind the end of the file do not come back
        obtain ⟨more, tail, hchunks, hheap⟩ := readZipLoop_append hloop
        refine ⟨more, tail, hchunks, hheap, ?_⟩
        exact iff_of_false (fun htiles => hle htiles.tiles.le)
          fun hboth => hle hboth.1

end Zip

/-- When a reader succeeds, its chunks cover the file in each case exactly if
what it does not check is as it should be: the members that `ReadImage` comes
to lie inside the file, and so do the entries that `ReadZip` finds, one behind
the other and with all of their data. -/
theorem chunks_tile_iff (lib : Decoder) (file : Memory)
    (uninit : ImageChunk Pointer) :
    (∀ fuel chunks heap,
      readImage lib file uninit fuel = some (some (chunks, heap)) →
        (TilesFile lib file heap 0 chunks ↔
          ∀ pos, Reached lib file pos → MemberInside lib file pos)) ∧
      ∀ fuel chunks heap,
        readZip lib file uninit fuel = some (some (chunks, heap)) →
          (TilesFile lib file heap 0 chunks ↔
            ∀ entries ∈ zipEntries file, Orderly lib file 0 entries) := by
  constructor
  · intro fuel chunks heap hread
    obtain ⟨more, tail, rfl, rfl, htiles⟩ := readImageLoop_tiles hread
    rw [and_iff_right (Nat.zero_le _)] at htiles
    exact htiles
  · intro fuel chunks heap hread
    rw [readZip] at hread
    cases hentries : zipEntries file with
    | none =>
        rw [hentries] at hread
        cases hread
    | some entries =>
        rw [hentries] at hread
        have hstart : int32 (0 : Nat) = 0 := by decide
        have hloop : readZipLoop lib file uninit fuel (int32 (0 : Nat))
            entries [] [] = some (some (chunks, heap)) := by
          rw [hstart]
          exact hread
        obtain ⟨more, tail, rfl, rfl, htiles⟩ :=
          readZipLoop_tiles hloop (zipEntries_inRange hentries)
        rw [and_iff_right (Nat.zero_le _)] at htiles
        simpa using htiles

namespace ChunkTilingWitness

/-- The only stream is the empty block `03 00`. -/
def emptyBlock : Decoder.Format where
  front
    | 3 :: 0 :: _ => .stream [] 2
    | _ => .incomplete
  nil_incomplete := rfl
  stream_length := by
    intro input data length hfront
    split at hfront
    · cases hfront
      simp
    · cases hfront

abbrev inflater : Decoder := Decoder.ofFormat emptyBlock

def member : Bytes :=
  [0x1f, 0x8b, 0x08, 0x00, 0, 0, 0, 0, 0, 3, 3, 0, 0, 0, 0, 0]

/-- A gzip member without the last four bytes. -/
def cutFooter : Memory := ⟨⟨member, fun _ => 0⟩, by decide⟩

/-- The zeros behind the image are taken for the rest of the footer. -/
theorem cutFooter_not_tiled : ∃ chunks heap,
    readImage inflater cutFooter ReadImageWitness.anyChunk 3 =
      some (some (chunks, heap)) ∧
        ¬ TilesFile inflater cutFooter heap 0 chunks := by
  refine ⟨memberChunks ReadImageWitness.anyChunk 0 2 0 [], [[]], by decide,
    fun htiles => ?_⟩
  obtain ⟨-, -, -, -, -, -, hend⟩ := htiles.tiles
  have hsize : 20 = 16 := hend
  exact absurd hsize (by decide)

/-- The whole member. -/
def wholeMember : Memory :=
  ⟨⟨member ++ [0, 0, 0, 0], fun _ => 0⟩, by decide⟩

/-- A zip file with one empty file in it, which is deflated. -/
def oneEntry : Memory :=
  ⟨⟨[0x50, 0x4b, 3, 4, 20, 0, 0, 0, 8, 0, 0, 0, 0, 0, 0, 0, 0, 0,
      2, 0, 0, 0, 0, 0, 0, 0, 1, 0, 0, 0, 0x61,
      3, 0,
      0x50, 0x4b, 1, 2, 20, 0, 20, 0, 0, 0, 8, 0, 0, 0, 0, 0, 0, 0, 0, 0,
      2, 0, 0, 0, 0, 0, 0, 0, 1, 0, 0, 0, 0, 0, 0, 0, 0, 0, 0, 0, 0, 0,
      0, 0, 0, 0, 0x61,
      0x50, 0x4b, 5, 6, 0, 0, 0, 0, 1, 0, 1, 0, 47, 0, 0, 0, 33, 0, 0, 0,
      0, 0], fun _ => 0⟩, by decide⟩

theorem oneEntry_entries :
    zipEntries oneEntry = some [⟨31, 2, 0, [0x61]⟩] := by
  decide +kernel

def oneEntryChunks : List (ImageChunk Pointer) :=
  [plainChunk ReadImageWitness.anyChunk 0 31,
    entryChunk ⟨31, 2, 0, [0x61]⟩ [],
    plainChunk ReadImageWitness.anyChunk 33 69]

theorem oneEntry_read :
    readZip inflater oneEntry ReadImageWitness.anyChunk 4 =
      some (some (oneEntryChunks, [[]])) := by
  decide +kernel

theorem oneEntry_orderly :
    Orderly inflater oneEntry 0 [⟨31, 2, 0, [0x61]⟩] :=
  Or.inr ⟨by decide, Or.inr ⟨by decide, by decide, by decide, trivial⟩⟩

theorem wholeMember_inside (pos : Nat)
    (hreach : Reached inflater wholeMember pos) :
    MemberInside inflater wholeMember pos := by
  have hinflates : InflatesAt inflater wholeMember 10 [] 2 :=
    ⟨1, by decide⟩
  have hall : (∀ pos', Relation.ReflTransGen
        (Advances inflater wholeMember) 0 pos' →
        MemberInside inflater wholeMember pos') ↔ _ :=
    advances_member (by decide) (by decide) hinflates (by decide)
  exact hall.mpr ⟨by decide, memberInside_end (by decide)⟩ pos hreach

/-- Both readers cover a file that is as it should be. -/
theorem member_and_entry_tiled :
    TilesFile inflater wholeMember [[]] 0
        (memberChunks ReadImageWitness.anyChunk 0 2 0 []) ∧
      TilesFile inflater oneEntry [[]] 0 oneEntryChunks := by
  constructor
  · have htiles := (chunks_tile_iff inflater wholeMember
      ReadImageWitness.anyChunk).1 3
      (memberChunks ReadImageWitness.anyChunk 0 2 0 []) [[]] (by decide)
    exact htiles.mpr wholeMember_inside
  · have htiles := (chunks_tile_iff inflater oneEntry
      ReadImageWitness.anyChunk).2 4 oneEntryChunks [[]] oneEntry_read
    refine htiles.mpr fun entries hmem => ?_
    rw [oneEntry_entries] at hmem
    cases hmem
    exact oneEntry_orderly

end ChunkTilingWitness

end Imgdiff

end MetaOS
