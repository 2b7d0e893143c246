/-
`imgdiff` and `ApplyImagePatch` in zip mode.  A deflated entry of the new file
is patched against the one of the same name, everything else against the whole
old file.  The names of the new file must differ: a second entry of the same
name could turn the source of the first into a normal chunk.
-/
import MetaOS.ImgdiffRoundTrip

namespace MetaOS

namespace Imgdiff

open Bytes Bspatch ImagePatch Filter

section Names

variable {name other third : Option Bytes}

theorem sameName_iff : sameName name other = true ↔
    ∃ a b, name = some a ∧ other = some b ∧
      CString.cstr a = CString.cstr b := by
  cases name <;> cases other <;> simp [sameName]

theorem sameName_join (hfirst : sameName name third = true)
    (hsecond : sameName other third = true) : sameName name other = true := by
  obtain ⟨a, c, rfl, rfl, hac⟩ := sameName_iff.mp hfirst
  obtain ⟨b, c', rfl, hc, hbc⟩ := sameName_iff.mp hsecond
  cases hc
  exact sameName_iff.mpr ⟨a, b, rfl, rfl, hac.trans hbc.symm⟩

/-- There is a deflate chunk with the name. -/
def Has (name : Option Bytes) (chunks : List (ImageChunk Pointer)) : Prop :=
  ∃ chunk ∈ chunks, chunk.type = .deflate ∧
    sameName name chunk.filename = true

theorem findChunkByName_some {chunks : List (ImageChunk Pointer)} {k : Nat}
    (hfind : findChunkByName name chunks = some k) :
    ∃ chunk, chunks[k]? = some chunk ∧ chunk.type = .deflate ∧
      sameName name chunk.filename = true := by
  obtain ⟨hlt, hfound, -⟩ := List.findIdx?_eq_some_iff_getElem.mp hfind
  obtain ⟨htype, hname⟩ := of_decide_eq_true hfound
  exact ⟨chunks[k], List.getElem?_eq_getElem hlt, htype, hname⟩

theorem Has.find {chunks : List (ImageChunk Pointer)}
    (hhas : Has name chunks) : ∃ k, findChunkByName name chunks = some k := by
  obtain ⟨chunk, hmem, htype, hname⟩ := hhas
  refine Option.ne_none_iff_exists'.mp fun hnone => ?_
  rw [findChunkByName, List.findIdx?_eq_none_iff] at hnone
  have hnot := hnone chunk hmem
  simp [htype, hname] at hnot

/-- A chunk that is changed does not have the name. -/
theorem Has.changeAt {chunks : List (ImageChunk Pointer)} {k : Nat}
    (hhas : Has name chunks)
    (hfind : findChunkByName other chunks = some k)
    (hdiffer : sameName name other = false) :
    Has name (changeAt chunks k) := by
  obtain ⟨chunk, hmem, htype, hname⟩ := hhas
  obtain ⟨i, hi, rfl⟩ := List.mem_iff_getElem.mp hmem
  obtain ⟨found, hk, -, hother⟩ := findChunkByName_some hfind
  have hne : k ≠ i := by
    rintro rfl
    rw [List.getElem?_eq_getElem hi, Option.some_inj] at hk
    rw [hk] at hname
    rw [sameName_join hname hother] at hdiffer
    cases hdiffer
  refine ⟨chunks[i], ?_, htype, hname⟩
  have hget : (Imgdiff.changeAt chunks k)[i]? = some chunks[i] := by
    rw [Imgdiff.changeAt, List.getElem?_modify_ne _ _ hne,
      List.getElem?_eq_getElem hi]
  exact List.mem_of_getElem? hget

end Names

section Conversion

variable {flate : Decoder} {loaded : Loaded} {file : Memory}
  {chunk : ImageChunk Pointer}

/-- A deflate chunk that becomes a normal one stands for the same piece. -/
theorem Situated.change (hchunk : Situated flate loaded file.data chunk) :
    Situated flate loaded file.data chunk.changeDeflateChunkToNormal := by
  have hsize := file.size_lt
  rw [ImageChunk.changeDeflateChunkToNormal]
  split
  · exact hchunk
  next hdeflate =>
  obtain ⟨hinside, hpiece, hwindow, -⟩ := hchunk.deflate (not_not.mp hdeflate)
  rw [hwindow] at hpiece
  have hnotRaw : ChunkType.normal ≠ .raw := by decide
  exact ⟨hnotRaw, hinside, hpiece, fun htype => absurd htype (by simp), by
    dsimp only
    omega⟩

/-- Each chunk of the source has its place. -/
def AllSituated (flate : Decoder) (src : Loaded) (srcFile : Memory)
    (chunks : List (ImageChunk Pointer)) : Prop :=
  ∀ chunk ∈ chunks, Situated flate src srcFile.data chunk

theorem AllSituated.changeAt {chunks : List (ImageChunk Pointer)}
    (hall : AllSituated flate loaded file chunks) (k : Nat) :
    AllSituated flate loaded file (changeAt chunks k) := by
  intro chunk hmem
  obtain ⟨i, hi, rfl⟩ := List.mem_iff_getElem.mp hmem
  rw [Imgdiff.changeAt, List.length_modify] at hi
  have hchunk := hall chunks[i] (List.getElem_mem hi)
  simp only [Imgdiff.changeAt, List.getElem_modify]
  split
  · exact hchunk.change
  · exact hchunk

/-- The pseudo chunk stays what it is. -/
theorem changeAt_first {chunks : List (ImageChunk Pointer)}
    (hfirst : chunks[0]? = some chunk) (htype : chunk.type ≠ .deflate)
    (k : Nat) : (changeAt chunks k)[0]? = some chunk := by
  rw [changeAt, List.getElem?_modify, hfirst]
  have hsame : chunk.changeDeflateChunkToNormal = chunk := if_pos htype
  split
  · exact congrArg some hsame
  · rfl

/-- What becomes of a target chunk and of the source chunks. -/
inductive Converts (levels : ImageChunk Pointer → Option Int)
    (t : ImageChunk Pointer) (chunks : List (ImageChunk Pointer)) :
    ImageChunk Pointer → List (ImageChunk Pointer) → Prop
  | kept (hfound : t.type = .deflate →
      (levels t).isSome ∧ Has t.filename chunks) :
      Converts levels t chunks t chunks
  | alone : Converts levels t chunks t.changeDeflateChunkToNormal chunks
  | both {k : Nat} (htype : t.type = .deflate)
      (hfind : findChunkByName t.filename chunks = some k) :
      Converts levels t chunks t.changeDeflateChunkToNormal
        (changeAt chunks k)

variable {zlib : Zlib} {src tgt : Loaded}
  {levels : ImageChunk Pointer → Option Int}

/-- The conversion of a chunk ends where the attempts to reconstruct it
end. -/
theorem convertZipChunk_spec (zlib : Zlib) (src tgt : Loaded)
    (levels : ImageChunk Pointer → Option Int) (t : ImageChunk Pointer)
    (chunks : List (ImageChunk Pointer)) :
    ∃ t' chunks', Converts levels t chunks t' chunks' ∧
      ∀ fuel, reconstructDeflateChunk zlib tgt fuel t = some (levels t) →
        convertZipChunk zlib src tgt fuel t chunks = some (t', chunks') := by
  by_cases hdeflate : t.type = .deflate
  · cases hfind : findChunkByName t.filename chunks with
    | none =>
        refine ⟨_, _, .alone, fun fuel hends => ?_⟩
        rw [convertZipChunk, if_neg (not_not.mpr hdeflate), hends, hfind]
        rfl
    | some k =>
        obtain ⟨s, hs, htype, hname⟩ := findChunkByName_some hfind
        cases hlevel : levels t with
        | none =>
            refine ⟨_, _, .both hdeflate hfind, fun fuel hends => ?_⟩
            rw [convertZipChunk, if_neg (not_not.mpr hdeflate), hends, hfind]
            rfl
        | some level =>
            by_cases hequal : areChunksEqual tgt src t s = true
            · refine ⟨_, _, .both hdeflate hfind, fun fuel hends => ?_⟩
              rw [convertZipChunk, if_neg (not_not.mpr hdeflate), hends,
                hfind]
              simp [hs, hequal]
            · refine ⟨t, chunks, .kept fun _ => ⟨?_, ?_⟩,
                fun fuel hends => ?_⟩
              · rw [hlevel]
                rfl
              · exact ⟨s, List.mem_of_getElem? hs, htype, hname⟩
              · rw [convertZipChunk, if_neg (not_not.mpr hdeflate), hends,
                  hfind]
                simp [hs, hequal]
  · refine ⟨t, chunks, .kept fun htype => absurd htype hdeflate,
      fun fuel _ => ?_⟩
    rw [convertZipChunk, if_pos hdeflate]

/-- What the loop leaves of the chunks: the target still covers its file, and
for each deflate chunk of it there is one in the source. -/
structure ConvertedZip (flate : Decoder) (src : Loaded) (srcFile : Memory)
    (levels : ImageChunk Pointer → Option Int) (size : Nat)
    (todo chunks done chunks' : List (ImageChunk Pointer)) : Prop where
  tiles : ∀ pos, TilesFrom img size pos todo → TilesFrom img size pos done
  deflates : ∀ t ∈ done, t.type = .deflate →
    t ∈ todo ∧ (levels t).isSome ∧ Has t.filename chunks'
  names : ∀ name, (∀ t ∈ todo, t.type = .deflate →
    sameName name t.filename = false) → Has name chunks → Has name chunks'
  situated : AllSituated flate src srcFile chunks →
    AllSituated flate src srcFile chunks'
  first : ∀ s, s.type ≠ .deflate → chunks[0]? = some s →
    chunks'[0]? = some s

/-- The deflated entries have different names. -/
def DifferentNames (chunks : List (ImageChunk Pointer)) : Prop :=
  (chunks.filter (·.type = .deflate)).Pairwise fun a b =>
    sameName a.filename b.filename = false

theorem ConvertedZip.cons {srcFile : Memory} {size : Nat}
    {t t' : ImageChunk Pointer}
    {todo chunks middle done chunks' : List (ImageChunk Pointer)}
    (hfirst : Converts levels t chunks t' middle)
    (hrest : ConvertedZip flate src srcFile levels size todo middle done
      chunks')
    (hdiffer : t.type = .deflate → ∀ other ∈ todo, other.type = .deflate →
      sameName t.filename other.filename = false) :
    ConvertedZip flate src srcFile levels size (t :: todo) chunks
      (t' :: done) chunks' := by
  have hchanged := changeDeflateChunkToNormal_type t
  refine ⟨?_, ?_, ?_, ?_, ?_⟩
  · rintro pos ⟨hstart, hplace, htiles⟩
    have hkept := changeDeflateChunkToNormal_kept hplace
    cases hfirst with
    | kept => exact ⟨hstart, hplace, hrest.tiles _ htiles⟩
    | alone =>
        rw [← hkept.2.1] at htiles
        exact ⟨hkept.1.trans hstart, hkept.2.2.1, hrest.tiles _ htiles⟩
    | both =>
        rw [← hkept.2.1] at htiles
        exact ⟨hkept.1.trans hstart, hkept.2.2.1, hrest.tiles _ htiles⟩
  · intro d hmem htype
    rcases List.mem_cons.mp hmem with rfl | hmem
    · cases hfirst with
      | kept hfound =>
          obtain ⟨hlevel, hhas⟩ := hfound htype
          exact ⟨List.mem_cons_self, hlevel,
            hrest.names _ (hdiffer htype) hhas⟩
      | alone => exact absurd htype hchanged
      | both => exact absurd htype hchanged
    · obtain ⟨hmem, hfound⟩ := hrest.deflates d hmem htype
      exact ⟨List.mem_cons_of_mem _ hmem, hfound⟩
  · intro name hnames hhas
    obtain ⟨hname, hnames⟩ := List.forall_mem_cons.mp hnames
    refine hrest.names name hnames ?_
    cases hfirst with
    | kept => exact hhas
    | alone => exact hhas
    | both htype hfind => exact hhas.changeAt hfind (hname htype)
  · intro hall
    refine hrest.situated ?_
    cases hfirst with
    | kept => exact hall
    | alone => exact hall
    | both => exact hall.changeAt _
  · intro s htype hs
    refine hrest.first s htype ?_
    cases hfirst with
    | kept => exact hs
    | alone => exact hs
    | both => exact changeAt_first hs htype _

/-- The loop ends where all attempts to reconstruct end. -/
theorem convertZip_spec (zlib : Zlib) (src tgt : Loaded)
    (levels : ImageChunk Pointer → Option Int) (flate : Decoder)
    (srcFile : Memory) (size : Nat) {todo : List (ImageChunk Pointer)}
    (hnames : DifferentNames todo)
    (chunks : List (ImageChunk Pointer)) :
    ∃ done chunks', ConvertedZip flate src srcFile levels size todo chunks
        done chunks' ∧
      ∀ fuel, (∀ t ∈ todo,
          reconstructDeflateChunk zlib tgt fuel t = some (levels t)) →
        convertZip zlib src tgt fuel todo chunks = some (done, chunks') := by
  induction todo generalizing chunks with
  | nil =>
      refine ⟨[], chunks, ⟨fun _ htiles => htiles, ?_, fun _ _ => id, id,
        fun _ _ => id⟩, fun _ _ => rfl⟩
      exact fun _ hmem => absurd hmem List.not_mem_nil
  | cons t todo ih =>
      obtain ⟨t', middle, hfirst, hrun⟩ :=
        convertZipChunk_spec zlib src tgt levels t chunks
      have hrest : DifferentNames todo ∧ (t.type = .deflate →
          ∀ other ∈ todo, other.type = .deflate →
            sameName t.filename other.filename = false) := by
        rw [DifferentNames, List.filter_cons] at hnames
        split at hnames
        · rw [List.pairwise_cons] at hnames
          exact ⟨hnames.2, fun _ other hmem htype => hnames.1 other
            (List.mem_filter.mpr ⟨hmem, by simpa using htype⟩)⟩
        · next htype =>
            exact ⟨hnames, fun htype' => absurd htype' (by simpa using htype)⟩
      obtain ⟨done, chunks', hdone, hruns⟩ := ih hrest.1 middle
      refine ⟨t' :: done, chunks', hdone.cons hfirst hrest.2, ?_⟩
      intro fuel hends
      obtain ⟨hend, hends⟩ := List.forall_mem_cons.mp hends
      rw [convertZip, hrun fuel hend, Option.bind_eq_bind, Option.bind_some]
      dsimp only
      rw [hruns fuel hends]
      rfl

end Conversion

section Patches

variable {flate : Decoder} {compress : Bytes → Bytes} {device : Device}
  {src tgt : Loaded} {tgtFile : Bytes}
  {levels : ImageChunk Pointer → Option Int}

/-- The source chunk of a target chunk has its type. -/
theorem sourceOf_spec {chunks : List (ImageChunk Pointer)}
    {first t : ImageChunk Pointer} (hfirst : chunks[0]? = some first)
    (hnormal : first.type = .normal)
    (htype : t.type = .normal ∨ t.type = .deflate)
    (hhas : t.type = .deflate → Has t.filename chunks) :
    ∃ s, chunks[sourceOf chunks t]? = some s ∧ s.type = t.type := by
  rcases htype with htype | htype
  · have hother : t.type ≠ .deflate := by
      rw [htype]
      decide
    rw [sourceOf, if_neg hother]
    exact ⟨first, hfirst, hnormal.trans htype.symm⟩
  · obtain ⟨k, hfind⟩ := (hhas htype).find
    obtain ⟨s, hs, hstype, -⟩ := findChunkByName_some hfind
    rw [sourceOf, if_pos htype, hfind]
    exact ⟨s, hs, hstype.trans htype.symm⟩

/-- The indexes that have been made are good. -/
def CachesGood (src : Loaded) (chunks : List (ImageChunk Pointer))
    (cache : Nat → Option (List Nat)) : Prop :=
  ∀ k s, chunks[k]? = some s → CacheGood (cache k) (src.read s.data s.len)

/-- The patches of a zip file give the pieces of the target. -/
theorem zipPatches_spec (hrelies : Relies flate compress device)
    (fresh : Fresh) (hlevels : LevelsFound device.zlib tgt levels)
    {chunks : List (ImageChunk Pointer)} {first : ImageChunk Pointer}
    (hfirst : chunks[0]? = some first) (hnormal : first.type = .normal)
    (hsrc : AllSituated flate src device.old chunks)
    {todo : List (ImageChunk Pointer)}
    (htgt : ∀ t ∈ todo, Situated flate tgt tgtFile t)
    (hdeflate : ∀ t ∈ todo, t.type = .deflate →
      (levels t).isSome ∧ Has t.filename chunks)
    {cache : Nat → Option (List Nat)} (hcache : CachesGood src chunks cache) :
    ∃ targets, (∀ᶠ fuel in atTop, zipPatches device.zlib compress fresh src
        tgt fuel chunks cache todo = some targets) ∧
      List.Forall₂ (GivesPiece device) targets
        (todo.map (pieceOf tgtFile)) := by
  induction todo generalizing cache with
  | nil => exact ⟨[], Eventually.of_forall fun _ => rfl, .nil⟩
  | cons t todo ih =>
      obtain ⟨ht, htgt⟩ := List.forall_mem_cons.mp htgt
      obtain ⟨hfound, hdeflate⟩ := List.forall_mem_cons.mp hdeflate
      obtain ⟨s, hs, htypes⟩ := sourceOf_spec hfirst hnormal ht.type_cases
        fun htype => (hfound htype).2
      obtain ⟨target, index, hmake, hindex, hgives⟩ := makePatch_spec hrelies
        fresh (hsrc s (List.mem_of_getElem? hs)) ht htypes
        (hcache _ s hs) (hlevels.levelGood fun htype => (hfound htype).1)
      have hcache' : CachesGood src chunks fun i =>
          if i = sourceOf chunks t then index else cache i := by
        intro k other hother
        dsimp only
        split
        · next hsame =>
            rw [hsame, hs] at hother
            cases hother
            exact hindex
        · exact hcache k other hother
      obtain ⟨targets, htargets, hgive⟩ := ih htgt hdeflate hcache'
      refine ⟨target :: targets, ?_, .cons hgives hgive⟩
      filter_upwards [htargets, hlevels.levelOf t] with fuel hrest hlevelOf
      rw [zipPatches]
      dsimp only
      rw [hs, hlevelOf]
      simp only [Option.bind_eq_bind, Option.bind_some]
      rw [hmake]
      simp only [Option.bind_some]
      rw [hrest]
      rfl

end Patches

section RoundTrip

/-- A zip file that has been read, with its entries in order. -/
structure ReadZipWell (flate : Decoder) (file : Memory)
    (chunks : List (ImageChunk Pointer)) (heap : Heap) : Prop where
  read : ∃ uninit fuel,
    readZip flate file uninit fuel = some (some (chunks, heap))
  orderly : ∀ entries ∈ zipEntries file, Orderly flate file 0 entries
  heap_lt : ∀ block ∈ heap, block.length < 2 ^ 31

variable {flate : Decoder} {file : Memory}
  {chunks : List (ImageChunk Pointer)} {heap : Heap}

theorem ReadZipWell.tilesFile (hread : ReadZipWell flate file chunks heap) :
    TilesFile flate file heap 0 chunks := by
  obtain ⟨uninit, fuel, hloop⟩ := hread.read
  rw [readZip] at hloop
  cases hentries : zipEntries file with
  | none =>
      rw [hentries] at hloop
      cases hloop
  | some entries =>
      rw [hentries] at hloop
      have hstart : int32 (0 : Nat) = 0 := by decide
      have hrun : readZipLoop flate file uninit fuel (int32 (0 : Nat)) entries
          [] [] = some (some (chunks, heap)) := by
        rw [hstart]
        exact hloop
      obtain ⟨more, tail, rfl, rfl, htiles⟩ :=
        readZipLoop_tiles hrun (zipEntries_inRange hentries)
      exact htiles.mpr ⟨Nat.zero_le _, hread.orderly entries hentries⟩

/-- The zip file as `main` has it. -/
abbrev zipLoaded (file : Memory) (chunks : List (ImageChunk Pointer))
    (heap : Heap) : Loaded :=
  ⟨file, heap, chunks⟩

theorem ReadZipWell.situated (hread : ReadZipWell flate file chunks heap)
    {others list : List (ImageChunk Pointer)}
    (htiles : Tiles img file.data.length others)
    (hdeflate : ∀ chunk ∈ others, chunk.type = .deflate → chunk ∈ chunks) :
    ∀ chunk ∈ others,
      Situated flate (zipLoaded file list heap) file.data chunk :=
  situated_of_tiles htiles
    (fun chunk hmem htype => hread.tilesFile.inflated chunk
      (hdeflate chunk hmem htype) htype) (List.append_nil _).symm hread.heap_lt

theorem pseudoChunk_situated (uninit : ImageChunk Pointer)
    (list : List (ImageChunk Pointer)) :
    Situated flate (zipLoaded file list heap) file.data
      (pseudoChunk uninit file.data.length) := by
  have hread : Block.read file (0 : Nat) file.data.length =
      file.data.window 0 file.data.length := read_eq_window (by simp)
  have hnotRaw : ChunkType.normal ≠ .raw := by decide
  exact ⟨hnotRaw, (Nat.zero_add _).le, hread,
    fun htype => absurd htype (by simp [pseudoChunk]), file.size_lt⟩

variable {compress : Bytes → Bytes} {device : Device} {tgtFile : Memory}
  {srcChunks tgtChunks : List (ImageChunk Pointer)} {srcHeap tgtHeap : Heap}

/-- In zip mode `imgdiff` ends with a patch, and `ApplyImagePatch` turns the
old file into the new one with it. -/
theorem imgdiff_zip_applies (hrelies : Relies flate compress device)
    (fresh : Fresh) (uninit : ImageChunk Pointer)
    (hsrc : ReadZipWell flate device.old srcChunks srcHeap)
    (htgt : ReadZipWell flate tgtFile tgtChunks tgtHeap)
    (hnames : DifferentNames tgtChunks) :
    ∃ file, (∃ bound, ∀ fuel, bound ≤ fuel →
        mainZip device.zlib compress fresh
          (zipLoaded device.old srcChunks srcHeap)
          (zipLoaded tgtFile tgtChunks tgtHeap) fuel uninit
          device.old.data.length = some file) ∧
      ∀ (patch : Memory) (token : device.sink.State), patch.data = file →
        ∃ bound, ∀ fuel, bound ≤ fuel → ∃ out,
          (applyImagePatch device.bzip2 device.zlib patch fuel device.malloc
              device.old token).result = some (.ok out) ∧
            out.accepted = tgtFile.data ∧ out.hashed = tgtFile.data := by
  obtain ⟨levels, hlevels⟩ := exists_levels hrelies.deflates
    (zipLoaded tgtFile tgtChunks tgtHeap)
  let pseudo := pseudoChunk uninit device.old.data.length
  have hsrcAll : AllSituated flate (zipLoaded device.old srcChunks srcHeap)
      device.old (pseudo :: srcChunks) := by
    refine List.forall_mem_cons.mpr ⟨pseudoChunk_situated uninit _, ?_⟩
    exact hsrc.situated hsrc.tilesFile.tiles fun _ hmem _ => hmem
  obtain ⟨done, chunks, hdone, hconvert⟩ := convertZip_spec device.zlib
    (zipLoaded device.old srcChunks srcHeap)
    (zipLoaded tgtFile tgtChunks tgtHeap) levels flate device.old
    tgtFile.data.length hnames (pseudo :: srcChunks)
  have htiles := Tiles.merge (hdone.tiles 0 htgt.tilesFile.tiles)
  have hdeflates : ∀ t ∈ mergeAdjacentNormalChunks done, t.type = .deflate →
      t ∈ tgtChunks ∧ (levels t).isSome ∧ Has t.filename chunks :=
    fun t hmem htype => hdone.deflates t (mem_of_merge hmem htype) htype
  obtain ⟨targets, htargets, hgive⟩ := zipPatches_spec hrelies fresh hlevels
    (hdone.first pseudo (by simp [pseudo, pseudoChunk]) rfl) rfl
    (hdone.situated hsrcAll)
    (htgt.situated htiles fun t hmem htype => (hdeflates t hmem htype).1)
    (fun t hmem htype => (hdeflates t hmem htype).2)
    (fun _ _ _ _ hnone => absurd hnone (Option.not_mem_none _))
  refine ⟨patchFile targets, eventually_atTop.mp ?_, ?_⟩
  · have hends := eventually_forall_mem _ fun t (_ : t ∈ tgtChunks) =>
      hlevels.ends t
    filter_upwards [htargets, hends] with fuel htargets hends
    rw [mainZip, hconvert fuel hends, Option.bind_eq_bind, Option.bind_some]
    dsimp only
    rw [htargets]
    rfl
  · intro patch token hpatch
    have hflatten := pieces_flatten htiles
    rw [List.drop_zero] at hflatten
    rw [← hflatten]
    exact patchFile_gives hgive hpatch token

end RoundTrip

namespace ImgdiffZipWitness

open ImgdiffRoundTripWitness

/-- A zip file with one entry, which is deflated. -/
def archive (crc deflated : Bytes) (deflateLen uncompLen : UInt8) : Bytes :=
  [0x50, 0x4b, 3, 4, 20, 0, 0, 0, 8, 0, 0, 0, 0, 0] ++ crc ++
    [deflateLen, 0, 0, 0, uncompLen, 0, 0, 0, 1, 0, 0, 0, 0x61] ++ deflated ++
    [0x50, 0x4b, 1, 2, 20, 0, 20, 0, 0, 0, 8, 0, 0, 0, 0, 0] ++ crc ++
    [deflateLen, 0, 0, 0, uncompLen, 0, 0, 0, 1, 0, 0, 0, 0, 0, 0, 0, 0, 0,
      0, 0, 0, 0, 0, 0, 0, 0, 0x61] ++
    [0x50, 0x4b, 5, 6, 0, 0, 0, 0, 1, 0, 1, 0, 47, 0, 0, 0, 31 + deflateLen,
      0, 0, 0, 0, 0]

def srcZip : Memory :=
  ⟨⟨archive [0, 0, 0, 0] [3, 0] 2 0, fun _ => 0⟩, by decide⟩

def tgtZip : Memory :=
  ⟨⟨archive [0x43, 0xbe, 0xb7, 0xe8] [0x4b, 4, 0] 3 1, fun _ => 0⟩,
    by decide⟩

def srcChunks : List (ImageChunk Pointer) :=
  [plainChunk anyChunk 0 31, entryChunk ⟨31, 2, 0, [0x61]⟩ [],
    plainChunk anyChunk 33 69]

def tgtChunks : List (ImageChunk Pointer) :=
  [plainChunk anyChunk 0 31, entryChunk ⟨31, 3, 1, [0x61]⟩ [],
    plainChunk anyChunk 34 69]

theorem srcZip_readWell : ReadZipWell flate srcZip srcChunks [[]] where
  read := ⟨anyChunk, 4, by decide +kernel⟩
  orderly := by
    have hentries : zipEntries srcZip = some [⟨31, 2, 0, [0x61]⟩] := by
      decide +kernel
    rw [hentries]
    rintro _ ⟨⟩
    exact Or.inr ⟨by decide, Or.inr ⟨by decide, by decide, by decide,
      trivial⟩⟩
  heap_lt := by decide

theorem tgtZip_readWell : ReadZipWell flate tgtZip tgtChunks [[97]] where
  read := ⟨anyChunk, 4, by decide +kernel⟩
  orderly := by
    have hentries : zipEntries tgtZip = some [⟨31, 3, 1, [0x61]⟩] := by
      decide +kernel
    rw [hentries]
    rintro _ ⟨⟩
    exact Or.inr ⟨by decide, Or.inr ⟨by decide, by decide, by decide,
      trivial⟩⟩
  heap_lt := by decide

def zipDevice : Device := { device with old := srcZip }

/-- The empty entry is patched to the one with the letter. -/
theorem entry_applies : ∃ file,
    (∃ bound, ∀ fuel, bound ≤ fuel →
      mainZip zlib Bsdiff.BsdiffWitness.compress fresh
        (zipLoaded srcZip srcChunks [[]]) (zipLoaded tgtZip tgtChunks [[97]])
        fuel anyChunk srcZip.data.length = some file) ∧
      ∀ (patch : Memory) (token : zipDevice.sink.State), patch.data = file →
        ∃ bound, ∀ fuel, bound ≤ fuel → ∃ out,
          (applyImagePatch zipDevice.bzip2 zlib patch fuel zipDevice.malloc
              srcZip token).result = some (.ok out) ∧
            out.accepted = tgtZip.data ∧ out.hashed = tgtZip.data :=
  have hrelies : Relies flate Bsdiff.BsdiffWitness.compress zipDevice :=
    { device_relies with }
  imgdiff_zip_applies hrelies fresh anyChunk srcZip_readWell tgtZip_readWell
    (List.pairwise_singleton _ _)

end ImgdiffZipWitness

end Imgdiff

end MetaOS
