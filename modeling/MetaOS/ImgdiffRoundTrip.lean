/-
`imgdiff` and `ApplyImagePatch` in image mode.  Two images whose chunks have
the same structure give a patch that turns the old one into the new one, byte
for byte: the compressed parts are there again as they were.
-/
import MetaOS.ImgdiffChunks
import MetaOS.ImgdiffParallel

namespace MetaOS

namespace Imgdiff

open Bytes Bspatch ImagePatch Filter

section Lists

theorem eventually_forall_mem {α : Type} (l : List α) {p : Nat → α → Prop}
    (hall : ∀ a ∈ l, ∀ᶠ n in atTop, p n a) :
    ∀ᶠ n in atTop, ∀ a ∈ l, p n a :=
  (eventually_all_finite l.finite_toSet).mpr hall

theorem mapM_of_forall {α β : Type} {f : α → Option β} {g : α → β}
    {l : List α} (hall : ∀ a ∈ l, f a = some (g a)) :
    l.mapM f = some (l.map g) := by
  induction l with
  | nil => rfl
  | cons a l ih =>
      obtain ⟨hfirst, hall⟩ := List.forall_mem_cons.mp hall
      rw [List.mapM_cons, hfirst, ih hall]
      rfl

/-- The records are those of the chunks. -/
theorem records_from (pos offset : Nat) (chunks : List TargetChunk) :
    List.Forall₂ (fun chunk record =>
      ∃ pos offset, record = chunk.record pos offset) chunks
        (records pos offset chunks) := by
  induction chunks generalizing pos offset with
  | nil => exact .nil
  | cons chunk chunks ih => exact .cons ⟨pos, offset, rfl⟩ (ih _ _)

theorem records_give {device : Device} {patch : Memory}
    {chunks : List TargetChunk} {records : List Record} {outputs : List Bytes}
    (hfrom : List.Forall₂ (fun chunk record =>
      ∃ pos offset, record = TargetChunk.record chunk pos offset) chunks
        records)
    (hdelimit : List.Forall₂ (Delimits patch.data) chunks records)
    (hpieces : List.Forall₂ (GivesPiece device) chunks outputs) :
    List.Forall₂ (Gives device.bzip2 device.zlib patch device.malloc
      device.old device.sink) records outputs := by
  induction hfrom generalizing outputs with
  | nil =>
      cases hpieces
      exact .nil
  | cons hrecord _ ih =>
      cases hpieces with
      | cons hpiece hpieces =>
          cases hdelimit with
          | cons hfirst hdelimit =>
              obtain ⟨pos, offset, rfl⟩ := hrecord
              exact .cons (hpiece patch pos offset hfirst)
                (ih hdelimit hpieces)

/-- Applying a patch file gives the pieces of its chunks, one behind the
other. -/
theorem patchFile_gives {device : Device} {chunks : List TargetChunk}
    {outputs : List Bytes}
    (hpieces : List.Forall₂ (GivesPiece device) chunks outputs)
    {patch : Memory} (hpatch : patch.data = patchFile chunks)
    (token : device.sink.State) :
    ∃ bound, ∀ fuel, bound ≤ fuel → ∃ out,
      (applyImagePatch device.bzip2 device.zlib patch fuel device.malloc
          device.old token).result = some (.ok out) ∧
        out.accepted = outputs.flatten ∧ out.hashed = outputs.flatten := by
  obtain ⟨hmagic, hcount, hheaders, hpatches⟩ := patchFile_standsAt chunks
  have hsize := patch.size_lt
  rw [hpatch] at hsize
  have hin := hpatches.1
  have htotal : (patchHeader chunks).length = totalHeaderSize chunks :=
    patchHeader_length (by omega)
  rw [htotal] at hpatches
  have hdelimit := records_delimit (by omega) hheaders hpatches
  rw [← hpatch] at hmagic hcount hheaders hdelimit
  have hread := readHeader_of_standsAt hmagic hcount hheaders (by omega)
  have hgives := applyRecords_gives (records_give
    (records_from 12 (totalHeaderSize chunks) chunks) hdelimit hpieces)
  obtain ⟨bound, hbound⟩ := eventually_atTop.mp hgives
  refine ⟨bound, fun fuel hfuel => ?_⟩
  obtain ⟨out, hout, hgrew⟩ := hbound fuel hfuel (Out.start token)
  refine ⟨out, ?_, hgrew.accepted, hgrew.hashed⟩
  rw [applyImagePatch_of_read _ _ _ _ _ _ hread]
  exact hout

end Lists

section Tilings

variable {flate : Decoder} {file : Memory} {heap : Heap}
  {chunks list : List (ImageChunk Pointer)} {image : Block} {pos : Nat}

theorem read_heap {block : Nat} {data : Bytes}
    (hblock : heap[block]? = some data) :
    Loaded.read ⟨image, heap, list⟩ ⟨block + 1, 0⟩ data.length = data := by
  have hget : heap.getD block [] = data := by
    rw [List.getD_eq_getElem?_getD, hblock]
    rfl
  have hread : Block.read ⟨data, fun _ => 0⟩ (0 : Nat) data.length =
      data.window 0 data.length := read_eq_window (by simp)
  rw [Bytes.window_zero_length] at hread
  simp only [Loaded.read, hget]
  exact hread

/-- The chunks that cover a file stand for their pieces of it. -/
theorem situated_of_tiles
    (htiles : TilesFrom img file.data.length pos chunks)
    (hinflated : ∀ chunk ∈ chunks, chunk.type = .deflate →
      Inflated flate file heap chunk)
    {behind : Bytes} (himage : image.data = file.data ++ behind)
    (hheap : ∀ block ∈ heap, block.length < 2 ^ 31) :
    ∀ chunk ∈ chunks,
      Situated flate ⟨image, heap, list⟩ file.data chunk := by
  induction chunks generalizing pos with
  | nil => exact fun _ hmem => absurd hmem List.not_mem_nil
  | cons chunk chunks ih =>
      obtain ⟨hstart, hplace, hrest⟩ := htiles
      obtain ⟨hfirst, hinflated⟩ := List.forall_mem_cons.mp hinflated
      refine List.forall_mem_cons.mpr ⟨?_, ih hrest hinflated⟩
      have hinside : chunk.start + chunk.extent ≤ file.data.length := by
        rw [hstart]
        exact hrest.le
      have hsize := file.size_lt
      have hpiece : Loaded.read ⟨image, heap, list⟩ chunk.extentData
          chunk.extent = file.data.window chunk.start chunk.extent := by
        rw [hplace.2, vadd_img]
        simp only [Loaded.read]
        rw [read_eq_window (by rw [himage, List.length_append]; omega),
          himage, Bytes.window_of_append_left _ _ _ _ hinside]
      refine ⟨hplace.1, hinside, hpiece, fun htype => ?_, ?_⟩
      · obtain ⟨block, data, hdata, hblock, hlen, hpiece⟩ := hfirst htype
        rw [hdata, ← hlen, read_heap hblock, ImageChunk.extent, htype]
        exact hpiece
      · cases htype : chunk.type with
        | deflate =>
            obtain ⟨block, data, -, hblock, hlen, -⟩ := hfirst htype
            have hshort := hheap data (List.mem_of_getElem? hblock)
            omega
        | normal =>
            rw [ImageChunk.extent, htype] at hinside
            dsimp only at hinside
            omega
        | raw => exact absurd htype hplace.1

/-- Their pieces make up the file. -/
theorem pieces_flatten (htiles : TilesFrom img file.data.length pos chunks) :
    (chunks.map (pieceOf file.data)).flatten = file.data.drop pos := by
  induction chunks generalizing pos with
  | nil =>
      have hend : pos = file.data.length := htiles
      rw [hend, List.drop_length]
      rfl
  | cons chunk chunks ih =>
      obtain ⟨hstart, -, hrest⟩ := htiles
      rw [List.map_cons, List.flatten_cons, ih hrest, pieceOf, hstart,
        Bytes.window, ← List.drop_drop, List.take_append_drop]

theorem mem_of_merge {chunk : ImageChunk Pointer}
    (hmem : chunk ∈ mergeAdjacentNormalChunks chunks)
    (htype : chunk.type = .deflate) : chunk ∈ chunks := by
  have hfilter : chunk ∈ (mergeAdjacentNormalChunks chunks).filter
      (·.type ≠ .normal) :=
    List.mem_filter.mpr ⟨hmem, by simp [htype]⟩
  rw [(keeps_mergeAdjacentNormalChunks chunks).others] at hfilter
  exact (List.mem_filter.mp hfilter).1

end Tilings

section Conversion

variable {reconstructs equal : Nat → Bool} {t s : ImageChunk Pointer}
  {tgt src : List (ImageChunk Pointer)} {i : Nat}

theorem changeDeflateChunkToNormal_type (chunk : ImageChunk Pointer) :
    chunk.changeDeflateChunkToNormal.type ≠ .deflate := by
  rw [ImageChunk.changeDeflateChunkToNormal]
  have hother : ChunkType.normal ≠ .deflate := by decide
  split
  · assumption
  · exact hother

/-- A pair that is not changed, or a pair without a deflate chunk. -/
theorem convertPair_cases (reconstructs equal : Bool)
    (t s : ImageChunk Pointer) :
    convertPair reconstructs equal t s = (t, s) ∧
        (t.type = .deflate → reconstructs = true) ∨
      (convertPair reconstructs equal t s).1.type ≠ .deflate ∧
        (convertPair reconstructs equal t s).2.type ≠ .deflate := by
  have ht := changeDeflateChunkToNormal_type t
  have hs := changeDeflateChunkToNormal_type s
  rw [convertPair]
  split
  · split
    · exact Or.inr ⟨ht, hs⟩
    · next hreconstructs =>
        split
        · exact Or.inr ⟨ht, hs⟩
        · exact Or.inl ⟨rfl, fun _ => by simpa using hreconstructs⟩
  · next hother => exact Or.inl ⟨rfl, fun htype => absurd htype hother⟩

/-- A deflate chunk of the target is left only if it can be
reconstructed. -/
theorem convert_target
    (hmem : t ∈ (convert reconstructs equal i tgt src).1)
    (htype : t.type = .deflate) (hlength : tgt.length = src.length) :
    ∃ j, tgt[j]? = some t ∧ reconstructs (i + j) = true := by
  induction tgt generalizing src i with
  | nil =>
      rw [convert] at hmem
      · exact absurd hmem List.not_mem_nil
      · exact fun _ _ _ _ hnil _ => List.cons_ne_nil _ _ hnil.symm
  | cons first tgt ih =>
      cases src with
      | nil => cases hlength
      | cons second src =>
          rw [convert] at hmem
          rcases List.mem_cons.mp hmem with rfl | hmem
          · refine ⟨0, ?_⟩
            rcases convertPair_cases (reconstructs i) (equal i) first
              second with ⟨hsame, hreconstructs⟩ | ⟨hchanged, -⟩
            · rw [hsame] at htype ⊢
              exact ⟨rfl, hreconstructs htype⟩
            · exact absurd htype hchanged
          · obtain ⟨j, hj, hreconstructs⟩ := ih hmem
              (Nat.succ.inj hlength)
            refine ⟨j + 1, hj, ?_⟩
            rw [← hreconstructs]
            congr 1
            omega

theorem convert_source
    (hmem : s ∈ (convert reconstructs equal i tgt src).2)
    (htype : s.type = .deflate) : s ∈ src := by
  induction tgt generalizing src i with
  | nil =>
      rw [convert] at hmem
      · exact hmem
      · exact fun _ _ _ _ hnil _ => List.cons_ne_nil _ _ hnil.symm
  | cons first tgt ih =>
      cases src with
      | nil =>
          rw [convert] at hmem
          · exact hmem
          · exact fun _ _ _ _ _ hnil => List.cons_ne_nil _ _ hnil.symm
      | cons second src =>
          rw [convert] at hmem
          rcases List.mem_cons.mp hmem with rfl | hmem
          · rcases convertPair_cases (reconstructs i) (equal i) first
              second with ⟨hsame, -⟩ | ⟨-, hchanged⟩
            · rw [hsame]
              exact List.mem_cons_self
            · exact absurd htype hchanged
          · exact List.mem_cons_of_mem _ (ih hmem)

end Conversion

section Patches

variable {flate : Decoder} {compress : Bytes → Bytes} {device : Device}
  {src tgt : Loaded} {tgtFile : Bytes}

/-- A pair of chunks of one type, each in its file. -/
structure PairGood (flate : Decoder) (device : Device) (src tgt : Loaded)
    (tgtFile : Bytes) (pair : ImageChunk Pointer × ImageChunk Pointer) :
    Prop where
  source : Situated flate src device.old.data pair.1
  target : Situated flate tgt tgtFile pair.2
  types : pair.1.type = pair.2.type

/-- The levels that are found, if each attempt to reconstruct ends. -/
structure LevelsFound (zlib : Zlib) (tgt : Loaded)
    (levels : ImageChunk Pointer → Option Int) : Prop where
  ends : ∀ chunk, ∀ᶠ fuel in atTop,
    reconstructDeflateChunk zlib tgt fuel chunk = some (levels chunk)
  good : ∀ chunk, ∀ found ∈ levels chunk, Reproduces zlib tgt chunk found

theorem exists_levels {zlib : Zlib} (hdeflates : Deflates zlib)
    (tgt : Loaded) : ∃ levels, LevelsFound zlib tgt levels := by
  choose levels hends hgood using reconstructDeflateChunk_ends hdeflates tgt
  exact ⟨levels, hends, hgood⟩

theorem LevelsFound.levelGood {zlib : Zlib}
    {levels : ImageChunk Pointer → Option Int}
    (hlevels : LevelsFound zlib tgt levels) {t : ImageChunk Pointer}
    (hfound : t.type = .deflate → (levels t).isSome) :
    LevelGood zlib tgt t ((levels t).getD 0) := by
  intro htype
  obtain ⟨level, hlevel⟩ := Option.isSome_iff_exists.mp (hfound htype)
  rw [hlevel]
  exact hlevels.good t level hlevel

theorem LevelsFound.levelOf {zlib : Zlib}
    {levels : ImageChunk Pointer → Option Int}
    (hlevels : LevelsFound zlib tgt levels) (t : ImageChunk Pointer) :
    ∀ᶠ fuel in atTop,
      levelOf zlib tgt fuel t = some ((levels t).getD 0) := by
  filter_upwards [hlevels.ends t] with fuel hfound
  rw [Imgdiff.levelOf, hfound]
  rfl

/-- Has a level been found for the chunk at `i`? -/
def foundAt (levels : ImageChunk Pointer → Option Int)
    (chunks : List (ImageChunk Pointer)) (i : Nat) : Bool :=
  match chunks[i]? with
  | some t => (levels t).isSome
  | none => false

theorem reconstructs_eq {zlib : Zlib} {fuel : Nat}
    {levels : ImageChunk Pointer → Option Int}
    {chunks : List (ImageChunk Pointer)}
    (hends : ∀ t ∈ chunks,
      reconstructDeflateChunk zlib tgt fuel t = some (levels t)) :
    reconstructs zlib tgt fuel chunks = foundAt levels chunks := by
  funext i
  rw [reconstructs, foundAt]
  cases hget : chunks[i]? with
  | none => rfl
  | some t =>
      dsimp only
      rw [hends t (List.mem_of_getElem? hget)]
      rfl

/-- The patches of an image give the pieces of the target. -/
theorem imagePatches_spec (hrelies : Relies flate compress device)
    (fresh : Fresh) {levels : ImageChunk Pointer → Option Int}
    (hlevels : LevelsFound device.zlib tgt levels)
    {pairs : List (ImageChunk Pointer × ImageChunk Pointer)}
    (hpairs : ∀ pair ∈ pairs, PairGood flate device src tgt tgtFile pair)
    (hfound : ∀ pair ∈ pairs, pair.2.type = .deflate →
      (levels pair.2).isSome) :
    ∃ targets, (∀ᶠ fuel in atTop, imagePatches device.zlib compress fresh src
        tgt fuel pairs = some targets) ∧
      List.Forall₂ (GivesPiece device) targets
        (pairs.map fun pair => pieceOf tgtFile pair.2) := by
  induction pairs with
  | nil => exact ⟨[], Eventually.of_forall fun _ => rfl, .nil⟩
  | cons pair pairs ih =>
      obtain ⟨s, t⟩ := pair
      obtain ⟨hfirst, hpairs⟩ := List.forall_mem_cons.mp hpairs
      obtain ⟨hlevel, hfound⟩ := List.forall_mem_cons.mp hfound
      obtain ⟨targets, htargets, hgive⟩ := ih hpairs hfound
      obtain ⟨target, index, hmake, -, hgives⟩ := makePatch_spec hrelies fresh
        hfirst.source hfirst.target hfirst.types
        (fun _ hnone => absurd hnone (Option.not_mem_none _))
        (hlevels.levelGood hlevel)
      refine ⟨target :: targets, ?_, .cons hgives hgive⟩
      filter_upwards [htargets, hlevels.levelOf t] with fuel hrest hlevelOf
      rw [imagePatches, hlevelOf, Option.bind_eq_bind, Option.bind_some,
        hmake]
      simp only [Option.bind_eq_bind, Option.bind_some]
      rw [hrest]
      rfl

end Patches

section ImageMode

variable {P : Type} [AddAction Nat P] [DecidableEq P]

/-- Two images with the same structure end up in pairs of chunks. -/
theorem imageMode_patches {srcBase tgtBase : P} {srcSize tgtSize : Nat}
    {src tgt : List (ImageChunk P)} (reconstructs equal : Nat → Bool)
    (hsrc : Tiles srcBase srcSize src) (htgt : Tiles tgtBase tgtSize tgt)
    (htypes : (mergeAdjacentNormalChunks tgt).map ImageChunk.type =
      (mergeAdjacentNormalChunks src).map ImageChunk.type) :
    ∃ srcDone tgtDone : List (ImageChunk P),
      imageMode reconstructs equal src tgt =
          .patches (srcDone.zip tgtDone) ∧
        tgtDone = mergeAdjacentNormalChunks (convert reconstructs equal 0
          (mergeAdjacentNormalChunks tgt) (mergeAdjacentNormalChunks src)).1 ∧
        srcDone = mergeAdjacentNormalChunks (convert reconstructs equal 0
          (mergeAdjacentNormalChunks tgt) (mergeAdjacentNormalChunks src)).2 ∧
        Tiles srcBase srcSize srcDone ∧ Tiles tgtBase tgtSize tgtDone ∧
        tgtDone.map ImageChunk.type = srcDone.map ImageChunk.type := by
  obtain ⟨htgt', hsrc', htypes'⟩ := convert_kept reconstructs equal 0
    htgt.merge hsrc.merge htypes
  have hdone := (parallel_merge htgt' hsrc' htypes').types htypes'
  refine ⟨_, _, ?_, rfl, rfl, Tiles.merge hsrc', Tiles.merge htgt', hdone⟩
  have hcount := congrArg List.length htypes
  have hcount' := congrArg List.length hdone
  rw [List.length_map, List.length_map] at hcount hcount'
  have hcheck : ((mergeAdjacentNormalChunks src).zip
      (mergeAdjacentNormalChunks tgt)).findIdx?
        (fun pair => pair.1.type ≠ pair.2.type) = none := by
    rw [List.findIdx?_eq_none_iff]
    intro pair hmem
    simpa using types_of_mem_zip htypes.symm pair hmem
  rw [imageMode]
  dsimp only
  rw [if_neg (not_not.mpr hcount.symm), hcheck]
  exact if_neg (not_not.mpr hcount'.symm)

/-- Images without the same structure are rejected. -/
theorem imageMode_differs {src tgt : List (ImageChunk P)}
    (reconstructs equal : Nat → Bool)
    (htypes : (mergeAdjacentNormalChunks tgt).map ImageChunk.type ≠
      (mergeAdjacentNormalChunks src).map ImageChunk.type)
    (pairs : List (ImageChunk P × ImageChunk P)) :
    imageMode reconstructs equal src tgt ≠ .patches pairs := by
  rw [imageMode]
  dsimp only
  split
  · intro heq
    cases heq
  next hcount =>
  split
  · intro heq
    cases heq
  next hcheck =>
  refine absurd ?_ htypes
  rw [List.findIdx?_eq_none_iff] at hcheck
  refine List.ext_getElem (by simpa using (not_not.mp hcount).symm) ?_
  intro i htgt hsrc
  rw [List.length_map] at htgt hsrc
  rw [List.getElem_map, List.getElem_map]
  have hmem : ((mergeAdjacentNormalChunks src)[i],
      (mergeAdjacentNormalChunks tgt)[i]) ∈
        (mergeAdjacentNormalChunks src).zip
          (mergeAdjacentNormalChunks tgt) := by
    have hzip : i < ((mergeAdjacentNormalChunks src).zip
        (mergeAdjacentNormalChunks tgt)).length := by
      rw [List.length_zip]
      omega
    rw [← List.getElem_zip (h := hzip)]
    exact List.getElem_mem hzip
  have hsame : (mergeAdjacentNormalChunks src)[i].type =
      (mergeAdjacentNormalChunks tgt)[i].type := by
    simpa using hcheck _ hmem
  exact hsame.symm

end ImageMode

section RoundTrip

/-- An image that has been read, with its members inside the file. -/
structure ReadWell (flate : Decoder) (file : Memory)
    (chunks : List (ImageChunk Pointer)) (heap : Heap) : Prop where
  read : ∃ uninit fuel,
    readImage flate file uninit fuel = some (some (chunks, heap))
  inside : ∀ pos, Reached flate file pos → MemberInside flate file pos
  heap_lt : ∀ block ∈ heap, block.length < 2 ^ 31

variable {flate : Decoder} {file : Memory}
  {chunks list : List (ImageChunk Pointer)} {heap : Heap}

theorem ReadWell.tilesFile (hread : ReadWell flate file chunks heap) :
    TilesFile flate file heap 0 chunks := by
  obtain ⟨uninit, fuel, hloop⟩ := hread.read
  obtain ⟨more, tail, rfl, rfl, htiles⟩ := readImageLoop_tiles hloop
  exact htiles.mpr ⟨Nat.zero_le _, hread.inside⟩

/-- Other chunks that cover the file, with no other deflate chunks. -/
theorem ReadWell.situated (hread : ReadWell flate file chunks heap)
    {others : List (ImageChunk Pointer)}
    (htiles : Tiles img file.data.length others)
    (hdeflate : ∀ chunk ∈ others, chunk.type = .deflate → chunk ∈ chunks) :
    ∀ chunk ∈ others,
      Situated flate ⟨padded file, heap, list⟩ file.data chunk :=
  situated_of_tiles htiles
    (fun chunk hmem htype => hread.tilesFile.inflated chunk
      (hdeflate chunk hmem htype) htype) rfl hread.heap_lt

/-- The image as `main` has it. -/
abbrev asLoaded (file : Memory) (chunks : List (ImageChunk Pointer))
    (heap : Heap) : Loaded :=
  ⟨padded file, heap, chunks⟩

variable {compress : Bytes → Bytes} {device : Device} {tgtFile : Memory}
  {srcChunks tgtChunks : List (ImageChunk Pointer)} {srcHeap tgtHeap : Heap}

/-- In image mode, images with the same structure give a patch. -/
theorem mainImage_spec (hrelies : Relies flate compress device)
    (fresh : Fresh) (hsrc : ReadWell flate device.old srcChunks srcHeap)
    (htgt : ReadWell flate tgtFile tgtChunks tgtHeap)
    (htypes : (mergeAdjacentNormalChunks tgtChunks).map ImageChunk.type =
      (mergeAdjacentNormalChunks srcChunks).map ImageChunk.type) :
    ∃ targets outputs, (∀ᶠ fuel in atTop,
        mainImage device.zlib compress fresh
          (asLoaded device.old srcChunks srcHeap)
          (asLoaded tgtFile tgtChunks tgtHeap) fuel =
            some (some (patchFile targets))) ∧
      List.Forall₂ (GivesPiece device) targets outputs ∧
      outputs.flatten = tgtFile.data := by
  obtain ⟨levels, hlevels⟩ := exists_levels hrelies.deflates
    (asLoaded tgtFile tgtChunks tgtHeap)
  have hends := eventually_forall_mem _ fun t (_ :
    t ∈ mergeAdjacentNormalChunks tgtChunks) => hlevels.ends t
  obtain ⟨srcDone, tgtDone, hmode, htgtDone, hsrcDone, hsrcTiles, htgtTiles,
    hdone⟩ := imageMode_patches
      (foundAt levels (mergeAdjacentNormalChunks tgtChunks))
      (equalAt (asLoaded device.old srcChunks srcHeap)
        (asLoaded tgtFile tgtChunks tgtHeap)
        (mergeAdjacentNormalChunks tgtChunks)
        (mergeAdjacentNormalChunks srcChunks))
      hsrc.tilesFile.tiles htgt.tilesFile.tiles htypes
  have hcount := congrArg List.length htypes
  have hcount' := congrArg List.length hdone
  rw [List.length_map, List.length_map] at hcount hcount'
  have hlevel : ∀ t ∈ tgtDone, t.type = .deflate →
      t ∈ tgtChunks ∧ (levels t).isSome := by
    intro t hmem htype
    rw [htgtDone] at hmem
    obtain ⟨j, hj, hfound⟩ := convert_target (mem_of_merge hmem htype) htype
      hcount
    rw [Nat.zero_add, foundAt, hj] at hfound
    exact ⟨mem_of_merge (List.mem_of_getElem? hj) htype, hfound⟩
  have hsource : ∀ s ∈ srcDone, s.type = .deflate → s ∈ srcChunks := by
    intro s hmem htype
    rw [hsrcDone] at hmem
    exact mem_of_merge (convert_source (mem_of_merge hmem htype) htype) htype
  have hpairs : ∀ pair ∈ srcDone.zip tgtDone, PairGood flate device
      (asLoaded device.old srcChunks srcHeap)
      (asLoaded tgtFile tgtChunks tgtHeap) tgtFile.data pair := by
    intro pair hmem
    obtain ⟨hs, ht⟩ := List.of_mem_zip hmem
    exact ⟨hsrc.situated hsrcTiles hsource _ hs,
      htgt.situated htgtTiles (fun t hmem htype =>
        (hlevel t hmem htype).1) _ ht,
      types_of_mem_zip hdone.symm pair hmem⟩
  obtain ⟨targets, htargets, hgive⟩ := imagePatches_spec hrelies fresh hlevels
    hpairs fun pair hmem htype =>
      (hlevel _ (List.of_mem_zip hmem).2 htype).2
  refine ⟨targets, _, ?_, hgive, ?_⟩
  · filter_upwards [htargets, hends] with fuel htargets hends
    have hattempts := mapM_of_forall hends
    rw [mainImage]
    dsimp only
    rw [reconstructs_eq hends, hmode]
    dsimp only
    rw [hattempts, Option.bind_eq_bind, Option.bind_some, htargets]
    rfl
  · have hsnd : (srcDone.zip tgtDone).map Prod.snd = tgtDone :=
      List.map_snd_zip hcount'.le
    calc ((srcDone.zip tgtDone).map
          fun pair => pieceOf tgtFile.data pair.2).flatten =
        (((srcDone.zip tgtDone).map Prod.snd).map
          (pieceOf tgtFile.data)).flatten := by
          rw [List.map_map]
          rfl
      _ = tgtFile.data := by
          rw [hsnd, pieces_flatten htgtTiles]
          rfl

/-- In image mode `imgdiff` rejects images of different structure.  For all
others it ends with a patch, and `ApplyImagePatch` turns the old image into
the new one with it, wherever the patch is in memory. -/
theorem imgdiff_applies (hrelies : Relies flate compress device)
    (fresh : Fresh) (hsrc : ReadWell flate device.old srcChunks srcHeap)
    (htgt : ReadWell flate tgtFile tgtChunks tgtHeap) :
    let run := mainImage device.zlib compress fresh
      (asLoaded device.old srcChunks srcHeap)
      (asLoaded tgtFile tgtChunks tgtHeap)
    let sameStructure :=
      (mergeAdjacentNormalChunks tgtChunks).map ImageChunk.type =
        (mergeAdjacentNormalChunks srcChunks).map ImageChunk.type
    (¬ sameStructure → ∀ fuel, run fuel = some none) ∧
      (sameStructure → ∃ file,
        (∃ bound, ∀ fuel, bound ≤ fuel → run fuel = some (some file)) ∧
          ∀ (patch : Memory) (token : device.sink.State), patch.data = file →
            ∃ bound, ∀ fuel, bound ≤ fuel → ∃ out,
              (applyImagePatch device.bzip2 device.zlib patch fuel
                  device.malloc device.old token).result = some (.ok out) ∧
                out.accepted = tgtFile.data ∧ out.hashed = tgtFile.data) := by
  refine ⟨fun htypes fuel => ?_, fun htypes => ?_⟩
  · rw [mainImage]
    dsimp only
    split
    · next pairs hmode => exact absurd hmode (imageMode_differs _ _ htypes _)
    · rfl
  · obtain ⟨targets, outputs, hrun, hgive, hflatten⟩ :=
      mainImage_spec hrelies fresh hsrc htgt htypes
    refine ⟨patchFile targets, eventually_atTop.mp hrun, ?_⟩
    intro patch token hpatch
    rw [← hflatten]
    exact patchFile_gives hgive hpatch token

end RoundTrip

namespace ImgdiffRoundTripWitness

/-- The streams of no data and of the letter `a`. -/
def streams : Decoder.Format where
  front
    | 3 :: 0 :: _ => .stream [] 2
    | 0x4b :: 4 :: 0 :: _ => .stream [97] 3
    | _ => .incomplete
  nil_incomplete := rfl
  stream_length := by
    intro input data length hfront
    split at hfront <;> cases hfront <;> simp

abbrev flate : Decoder := Decoder.ofFormat streams

/-- `deflate` of no data and of the letter `a`. -/
def stream (data : Bytes) : Bytes :=
  if data = [97] then [0x4b, 4, 0] else [3, 0]

def zlib : Zlib where
  inflate input room :=
    match streams.front input with
    | .stream data length =>
        ⟨Z_OK, if data.length ≤ room then Z_STREAM_END else -5,
          min length input.length, data.take room⟩
    | _ => ⟨Z_OK, -5, 0, []⟩
  taken_le input room := by
    split
    · exact Nat.min_le_right _ _
    · exact Nat.zero_le _
  output_le input room := by
    split
    · exact List.length_take_le _ _
    · exact Nat.zero_le _
  State := Bytes
  deflateInit2 _ _ _ _ _ input := some (stream input)
  deflateFinish state room :=
    ⟨decide (state.length ≤ room), state.take room, state.drop room⟩
  deflate_le state room := List.length_take_le _ _

theorem zlib_deflates : Deflates zlib := by
  intro level _ data
  refine ⟨stream data, fun room hroom => ⟨1, ?_⟩⟩
  have hle : (stream data).length ≤ room := by
    have hshort : (stream data).length ≤ 3 := by
      rw [stream]
      split <;> decide
    rw [BUFFER_SIZE] at hroom
    omega
  simp [deflateOutput, Zlib.deflate, zlib, hle, List.take_of_length_le hle]

/-- What a state of the decoder can still give. -/
theorem decodes_rest {rest input data : Bytes} {taken : Nat}
    {state : flate.State} (hstate : state = some rest)
    (hdecodes : flate.Decodes state input data taken) :
    data = rest ∧ taken = 0 := by
  induction hdecodes generalizing rest with
  | last room hend =>
      subst hstate
      cases rest with
      | nil => cases hend
      | cons b rest =>
          simp only [flate, Decoder.ofFormat, Decoder.handOut] at hend ⊢
          split at hend
          · next hle => exact ⟨List.take_of_length_le hle, trivial⟩
          · cases hend
  | more room _ ih =>
      subst hstate
      cases rest with
      | nil =>
          obtain ⟨hdata, htaken⟩ := ih rfl
          exact ⟨by rw [hdata]; rfl, by rw [htaken]; rfl⟩
      | cons b rest =>
          obtain ⟨hdata, htaken⟩ := ih rfl
          refine ⟨?_, by rw [htaken]; rfl⟩
          rw [hdata]
          exact List.take_append_drop room (b :: rest)

theorem decodes_front {input data : Bytes} {taken : Nat}
    {state : flate.State} (hstate : state = none)
    (hdecodes : flate.Decodes state input data taken) :
    streams.front input = .stream data taken := by
  induction hdecodes with
  | @last state input room hend =>
      subst hstate
      simp only [flate, Decoder.ofFormat] at hend ⊢
      cases hfront : streams.front input with
      | stream data length =>
          rw [hfront] at hend
          simp only [Decoder.handOut] at hend ⊢
          split at hend
          · next hle => rw [List.take_of_length_le hle]
          · cases hend
      | fault =>
          rw [hfront] at hend
          cases hend
      | incomplete =>
          rw [hfront] at hend
          cases hend
  | @more state input data taken room hrest ih =>
      subst hstate
      simp only [flate, Decoder.ofFormat] at hrest ih ⊢
      cases hfront : streams.front input with
      | stream whole length =>
          rw [hfront] at hrest
          obtain ⟨hdata, htaken⟩ := decodes_rest rfl hrest
          simp only [Decoder.handOut]
          rw [hdata, htaken, List.take_append_drop, Nat.add_zero]
      | fault =>
          rw [hfront] at ih
          have hsame := ih rfl
          rw [List.drop_zero, hfront] at hsame
          cases hsame
      | incomplete =>
          rw [hfront] at ih
          have hnone := ih rfl
          rw [List.drop_length] at hnone
          cases hnone

theorem cons_of_le {input : Bytes} {length : Nat}
    (hle : length + 1 ≤ input.length) :
    ∃ b more, input = b :: more ∧ length ≤ more.length := by
  cases input with
  | nil => cases hle
  | cons b more => exact ⟨b, more, rfl, Nat.le_of_succ_le_succ hle⟩

theorem zlib_inflates : InflatesAtOnce flate zlib := by
  rintro piece data ⟨rest, taken, htaken, hdecodes⟩
  have hfront := decodes_front rfl hdecodes
  have hpiece : streams.front piece = .stream data taken := by
    simp only [streams] at hfront
    split at hfront
    · next heq =>
        cases hfront
        obtain ⟨a, piece, rfl, hone⟩ := cons_of_le htaken
        obtain ⟨b, piece, rfl, -⟩ := cons_of_le hone
        cases heq
        rfl
    · next heq =>
        cases hfront
        obtain ⟨a, piece, rfl, htwo⟩ := cons_of_le htaken
        obtain ⟨b, piece, rfl, hone⟩ := cons_of_le htwo
        obtain ⟨c, piece, rfl, -⟩ := cons_of_le hone
        cases heq
        rfl
    · cases hfront
  simp only [zlib, hpiece, le_refl, if_true, List.take_length, and_self]

/-- Where the arrays are zero at first. -/
def fresh : Fresh := fun size =>
  ⟨⟨List.replicate (size + 1) 0, List.replicate (size + 1) 0⟩,
    List.length_replicate, List.length_replicate⟩

def header : Bytes := [0x1f, 0x8b, 8, 0, 0, 0, 0, 0, 0, 3]

/-- A member without data, and one with the letter `a`. -/
def src : Memory :=
  ⟨⟨header ++ [3, 0, 0, 0, 0, 0, 0, 0, 0, 0], fun _ => 0⟩, by decide⟩

def tgt : Memory :=
  ⟨⟨header ++ [0x4b, 4, 0, 0x43, 0xbe, 0xb7, 0xe8, 1, 0, 0, 0], fun _ => 0⟩,
    by decide⟩

abbrev anyChunk := ReadImageWitness.anyChunk

theorem member_readWell (file : Memory) (data : Bytes) (taken : Nat)
    (hread : readImage flate file anyChunk 3 =
      some (some (memberChunks anyChunk 0 taken data.length [], [data])))
    (hlt : 0 < file.data.length) (hgzip : gzipAt file 0 = true)
    (hinflates : InflatesAt flate file 10 data taken)
    (hfooter : footerSize file (0 + 10 + taken + 8) = data.length)
    (hend : 0 + 10 + taken + 8 = file.data.length)
    (hdata : data.length < 2 ^ 31) :
    ReadWell flate file (memberChunks anyChunk 0 taken data.length [])
      [data] := by
  refine ⟨⟨anyChunk, 3, hread⟩, ?_, ?_⟩
  · have hall := advances_member hlt hgzip hinflates hfooter
    exact fun pos hreach => hall.mpr ⟨hend.le,
      memberInside_end (by omega)⟩ pos hreach
  · intro block hmem
    rw [List.mem_singleton.mp hmem]
    exact hdata

theorem src_readWell :
    ReadWell flate src (memberChunks anyChunk 0 2 0 []) [[]] :=
  member_readWell src [] 2 (by decide +kernel) (by decide) (by decide)
    ⟨1, by decide⟩ (by decide) (by decide) (by decide)

theorem tgt_readWell :
    ReadWell flate tgt (memberChunks anyChunk 0 3 1 []) [[97]] :=
  member_readWell tgt [97] 3 (by decide +kernel) (by decide) (by decide)
    ⟨1, by decide⟩ (by decide) (by decide) (by decide)

def device : Device where
  bzip2 := Bsdiff.BsdiffWitness.bzip2
  zlib := zlib
  malloc := ImagePatchWitness.anyMalloc
  old := src
  sink := ImagePatchWitness.takesAll

theorem device_relies :
    Relies flate Bsdiff.BsdiffWitness.compress device where
  lossless := ⟨Bsdiff.BsdiffWitness.bzip2Laws,
    Bsdiff.BsdiffWitness.compress_lossless⟩
  inflates := zlib_inflates
  deflates := zlib_deflates
  malloc _ := rfl
  takes _ _ := rfl

/-- The member without data is patched to the one with the letter. -/
theorem member_applies : ∃ file,
    (∃ bound, ∀ fuel, bound ≤ fuel →
      mainImage zlib Bsdiff.BsdiffWitness.compress fresh
        (asLoaded src (memberChunks anyChunk 0 2 0 []) [[]])
        (asLoaded tgt (memberChunks anyChunk 0 3 1 []) [[97]]) fuel =
          some (some file)) ∧
      ∀ (patch : Memory) (token : device.sink.State), patch.data = file →
        ∃ bound, ∀ fuel, bound ≤ fuel → ∃ out,
          (applyImagePatch device.bzip2 zlib patch fuel device.malloc src
              token).result = some (.ok out) ∧
            out.accepted = tgt.data ∧ out.hashed = tgt.data :=
  (imgdiff_applies device_relies fresh src_readWell tgt_readWell).2
    (by decide +kernel)

end ImgdiffRoundTripWitness

end Imgdiff

end MetaOS
