/-
Two images whose chunks are merged in parallel.

In a list of chunks that covers its file, neighbouring normal chunks always
join, so the runs depend on the types alone.  The conversions of image mode
keep the types of the two lists equal, so both lists fall into the same runs.
-/
import MetaOS.ImgdiffMerge

namespace MetaOS

section SplitBy

variable {α β : Type}

theorem isChain_and {r s : α → α → Prop} {l : List α} (hr : l.IsChain r)
    (hs : l.IsChain s) : l.IsChain fun a b => r a b ∧ s a b := by
  induction hr with
  | nil => exact List.isChain_nil
  | singleton a => exact List.isChain_singleton a
  | cons_cons hab hrest ih =>
      obtain ⟨hab', hrest'⟩ := List.isChain_cons_cons.mp hs
      exact List.isChain_cons_cons.mpr ⟨⟨hab, hab'⟩, ih hrest'⟩

/-- The classes of a list depend on how neighbours are related. -/
theorem splitBy_map {r : β → β → Bool} {s : α → α → Bool} (f : α → β)
    {l : List α} (hsame : l.IsChain fun a b => r (f a) (f b) = s a b) :
    (l.map f).splitBy r = (l.splitBy s).map (List.map f) := by
  rw [← List.flatten_splitBy s l, List.isChain_flatten
    (List.nil_notMem_splitBy s l)] at hsame
  obtain ⟨hinside, hbetween⟩ := hsame
  rw [List.splitBy_eq_iff]
  refine ⟨?_, ?_, ?_, ?_⟩
  · rw [← List.map_flatten, List.flatten_splitBy]
  · intro hmem
    obtain ⟨group, hgroup, hnil⟩ := List.mem_map.mp hmem
    rw [List.map_eq_nil_iff] at hnil
    exact List.nil_notMem_splitBy s l (hnil ▸ hgroup)
  · intro group hmem
    obtain ⟨group, hgroup, rfl⟩ := List.mem_map.mp hmem
    rw [List.isChain_map]
    refine (isChain_and (hinside group hgroup)
      (List.isChain_of_mem_splitBy hgroup)).imp ?_
    rintro a b ⟨heq, hs⟩
    rw [heq]
    exact hs
  · rw [List.isChain_map]
    refine (isChain_and hbetween
      (List.isChain_getLast_head_splitBy s l)).imp ?_
    rintro first second ⟨heq, hfirst, hsecond, hs⟩
    refine ⟨by simpa using hfirst, by simpa using hsecond, ?_⟩
    rw [List.getLast_map, List.head_map,
      heq _ (List.getLast_mem_getLast? hfirst) _
        (List.head_mem_head? hsecond), hs]

end SplitBy

namespace Imgdiff

variable {P : Type}

section Tiling

variable [AddAction Nat P] {base : P} {size : Nat}

theorem TilesFrom.append {pos : Nat} {first rest : List (ImageChunk P)}
    (htiles : TilesFrom base size pos (first ++ rest)) :
    TilesFrom base size (pos + (first.map ImageChunk.extent).sum) rest := by
  induction first generalizing pos with
  | nil => exact htiles
  | cons chunk first ih =>
      obtain ⟨-, -, hrest⟩ := htiles
      rw [List.map_cons, List.sum_cons, ← Nat.add_assoc]
      exact ih hrest

theorem InPlace.of_normal {chunk : ImageChunk P}
    (hplace : chunk.InPlace base) (hnormal : chunk.type = .normal) :
    chunk.data = chunk.start +ᵥ base := by
  have haddr := hplace.2
  rwa [ImageChunk.extentData, hnormal] at haddr

variable [DecidableEq P]

/-- Neighbouring normal chunks of a file join. -/
theorem TilesFrom.isChain {pos : Nat} {chunks : List (ImageChunk P)}
    (htiles : TilesFrom base size pos chunks) :
    chunks.IsChain fun a b =>
      joins a b = (a.type = .normal && b.type = .normal) := by
  induction chunks generalizing pos with
  | nil => exact List.isChain_nil
  | cons first chunks ih =>
      obtain ⟨hstart, hplace, hrest⟩ := htiles
      cases chunks with
      | nil => exact List.isChain_singleton _
      | cons second chunks =>
          refine List.isChain_cons_cons.mpr ⟨?_, ih hrest⟩
          obtain ⟨hstart', hplace', -⟩ := hrest
          by_cases hfirst : first.type = .normal
          · by_cases hsecond : second.type = .normal
            · have hjoins : joins first second = true := by
                rw [joins_iff]
                have hlen : first.extent = first.len := by
                  rw [ImageChunk.extent, hfirst]
                refine ⟨hfirst, hsecond, ?_, ?_⟩
                · rw [hstart', hstart, hlen]
                · rw [InPlace.of_normal hplace' hsecond,
                    InPlace.of_normal hplace hfirst, vadd_vadd, hstart',
                    hstart, hlen, Nat.add_comm]
              simp [hjoins, hfirst, hsecond]
            · simp [joins, follows, hsecond]
          · simp [joins, hfirst]

/-- A merged chunk covers what its run covers. -/
theorem Collapses.tilesFrom {group rest : List (ImageChunk P)}
    {merged : ImageChunk P} {pos : Nat} (hcollapses : Collapses group merged)
    (hchain : group.IsChain (fun a b => joins a b))
    (htiles : TilesFrom base size pos (group ++ rest)) :
    merged.start = pos ∧ merged.InPlace base ∧
      TilesFrom base size (pos + merged.extent) rest := by
  cases hcollapses with
  | single => exact htiles
  | @run first second _ more htype hstart hdata hlen =>
      have hnormal := normal_of_isChain hchain
      have hbehind := TilesFrom.append htiles
      obtain ⟨hfirst, hplace, -⟩ := htiles
      have hextents : (first :: second :: more).map ImageChunk.extent =
          (first :: second :: more).map ImageChunk.len := by
        refine List.map_congr_left fun chunk hmem => ?_
        rw [ImageChunk.extent, hnormal chunk hmem]
      rw [hextents, ← hlen] at hbehind
      refine ⟨hstart.trans hfirst, ⟨?_, ?_⟩, ?_⟩
      · rw [htype]
        decide
      · rw [ImageChunk.extentData, htype, hstart]
        exact hdata.trans
          (InPlace.of_normal hplace (hnormal first List.mem_cons_self))
      · rw [ImageChunk.extent, htype]
        exact hbehind

theorem tilesFrom_of_collapses {groups : List (List (ImageChunk P))}
    {merged : List (ImageChunk P)} {pos : Nat}
    (hcollapses : List.Forall₂ Collapses groups merged)
    (hchain : ∀ group ∈ groups, group.IsChain (fun a b => joins a b))
    (htiles : TilesFrom base size pos groups.flatten) :
    TilesFrom base size pos merged := by
  induction hcollapses generalizing pos with
  | nil => exact htiles
  | cons hfirst _ ih =>
      obtain ⟨hstart, hplace, hrest⟩ := hfirst.tilesFrom
        (hchain _ List.mem_cons_self) htiles
      exact ⟨hstart, hplace, ih (fun group hmem =>
        hchain group (List.mem_cons_of_mem _ hmem)) hrest⟩

/-- `MergeAdjacentNormalChunks` leaves a list that covers the file. -/
theorem Tiles.merge {chunks : List (ImageChunk P)}
    (htiles : Tiles base size chunks) :
    Tiles base size (mergeAdjacentNormalChunks chunks) := by
  refine tilesFrom_of_collapses (mergeAdjacentNormalChunks_collapses chunks)
    (fun _ => List.isChain_of_mem_splitBy) ?_
  rw [List.flatten_splitBy]
  exact htiles

end Tiling

section Conversion

variable [AddAction Nat P] {base : P}

theorem changeDeflateChunkToNormal_kept {chunk : ImageChunk P}
    (hplace : chunk.InPlace base) :
    chunk.changeDeflateChunkToNormal.start = chunk.start ∧
      chunk.changeDeflateChunkToNormal.extent = chunk.extent ∧
      chunk.changeDeflateChunkToNormal.InPlace base ∧
      chunk.changeDeflateChunkToNormal.type = .normal := by
  rw [ImageChunk.changeDeflateChunkToNormal]
  by_cases hdeflate : chunk.type = .deflate
  · rw [if_neg (by simpa using hdeflate)]
    have haddr := hplace.2
    rw [ImageChunk.extentData, hdeflate] at haddr
    have hnotRaw : ChunkType.normal ≠ .raw := by decide
    refine ⟨rfl, ?_, ⟨hnotRaw, haddr⟩, rfl⟩
    rw [ImageChunk.extent, ImageChunk.extent, hdeflate]
  · rw [if_pos hdeflate]
    refine ⟨rfl, rfl, hplace, ?_⟩
    cases htype : chunk.type with
    | normal => rfl
    | deflate => exact absurd htype hdeflate
    | raw => exact absurd htype hplace.1

/-- A pair of chunks stays a pair of one type, and each of them stays where
it is. -/
theorem convertPair_kept {srcBase tgtBase : P} {tgt src : ImageChunk P}
    (reconstructs equal : Bool) (htgt : tgt.InPlace tgtBase)
    (hsrc : src.InPlace srcBase) (htypes : tgt.type = src.type) :
    let pair := convertPair reconstructs equal tgt src
    (pair.1.start = tgt.start ∧ pair.1.extent = tgt.extent ∧
        pair.1.InPlace tgtBase) ∧
      (pair.2.start = src.start ∧ pair.2.extent = src.extent ∧
        pair.2.InPlace srcBase) ∧ pair.1.type = pair.2.type := by
  have hchange := changeDeflateChunkToNormal_kept htgt
  have hchange' := changeDeflateChunkToNormal_kept hsrc
  rw [convertPair]
  split
  · split
    · exact ⟨⟨hchange.1, hchange.2.1, hchange.2.2.1⟩,
        ⟨hchange'.1, hchange'.2.1, hchange'.2.2.1⟩,
        hchange.2.2.2.trans hchange'.2.2.2.symm⟩
    · split
      · exact ⟨⟨hchange.1, hchange.2.1, hchange.2.2.1⟩,
          ⟨hchange'.1, hchange'.2.1, hchange'.2.2.1⟩,
          hchange.2.2.2.trans hchange'.2.2.2.symm⟩
      · exact ⟨⟨rfl, rfl, htgt⟩, ⟨rfl, rfl, hsrc⟩, htypes⟩
  · exact ⟨⟨rfl, rfl, htgt⟩, ⟨rfl, rfl, hsrc⟩, htypes⟩

/-- The conversion loop keeps two lists of the same structure that cover
their files. -/
theorem convert_kept {srcBase tgtBase : P} {srcSize tgtSize : Nat}
    {tgt src : List (ImageChunk P)} (reconstructs equal : Nat → Bool)
    (i : Nat) {tgtPos srcPos : Nat}
    (htgt : TilesFrom tgtBase tgtSize tgtPos tgt)
    (hsrc : TilesFrom srcBase srcSize srcPos src)
    (htypes : tgt.map ImageChunk.type = src.map ImageChunk.type) :
    let lists := convert reconstructs equal i tgt src
    TilesFrom tgtBase tgtSize tgtPos lists.1 ∧
      TilesFrom srcBase srcSize srcPos lists.2 ∧
      lists.1.map ImageChunk.type = lists.2.map ImageChunk.type := by
  induction tgt generalizing src i tgtPos srcPos with
  | nil =>
      have hnil : src = [] := by simpa using htypes.symm
      subst hnil
      exact ⟨htgt, hsrc, rfl⟩
  | cons t tgt ih =>
      cases src with
      | nil => cases htypes
      | cons s src =>
          rw [List.map_cons, List.map_cons, List.cons.injEq] at htypes
          obtain ⟨htstart, htplace, htgt⟩ := htgt
          obtain ⟨hsstart, hsplace, hsrc⟩ := hsrc
          obtain ⟨⟨ht, htextent, htplace'⟩, ⟨hs, hsextent, hsplace'⟩,
            hpair⟩ := convertPair_kept (reconstructs i) (equal i) htplace
              hsplace htypes.1
          obtain ⟨htgt', hsrc', hrest⟩ := ih (i + 1) htgt hsrc htypes.2
          rw [← htextent] at htgt'
          rw [← hsextent] at hsrc'
          rw [convert]
          refine ⟨⟨ht.trans htstart, htplace', htgt'⟩,
            ⟨hs.trans hsstart, hsplace', hsrc'⟩, ?_⟩
          rw [List.map_cons, List.map_cons, hpair, hrest]

end Conversion

section Parallel

variable [AddAction Nat P] [DecidableEq P]

/-- The chunks at the same places of two lists have gone into the chunks at
the same places of two others. -/
def Parallel (tgt src tgt' src' : List (ImageChunk P)) : Prop :=
  ∃ groups : List (List (ImageChunk P × ImageChunk P)),
    groups.flatten = tgt.zip src ∧
      List.Forall₂ Collapses (groups.map (List.map Prod.fst)) tgt' ∧
      List.Forall₂ Collapses (groups.map (List.map Prod.snd)) src'

omit [AddAction Nat P] [DecidableEq P] in
theorem types_of_mem_zip {tgt src : List (ImageChunk P)}
    (htypes : tgt.map ImageChunk.type = src.map ImageChunk.type) :
    ∀ pair ∈ tgt.zip src, pair.1.type = pair.2.type := by
  induction tgt generalizing src with
  | nil => simp
  | cons t tgt ih =>
      cases src with
      | nil => simp
      | cons s src =>
          rw [List.map_cons, List.map_cons, List.cons.injEq] at htypes
          intro pair hmem
          rcases List.mem_cons.mp hmem with rfl | hmem
          · exact htypes.1
          · exact ih htypes.2 pair hmem

/-- Two lists with the same types that cover their files fall into the same
runs. -/
theorem parallel_merge {srcBase tgtBase : P} {srcSize tgtSize : Nat}
    {tgt src : List (ImageChunk P)} (htgt : Tiles tgtBase tgtSize tgt)
    (hsrc : Tiles srcBase srcSize src)
    (htypes : tgt.map ImageChunk.type = src.map ImageChunk.type) :
    Parallel tgt src (mergeAdjacentNormalChunks tgt)
      (mergeAdjacentNormalChunks src) := by
  have hlength : tgt.length = src.length := by
    have hcount := congrArg List.length htypes
    rwa [List.length_map, List.length_map] at hcount
  have hfst : (tgt.zip src).map Prod.fst = tgt :=
    List.map_fst_zip hlength.le
  have hsnd : (tgt.zip src).map Prod.snd = src :=
    List.map_snd_zip hlength.ge
  have hpairs := types_of_mem_zip htypes
  have htgtRuns : (tgt.zip src).IsChain fun p q => joins p.1 q.1 =
      (p.1.type = .normal && q.1.type = .normal) := by
    have hchain := TilesFrom.isChain htgt
    rwa [← hfst, List.isChain_map] at hchain
  have hsrcRuns : (tgt.zip src).IsChain fun p q => joins p.2 q.2 =
      (p.1.type = .normal && q.1.type = .normal) := by
    have hchain := TilesFrom.isChain hsrc
    rw [← hsnd, List.isChain_map] at hchain
    refine hchain.imp_of_mem_imp ?_
    intro p q hp hq hjoins
    rw [hjoins, hpairs p hp, hpairs q hq]
  refine ⟨(tgt.zip src).splitBy fun p q =>
    p.1.type = .normal && q.1.type = .normal, List.flatten_splitBy _ _,
    ?_, ?_⟩
  · rw [← splitBy_map Prod.fst htgtRuns, hfst]
    exact mergeAdjacentNormalChunks_collapses tgt
  · rw [← splitBy_map Prod.snd hsrcRuns, hsnd]
    exact mergeAdjacentNormalChunks_collapses src

omit [AddAction Nat P] [DecidableEq P] in
/-- The chunks that two runs of pairs go into have the same type. -/
theorem Collapses.type_eq {group : List (ImageChunk P × ImageChunk P)}
    {t s : ImageChunk P} (htypes : ∀ pair ∈ group, pair.1.type = pair.2.type)
    (ht : Collapses (group.map Prod.fst) t)
    (hs : Collapses (group.map Prod.snd) s) : t.type = s.type := by
  match group with
  | [] => cases ht
  | [pair] =>
      cases ht
      cases hs
      exact htypes pair List.mem_cons_self
  | first :: second :: more =>
      cases ht with
      | run ht =>
          cases hs with
          | run hs => rw [ht, hs]

omit [AddAction Nat P] [DecidableEq P] in
/-- Lists made in parallel have the same types. -/
theorem Parallel.types {tgt src tgt' src' : List (ImageChunk P)}
    (hparallel : Parallel tgt src tgt' src')
    (htypes : tgt.map ImageChunk.type = src.map ImageChunk.type) :
    tgt'.map ImageChunk.type = src'.map ImageChunk.type := by
  obtain ⟨groups, hflatten, htgt, hsrc⟩ := hparallel
  have hpairs := types_of_mem_zip htypes
  rw [← hflatten] at hpairs
  clear hflatten
  induction groups generalizing tgt' src' with
  | nil =>
      cases htgt
      cases hsrc
      rfl
  | cons group groups ih =>
      cases htgt with
      | cons ht htgt =>
          cases hsrc with
          | cons hs hsrc =>
              rw [List.map_cons, List.map_cons, Collapses.type_eq
                (fun pair hmem => hpairs pair
                  (List.mem_append_left _ hmem)) ht hs,
                ih htgt hsrc fun pair hmem => hpairs pair
                  (List.mem_append_right _ hmem)]

/-- Merging keeps the parts of the file and all other chunks and leaves no two
chunks that join.  In image mode, two images that pass the structure check go
through conversion and merging in parallel, so they are never found to have
gone awry, and each chunk is patched against the one that is made of the
chunks at the same places. -/
theorem merge_parallel :
    (∀ chunks : List (ImageChunk P),
      Keeps chunks (mergeAdjacentNormalChunks chunks)) ∧
    ∀ (srcBase tgtBase : P) (srcSize tgtSize : Nat)
      (src tgt : List (ImageChunk P)) (reconstructs equal : Nat → Bool),
      Tiles srcBase srcSize src → Tiles tgtBase tgtSize tgt →
      (mergeAdjacentNormalChunks tgt).map ImageChunk.type =
        (mergeAdjacentNormalChunks src).map ImageChunk.type →
      let lists := convert reconstructs equal 0
        (mergeAdjacentNormalChunks tgt) (mergeAdjacentNormalChunks src)
      let tgt' := mergeAdjacentNormalChunks lists.1
      let src' := mergeAdjacentNormalChunks lists.2
      imageMode reconstructs equal src tgt = .patches (src'.zip tgt') ∧
        tgt'.map ImageChunk.type = src'.map ImageChunk.type ∧
        Parallel lists.1 lists.2 tgt' src' := by
  refine ⟨keeps_mergeAdjacentNormalChunks, ?_⟩
  intro srcBase tgtBase srcSize tgtSize src tgt reconstructs equal hsrc htgt
    htypes lists tgt' src'
  obtain ⟨htgt', hsrc', htypes'⟩ := convert_kept reconstructs equal 0
    htgt.merge hsrc.merge htypes
  have hparallel : Parallel lists.1 lists.2 tgt' src' :=
    parallel_merge htgt' hsrc' htypes'
  have hmerged := hparallel.types htypes'
  refine ⟨?_, hmerged, hparallel⟩
  have hcount : (mergeAdjacentNormalChunks src).length =
      (mergeAdjacentNormalChunks tgt).length := by
    have hlengths := congrArg List.length htypes
    rw [List.length_map, List.length_map] at hlengths
    exact hlengths.symm
  have hcount' : src'.length = tgt'.length := by
    have hlengths := congrArg List.length hmerged
    rw [List.length_map, List.length_map] at hlengths
    exact hlengths.symm
  have hcheck : ((mergeAdjacentNormalChunks src).zip
      (mergeAdjacentNormalChunks tgt)).findIdx?
        (fun pair => pair.1.type ≠ pair.2.type) = none := by
    rw [List.findIdx?_eq_none_iff]
    intro pair hmem
    simpa using types_of_mem_zip htypes.symm pair hmem
  simp only [imageMode, hcount, ne_eq, not_true, if_false, hcheck]
  exact if_neg (not_not.mpr hcount')

end Parallel

namespace ImgdiffParallelWitness

/-- A gzip member at the start of an image: header, data and footer.  An image
in memory starts at the address `base`. -/
def member (base deflated : Nat) : List (ImageChunk Nat) :=
  [⟨.normal, 0, 10, base, 0, 0, none⟩,
    ⟨.deflate, 10, 100, 9000, deflated, base + 10, none⟩,
    ⟨.normal, 10 + deflated, 8, base + 10 + deflated, 0, 0, none⟩]

theorem tiles_member (base deflated : Nat) :
    Tiles base (18 + deflated) (member base deflated) := by
  refine ⟨rfl, ⟨nofun, ?_⟩, rfl, ⟨nofun, ?_⟩, rfl, ⟨nofun, ?_⟩, ?_⟩
  · exact (Nat.zero_add base).symm
  · exact Nat.add_comm base 10
  · change base + 10 + deflated = 10 + deflated + base
    omega
  · change 10 + deflated + 8 = 18 + deflated
    omega

/-- A member that cannot be reconstructed is patched as one chunk. -/
theorem member_patched :
    imageMode (fun _ => false) (fun _ => false) (member 1000 5)
        (member 2000 7) =
      .patches [(⟨.normal, 0, 23, 1000, 0, 0, none⟩,
        ⟨.normal, 0, 25, 2000, 0, 0, none⟩)] := by
  have hparallel := merge_parallel.2 1000 2000 23 25 (member 1000 5)
    (member 2000 7) (fun _ => false) (fun _ => false) (tiles_member 1000 5)
    (tiles_member 2000 7) (by decide)
  exact hparallel.1

end ImgdiffParallelWitness

end Imgdiff

end MetaOS
