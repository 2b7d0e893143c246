/-
A patch that `bsdiff` wrote is applied by `ApplyBSDiffPatchMem`: what the
pieces say is what the loop over the control triples does.
-/
import MetaOS.Bsdiff

namespace MetaOS

namespace Bsdiff

open Bytes Bspatch

/-- The fold of `offtin` puts the bytes together. -/
theorem offtin_fold (bytes : Bytes) (hlt : leNat bytes < 2 ^ 31) :
    bytes.foldr (fun b y => int32 (int32 (y * 256) + b.toNat)) 0 =
      (leNat bytes : Int) := by
  induction bytes with
  | nil => rfl
  | cons b bytes ih =>
      rw [leNat] at hlt ⊢
      have hshifted : int32 ((leNat bytes : Int) * 256) =
          (leNat bytes : Int) * 256 :=
        int32_of_range (by omega) (by omega)
      rw [List.foldr_cons, ih (by omega), hshifted,
        int32_of_range (by omega) (by omega)]
      push_cast
      ring

/-- A number that fits into its seven low bytes is read with its sign. -/
theorem offtin_append {low : Bytes} (hlength : low.length = 7)
    (hlt : leNat low < 2 ^ 31) {top : UInt8} (htop : top = 0 ∨ top = 0x80) :
    offtin (low ++ [top]) =
      if top = 0x80 then -(leNat low : Int) else leNat low := by
  have hlow : (low ++ [top]).take 7 = low := by
    rw [← hlength, List.take_left]
  have hlast : (low ++ [top]).getD 7 0 = top := by
    rw [List.getD_eq_getElem?_getD, ← hlength, List.getElem?_concat_length]
    rfl
  have hstart : ((top &&& 0x7F).toNat : Int) = 0 := by
    rcases htop with rfl | rfl <;> rfl
  rw [offtin, hlow, hlast, hstart, offtin_fold low hlt]
  rcases htop with rfl | rfl
  · rfl
  · rw [if_pos (by decide), if_pos rfl]
    exact int32_of_range (by omega) (by omega)

/-- The bytes of a number that has 31 bits. -/
theorem ofLeNat_eight {n : Nat} (hn : n < 2 ^ 31) :
    ofLeNat 8 n = ofLeNat 7 n ++ [0] := by
  have htop : n / 256 / 256 / 256 / 256 / 256 / 256 / 256 = 0 := by omega
  simp [ofLeNat, htop]

theorem offtin_offtout {x : Int} (hlow : -2 ^ 31 < x) (hhigh : x < 2 ^ 31) :
    offtin (offtout x) = x := by
  have habs : x.natAbs < 2 ^ 31 := by omega
  have hvalue : leNat (ofLeNat 7 x.natAbs) = x.natAbs := by
    rw [leNat_ofLeNat]
    omega
  rw [offtout, ofLeNat_eight habs]
  split
  · next hneg =>
      have hbytes : (ofLeNat 7 x.natAbs ++ [0]).take 7 ++
          [(ofLeNat 7 x.natAbs ++ [0]).getD 7 0 ||| 0x80] =
            ofLeNat 7 x.natAbs ++ [0x80] := by
        simp [ofLeNat]
      rw [hbytes, offtin_append (ofLeNat_length _ _) (by omega) (Or.inr rfl),
        if_pos rfl, hvalue]
      omega
  · rw [offtin_append (ofLeNat_length _ _) (by omega) (Or.inl rfl),
      if_neg (by decide), hvalue]
    omega

theorem offtout_length (x : Int) : (offtout x).length = 8 := by
  rw [offtout]
  split
  · rfl
  · exact ofLeNat_length _ _

theorem triple_length (p : Piece) : p.triple.length = 24 := by
  simp [Piece.triple, offtout_length]

theorem window_part (before part after : Bytes) :
    Bytes.window (before ++ (part ++ after)) before.length part.length =
      part := by
  simp [window]

/-- The control stream begins with the triple of a piece. -/
theorem ctrl_triple {c : Decoded} {p : Piece} {rest : Bytes}
    (hdata : c.data = p.triple ++ rest) (hdiff : p.diff.length < 2 ^ 31)
    (hextra : p.extra.length < 2 ^ 31) (hseek : p.seek.natAbs < 2 ^ 31) :
    c.ctrl 0 = p.diff.length ∧ c.ctrl 1 = p.extra.length ∧
      c.ctrl 2 = p.seek := by
  have hfirst : c.data.window 0 8 = offtout p.diff.length := by
    have hpart := window_part [] (offtout p.diff.length)
      (offtout p.extra.length ++ (offtout p.seek ++ rest))
    simpa only [hdata, Piece.triple, offtout_length, List.length_nil,
      List.nil_append, List.append_assoc] using hpart
  have hsecond : c.data.window 8 8 = offtout p.extra.length := by
    have hpart := window_part (offtout p.diff.length) (offtout p.extra.length)
      (offtout p.seek ++ rest)
    simpa only [hdata, Piece.triple, offtout_length,
      List.append_assoc] using hpart
  have hthird : c.data.window 16 8 = offtout p.seek := by
    have hpart := window_part (offtout p.diff.length ++ offtout p.extra.length)
      (offtout p.seek) rest
    simpa only [hdata, Piece.triple, offtout_length, List.length_append,
      List.append_assoc] using hpart
  refine ⟨?_, ?_, ?_⟩
  · rw [Decoded.ctrl, hfirst]
    exact offtin_offtout (by omega) (by omega)
  · rw [Decoded.ctrl, hsecond]
    exact offtin_offtout (by omega) (by omega)
  · rw [Decoded.ctrl, hthird]
    exact offtin_offtout (by omega) (by omega)

theorem place_getElem? (new : Bytes) (pos : Int) (bytes : Bytes) (i : Nat) :
    (place new pos bytes)[i]? = new[i]?.map fun b =>
      if pos ≤ i then (bytes[(i - pos).toNat]?).getD b else b := by
  rw [place, List.getElem?_mapIdx]

theorem added_getElem? (old : Block) (oldStart oldSize oldpos newpos : Int)
    (count : Nat) (new : Bytes) (i : Nat) :
    (added old oldStart oldSize oldpos newpos count new)[i]? =
      new[i]?.map fun b =>
        if newpos ≤ i ∧ (i - newpos).toNat < count ∧
            overlaps oldSize oldpos (i - newpos).toNat then
          b + old.at (oldStart + int32 (oldpos + (i - newpos).toNat))
        else b := by
  rw [added, List.getElem?_mapIdx]

section Decoder

variable {old : Memory} {new : Bytes}

/-- A byte of the old data. -/
theorem at_of_getElem? {i : Nat} {b : UInt8} (hb : old.data[i]? = some b) :
    old.at (0 + (i : Int)) = b := by
  rw [Block.at, if_pos (by omega), zero_add, Int.toNat_natCast, hb]
  rfl

/-- The new file after a pass: correct up to the end of the piece. -/
theorem pass_new {file : Bytes} {oldpos newpos : Nat} {p : Piece}
    (hfits : Fits old.data new oldpos newpos p) (hnew : new.length < 2 ^ 31)
    (hlength : file.length = new.length)
    (hdone : ∀ i < newpos, file[i]? = new[i]?) :
    ∀ i < newpos + p.diff.length + p.extra.length,
      (place (added old 0 old.data.length oldpos newpos p.diff.length
        (place file newpos p.diff)) (newpos + p.diff.length : Nat)
        p.extra)[i]? = new[i]? := by
  have hold := old.size_lt
  obtain ⟨hold_le, hnew_le, hdiff, hextra⟩ := hfits
  intro i hi
  obtain ⟨b, hb⟩ : ∃ b, file[i]? = some b :=
    ⟨_, List.getElem?_eq_getElem (by omega)⟩
  rw [place_getElem?, added_getElem?, place_getElem?, hb]
  simp only [Option.map_some]
  by_cases hbefore : i < newpos
  · rw [if_neg (by omega), if_neg (by omega), if_neg (by omega),
      ← hdone i hbefore, hb]
  by_cases hin : i < newpos + p.diff.length
  · -- A byte of the diff string and the byte of the old data.
    obtain ⟨j, rfl⟩ : ∃ j, i = newpos + j := ⟨i - newpos, by omega⟩
    obtain ⟨a, ha⟩ : ∃ a, p.diff[j]? = some a :=
      ⟨_, List.getElem?_eq_getElem (by omega)⟩
    obtain ⟨c, hc, hsum⟩ := hdiff j a ha
    have hoffset : (((newpos + j : Nat) : Int) - newpos).toNat = j := by omega
    have hrange : int32 ((oldpos : Int) + j) = (oldpos + j : Nat) :=
      int32_add (by omega)
    have hoverlaps : overlaps old.data.length oldpos j = true := by
      rw [overlaps, hrange]
      simp only [Bool.and_eq_true, decide_eq_true_eq]
      omega
    rw [hoffset, ha, hrange, at_of_getElem? hc, if_neg (by omega),
      if_pos ⟨by omega, by omega, hoverlaps⟩, if_pos (by omega), hsum]
    rfl
  · -- A byte of the extra string.
    obtain ⟨j, rfl⟩ : ∃ j, i = newpos + p.diff.length + j :=
      ⟨i - (newpos + p.diff.length), by omega⟩
    obtain ⟨a, ha⟩ : ∃ a, p.extra[j]? = some a :=
      ⟨_, List.getElem?_eq_getElem (by omega)⟩
    have hoffset : (((newpos + p.diff.length + j : Nat) : Int) -
        (newpos + p.diff.length : Nat)).toNat = j := by omega
    rw [if_pos (by omega), hoffset, ha, hextra j a ha]
    rfl

variable {lib : Decoder} {laws : lib.Laws} {patch : Memory}

/-- The loop is about to read `pieces`. -/
structure Reads (laws : lib.Laws) (patch : Memory) (new : Bytes)
    (pieces : List Piece) (oldpos newpos : Nat) (w : Work lib) : Prop where
  oldpos_eq : w.oldpos = oldpos
  newpos_eq : w.newpos = newpos
  cstream : (w.cstream.decoded laws patch).data = pieces.flatMap Piece.triple
  dstream : (w.dstream.decoded laws patch).data = pieces.flatMap Piece.diff
  estream : (w.estream.decoded laws patch).data = pieces.flatMap Piece.extra
  length : w.new.length = new.length
  done : ∀ i < newpos, w.new[i]? = new[i]?

theorem Reads.new_eq {pieces : List Piece} {oldpos newpos : Nat} {w : Work lib}
    (hreads : Reads laws patch new pieces oldpos newpos w)
    (hend : new.length ≤ newpos) : w.new = new := by
  apply List.ext_getElem?
  intro i
  rcases Nat.lt_or_ge i newpos with hlt | hge
  · exact hreads.done i hlt
  · have hlength := hreads.length
    rw [List.getElem?_eq_none (by omega), List.getElem?_eq_none (by omega)]

/-- A piece that fits is read and put to its place. -/
theorem patchStep_reads {fuel : Nat} {w : Work lib} {p : Piece}
    {pieces : List Piece} {oldpos newpos next : Nat}
    (hreads : Reads laws patch new (p :: pieces) oldpos newpos w)
    (hfits : Fits old.data new oldpos newpos p) (hnew : new.length < 2 ^ 31)
    (hnext : (next : Int) = oldpos + p.diff.length + p.seek)
    (hnext_le : next ≤ old.data.length) (hfuel : w.Fueled fuel) :
    ∃ w', (patchStep lib patch fuel old 0 old.data.length new.length
        w).result = some (.ok w') ∧
      Reads laws patch new pieces next
        (newpos + p.diff.length + p.extra.length) w' ∧ w'.Fueled fuel := by
  have hold := old.size_lt
  have hold_le := hfits.old_le
  have hnew_le := hfits.new_le
  have holdrange : oldpos + p.diff.length < 2 ^ 31 := by omega
  have hnextrange : next < 2 ^ 31 := by omega
  have hnewrange : newpos + p.diff.length + p.extra.length < 2 ^ 31 := by omega
  have hafterrange : newpos + p.diff.length < 2 ^ 31 := by omega
  have hdiffrange : p.diff.length < 2 ^ 31 := by omega
  have hextrarange : p.extra.length < 2 ^ 31 := by omega
  have hseek : p.seek.natAbs < 2 ^ 31 := by omega
  have hfirst : ((newpos + p.diff.length : Nat) : Int) ≤ new.length := by omega
  have hsecond : ((newpos + p.diff.length + p.extra.length : Nat) : Int) ≤
      new.length := by omega
  have hdiff32 : uint32 (p.diff.length : Int) = p.diff.length :=
    uint32_of_lt (hdiffrange.trans (by norm_num))
  have hextra32 : uint32 (p.extra.length : Int) = p.extra.length :=
    uint32_of_lt (hextrarange.trans (by norm_num))
  have holdafter := int32_add holdrange
  have hafter := int32_add hafterrange
  have hend := int32_add hnewrange
  have holdend : int32 (((oldpos + p.diff.length : Nat) : Int) + p.seek) =
      next := by
    rw [Nat.cast_add, ← hnext]
    exact int32_natCast hnextrange
  obtain ⟨holdpos, hnewpos, hc, hd, he, hlength, hdone⟩ := hreads
  rw [List.flatMap_cons] at hc hd he
  obtain ⟨hctrl0, hctrl1, hctrl2⟩ := ctrl_triple hc hdiffrange hextrarange hseek
  have hgoes : Goes new.length w.newpos (w.cstream.decoded laws patch)
      (w.dstream.decoded laws patch) (w.estream.decoded laws patch) := by
    refine ⟨?_, ?_, ?_, ?_, ?_⟩
    · rw [hc, List.length_append, triple_length]
      exact Nat.le_add_right _ _
    · rwa [hctrl0, hnewpos, hafter]
    · rw [hctrl0, hdiff32, hd, List.length_append]
      exact Nat.le_add_right _ _
    · rwa [hctrl0, hctrl1, hnewpos, hafter, hend]
    · rw [hctrl1, hextra32, he, List.length_append]
      exact Nat.le_add_right _ _
  have hends : (patchStep lib patch fuel old 0 old.data.length new.length
      w).result ≠ none :=
    patchStep_ends laws hfuel hgoes.not_hangs
  have hend' := patchStep_end laws patch fuel old 0 old.data.length new.length w
  generalize (patchStep lib patch fuel old 0 old.data.length new.length
    w).result = result at hends hend' ⊢
  cases hend' with
  | cutOff => exact absurd rfl hends
  | fails message hnot _ => exact absurd hgoes hnot
  | passes w' _ hpassed =>
      obtain ⟨holdpos', hnewpos', hnew', hc', hd', he', hcavail, hdavail,
        heavail⟩ := hpassed
      obtain ⟨hcfuel, hdfuel, hefuel⟩ := hfuel
      refine ⟨w', rfl, ⟨?_, ?_, ?_, ?_, ?_, ?_, ?_⟩, ?_⟩
      · rw [holdpos', hctrl0, hctrl2, holdpos, holdafter, holdend]
      · rw [hnewpos', hctrl0, hctrl1, hnewpos, hafter, hend]
      · rw [hc', Decoded.skip, hc, ← triple_length p, List.drop_left]
      · rw [hd', Decoded.skip, hd, hctrl0, hdiff32, List.drop_left]
      · rw [he', Decoded.skip, he, hctrl1, hextra32, List.drop_left]
      · rw [hnew', place, List.length_mapIdx, added, List.length_mapIdx, place,
          List.length_mapIdx, hlength]
      · rw [hnew', hctrl0, hctrl1, hd, he, hdiff32, hextra32, List.take_left,
          List.take_left, holdpos, hnewpos, hafter, Int.toNat_natCast]
        exact pass_new hfits hnew hlength hdone
      · exact ⟨(Nat.add_le_add_right hcavail _).trans hcfuel,
          (Nat.add_le_add_right hdavail _).trans hdfuel,
          (Nat.add_le_add_right heavail _).trans hefuel⟩

/-- The loop gives the new file from pieces that lead to its end. -/
theorem patchLoop_reads {fuel passes : Nat} {w : Work lib}
    {pieces : List Piece} {oldpos newpos oldend : Nat}
    (hleads : Leads old.data new oldpos newpos pieces oldend new.length)
    (hreads : Reads laws patch new pieces oldpos newpos w)
    (hnew : new.length < 2 ^ 31) (hfuel : w.Fueled fuel)
    (hpasses : pieces.length ≤ passes) :
    (patchLoop lib patch fuel old 0 old.data.length new.length passes
      w).result = some (.ok new) := by
  induction pieces generalizing passes w oldpos newpos with
  | nil =>
      cases hleads
      rw [patchLoop.eq_def]
      dsimp only
      rw [hreads.newpos_eq, if_neg (lt_irrefl _),
        TracedRun.pure_result, hreads.new_eq le_rfl]
  | cons p pieces ih =>
      rw [patchLoop.eq_def]
      dsimp only
      rw [hreads.newpos_eq]
      split
      · obtain ⟨passes, rfl⟩ : ∃ passes', passes = passes' + 1 :=
          ⟨passes - 1, by simp at hpasses; omega⟩
        cases hleads with
        | cons hfits hnext hnext_le hrest =>
            obtain ⟨w', hstep, hreads', hfuel'⟩ := patchStep_reads hreads
              hfits hnew hnext hnext_le hfuel
            dsimp only
            rw [TracedRun.result_bind_of_ok hstep]
            exact ih hrest hreads' hfuel' (by simpa using hpasses)
      · next hend =>
          -- Pieces after the end are not read.
          rw [TracedRun.pure_result, hreads.new_eq (by simpa using hend)]

end Decoder

section Blocks

variable {memory : Memory} {part rest : Bytes} {start : Nat}

/-- What is read where `part` stands. -/
theorem read_front (hdrop : memory.data.drop start = part ++ rest) {len : Nat}
    (hlen : len = part.length) : memory.read start len = part := by
  subst hlen
  rcases Nat.eq_zero_or_pos part.length with hzero | hpos
  · rw [List.length_eq_zero_iff.mp hzero]
    rfl
  · have hlength := congrArg List.length hdrop
    rw [List.length_drop, List.length_append] at hlength
    have hle : start + part.length ≤ memory.data.length := by omega
    rw [read_eq_window hle, Bytes.window, hdrop, List.take_left]

theorem drop_front (hdrop : memory.data.drop start = part ++ rest) {len : Nat}
    (hlen : len = part.length) : memory.data.drop (start + len) = rest := by
  rw [← List.drop_drop, hdrop, hlen, List.drop_left]

end Blocks

/-- A patch file stands at `offset`. -/
structure Stands (patch : Memory) (offset newsize : Nat)
    (ctrl diff extra after : Bytes) : Prop where
  file : patch.data.drop offset = ofString "BSDIFF40" ++
    (offtout ctrl.length ++ (offtout diff.length ++ (offtout newsize ++
      (ctrl ++ (diff ++ (extra ++ after))))))
  newsize_lt : newsize < 2 ^ 31

section Header

variable {patch : Memory} {offset newsize : Nat} {ctrl diff extra after : Bytes}

theorem Stands.length
    (hpatch : Stands patch offset newsize ctrl diff extra after) :
    patch.data.length = offset + 32 + ctrl.length + diff.length +
      (extra ++ after).length := by
  have hlength := congrArg List.length hpatch.file
  have hmagic : (ofString "BSDIFF40").length = 8 := rfl
  simp only [List.length_drop, List.length_append, offtout_length,
    hmagic] at hlength ⊢
  omega

theorem Stands.magic
    (hpatch : Stands patch offset newsize ctrl diff extra after) :
    patch.read offset 8 = ofString "BSDIFF40" :=
  read_front hpatch.file rfl

/-- The header and the blocks are where the decoder looks for them. -/
theorem Stands.blocks
    (hpatch : Stands patch offset newsize ctrl diff extra after) :
    readHeader patch offset = ⟨ctrl.length, diff.length, newsize⟩ ∧
      patch.read ((offset : Int) + 32) ctrl.length = ctrl ∧
      patch.read ((offset : Int) + 32 + ctrl.length) diff.length = diff ∧
      patch.read ((offset : Int) + 32 + ctrl.length + diff.length)
        (extra ++ after).length = extra ++ after := by
  have hlength := hpatch.length
  have hsize := patch.size_lt
  have hnewsize := hpatch.newsize_lt
  have hfirst : patch.data.drop (offset + 8) = _ := drop_front hpatch.file rfl
  have hsecond : patch.data.drop (offset + 16) = _ :=
    drop_front hfirst (offtout_length _).symm
  have hthird : patch.data.drop (offset + 24) = _ :=
    drop_front hsecond (offtout_length _).symm
  have hctrl : patch.data.drop (offset + 32) = _ :=
    drop_front hthird (offtout_length _).symm
  have hdiff := drop_front hctrl rfl
  have hextra := drop_front hdiff rfl
  refine ⟨?_, ?_, ?_, ?_⟩
  · have hfirst' := read_front hfirst (offtout_length _).symm
    have hsecond' := read_front hsecond (offtout_length _).symm
    have hthird' := read_front hthird (offtout_length _).symm
    push_cast at hfirst' hsecond' hthird'
    rw [readHeader, hfirst', hsecond', hthird',
      offtin_offtout (by omega) (by omega),
      offtin_offtout (by omega) (by omega),
      offtin_offtout (by omega) (by omega)]
  · have hread := read_front hctrl rfl
    push_cast at hread
    exact hread
  · have hread := read_front hdiff rfl
    push_cast at hread
    exact hread
  · rw [← List.append_nil (extra ++ after)] at hextra
    have hread := read_front hextra rfl
    push_cast at hread
    exact hread

variable {lib : Decoder} {laws : lib.Laws}

/-- The loop starts at the first piece. -/
theorem Stands.reads {compress : Bytes → Bytes}
    (hlossless : ∀ data trailing : Bytes,
      laws.data lib.init (compress data ++ trailing) = data)
    {pieces : List Piece} {new file : Bytes}
    (hpatch : Stands patch offset new.length
      (compress (pieces.flatMap Piece.triple))
      (compress (pieces.flatMap Piece.diff))
      (compress (pieces.flatMap Piece.extra)) after)
    (hfile : file.length = new.length) :
    Reads laws patch new pieces 0 0
      ((readHeader patch offset).start lib patch offset file) := by
  have hlength := hpatch.length
  have hsize := patch.size_lt
  obtain ⟨hheader, hctrl, hdiff, hextra⟩ := hpatch.blocks
  have hwhole : ∀ data : Bytes, laws.data lib.init (compress data) = data := by
    intro data
    have hdata := hlossless data []
    rwa [List.append_nil] at hdata
  have hctrl32 := uint32_of_lt (n := (compress (pieces.flatMap
    Piece.triple)).length) (by omega)
  have hdiff32 := uint32_of_lt (n := (compress (pieces.flatMap
    Piece.diff)).length) (by omega)
  have hextra32 := uint32_of_lt (n := (compress (pieces.flatMap Piece.extra) ++
    after).length) (by omega)
  have havail : (patch.data.length : Int) - ((offset : Int) + 32 +
      (compress (pieces.flatMap Piece.triple)).length +
      (compress (pieces.flatMap Piece.diff)).length) =
        ((compress (pieces.flatMap Piece.extra) ++ after).length : Nat) := by
    omega
  rw [hheader]
  refine ⟨rfl, rfl, ?_, ?_, ?_, hfile,
    fun i hi => absurd hi (Nat.not_lt_zero i)⟩
  · simp only [Header.start, Stream.decoded, Stream.input]
    rw [hctrl32, hctrl, hwhole]
  · simp only [Header.start, Stream.decoded, Stream.input]
    rw [hdiff32, hdiff, hwhole]
  · simp only [Header.start, Stream.decoded, Stream.input]
    rw [havail, hextra32, hextra, hlossless]

end Header

/-- `bsdiff` ends for every index of the old data, and the patch it writes
turns the old data into the new, wherever it stands and whatever follows. -/
theorem bspatch_bsdiff (lib : Decoder) (laws : lib.Laws)
    (compress : Bytes → Bytes)
    (hlossless : ∀ data trailing : Bytes,
      laws.data lib.init (compress data ++ trailing) = data)
    (index : List Nat) (old : Memory) (new : Bytes)
    (hindex : Indexes index old.data) (hnew : new.length < 2 ^ 31) :
    ∃ file, bsdiff index old.data new compress = some file ∧
      ∀ (malloc : Malloc) (patch : Memory) (before after : Bytes),
        (malloc new.length).isSome → patch.data = before ++ file ++ after →
        ∃ bound, ∀ fuel, bound ≤ fuel →
          (applyBSDiffPatchMem lib patch fuel malloc old 0 old.data.length
            before.length).result = some (.ok new) := by
  have hstart : State.Inv old.data new ⟨0, 0, 0, 0, 0, 0, []⟩ := by
    refine ⟨le_rfl, Nat.zero_le _, Nat.zero_le _, le_rfl, fun hpos => hpos.le,
      id, Nat.zero_le _, .nil 0 0⟩
  obtain ⟨pieces, oldend, hpieces, hleads⟩ := diffLoop_spec hindex hstart
    (Nat.succ_pos (new.length + 1)) (fun _ => by dsimp only; omega)
  refine ⟨patchFile compress new.length pieces, ?_, ?_⟩
  · rw [bsdiff, hpieces]
    rfl
  intro malloc patch before after hmemory hdata
  have hpatch : Stands patch before.length new.length
      (compress (pieces.flatMap Piece.triple))
      (compress (pieces.flatMap Piece.diff))
      (compress (pieces.flatMap Piece.extra)) after := by
    refine ⟨?_, hnew⟩
    rw [hdata, List.append_assoc, List.drop_left, patchFile]
    simp only [List.append_assoc]
  have hheader := hpatch.blocks.1
  have hgood : Accepted patch malloc before.length := by
    refine ⟨hpatch.magic, ?_, ?_, ?_, ?_⟩
    all_goals rw [hheader]
    · exact Int.natCast_nonneg _
    · exact Int.natCast_nonneg _
    · exact Int.natCast_nonneg _
    · exact hmemory
  refine ⟨pieces.length + 2 ^ 33, fun fuel hfuel => ?_⟩
  obtain ⟨file, hfile, hresult⟩ := result_of_accepted lib fuel old 0
    old.data.length hgood
  have hfile' : file.length = new.length := by
    rw [hfile, hheader]
    exact Int.toNat_natCast _
  have hreads := hpatch.reads hlossless hfile'
  have hfueled : Work.Fueled fuel ((readHeader patch before.length).start lib
      patch before.length file) := by
    have havail : ∀ size, uint32 size + 2 ^ 32 ≤ fuel := by
      intro size
      have hlt := uint32_lt size
      omega
    exact ⟨havail _, havail _, havail _⟩
  rw [hresult]
  have hsize : (readHeader patch before.length).newSize = new.length := by
    rw [hheader]
  rw [hsize]
  exact patchLoop_reads hleads hreads hnew hfueled (by omega)

namespace BsdiffWitness

/-- `abcabc`, its suffixes in order, and `abdabcx`. -/
def old : Memory := ⟨⟨[97, 98, 99, 97, 98, 99], fun _ => 0⟩, by decide⟩

def index : List Nat := [6, 3, 0, 4, 1, 5, 2]

def new : Bytes := [97, 98, 100, 97, 98, 99, 120]

/-- The only piece of the patch. -/
def piece : Piece := ⟨[0, 0, 1, 0, 0, 0], [120], -4⟩

/-- The streams that bzip2 writes for it. -/
def ctrlStream : Bytes :=
  [66, 90, 104, 57, 49, 65, 89, 38, 83, 89, 219, 142, 226, 149, 0, 0, 8, 192,
   64, 125, 0, 64, 0, 32, 0, 49, 12, 0, 196, 194, 74, 217, 2, 162, 182, 241,
   119, 36, 83, 133, 9, 13, 184, 238, 41, 80]

def diffStream : Bytes :=
  [66, 90, 104, 57, 49, 65, 89, 38, 83, 89, 25, 232, 217, 58, 0, 0, 1, 192, 0,
   96, 0, 32, 0, 33, 0, 130, 147, 23, 114, 69, 56, 80, 144, 25, 232, 217, 58]

def extraStream : Bytes :=
  [66, 90, 104, 57, 49, 65, 89, 38, 83, 89, 119, 75, 176, 20, 0, 0, 0, 0, 128,
   0, 64, 32, 0, 33, 24, 70, 130, 238, 72, 167, 10, 18, 14, 233, 118, 2, 128]

/-- A piece that only adds the letter `a`, and its streams. -/
def letter : Piece := ⟨[], [97], 0⟩

def letterCtrlStream : Bytes :=
  [66, 90, 104, 57, 49, 65, 89, 38, 83, 89, 43, 228, 60, 255, 0, 0, 0, 64, 0,
   100, 8, 32, 0, 33, 140, 131, 52, 209, 9, 93, 56, 187, 146, 41, 194, 132,
   129, 95, 33, 231, 248]

def emptyStream : Bytes :=
  [66, 90, 104, 57, 23, 114, 69, 56, 80, 144, 0, 0, 0, 0]

def letterStream : Bytes :=
  [66, 90, 104, 57, 49, 65, 89, 38, 83, 89, 25, 147, 155, 107, 0, 0, 0, 1, 0,
   32, 0, 32, 0, 33, 24, 70, 130, 238, 72, 167, 10, 18, 3, 50, 115, 109, 96]

def table : List (Bytes × Bytes) :=
  [(piece.triple, ctrlStream), (piece.diff, diffStream),
    (piece.extra, extraStream), (letter.triple, letterCtrlStream),
    (letter.diff, emptyStream), (letter.extra, letterStream)]

/-- Other strings are stored with a mark before each byte. -/
def store : Bytes → Bytes
  | [] => [0]
  | b :: rest => 1 :: b :: store rest

def restore : Bytes → Option (Bytes × Nat)
  | 0 :: _ => some ([], 1)
  | 1 :: b :: rest => (restore rest).map fun r => (b :: r.1, r.2 + 2)
  | _ => none

def compress (data : Bytes) : Bytes :=
  ((table.find? fun e => e.1 = data).map Prod.snd).getD (store data)

theorem restore_store (data trailing : Bytes) :
    ∃ length, restore (store data ++ trailing) = some (data, length) := by
  induction data with
  | nil => exact ⟨1, rfl⟩
  | cons b data ih =>
      obtain ⟨length, hrest⟩ := ih
      refine ⟨length + 2, ?_⟩
      rw [store, List.cons_append, List.cons_append, restore, hrest]
      rfl

theorem restore_length {input data : Bytes} {length : Nat}
    (hrestore : restore input = some (data, length)) :
    0 < length ∧ length ≤ input.length := by
  induction input using restore.induct generalizing data length with
  | case1 rest =>
      cases hrestore
      simp
  | case2 b rest ih =>
      rw [restore] at hrestore
      obtain ⟨⟨data', length'⟩, hrest, hvalue⟩ :=
        Option.map_eq_some_iff.mp hrestore
      cases hvalue
      have hlength := ih hrest
      simp only [List.length_cons]
      omega
  | case3 input hnil hcons =>
      rw [restore] at hrestore
      · cases hrestore
      · exact hnil
      · exact hcons

theorem stream_pos : ∀ e ∈ table, 0 < e.2.length := by
  decide

/-- What stands at the front: a known stream or a stored string. -/
def format : Decoder.Format where
  front input :=
    if input = [] then .incomplete
    else
      match table.find? fun e => e.2.isPrefixOf input with
      | some e => .stream e.1 e.2.length
      | none =>
          match restore input with
          | some (data, length) => .stream data length
          | none => .fault
  nil_incomplete := rfl
  stream_length := by
    intro input data length hfront
    split at hfront
    · cases hfront
    split at hfront
    · next e he =>
        cases hfront
        have hfront := List.find?_some he
        exact ⟨stream_pos e (List.mem_of_find?_eq_some he),
          (List.isPrefixOf_iff_prefix.mp hfront).length_le⟩
    · split at hfront
      · next hrestore =>
          cases hfront
          exact restore_length hrestore
      · cases hfront

def bzip2 : Decoder := Decoder.ofFormat format

def bzip2Laws : bzip2.Laws := format.laws

theorem table_lossless (trailing : Bytes) {e : Bytes × Bytes}
    (he : e ∈ table) : format.data none (e.2 ++ trailing) = e.1 := by
  simp only [table, List.mem_cons, List.not_mem_nil, or_false] at he
  rcases he with rfl | rfl | rfl | rfl | rfl | rfl
  all_goals rfl

theorem compress_lossless (data trailing : Bytes) :
    bzip2Laws.data bzip2.init (compress data ++ trailing) = data := by
  show format.data none (compress data ++ trailing) = data
  cases hknown : table.find? fun e => e.1 = data with
  | some e =>
      have hcompress : compress data = e.2 := by
        rw [compress, hknown]
        rfl
      have hdata : e.1 = data := by
        simpa using List.find?_some hknown
      rw [hcompress, table_lossless trailing (List.mem_of_find?_eq_some hknown),
        hdata]
  | none =>
  have hstored : compress data = store data := by
    rw [compress, hknown]
    rfl
  rw [Decoder.Format.data]
  obtain ⟨length, hrestore⟩ := restore_store data trailing
  have hfront : format.front (store data ++ trailing) =
      .stream data length := by
    have hnone : (table.find? fun e =>
        e.2.isPrefixOf (store data ++ trailing)) = none := by
      cases data <;> rfl
    have hne : store data ++ trailing ≠ [] := by
      cases data <;> simp [store]
    simp only [format, if_neg hne, hnone, hrestore]
  rw [hstored, hfront]

def anyMalloc : Malloc := fun size =>
  some ⟨List.replicate size 0, zeros_length size⟩

def file : Bytes := patchFile compress new.length [piece]

/-- The patch with bytes before and after it. -/
def embedded : Memory :=
  ⟨⟨[7] ++ file ++ [8, 9], fun _ => 0⟩, by decide +kernel⟩

theorem bsdiff_file : bsdiff index old.data new compress = some file := by
  decide +kernel

/-- The patch is applied where it stands. -/
theorem embedded_round_trip :
    bsdiff index old.data new compress = some file ∧
      ∃ bound, ∀ fuel, bound ≤ fuel →
        (applyBSDiffPatchMem bzip2 embedded fuel anyMalloc old 0 6 1).result =
          some (.ok new) := by
  obtain ⟨file', hfile, happly⟩ := bspatch_bsdiff bzip2 bzip2Laws compress
    compress_lossless index old new ⟨rfl, by decide⟩ (by decide)
  refine ⟨bsdiff_file, ?_⟩
  have hsame : file' = file := by
    rw [bsdiff_file] at hfile
    exact (Option.some.inj hfile).symm
  subst hsame
  exact happly anyMalloc embedded [7] [8, 9] rfl rfl

end BsdiffWitness

end Bsdiff

end MetaOS
