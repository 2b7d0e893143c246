/-
`bsdiff.c`: a patch is computed from an index of the old data.  The index may
be any array of positions; it decides how good the patch is, not whether it
is right.  A read outside a buffer makes a run fail, and so does one that
takes too long, so a result means that neither happens.  It runs on the host,
where `off_t` has 64 bits and nothing wraps.
-/
import MetaOS.Bspatch

namespace MetaOS

namespace Bsdiff

open Bytes

/-- How far two strings agree. -/
def matchlen : Bytes → Bytes → Nat
  | a :: old, b :: new => if a = b then matchlen old new + 1 else 0
  | _, _ => 0

/-- `memcmp` on as many bytes as both strings have: is it negative? -/
def memcmpNegative : Bytes → Bytes → Bool
  | a :: old, b :: new => if a = b then memcmpNegative old new else a < b
  | _, _ => false

/-- `search`: a long match for the start of `new`, as its length and its
position in the old data. -/
def search (index : List Nat) (old new : Bytes) :
    (fuel st en : Nat) → Option (Nat × Nat)
  | 0, _, _ => none
  | fuel + 1, st, en => do
      if en - st < 2 then
        let first ← index[st]?
        let last ← index[en]?
        let x := matchlen (old.drop first) new
        let y := matchlen (old.drop last) new
        if x > y then some (x, first) else some (y, last)
      else
        let x := st + (en - st) / 2
        let middle ← index[x]?
        if memcmpNegative (old.drop middle) new then
          search index old new fuel x en
        else search index old new fuel st x

/-- `offtout`: sign and magnitude, least significant byte first. -/
def offtout (x : Int) : Bytes :=
  let y := ofLeNat 8 x.natAbs
  if x < 0 then y.take 7 ++ [y.getD 7 0 ||| 0x80] else y

section Program

variable (index : List Nat) (old new : Bytes)

/-- Does the old data at an offset from `i` agree with the new data? -/
def agrees (lastoffset : Int) (i : Nat) : Option Bool :=
  if i + lastoffset < old.length then do
    let a ← if 0 ≤ i + lastoffset then old[(i + lastoffset).toNat]? else none
    let b ← new[i]?
    some (a == b)
  else some false

/-- The loop on `scsc`. -/
def scoreLoop (lastoffset : Int) : (count scsc : Nat) → (oldscore : Int) →
    Option Int
  | 0, _, oldscore => some oldscore
  | count + 1, scsc, oldscore => do
      let same ← agrees old new lastoffset scsc
      scoreLoop lastoffset count (scsc + 1)
        (if same then oldscore + 1 else oldscore)

/-- The variables of the loop on `scan`. -/
structure Scan where
  scan : Nat
  len : Nat
  pos : Nat
  scsc : Nat
  oldscore : Int

/-- Look for a position from which on the old data matches better than it
does at the last offset. -/
def scanLoop (lastoffset : Int) : (fuel : Nat) → Scan → Option Scan
  | 0, _ => none
  | fuel + 1, s =>
      if s.scan < new.length then do
        let (len, pos) ← search index old (new.drop s.scan) (old.length + 1) 0
          old.length
        let oldscore ← scoreLoop old new lastoffset (s.scan + len - s.scsc)
          s.scsc s.oldscore
        let scsc := max s.scsc (s.scan + len)
        if (len = oldscore ∧ len ≠ 0) ∨ len > oldscore + 8 then
          some ⟨s.scan, len, pos, scsc, oldscore⟩
        else
          let same ← agrees old new lastoffset s.scan
          scanLoop lastoffset fuel ⟨s.scan + 1, len, pos, scsc,
            if same then oldscore - 1 else oldscore⟩
      else some s

/-- How far to extend the last match forwards, `lenf`. -/
def forward (lastscan lastpos : Nat) :
    (count i : Nat) → (s best : Int) → (lenf : Nat) → Option Nat
  | 0, _, _, _, lenf => some lenf
  | count + 1, i, s, best, lenf => do
      let a ← old[lastpos + i]?
      let b ← new[lastscan + i]?
      let s := if a = b then s + 1 else s
      let i := i + 1
      if s * 2 - i > best * 2 - lenf then
        forward lastscan lastpos count i s s i
      else forward lastscan lastpos count i s best lenf

/-- How far to extend the new match backwards, `lenb`. -/
def backward (scan pos : Nat) :
    (count i : Nat) → (s best : Int) → (lenb : Nat) → Option Nat
  | 0, _, _, _, lenb => some lenb
  | count + 1, i, s, best, lenb => do
      let a ← old[pos - i]?
      let b ← new[scan - i]?
      let s := if a = b then s + 1 else s
      if s * 2 - i > best * 2 - lenb then
        backward scan pos count (i + 1) s s i
      else backward scan pos count (i + 1) s best lenb

/-- Where to cut an overlap of the two extensions, `lens`: the last match is
read from `newFrom` and `oldFrom` on, the new one from `scanFrom` and
`posFrom` on. -/
def cutOverlap (newFrom oldFrom scanFrom posFrom : Nat) :
    (count i : Nat) → (s best : Int) → (lens : Nat) → Option Nat
  | 0, _, _, _, lens => some lens
  | count + 1, i, s, best, lens => do
      let a ← new[newFrom + i]?
      let b ← old[oldFrom + i]?
      let s := if a = b then s + 1 else s
      let a ← new[scanFrom + i]?
      let b ← old[posFrom + i]?
      let s := if a = b then s - 1 else s
      if s > best then
        cutOverlap newFrom oldFrom scanFrom posFrom count (i + 1) s s (i + 1)
      else
        cutOverlap newFrom oldFrom scanFrom posFrom count (i + 1) s best lens

/-- What is written out for one step of the patch. -/
structure Piece where
  diff : Bytes
  extra : Bytes
  seek : Int

/-- The extents of the last match and the new one. -/
structure Extents where
  lenf : Nat
  lenb : Nat

/-- The new match is not extended if there is none. -/
def backwardExtent (lastscan scan pos : Nat) : Option Nat :=
  if scan < new.length then
    backward old new scan pos (min (scan - lastscan) pos) 1 0 0 0
  else some 0

/-- The two extensions, without overlap. -/
def extend (lastscan lastpos scan pos : Nat) : Option Extents := do
  let lenf ← forward old new lastscan lastpos
    (min (scan - lastscan) (old.length - lastpos)) 0 0 0 0
  let lenb ← backwardExtent old new lastscan scan pos
  if lastscan + lenf > scan - lenb then
    let overlap := (lastscan + lenf) - (scan - lenb)
    let lens ← cutOverlap old new (lastscan + lenf - overlap)
      (lastpos + lenf - overlap) (scan - lenb) (pos - lenb) overlap 0 0 0 0
    some ⟨lenf + lens - overlap, lenb - lens⟩
  else some ⟨lenf, lenb⟩

/-- The diff and extra strings of one step. -/
def cutPiece (lastscan lastpos scan pos : Nat) (e : Extents) : Piece :=
  { diff := List.zipWith (· - ·) (new.window lastscan e.lenf)
      (old.window lastpos e.lenf)
    extra := new.window (lastscan + e.lenf)
      ((scan - e.lenb) - (lastscan + e.lenf))
    seek := ((pos - e.lenb : Nat) : Int) - (lastpos + e.lenf : Nat) }

/-- The variables of the main loop, and the pieces written so far. -/
structure State where
  scan : Nat
  len : Nat
  pos : Nat
  lastscan : Nat
  lastpos : Nat
  lastoffset : Int
  pieces : List Piece

/-- The main loop. -/
def diffLoop : (fuel : Nat) → State → Option (List Piece)
  | 0, _ => none
  | fuel + 1, st =>
      if st.scan < new.length then do
        let scan := st.scan + st.len
        let s ← scanLoop index old new st.lastoffset (new.length + 1)
          ⟨scan, st.len, st.pos, scan, 0⟩
        if s.len ≠ s.oldscore ∨ s.scan = new.length then
          let e ← extend old new st.lastscan st.lastpos s.scan s.pos
          diffLoop fuel
            { scan := s.scan
              len := s.len
              pos := s.pos
              lastscan := s.scan - e.lenb
              lastpos := s.pos - e.lenb
              lastoffset := (s.pos : Int) - s.scan
              pieces := st.pieces ++
                [cutPiece old new st.lastscan st.lastpos s.scan s.pos e] }
        else
          diffLoop fuel { st with scan := s.scan, len := s.len, pos := s.pos }
      else some st.pieces

/-- A control triple. -/
def Piece.triple (p : Piece) : Bytes :=
  offtout p.diff.length ++ offtout p.extra.length ++ offtout p.seek

/-- The patch file: a header and three compressed blocks. -/
def patchFile (compress : Bytes → Bytes) (newsize : Nat)
    (pieces : List Piece) : Bytes :=
  let ctrl := compress (pieces.flatMap Piece.triple)
  let diff := compress (pieces.flatMap Piece.diff)
  let extra := compress (pieces.flatMap Piece.extra)
  ofString "BSDIFF40" ++ offtout ctrl.length ++ offtout diff.length ++
    offtout newsize ++ ctrl ++ diff ++ extra

/-- `bsdiff` with a given index: the patch file it writes. -/
def bsdiff (compress : Bytes → Bytes) : Option Bytes := do
  let pieces ← diffLoop index old new (new.length + 2) ⟨0, 0, 0, 0, 0, 0, []⟩
  some (patchFile compress new.length pieces)

end Program

/-- An index of the old data: a position for each of its suffixes. -/
structure Indexes (index : List Nat) (old : Bytes) : Prop where
  length : index.length = old.length + 1
  entries : ∀ p ∈ index, p ≤ old.length

theorem matchlen_le (old new : Bytes) : matchlen old new ≤ new.length := by
  induction old generalizing new with
  | nil => simp [matchlen]
  | cons a old ih =>
      cases new with
      | nil => simp [matchlen]
      | cons b new =>
          have hrest := ih new
          rw [matchlen, List.length_cons]
          split <;> omega

section Encoder

variable {index : List Nat} {old new : Bytes}

theorem Indexes.entry (hindex : Indexes index old) {i : Nat}
    (hi : i ≤ old.length) : ∃ p, index[i]? = some p ∧ p ≤ old.length := by
  have hlt : i < index.length := by
    rw [hindex.length]
    omega
  exact ⟨index[i], List.getElem?_eq_getElem hlt,
    hindex.entries _ (List.getElem_mem hlt)⟩

theorem search_spec (hindex : Indexes index old) (new : Bytes)
    {fuel st en : Nat} (hst : st ≤ en) (hen : en ≤ old.length)
    (hfuel : en - st < fuel) :
    ∃ len pos, search index old new fuel st en = some (len, pos) ∧
      len ≤ new.length ∧ pos ≤ old.length := by
  induction fuel generalizing st en with
  | zero => omega
  | succ fuel ih =>
      rw [search]
      split
      · obtain ⟨first, hfirst, hfirst_le⟩ := hindex.entry (hst.trans hen)
        obtain ⟨last, hlast, hlast_le⟩ := hindex.entry hen
        simp only [hfirst, hlast, Option.bind_eq_bind, Option.bind_some]
        split
        · exact ⟨_, _, rfl, matchlen_le _ _, hfirst_le⟩
        · exact ⟨_, _, rfl, matchlen_le _ _, hlast_le⟩
      · obtain ⟨middle, hmiddle, -⟩ := hindex.entry
          (by omega : st + (en - st) / 2 ≤ old.length)
        simp only [hmiddle, Option.bind_eq_bind, Option.bind_some]
        split
        · exact ih (by omega) hen (by omega)
        · exact ih (by omega) (by omega) (by omega)

theorem agrees_spec (old : Bytes) {lastoffset : Int} {i : Nat}
    (hlow : 0 ≤ i + lastoffset) (hi : i < new.length) :
    ∃ same, agrees old new lastoffset i = some same := by
  rw [agrees]
  by_cases hhigh : i + lastoffset < old.length
  · have hlt : (i + lastoffset).toNat < old.length := by omega
    rw [if_pos hhigh, if_pos hlow, List.getElem?_eq_getElem hlt,
      List.getElem?_eq_getElem hi]
    exact ⟨_, rfl⟩
  · rw [if_neg hhigh]
    exact ⟨false, rfl⟩

theorem scoreLoop_spec {lastoffset : Int} {count scsc : Nat} (oldscore : Int)
    (hlow : 0 ≤ scsc + lastoffset) (hhigh : scsc + count ≤ new.length) :
    ∃ score, scoreLoop old new lastoffset count scsc oldscore = some score ∧
      oldscore ≤ score := by
  induction count generalizing scsc oldscore with
  | zero => exact ⟨oldscore, rfl, le_rfl⟩
  | succ count ih =>
      obtain ⟨same, hsame⟩ := agrees_spec old hlow
        (by omega : scsc < new.length)
      have hrest : ∃ score, scoreLoop old new lastoffset count (scsc + 1)
          (if same then oldscore + 1 else oldscore) = some score ∧
            (if same then oldscore + 1 else oldscore) ≤ score :=
        ih _ (by push_cast; omega) (by omega)
      obtain ⟨score, hscore, hle⟩ := hrest
      refine ⟨score, ?_, ?_⟩
      · simpa only [scoreLoop, hsame, Option.bind_eq_bind,
          Option.bind_some] using hscore
      · split at hle <;> omega

/-- Where the scan that began at `start` stands. -/
structure Scanning (oldsize newsize start : Nat) (s : Scan) : Prop where
  started : start ≤ s.scan
  scan_le : s.scan ≤ newsize
  pos_le : s.pos ≤ oldsize
  scsc_ge : start ≤ s.scsc
  scsc_le : s.scsc ≤ newsize
  /-- At first the last offset is not worse than nothing. -/
  score : s.scan = start → 0 ≤ s.oldscore

/-- What the scan finds: a match after `start`, or the end. -/
structure Found (oldsize newsize start : Nat) (s : Scan) : Prop where
  started : start ≤ s.scan
  scan_le : s.scan ≤ newsize
  pos_le : s.pos ≤ oldsize
  match_le : s.scan < newsize → s.scan + s.len ≤ newsize
  progress : s.scan < newsize → start < s.scan + s.len

theorem scanLoop_spec (hindex : Indexes index old) {lastoffset : Int}
    {fuel start : Nat} {s : Scan} (hoffset : 0 ≤ start + lastoffset)
    (hs : Scanning old.length new.length start s)
    (hfuel : new.length - s.scan < fuel) :
    ∃ s', scanLoop index old new lastoffset fuel s = some s' ∧
      Found old.length new.length start s' := by
  induction fuel generalizing s with
  | zero => omega
  | succ fuel ih =>
      obtain ⟨hstarted, hscan, hpos, hscsc, hscsc_le, hscore⟩ := hs
      rw [scanLoop]
      split
      · next hmore =>
          have hmatch : ∃ len pos, search index old (new.drop s.scan)
              (old.length + 1) 0 old.length = some (len, pos) ∧
                len ≤ (new.drop s.scan).length ∧ pos ≤ old.length :=
            search_spec hindex _ (Nat.zero_le _) le_rfl (Nat.lt_succ_self _)
          obtain ⟨len, pos, hsearch, hlen, hpos'⟩ := hmatch
          rw [List.length_drop] at hlen
          -- The score of the last offset up to the end of the match.
          have hscored : ∃ score, scoreLoop old new lastoffset
              (s.scan + len - s.scsc) s.scsc s.oldscore = some score ∧
                s.oldscore ≤ score :=
            scoreLoop_spec _ (by omega) (by omega)
          obtain ⟨score, hloop, hle⟩ := hscored
          obtain ⟨same, hsame⟩ := agrees_spec old
            (by omega : 0 ≤ s.scan + lastoffset) hmore
          simp only [hsearch, hloop, hsame, Option.bind_eq_bind,
            Option.bind_some]
          split
          · next hbreak =>
              refine ⟨_, rfl, hstarted, hscan, hpos', fun _ => ?_, fun _ => ?_⟩
              · dsimp only
                omega
              · dsimp only
                rcases Nat.lt_or_ge start s.scan with hlater | hfirst
                · omega
                · have hzero := hscore (by omega)
                  rcases hbreak with ⟨-, hne⟩ | hbetter <;> omega
          · refine ih ⟨by dsimp only; omega, hmore, hpos', ?_, ?_, ?_⟩ ?_
            · exact hscsc.trans (le_max_left _ _)
            · exact max_le hscsc_le (by omega)
            · dsimp only
              omega
            · dsimp only
              omega
      · exact ⟨s, rfl, hstarted, hscan, hpos, by omega, by omega⟩

theorem forward_spec {lastscan lastpos count i lenf m : Nat} (s best : Int)
    (hold : lastpos + i + count ≤ old.length)
    (hnew : lastscan + i + count ≤ new.length) (hm : i + count ≤ m)
    (hlenf : lenf ≤ m) :
    ∃ lenf', forward old new lastscan lastpos count i s best lenf =
      some lenf' ∧ lenf' ≤ m := by
  induction count generalizing i s best lenf with
  | zero => exact ⟨lenf, rfl, hlenf⟩
  | succ count ih =>
      rw [forward,
        List.getElem?_eq_getElem (by omega : lastpos + i < old.length),
        List.getElem?_eq_getElem (by omega : lastscan + i < new.length)]
      simp only [Option.bind_eq_bind, Option.bind_some]
      split_ifs <;>
        exact ih _ _ (by omega) (by omega) (by omega) (by omega)

theorem backward_spec {scan pos count i lenb m : Nat} (s best : Int)
    (hi : 0 < i) (hscan : scan ≤ new.length) (hpos : pos ≤ old.length)
    (hscans : i + count ≤ scan + 1) (hposs : i + count ≤ pos + 1)
    (hm : i + count ≤ m + 1)
    (hlenb : lenb ≤ m) :
    ∃ lenb', backward old new scan pos count i s best lenb = some lenb' ∧
      lenb' ≤ m := by
  induction count generalizing i s best lenb with
  | zero => exact ⟨lenb, rfl, hlenb⟩
  | succ count ih =>
      rw [backward, List.getElem?_eq_getElem (by omega : pos - i < old.length),
        List.getElem?_eq_getElem (by omega : scan - i < new.length)]
      simp only [Option.bind_eq_bind, Option.bind_some]
      split_ifs <;>
        exact ih _ _ (by omega) (by omega) (by omega) (by omega) (by omega)

theorem cutOverlap_spec {newFrom oldFrom scanFrom posFrom count i lens m : Nat}
    (s best : Int) (hnew : newFrom + i + count ≤ new.length)
    (hold : oldFrom + i + count ≤ old.length)
    (hscan : scanFrom + i + count ≤ new.length)
    (hpos : posFrom + i + count ≤ old.length) (hm : i + count ≤ m)
    (hlens : lens ≤ m) :
    ∃ lens', cutOverlap old new newFrom oldFrom scanFrom posFrom count i s best
      lens = some lens' ∧ lens' ≤ m := by
  induction count generalizing i s best lens with
  | zero => exact ⟨lens, rfl, hlens⟩
  | succ count ih =>
      rw [cutOverlap,
        List.getElem?_eq_getElem (by omega : newFrom + i < new.length),
        List.getElem?_eq_getElem (by omega : oldFrom + i < old.length),
        List.getElem?_eq_getElem (by omega : scanFrom + i < new.length),
        List.getElem?_eq_getElem (by omega : posFrom + i < old.length)]
      simp only [Option.bind_eq_bind, Option.bind_some]
      split_ifs <;>
        exact ih _ _ (by omega) (by omega) (by omega) (by omega) (by omega)
          (by omega)

/-- The two extents lie in both files and do not overlap. -/
structure Extents.Fit (oldsize newsize lastscan lastpos scan pos : Nat)
    (e : Extents) : Prop where
  apart : lastscan + e.lenf + e.lenb ≤ scan
  lenf_le : lastpos + e.lenf ≤ oldsize
  lenb_le : e.lenb ≤ pos
  at_end : scan = newsize → e.lenb = 0

theorem backwardExtent_spec {lastscan scan pos : Nat}
    (hlast : lastscan ≤ scan) (hscan : scan ≤ new.length)
    (hpos : pos ≤ old.length) :
    ∃ lenb, backwardExtent old new lastscan scan pos = some lenb ∧
      lenb ≤ min (scan - lastscan) pos ∧ (scan = new.length → lenb = 0) := by
  rw [backwardExtent]
  split
  · next hmore =>
      have hback : ∃ lenb, backward old new scan pos
          (min (scan - lastscan) pos) 1 0 0 0 = some lenb ∧
            lenb ≤ min (scan - lastscan) pos :=
        backward_spec _ _ Nat.one_pos hscan hpos (by omega) (by omega)
          (by omega) (Nat.zero_le _)
      obtain ⟨lenb, hlenb, hle⟩ := hback
      exact ⟨lenb, hlenb, hle, by omega⟩
  · exact ⟨0, rfl, Nat.zero_le _, fun _ => rfl⟩

theorem extend_spec {lastscan lastpos scan pos : Nat}
    (hlast : lastscan ≤ scan) (hscan : scan ≤ new.length)
    (hlastpos : lastpos ≤ old.length) (hpos : pos ≤ old.length) :
    ∃ e, extend old new lastscan lastpos scan pos = some e ∧
      e.Fit old.length new.length lastscan lastpos scan pos := by
  have hforward : ∃ lenf, forward old new lastscan lastpos
      (min (scan - lastscan) (old.length - lastpos)) 0 0 0 0 = some lenf ∧
        lenf ≤ min (scan - lastscan) (old.length - lastpos) :=
    forward_spec _ _ (by omega) (by omega) (by omega) (Nat.zero_le _)
  obtain ⟨lenf, hlenf, hlenf_le⟩ := hforward
  obtain ⟨lenb, hlenb, hlenb_le, hend⟩ := backwardExtent_spec hlast hscan hpos
  simp only [extend, hlenf, hlenb, Option.bind_eq_bind, Option.bind_some]
  split
  · next hover =>
      have hcut : ∃ lens, cutOverlap old new
          (lastscan + lenf - (lastscan + lenf - (scan - lenb)))
          (lastpos + lenf - (lastscan + lenf - (scan - lenb))) (scan - lenb)
          (pos - lenb) (lastscan + lenf - (scan - lenb)) 0 0 0 0 = some lens ∧
            lens ≤ lastscan + lenf - (scan - lenb) :=
        cutOverlap_spec _ _ (by omega) (by omega) (by omega) (by omega)
          (by omega) (Nat.zero_le _)
      obtain ⟨lens, hlens, hlens_le⟩ := hcut
      rw [hlens]
      refine ⟨_, rfl, ?_, ?_, ?_, ?_⟩ <;> dsimp only <;> omega
  · refine ⟨_, rfl, ?_, ?_, ?_, ?_⟩ <;> dsimp only <;> omega

/-- A piece read at `oldpos` and `newpos` gives the new file from there on. -/
structure Fits (old new : Bytes) (oldpos newpos : Nat) (p : Piece) : Prop where
  old_le : oldpos + p.diff.length ≤ old.length
  new_le : newpos + p.diff.length + p.extra.length ≤ new.length
  diff : ∀ i a, p.diff[i]? = some a → ∃ b, old[oldpos + i]? = some b ∧
    new[newpos + i]? = some (a + b)
  extra : ∀ i a, p.extra[i]? = some a →
    new[newpos + p.diff.length + i]? = some a

/-- The pieces lead from one pair of positions to another and give the new
file between them. -/
inductive Leads (old new : Bytes) :
    (oldpos newpos : Nat) → List Piece → (oldend newend : Nat) → Prop
  | nil (oldpos newpos : Nat) : Leads old new oldpos newpos [] oldpos newpos
  | cons {oldpos newpos next oldend newend : Nat} {p : Piece}
      {pieces : List Piece} (hfits : Fits old new oldpos newpos p)
      (hnext : (next : Int) = oldpos + p.diff.length + p.seek)
      (hnext_le : next ≤ old.length)
      (hrest : Leads old new next (newpos + p.diff.length + p.extra.length)
        pieces oldend newend) :
      Leads old new oldpos newpos (p :: pieces) oldend newend

theorem Leads.snoc {oldpos newpos oldend newend next : Nat}
    {pieces : List Piece} {p : Piece}
    (hleads : Leads old new oldpos newpos pieces oldend newend)
    (hfits : Fits old new oldend newend p)
    (hnext : (next : Int) = oldend + p.diff.length + p.seek)
    (hnext_le : next ≤ old.length) :
    Leads old new oldpos newpos (pieces ++ [p]) next
      (newend + p.diff.length + p.extra.length) := by
  induction hleads with
  | nil oldpos newpos => exact .cons hfits hnext hnext_le (.nil _ _)
  | cons hfits' hnext' hnext_le' _ ih =>
      exact .cons hfits' hnext' hnext_le' (ih hfits hnext)

section CutPiece

variable {lastscan lastpos scan pos : Nat} {e : Extents}

theorem cutPiece_diff_length (hscan : scan ≤ new.length)
    (he : e.Fit old.length new.length lastscan lastpos scan pos) :
    (cutPiece old new lastscan lastpos scan pos e).diff.length = e.lenf := by
  have hapart := he.apart
  have hold := he.lenf_le
  rw [cutPiece, List.length_zipWith, window_length, window_length]
  omega

theorem cutPiece_extra_length (hscan : scan ≤ new.length)
    (he : e.Fit old.length new.length lastscan lastpos scan pos) :
    (cutPiece old new lastscan lastpos scan pos e).extra.length =
      scan - e.lenb - (lastscan + e.lenf) := by
  have hapart := he.apart
  rw [cutPiece, window_length]
  omega

theorem cutPiece_fits (hscan : scan ≤ new.length)
    (he : e.Fit old.length new.length lastscan lastpos scan pos) :
    Fits old new lastpos lastscan
      (cutPiece old new lastscan lastpos scan pos e) := by
  have hdiff := cutPiece_diff_length hscan he
  have hextra := cutPiece_extra_length hscan he
  have hapart := he.apart
  have hold := he.lenf_le
  refine ⟨?_, ?_, ?_, ?_⟩
  · omega
  · omega
  · intro i a hi
    obtain ⟨b, c, hb, hc, rfl⟩ := List.getElem?_zipWith_eq_some.mp hi
    refine ⟨c, getElem?_of_window hc, ?_⟩
    rw [UInt8.sub_add_cancel]
    exact getElem?_of_window hb
  · intro i a hi
    rw [hdiff]
    exact getElem?_of_window hi

end CutPiece

/-- Where the main loop stands. -/
structure State.Inv (old new : Bytes) (st : State) : Prop where
  lastscan_le : st.lastscan ≤ st.scan
  scan_le : st.scan ≤ new.length
  pos_le : st.pos ≤ old.length
  offset : 0 ≤ st.scan + st.lastoffset
  match_le : st.scan < new.length → st.scan + st.len ≤ new.length
  finished : st.scan = new.length → st.lastscan = new.length
  lastpos_le : st.lastpos ≤ old.length
  leads : Leads old new 0 0 st.pieces st.lastpos st.lastscan

/-- The pieces give the new file. -/
theorem diffLoop_spec (hindex : Indexes index old) {fuel : Nat} {st : State}
    (hst : st.Inv old new) (hfuel : 0 < fuel)
    (hpasses : st.scan < new.length →
      new.length - (st.scan + st.len) + 1 < fuel) :
    ∃ pieces oldend, diffLoop index old new fuel st = some pieces ∧
      Leads old new 0 0 pieces oldend new.length := by
  induction fuel generalizing st with
  | zero => omega
  | succ fuel ih =>
      obtain ⟨hlast, hscan, hpos, hoffset, hmatch, hfinished, hlastpos,
        hleads⟩ := hst
      rw [diffLoop]
      split
      · next hmore =>
          have hroom := hmatch hmore
          have hpass := hpasses hmore
          have hfound : ∃ s, scanLoop index old new st.lastoffset
              (new.length + 1) ⟨st.scan + st.len, st.len, st.pos,
                st.scan + st.len, 0⟩ = some s ∧
              Found old.length new.length (st.scan + st.len) s :=
            scanLoop_spec hindex (by push_cast; omega)
              ⟨le_rfl, hroom, hpos, le_rfl, hroom, fun _ => le_rfl⟩
              (by dsimp only; omega)
          obtain ⟨s, hs, hstarted, hscan', hpos', hmatch', hprogress⟩ := hfound
          simp only [hs, Option.bind_eq_bind, Option.bind_some]
          split
          · obtain ⟨e, hextend, he⟩ := extend_spec
              (by omega : st.lastscan ≤ s.scan) hscan' hlastpos hpos'
            have hfits := cutPiece_fits hscan' he
            have hdiff := cutPiece_diff_length hscan' he
            have hextra := cutPiece_extra_length hscan' he
            obtain ⟨hapart, hlenf, hlenb, hend⟩ := he
            rw [hextend]
            have hnext : ((s.pos - e.lenb : Nat) : Int) = st.lastpos +
                (cutPiece old new st.lastscan st.lastpos s.scan s.pos
                  e).diff.length +
                (cutPiece old new st.lastscan st.lastpos s.scan s.pos
                  e).seek := by
              rw [hdiff, cutPiece]
              push_cast
              ring
            have hleads' := hleads.snoc hfits hnext (by omega)
            refine ih ⟨?_, hscan', hpos', ?_, hmatch', ?_, ?_, ?_⟩ ?_ ?_
            · dsimp only
              omega
            · dsimp only
              omega
            · intro hlastpiece
              have hzero := hend hlastpiece
              dsimp only at hlastpiece ⊢
              omega
            · dsimp only
              omega
            · rw [hdiff, hextra] at hleads'
              convert hleads' using 1
              dsimp only
              omega
            · omega
            · intro hmore'
              have hlater := hprogress hmore'
              dsimp only at hmore' ⊢
              omega
          · next hsame =>
              push Not at hsame
              refine ih ⟨?_, hscan', hpos', ?_, hmatch', ?_, hlastpos, hleads⟩
                ?_ ?_
              · dsimp only
                omega
              · dsimp only
                omega
              · intro hend
                exact absurd hend hsame.2
              · omega
              · intro hmore'
                have hlater := hprogress hmore'
                dsimp only at hmore' ⊢
                omega
      · refine ⟨st.pieces, st.lastpos, rfl, ?_⟩
        rw [← hfinished (by omega)]
        exact hleads

end Encoder

end Bsdiff

end MetaOS
