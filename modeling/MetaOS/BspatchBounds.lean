/-
Where `ApplyBSDiffPatchMem` reads and writes.  Nothing checks the extents that
a patch names.  Every access stays in its buffer if what the passes of the
loop come to read lies there, and no control triple has a length that the
checks let pass although it is negative or too large for an `off_t`.
-/
import MetaOS.Bspatch

namespace MetaOS

namespace Bspatch

open Bytes

/-- `len` bytes from `start` on lie in a buffer of `size` bytes. -/
def Inside (size start : Int) (len : Nat) : Prop :=
  len = 0 ∨ 0 ≤ start ∧ start + len ≤ size

/-- An access stays in its buffer. -/
def Access.InBounds (patchSize oldSize : Nat) : Access → Prop
  | .patch start len => Inside patchSize start len
  | .source start len => Inside oldSize start len
  | .block size start len => Inside size start len

/-- What `ApplyBSDiffPatchMem` may do on a part of the source, of which it
reads the bytes in `source`. -/
structure Allows (allowed : Access → Prop) (patchSize : Nat)
    (oldStart oldSize : Int) (source : Int → Prop) : Prop where
  patch : ∀ {start : Int} {len : Nat}, Inside patchSize start len →
    allowed (.patch start len)
  source : ∀ {i : Int}, 0 ≤ i → i < oldSize → source i →
    allowed (.source (oldStart + i) 1)
  block : ∀ {size start : Int} {len : Nat}, Inside size start len →
    allowed (.block size start len)

/-- The variables of the loop, with what its streams hold. -/
structure Pass where
  oldpos : Int
  newpos : Int
  c : Decoded
  d : Decoded
  e : Decoded

def Pass.next (p : Pass) : Pass where
  oldpos := int32 (int32 (p.oldpos + p.c.ctrl 0) + p.c.ctrl 2)
  newpos := int32 (int32 (p.newpos + p.c.ctrl 0) + p.c.ctrl 1)
  c := p.c.skip 24
  d := p.d.skip (uint32 (p.c.ctrl 0))
  e := p.e.skip (uint32 (p.c.ctrl 1))

/-- The passes that are begun, from one on. -/
inductive Pass.Begins (newSize : Int) : Pass → Pass → Prop
  | now {p : Pass} (hmore : p.newpos < newSize) : Begins newSize p p
  | later {p q : Pass} (hmore : p.newpos < newSize)
      (hgoes : Goes newSize p.newpos p.c p.d p.e)
      (hnext : Begins newSize p.next q) : Begins newSize p q

theorem Pass.Begins.newpos_lt {newSize : Int} {p q : Pass}
    (hbegins : Begins newSize p q) : p.newpos < newSize := by
  cases hbegins with
  | now hmore => exact hmore
  | later hmore => exact hmore

/-- A length that is not negative and leads to an `off_t`, as the checks take
for granted. -/
def Straight (newpos len : Int) : Prop := 0 ≤ len ∧ newpos + len < 2 ^ 31

/-- As far as the checks let a pass come, the lengths of its triple are
straight, the blocks that it reads lie in the patch, and the bytes of the old
data that it adds are there.  `control` and `blocks` stand for the first block
and all three of them. -/
structure Pass.Sound (newSize oldSize : Int) (control blocks : Prop)
    (source : Int → Prop) (p : Pass) : Prop where
  control : control
  diff : 24 ≤ p.c.data.length → int32 (p.newpos + p.c.ctrl 0) ≤ newSize →
    Straight p.newpos (p.c.ctrl 0) ∧ (0 < p.c.ctrl 0 → blocks)
  source : 24 ≤ p.c.data.length → int32 (p.newpos + p.c.ctrl 0) ≤ newSize →
    uint32 (p.c.ctrl 0) ≤ p.d.data.length →
      ∀ i : Nat, i < p.c.ctrl 0 → overlaps oldSize p.oldpos i →
        source (int32 (p.oldpos + i))
  extra : 24 ≤ p.c.data.length → int32 (p.newpos + p.c.ctrl 0) ≤ newSize →
    uint32 (p.c.ctrl 0) ≤ p.d.data.length →
      p.next.newpos ≤ newSize →
        Straight (int32 (p.newpos + p.c.ctrl 0)) (p.c.ctrl 1) ∧
          (0 < p.c.ctrl 1 → blocks)

section Loop

variable {lib : Decoder} {laws : lib.Laws} {patch : Memory} {fuel : Nat}
  {old : Block} {oldStart oldSize newSize : Int} {allowed : Access → Prop}
  {control blocks : Prop} {source : Int → Prop}

/-- The rest of a stream lies in the patch. -/
def Stream.Inside (patch : Memory) (s : Stream lib) : Prop :=
  0 ≤ s.nextIn ∧ s.nextIn + s.availIn ≤ patch.data.length

/-- The streams lie in the patch if their blocks do. -/
structure Work.Inside (patch : Memory) (control blocks : Prop)
    (w : Work lib) : Prop where
  cstream : control → w.cstream.Inside patch
  dstream : blocks → w.dstream.Inside patch
  estream : blocks → w.estream.Inside patch

def Work.pass (laws : lib.Laws) (patch : Memory) (w : Work lib) : Pass :=
  ⟨w.oldpos, w.newpos, w.cstream.decoded laws patch,
    w.dstream.decoded laws patch, w.estream.decoded laws patch⟩

theorem Passed.pass_eq {w w' : Work lib}
    (hpassed : Passed laws patch old oldStart oldSize w w') :
    w'.pass laws patch = (w.pass laws patch).next := by
  rw [Work.pass, hpassed.oldpos, hpassed.newpos, hpassed.cstream,
    hpassed.dstream, hpassed.estream]
  rfl

theorem fill_taken_le_avail (patch : Memory) (fuel : Nat) (size : Int)
    (s : Stream lib) :
    (lib.fill fuel s.state (s.input lib patch) (uint32 size)).taken ≤
      s.availIn := by
  have hle := Decoder.fill_taken_le fuel (uint32 size) s.state
    (s.input lib patch)
  rwa [Stream.input, read_length] at hle

/-- A stream that is asked for nothing is left alone. -/
theorem fillBuffer_within (hallows : Allows allowed patch.data.length oldStart
      oldSize source) {size : Int} {log : Nat → List Access} {s : Stream lib}
    (hs : 0 < uint32 size → s.Inside patch)
    (hlog : ∀ len ≤ uint32 size, ∀ a ∈ log len, allowed a) :
    (fillBuffer lib patch fuel size log s).Within allowed := by
  have htaken := fill_taken_le_avail patch fuel size s
  have houtput := Decoder.fill_output_le fuel (uint32 size) s.state
    (s.input lib patch)
  intro a ha
  rw [fillBuffer] at ha
  rcases List.mem_cons.mp ha with rfl | ha
  · apply hallows.patch
    rcases Nat.eq_zero_or_pos (uint32 size) with hzero | hpos
    · rw [hzero, Decoder.fill_zero]
      exact Or.inl rfl
    · obtain ⟨hlow, hhigh⟩ := hs hpos
      exact Or.inr ⟨hlow, by omega⟩
  · exact hlog _ houtput a ha

theorem fillBuffer_inside {size : Int} {log : Nat → List Access}
    {s s' : Stream lib} {ok : Bool} {out : Bytes} (hs : s.Inside patch)
    (hresult : (fillBuffer lib patch fuel size log s).result =
      some (.ok (ok, out, s'))) : s'.Inside patch := by
  have htaken := fill_taken_le_avail patch fuel size s
  obtain ⟨ok', -, hvalue⟩ := Option.map_eq_some_iff.mp hresult
  cases hvalue
  obtain ⟨hlow, hhigh⟩ := hs
  refine ⟨?_, ?_⟩
  · dsimp only
    omega
  · dsimp only
    omega

theorem addOldData_within (hallows : Allows allowed patch.data.length oldStart
      oldSize source) {oldpos newpos : Int} {count : Nat} (new : Bytes)
    (hlow : 0 ≤ newpos) (hhigh : newpos + count ≤ newSize)
    (hsource : ∀ i < count, overlaps oldSize oldpos i →
      source (int32 (oldpos + i))) :
    (addOldData old oldStart oldSize oldpos newSize newpos count new).Within
      allowed := by
  intro a ha
  rw [addOldData] at ha
  obtain ⟨i, hi, ha⟩ := List.mem_flatMap.mp ha
  obtain ⟨hrange, hoverlaps⟩ := List.mem_filter.mp hi
  have hlt := List.mem_range.mp hrange
  have hthere := hsource i hlt hoverlaps
  rw [overlaps, Bool.and_eq_true, decide_eq_true_eq,
    decide_eq_true_eq] at hoverlaps
  rcases List.mem_cons.mp ha with rfl | ha
  · exact hallows.source hoverlaps.1 hoverlaps.2 hthere
  · obtain rfl := List.mem_singleton.mp ha
    exact hallows.block (Or.inr ⟨by omega, by omega⟩)

/-- Nothing wraps around. -/
theorem Straight.sum {newpos len : Int} (hlen : Straight newpos len)
    (hlow : 0 ≤ newpos) :
    int32 (newpos + len) = newpos + len ∧ uint32 len = len.toNat := by
  obtain ⟨hpos, hfits⟩ := hlen
  refine ⟨int32_of_range (by omega) (by omega), ?_⟩
  rw [uint32]
  omega

/-- A sound pass stays in its buffers. -/
theorem patchStep_within {w : Work lib}
    (hallows : Allows allowed patch.data.length oldStart oldSize source)
    (hw : w.Inside patch control blocks) (hlow : 0 ≤ w.newpos)
    (hsound : (w.pass laws patch).Sound newSize oldSize control blocks
      source) :
    (patchStep lib patch fuel old oldStart oldSize newSize w).Within
      allowed := by
  obtain ⟨hcontrol, hdiffSound, hsourceSound, hextraSound⟩ := hsound
  dsimp only [Work.pass, Pass.next] at hdiffSound hsourceSound hextraSound
  unfold patchStep
  refine TracedRun.within_bind.mpr ⟨fillBuffer_within hallows
    (fun _ => hw.cstream hcontrol) (by simp), ?_⟩
  rintro ⟨ok, buf, cs⟩ hctrl
  cases ok with
  | false => exact TracedRun.within_fail _
  | true =>
      have hlong := (fillBuffer_true laws hctrl).1
      rw [uint32_control] at hlong
      obtain ⟨hctrl0, hctrl1, hctrl2⟩ := ctrl_of_fill laws hctrl
      simp only [if_true, hctrl0, hctrl1, hctrl2]
      split
      · exact TracedRun.within_fail _
      next hfirst =>
      have hfirst' := not_lt.mp hfirst
      obtain ⟨hstraight, hblocks⟩ := hdiffSound hlong hfirst'
      obtain ⟨hafter, hsize0⟩ := hstraight.sum hlow
      have hroom : w.newpos + (w.cstream.decoded laws patch).ctrl 0 ≤
          newSize := by
        rwa [hafter] at hfirst'
      have hpos0 := hstraight.1
      refine TracedRun.within_bind.mpr ⟨fillBuffer_within hallows ?_ ?_, ?_⟩
      · intro hasked
        rw [hsize0] at hasked
        exact hw.dstream (hblocks (by omega))
      · intro len hlen a ha
        obtain rfl := List.mem_singleton.mp ha
        rw [hsize0] at hlen
        exact hallows.block (Or.inr ⟨hlow, by omega⟩)
      rintro ⟨ok, diff, ds⟩ hdiff
      cases ok with
      | false => exact TracedRun.within_fail _
      | true =>
          have hdlong := (fillBuffer_true laws hdiff).1
          have hsource := hsourceSound hlong hfirst' hdlong
          simp only [if_true]
          refine TracedRun.within_bind.mpr ⟨addOldData_within hallows _ hlow
            (by omega) fun i hi => hsource i (by omega), ?_⟩
          intro new hnew
          split
          · exact TracedRun.within_fail _
          next hsecond =>
          have hsecond' := not_lt.mp hsecond
          obtain ⟨hstraight1, hblocks1⟩ := hextraSound hlong hfirst' hdlong
            hsecond'
          obtain ⟨hend, hsize1⟩ := hstraight1.sum (by rw [hafter]; omega)
          have hpos1 := hstraight1.1
          refine TracedRun.within_bind.mpr
            ⟨fillBuffer_within hallows ?_ ?_, ?_⟩
          · intro hasked
            rw [hsize1] at hasked
            exact hw.estream (hblocks1 (by omega))
          · intro len hlen a ha
            obtain rfl := List.mem_singleton.mp ha
            rw [hsize1] at hlen
            rw [hend] at hsecond'
            exact hallows.block (Or.inr ⟨by rw [hafter]; omega, by omega⟩)
          rintro ⟨ok, extra, es⟩ hextra
          cases ok with
          | false => exact TracedRun.within_fail _
          | true => exact TracedRun.within_pure _

/-- The streams stay in the patch. -/
theorem patchStep_inside {w w' : Work lib} (hw : w.Inside patch control blocks)
    (hok : (patchStep lib patch fuel old oldStart oldSize newSize w).result =
      some (.ok w')) : w'.Inside patch control blocks := by
  unfold patchStep at hok
  obtain ⟨⟨ok, buf, cs⟩, hctrl, hok⟩ := TracedRun.ok_of_bind hok
  cases ok with
  | false => cases hok
  | true =>
      simp only [if_true] at hok
      split at hok
      · cases hok
      obtain ⟨⟨ok, diff, ds⟩, hdiff, hok⟩ := TracedRun.ok_of_bind hok
      cases ok with
      | false => cases hok
      | true =>
          simp only [if_true] at hok
          obtain ⟨new, -, hok⟩ := TracedRun.ok_of_bind hok
          split at hok
          · cases hok
          obtain ⟨⟨ok, extra, es⟩, hextra, hok⟩ := TracedRun.ok_of_bind hok
          cases ok with
          | false => cases hok
          | true =>
              cases hok
              exact ⟨fun hin => fillBuffer_inside (hw.cstream hin) hctrl,
                fun hin => fillBuffer_inside (hw.dstream hin) hdiff,
                fun hin => fillBuffer_inside (hw.estream hin) hextra⟩

theorem patchLoop_within {w : Work lib}
    (hallows : Allows allowed patch.data.length oldStart oldSize source)
    (hw : w.Inside patch control blocks) (hlow : 0 ≤ w.newpos)
    (hsound : ∀ p, Pass.Begins newSize (w.pass laws patch) p →
      p.Sound newSize oldSize control blocks source)
    (passes : Nat) :
    (patchLoop lib patch fuel old oldStart oldSize newSize passes w).Within
      allowed := by
  induction passes generalizing w with
  | zero =>
      rw [patchLoop]
      split
      · exact TracedRun.within_cutOff
      · exact TracedRun.within_pure _
  | succ passes ih =>
      rw [patchLoop]
      split
      · next hmore =>
          have hfirst := hsound _ (.now hmore)
          refine TracedRun.within_bind.mpr
            ⟨patchStep_within hallows hw hlow hfirst, ?_⟩
          intro w' hok
          have hend := patchStep_end laws patch fuel old oldStart oldSize
            newSize w
          rw [hok] at hend
          cases hend with
          | passes _ hgoes hpassed =>
              refine ih (patchStep_inside hw hok) ?_ ?_
              · obtain ⟨hstraight, -⟩ := hfirst.diff hgoes.control hgoes.first
                obtain ⟨hstraight1, -⟩ := hfirst.extra hgoes.control
                  hgoes.first hgoes.diff hgoes.second
                have hafter := (hstraight.sum hlow).1
                have hpos0 := hstraight.1
                have hpos1 := hstraight1.1
                have hafter_low : 0 ≤ int32 ((w.pass laws patch).newpos +
                    (w.pass laws patch).c.ctrl 0) := by
                  rw [hafter]
                  exact Int.add_nonneg hlow hpos0
                have hnext := (hstraight1.sum hafter_low).1
                have hsum := Int.add_nonneg hafter_low hpos1
                rw [← hnext] at hsum
                rw [hpassed.newpos]
                exact hsum
              · intro p hbegins
                rw [hpassed.pass_eq] at hbegins
                exact hsound p (.later hmore hgoes hbegins)
      · exact TracedRun.within_pure _

end Loop

section Contents

variable {lib : Decoder} (laws : lib.Laws) (patch : Memory)
  (malloc : Malloc) (oldSize : Int) (source : Int → Prop) (patchOffset : Int)

/-- The first pass of the loop. -/
def firstPass : Pass :=
  ((readHeader patch patchOffset).start lib patch patchOffset []).pass laws
    patch

/-- The control block lies in the patch. -/
def ControlInside : Prop :=
  patchOffset + 32 + (readHeader patch patchOffset).ctrlLen ≤
    patch.data.length

/-- All three blocks do. -/
def BlocksInside : Prop :=
  patchOffset + 32 + (readHeader patch patchOffset).ctrlLen +
    (readHeader patch patchOffset).dataLen ≤ patch.data.length

/-- The header of a patch lies in it, and all passes are sound. -/
structure Contained : Prop where
  offset : 0 ≤ patchOffset
  magic : patchOffset + 8 ≤ patch.data.length
  header : patch.read patchOffset 8 = ofString "BSDIFF40" →
    patchOffset + 32 ≤ patch.data.length
  passes : Accepted patch malloc patchOffset → ∀ p,
    Pass.Begins (readHeader patch patchOffset).newSize
      (firstPass laws patch patchOffset) p →
    p.Sound (readHeader patch patchOffset).newSize oldSize
      (ControlInside patch patchOffset) (BlocksInside patch patchOffset)
      source

end Contents

section Apply

variable {lib : Decoder} {laws : lib.Laws} {patch : Memory} {malloc : Malloc}
  {patchOffset : Int}

/-- The three streams begin in the patch if their blocks lie there. -/
theorem start_inside (hoffset : 0 ≤ patchOffset)
    (hgood : Accepted patch malloc patchOffset) (new : Bytes) :
    ((readHeader patch patchOffset).start lib patch patchOffset new).Inside
      patch (ControlInside patch patchOffset)
      (BlocksInside patch patchOffset) := by
  have hsize := patch.size_lt
  have hctrl := hgood.ctrlLen
  have hdata := hgood.dataLen
  unfold ControlInside BlocksInside
  generalize readHeader patch patchOffset = header at *
  refine ⟨fun hcontrol => ?_, fun hblocks => ?_, fun hblocks => ?_⟩
  · have hctrl32 : uint32 header.ctrlLen = header.ctrlLen.toNat := by
      rw [uint32]
      omega
    refine ⟨?_, ?_⟩
    all_goals simp only [Header.start, hctrl32]
    all_goals omega
  · have hdata32 : uint32 header.dataLen = header.dataLen.toNat := by
      rw [uint32]
      omega
    refine ⟨?_, ?_⟩
    all_goals simp only [Header.start, hdata32]
    all_goals omega
  · have hextra32 : uint32 ((patch.data.length : Int) -
        (patchOffset + 32 + header.ctrlLen + header.dataLen)) =
          ((patch.data.length : Int) -
            (patchOffset + 32 + header.ctrlLen + header.dataLen)).toNat := by
      rw [uint32]
      omega
    refine ⟨?_, ?_⟩
    all_goals simp only [Header.start, hextra32]
    all_goals omega

/-- `ApplyBSDiffPatchMem` stays in its buffers. -/
theorem applyBSDiffPatchMem_within {oldSize : Int} {source : Int → Prop}
    (hpatch : Contained laws patch malloc oldSize source patchOffset)
    {allowed : Access → Prop} {oldStart : Int}
    (hallows : Allows allowed patch.data.length oldStart oldSize source)
    (old : Block) (fuel : Nat) :
    (applyBSDiffPatchMem lib patch fuel malloc old oldStart oldSize
      patchOffset).Within allowed := by
  have hoffset := hpatch.offset
  have hmagic := hpatch.magic
  rw [applyBSDiffPatchMem]
  refine TracedRun.within_bind.mpr ⟨TracedRun.within_touch.mpr
    (hallows.patch (Or.inr ⟨hoffset, by omega⟩)), fun _ _ => ?_⟩
  split
  · next hfound =>
      have hheader := hpatch.header hfound
      refine TracedRun.within_bind.mpr ⟨TracedRun.within_touch.mpr
        (hallows.patch (Or.inr ⟨by omega, by omega⟩)), fun _ _ => ?_⟩
      dsimp only
      split
      · exact TracedRun.within_fail _
      next hlengths =>
      cases hnew : malloc (readHeader patch patchOffset).newSize.toNat with
      | none => exact TracedRun.within_fail _
      | some new =>
          have hgood : Accepted patch malloc patchOffset := by
            refine ⟨hfound, by omega, by omega, by omega, ?_⟩
            rw [hnew]
            rfl
          exact patchLoop_within hallows (start_inside hoffset hgood new.1)
            le_rfl (hpatch.passes hgood) fuel
  · exact TracedRun.within_fail _

theorem offtin_range (buf : Bytes) :
    -2 ^ 31 ≤ offtin buf ∧ offtin buf < 2 ^ 31 := by
  rw [offtin]
  split
  · exact int32_range _
  · cases buf.take 7 with
    | nil =>
        have hsmall := (buf.getD 7 0 &&& 0x7F).toNat_lt
        rw [List.foldr_nil]
        omega
    | cons b rest => exact int32_range _

/-- A pass goes through although a length of its triple is negative or does
not fit into an `off_t`. -/
inductive GoesAstray (newSize : Int) :
    (newpos : Int) → (c d e : Decoded) → Prop
  | now {newpos : Int} {c d e : Decoded} (hmore : newpos < newSize)
      (hgoes : Goes newSize newpos c d e)
      (hbad : (c.ctrl 0 < 0 ∨ 2 ^ 31 ≤ newpos + c.ctrl 0) ∨
        (c.ctrl 1 < 0 ∨ 2 ^ 31 ≤ int32 (newpos + c.ctrl 0) + c.ctrl 1)) :
      GoesAstray newSize newpos c d e
  | later {newpos : Int} {c d e : Decoded} (hmore : newpos < newSize)
      (hgoes : Goes newSize newpos c d e)
      (hnext : GoesAstray newSize
        (int32 (int32 (newpos + c.ctrl 0) + c.ctrl 1)) (c.skip 24)
        (d.skip (uint32 (c.ctrl 0))) (e.skip (uint32 (c.ctrl 1)))) :
      GoesAstray newSize newpos c d e

/-- A request for a length that is not right leaves the new file. -/
theorem not_inside_of_bad {newSize newpos ctrl : Int} (hlow : 0 ≤ newpos)
    (hhigh : newpos ≤ newSize) (hsize : newSize < 2 ^ 31)
    (hrange : -2 ^ 31 ≤ ctrl ∧ ctrl < 2 ^ 31)
    (hbad : ctrl < 0 ∨ 2 ^ 31 ≤ newpos + ctrl) :
    ¬ Inside newSize newpos (uint32 ctrl) := by
  rw [Inside, uint32]
  omega

section Converse

variable {fuel : Nat} {old : Block} {oldStart oldSize newSize : Int}
  {patchSize sourceSize : Nat}

/-- A request that is met touches all it asks for. -/
theorem fillBuffer_writes (laws : lib.Laws) {allowed : Access → Prop}
    {size : Int} {log : Nat → List Access} {s s' : Stream lib} {out : Bytes}
    (hok : (fillBuffer lib patch fuel size log s).result =
      some (.ok (true, out, s')))
    (hwithin : (fillBuffer lib patch fuel size log s).Within allowed) :
    ∀ a ∈ log (uint32 size), allowed a := by
  obtain ⟨hlong, hout, -, -⟩ := fillBuffer_true laws hok
  obtain ⟨ok, -, hvalue⟩ := Option.map_eq_some_iff.mp hok
  have hfilled : (lib.fill fuel s.state (s.input lib patch)
      (uint32 size)).output = out := by
    simp only [Except.ok.injEq, Prod.mk.injEq] at hvalue
    exact hvalue.2.1
  have hlength : out.length = uint32 size := by
    rw [hout, List.length_take]
    omega
  intro a ha
  refine hwithin a (List.mem_cons_of_mem _ ?_)
  rw [hfilled, hlength]
  exact ha

/-- What a pass that goes through writes. -/
theorem patchStep_writes (laws : lib.Laws) {w w' : Work lib}
    (hok : (patchStep lib patch fuel old oldStart oldSize newSize w).result =
      some (.ok w'))
    (hwithin : (patchStep lib patch fuel old oldStart oldSize newSize w).Within
      (Access.InBounds patchSize sourceSize)) :
    Inside newSize w.newpos
        (uint32 ((w.cstream.decoded laws patch).ctrl 0)) ∧
      Inside newSize
        (int32 (w.newpos + (w.cstream.decoded laws patch).ctrl 0))
        (uint32 ((w.cstream.decoded laws patch).ctrl 1)) := by
  unfold patchStep at hok hwithin
  obtain ⟨⟨ok, buf, cs⟩, hctrl, hok⟩ := TracedRun.ok_of_bind hok
  replace hwithin := (TracedRun.within_bind.mp hwithin).2 _ hctrl
  cases ok with
  | false => cases hok
  | true =>
      obtain ⟨hctrl0, hctrl1, hctrl2⟩ := ctrl_of_fill laws hctrl
      simp only [if_true, hctrl0, hctrl1, hctrl2] at hok hwithin
      split at hok
      · cases hok
      next hfirst =>
      rw [if_neg hfirst] at hwithin
      obtain ⟨⟨ok, diff, ds⟩, hdiff, hok⟩ := TracedRun.ok_of_bind hok
      obtain ⟨hdiffWithin, hrest⟩ := TracedRun.within_bind.mp hwithin
      replace hwithin := hrest _ hdiff
      cases ok with
      | false => cases hok
      | true =>
          simp only [if_true] at hok hwithin
          obtain ⟨new, hnew, hok⟩ := TracedRun.ok_of_bind hok
          replace hwithin := (TracedRun.within_bind.mp hwithin).2 _ hnew
          split at hok
          · cases hok
          next hsecond =>
          rw [if_neg hsecond] at hwithin
          obtain ⟨⟨ok, extra, es⟩, hextra, hok⟩ := TracedRun.ok_of_bind hok
          have hextraWithin := (TracedRun.within_bind.mp hwithin).1
          cases ok with
          | false => cases hok
          | true =>
              exact ⟨fillBuffer_writes laws hdiff hdiffWithin _
                  (List.mem_singleton_self _),
                fillBuffer_writes laws hextra hextraWithin _
                  (List.mem_singleton_self _)⟩

/-- A pass that goes astray leaves the new file. -/
theorem patchStep_astray {w w' : Work lib} (hlow : 0 ≤ w.newpos)
    (hmore : w.newpos < newSize) (hsize : newSize < 2 ^ 31)
    (hgoes : Goes newSize w.newpos (w.cstream.decoded laws patch)
      (w.dstream.decoded laws patch) (w.estream.decoded laws patch))
    (hok : (patchStep lib patch fuel old oldStart oldSize newSize w).result =
      some (.ok w'))
    (hwithin : (patchStep lib patch fuel old oldStart oldSize newSize w).Within
      (Access.InBounds patchSize sourceSize)) :
    ¬ ((w.cstream.decoded laws patch).ctrl 0 < 0 ∨
        2 ^ 31 ≤ w.newpos + (w.cstream.decoded laws patch).ctrl 0) ∧
      ¬ ((w.cstream.decoded laws patch).ctrl 1 < 0 ∨
        2 ^ 31 ≤ int32 (w.newpos + (w.cstream.decoded laws patch).ctrl 0) +
          (w.cstream.decoded laws patch).ctrl 1) := by
  obtain ⟨hdiff, hextra⟩ := patchStep_writes laws hok hwithin
  have hrange0 := offtin_range
    ((w.cstream.decoded laws patch).data.window (8 * 0) 8)
  have hrange1 := offtin_range
    ((w.cstream.decoded laws patch).data.window (8 * 1) 8)
  have hgood : ¬ ((w.cstream.decoded laws patch).ctrl 0 < 0 ∨
      2 ^ 31 ≤ w.newpos + (w.cstream.decoded laws patch).ctrl 0) :=
    fun hbad => not_inside_of_bad hlow hmore.le hsize hrange0 hbad hdiff
  refine ⟨hgood, fun hbad => ?_⟩
  refine not_inside_of_bad ?_ hgoes.first hsize hrange1 hbad hextra
  generalize (w.cstream.decoded laws patch).ctrl 0 = ctrl at hgood
  rw [int32_of_range (by omega) (by omega)]
  omega

/-- With enough fuel the loop comes to the pass that goes astray. -/
theorem patchLoop_astray {w : Work lib} (hlow : 0 ≤ w.newpos)
    (hsize : newSize < 2 ^ 31)
    (hastray : GoesAstray newSize w.newpos (w.cstream.decoded laws patch)
      (w.dstream.decoded laws patch) (w.estream.decoded laws patch))
    (hfuel : w.Fueled fuel) {passes : Nat}
    (hpasses : (w.cstream.decoded laws patch).data.length < passes) :
    ¬ (patchLoop lib patch fuel old oldStart oldSize newSize passes w).Within
      (Access.InBounds patchSize sourceSize) := by
  intro hwithin
  induction passes generalizing w with
  | zero => omega
  | succ passes ih =>
      have hmore : w.newpos < newSize := by
        rcases hastray with ⟨hmore, -⟩ | ⟨hmore, -⟩ <;> exact hmore
      have hgoes : Goes newSize w.newpos (w.cstream.decoded laws patch)
          (w.dstream.decoded laws patch) (w.estream.decoded laws patch) := by
        rcases hastray with ⟨-, hgoes, -⟩ | ⟨-, hgoes, -⟩ <;> exact hgoes
      rw [patchLoop, if_pos hmore] at hwithin
      obtain ⟨hstepWithin, hrest⟩ := TracedRun.within_bind.mp hwithin
      have hends : (patchStep lib patch fuel old oldStart oldSize newSize
          w).result ≠ none :=
        patchStep_ends laws hfuel hgoes.not_hangs
      have hend := patchStep_end laws patch fuel old oldStart oldSize newSize w
      cases hresult : (patchStep lib patch fuel old oldStart oldSize newSize
          w).result with
      | none => exact hends hresult
      | some result =>
          rw [hresult] at hend
          cases hend with
          | fails message hnot _ => exact hnot hgoes
          | passes w' _ hpassed =>
              obtain ⟨hgood0, hgood1⟩ := patchStep_astray hlow hmore hsize
                hgoes hresult hstepWithin
              rcases hastray with ⟨-, -, hbad | hbad⟩ | ⟨-, -, hnext⟩
              · exact hgood0 hbad
              · exact hgood1 hbad
              · obtain ⟨hcavail, hdavail, heavail⟩ := hpassed.avail
                obtain ⟨hcfuel, hdfuel, hefuel⟩ := hfuel
                have hlong := hgoes.control
                refine ih ?_ ?_ ⟨by omega, by omega, by omega⟩ ?_
                  (hrest w' hresult)
                · rw [hpassed.newpos]
                  generalize (w.cstream.decoded laws patch).ctrl 0 = ctrl0
                    at hgood0 hgood1 ⊢
                  generalize (w.cstream.decoded laws patch).ctrl 1 = ctrl1
                    at hgood1 ⊢
                  have hafter : int32 (w.newpos + ctrl0) = w.newpos + ctrl0 :=
                    int32_of_range (by omega) (by omega)
                  rw [hafter] at hgood1 ⊢
                  rw [int32_of_range (by omega) (by omega)]
                  omega
                · rw [hpassed.newpos, hpassed.cstream, hpassed.dstream,
                    hpassed.estream]
                  exact hnext
                · rw [hpassed.cstream, Decoded.skip, List.length_drop]
                  omega

end Converse

/-- A patch that stays in bounds has its header in the patch, and no pass goes
astray. -/
structure Bounded {lib : Decoder} (laws : lib.Laws) (patch : Memory)
    (malloc : Malloc) (patchOffset : Int) : Prop where
  offset : 0 ≤ patchOffset
  magic : patchOffset + 8 ≤ patch.data.length
  header : patch.read patchOffset 8 = ofString "BSDIFF40" →
    patchOffset + 32 ≤ patch.data.length
  triples : Accepted patch malloc patchOffset →
    ¬ GoesAstray (readHeader patch patchOffset).newSize 0
      (((readHeader patch patchOffset).start lib patch patchOffset
        []).cstream.decoded laws patch)
      (((readHeader patch patchOffset).start lib patch patchOffset
        []).dstream.decoded laws patch)
      (((readHeader patch patchOffset).start lib patch patchOffset
        []).estream.decoded laws patch)

/-- What an accepted patch touches in the loop. -/
theorem within_of_accepted {old : Block} {oldStart oldSize : Int} {fuel : Nat}
    {allowed : Access → Prop} (hgood : Accepted patch malloc patchOffset)
    (hwithin : (applyBSDiffPatchMem lib patch fuel malloc old oldStart oldSize
      patchOffset).Within allowed) :
    ∃ new : Bytes, (patchLoop lib patch fuel old oldStart oldSize
      (readHeader patch patchOffset).newSize fuel
      ((readHeader patch patchOffset).start lib patch patchOffset new)).Within
        allowed := by
  obtain ⟨hmagic, hctrl, hdata, hsize, hmemory⟩ := hgood
  obtain ⟨new, hnew⟩ := Option.isSome_iff_exists.mp hmemory
  refine ⟨new.1, ?_⟩
  rw [applyBSDiffPatchMem] at hwithin
  replace hwithin := (TracedRun.within_bind.mp hwithin).2 () rfl
  rw [if_pos hmagic] at hwithin
  replace hwithin := (TracedRun.within_bind.mp hwithin).2 () rfl
  dsimp only at hwithin
  rw [if_neg (by omega), hnew] at hwithin
  exact hwithin

theorem bounded_of_within {old : Block} {oldStart oldSize : Int}
    {sourceSize : Nat}
    (hwithin : ∀ fuel, (applyBSDiffPatchMem lib patch fuel malloc old oldStart
      oldSize patchOffset).Within
        (Access.InBounds patch.data.length sourceSize)) :
    Bounded laws patch malloc patchOffset := by
  have hmagic : Inside patch.data.length patchOffset 8 := by
    have hzero := hwithin 0
    rw [applyBSDiffPatchMem] at hzero
    have htouch := TracedRun.within_touch.mp (TracedRun.within_bind.mp hzero).1
    exact htouch
  obtain ⟨hoffset, hmagic⟩ := hmagic.resolve_left (by decide)
  refine ⟨hoffset, hmagic, ?_, ?_⟩
  · intro hfound
    have hheader : Inside patch.data.length (patchOffset + 8) 24 := by
      have hzero := hwithin 0
      rw [applyBSDiffPatchMem] at hzero
      replace hzero := (TracedRun.within_bind.mp hzero).2 () rfl
      rw [if_pos hfound] at hzero
      have htouch :=
        TracedRun.within_touch.mp (TracedRun.within_bind.mp hzero).1
      exact htouch
    have hend := (hheader.resolve_left (by decide)).2
    push_cast at hend
    omega
  · intro hgood hastray
    let w := (readHeader patch patchOffset).start lib patch patchOffset []
    let fuel := w.cstream.availIn + w.dstream.availIn + w.estream.availIn +
      (w.cstream.decoded laws patch).data.length + 2 ^ 32 + 1
    obtain ⟨new, hloop⟩ := within_of_accepted hgood (hwithin fuel)
    have hastray' : GoesAstray (readHeader patch patchOffset).newSize
        ((readHeader patch patchOffset).start lib patch patchOffset
          new).newpos _ _ _ := hastray
    refine patchLoop_astray le_rfl (offtin_range _).2 hastray' ?_ ?_ hloop
    · exact ⟨show w.cstream.availIn + 2 ^ 32 ≤ fuel by omega,
        show w.dstream.availIn + 2 ^ 32 ≤ fuel by omega,
        show w.estream.availIn + 2 ^ 32 ≤ fuel by omega⟩
    · exact show (w.cstream.decoded laws patch).data.length < fuel by omega

end Apply

end Bspatch

end MetaOS
