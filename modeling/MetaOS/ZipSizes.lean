/-
minzip/Zip.c: whether an entry hands out as many bytes as it declares.

A stored entry is never compared with its declared length; a deflated one is
compared when it is over, and its failures give the length -1.  The function
that fills a buffer copies whatever it is given.
-/
import MetaOS.ZipDelivery

namespace MetaOS

namespace MinZip

variable (lib : Decoder) (file stack : Bytes) (entry : ZipEntry) (pos : Nat)

/-- The stored or inflated content of an entry. -/
def HasContents (data : Bytes) : Prop :=
  0 ≤ entry.offset ∧
    (entry.compression = STORED ∧
      data = file.window entry.offset.toNat (toSize entry.compLen) ∧
      data.length = toSize entry.compLen ∨
    entry.compression = DEFLATED ∧ 0 ≤ entry.compLen ∧
      lib.Unpacks lib.init
        (file.window entry.offset.toNat entry.compLen.toNat) data)

/-- A true result means that the caller's function got the content, in the
declared length, and the buffer of a caller is not written beyond it.  The
archive's descriptor stands at `pos` before. -/
structure DeliversDeclaredSize : Prop where
  contents (calls : Nat) :
    Prog.Safe (answers file) (fun _ => True)
      (fun r after => r = some (true, ()) →
        HasContents lib file entry after.received ∧
          (after.received.length : Int) = entry.uncompLen)
      (mzProcessZipEntryContents callerFunction stack calls lib entry ())
      (World.start pos)
  buffer (calls : Nat) :
    Prog.Safe (answers file)
      (fun w => w.buffer.length ≤ entry.uncompLen.toNat) (fun _ _ => True)
      (mzExtractZipEntryToBuffer stack calls lib entry) (World.start pos)

/-- Where the data of the entry is read. -/
def readingStart : Nat :=
  if 0 ≤ entry.offset then entry.offset.toNat else pos

/-- The declared length against the data itself. -/
def SizesAgree : Prop :=
  if entry.compression = STORED then
    if toSize entry.compLen ≤ file.length - readingStart entry pos then
      0 ≤ entry.offset ∧ (toSize entry.compLen : Int) = entry.uncompLen
    else
      bufSize * ((file.length - readingStart entry pos) / bufSize) ≤
        entry.uncompLen.toNat
  else if entry.compression = DEFLATED then
    entry.uncompLen ≠ -1 ∧
      ∀ calls data finished,
        inflated file stack calls (ZStream.init lib) entry.compLen
          (readingStart entry pos) = (data, finished) →
        data.length ≤ entry.uncompLen.toNat ∧
          (finished = some true → toLong data.length = entry.uncompLen →
            0 ≤ entry.offset ∧ 0 ≤ entry.compLen)
  else True

section Unpacking

variable {lib file stack pos}

/-- A refill moves input from the file to the stream. -/
theorem refilled_rest {z z' : ZStream lib} {compRemaining left : Int}
    {pos' : Nat} (hnonneg : 0 ≤ compRemaining)
    (hsome : refilled file stack z compRemaining pos = some (z', left, pos')) :
    0 ≤ left ∧ z'.input ++ file.window pos' left.toNat =
      z.input ++ file.window pos compRemaining.toNat := by
  unfold refilled at hsome
  split at hsome
  next =>
    cases hsome
    exact ⟨hnonneg, rfl⟩
  next hinput =>
    have hbounds : 0 ≤ (if (bufSize : Int) < compRemaining then (bufSize : Int)
        else compRemaining) ∧
        (if (bufSize : Int) < compRemaining then (bufSize : Int)
          else compRemaining) ≤ compRemaining := by
      split <;> omega
    generalize (if (bufSize : Int) < compRemaining then (bufSize : Int)
      else compRemaining) = getSize at hsome hbounds
    obtain ⟨hsize, hle⟩ := hbounds
    dsimp only at hsome
    rw [if_neg (by omega)] at hsome
    split at hsome
    next hfull =>
      cases hsome
      refine ⟨by omega, ?_⟩
      have hlength : (file.window pos getSize.toNat).length =
          getSize.toNat := by omega
      rw [not_not.mp hinput, List.nil_append]
      dsimp only
      rw [hlength, ← window_add]
      congr 1
      omega
    next => cases hsome

/-- What has come out of a stream that is over is what it unpacks to. -/
theorem inflated_unpacks {calls : Nat} {z : ZStream lib}
    {compRemaining : Int} {data : Bytes} (hnonneg : 0 ≤ compRemaining)
    (hdata : inflated file stack calls z compRemaining pos =
      (data, some true)) :
    ∃ rest, data = z.procBuf ++ rest ∧
      lib.Unpacks z.state
        (z.input ++ file.window pos compRemaining.toNat) rest := by
  induction calls generalizing z compRemaining pos data with
  | zero => cases hdata
  | succ calls ih =>
      rw [inflated] at hdata
      cases hrefilled : refilled file stack z compRemaining pos with
      | none =>
          rw [hrefilled] at hdata
          cases hdata
      | some filled =>
          obtain ⟨z', left, pos'⟩ := filled
          obtain ⟨hstate, hprocBuf, -⟩ := refilled_same hrefilled
          obtain ⟨hleft, hrest⟩ := refilled_rest hnonneg hrefilled
          rw [hrefilled] at hdata
          rw [← hrest, ← hstate, ← hprocBuf]
          dsimp only at hdata
          cases hstatus : (lib.decompress z'.state z'.input
              (bufSize - z'.procBuf.length)).status with
          | error code =>
              rw [hstatus] at hdata
              cases hdata
          | streamEnd =>
              rw [hstatus] at hdata
              cases hdata
              exact ⟨_, rfl, .last _ hstatus⟩
          | ok =>
              rw [hstatus] at hdata
              dsimp only at hdata
              split at hdata
              next =>
                generalize hnext : inflated file stack calls _ left pos' =
                  next at hdata
                obtain ⟨out, finished⟩ := next
                cases hdata
                obtain ⟨rest, rfl, hunpacks⟩ := ih hleft hnext
                refine ⟨_, ?_, .more _ hstatus hunpacks⟩
                exact List.append_assoc _ _ _
              next =>
                obtain ⟨rest, hsame, hunpacks⟩ := ih hleft hdata
                refine ⟨_, ?_, .more _ hstatus hunpacks⟩
                rw [hsame, List.append_assoc]

end Unpacking

section Runs

variable {lib file stack entry pos}

theorem seek_start :
    ((World.start pos).seek entry.offset).pos = readingStart entry pos := by
  unfold World.seek readingStart
  split <;> rfl

/-- A function of the caller gets what the entry hands out. -/
theorem callerFunction_consumes (file whole : Bytes) :
    Consumes file (fun _ => True) (fun _ _ => True) (fun _ => World.received)
      whole
      callerFunction where
  now _ := trivial
  move _ _ := trivial
  got_move _ _ _ := rfl
  step _ _ := by
    rw [callerFunction, Prog.perform_bind]
    refine ⟨trivial, ?_⟩
    rintro r after rfl
    exact ⟨trivial, trivial, rfl, fun _ => rfl⟩

theorem callerFunction_swallows :
    Swallows file World.received callerFunction :=
  fun _ _ _ => ⟨_, _, rfl, rfl, rfl⟩

/-- The buffer holds what was handed out, and so no more than all of it. -/
theorem bufferProcessFunction_consumes (file : Bytes) {whole : Bytes}
    {room : Nat} (hroom : whole.length ≤ room) :
    Consumes file (fun w => w.buffer.length ≤ room)
      (fun _ w => w.buffer <+: whole) (fun _ => World.buffer) whole
      bufferProcessFunction where
  now hkeeps := hkeeps.length_le.trans hroom
  move _ hkeeps := hkeeps
  got_move _ _ _ := rfl
  step hkeeps hfront := by
    rw [bufferProcessFunction, Prog.perform_bind]
    refine ⟨hkeeps.length_le.trans hroom, ?_⟩
    rintro - after rfl
    exact ⟨hfront.length_le.trans hroom, hfront, rfl, fun _ => rfl⟩

theorem bufferProcessFunction_swallows :
    Swallows file World.buffer bufferProcessFunction :=
  fun _ _ _ => ⟨_, _, rfl, rfl, rfl⟩

/-- An entry that never hands out too much does not overrun the buffer. -/
theorem buffer_safe {calls room : Nat}
    (hroom : (delivered file stack calls lib entry
      (readingStart entry pos)).1.length ≤ room) :
    Prog.Safe (answers file) (fun w => w.buffer.length ≤ room)
      (fun _ _ => True) (mzExtractZipEntryToBuffer stack calls lib entry)
      (World.start pos) := by
  have hconsumes := bufferProcessFunction_consumes file hroom
  have hempty : (World.start pos).buffer <+: (delivered file stack calls lib
      entry (readingStart entry pos)).1 := List.nil_prefix
  apply Prog.Safe.bind (mzProcessZipEntryContents_safe hconsumes hempty ?_)
  · intro r after hinv _
    cases r with
    | none => exact ⟨hinv, trivial⟩
    | some answer => exact ⟨hinv, trivial⟩
  · rw [seek_start]
    exact List.prefix_rfl

/-- When nothing fails, the buffer gets all that is handed out. -/
theorem buffer_eval (lib : Decoder) (file stack : Bytes) (entry : ZipEntry)
    (pos calls : Nat) :
    ∃ r after, (mzExtractZipEntryToBuffer stack calls lib entry).eval
        (smooth file) (World.start pos) = (r, after) ∧
      after.buffer = (delivered file stack calls lib entry
        (readingStart entry pos)).1 := by
  obtain ⟨r, after, hrun, hbuffer, -⟩ := mzProcessZipEntryContents_eval stack
    calls lib entry bufferProcessFunction_swallows (fun _ _ => rfl)
    entry.uncompLen (World.start pos)
  rw [mzExtractZipEntryToBuffer, Prog.eval_bind, hrun]
  rw [seek_start] at hbuffer
  cases r with
  | none => exact ⟨_, _, rfl, hbuffer⟩
  | some answer => exact ⟨_, _, rfl, hbuffer⟩

theorem DeliversDeclaredSize.length_le
    (hdelivers : DeliversDeclaredSize lib file stack entry pos) (calls : Nat) :
    (delivered file stack calls lib entry
      (readingStart entry pos)).1.length ≤ entry.uncompLen.toNat := by
  obtain ⟨r, after, hrun, hbuffer⟩ :=
    buffer_eval lib file stack entry pos calls
  have hreaches := Prog.reaches_eval (smooth file) (smooth_allowed file)
    (mzExtractZipEntryToBuffer stack calls lib entry) (World.start pos)
  rw [hrun] at hreaches
  have hinv := (hdelivers.buffer calls).inv_of_reaches hreaches
  rwa [hbuffer] at hinv

/-- When nothing fails, the caller's function gets all that is handed out, and
the result is true if that is of the declared length. -/
theorem DeliversDeclaredSize.contents_of_delivered
    (hdelivers : DeliversDeclaredSize lib file stack entry pos) {calls : Nat}
    {data : Bytes} (hdata : delivered file stack calls lib entry
      (readingStart entry pos) = (data, some true))
    (hlength : entry.compression = DEFLATED →
      toLong data.length = entry.uncompLen) :
    HasContents lib file entry data ∧
      (data.length : Int) = entry.uncompLen := by
  obtain ⟨r, after, hrun, hreceived, hend⟩ := mzProcessZipEntryContents_eval
    stack calls lib entry callerFunction_swallows (fun _ _ => rfl) ()
    (World.start pos)
  have hreaches := Prog.reaches_eval (smooth file) (smooth_allowed file)
    (mzProcessZipEntryContents callerFunction stack calls lib entry ())
    (World.start pos)
  rw [seek_start, hdata] at hreceived hend
  obtain ⟨cookie, rfl⟩ := hend rfl hlength
  rw [hrun] at hreaches
  have hpost := (hdelivers.contents calls).post_of_reaches hreaches rfl
  rw [hreceived] at hpost
  exact hpost

/-- With a declared length of -1, a failure is taken for a success. -/
theorem DeliversDeclaredSize.not_takesFailures
    (hdelivers : DeliversDeclaredSize lib file stack entry pos) :
    ¬entry.TakesFailures := by
  rintro ⟨hdeflated, hminus⟩
  have hsafe := hdelivers.contents 0
  rw [mzProcessZipEntryContents, Prog.perform_bind] at hsafe
  have hsought := hsafe.2 _ _ ⟨rfl, rfl⟩
  dsimp only at hsought
  rw [Prog.perform_bind] at hsought
  have hentry := hsought.2 () _ rfl
  rw [processEntry, if_neg (by rw [hdeflated]; decide), if_pos hdeflated,
    processDeflatedEntry, Prog.perform_bind] at hentry
  have hback := hentry.2 false _ rfl
  have hend := hback.2 () _ rfl
  have hlength := (hend.2 ?_).2
  · rw [hminus] at hlength
    omega
  · rw [hminus]
    rfl

theorem storedData_length (file : Bytes) (start size : Nat) :
    (storedData file start size).length =
      if size ≤ file.length - start then size
      else bufSize * ((file.length - start) / bufSize) := by
  have hle := Nat.mul_div_le (file.length - start) bufSize
  unfold storedData
  split
  next hfits => rw [Bytes.window_length, Nat.min_eq_left hfits]
  next => rw [Bytes.window_length, Nat.min_eq_left hle]

theorem eq_of_toLong {n : Nat} {declared : Int} (hle : n ≤ declared.toNat)
    (hlong : toLong n = declared) : (n : Int) = declared := by
  unfold toLong at hlong
  split at hlong
  next => omega
  next => omega

theorem SizesAgree.length_le (hagree : SizesAgree lib file stack entry pos)
    (calls : Nat) :
    (delivered file stack calls lib entry
      (readingStart entry pos)).1.length ≤ entry.uncompLen.toNat := by
  unfold SizesAgree at hagree
  by_cases hstored : entry.compression = STORED
  · rw [if_pos hstored] at hagree
    rw [delivered_stored hstored, storedData_length]
    split at hagree
    next hfits =>
      rw [if_pos hfits]
      omega
    next hshort =>
      rw [if_neg hshort]
      exact hagree
  · rw [if_neg hstored] at hagree
    by_cases hdeflated : entry.compression = DEFLATED
    · rw [if_pos hdeflated] at hagree
      rw [delivered_deflated hdeflated]
      exact (hagree.2 calls _ _ rfl).1
    · rw [delivered, if_neg hstored, if_neg hdeflated]
      exact Nat.zero_le _

/-- A read of less than -1 bytes does not pass for a success. -/
theorem inflated_started {calls start : Nat} {data : Bytes}
    (hminus : entry.compLen ≠ -1)
    (hdata : inflated file stack calls (ZStream.init lib) entry.compLen start =
      (data, some true)) : 0 ≤ entry.compLen := by
  by_contra hneg
  cases calls with
  | zero => cases hdata
  | succ calls =>
      have hrefill : refilled file stack (ZStream.init lib) entry.compLen
          start = none := by
        unfold refilled
        have hinput : ¬(ZStream.init lib).input ≠ [] := not_not.mpr rfl
        have hsmall : ¬(bufSize : Int) < entry.compLen := by omega
        rw [if_neg hinput, if_neg hsmall]
        dsimp only
        rw [if_pos (by omega), if_neg hminus]
      rw [inflated, hrefill] at hdata
      cases hdata

/-- What an entry has handed out when all went well is its content, if it was
read from the right place. -/
theorem hasContents_of_delivered {calls : Nat} {data : Bytes}
    (hoffset : 0 ≤ entry.offset)
    (hminus : entry.compression = DEFLATED → entry.compLen ≠ -1)
    (hdata : delivered file stack calls lib entry entry.offset.toNat =
      (data, some true)) : HasContents lib file entry data := by
  by_cases hstored : entry.compression = STORED
  · rw [delivered_stored hstored] at hdata
    obtain ⟨hwhole, hfits⟩ := Prod.mk.inj hdata
    have hfits := of_decide_eq_true (Option.some_inj.mp hfits)
    have hsize := storedData_length file entry.offset.toNat
      (toSize entry.compLen)
    rw [hwhole, if_pos hfits] at hsize
    rw [storedData, if_pos hfits] at hwhole
    exact ⟨hoffset, .inl ⟨hstored, hwhole.symm, hsize⟩⟩
  · by_cases hdeflated : entry.compression = DEFLATED
    · rw [delivered_deflated hdeflated] at hdata
      have hcompLen := inflated_started (hminus hdeflated) hdata
      obtain ⟨rest, rfl, hunpacks⟩ := inflated_unpacks hcompLen hdata
      exact ⟨hoffset, .inr ⟨hdeflated, hcompLen, hunpacks⟩⟩
    · rw [delivered, if_neg hstored, if_neg hdeflated] at hdata
      cases hdata

/-- If all was handed out and accepted, it is the content in the declared
length. -/
theorem SizesAgree.contents (hagree : SizesAgree lib file stack entry pos)
    {calls : Nat} {data : Bytes}
    (hdata : delivered file stack calls lib entry
      (readingStart entry pos) = (data, some true))
    (hlength : entry.compression = DEFLATED →
      toLong data.length = entry.uncompLen) :
    HasContents lib file entry data ∧
      (data.length : Int) = entry.uncompLen := by
  have hle := hagree.length_le calls
  rw [hdata] at hle
  have hcontents : 0 ≤ entry.offset →
      (entry.compression = DEFLATED → entry.compLen ≠ -1) →
      HasContents lib file entry data := by
    intro hoffset hminus
    rw [readingStart, if_pos hoffset] at hdata
    exact hasContents_of_delivered hoffset hminus hdata
  unfold SizesAgree at hagree
  by_cases hstored : entry.compression = STORED
  · rw [if_pos hstored] at hagree
    rw [delivered_stored hstored] at hdata
    obtain ⟨hwhole, hfits⟩ := Prod.mk.inj hdata
    have hfits := of_decide_eq_true (Option.some_inj.mp hfits)
    have hsize := storedData_length file (readingStart entry pos)
      (toSize entry.compLen)
    rw [hwhole, if_pos hfits] at hsize
    rw [if_pos hfits] at hagree
    refine ⟨hcontents hagree.1 ?_, hsize ▸ hagree.2⟩
    intro hdeflated
    rw [hstored] at hdeflated
    exact absurd hdeflated (by decide)
  · rw [if_neg hstored] at hagree
    by_cases hdeflated : entry.compression = DEFLATED
    · rw [if_pos hdeflated] at hagree
      rw [delivered_deflated hdeflated] at hdata
      have hlong := hlength hdeflated
      obtain ⟨hoffset, hcompLen⟩ := (hagree.2 calls _ _ hdata).2 rfl hlong
      exact ⟨hcontents hoffset fun _ => by omega, eq_of_toLong hle hlong⟩
    · rw [delivered, if_neg hstored, if_neg hdeflated] at hdata
      cases hdata

theorem SizesAgree.contents_safe
    (hagree : SizesAgree lib file stack entry pos) (calls : Nat) :
    Prog.Safe (answers file) (fun _ => True)
      (fun r after => r = some (true, ()) →
        HasContents lib file entry after.received ∧
          (after.received.length : Int) = entry.uncompLen)
      (mzProcessZipEntryContents callerFunction stack calls lib entry ())
      (World.start pos) := by
  have hconsumes := callerFunction_consumes file
    (delivered file stack calls lib entry (readingStart entry pos)).1
  apply (mzProcessZipEntryContents_safe hconsumes trivial ?_).mono
    (fun _ h => h)
  · rintro r after - hend htrue
    obtain ⟨-, hall⟩ := hend true () htrue
    have hnot : ¬entry.TakesFailures := by
      rintro ⟨hdeflated, hminus⟩
      unfold SizesAgree at hagree
      rw [if_neg (by rw [hdeflated]; decide), if_pos hdeflated] at hagree
      exact hagree.1 hminus
    obtain ⟨hfinished, hreceived, hlong⟩ := hall rfl hnot
    rw [seek_start] at hfinished hreceived hlong
    have hreceived : after.received = (delivered file stack calls lib entry
        (readingStart entry pos)).1 := hreceived
    rw [hreceived]
    exact hagree.contents (Prod.ext rfl hfinished) hlong
  · rw [seek_start]
    exact List.prefix_rfl

/-- What the runs without a failure say about the sizes. -/
theorem DeliversDeclaredSize.sizesAgree
    (hdelivers : DeliversDeclaredSize lib file stack entry pos) :
    SizesAgree lib file stack entry pos := by
  unfold SizesAgree
  by_cases hstored : entry.compression = STORED
  · rw [if_pos hstored]
    have hnot : ¬entry.compression = DEFLATED := by
      rw [hstored]
      decide
    have hle := hdelivers.length_le 0
    have hsize := storedData_length file (readingStart entry pos)
      (toSize entry.compLen)
    rw [delivered_stored hstored, hsize] at hle
    split
    next hfits =>
      have hdata : delivered file stack 0 lib entry (readingStart entry pos) =
          (storedData file (readingStart entry pos) (toSize entry.compLen),
            some true) := by
        rw [delivered_stored hstored, decide_eq_true hfits]
      obtain ⟨hcontents, hlength⟩ :=
        hdelivers.contents_of_delivered hdata fun h => absurd h hnot
      rw [hsize, if_pos hfits] at hlength
      exact ⟨hcontents.1, hlength⟩
    next hshort =>
      rw [if_neg hshort] at hle
      exact hle
  · rw [if_neg hstored]
    by_cases hdeflated : entry.compression = DEFLATED
    · rw [if_pos hdeflated]
      refine ⟨fun hminus => ?_, ?_⟩
      · exact hdelivers.not_takesFailures ⟨hdeflated, hminus⟩
      · intro calls data finished hdata
        have hle := hdelivers.length_le calls
        rw [delivered_deflated hdeflated, hdata] at hle
        refine ⟨hle, ?_⟩
        rintro rfl hlong
        obtain ⟨⟨hoffset, hcontents⟩, -⟩ := hdelivers.contents_of_delivered
          ((delivered_deflated hdeflated _).trans hdata) fun _ => hlong
        obtain ⟨hstored', -⟩ | ⟨-, hcompLen, -⟩ := hcontents
        · exact absurd hstored' hstored
        · exact ⟨hoffset, hcompLen⟩
    · rw [if_neg hdeflated]
      trivial

/-- An entry delivers its declared size exactly if that agrees with its
data. -/
theorem delivers_declared_iff (lib : Decoder) (file stack : Bytes)
    (entry : ZipEntry) (pos : Nat) :
    DeliversDeclaredSize lib file stack entry pos ↔
      SizesAgree lib file stack entry pos := by
  constructor
  · intro hdelivers
    exact hdelivers.sizesAgree
  · intro hagree
    constructor
    · intro calls
      exact hagree.contents_safe calls
    · intro calls
      exact buffer_safe (hagree.length_le calls)

end Runs

namespace ZipSizesWitness

/-- An archive of one stored entry, three bytes that are declared as two. -/
def short : MemMapping where
  addr := 0x40000000
  file :=
    [0x50, 0x4b, 3, 4] ++ List.replicate 22 0 ++ [1, 0, 0, 0, 97] ++
      [120, 121, 122] ++
      ([0x50, 0x4b, 1, 2] ++ List.replicate 16 0 ++ [3, 0, 0, 0] ++
        [2, 0, 0, 0] ++ [1, 0] ++ List.replicate 16 0 ++ [97]) ++
      ([0x50, 0x4b, 5, 6, 0, 0, 0, 0, 1, 0, 1, 0] ++
        [47, 0, 0, 0, 34, 0, 0, 0] ++ [0, 0])

def shortEntry : ZipEntry := ⟨[97], 31, 3, 2, STORED, 0, 0, 0, 0⟩

theorem parse_short :
    parseZipArchive short = some ⟨[shortEntry], [shortEntry]⟩ := by
  decide +kernel

/-- A decoder that no entry needs. -/
def refusing : Decoder where
  State := Unit
  init := ()
  decompress _ _ _ := ⟨.error 0, 0, [], ()⟩
  taken_le _ _ _ := Nat.zero_le _
  output_le _ _ _ := Nat.zero_le _

/-- Three bytes are handed out where two are declared. -/
theorem short_not_delivered :
    ¬ ∀ (lib : Decoder) (stack : Bytes) (map : MemMapping)
      (archive : ZipArchive), parseZipArchive map = some archive →
      ∀ entry ∈ archive.pEntries, ∀ pos,
        DeliversDeclaredSize lib map.file stack entry pos := by
  intro hall
  have hdelivers := hall refusing [] short _ parse_short shortEntry
    List.mem_cons_self 0
  have hle := hdelivers.length_le 0
  revert hle
  decide +kernel

end ZipSizesWitness

end MinZip

end MetaOS
