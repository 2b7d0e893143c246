/-
minzip/Zip.c: which failures `mzExtractRecursive` reports.

Whatever fails, its result says that all matching entries are there, unless
the `ok` of the block for regular files took the failure: that one hides the
`ok` that is returned.
-/
import MetaOS.ZipWalk
import MetaOS.ZipSizes

namespace MetaOS

namespace MinZip

/-- What the flags ask of an entry was made, with all of its content: nothing
in a dry run, and no directories if only files are unpacked. -/
def Extracted (lib : Decoder) (file : Bytes) (args : ExtractArgs)
    (made : List Made) (entry : ZipEntry) : Prop :=
  args.dryRun = false →
    if entry.fileName.getLast? = some slash then
      args.filesOnly = false → .dir (targetPath args entry) ∈ made
    else
      ∃ data, HasContents lib file entry data ∧
        if !args.filesOnly && mzIsZipEntrySymlink entry then
          .link (data.takeWhile (· ≠ 0)) (targetPath args entry) ∈ made
        else .file (targetPath args entry) data ∈ made

/-- An entry whose own fields do not lead to a wrong result: it has a name, or
the byte in front of an empty one is no slash; its data can be sought; the
length -1, which is also what failures look like, does not stand for a size;
and a stored link is not shorter than it declares. -/
structure Trustworthy (env : Surroundings) (args : ExtractArgs)
    (entry : ZipEntry) : Prop where
  named : entry.fileName = [] → env.before entry ≠ slash
  offset : isDirectory env entry = false → 0 ≤ entry.offset
  uncompLen : isDirectory env entry = false → entry.compression = DEFLATED →
    entry.uncompLen ≠ -1
  compLen : isDirectory env entry = false → entry.compression = DEFLATED →
    entry.compLen ≠ -1
  link : isDirectory env entry = false → args.filesOnly = false →
    mzIsZipEntrySymlink entry = true → entry.compression = STORED →
    entry.uncompLen ≤ toSize entry.compLen

/-- A message of the two failures that are forgotten. -/
def Unreported (log : List String) : Prop :=
  "Error extracting" ∈ log ∨ "Error touching" ∈ log

instance (log : List String) : Decidable (Unreported log) :=
  inferInstanceAs (Decidable (_ ∨ _))

theorem unreported_append (log messages : List String) :
    Unreported (log ++ messages) ↔ Unreported log ∨ Unreported messages := by
  unfold Unreported
  rw [List.mem_append, List.mem_append]
  tauto

theorem not_unreported_nil : ¬Unreported [] := by simp [Unreported]

theorem Extracted.mono {lib : Decoder} {file : Bytes} {args : ExtractArgs}
    {made made' : List Made} {entry : ZipEntry}
    (h : Extracted lib file args made entry) (hmade : made <+: made') :
    Extracted lib file args made' entry := by
  intro hwet
  have hextracted := h hwet
  split at hextracted
  next hdirectory =>
    rw [if_pos hdirectory]
    exact fun hfiles => hmade.subset (hextracted hfiles)
  next hfile =>
    rw [if_neg hfile]
    obtain ⟨data, hcontents, hdata⟩ := hextracted
    refine ⟨data, hcontents, ?_⟩
    split at hdata
    next hlink =>
      rw [if_pos hlink]
      exact hmade.subset hdata
    next hregular =>
      rw [if_neg hregular]
      exact hmade.subset hdata

/-- What a part of a run has done about some entries: nothing that was made is
gone, and only a failure that got lost has one of the two messages. -/
structure Reported (lib : Decoder) (file : Bytes) (args : ExtractArgs)
    (entries : List ZipEntry) (before after : World) (verdict : Verdict) :
    Prop where
  made : before.made <+: after.made
  log : ∃ messages, after.log = before.log ++ messages ∧
    (Unreported messages ↔ verdict = .lost)
  all : verdict = .fine →
    ∀ entry ∈ entries, Extracted lib file args after.made entry

namespace Reported

variable {lib : Decoder} {file : Bytes} {args : ExtractArgs}
  {entries : List ZipEntry} {entry : ZipEntry} {before between after : World}
  {verdict : Verdict}

theorem cons (hfirst : Reported lib file args [entry] before between .fine)
    (hrest : Reported lib file args entries between after verdict) :
    Reported lib file args (entry :: entries) before after verdict := by
  obtain ⟨first, hfirst_log, hfirst_lost⟩ := hfirst.log
  obtain ⟨rest, hrest_log, hrest_lost⟩ := hrest.log
  refine ⟨hfirst.made.trans hrest.made, ⟨first ++ rest, ?_, ?_⟩, ?_⟩
  · rw [hrest_log, hfirst_log, List.append_assoc]
  · rw [unreported_append, hfirst_lost, hrest_lost]
    simp
  · intro hfine other hother
    obtain rfl | hother := List.mem_cons.mp hother
    · have hextracted := hfirst.all rfl other List.mem_cons_self
      exact hextracted.mono hrest.made
    · exact hrest.all hfine other hother

/-- A failure that is logged and returned. -/
theorem failed {message : String} (hmade : before.made <+: after.made)
    (hlog : after.log = before.log ++ [message])
    (hmessage : ¬Unreported [message]) :
    Reported lib file args entries before after .failed :=
  ⟨hmade, ⟨[message], hlog, by simp [hmessage]⟩, fun hfine => by cases hfine⟩

/-- Nothing was logged. -/
theorem quiet (hmade : before.made <+: after.made)
    (hlog : after.log = before.log) (hlost : verdict ≠ .lost)
    (hall : verdict = .fine →
      ∀ entry ∈ entries, Extracted lib file args after.made entry) :
    Reported lib file args entries before after verdict :=
  ⟨hmade, ⟨[], by rw [hlog, List.append_nil],
    by simp [hlost, not_unreported_nil]⟩, hall⟩

end Reported

section Files

variable {file : Bytes}

/-- What has been written to the file that was made last. -/
def written (_ : Nat) (w : World) : Bytes :=
  match w.made.getLast? with
  | some (.file _ data) => data
  | _ => []

/-- Between two calls, the descriptor's file is the last that was made. -/
def Writing (made : List Made) (path : Bytes) (log : List String) (fd : Nat)
    (w : World) : Prop :=
  fd = made.length ∧ w.log = log ∧ ∃ data, w.made = made ++ [.file path data]

theorem Writing.made_eq {made : List Made} {path : Bytes}
    {log : List String} {fd : Nat} {w : World}
    (h : Writing made path log fd w) :
    w.made = made ++ [.file path (written fd w)] := by
  obtain ⟨-, -, data, hdata⟩ := h
  unfold written
  rw [hdata]
  simp

theorem Writing.append {made : List Made} {path : Bytes} {log : List String}
    {fd : Nat} {w : World} (h : Writing made path log fd w) (data : Bytes) :
    Writing made path log fd (w.append fd data) ∧
      written fd (w.append fd data) = written fd w ++ data := by
  obtain ⟨rfl, hlog, old, hold⟩ := h
  have hafter : (w.append made.length data).made =
      made ++ [.file path (old ++ data)] := by
    unfold World.append
    rw [hold, List.modify_eq_take_cons_drop (by simp)]
    simp
  refine ⟨⟨rfl, hlog, _, hafter⟩, ?_⟩
  unfold written
  rw [hafter, hold]
  simp

/-- If the loop ends well, all of the data was written. -/
theorem writeLoop_safe {made : List Made} {path : Bytes} {log : List String}
    {fd : Nat} {rounds : Nat} {data : Bytes} {w : World}
    (h : Writing made path log fd w) :
    Prog.Safe (answers file) (fun _ => True)
      (fun ok after => Writing made path log fd after ∧ after.pos = w.pos ∧
        (ok = true → written fd after = written fd w ++ data))
      (writeLoop fd rounds data) w := by
  induction rounds generalizing data w with
  | zero => exact ⟨trivial, h, rfl, fun hok => by cases hok⟩
  | succ rounds ih =>
      rw [writeLoop, Prog.perform_bind]
      refine ⟨trivial, ?_⟩
      rintro answer after (⟨rfl, rfl⟩ | ⟨n, rfl, rfl⟩)
      · exact ⟨trivial, h, rfl, fun hok => by cases hok⟩
      · obtain ⟨hnext, hwritten⟩ := h.append (data.take n)
        dsimp only
        by_cases hzero : n = 0
        · rw [if_pos hzero]
          exact ⟨trivial, hnext, rfl, fun hok => by cases hok⟩
        · rw [if_neg hzero]
          by_cases hall : n = data.length
          · rw [if_pos hall]
            refine ⟨trivial, hnext, rfl, fun _ => ?_⟩
            rw [hwritten, hall, List.take_length]
          · rw [if_neg hall]
            by_cases hoverrun : data.length < n
            · rw [if_pos hoverrun]
              exact ⟨trivial, hnext, rfl, fun hok => by cases hok⟩
            · rw [if_neg hoverrun]
              apply (ih hnext).mono (fun _ h => h)
              rintro ok last - ⟨hlast, hpos, hend⟩
              refine ⟨hlast, hpos, fun hok => ?_⟩
              rw [hend hok, hwritten, List.append_assoc,
                List.take_append_drop]

theorem writeProcessFunction_consumes (file : Bytes) (made : List Made)
    (path : Bytes) (log : List String) (whole : Bytes) :
    Consumes file (fun _ => True) (Writing made path log) written whole
      writeProcessFunction where
  now _ := trivial
  move _ h := h
  got_move _ _ _ := rfl
  step h _ := by
    apply Prog.Safe.bind (writeLoop_safe h)
    rintro ok after - ⟨hafter, hpos, hend⟩
    exact ⟨trivial, hafter, hpos, hend⟩

/-- Between two calls, the buffer has room for the rest. -/
def Copying (made : List Made) (log : List String) (room : Int)
    (cookie : Bytes × Int) (w : World) : Prop :=
  w.made = made ∧ w.log = log ∧ cookie.2 = room - cookie.1.length ∧
    (cookie.1 = [] ∨ (cookie.1.length : Int) ≤ room)

theorem copyProcessFunction_consumes (file : Bytes) (made : List Made)
    (log : List String) (room : Int) (whole : Bytes) :
    Consumes file (fun _ => True) (Copying made log room)
      (fun cookie _ => cookie.1) whole copyProcessFunction where
  now _ := trivial
  move _ h := h
  got_move _ _ _ := rfl
  step {cookie w data} h _ := by
    obtain ⟨copied, bufLen⟩ := cookie
    obtain ⟨hmade, hlog, hleft, hroom⟩ := h
    dsimp only at hleft hroom
    unfold copyProcessFunction
    dsimp only
    by_cases hfits : (data.length : Int) ≤ bufLen
    · rw [if_pos hfits]
      refine ⟨trivial, ⟨hmade, hlog, ?_, .inr ?_⟩, rfl, fun _ => rfl⟩
      · rw [List.length_append, hleft]
        dsimp only
        omega
      · rw [List.length_append]
        omega
    · rw [if_neg hfits]
      exact ⟨trivial, ⟨hmade, hlog, hleft, hroom⟩, rfl,
        fun hok => by cases hok⟩

end Files

section Bodies

variable {file : Bytes} {env : Surroundings} {args : ExtractArgs}
  {entry : ZipEntry}

/-- A true result for an entry that can be trusted means all its content. -/
theorem Trustworthy.contents {σ : Type} {keeps : σ → World → Prop}
    {got : σ → World → Bytes} {r : Option (Bool × σ)} {cookie : σ}
    {w after : World} (htrust : Trustworthy env args entry)
    (hfile : isDirectory env entry = false)
    (hend : Outcome file env.stack env.calls env.lib entry
      (w.seek entry.offset).pos keeps got [] r after)
    (hr : r = some (true, cookie)) :
    HasContents env.lib file entry (got cookie after) ∧
      (entry.compression = DEFLATED →
        toLong (got cookie after).length = entry.uncompLen) := by
  have hoffset := htrust.offset hfile
  have hpos : (w.seek entry.offset).pos = entry.offset.toNat := by
    rw [World.seek, if_pos hoffset]
  have hnot : ¬entry.TakesFailures := fun htakes =>
    htrust.uncompLen hfile htakes.1 htakes.2
  rw [hpos] at hend
  obtain ⟨-, hall⟩ := hend true cookie hr
  obtain ⟨hfinished, hgot, hlength⟩ := hall rfl hnot
  rw [List.nil_append] at hgot
  rw [hgot]
  refine ⟨?_, hlength⟩
  exact hasContents_of_delivered hoffset (htrust.compLen hfile)
    (Prod.ext rfl hfinished)

theorem mzExtractZipEntryToFile_safe (htrust : Trustworthy env args entry)
    (hfile : isDirectory env entry = false) {made : List Made} {path : Bytes}
    {log : List String} {fd : Nat} {w : World}
    (hw : Writing made path log fd w) (hempty : written fd w = []) :
    Prog.Safe (answers file) (fun _ => True)
      (fun r after => ∀ ok, r = some ok → Writing made path log fd after ∧
        (ok = true → HasContents env.lib file entry (written fd after)))
      (mzExtractZipEntryToFile env.stack env.calls env.lib entry fd) w := by
  have hconsumes := writeProcessFunction_consumes file made path log
    (delivered file env.stack env.calls env.lib entry
      (w.seek entry.offset).pos).1
  apply Prog.Safe.bind (mzProcessZipEntryContents_safe hconsumes hw ?_)
  · intro r after _ hend
    cases r with
    | none => exact ⟨trivial, fun ok hsome => by cases hsome⟩
    | some answer =>
        obtain ⟨ret, cookie⟩ := answer
        obtain ⟨hafter, -⟩ := hend ret cookie rfl
        obtain rfl : cookie = fd := hafter.1.trans hw.1.symm
        rw [hempty] at hend
        refine ⟨trivial, ?_⟩
        intro ok hsome
        cases hsome
        refine ⟨hafter, ?_⟩
        rintro rfl
        exact (htrust.contents hfile hend rfl).1
  · rw [hempty]
    exact List.prefix_rfl

theorem mzReadZipEntry_safe (htrust : Trustworthy env args entry)
    (hfile : isDirectory env entry = false) (room : Int) (w : World) :
    Prog.Safe (answers file) (fun _ => True)
      (fun r after => ∀ ok copied, r = some (ok, copied) →
        after.made = w.made ∧ after.log = w.log ∧
        (ok = true → HasContents env.lib file entry copied ∧
          (copied = [] ∨ (copied.length : Int) ≤ room) ∧
          (entry.compression = DEFLATED →
            toLong copied.length = entry.uncompLen)))
      (mzReadZipEntry env.stack env.calls env.lib entry room) w := by
  have hconsumes := copyProcessFunction_consumes file w.made w.log
    room (delivered file env.stack env.calls env.lib entry
      (w.seek entry.offset).pos).1
  have hempty : Copying w.made w.log room ([], room) w :=
    ⟨rfl, rfl, by simp, .inl rfl⟩
  apply Prog.Safe.bind (mzProcessZipEntryContents_safe hconsumes hempty ?_)
  · intro r after _ hend
    cases r with
    | none => exact ⟨trivial, fun ok copied hsome => by cases hsome⟩
    | some answer =>
        obtain ⟨ret, cookie⟩ := answer
        obtain ⟨⟨hmade, hlog, -, hroom⟩, -⟩ := hend ret cookie rfl
        refine ⟨trivial, ?_⟩
        intro ok copied hsome
        cases hsome
        refine ⟨hmade, hlog, ?_⟩
        rintro rfl
        obtain ⟨hcontents, hlength⟩ := htrust.contents hfile hend rfl
        exact ⟨hcontents, hroom, hlength⟩
  · exact List.prefix_rfl

/-- The name of an entry that can be trusted says what it is. -/
theorem Trustworthy.isDirectory_iff (htrust : Trustworthy env args entry) :
    isDirectory env entry = true ↔ entry.fileName.getLast? = some slash := by
  unfold isDirectory
  rw [decide_eq_true_iff]
  cases hlast : entry.fileName.getLast? with
  | none =>
      have hbefore := htrust.named (List.getLast?_eq_none_iff.mp hlast)
      simp [hbefore]
  | some c => simp

/-- What was copied fills the buffer, and what lies behind it is not read. -/
theorem linkTarget_of_length {copied : Bytes}
    (hlength : copied.length = entry.uncompLen.toNat) :
    linkTarget env entry copied = copied.takeWhile (· ≠ 0) := by
  unfold linkTarget
  dsimp only
  rw [List.take_append_of_le_length hlength.ge, ← hlength, List.take_length]

/-- The buffer for the target of a link is filled. -/
theorem Trustworthy.link_length {copied : Bytes}
    (htrust : Trustworthy env args entry)
    (hfile : isDirectory env entry = false) (hfiles : args.filesOnly = false)
    (hlink : mzIsZipEntrySymlink entry = true)
    (hcontents : HasContents env.lib file entry copied)
    (hroom : copied = [] ∨ (copied.length : Int) ≤ entry.uncompLen)
    (hlong : entry.compression = DEFLATED →
      toLong copied.length = entry.uncompLen) :
    copied.length = entry.uncompLen.toNat := by
  obtain ⟨-, ⟨hstored, -, hsize⟩ | ⟨hdeflated, -, -⟩⟩ := hcontents
  · have hdeclared := htrust.link hfile hfiles hlink hstored
    obtain rfl | hfits := hroom
    · rw [List.length_nil] at hsize ⊢
      omega
    · omega
  · have hlong := hlong hdeflated
    obtain rfl | hfits := hroom
    · rw [← hlong]
      rfl
    · have hle : copied.length ≤ entry.uncompLen.toNat := by omega
      have heq := eq_of_toLong hle hlong
      omega

/-- What the extraction of an entry says when it has come to an end. -/
def BodyEnds (file : Bytes) (env : Surroundings) (args : ExtractArgs)
    (entry : ZipEntry) (before : World) (r : Option Verdict) (after : World) :
    Prop :=
  ∀ verdict, r = some verdict →
    Reported env.lib file args [entry] before after verdict

theorem BodyEnds.some {before after : World} {verdict : Verdict}
    (h : Reported env.lib file args [entry] before after verdict) :
    BodyEnds file env args entry before (some verdict) after := by
  intro v hsome
  cases hsome
  exact h

theorem logFailure_safe {before w : World} (hmade : before.made <+: w.made)
    (hlog : w.log = before.log) {message : String}
    (hmessage : ¬Unreported [message]) :
    Prog.Safe (answers file) (fun _ => True)
      (BodyEnds file env args entry before)
      (logFailure message >>= fun v => pure (some v)) w := by
  refine ⟨trivial, ?_⟩
  rintro - after rfl
  exact ⟨trivial, .some (.failed hmade (by rw [hlog]) hmessage)⟩

theorem extractDirectory_safe (w : World)
    (hdirectory : entry.fileName.getLast? = some slash) :
    Prog.Safe (answers file) (fun _ => True)
      (BodyEnds file env args entry w)
      (extractDirectory args (targetPath args entry) >>= fun v =>
        pure (some v)) w := by
  have hmade : ∀ made, (args.filesOnly = false →
      .dir (targetPath args entry) ∈ made) →
      ∀ e ∈ [entry], Extracted env.lib file args made e := by
    intro made hmem e he
    obtain rfl := List.mem_singleton.mp he
    intro _
    rw [if_pos hdirectory]
    exact hmem
  unfold extractDirectory
  cases hfiles : args.filesOnly with
  | true =>
      refine ⟨trivial, .some (.quiet List.prefix_rfl rfl (by decide) ?_)⟩
      exact fun _ => hmade _ fun hfalse => by simp [hfiles] at hfalse
  | false =>
      refine ⟨trivial, ?_⟩
      rintro answer after rfl
      cases answer with
      | true =>
          refine ⟨trivial, .some (.quiet ?_ rfl (by decide) ?_)⟩
          · exact List.prefix_append _ _
          · exact fun _ => hmade _ fun _ => by simp
      | false => exact logFailure_safe List.prefix_rfl rfl (by decide)

theorem extractSymlink_safe (htrust : Trustworthy env args entry)
    (hfile : isDirectory env entry = false) (hfiles : args.filesOnly = false)
    (hlink : mzIsZipEntrySymlink entry = true) (w : World) :
    Prog.Safe (answers file) (fun _ => True)
      (BodyEnds file env args entry w)
      (extractSymlink env entry (targetPath args entry)) w := by
  unfold extractSymlink
  by_cases hempty : entry.uncompLen = 0
  · rw [if_pos hempty]
    exact logFailure_safe List.prefix_rfl rfl (by decide)
  · rw [if_neg hempty, Prog.perform_bind]
    refine ⟨trivial, ?_⟩
    rintro granted w rfl
    cases granted with
    | false =>
        exact ⟨trivial, .some (.quiet List.prefix_rfl rfl (by decide)
          fun hfine => by cases hfine)⟩
    | true =>
        apply Prog.Safe.bind
          (mzReadZipEntry_safe htrust hfile entry.uncompLen w)
        intro r after _ hend
        cases r with
        | none => exact ⟨trivial, fun _ hsome => by cases hsome⟩
        | some answer =>
            obtain ⟨ok, copied⟩ := answer
            obtain ⟨hmade, hlog, hall⟩ := hend ok copied rfl
            have hkept : w.made <+: after.made := hmade ▸ List.prefix_rfl
            cases ok with
            | false => exact logFailure_safe hkept hlog (by decide)
            | true =>
                obtain ⟨hcontents, hroom, hlong⟩ := hall rfl
                have hlength := htrust.link_length hfile hfiles hlink
                  hcontents hroom hlong
                dsimp only
                rw [if_pos rfl, linkTarget_of_length hlength,
                  Prog.perform_bind]
                refine ⟨trivial, ?_⟩
                rintro linked last rfl
                cases linked with
                | false => exact logFailure_safe hkept hlog (by decide)
                | true =>
                    refine ⟨trivial, .some (.quiet ?_ hlog (by decide) ?_)⟩
                    · exact hkept.trans (List.prefix_append _ _)
                    · intro _ e he
                      obtain rfl := List.mem_singleton.mp he
                      intro _
                      rw [if_neg (mt htrust.isDirectory_iff.mpr
                        (by simp [hfile]))]
                      refine ⟨copied, hcontents, ?_⟩
                      rw [if_pos (by simp [hfiles, hlink])]
                      simp

theorem extractFile_safe (htrust : Trustworthy env args entry)
    (hfile : isDirectory env entry = false)
    (hregular : (!args.filesOnly && mzIsZipEntrySymlink entry) = false)
    (w : World) :
    Prog.Safe (answers file) (fun _ => True)
      (BodyEnds file env args entry w)
      (extractFile env args entry (targetPath args entry)) w := by
  rw [extractFile, Prog.perform_bind]
  refine ⟨trivial, ?_⟩
  rintro answer after (⟨rfl, rfl⟩ | ⟨rfl, rfl⟩)
  · exact logFailure_safe List.prefix_rfl rfl (by decide)
  · have hopen : Writing w.made (targetPath args entry) w.log w.made.length
        { w with made := w.made ++ [.file (targetPath args entry) []] } :=
      ⟨rfl, rfl, [], rfl⟩
    have hnothing : written w.made.length
        { w with made := w.made ++ [.file (targetPath args entry) []] } =
        [] := by
      simp [written]
    apply Prog.Safe.bind
      (mzExtractZipEntryToFile_safe htrust hfile hopen hnothing)
    intro r after _ hend
    cases r with
    | none => exact ⟨trivial, fun _ hsome => by cases hsome⟩
    | some ok =>
        obtain ⟨hafter, hall⟩ := hend ok rfl
        have hmade := hafter.made_eq
        have hkept : w.made <+: after.made := hmade ▸ List.prefix_append _ _
        -- Both messages of this block end in a lost failure.
        have hlost : ∀ message : String, Unreported [message] →
            Reported env.lib file args [entry] w
              { after with log := after.log ++ [message] } .lost := by
          intro message hmessage
          refine ⟨hkept, ⟨[message], ?_, by simp [hmessage]⟩, ?_⟩
          · rw [hafter.2.1]
          · exact fun hfine => by cases hfine
        have hfine : ok = true →
            Reported env.lib file args [entry] w after .fine := by
          intro hok
          refine .quiet hkept hafter.2.1 (by decide) ?_
          intro _ e he
          obtain rfl := List.mem_singleton.mp he
          intro _
          rw [if_neg (mt htrust.isDirectory_iff.mpr (by simp [hfile]))]
          refine ⟨_, hall hok, ?_⟩
          rw [if_neg (by simp [hregular]), hmade]
          simp
        dsimp only
        rw [Prog.perform_bind]
        refine ⟨trivial, ?_⟩
        rintro - closed rfl
        cases ok with
        | false =>
            refine ⟨trivial, ?_⟩
            rintro - last rfl
            exact ⟨trivial, .some (hlost _ (by decide))⟩
        | true =>
            rw [if_pos rfl]
            cases args.timestamp with
            | false => exact ⟨trivial, .some (hfine rfl)⟩
            | true =>
                rw [if_pos rfl, Prog.perform_bind]
                refine ⟨trivial, ?_⟩
                rintro touched last rfl
                cases touched with
                | true => exact ⟨trivial, .some (hfine rfl)⟩
                | false =>
                    refine ⟨trivial, ?_⟩
                    rintro - last rfl
                    exact ⟨trivial, .some (hlost _ (by decide))⟩

theorem createEntry_safe (htrust : Trustworthy env args entry) (w : World) :
    Prog.Safe (answers file) (fun _ => True)
      (BodyEnds file env args entry w)
      (createEntry env args entry (targetPath args entry)) w := by
  unfold createEntry
  cases hdirectory : isDirectory env entry with
  | true =>
      exact extractDirectory_safe w (htrust.isDirectory_iff.mp hdirectory)
  | false =>
      rw [if_neg (by decide), Prog.perform_bind]
      refine ⟨trivial, ?_⟩
      rintro there after hafter
      obtain rfl : after = w := by simpa [answers] using hafter
      cases there with
      | false => exact logFailure_safe List.prefix_rfl rfl (by decide)
      | true =>
          dsimp only
          rw [if_pos rfl]
          split
          next hlink =>
            obtain ⟨hfiles, hlink⟩ := Bool.and_eq_true_iff.mp hlink
            exact extractSymlink_safe htrust hdirectory
              (by simpa using hfiles) hlink after
          next hregular =>
            exact extractFile_safe htrust hdirectory
              (Bool.eq_false_iff.mpr hregular) after

end Bodies

section Loop

variable {file : Bytes} {env : Surroundings} {args : ExtractArgs}

theorem targetEntryPath_safe {helper : MzPathHelper}
    (hroot : helper.Rooted args) (entry : ZipEntry) (w : World) :
    Prog.Safe (answers file) (fun _ => True)
      (fun r after => after = w ∧ ∀ path helper', r = some (path, helper') →
        path = targetPath args entry ∧ helper'.Rooted args)
      (targetEntryPath args helper entry) w := by
  have hpath : ∀ (granted : Bool) (bufLen : Nat),
      Prog.Safe (answers file) (fun _ => True)
        (fun r after => after = w ∧
          ∀ (path : Bytes) (helper' : MzPathHelper),
            r = some (path, helper') →
              path = targetPath args entry ∧ helper'.Rooted args)
        (if granted then
          let root := helper.buf.getD (withSlash args.targetDir)
          pure (some (root ++
            entry.fileName.drop (canonicalPath args.zipDir).length,
            (⟨root.length, some root, bufLen⟩ : MzPathHelper)))
        else pure none) w := by
    intro granted bufLen
    cases granted with
    | false => exact ⟨trivial, rfl, fun _ _ hsome => by cases hsome⟩
    | true =>
        refine ⟨trivial, rfl, ?_⟩
        intro path helper' hsome
        cases hsome
        rw [hroot]
        exact ⟨rfl, rfl⟩
  unfold targetEntryPath
  dsimp only
  split
  next =>
    refine ⟨trivial, ?_⟩
    rintro granted after rfl
    exact hpath granted _
  next => exact hpath true _

/-- The body of the loop has ended, with the path of the entry. -/
def EntryEnds (file : Bytes) (env : Surroundings) (args : ExtractArgs)
    (entry : ZipEntry) (before : World) (r : Option (Verdict × MzPathHelper))
    (after : World) : Prop :=
  ∀ verdict helper, r = some (verdict, helper) →
    Reported env.lib file args [entry] before after verdict ∧
      helper.Rooted args

theorem EntryEnds.some {entry : ZipEntry} {before after : World}
    {verdict : Verdict} {helper : MzPathHelper}
    (h : Reported env.lib file args [entry] before after verdict)
    (hroot : helper.Rooted args) :
    EntryEnds file env args entry before (some (verdict, helper)) after := by
  intro v helper' hsome
  cases hsome
  exact ⟨h, hroot⟩

theorem extractEntry_safe {helper : MzPathHelper} (hroot : helper.Rooted args)
    {entry : ZipEntry}
    (htrust : args.dryRun = false → Trustworthy env args entry) (w : World) :
    Prog.Safe (answers file) (fun _ => True) (EntryEnds file env args entry w)
      (extractEntry env args helper entry) w := by
  unfold extractEntry
  apply Prog.Safe.bind (targetEntryPath_safe hroot entry w)
  rintro r after - ⟨rfl, hpath⟩
  cases r with
  | none =>
      refine ⟨trivial, ?_⟩
      rintro - last rfl
      exact ⟨trivial, .some (.failed List.prefix_rfl rfl (by decide)) hroot⟩
  | some found =>
      obtain ⟨path, helper'⟩ := found
      obtain ⟨rfl, hroot'⟩ := hpath path helper' rfl
      have hbody : Prog.Safe (answers file) (fun _ => True)
          (BodyEnds file env args entry after)
          (if args.dryRun then pure (some .fine)
            else createEntry env args entry (targetPath args entry))
          after := by
        split
        next hdry =>
          refine ⟨trivial, .some (.quiet List.prefix_rfl rfl (by decide) ?_)⟩
          intro _ e _ hwet
          rw [hdry] at hwet
          cases hwet
        next hwet =>
          exact createEntry_safe (htrust (Bool.eq_false_iff.mpr hwet)) after
      apply Prog.Safe.bind hbody
      intro r last _ hend
      match r with
      | none => exact ⟨trivial, fun _ _ hsome => by cases hsome⟩
      | some .fine =>
          have hdone := EntryEnds.some (hend .fine rfl) hroot'
          dsimp only
          split
          next =>
            refine ⟨trivial, ?_⟩
            rintro - called rfl
            exact ⟨trivial, hdone⟩
          next => exact ⟨trivial, hdone⟩
      | some .failed => exact ⟨trivial, .some (hend .failed rfl) hroot'⟩
      | some .lost => exact ⟨trivial, .some (hend .lost rfl) hroot'⟩

/-- One entry after the other, up to the first that fails. -/
theorem extractAll_safe {entries : List ZipEntry}
    (htrust : args.dryRun = false →
      ∀ entry ∈ entries, Trustworthy env args entry)
    {helper : MzPathHelper} (hroot : helper.Rooted args)
    (processed : List ZipEntry) (w : World) :
    Prog.Safe (answers file) (fun _ => True)
      (fun r after => ∀ walk, r = some walk →
        Reported env.lib file args entries w after walk.verdict)
      (extractAll env args entries helper processed) w := by
  induction entries generalizing helper processed w with
  | nil =>
      refine ⟨trivial, ?_⟩
      intro walk hsome
      cases hsome
      have hfine : Verdict.fine ≠ .lost := by decide
      exact .quiet List.prefix_rfl rfl hfine fun _ e he => by cases he
  | cons entry rest ih =>
      rw [extractAll]
      apply Prog.Safe.bind (extractEntry_safe hroot
        (fun hwet => htrust hwet entry List.mem_cons_self) w)
      intro r after _ hend
      have hstop : ∀ verdict : Verdict, verdict ≠ .fine → ∀ walk : Walk,
          Reported env.lib file args [entry] w after verdict →
          some ⟨verdict, processed ++ [entry]⟩ = some walk →
          Reported env.lib file args (entry :: rest) w after walk.verdict := by
        intro verdict hverdict walk hreported hsome
        cases hsome
        exact ⟨hreported.made, hreported.log,
          fun hfine => absurd hfine hverdict⟩
      rcases r with _ | ⟨verdict, helper'⟩
      · exact ⟨trivial, fun _ hsome => by cases hsome⟩
      obtain ⟨hreported, hroot'⟩ := hend verdict helper' rfl
      cases verdict with
      | fine =>
          have hrest := ih (fun hwet e he =>
            htrust hwet e (List.mem_cons_of_mem _ he)) hroot'
            (processed ++ [entry]) after
          apply hrest.mono (fun _ h => h)
          intro r last _ hlast walk hsome
          exact hreported.cons (hlast walk hsome)
      | failed =>
          exact ⟨trivial, fun walk hsome =>
            hstop .failed (by decide) walk hreported hsome⟩
      | lost =>
          exact ⟨trivial, fun walk hsome =>
            hstop .lost (by decide) walk hreported hsome⟩

end Loop

/-- A run in which no failure got lost, on entries that can be trusted, has a
true result only if it has extracted all that match; if a failure got lost,
the result is true. -/
theorem extraction_reported {map : MemMapping} {archive : ZipArchive}
    (hparse : parseZipArchive map = some archive) {env : Surroundings}
    {args : ExtractArgs}
    (htrust : args.dryRun = false → ∀ entry ∈ archive.pEntries,
      isUnder args.zipDir entry = true → Trustworthy env args entry)
    (pos : Nat) :
    Prog.Safe (answers map.file) (fun _ => True)
      (fun r after => ∀ ok, r = some ok →
        (Unreported after.log → ok = true) ∧
        (ok = true → ¬Unreported after.log →
          ∀ entry ∈ archive.pEntries, isUnder args.zipDir entry = true →
            Extracted env.lib map.file args after.made entry))
      (mzExtractRecursive env args archive) (World.start pos) := by
  obtain ⟨records, -, -, harranged, -⟩ := parseZipArchive_arranged hparse
  have hrefused : ∀ message : String, ¬Unreported [message] →
      Prog.Safe (answers map.file) (fun _ => True)
        (fun r after => ∀ ok, r = some ok →
          (Unreported after.log → ok = true) ∧
          (ok = true → ¬Unreported after.log →
            ∀ entry ∈ archive.pEntries, isUnder args.zipDir entry = true →
              Extracted env.lib map.file args after.made entry))
        (Prog.perform (Call.logError message) >>= fun _ =>
          pure (some false)) (World.start pos) := by
    intro message hmessage
    refine ⟨trivial, ?_⟩
    rintro - after rfl
    refine ⟨trivial, ?_⟩
    intro ok hsome
    cases hsome
    exact ⟨fun hlost => absurd hlost hmessage, fun hok => by cases hok⟩
  unfold mzExtractRecursive extractWith
  split
  next => exact hrefused _ (by decide)
  next =>
    split
    next => exact hrefused _ (by decide)
    next =>
      rw [Prog.perform_bind]
      refine ⟨trivial, ?_⟩
      rintro granted after rfl
      cases granted with
      | false => exact hrefused _ (by decide)
      | true =>
          have hmatching : args.dryRun = false →
              ∀ entry ∈ archive.pEntries.filter (isUnder args.zipDir),
                Trustworthy env args entry := by
            intro hwet entry hentry
            obtain ⟨hmem, hunder⟩ := List.mem_filter.mp hentry
            exact htrust hwet entry hmem hunder
          have hroot : (MzPathHelper.init args).Rooted args := rfl
          dsimp only
          rw [if_pos rfl, extractEntries_eq env harranged.sorted
            (fun h => by cases h)]
          apply Prog.Safe.bind
            (extractAll_safe hmatching hroot [] (World.start pos))
          intro r after _ hend
          cases r with
          | none => exact ⟨trivial, fun _ hsome => by cases hsome⟩
          | some walk =>
              have hreported := hend walk rfl
              obtain ⟨messages, hlog, hlost⟩ := hreported.log
              have hlog : after.log = messages := hlog
              refine ⟨trivial, ?_⟩
              intro ok hsome
              cases hsome
              rw [hlog, hlost]
              refine ⟨fun hverdict => by rw [hverdict]; decide, ?_⟩
              intro hok hnot entry hmem hunder
              have hfine : walk.verdict = .fine := by
                cases hverdict : walk.verdict with
                | fine => rfl
                | failed =>
                    rw [hverdict] at hok
                    cases hok
                | lost => exact absurd hverdict hnot
              exact hreported.all hfine entry
                (List.mem_filter.mpr ⟨hmem, hunder⟩)

namespace ZipReportsWitness

/-- An archive of one stored entry `a` of three bytes. -/
def single : MemMapping where
  addr := 0x40000000
  file :=
    [0x50, 0x4b, 3, 4] ++ List.replicate 22 0 ++ [1, 0, 0, 0, 97] ++
      [120, 121, 122] ++
      ([0x50, 0x4b, 1, 2] ++ List.replicate 16 0 ++ [3, 0, 0, 0] ++
        [3, 0, 0, 0] ++ [1, 0] ++ List.replicate 16 0 ++ [97]) ++
      ([0x50, 0x4b, 5, 6, 0, 0, 0, 0, 1, 0, 1, 0] ++
        [47, 0, 0, 0, 34, 0, 0, 0] ++ [0, 0])

def entry : ZipEntry := ⟨[97], 31, 3, 3, STORED, 0, 0, 0, 0⟩

theorem parse_single :
    parseZipArchive single = some ⟨[entry], [entry]⟩ := by
  decide +kernel

def env : Surroundings := ⟨ZipSizesWitness.refusing, [], [], fun _ => 0, 0⟩

/-- All of the archive to `/t`. -/
def args : ExtractArgs := ⟨[], [47, 116], 0, false, false⟩

theorem entry_trustworthy : Trustworthy env args entry := by
  constructor <;> decide

theorem single_reported :
    Prog.Safe (answers single.file) (fun _ => True)
      (fun r after => ∀ ok, r = some ok →
        (Unreported after.log → ok = true) ∧
        (ok = true → ¬Unreported after.log →
          ∀ e ∈ [entry], isUnder [] e = true →
            Extracted env.lib single.file args after.made e))
      (mzExtractRecursive env args ⟨[entry], [entry]⟩) (World.start 0) := by
  have htrust : args.dryRun = false → ∀ e ∈ [entry],
      isUnder args.zipDir e = true → Trustworthy env args e := by
    intro _ e he _
    obtain rfl := List.mem_singleton.mp he
    exact entry_trustworthy
  exact extraction_reported parse_single htrust 0

/-- Nothing can be written any more. -/
def diskFull (file : Bytes) : (c : Call) → World → Answer c × World
  | .write _ _, w => (none, w)
  | c, w => smooth file c w

theorem diskFull_allowed (file : Bytes) (c : Call) (w : World) :
    answers file c w (diskFull file c w).1 (diskFull file c w).2 := by
  cases c with
  | write fd data => exact .inl ⟨rfl, rfl⟩
  | lseekCur => exact smooth_allowed file .lseekCur w
  | read size => exact smooth_allowed file (.read size) w
  | creat path => exact smooth_allowed file (.creat path) w
  | _ => rfl

/-- The result is true although the file is empty. -/
theorem diskFull_not_reported :
    ¬ ∀ (env : Surroundings) (args : ExtractArgs) (map : MemMapping)
      (archive : ZipArchive), parseZipArchive map = some archive → ∀ pos,
        Prog.Safe (answers map.file) (fun _ => True)
          (fun r after => r = some true →
            ∀ entry ∈ archive.pEntries, isUnder args.zipDir entry = true →
              Extracted env.lib map.file args after.made entry)
          (mzExtractRecursive env args archive) (World.start pos) := by
  intro hall
  have hsafe := hall env args single _ parse_single 0
  have hreaches := Prog.reaches_eval (diskFull single.file)
    (diskFull_allowed single.file)
    (mzExtractRecursive env args ⟨[entry], [entry]⟩) (World.start 0)
  have hrun : (mzExtractRecursive env args ⟨[entry], [entry]⟩).eval
      (diskFull single.file) (World.start 0) =
        (some true, ⟨0, [], [], [.file [47, 116, 47, 97] []],
          ["Error extracting"]⟩) := by
    decide +kernel
  rw [hrun] at hreaches
  have hextracted := hsafe.post_of_reaches hreaches rfl entry
    List.mem_cons_self (by decide) rfl
  rw [if_neg (by decide)] at hextracted
  obtain ⟨data, ⟨-, hdata⟩, hmade⟩ := hextracted
  rw [if_neg (by decide)] at hmade
  obtain ⟨-, -, hlength⟩ | ⟨hdeflated, -⟩ := hdata
  · obtain hsame := List.mem_singleton.mp hmade
    obtain ⟨-, rfl⟩ := Made.file.inj hsame
    exact absurd hlength (by decide)
  · exact absurd hdeflated (by decide)

end ZipReportsWitness

end MinZip

end MetaOS
