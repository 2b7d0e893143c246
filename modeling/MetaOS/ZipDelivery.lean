/-
minzip/Zip.c: what the two streaming loops hand to a function of the caller.

`World` is the archive's descriptor together with what has come out of it, and
`answers` are all the ways in which the calls can go.  `storedData` and
`inflated` are what a caller gets who never fails when no read fails; every
run hands out a part of it from the front.
-/
import MetaOS.ZipContents

namespace MetaOS

namespace MinZip

/-- Something that was made in the file system. -/
inductive Made where
  | dir (path : Bytes)
  | file (path data : Bytes)
  | link (target path : Bytes)
deriving DecidableEq

structure World where
  pos : Nat
  received : Bytes
  buffer : Bytes
  made : List Made
  log : List String
deriving DecidableEq

namespace World

def start (pos : Nat) : World := ⟨pos, [], [], [], []⟩

/-- A descriptor is the place of its file in `made`. -/
def append (w : World) (fd : Nat) (data : Bytes) : World :=
  { w with made := w.made.modify fd fun
      | .file path old => .file path (old ++ data)
      | other => other }

/-- A seek to a negative offset fails, and the position stays. -/
def seek (w : World) (offset : Int) : World :=
  if 0 ≤ offset then { w with pos := offset.toNat } else w

end World

/-- How the calls can be answered when the archive holds `file`. -/
def answers (file : Bytes) : Prog.Semantics Call Answer World
  | .lseekCur, w, r, after => r = w.pos ∧ after = w
  | .lseekSet offset, w, _, after => after = w.seek offset
  | .read size, w, r, after =>
      r = none ∧ after = w ∨
      ∃ n : Nat, (n : Int) ≤ size ∧ r = some (file.window w.pos n) ∧
        after = { w with pos := w.pos + (file.window w.pos n).length }
  | .processFunction data, w, _, after =>
      after = { w with received := w.received ++ data }
  | .memmove data, w, _, after => after = { w with buffer := w.buffer ++ data }
  | .write fd data, w, r, after =>
      r = none ∧ after = w ∨
      ∃ n, r = some n ∧ after = w.append fd (data.take n)
  | .dirCreateHierarchy path stripFileName, w, r, after =>
      after =
        if r && !stripFileName then { w with made := w.made ++ [.dir path] }
        else w
  | .creat path, w, r, after =>
      r = none ∧ after = w ∨
      r = some w.made.length ∧
        after = { w with made := w.made ++ [.file path []] }
  | .symlink target path, w, r, after =>
      after = if r then { w with made := w.made ++ [.link target path] } else w
  | .logError message, w, _, after =>
      after = { w with log := w.log ++ [message] }
  | .inflateInit, w, _, after | .allocate _, w, _, after
  | .close _, w, _, after | .utime _, w, _, after
  | .callback _, w, _, after => after = w

section Delivered

variable (file : Bytes)

/-- The chunks that can be read of `size` stored bytes. -/
def storedData (pos size : Nat) : Bytes :=
  if size ≤ file.length - pos then file.window pos size
  else file.window pos (bufSize * ((file.length - pos) / bufSize))

variable {lib : Decoder} (stack : Bytes)

/-- `refill` when the read does not fail. -/
def refilled (z : ZStream lib) (compRemaining : Int) (pos : Nat) :
    Option (ZStream lib × Int × Nat) :=
  if z.input ≠ [] then some (z, compRemaining, pos)
  else
    let getSize : Int :=
      if bufSize < compRemaining then bufSize else compRemaining
    if getSize < 0 then
      if getSize = -1 then
        some ({ z with input := stack }, compRemaining - getSize, pos)
      else none
    else
      let data := file.window pos getSize.toNat
      if (data.length : Int) = getSize then
        some ({ z with input := data }, compRemaining - getSize,
          pos + data.length)
      else none

/-- The blocks that come out of `calls` calls of `inflate`, and whether the
stream has ended: `none` if it is not over yet, `some false` if it went
wrong. -/
def inflated : (calls : Nat) → ZStream lib → (compRemaining : Int) →
    (pos : Nat) → Bytes × Option Bool
  | 0, _, _, _ => ([], none)
  | calls + 1, z, compRemaining, pos =>
      match refilled file stack z compRemaining pos with
      | none => ([], some false)
      | some (z, compRemaining, pos) =>
          let step := lib.decompress z.state z.input
            (bufSize - z.procBuf.length)
          let procBuf := z.procBuf ++ step.output
          let totalOut := z.totalOut + step.output.length
          let input := z.input.drop step.taken
          match step.status with
          | .error _ => ([], some false)
          | .ok =>
              if procBuf.length = bufSize then
                let (data, done) := inflated calls
                  ⟨step.next, input, [], totalOut⟩ compRemaining pos
                (procBuf ++ data, done)
              else
                inflated calls ⟨step.next, input, procBuf, totalOut⟩
                  compRemaining pos
          | .streamEnd => (procBuf, some true)

end Delivered

/-- What a function of the caller does with the data it is given: `got` grows
by it, and the archive's descriptor is left alone.  `keeps` holds between two
calls as long as all that was given is a front part of `whole`. -/
structure Consumes {σ : Type} (file : Bytes) (inv : World → Prop)
    (keeps : σ → World → Prop) (got : σ → World → Bytes) (whole : Bytes)
    (process : ProcessFunction σ) : Prop where
  now {cookie : σ} {w : World} (hkeeps : keeps cookie w) : inv w
  move {cookie : σ} {w : World} (pos : Nat) (hkeeps : keeps cookie w) :
    keeps cookie { w with pos := pos }
  got_move (cookie : σ) (w : World) (pos : Nat) :
    got cookie { w with pos := pos } = got cookie w
  step {cookie : σ} {w : World} {data : Bytes} (hkeeps : keeps cookie w)
    (hfront : got cookie w ++ data <+: whole) :
    Prog.Safe (answers file) inv
      (fun r after => keeps r.2 after ∧ after.pos = w.pos ∧
        (r.1 = true → got r.2 after = got cookie w ++ data))
      (process cookie data) w

section Stored

variable {file : Bytes} {pos size : Nat}

theorem window_add (file : Bytes) (pos len more : Nat) :
    file.window pos (len + more) =
      file.window pos len ++ file.window (pos + len) more := by
  unfold Bytes.window
  rw [List.take_add, List.drop_drop]

/-- There are enough rounds for the loop over a stored entry. -/
theorem le_rounds (size : Nat) : size ≤ (size / bufSize + 1) * bufSize := by
  have hdiv := Nat.div_add_mod size bufSize
  have hmod := Nat.mod_lt size (show 0 < bufSize by decide)
  rw [Nat.add_mul, Nat.one_mul, Nat.mul_comm]
  omega

theorem storedData_zero : storedData file pos 0 = [] := by
  rw [storedData, if_pos (Nat.zero_le _), Bytes.window, List.take_zero]

/-- A chunk that can be read comes before the rest. -/
theorem storedData_step
    (hread : min size bufSize ≤ file.length - pos) :
    storedData file pos size = file.window pos (min size bufSize) ++
      storedData file (pos + min size bufSize) (size - min size bufSize) := by
  unfold storedData
  generalize hcount : min size bufSize = count at hread ⊢
  have hle : count ≤ size := by omega
  by_cases hfits : size ≤ file.length - pos
  · rw [if_pos hfits, if_pos (by omega), ← window_add]
    congr 1
    omega
  · have hbuf : count = bufSize := by omega
    rw [if_neg hfits, if_neg (by omega), ← window_add]
    congr 1
    rw [← Nat.sub_sub, hbuf]
    have hdiv := Nat.div_eq_sub_div (show 0 < bufSize by decide)
      (show bufSize ≤ file.length - pos by omega)
    rw [hdiv, Nat.mul_add, Nat.mul_one, Nat.add_comm]

variable {σ : Type} {process : ProcessFunction σ} {inv : World → Prop}
  {keeps : σ → World → Prop} {got : σ → World → Bytes} {whole : Bytes}

theorem storedLoop_safe (hconsumes : Consumes file inv keeps got whole process)
    {rounds bytesLeft : Nat} (hrounds : bytesLeft ≤ rounds * bufSize)
    {cookie : σ} {w : World} (hkeeps : keeps cookie w)
    (hfront : got cookie w ++ storedData file w.pos bytesLeft <+: whole) :
    Prog.Safe (answers file) inv
      (fun r after => keeps r.2 after ∧
        (r.1 = true → bytesLeft ≤ file.length - w.pos ∧
          got r.2 after = got cookie w ++ file.window w.pos bytesLeft))
      (storedLoop process rounds bytesLeft cookie) w := by
  induction rounds generalizing bytesLeft cookie w with
  | zero =>
      obtain rfl : bytesLeft = 0 := by omega
      refine ⟨hconsumes.now hkeeps, hkeeps, fun _ => ⟨Nat.zero_le _, ?_⟩⟩
      simp [Bytes.window]
  | succ rounds ih =>
      rw [storedLoop]
      rw [Nat.add_mul, Nat.one_mul] at hrounds
      by_cases hzero : bytesLeft = 0
      · rw [if_pos hzero]
        subst hzero
        refine ⟨hconsumes.now hkeeps, hkeeps, fun _ => ⟨Nat.zero_le _, ?_⟩⟩
        simp [Bytes.window]
      · rw [if_neg hzero]
        generalize hcount : min bytesLeft bufSize = count
        rw [Prog.perform_bind]
        refine ⟨hconsumes.now hkeeps, ?_⟩
        rintro answer after (⟨rfl, rfl⟩ | ⟨n, hn, rfl, rfl⟩)
        · exact ⟨hconsumes.now hkeeps, hkeeps, fun h => by cases h⟩
        · have hmove := hconsumes.move
            (w.pos + (file.window w.pos n).length) hkeeps
          by_cases hfull : (file.window w.pos n).length = count
          · have hcount_le : count ≤ file.length - w.pos := by
              rw [Bytes.window_length] at hfull
              omega
            have hdata : file.window w.pos n = file.window w.pos count := by
              have hn : n = count := by
                rw [Bytes.window_length] at hfull
                omega
              rw [hn]
            have hstep := storedData_step (hcount.symm ▸ hcount_le)
            rw [hcount] at hstep
            rw [hstep, ← List.append_assoc] at hfront
            dsimp only
            rw [if_neg (not_not.mpr hfull)]
            rw [hdata] at hmove hfull ⊢
            rw [hfull] at hmove ⊢
            apply Prog.Safe.bind (hconsumes.step hmove ?_)
            · rintro ⟨ret, cookie'⟩ after - ⟨hkeeps', hpos, hgot⟩
              cases ret with
              | false =>
                  exact ⟨hconsumes.now hkeeps', hkeeps', fun h => by cases h⟩
              | true =>
                  have hgot := hgot rfl
                  rw [hconsumes.got_move _ w] at hgot
                  dsimp only at hpos
                  apply (ih (by omega) hkeeps' ?_).mono (fun _ h => h)
                  · rintro r last - ⟨hlast, hok⟩
                    refine ⟨hlast, fun htrue => ?_⟩
                    obtain ⟨hleft, hall⟩ := hok htrue
                    rw [hpos] at hleft hall
                    refine ⟨by omega, ?_⟩
                    rw [hall, hgot, List.append_assoc, ← window_add]
                    congr 2
                    omega
                  · rw [hgot, hpos]
                    exact hfront
            · rw [hconsumes.got_move _ w]
              exact (List.prefix_append _ _).trans hfront
          · dsimp only
            rw [if_pos hfull]
            exact ⟨hconsumes.now hmove, hmove, fun h => by cases h⟩

end Stored

section Deflated

variable {file stack : Bytes} {lib : Decoder} {inv : World → Prop}

/-- A refill that does not give up is the one of a read that goes well. -/
theorem refill_safe (stack : Bytes) (z : ZStream lib) (compRemaining : Int)
    (w : World) (hinv : ∀ pos, inv { w with pos := pos }) :
    Prog.Safe (answers file) inv
      (fun r after => ∃ pos, after = { w with pos := pos } ∧
        ∀ z' left, r = some (z', left) →
          refilled file stack z compRemaining w.pos = some (z', left, pos))
      (refill stack z compRemaining) w := by
  unfold refill refilled
  by_cases hinput : z.input ≠ []
  · rw [if_pos hinput, if_pos hinput]
    refine ⟨hinv w.pos, w.pos, rfl, ?_⟩
    intro z' left hsome
    cases hsome
    rfl
  · rw [if_neg hinput, if_neg hinput]
    dsimp only
    generalize (if (bufSize : Int) < compRemaining then (bufSize : Int)
      else compRemaining) = getSize
    rw [Prog.perform_bind]
    refine ⟨hinv w.pos, ?_⟩
    rintro answer after (⟨rfl, rfl⟩ | ⟨n, hn, rfl, rfl⟩)
    · dsimp only
      by_cases hquirk : getSize = -1
      · rw [if_pos hquirk, if_pos (by omega), if_pos hquirk]
        refine ⟨hinv _, _, rfl, ?_⟩
        intro z' left hsome
        cases hsome
        rfl
      · rw [if_neg hquirk, if_neg hquirk]
        exact ⟨hinv _, _, rfl, fun z' left hsome => by cases hsome⟩
    · dsimp only
      rw [if_neg (by omega)]
      by_cases hfull : ((file.window w.pos n).length : Int) = getSize
      · have hn : getSize.toNat = n := by
          rw [Bytes.window_length] at hfull
          omega
        rw [if_pos hfull, hn, if_pos hfull]
        refine ⟨hinv _, _, rfl, ?_⟩
        intro z' left hsome
        cases hsome
        rfl
      · rw [if_neg hfull]
        exact ⟨hinv _, _, rfl, fun z' left hsome => by cases hsome⟩

/-- A refill only changes the input. -/
theorem refilled_same {z z' : ZStream lib} {compRemaining left : Int}
    {pos pos' : Nat}
    (hsome : refilled file stack z compRemaining pos = some (z', left, pos')) :
    z'.state = z.state ∧ z'.procBuf = z.procBuf ∧ z'.totalOut = z.totalOut := by
  unfold refilled at hsome
  split at hsome
  next =>
    cases hsome
    exact ⟨rfl, rfl, rfl⟩
  next =>
    generalize (if (bufSize : Int) < compRemaining then (bufSize : Int)
      else compRemaining) = getSize at hsome
    dsimp only at hsome
    split at hsome
    next =>
      split at hsome
      next =>
        cases hsome
        exact ⟨rfl, rfl, rfl⟩
      next => cases hsome
    next =>
      split at hsome
      next =>
        cases hsome
        exact ⟨rfl, rfl, rfl⟩
      next => cases hsome

variable {σ : Type} {process : ProcessFunction σ}
  {keeps : σ → World → Prop} {got : σ → World → Bytes} {whole : Bytes}

/-- What a result of the loop says of the blocks `given`, when `before` was
handed out and `sent` bytes were counted ahead of them. -/
def InflateOutcome (keeps : σ → World → Prop) (got : σ → World → Bytes)
    (before : Bytes) (sent : Nat) (given : Bytes × Option Bool)
    (r : Option (Int × σ)) (after : World) : Prop :=
  ∀ result cookie, r = some (result, cookie) →
    keeps cookie after ∧ (result ≠ -1 →
      given.2 = some true ∧ got cookie after = before ++ given.1 ∧
      result = toLong (sent + given.1.length))

variable {before : Bytes} {sent : Nat} {given : Bytes × Option Bool}
  {cookie : σ} {after : World}

theorem InflateOutcome.failed (hkeeps : keeps cookie after) :
    InflateOutcome keeps got before sent given (some (-1, cookie)) after := by
  intro result cookie' hsome
  cases hsome
  exact ⟨hkeeps, fun hne => absurd rfl hne⟩

theorem InflateOutcome.ended {block : Bytes} (hkeeps : keeps cookie after)
    (hgot : got cookie after = before ++ block) :
    InflateOutcome keeps got before sent (block, some true)
      (some (toLong (sent + block.length), cookie)) after := by
  intro result cookie' hsome
  cases hsome
  exact ⟨hkeeps, fun _ => ⟨rfl, hgot, rfl⟩⟩

/-- A block that was handed out counts with what comes after it. -/
theorem InflateOutcome.flushed {block : Bytes} {r : Option (Int × σ)}
    (hrest : InflateOutcome keeps got (before ++ block)
      (sent + block.length) given r after) :
    InflateOutcome keeps got before sent (block ++ given.1, given.2) r
      after := by
  intro result cookie' hsome
  obtain ⟨hkeeps, hend⟩ := hrest result cookie' hsome
  refine ⟨hkeeps, fun hne => ?_⟩
  obtain ⟨hover, hall, hresult⟩ := hend hne
  refine ⟨hover, by rw [hall, List.append_assoc], ?_⟩
  rw [hresult, List.length_append, Nat.add_assoc]

/-- If the loop comes to the end of the stream, it has handed out all of it. -/
theorem inflateLoop_safe
    (hconsumes : Consumes file inv keeps got whole process) {calls : Nat}
    {z : ZStream lib} {compRemaining : Int}
    (hsent : z.totalOut = sent + z.procBuf.length) {w : World}
    (hkeeps : keeps cookie w)
    (hfront : got cookie w ++
      (inflated file stack calls z compRemaining w.pos).1 <+: whole) :
    Prog.Safe (answers file) inv
      (InflateOutcome keeps got (got cookie w) sent
        (inflated file stack calls z compRemaining w.pos))
      (inflateLoop process stack calls z compRemaining cookie) w := by
  induction calls generalizing z compRemaining sent cookie w with
  | zero => exact ⟨hconsumes.now hkeeps, fun _ _ h => by cases h⟩
  | succ calls ih =>
      rw [inflateLoop]
      have hmoved := fun pos => hconsumes.now (hconsumes.move pos hkeeps)
      apply Prog.Safe.bind
        (refill_safe stack z compRemaining w hmoved)
      rintro r after hinv ⟨pos, rfl, hrefilled⟩
      have hkeeps := hconsumes.move pos hkeeps
      cases r with
      | none => exact ⟨hinv, .failed hkeeps⟩
      | some filled =>
          obtain ⟨z', left⟩ := filled
          have hrefilled := hrefilled z' left rfl
          obtain ⟨-, hprocBuf, htotal⟩ := refilled_same hrefilled
          rw [← hprocBuf, ← htotal] at hsent
          have hgot : got cookie { w with pos := pos } = got cookie w :=
            hconsumes.got_move cookie w pos
          unfold inflated at hfront ⊢
          simp only [hrefilled] at hfront ⊢
          generalize lib.decompress z'.state z'.input
            (bufSize - z'.procBuf.length) = step at hfront ⊢
          generalize hbuf : z'.procBuf ++ step.output = procBuf at hfront ⊢
          have hlength : z'.totalOut + step.output.length =
              sent + procBuf.length := by
            rw [hsent, ← hbuf, List.length_append, Nat.add_assoc]
          rw [hlength] at hfront ⊢
          cases hstatus : step.status with
          | error code => exact ⟨hinv, .failed hkeeps⟩
          | streamEnd =>
              simp only [hstatus] at hfront ⊢
              by_cases hempty : procBuf ≠ []
              · rw [if_pos hempty]
                apply Prog.Safe.bind (hconsumes.step hkeeps (hgot ▸ hfront))
                rintro ⟨ret, cookie'⟩ after hinv' ⟨hkeeps', -, hdone⟩
                cases ret with
                | false => exact ⟨hinv', .failed hkeeps'⟩
                | true =>
                    have hdone := hdone rfl
                    rw [hgot] at hdone
                    exact ⟨hinv', .ended hkeeps' hdone⟩
              · rw [if_neg hempty]
                refine ⟨hinv, .ended hkeeps ?_⟩
                rw [hgot, not_not.mp hempty, List.append_nil]
          | ok =>
              simp only [hstatus] at hfront ⊢
              by_cases hfull : procBuf.length = bufSize
              · simp only [if_pos hfull] at hfront ⊢
                rw [← List.append_assoc] at hfront
                have hfirst : got cookie w ++ procBuf <+: whole :=
                  (List.prefix_append _ _).trans hfront
                apply Prog.Safe.bind (hconsumes.step hkeeps (hgot ▸ hfirst))
                rintro ⟨ret, cookie'⟩ after hinv' ⟨hkeeps', hpos, hdone⟩
                cases ret with
                | false => exact ⟨hinv', .failed hkeeps'⟩
                | true =>
                    have hdone := hdone rfl
                    dsimp only at hpos hdone
                    rw [hgot] at hdone
                    rw [← hdone, ← hpos] at hfront
                    have hflushed : sent + procBuf.length =
                        sent + procBuf.length + ([] : Bytes).length := rfl
                    apply (ih hflushed hkeeps' hfront).mono (fun _ h => h)
                    rw [hdone, hpos]
                    exact fun _ _ _ hrest => hrest.flushed
              · simp only [if_neg hfull] at hfront ⊢
                rw [← hgot] at hfront ⊢
                exact ih rfl hkeeps hfront

end Deflated

section Entry

variable (file stack : Bytes) (calls : Nat) (lib : Decoder)
  (entry : ZipEntry)

/-- What an entry hands out when its data is read from `start` on, and whether
that is all. -/
def delivered (start : Nat) : Bytes × Option Bool :=
  if entry.compression = STORED then
    (storedData file start (toSize entry.compLen),
      some (decide (toSize entry.compLen ≤ file.length - start)))
  else if entry.compression = DEFLATED then
    inflated file stack calls (ZStream.init lib) entry.compLen start
  else ([], some false)

variable {file stack calls lib entry} {σ : Type} {inv : World → Prop}
  {process : ProcessFunction σ} {keeps : σ → World → Prop}
  {got : σ → World → Bytes} {whole : Bytes}

theorem World.exists_seek (w : World) (offset : Int) :
    ∃ pos, w.seek offset = { w with pos := pos } := by
  unfold World.seek
  split
  next => exact ⟨_, rfl⟩
  next => exact ⟨w.pos, rfl⟩

/-- Every failure of the loop around `inflate` gives the result -1, and that
is the length the entry declares. -/
def ZipEntry.TakesFailures (entry : ZipEntry) : Prop :=
  entry.compression = DEFLATED ∧ entry.uncompLen = -1

theorem delivered_stored (hstored : entry.compression = STORED)
    (start : Nat) :
    delivered file stack calls lib entry start =
      (storedData file start (toSize entry.compLen),
        some (decide (toSize entry.compLen ≤ file.length - start))) :=
  if_pos hstored

theorem delivered_deflated (hdeflated : entry.compression = DEFLATED)
    (start : Nat) :
    delivered file stack calls lib entry start =
      inflated file stack calls (ZStream.init lib) entry.compLen start := by
  unfold delivered
  rw [if_neg (by rw [hdeflated]; decide), if_pos hdeflated]

/-- What a result of an entry says when its data is read from `start` on. -/
def Outcome (file stack : Bytes) (calls : Nat) (lib : Decoder)
    (entry : ZipEntry) (start : Nat) (keeps : σ → World → Prop)
    (got : σ → World → Bytes) (before : Bytes) (r : Option (Bool × σ))
    (after : World) : Prop :=
  ∀ ret cookie, r = some (ret, cookie) →
    keeps cookie after ∧ (ret = true → ¬entry.TakesFailures →
      (delivered file stack calls lib entry start).2 = some true ∧
      got cookie after =
        before ++ (delivered file stack calls lib entry start).1 ∧
      (entry.compression = DEFLATED →
        toLong (delivered file stack calls lib entry start).1.length =
          entry.uncompLen))

theorem processEntry_safe
    (hconsumes : Consumes file inv keeps got whole process) {cookie : σ}
    {w : World} (hkeeps : keeps cookie w)
    (hfront : got cookie w ++
      (delivered file stack calls lib entry w.pos).1 <+: whole) :
    Prog.Safe (answers file) inv
      (Outcome file stack calls lib entry w.pos keeps got (got cookie w))
      (processEntry process stack calls lib entry cookie) w := by
  have hnow := hconsumes.now hkeeps
  unfold processEntry
  by_cases hstored : entry.compression = STORED
  · rw [if_pos hstored]
    rw [delivered_stored hstored] at hfront
    apply Prog.Safe.bind
      (storedLoop_safe hconsumes (le_rounds _) hkeeps hfront)
    rintro ⟨ret, cookie'⟩ after hinv ⟨hkeeps', hall⟩
    refine ⟨hinv, ?_⟩
    intro ret' cookie'' hsome
    cases hsome
    refine ⟨hkeeps', fun htrue _ => ?_⟩
    obtain ⟨hfits, hgot⟩ := hall htrue
    rw [delivered_stored hstored, storedData, if_pos hfits]
    refine ⟨by rw [decide_eq_true hfits], hgot, ?_⟩
    intro hdeflated
    rw [hstored] at hdeflated
    exact absurd hdeflated (by decide)
  · rw [if_neg hstored]
    by_cases hdeflated : entry.compression = DEFLATED
    · rw [if_pos hdeflated, processDeflatedEntry, Prog.perform_bind]
      rw [delivered_deflated hdeflated] at hfront
      refine ⟨hnow, ?_⟩
      rintro ready after rfl
      cases ready with
      | false =>
          refine ⟨hnow, ?_⟩
          intro ret cookie' hsome
          cases hsome
          refine ⟨hkeeps, fun htrue hnot => ?_⟩
          exact absurd ⟨hdeflated, (of_decide_eq_true htrue).symm⟩ hnot
      | true =>
          have hsent : (ZStream.init lib).totalOut =
              0 + (ZStream.init lib).procBuf.length := rfl
          apply Prog.Safe.bind
            (inflateLoop_safe hconsumes hsent hkeeps hfront)
          intro r last hinv hend
          cases r with
          | none => exact ⟨hinv, fun _ _ hsome => by cases hsome⟩
          | some answer =>
              obtain ⟨result, cookie'⟩ := answer
              obtain ⟨hkeeps', hall⟩ := hend result cookie' rfl
              refine ⟨hinv, ?_⟩
              intro ret cookie'' hsome
              cases hsome
              refine ⟨hkeeps', fun htrue hnot => ?_⟩
              have hresult : result = entry.uncompLen :=
                of_decide_eq_true htrue
              have hne : result ≠ -1 := by
                intro hminus
                exact hnot ⟨hdeflated, hresult ▸ hminus⟩
              obtain ⟨hover, hgot, hlength⟩ := hall hne
              rw [delivered_deflated hdeflated]
              refine ⟨hover, hgot, fun _ => ?_⟩
              rw [← hresult, hlength, Nat.zero_add]
    · rw [if_neg hdeflated]
      refine ⟨hnow, ?_⟩
      intro ret cookie' hsome
      cases hsome
      exact ⟨hkeeps, fun h => by cases h⟩

/-- Whatever fails, a function of the caller is given a front part of what the
entry hands out, and all of it if the result is true. -/
theorem mzProcessZipEntryContents_safe
    (hconsumes : Consumes file inv keeps got whole process) {cookie : σ}
    {w : World} (hkeeps : keeps cookie w)
    (hfront : got cookie w ++ (delivered file stack calls lib entry
      (w.seek entry.offset).pos).1 <+: whole) :
    Prog.Safe (answers file) inv
      (Outcome file stack calls lib entry (w.seek entry.offset).pos keeps got
        (got cookie w))
      (mzProcessZipEntryContents process stack calls lib entry cookie) w := by
  have hkept : ∀ {w : World} {cookie : σ} (offset : Int), keeps cookie w →
      keeps cookie (w.seek offset) ∧
        got cookie (w.seek offset) = got cookie w := by
    intro w cookie offset hw
    obtain ⟨pos, hseek⟩ := w.exists_seek offset
    rw [hseek]
    exact ⟨hconsumes.move pos hw, hconsumes.got_move cookie w pos⟩
  rw [mzProcessZipEntryContents, Prog.perform_bind]
  refine ⟨hconsumes.now hkeeps, ?_⟩
  rintro oldOff after ⟨rfl, rfl⟩
  dsimp only
  rw [Prog.perform_bind]
  refine ⟨hconsumes.now hkeeps, ?_⟩
  rintro - w' rfl
  obtain ⟨hmoved, hgot⟩ := hkept entry.offset hkeeps
  rw [← hgot] at hfront
  apply Prog.Safe.bind (processEntry_safe hconsumes hmoved hfront)
  intro r last hinv hend
  cases r with
  | none => exact ⟨hinv, fun _ _ hsome => by cases hsome⟩
  | some answer =>
      obtain ⟨ret, cookie'⟩ := answer
      obtain ⟨hkeeps', hall⟩ := hend ret cookie' rfl
      refine ⟨hinv, ?_⟩
      rintro - back rfl
      obtain ⟨hback, hgot_back⟩ := hkept after.pos hkeeps'
      refine ⟨hconsumes.now hback, ?_⟩
      intro ret' cookie'' hsome
      cases hsome
      refine ⟨hback, fun htrue hnot => ?_⟩
      rw [hgot_back, ← hgot]
      exact hall htrue hnot

end Entry

/-- The environment in which nothing fails. -/
def smooth (file : Bytes) : (c : Call) → World → Answer c × World
  | .lseekCur, w => (w.pos, w)
  | .lseekSet offset, w => ((), w.seek offset)
  | .read size, w =>
      if size < 0 then (none, w)
      else
        let data := file.window w.pos size.toNat
        (some data, { w with pos := w.pos + data.length })
  | .processFunction data, w =>
      (true, { w with received := w.received ++ data })
  | .memmove data, w => ((), { w with buffer := w.buffer ++ data })
  | .write fd data, w => (some data.length, w.append fd data)
  | .dirCreateHierarchy path stripFileName, w =>
      (true, if !stripFileName then { w with made := w.made ++ [.dir path] }
        else w)
  | .creat path, w =>
      (some w.made.length, { w with made := w.made ++ [.file path []] })
  | .symlink target path, w =>
      (true, { w with made := w.made ++ [.link target path] })
  | .logError message, w => ((), { w with log := w.log ++ [message] })
  | .inflateInit, w | .allocate _, w | .utime _, w => (true, w)
  | .close _, w | .callback _, w => ((), w)

theorem smooth_read {file : Bytes} {size : Int} (w : World)
    (hsize : 0 ≤ size) :
    smooth file (.read size) w = (some (file.window w.pos size.toNat),
      { w with pos := w.pos + (file.window w.pos size.toNat).length }) :=
  if_neg (by omega)

theorem smooth_read_neg {file : Bytes} {size : Int} (w : World)
    (hsize : size < 0) : smooth file (.read size) w = (none, w) :=
  if_pos hsize

theorem smooth_allowed (file : Bytes) (c : Call) (w : World) :
    answers file c w (smooth file c w).1 (smooth file c w).2 := by
  cases c with
  | lseekCur => exact ⟨rfl, rfl⟩
  | read size =>
      by_cases hneg : size < 0
      · rw [smooth_read_neg w hneg]
        exact .inl ⟨rfl, rfl⟩
      · rw [smooth_read w (by omega)]
        exact .inr ⟨size.toNat, by omega, rfl, rfl⟩
  | write fd data =>
      exact .inr ⟨data.length, rfl, by rw [List.take_length]; rfl⟩
  | creat path => exact .inr ⟨rfl, rfl⟩
  | _ => rfl

section Smooth

variable {file : Bytes} {σ : Type}

/-- When nothing fails, a function of the caller takes all data. -/
def Swallows (file : Bytes) (got : World → Bytes)
    (process : ProcessFunction σ) : Prop :=
  ∀ cookie data w, ∃ cookie' after,
    (process cookie data).eval (smooth file) w = ((true, cookie'), after) ∧
      after.pos = w.pos ∧ got after = got w ++ data

variable {process : ProcessFunction σ} {got : World → Bytes}

theorem storedLoop_eval (hswallows : Swallows file got process)
    (hmove : ∀ w pos, got { w with pos := pos } = got w)
    {rounds bytesLeft : Nat} (hrounds : bytesLeft ≤ rounds * bufSize)
    (cookie : σ) (w : World) :
    ∃ cookie' after,
      (storedLoop process rounds bytesLeft cookie).eval (smooth file) w =
        ((decide (bytesLeft ≤ file.length - w.pos), cookie'), after) ∧
      got after = got w ++ storedData file w.pos bytesLeft := by
  induction rounds generalizing bytesLeft cookie w with
  | zero =>
      obtain rfl : bytesLeft = 0 := by omega
      exact ⟨cookie, w, by simp [storedLoop], by simp [storedData_zero]⟩
  | succ rounds ih =>
      rw [storedLoop]
      rw [Nat.add_mul, Nat.one_mul] at hrounds
      by_cases hzero : bytesLeft = 0
      · rw [if_pos hzero]
        subst hzero
        exact ⟨cookie, w, by simp, by simp [storedData_zero]⟩
      · rw [if_neg hzero]
        generalize hcount : min bytesLeft bufSize = count
        have hread : smooth file (.read count) w =
            (some (file.window w.pos count),
              { w with pos := w.pos + (file.window w.pos count).length }) := by
          rw [smooth_read w (by omega), Int.toNat_natCast]
        rw [Prog.perform_bind, Prog.eval_call, hread]
        dsimp only
        by_cases hfull : (file.window w.pos count).length = count
        · have hcount_le : count ≤ file.length - w.pos := by
            rw [Bytes.window_length] at hfull
            omega
          have hstep := storedData_step (hcount.symm ▸ hcount_le)
          rw [hcount] at hstep
          rw [if_neg (not_not.mpr hfull), Prog.eval_bind, hfull]
          obtain ⟨cookie', after, hprocess, hpos, hgot⟩ := hswallows cookie
            (file.window w.pos count) { w with pos := w.pos + count }
          rw [hprocess]
          dsimp only at hpos ⊢
          have hleft : bytesLeft - count ≤ rounds * bufSize := by omega
          obtain ⟨cookie'', last, hloop, hlast⟩ := ih hleft cookie' after
          refine ⟨cookie'', last, ?_, ?_⟩
          · rw [if_pos rfl, hloop, hpos]
            congr 2
            rw [decide_eq_decide]
            omega
          · rw [hlast, hgot, hmove, hpos, hstep, List.append_assoc]
        · rw [if_pos hfull]
          have hshort : ¬bytesLeft ≤ file.length - w.pos := by
            rw [Bytes.window_length] at hfull
            omega
          have hblocks : (file.length - w.pos) / bufSize = 0 := by
            apply Nat.div_eq_of_lt
            rw [Bytes.window_length] at hfull
            omega
          refine ⟨cookie,
            { w with pos := w.pos + (file.window w.pos count).length }, ?_, ?_⟩
          · rw [Prog.pure_eq_ret, Prog.eval_ret, decide_eq_false hshort]
          · rw [hmove, storedData, if_neg hshort, hblocks, Nat.mul_zero,
              Bytes.window, List.take_zero, List.append_nil]

theorem refill_eval (file stack : Bytes) {lib : Decoder} (z : ZStream lib)
    (compRemaining : Int) (w : World) :
    ∃ pos, (refill stack z compRemaining).eval (smooth file) w =
      ((refilled file stack z compRemaining w.pos).map
        fun (z, left, _) => (z, left), { w with pos := pos }) ∧
      ∀ z' left pos',
        refilled file stack z compRemaining w.pos = some (z', left, pos') →
          pos' = pos := by
  unfold refill refilled
  by_cases hinput : z.input ≠ []
  · rw [if_pos hinput, if_pos hinput]
    exact ⟨w.pos, rfl, fun _ _ _ hsome => by cases hsome; rfl⟩
  · rw [if_neg hinput, if_neg hinput]
    dsimp only
    generalize (if (bufSize : Int) < compRemaining then (bufSize : Int)
      else compRemaining) = getSize
    rw [Prog.perform_bind, Prog.eval_call]
    by_cases hneg : getSize < 0
    · rw [smooth_read_neg w hneg, if_pos hneg]
      dsimp only
      by_cases hquirk : getSize = -1
      · rw [if_pos hquirk, if_pos hquirk]
        exact ⟨w.pos, rfl, fun _ _ _ hsome => by cases hsome; rfl⟩
      · rw [if_neg hquirk, if_neg hquirk]
        exact ⟨w.pos, rfl, fun _ _ _ hsome => by cases hsome⟩
    · rw [smooth_read w (by omega), if_neg hneg]
      dsimp only
      by_cases hfull :
          ((file.window w.pos getSize.toNat).length : Int) = getSize
      · rw [if_pos hfull, if_pos hfull]
        exact ⟨_, rfl, fun _ _ _ hsome => by cases hsome; rfl⟩
      · rw [if_neg hfull, if_neg hfull]
        exact ⟨_, rfl, fun _ _ _ hsome => by cases hsome⟩

theorem inflateLoop_eval (hswallows : Swallows file got process)
    (hmove : ∀ w pos, got { w with pos := pos } = got w) {lib : Decoder}
    (stack : Bytes) (calls : Nat) (z : ZStream lib) (compRemaining : Int)
    {sent : Nat} (hsent : z.totalOut = sent + z.procBuf.length) (cookie : σ)
    (w : World) :
    ∃ r after,
      (inflateLoop process stack calls z compRemaining cookie).eval
        (smooth file) w = (r, after) ∧
      got after =
        got w ++ (inflated file stack calls z compRemaining w.pos).1 ∧
      ((inflated file stack calls z compRemaining w.pos).2 = some true →
        ∃ cookie', r = some (toLong (sent +
          (inflated file stack calls z compRemaining w.pos).1.length),
          cookie')) := by
  induction calls generalizing z compRemaining sent cookie w with
  | zero =>
      exact ⟨none, w, rfl, (List.append_nil _).symm, fun h => by cases h⟩
  | succ calls ih =>
      rw [inflateLoop]
      unfold inflated
      obtain ⟨pos, hrefill, hpos⟩ :=
        refill_eval file stack z compRemaining w
      rw [Prog.eval_bind, hrefill]
      cases hrefilled : refilled file stack z compRemaining w.pos with
      | none =>
          exact ⟨_, _, rfl, by rw [hmove, List.append_nil],
            fun h => by cases h⟩
      | some filled =>
          obtain ⟨z', left, pos'⟩ := filled
          obtain rfl := hpos z' left pos' hrefilled
          obtain ⟨-, hprocBuf, htotal⟩ := refilled_same hrefilled
          rw [← hprocBuf, ← htotal] at hsent
          have hgot : got { w with pos := pos' } = got w := hmove w pos'
          dsimp only [Option.map_some]
          generalize lib.decompress z'.state z'.input
            (bufSize - z'.procBuf.length) = step
          cases hstatus : step.status with
          | error code =>
              exact ⟨_, _, rfl, by rw [hmove, List.append_nil],
                fun h => by cases h⟩
          | streamEnd =>
              dsimp only
              generalize hbuf : z'.procBuf ++ step.output = procBuf
              have hlength : z'.totalOut + step.output.length =
                  sent + procBuf.length := by
                rw [hsent, ← hbuf, List.length_append, Nat.add_assoc]
              rw [hlength]
              by_cases hempty : procBuf ≠ []
              · obtain ⟨cookie', after, hprocess, -, hafter⟩ :=
                  hswallows cookie procBuf { w with pos := pos' }
                rw [if_pos hempty, Prog.eval_bind, hprocess]
                exact ⟨_, _, rfl, by rw [hafter, hgot],
                  fun _ => ⟨cookie', rfl⟩⟩
              · rw [if_neg hempty]
                refine ⟨_, _, rfl, ?_, fun _ => ⟨cookie, rfl⟩⟩
                rw [hmove, not_not.mp hempty, List.append_nil]
          | ok =>
              dsimp only
              generalize hbuf : z'.procBuf ++ step.output = procBuf
              have hlength : z'.totalOut + step.output.length =
                  sent + procBuf.length := by
                rw [hsent, ← hbuf, List.length_append, Nat.add_assoc]
              rw [hlength]
              by_cases hfull : procBuf.length = bufSize
              · obtain ⟨cookie', after, hprocess, hpos', hafter⟩ :=
                  hswallows cookie procBuf { w with pos := pos' }
                dsimp only at hpos'
                have hflushed : sent + procBuf.length =
                    sent + procBuf.length + ([] : Bytes).length := rfl
                obtain ⟨r, last, hloop, hlast, hend⟩ :=
                  ih ⟨step.next, z'.input.drop step.taken, [],
                    sent + procBuf.length⟩ left hflushed cookie' after
                rw [if_pos hfull, if_pos hfull, Prog.eval_bind, hprocess]
                rw [hpos'] at hlast hend
                refine ⟨r, last, hloop, ?_, ?_⟩
                · rw [hlast, hafter, hgot, List.append_assoc]
                · intro hover
                  obtain ⟨cookie'', hr⟩ := hend hover
                  refine ⟨cookie'', ?_⟩
                  rw [hr, List.length_append, Nat.add_assoc]
              · rw [if_neg hfull, if_neg hfull]
                obtain ⟨r, last, hloop, hlast, hend⟩ :=
                  ih ⟨step.next, z'.input.drop step.taken, procBuf,
                    sent + procBuf.length⟩ left rfl cookie
                    { w with pos := pos' }
                exact ⟨r, last, hloop, by rw [hlast, hgot], hend⟩

variable (stack : Bytes) (calls : Nat) (lib : Decoder) (entry : ZipEntry)

theorem processEntry_eval (hswallows : Swallows file got process)
    (hmove : ∀ w pos, got { w with pos := pos } = got w) (cookie : σ)
    (w : World) :
    ∃ r after,
      (processEntry process stack calls lib entry cookie).eval (smooth file)
        w = (r, after) ∧
      got after =
        got w ++ (delivered file stack calls lib entry w.pos).1 ∧
      ((delivered file stack calls lib entry w.pos).2 = some true →
        (entry.compression = DEFLATED →
          toLong (delivered file stack calls lib entry w.pos).1.length =
            entry.uncompLen) →
        ∃ cookie', r = some (true, cookie')) := by
  unfold processEntry
  by_cases hstored : entry.compression = STORED
  · obtain ⟨cookie', after, hloop, hafter⟩ :=
      storedLoop_eval hswallows hmove (le_rounds (toSize entry.compLen))
        cookie w
    rw [if_pos hstored, processStoredEntry, Prog.eval_bind, hloop,
      delivered_stored hstored]
    refine ⟨_, _, rfl, hafter, ?_⟩
    intro hover _
    rw [Option.some_inj.mp hover]
    exact ⟨cookie', rfl⟩
  · rw [if_neg hstored]
    by_cases hdeflated : entry.compression = DEFLATED
    · have hsent : (ZStream.init lib).totalOut =
          0 + (ZStream.init lib).procBuf.length := rfl
      obtain ⟨r, after, hloop, hafter, hend⟩ := inflateLoop_eval hswallows
        hmove stack calls (ZStream.init lib) entry.compLen hsent cookie w
      rw [if_pos hdeflated, processDeflatedEntry, Prog.perform_bind,
        Prog.eval_call, delivered_deflated hdeflated]
      have hready : smooth file .inflateInit w = (true, w) := rfl
      rw [hready, if_pos rfl, Prog.eval_bind, hloop]
      refine ⟨_, _, rfl, ?_, ?_⟩
      · cases r with
        | none => exact hafter
        | some answer => exact hafter
      · intro hover hlength
        obtain ⟨cookie', rfl⟩ := hend hover
        refine ⟨cookie', ?_⟩
        rw [Nat.zero_add, hlength hdeflated]
        simp
    · rw [if_neg hdeflated, delivered, if_neg hstored, if_neg hdeflated]
      exact ⟨_, _, rfl, (List.append_nil _).symm, fun h => by cases h⟩

/-- When nothing fails, all that an entry hands out is taken. -/
theorem mzProcessZipEntryContents_eval (hswallows : Swallows file got process)
    (hmove : ∀ w pos, got { w with pos := pos } = got w) (cookie : σ)
    (w : World) :
    ∃ r after,
      (mzProcessZipEntryContents process stack calls lib entry cookie).eval
        (smooth file) w = (r, after) ∧
      got after = got w ++ (delivered file stack calls lib entry
        (w.seek entry.offset).pos).1 ∧
      ((delivered file stack calls lib entry
          (w.seek entry.offset).pos).2 = some true →
        (entry.compression = DEFLATED →
          toLong (delivered file stack calls lib entry
            (w.seek entry.offset).pos).1.length = entry.uncompLen) →
        ∃ cookie', r = some (true, cookie')) := by
  have hgot : ∀ (w : World) (offset : Int), got (w.seek offset) = got w := by
    intro w offset
    obtain ⟨pos, hseek⟩ := w.exists_seek offset
    rw [hseek, hmove]
  obtain ⟨r, after, hentry, hafter, hend⟩ := processEntry_eval stack calls
    lib entry hswallows hmove cookie (w.seek entry.offset)
  rw [hgot] at hafter
  have htell : smooth file .lseekCur w = ((w.pos : Int), w) := rfl
  have hseek : smooth file (.lseekSet entry.offset) w =
      ((), w.seek entry.offset) := rfl
  rw [mzProcessZipEntryContents, Prog.perform_bind, Prog.eval_call, htell,
    Prog.perform_bind, Prog.eval_call, hseek, Prog.eval_bind, hentry]
  cases r with
  | none =>
      refine ⟨none, after, rfl, hafter, ?_⟩
      intro hover hlength
      obtain ⟨cookie', hr⟩ := hend hover hlength
      cases hr
  | some answer =>
      obtain ⟨ret, cookie'⟩ := answer
      refine ⟨some (ret, cookie'), after.seek w.pos, rfl, ?_, hend⟩
      rw [hgot, hafter]

end Smooth

end MinZip

end MetaOS
