/-
hardware/ril/reference-ril/atchannel.c: where the data in the buffer of
`readline` end, and where its cursor stands.

Behind the end are bytes of earlier reads.  The stream is arbitrary here: it
may have NULs, prompts, and lines that do not fit.
-/
import Mathlib.Data.List.TakeWhile
import MetaOS.AtReader
import MetaOS.EventRuns

namespace MetaOS

namespace AtChannel

open EventRuns

/-- The buffer, and the end of the data read so far: `p_read` as the last call
left it. -/
structure Reader where
  input : Input
  pRead : Nat

def Reader.start (modem : Bytes) (cuts : List Nat) : Reader :=
  ⟨.start modem cuts, 0⟩

/-- There is room behind `p_read`, or the buffer is ditched. -/
def Reader.room (r : Reader) : Reader :=
  if MAX_AT_RESPONSE - r.pRead = 0 then ⟨r.input.ditch, 0⟩ else r

/-- What was read is stored, and leading newlines are skipped. -/
def Reader.store (r : Reader) (bytes : Bytes) : Reader :=
  let buffer := poke r.input.sATBuffer r.pRead (bytes ++ [0])
  ⟨{ r.input with
      sATBuffer := buffer
      sATBufferCur := skipNewlines buffer r.input.sATBufferCur },
    r.pRead + bytes.length⟩

/-- The data read so far and not consumed. -/
def Reader.data (r : Reader) : Bytes :=
  (r.input.sATBuffer.take r.pRead).drop r.input.sATBufferCur

/-- `readLoop`, with the end of the data. -/
def readLoopTo : (rounds : Nat) → Reader → Option (Option Nat × Reader)
  | 0, _ => none
  | rounds + 1, r =>
      let r := r.room
      let (bytes, input) := r.input.read (MAX_AT_RESPONSE - r.pRead)
      if bytes.isEmpty then some (none, ⟨input, r.pRead⟩)
      else
        let r := Reader.store ⟨input, r.pRead⟩ bytes
        match findNextEOL r.input.sATBuffer r.input.sATBufferCur with
        | some eol => some (some eol, r)
        | none => readLoopTo rounds r

/-- `Input.readMore`, with the end of the data. -/
def Reader.readMore (r : Reader) : Option (Option Bytes × Reader) :=
  match readLoopTo (r.input.modem.length + 1) r with
  | none => none
  | some (none, r) => some (none, r)
  | some (some eol, r) =>
      let (line, input) := r.input.takeLine eol
      some (some line, ⟨input, r.pRead⟩)

/-- The cursor behind leading newlines. -/
def Reader.skip (r : Reader) : Reader :=
  ⟨{ r.input with
      sATBufferCur :=
        skipNewlines r.input.sATBuffer r.input.sATBufferCur }, r.pRead⟩

/-- A partial line is moved up. -/
def Reader.moveUp (r : Reader) : Reader :=
  let partLine :=
    (r.input.sATBuffer.drop r.input.sATBufferCur).takeWhile (· ≠ 0)
  ⟨{ r.input with
      sATBuffer := poke r.input.sATBuffer 0 (partLine ++ [0])
      sATBufferCur := 0 }, partLine.length⟩

/-- `readline`, with the end of the data. -/
def readlineTo (r : Reader) : Option (Option Bytes × Reader) :=
  if r.input.sATBuffer.getD r.input.sATBufferCur 0 = 0 then
    Reader.readMore ⟨r.input.ditch, 0⟩
  else
    let r := r.skip
    match findNextEOL r.input.sATBuffer r.input.sATBufferCur with
    | some eol =>
        let (line, input) := r.input.takeLine eol
        some (some line, ⟨input, r.pRead⟩)
    | none => r.moveUp.readMore

/-- The data at each look for the end of a line in the loop. -/
def loopLooks : (rounds : Nat) → Reader → List Bytes
  | 0, _ => []
  | rounds + 1, r =>
      let r := r.room
      let (bytes, input) := r.input.read (MAX_AT_RESPONSE - r.pRead)
      if bytes.isEmpty then []
      else
        let r := Reader.store ⟨input, r.pRead⟩ bytes
        r.data ::
          match findNextEOL r.input.sATBuffer r.input.sATBufferCur with
          | some _ => []
          | none => loopLooks rounds r

/-- The data at each look for the end of a line in a call of `readline`. -/
def Reader.looks (r : Reader) : List Bytes :=
  if r.input.sATBuffer.getD r.input.sATBufferCur 0 = 0 then
    loopLooks (r.input.modem.length + 1) ⟨r.input.ditch, 0⟩
  else
    let r := r.skip
    r.data ::
      match findNextEOL r.input.sATBuffer r.input.sATBufferCur with
      | some _ => []
      | none => loopLooks (r.input.modem.length + 1) r.moveUp

theorem readLoop_eq (rounds : Nat) (r : Reader) :
    readLoop rounds r.input r.pRead =
      (readLoopTo rounds r).map fun (eol, r) => (eol, r.input) := by
  induction rounds generalizing r with
  | zero => rfl
  | succ rounds ih =>
      have hroom : (if MAX_AT_RESPONSE - r.pRead = 0 then (r.input.ditch, 0)
          else (r.input, r.pRead)) = (r.room.input, r.room.pRead) := by
        unfold Reader.room
        split <;> rfl
      rw [readLoop, readLoopTo, hroom]
      dsimp only
      split
      next => rfl
      next =>
        have hnext := ih (Reader.store
          ⟨(r.room.input.read (MAX_AT_RESPONSE - r.room.pRead)).2,
            r.room.pRead⟩
          (r.room.input.read (MAX_AT_RESPONSE - r.room.pRead)).1)
        dsimp only [Reader.store] at hnext ⊢
        generalize findNextEOL _ _ = found
        cases found with
        | some eol => rfl
        | none => exact hnext

/-- The end of the data is only remembered: the calls do what `readline`
does. -/
theorem readline_eq (r : Reader) :
    readline r.input =
      (readlineTo r).map fun (line, r) => (line, r.input) := by
  have hmore (r : Reader) : r.input.readMore r.pRead =
      r.readMore.map fun (line, r) => (line, r.input) := by
    rw [Input.readMore, Reader.readMore, readLoop_eq]
    cases readLoopTo (r.input.modem.length + 1) r with
    | none => rfl
    | some result =>
        obtain ⟨eol, r'⟩ := result
        cases eol <;> rfl
  unfold readline readlineTo
  split
  next => exact hmore ⟨r.input.ditch, 0⟩
  next =>
    dsimp only [Reader.skip]
    generalize findNextEOL _ _ = found
    cases found with
    | some eol => rfl
    | none => exact hmore r.skip.moveUp

/-- The cursor stands before `data`, and these end with a NUL where the data
read so far end. -/
def Reader.Stands (r : Reader) (before data : Bytes) : Prop :=
  ∃ rest, r.input.sATBuffer = before ++ (data ++ 0 :: rest) ∧
    r.input.sATBuffer.length = MAX_AT_RESPONSE + 1 ∧
    r.input.sATBufferCur = before.length ∧ r.pRead = (before ++ data).length

section Buffer

variable {r r' : Reader} {before data bytes line more rest tail : Bytes}
  {c : UInt8} {eol : Nat}

theorem Reader.Stands.data_eq (hstands : r.Stands before data) :
    r.data = data := by
  obtain ⟨rest, hbuffer, -, hcur, hend⟩ := hstands
  rw [Reader.data, hbuffer, hend, hcur, ← List.append_assoc, List.take_left,
    List.drop_left]

theorem Reader.Stands.pRead_le (hstands : r.Stands before data) :
    r.pRead ≤ MAX_AT_RESPONSE := by
  obtain ⟨rest, hbuffer, hlength, -, hend⟩ := hstands
  rw [hbuffer] at hlength
  simp only [List.length_append, List.length_cons] at hlength hend
  omega

/-- What the loop skips are data. -/
theorem Reader.Stands.skip (hstands : r.Stands before data) :
    ∃ run tail, data = run ++ tail ∧ r.skip.Stands (before ++ run) tail := by
  obtain ⟨rest, hbuffer, hlength, hcur, hend⟩ := hstands
  have hdata : data.takeWhile isEOL ++ data.dropWhile isEOL = data :=
    List.takeWhile_append_dropWhile
  have hrun : ∀ c ∈ data.takeWhile isEOL, isEOL c = true :=
    fun c hc => List.mem_takeWhile_imp hc
  have hskip : skipNewlines r.input.sATBuffer r.input.sATBufferCur =
      (before ++ data.takeWhile isEOL).length := by
    rw [hbuffer, hcur]
    conv_lhs => rw [← hdata, List.append_assoc]
    cases htail : data.dropWhile isEOL with
    | nil => exact skipNewlines_eq hrun rfl
    | cons b tail =>
        have hb := List.head?_dropWhile_not isEOL data
        rw [htail] at hb
        exact skipNewlines_eq hrun (by simpa using hb)
  refine ⟨data.takeWhile isEOL, data.dropWhile isEOL, hdata.symm, rest, ?_,
    hlength, hskip, ?_⟩
  · change r.input.sATBuffer = _
    rw [hbuffer]
    conv_lhs => rw [← hdata]
    simp only [List.append_assoc]
  · change r.pRead = _
    rw [hend, List.append_assoc, hdata]

/-- The scan for the end of a line does not go beyond the NUL. -/
theorem scan_append_nul :
    ((tail ++ 0 :: rest).takeWhile fun c => c ≠ 0 && !isEOL c) =
      tail.takeWhile fun c => c ≠ 0 && !isEOL c := by
  rw [List.takeWhile_append]
  split
  next hall =>
    rw [List.takeWhile_cons_of_neg (by decide), List.append_nil,
      (List.takeWhile_prefix _).eq_of_length hall]
  next => rfl

/-- The end of a line lies before the end of the data, unless the data are
exactly the prompt. -/
theorem findNextEOL_some (hfind : findNextEOL
      (before ++ (tail ++ 0 :: rest)) before.length = some eol) :
    tail = smsPrompt ∧ eol = (before ++ tail).length ∨
      tail ≠ smsPrompt ∧ ∃ line c more, tail = line ++ c :: more ∧
        0 ∉ line ∧ eol = (before ++ line).length := by
  unfold findNextEOL at hfind
  rw [List.drop_left] at hfind
  split at hfind
  next htake =>
    have heol := (Option.some_inj.mp hfind).symm
    match tail, htake with
    | [], htake => simp [smsPrompt] at htake
    | [_], htake => simp [smsPrompt] at htake
    | [a, b], htake =>
        have hab : a = 62 ∧ b = 32 := by simpa [smsPrompt] using htake
        obtain ⟨rfl, rfl⟩ := hab
        exact .inl ⟨rfl, by simp [heol]⟩
    | a :: b :: c :: more, htake =>
        have habc : a = 62 ∧ b = 32 ∧ c = 0 := by
          simpa [smsPrompt] using htake
        obtain ⟨rfl, rfl, rfl⟩ := habc
        exact .inr ⟨by simp [smsPrompt], [62, 32], 0, more, rfl, by decide,
          by simp [heol]⟩
  next htake =>
    rw [scan_append_nul] at hfind
    dsimp only at hfind
    split at hfind
    next => cases hfind
    next hnonzero =>
      have heol := (Option.some_inj.mp hfind).symm
      have hne : tail ≠ smsPrompt := by
        rintro rfl
        exact htake rfl
      have hsplit := @List.takeWhile_append_dropWhile _
        (fun c : UInt8 => c ≠ 0 && !isEOL c) tail
      cases hdrop : tail.dropWhile fun c : UInt8 => c ≠ 0 && !isEOL c with
      | nil =>
          -- The scan stops at the NUL behind the data.
          rw [hdrop, List.append_nil] at hsplit
          rw [hsplit] at hnonzero
          simp at hnonzero
      | cons c more =>
          rw [hdrop] at hsplit
          refine .inr ⟨hne, _, c, more, hsplit.symm, fun hmem => ?_, ?_⟩
          · have hzero := List.mem_takeWhile_imp hmem
            simp at hzero
          · rw [heol, List.length_append]

theorem findNextEOL_none (hfind : findNextEOL
      (before ++ (tail ++ 0 :: rest)) before.length = none) :
    tail ≠ smsPrompt := by
  rintro rfl
  have htake : (smsPrompt ++ 0 :: rest).take 3 = smsPrompt ++ [0] := rfl
  rw [findNextEOL, List.drop_left, if_pos htake] at hfind
  cases hfind

/-- A line is taken from the front of the data. -/
theorem Reader.Stands.takeLine (hstands : r.Stands before (line ++ c :: more))
    (hline : 0 ∉ line) :
    (r.input.takeLine (before ++ line).length).1 = line ∧
      Reader.Stands ⟨(r.input.takeLine (before ++ line).length).2, r.pRead⟩
        (before ++ line ++ [0]) more := by
  obtain ⟨rest, hbuffer, hlength, hcur, hend⟩ := hstands
  rw [Input.takeLine_eq hbuffer hcur hline]
  refine ⟨rfl, rest, ?_, ?_, ?_, ?_⟩
  · simp
  · rw [hbuffer] at hlength
    simpa using hlength
  · simp [Nat.add_assoc]
  · simp only [hend, List.length_append, List.length_cons, List.length_nil]
    omega

/-- The prompt ends where the data end, and the cursor goes beyond. -/
theorem Reader.Stands.takePrompt (hstands : r.Stands before smsPrompt) :
    (r.input.takeLine (before ++ smsPrompt).length).2.sATBufferCur =
      r.pRead + 1 := by
  obtain ⟨rest, -, -, -, hend⟩ := hstands
  rw [hend]
  rfl

theorem Reader.Stands.moveUp (hstands : r.Stands before data) :
    r.moveUp.Stands [] (data.takeWhile (· ≠ 0)) := by
  have hle := hstands.pRead_le
  obtain ⟨rest, hbuffer, hlength, hcur, hend⟩ := hstands
  have hpart : (r.input.sATBuffer.drop r.input.sATBufferCur).takeWhile
      (· ≠ 0) = data.takeWhile (· ≠ 0) := by
    rw [hbuffer, hcur, List.drop_left, List.takeWhile_append]
    split
    next hall =>
      rw [(List.takeWhile_prefix _).eq_of_length hall]
      simp
    next => rfl
  have hshort := (List.takeWhile_prefix (l := data)
    fun c : UInt8 => decide (c ≠ 0)).length_le
  rw [List.length_append] at hend
  unfold Reader.moveUp
  simp only [hpart]
  refine ⟨r.input.sATBuffer.drop (data.takeWhile (· ≠ 0) ++ [0]).length, ?_,
    ?_, rfl, rfl⟩
  · simp [poke]
  · simp only [poke, List.length_append, List.length_drop, List.length_take,
      List.length_cons, List.length_nil] at *
    omega

theorem stands_ditch (hlength :
    r.input.sATBuffer.length = MAX_AT_RESPONSE + 1) :
    Reader.Stands ⟨r.input.ditch, 0⟩ [] [] := by
  refine ⟨r.input.sATBuffer.drop 1, ?_, ?_, rfl, rfl⟩
  · simp [Input.ditch, poke]
  · simp [Input.ditch, poke, hlength]

theorem Reader.Stands.length (hstands : r.Stands before data) :
    r.input.sATBuffer.length = MAX_AT_RESPONSE + 1 := by
  obtain ⟨rest, -, hlength, -, -⟩ := hstands
  exact hlength

/-- The data stay, or they are all given up. -/
theorem Reader.Stands.room (hstands : r.Stands before data) :
    ∃ before' data', r.room.Stands before' data' ∧ data'.Sublist data ∧
      r.room.pRead < MAX_AT_RESPONSE ∧
      r.room.input.modem = r.input.modem := by
  unfold Reader.room
  split
  next =>
    have hpos : 0 < MAX_AT_RESPONSE := by decide
    exact ⟨[], [], stands_ditch hstands.length, List.nil_sublist _, hpos, rfl⟩
  next hroom =>
    exact ⟨before, data, hstands, List.Sublist.refl _, by omega, rfl⟩

/-- What was read is behind the data. -/
theorem Reader.Stands.store (hstands : r.Stands before data)
    (hroom : r.pRead + bytes.length ≤ MAX_AT_RESPONSE) :
    ∃ run tail, data ++ bytes = run ++ tail ∧
      (r.store bytes).Stands (before ++ run) tail := by
  obtain ⟨rest, hbuffer, hlength, hcur, hend⟩ := hstands
  have hstored : Reader.Stands ⟨{ r.input with
      sATBuffer := poke r.input.sATBuffer r.pRead (bytes ++ [0]) },
      r.pRead + bytes.length⟩ before (data ++ bytes) := by
    refine ⟨(0 :: rest).drop (bytes ++ [0]).length, ?_, ?_, hcur, ?_⟩
    · dsimp only
      rw [hend, hbuffer, ← List.append_assoc, poke_append]
      simp
    · rw [hend] at hroom ⊢
      rw [hbuffer] at hlength ⊢
      rw [← List.append_assoc, poke_append]
      simp only [List.length_append, List.length_drop, List.length_cons,
        List.length_nil] at *
      omega
    · simp only [hend, List.length_append]
      omega
  exact hstored.skip

end Buffer

section Calls

variable {r r' : Reader} {before data : Bytes} {eol : Nat}

/-- A call has found the end of a line in `tail`: data that it had and data
that it `read`. -/
structure Found (r r' : Reader) (data : Bytes) (eol : Nat) (looks : List Bytes)
    (before tail read : Bytes) : Prop where
  stands : r'.Stands before tail
  find : findNextEOL r'.input.sATBuffer r'.input.sATBufferCur = some eol
  modem : r.input.modem = read ++ r'.input.modem
  sublist : tail.Sublist (data ++ read)
  looks_iff : smsPrompt ∈ looks ↔ tail = smsPrompt

theorem Reader.Stands.find_eq (hstands : r.Stands before data) :
    ∃ rest, findNextEOL r.input.sATBuffer r.input.sATBufferCur =
      findNextEOL (before ++ (data ++ 0 :: rest)) before.length := by
  obtain ⟨rest, hbuffer, -, hcur, -⟩ := hstands
  exact ⟨rest, by rw [hbuffer, hcur]⟩

/-- A look that finds no end of a line was not at the prompt. -/
theorem Reader.Stands.ne_prompt (hstands : r.Stands before data)
    (hfind : findNextEOL r.input.sATBuffer r.input.sATBufferCur = none) :
    data ≠ smsPrompt := by
  obtain ⟨rest, hsame⟩ := hstands.find_eq
  rw [hsame] at hfind
  exact findNextEOL_none hfind

theorem readLoopTo_found {rounds : Nat} (hstands : r.Stands before data)
    (hloop : readLoopTo rounds r = some (some eol, r')) :
    ∃ before' tail read,
      Found r r' data eol (loopLooks rounds r) before' tail read := by
  induction rounds generalizing r before data with
  | zero => cases hloop
  | succ rounds ih =>
      obtain ⟨before₁, data₁, hstands₁, hsub₁, hroom, hmodem⟩ := hstands.room
      rw [readLoopTo] at hloop
      rw [loopLooks]
      dsimp only at hloop ⊢
      split at hloop
      next => cases hloop
      next hbytes =>
        rw [if_neg hbytes]
        have hmore : r.room.input.modem ≠ [] := by
          intro hnil
          exact hbytes (by rw [Input.read_end hnil]; rfl)
        obtain ⟨bytes, input, hread, -, hle, hsplit, hbuffer, hcur⟩ :=
          Input.read_eq (Nat.sub_pos_of_lt hroom) hmore
        rw [hread] at hloop ⊢
        dsimp only at hloop ⊢
        have hstands₂ : Reader.Stands ⟨input, r.room.pRead⟩ before₁ data₁ := by
          obtain ⟨rest, hrest⟩ := hstands₁
          exact ⟨rest, by rwa [hbuffer, hcur]⟩
        obtain ⟨run, tail, hrun, hstored⟩ :=
          @Reader.Stands.store _ _ _ bytes hstands₂ (by dsimp only; omega)
        have htail : tail.Sublist (data ++ bytes) := by
          refine .trans ?_ (hsub₁.append_right bytes)
          rw [hrun]
          exact List.sublist_append_right run tail
        rw [hmodem] at hsplit
        rw [hstored.data_eq]
        split at hloop
        next eol' hfind =>
          obtain ⟨heol, rfl⟩ := Prod.mk.inj (Option.some_inj.mp hloop)
          obtain rfl := Option.some_inj.mp heol
          refine ⟨_, tail, bytes, hstored, hfind, hsplit, htail, ?_⟩
          rw [List.mem_singleton, eq_comm]
        next hfind =>
          obtain ⟨before', tail', read, hfound⟩ := ih hstored hloop
          refine ⟨before', tail', bytes ++ read, hfound.stands, hfound.find,
            ?_, ?_, ?_⟩
          · rw [List.append_assoc, ← hfound.modem]
            exact hsplit
          · rw [← List.append_assoc]
            exact hfound.sublist.trans (htail.append_right read)
          · have hne := hstored.ne_prompt hfind
            rw [List.mem_cons, hfound.looks_iff]
            exact or_iff_right hne.symm

/-- A call that returns a line takes it from the end that it has found. -/
theorem readlineTo_found {line : Bytes} (hstands : r.Stands before data)
    (hcall : readlineTo r = some (some line, r')) :
    ∃ found eol before' tail read,
      Found r found data eol r.looks before' tail read ∧
      line = (found.input.takeLine eol).1 ∧
      r' = ⟨(found.input.takeLine eol).2, found.pRead⟩ := by
  have hmore {r₁ : Reader} {before₁ data₁ : Bytes}
      (hstands₁ : r₁.Stands before₁ data₁) (hsub : data₁.Sublist data)
      (hmodem : r₁.input.modem = r.input.modem)
      (hcall : r₁.readMore = some (some line, r')) :
      ∃ found eol before' tail read,
        Found r found data eol
          (loopLooks (r.input.modem.length + 1) r₁) before' tail read ∧
        line = (found.input.takeLine eol).1 ∧
        r' = ⟨(found.input.takeLine eol).2, found.pRead⟩ := by
    rw [Reader.readMore, hmodem] at hcall
    split at hcall
    next => cases hcall
    next => cases hcall
    next eol found hloop =>
      obtain ⟨hline, rfl⟩ := Prod.mk.inj (Option.some_inj.mp hcall)
      obtain rfl := Option.some_inj.mp hline
      obtain ⟨before', tail, read, hfound⟩ := readLoopTo_found hstands₁ hloop
      exact ⟨found, eol, before', tail, read, ⟨hfound.stands, hfound.find,
        hmodem ▸ hfound.modem,
        hfound.sublist.trans (hsub.append_right read), hfound.looks_iff⟩,
        rfl, rfl⟩
  rw [readlineTo] at hcall
  rw [Reader.looks]
  split at hcall
  next hempty =>
    rw [if_pos hempty]
    exact hmore (stands_ditch hstands.length) (List.nil_sublist _) rfl hcall
  next hmoreData =>
    rw [if_neg hmoreData]
    obtain ⟨run, tail, hrun, hskip⟩ := hstands.skip
    have htail : tail.Sublist data := by
      rw [hrun]
      exact List.sublist_append_right run tail
    dsimp only at hcall ⊢
    rw [hskip.data_eq]
    split at hcall
    next eol hfind =>
      obtain ⟨hline, rfl⟩ := Prod.mk.inj (Option.some_inj.mp hcall)
      obtain rfl := Option.some_inj.mp hline
      refine ⟨r.skip, eol, _, tail, [], ⟨hskip, hfind, rfl, ?_, ?_⟩, rfl, rfl⟩
      · rwa [List.append_nil]
      · rw [List.mem_singleton, eq_comm]
    next hfind =>
      have hne := hskip.ne_prompt hfind
      have hpart := (List.takeWhile_sublist
        (l := tail) fun c : UInt8 => decide (c ≠ 0)).trans htail
      obtain ⟨found, eol, before', tail', read, hfound, hline, hr'⟩ :=
        hmore hskip.moveUp hpart rfl hcall
      refine ⟨found, eol, before', tail', read, ⟨hfound.stands, hfound.find,
        hfound.modem, hfound.sublist, ?_⟩, hline, hr'⟩
      exact (List.mem_cons.trans (or_iff_right hne.symm)).trans
        hfound.looks_iff

/-- The cursor is at most at the end of the data, where there is a NUL. -/
structure Reader.Bounded (r : Reader) : Prop where
  cursor : r.input.sATBufferCur ≤ r.pRead
  nul : r.input.sATBuffer[r.pRead]? = some 0

theorem Reader.Stands.bounded (hstands : r.Stands before data) :
    r.Bounded := by
  obtain ⟨rest, hbuffer, -, hcur, hend⟩ := hstands
  constructor
  · rw [hcur, hend, List.length_append]
    exact Nat.le_add_right _ _
  · rw [hbuffer, hend, ← List.append_assoc, List.getElem?_append_right le_rfl,
      Nat.sub_self]
    rfl

/-- What a call returns and leaves was not consumed before the call: it was in
the data, or was read. -/
def Reader.Fresh (r r' : Reader) (line : Bytes) : Prop :=
  ∃ read, r.input.modem = read ++ r'.input.modem ∧
    (line ++ r'.data).Sublist (r.data ++ read)

/-- One call. -/
theorem readlineTo_bounded_iff {line : Bytes} (hstands : r.Stands before data)
    (hcall : readlineTo r = some (some line, r')) :
    (smsPrompt ∉ r.looks → ∃ before' data', r'.Stands before' data' ∧
      r.Fresh r' line) ∧
    (smsPrompt ∈ r.looks → ¬ r'.Bounded) := by
  obtain ⟨found, eol, before', tail, read, hfound, rfl, rfl⟩ :=
    readlineTo_found hstands hcall
  obtain ⟨rest, hsame⟩ := hfound.stands.find_eq
  have hend := findNextEOL_some (hsame.symm.trans hfound.find)
  constructor
  · intro hlooks
    obtain ⟨-, line, c, more, rfl, hline, rfl⟩ := hend.resolve_left
      fun h => hlooks (hfound.looks_iff.mpr h.1)
    obtain ⟨htaken, hleft⟩ := hfound.stands.takeLine hline
    refine ⟨_, more, hleft, read, hfound.modem, ?_⟩
    rw [htaken, hleft.data_eq, hstands.data_eq]
    refine .trans ?_ hfound.sublist
    exact (List.sublist_cons_self c more).append_left line
  · intro hlooks hbounded
    have htail := hfound.looks_iff.mp hlooks
    obtain ⟨-, rfl⟩ := hend.resolve_right fun h => h.1 htail
    rw [htail] at hbounded
    have hstands' := hfound.stands
    rw [htail] at hstands'
    have hcursor : _ ≤ found.pRead := hbounded.cursor
    rw [hstands'.takePrompt] at hcursor
    omega

end Calls

/-- A call that returns a line. -/
def Reader.step (r : Reader) (_ : Unit) : Option Reader :=
  match readlineTo r with
  | some (some _, r') => some r'
  | _ => none

/-- The call does not look for the end of a line while the data are exactly
the prompt. -/
def Reader.Careful (r : Reader) (_ : Unit) : Prop := smsPrompt ∉ r.looks

theorem start_stands (modem : Bytes) (cuts : List Nat) :
    (Reader.start modem cuts).Stands [] [] := by
  refine ⟨List.replicate MAX_AT_RESPONSE 0, rfl, ?_, rfl, rfl⟩
  exact List.length_replicate

/-- In every run in which no call finds exactly the prompt at the end of the
data, the cursor stays within them and no byte is returned or kept that was
consumed before; and a call that finds it there is the one that goes beyond. -/
theorem reach_bounded {modem : Bytes} {cuts : List Nat} {r : Reader}
    (hreach : Reach Reader.step Reader.Careful (.start modem cuts) r) :
    r.Bounded ∧ ∀ line r', readlineTo r = some (some line, r') →
      (r'.Bounded ↔ smsPrompt ∉ r.looks) ∧
      (smsPrompt ∉ r.looks → r.Fresh r' line) := by
  have hstands : ∃ before data, r.Stands before data := by
    refine hreach.invariant (fun r => ∃ before data, r.Stands before data) ?_
      ⟨[], [], start_stands modem cuts⟩
    rintro r event r' ⟨before, data, hstands⟩ hcareful hstep
    unfold Reader.step at hstep
    split at hstep
    next line r₁ hcall =>
      obtain rfl := Option.some_inj.mp hstep
      obtain ⟨before', data', hstands', -⟩ :=
        (readlineTo_bounded_iff hstands hcall).1 hcareful
      exact ⟨before', data', hstands'⟩
    next => cases hstep
  obtain ⟨before, data, hstands⟩ := hstands
  refine ⟨hstands.bounded, fun line r' hcall => ?_⟩
  obtain ⟨hkept, hlost⟩ := readlineTo_bounded_iff hstands hcall
  refine ⟨⟨fun hbounded hlooks => hlost hlooks hbounded, fun hlooks => ?_⟩, ?_⟩
  · obtain ⟨before', data', hstands', -⟩ := hkept hlooks
    exact hstands'.bounded
  · intro hlooks
    obtain ⟨before', data', -, hfresh⟩ := hkept hlooks
    exact hfresh

/-- `ABCDEFG\r` and then the prompt come; what is returned after it begins
with bytes of the line before. -/
example : readlines 3 (Input.start
    ([65, 66, 67, 68, 69, 70, 71, 13] ++ smsPrompt ++ [79, 75, 13]) [8, 2]) =
    some [[65, 66, 67, 68, 69, 70, 71], smsPrompt,
      [68, 69, 70, 71, 79, 75]] := by
  decide +kernel

namespace AtReadBufferWitness

/-- `OK\r` -/
theorem answer_bounded : ∃ r,
    Reader.step (.start [79, 75, 13] []) () = some r ∧ r.Bounded ∧
    ∀ line r', readlineTo r = some (some line, r') →
      (r'.Bounded ↔ smsPrompt ∉ r.looks) ∧
      (smsPrompt ∉ r.looks → r.Fresh r' line) := by
  have hsome : ∃ r, Reader.step (.start [79, 75, 13] []) () = some r :=
    Option.isSome_iff_exists.mp (by decide +kernel)
  obtain ⟨r, hstep⟩ := hsome
  have hcareful : (Reader.start [79, 75, 13] []).Careful () := by
    unfold Reader.Careful
    decide +kernel
  exact ⟨r, hstep, reach_bounded (Reach.refl.tail () hcareful hstep)⟩

/-- The prompt for the text of a message is all that has come. -/
theorem prompt_overruns : ¬ ∀ (modem : Bytes) (cuts : List Nat)
    (r r' : Reader) (line : Bytes),
    Runs Reader.step (.start modem cuts) r →
    readlineTo r = some (some line, r') → r'.Bounded := by
  intro hclaim
  have hsome : ((readlineTo (.start smsPrompt [])).any fun result =>
      result.1.isSome && result.2.pRead < result.2.input.sATBufferCur) =
      true := by
    decide +kernel
  cases hcall : readlineTo (.start smsPrompt []) with
  | none =>
      rw [hcall] at hsome
      cases hsome
  | some result =>
      obtain ⟨line, r'⟩ := result
      rw [hcall, Option.any_some, Bool.and_eq_true,
        decide_eq_true_eq] at hsome
      obtain ⟨line, rfl⟩ := Option.isSome_iff_exists.mp hsome.1
      have hbounded := hclaim smsPrompt [] _ r' line Reach.refl hcall
      exact absurd hbounded.cursor (Nat.not_le_of_lt hsome.2)

end AtReadBufferWitness

end AtChannel

end MetaOS
