/-
hardware/ril/reference-ril/atchannel.c: `readline` splits what the modem sends
into lines.

One static buffer holds what has been read and not been returned.  A read
offers at least one byte as long as the modem has any; how many is up to the
device.
-/
import MetaOS.ByteString
import MetaOS.LineSplitting

namespace MetaOS

namespace AtChannel

open Lines

def MAX_AT_RESPONSE : Nat := 8 * 1024

def isEOL (c : UInt8) : Bool := c = 13 || c = 10

/-- The prompt `> ` for the text of a message. -/
def smsPrompt : Bytes := [62, 32]

/-- The input buffer with its cursor, what the modem is still to send, and how
many bytes the coming reads offer. -/
structure Input where
  sATBuffer : Bytes
  sATBufferCur : Nat
  modem : Bytes
  cuts : List Nat

/-- The static buffer is zero at first. -/
def Input.start (modem : Bytes) (cuts : List Nat) : Input :=
  ⟨List.replicate (MAX_AT_RESPONSE + 1) 0, 0, modem, cuts⟩

/-- Bytes are stored in the buffer from `p` on. -/
def poke (buffer : Bytes) (p : Nat) (bytes : Bytes) : Bytes :=
  buffer.take p ++ bytes ++ buffer.drop (p + bytes.length)

/-- `while (*cur == '\r' || *cur == '\n') cur++;` -/
def skipNewlines (buffer : Bytes) (cur : Nat) : Nat :=
  cur + ((buffer.drop cur).takeWhile isEOL).length

/-- The end of the next line, if there is a complete line. -/
def findNextEOL (buffer : Bytes) (cur : Nat) : Option Nat :=
  if (buffer.drop cur).take 3 = smsPrompt ++ [0] then
    -- SMS prompt character...not \r terminated
    some (cur + 2)
  else
    let eol := cur +
      ((buffer.drop cur).takeWhile fun c => c ≠ 0 && !isEOL c).length
    if buffer.getD eol 0 = 0 then none else some eol

/-- `read(s_fd, p_read, room)`; no bytes mean the end of the stream. -/
def Input.read (s : Input) (room : Nat) : Bytes × Input :=
  let count := match s.cuts with
    | [] => room
    | cut :: _ => max 1 (min cut room)
  (s.modem.take count,
    { s with modem := s.modem.drop count, cuts := s.cuts.tail })

/-- Ditch the buffer and start over again. -/
def Input.ditch (s : Input) : Input :=
  { s with sATBufferCur := 0, sATBuffer := poke s.sATBuffer 0 [0] }

/-- Read until there is a complete line.  The result is the end of the line,
or nothing at the end of the stream; no result is a loop that goes on. -/
def readLoop : (rounds : Nat) → Input → (pRead : Nat) →
    Option (Option Nat × Input)
  | 0, _, _ => none
  | rounds + 1, s, pRead =>
      let (s, pRead) :=
        if MAX_AT_RESPONSE - pRead = 0 then (s.ditch, 0) else (s, pRead)
      let (bytes, s) := s.read (MAX_AT_RESPONSE - pRead)
      if bytes.isEmpty then some (none, s)
      else
        let buffer := poke s.sATBuffer pRead (bytes ++ [0])
        let cur := skipNewlines buffer s.sATBufferCur
        let s := { s with sATBuffer := buffer, sATBufferCur := cur }
        match findNextEOL buffer cur with
        | some eol => some (some eol, s)
        | none => readLoop rounds s (pRead + bytes.length)

/-- Place a `\0` over the end of the line and return the line. -/
def Input.takeLine (s : Input) (eol : Nat) : Bytes × Input :=
  let buffer := poke s.sATBuffer eol [0]
  ((buffer.drop s.sATBufferCur).takeWhile (· ≠ 0),
    { s with sATBuffer := buffer, sATBufferCur := eol + 1 })

/-- The loop of `readline` and what it does with the line. -/
def Input.readMore (s : Input) (pRead : Nat) : Option (Option Bytes × Input) :=
  match readLoop (s.modem.length + 1) s pRead with
  | none => none
  | some (none, s) => some (none, s)
  | some (some eol, s) =>
      let (line, s) := s.takeLine eol
      some (some line, s)

def readline (s : Input) : Option (Option Bytes × Input) :=
  if s.sATBuffer.getD s.sATBufferCur 0 = 0 then
    -- empty buffer
    s.ditch.readMore 0
  else
    -- there's data in the buffer from the last read
    let cur := skipNewlines s.sATBuffer s.sATBufferCur
    match findNextEOL s.sATBuffer cur with
    | some eol =>
        let (line, s) := { s with sATBufferCur := cur }.takeLine eol
        some (some line, s)
    | none =>
        -- a partial line. move it up and prepare to read more
        let partLine := (s.sATBuffer.drop cur).takeWhile (· ≠ 0)
        let s := { s with
          sATBuffer := poke s.sATBuffer 0 (partLine ++ [0])
          sATBufferCur := 0 }
        s.readMore partLine.length

/-- The lines that the first calls of `readline` return, up to the end of the
stream. -/
def readlines : (calls : Nat) → Input → Option (List Bytes)
  | 0, _ => some []
  | calls + 1, s =>
      match readline s with
      | none => none
      | some (none, _) => some []
      | some (some line, s) => (readlines calls s).map (line :: ·)

/-- The stream has no NUL, no line with the prompt, and no line too long for
the buffer with the newlines before it; what stands behind the last newline
counts as a line here. -/
structure Clean (stream : Bytes) : Prop where
  noNul : 0 ∉ stream
  noPrompt : NoneBegins isEOL smsPrompt stream
  fits : Fits isEOL MAX_AT_RESPONSE stream

/-- The cursor stands before `data`, which ends where the data read so far
end. -/
def Input.Has (s : Input) (before data : Bytes) : Prop :=
  ∃ rest, s.sATBuffer = before ++ (data ++ 0 :: rest) ∧
    s.sATBuffer.length = MAX_AT_RESPONSE + 1 ∧
    s.sATBufferCur = before.length ∧ 0 ∉ data

section Buffer

variable {before data line run bytes rest : Bytes}

theorem poke_append (bytes : Bytes) :
    poke (before ++ data) before.length bytes =
      before ++ (bytes ++ data.drop bytes.length) := by
  simp [poke, List.drop_append]

theorem skipNewlines_eq {next : UInt8} (hrun : ∀ c ∈ run, isEOL c = true)
    (hnext : isEOL next = false) :
    skipNewlines (before ++ (run ++ next :: rest)) before.length =
      (before ++ run).length := by
  rw [skipNewlines, List.drop_left, List.takeWhile_append_of_pos hrun,
    List.takeWhile_cons_of_neg (by simp [hnext]), List.append_nil,
    List.length_append]

/-- Only a line that begins with the prompt is taken for the prompt. -/
theorem take_ne_prompt {next : UInt8} (hprompt : ¬ smsPrompt <+: line)
    (hnext : next ≠ 62 ∧ next ≠ 32) :
    (line ++ next :: rest).take 3 ≠ smsPrompt ++ [0] := by
  intro htake
  match line, hprompt with
  | [], _ => simp [smsPrompt, hnext.1] at htake
  | [_], _ => simp [smsPrompt, hnext.2] at htake
  | _ :: _ :: line, hprompt =>
      simp only [List.cons_append, List.take_succ_cons, smsPrompt,
        List.cons.injEq] at htake
      obtain ⟨rfl, rfl, -⟩ := htake
      exact hprompt (List.prefix_append smsPrompt line)

/-- Part of a line has no end. -/
theorem findNextEOL_tail (hdata : ∀ c ∈ data, isEOL c = false)
    (hnul : 0 ∉ data) (hprompt : ¬ smsPrompt <+: data) :
    findNextEOL (before ++ (data ++ 0 :: rest)) before.length = none := by
  have htake : (data ++ 0 :: rest).take 3 ≠ smsPrompt ++ [0] :=
    take_ne_prompt hprompt (by decide)
  have hscan : ((data ++ 0 :: rest).takeWhile
      fun c => c ≠ 0 && !isEOL c) = data := by
    rw [List.takeWhile_append_of_pos]
    · simp
    · intro c hc
      simp [hdata c hc, ne_of_mem_of_not_mem hc hnul]
  unfold findNextEOL
  rw [List.drop_left, if_neg htake, hscan]
  simp

theorem findNextEOL_line {c : UInt8} (hline : ∀ c ∈ line, isEOL c = false)
    (hnul : 0 ∉ line) (hend : isEOL c = true)
    (hprompt : ¬ smsPrompt <+: line) :
    findNextEOL (before ++ (line ++ c :: rest)) before.length =
      some (before ++ line).length := by
  have hc : c ≠ 62 ∧ c ≠ 32 := by
    constructor
    · rintro rfl
      cases hend
    · rintro rfl
      cases hend
  have htake : (line ++ c :: rest).take 3 ≠ smsPrompt ++ [0] :=
    take_ne_prompt hprompt hc
  have hscan : ((line ++ c :: rest).takeWhile
      fun c => c ≠ 0 && !isEOL c) = line := by
    rw [List.takeWhile_append_of_pos]
    · simp [hend]
    · intro c hc
      simp [hline c hc, ne_of_mem_of_not_mem hc hnul]
  have hzero : c ≠ 0 := by
    rintro rfl
    cases hend
  unfold findNextEOL
  rw [List.drop_left, if_neg htake, hscan]
  simp [hzero]

end Buffer

section Streams

variable {stream run line more : Bytes} {c : UInt8}

theorem Clean.of_ends (hclean : Clean (run ++ stream))
    (hrun : ∀ c ∈ run, isEOL c = true) : Clean stream where
  noNul := fun hmem => hclean.noNul (List.mem_append_right _ hmem)
  noPrompt := hclean.noPrompt.of_ends hrun
  fits := hclean.fits.of_append

theorem Clean.of_line (hclean : Clean (line ++ c :: stream))
    (hline : ∀ c ∈ line, isEOL c = false) (hend : isEOL c = true) :
    Clean stream where
  noNul := fun hmem => hclean.noNul (by simp [hmem])
  noPrompt := hclean.noPrompt.of_line hline hend
  fits := by
    have hfits := hclean.fits
    rw [List.append_cons] at hfits
    exact hfits.of_append

end Streams

section Loop

variable {s : Input} {before data bytes : Bytes}

theorem Input.Has.ditch (hhas : s.Has before data) : s.ditch.Has [] [] := by
  obtain ⟨rest, hbuffer, hlength, hcur, hnul⟩ := hhas
  refine ⟨s.sATBuffer.drop 1, ?_, ?_, rfl, by simp⟩
  · simp [Input.ditch, poke]
  · simp [Input.ditch, poke, hlength]

/-- There is room to read unless the modem has sent all. -/
theorem makeRoom (hhas : s.Has before data)
    (hbefore : ∀ c ∈ before, isEOL c = true)
    (hdata : ∀ c ∈ data, isEOL c = false)
    (hclean : Clean (before ++ (data ++ s.modem))) (hmodem : s.modem ≠ [])
    (hbound : (before ++ data).length ≤ MAX_AT_RESPONSE) :
    ∃ s' before',
      (if MAX_AT_RESPONSE - (before ++ data).length = 0 then (s.ditch, 0)
        else (s, (before ++ data).length)) = (s', (before' ++ data).length) ∧
      s'.Has before' data ∧ (∀ c ∈ before', isEOL c = true) ∧
      s'.modem = s.modem ∧ Clean (before' ++ (data ++ s.modem)) ∧
      (before' ++ data).length < MAX_AT_RESPONSE := by
  split
  next hfull =>
    -- A line that fills the buffer with its newlines has nothing after it.
    have hempty : data = [] := by
      by_contra hne
      have hfits := hclean.fits [] before data s.modem rfl hbefore hdata hne
      rw [if_neg (by simpa using hmodem)] at hfits
      rw [List.length_append] at hfull
      omega
    subst hempty
    refine ⟨s.ditch, [], rfl, hhas.ditch, by simp, rfl, ?_, by decide⟩
    exact hclean.of_ends hbefore
  next hroom =>
    exact ⟨s, before, rfl, hhas, hbefore, rfl, hclean, by omega⟩

theorem Input.read_eq {room : Nat} (hroom : 0 < room) (hmodem : s.modem ≠ []) :
    ∃ bytes s', s.read room = (bytes, s') ∧ bytes ≠ [] ∧
      bytes.length ≤ room ∧ s.modem = bytes ++ s'.modem ∧
      s'.sATBuffer = s.sATBuffer ∧ s'.sATBufferCur = s.sATBufferCur := by
  obtain ⟨count, hcount, hpos, hle⟩ : ∃ count,
      s.read room = (s.modem.take count,
        { s with modem := s.modem.drop count, cuts := s.cuts.tail }) ∧
      0 < count ∧ count ≤ room := by
    unfold Input.read
    cases s.cuts with
    | nil => exact ⟨room, rfl, hroom, le_rfl⟩
    | cons cut cuts => exact ⟨max 1 (min cut room), rfl, by omega, by omega⟩
  refine ⟨_, _, hcount, ?_, ?_, ?_, rfl, rfl⟩
  · simp [hpos.ne', hmodem]
  · exact (List.length_take_le _ _).trans hle
  · exact (List.take_append_drop count s.modem).symm

theorem Input.read_end (hmodem : s.modem = []) (room : Nat) :
    (s.read room).1 = [] := by
  simp [Input.read, hmodem]

/-- What has been read is put behind the data. -/
theorem Input.Has.store (hhas : s.Has before data)
    (hroom : (before ++ data).length + bytes.length ≤ MAX_AT_RESPONSE)
    (hnul : 0 ∉ bytes) :
    Input.Has { s with
      sATBuffer := poke s.sATBuffer (before ++ data).length (bytes ++ [0]) }
      before (data ++ bytes) := by
  obtain ⟨rest, hbuffer, hlength, hcur, hdata⟩ := hhas
  refine ⟨(0 :: rest).drop (bytes ++ [0]).length, ?_, ?_, hcur, ?_⟩
  · dsimp only
    rw [hbuffer, ← List.append_assoc, poke_append]
    simp
  · rw [hbuffer] at hlength ⊢
    rw [← List.append_assoc, poke_append]
    simp only [List.length_append, List.length_drop, List.length_cons,
      List.length_nil] at *
    omega
  · simp [hdata, hnul]

/-- The cursor stands at a complete line. -/
def Input.Found (s : Input) (stream : Bytes) (eol : Nat) : Prop :=
  ∃ before run line c more, s.Has before (line ++ c :: more) ∧
    eol = (before ++ line).length ∧ line ≠ [] ∧
    (∀ c ∈ line, isEOL c = false) ∧ isEOL c = true ∧
    (∀ c ∈ run, isEOL c = true) ∧
    stream = run ++ (line ++ c :: (more ++ s.modem))

theorem Input.Found.of_ends {stream run : Bytes} {eol : Nat}
    (hfound : s.Found stream eol) (hrun : ∀ c ∈ run, isEOL c = true) :
    s.Found (run ++ stream) eol := by
  obtain ⟨before, run', line, c, more, hhas, heol, hne, hline, hend, hrun',
    htext⟩ := hfound
  refine ⟨before, run ++ run', line, c, more, hhas, heol, hne, hline, hend, ?_,
    by rw [htext, List.append_assoc]⟩
  intro c hc
  rcases List.mem_append.mp hc with hc | hc
  · exact hrun c hc
  · exact hrun' c hc

theorem Input.Has.length_le (hhas : s.Has before data) :
    (before ++ data).length ≤ MAX_AT_RESPONSE := by
  obtain ⟨rest, hbuffer, hlength, -, -⟩ := hhas
  rw [hbuffer] at hlength
  simp only [List.length_append, List.length_cons] at hlength ⊢
  omega

/-- Behind the newlines there is a complete line, or there is part of one. -/
theorem Input.Has.scan (hhas : s.Has before data)
    (hclean : Clean (data ++ s.modem)) :
    ∃ s', s' = { s with
        sATBufferCur := skipNewlines s.sATBuffer s.sATBufferCur } ∧
      ((∃ eol, findNextEOL s.sATBuffer s'.sATBufferCur = some eol ∧
          s'.Found (data ++ s.modem) eol) ∨
        ∃ run tail, findNextEOL s.sATBuffer s'.sATBufferCur = none ∧
          (∀ c ∈ run, isEOL c = true) ∧ (∀ c ∈ tail, isEOL c = false) ∧
          data = run ++ tail ∧ s'.Has (before ++ run) tail) := by
  obtain ⟨rest, hbuffer, hlength, hcur, hnul⟩ := hhas
  obtain ⟨run, hrun, ⟨tail, rfl, htail⟩ |
    ⟨line, c, more, rfl, hne, hline, hend⟩⟩ := run_then_line isEOL data
  · have hskip : skipNewlines s.sATBuffer s.sATBufferCur =
        (before ++ run).length := by
      rw [hbuffer, hcur, List.append_assoc]
      cases tail with
      | nil => exact skipNewlines_eq hrun rfl
      | cons b tail =>
          exact skipNewlines_eq hrun (htail b List.mem_cons_self)
    have hprompt : ¬ smsPrompt <+: tail := by
      rw [List.append_assoc] at hclean
      exact (hclean.of_ends hrun).noPrompt.not_begins htail
    have hbuffer' : s.sATBuffer = before ++ run ++ (tail ++ 0 :: rest) := by
      rw [hbuffer, List.append_assoc, List.append_assoc]
    have hnul' : 0 ∉ tail := fun hmem => hnul (List.mem_append_right _ hmem)
    refine ⟨_, rfl, .inr ⟨run, tail, ?_, hrun, htail, rfl, rest, hbuffer',
      hlength, hskip, hnul'⟩⟩
    rw [hskip, hbuffer']
    exact findNextEOL_tail htail hnul' hprompt
  · have hskip : skipNewlines s.sATBuffer s.sATBufferCur =
        (before ++ run).length := by
      rw [hbuffer, hcur, List.append_assoc, List.append_assoc]
      obtain ⟨b, line, rfl⟩ := List.exists_cons_of_ne_nil hne
      exact skipNewlines_eq hrun (hline b List.mem_cons_self)
    have hprompt : ¬ smsPrompt <+: line := by
      rw [List.append_assoc, List.append_assoc] at hclean
      exact (hclean.of_ends hrun).noPrompt.not_begins hline
    have hbuffer' : s.sATBuffer =
        before ++ run ++ ((line ++ c :: more) ++ 0 :: rest) := by
      rw [hbuffer, List.append_assoc run, ← List.append_assoc before]
    have hnul' : 0 ∉ line ++ c :: more :=
      fun hmem => hnul (List.mem_append_right _ hmem)
    refine ⟨_, rfl, .inl ⟨(before ++ run ++ line).length, ?_, before ++ run,
      run, line, c, more, ⟨rest, hbuffer', hlength, hskip, hnul'⟩, rfl, hne,
      hline, hend, hrun, ?_⟩⟩
    · rw [hskip, hbuffer', List.append_assoc line]
      apply findNextEOL_line hline _ hend hprompt
      exact fun hmem => hnul' (List.mem_append_left _ hmem)
    · simp

/-- The loop comes to the next complete line, or to the end of the stream if
there is none. -/
theorem readLoop_spec (rounds : Nat) {s : Input} {before data : Bytes}
    (hhas : s.Has before data) (hbefore : ∀ c ∈ before, isEOL c = true)
    (hdata : ∀ c ∈ data, isEOL c = false)
    (hclean : Clean (before ++ (data ++ s.modem)))
    (hrounds : s.modem.length < rounds) :
    (∃ s', readLoop rounds s (before ++ data).length = some (none, s') ∧
      complete isEOL (data ++ s.modem) = []) ∨
    ∃ s' eol, readLoop rounds s (before ++ data).length = some (some eol, s') ∧
      s'.Found (data ++ s.modem) eol := by
  induction rounds generalizing s before data with
  | zero => omega
  | succ rounds ih =>
      by_cases hmodem : s.modem = []
      · left
        rw [hmodem, List.append_nil, complete_tail hdata]
        unfold readLoop
        dsimp only
        split
        next =>
          have hend : (s.ditch.read (MAX_AT_RESPONSE - 0)).1 = [] :=
            Input.read_end hmodem _
          rw [if_pos (by rw [hend]; rfl)]
          exact ⟨_, rfl, rfl⟩
        next =>
          rw [if_pos (by rw [Input.read_end hmodem]; rfl)]
          exact ⟨_, rfl, rfl⟩
      · obtain ⟨s₁, before₁, hmake, hhas₁, hbefore₁, hmodem₁, hclean₁, hroom⟩ :=
          makeRoom hhas hbefore hdata hclean hmodem hhas.length_le
        obtain ⟨bytes, s₂, hread, hbytes, hle, hsplit, hbuffer, hcur⟩ :=
          Input.read_eq (Nat.sub_pos_of_lt hroom) (hmodem₁ ▸ hmodem)
        rw [hmodem₁] at hsplit
        have hnul : 0 ∉ bytes := by
          intro hmem
          apply hclean.noNul
          simp [hsplit, hmem]
        have hhas₂ : s₂.Has before₁ data := by
          obtain ⟨rest, hrest⟩ := hhas₁
          exact ⟨rest, by rwa [hbuffer, hcur]⟩
        have hstored := hhas₂.store (by omega) hnul
        have hstream : data ++ s.modem = data ++ bytes ++ s₂.modem := by
          rw [hsplit, List.append_assoc]
        rw [hstream] at hclean₁ ⊢
        obtain ⟨s₃, hs₃, hscan⟩ := hstored.scan (hclean₁.of_ends hbefore₁)
        unfold readLoop
        rw [hmake]
        dsimp only
        rw [hread]
        dsimp only
        rw [if_neg (by simpa using hbytes)]
        dsimp only at hs₃ hscan
        rw [← hs₃]
        rcases hscan with ⟨eol, hfind, hfound⟩ |
          ⟨run, tail, hfind, hrun, htail, hrest, hhas₃⟩
        · right
          rw [hs₃] at hfind
          rw [hfind]
          exact ⟨s₃, eol, rfl, hfound⟩
        · rw [hs₃] at hfind
          rw [hfind]
          have hs₃modem : s₃.modem = s₂.modem := by rw [hs₃]
          have hshorter : s₃.modem.length < rounds := by
            have hpos := List.length_pos_of_ne_nil hbytes
            rw [hsplit, List.length_append] at hrounds
            rw [hs₃modem]
            omega
          have hlength : (before₁ ++ data).length + bytes.length =
              (before₁ ++ run ++ tail).length := by
            rw [List.append_assoc before₁ run tail, ← hrest]
            simp only [List.length_append]
            omega
          have hends : ∀ c ∈ before₁ ++ run, isEOL c = true := by
            intro c hc
            rcases List.mem_append.mp hc with hc | hc
            · exact hbefore₁ c hc
            · exact hrun c hc
          have hsame : before₁ ++ (data ++ bytes ++ s₂.modem) =
              before₁ ++ run ++ (tail ++ s₃.modem) := by
            rw [hrest, hs₃modem]
            simp only [List.append_assoc]
          dsimp only
          rw [hlength]
          rw [hsame] at hclean₁
          have hnext := ih hhas₃ hends htail hclean₁ hshorter
          rw [hrest, ← hs₃modem, List.append_assoc run, complete_ends hrun]
          rcases hnext with hended | ⟨s', eol, hloop, hfound⟩
          · exact .inl hended
          · exact .inr ⟨s', eol, hloop, hfound.of_ends hrun⟩

end Loop

section Calls

variable {s : Input} {before data stream : Bytes}

/-- A call returns the first line of the stream and leaves the lines after it,
or there is no complete line. -/
def Answers (stream : Bytes) (result : Option (Option Bytes × Input)) :
    Prop :=
  (∃ s', result = some (none, s') ∧ complete isEOL stream = []) ∨
  ∃ line s' before more, result = some (some line, s') ∧
    s'.Has before more ∧ Clean (more ++ s'.modem) ∧
    complete isEOL stream = line :: complete isEOL (more ++ s'.modem)

/-- A line is taken from the front of what is there. -/
theorem Input.takeLine_eq {before line more rest : Bytes} {c : UInt8}
    (hbuffer : s.sATBuffer = before ++ (line ++ c :: more ++ 0 :: rest))
    (hcur : s.sATBufferCur = before.length) (hline : 0 ∉ line) :
    s.takeLine (before ++ line).length =
      (line, { s with
        sATBuffer := before ++ (line ++ 0 :: (more ++ 0 :: rest)),
        sATBufferCur := (before ++ line).length + 1 }) := by
  have hover : poke s.sATBuffer (before ++ line).length [0] =
      before ++ (line ++ 0 :: (more ++ 0 :: rest)) := by
    have hsplit : s.sATBuffer =
        (before ++ line) ++ (c :: more ++ 0 :: rest) := by
      rw [hbuffer]
      simp only [List.append_assoc, List.cons_append]
    rw [hsplit, poke_append]
    simp
  have htaken : (line ++ 0 :: (more ++ 0 :: rest)).takeWhile (· ≠ 0) =
      line := by
    rw [List.takeWhile_append_of_pos]
    · simp
    · intro b hb
      simpa using ne_of_mem_of_not_mem hb hline
  rw [Input.takeLine, hover, hcur, List.drop_left, htaken]

theorem Input.Found.answers {eol : Nat} (hfound : s.Found stream eol)
    (hclean : Clean stream) :
    Answers stream (some (some (s.takeLine eol).1, (s.takeLine eol).2)) := by
  obtain ⟨before, run, line, c, more, hhas, rfl, hne, hline, hend, hrun,
    rfl⟩ := hfound
  obtain ⟨rest, hbuffer, hlength, hcur, hnul⟩ := hhas
  have hnulLine : 0 ∉ line := fun hmem => hnul (List.mem_append_left _ hmem)
  rw [Input.takeLine_eq hbuffer hcur hnulLine]
  refine .inr ⟨line, _, before ++ line ++ [0], more, rfl, ?_, ?_, ?_⟩
  · refine ⟨rest, ?_, ?_, ?_, ?_⟩
    · simp
    · rw [hbuffer] at hlength
      simpa using hlength
    · simp [Nat.add_assoc]
    · exact fun hmem => hnul (by simp [hmem])
  · exact (hclean.of_ends hrun).of_line hline hend
  · rw [complete_ends hrun, complete_line hline hne hend]

/-- After a partial line or none, more is read. -/
theorem readMore_answers (hhas : s.Has [] data)
    (hdata : ∀ c ∈ data, isEOL c = false) (hclean : Clean (data ++ s.modem)) :
    Answers (data ++ s.modem) (s.readMore data.length) := by
  have hloop := readLoop_spec (s.modem.length + 1) hhas (by simp) hdata hclean
    (Nat.lt_succ_self _)
  rw [List.nil_append] at hloop
  unfold Input.readMore
  rcases hloop with ⟨s', hloop, hnone⟩ | ⟨s', eol, hloop, hfound⟩
  · rw [hloop]
    exact .inl ⟨s', rfl, hnone⟩
  · rw [hloop]
    exact hfound.answers hclean

theorem Input.Has.partLine (hhas : s.Has before data) :
    (s.sATBuffer.drop s.sATBufferCur).takeWhile (· ≠ 0) = data := by
  obtain ⟨rest, hbuffer, -, hcur, hnul⟩ := hhas
  rw [hbuffer, hcur, List.drop_left, List.takeWhile_append_of_pos]
  · simp
  · intro b hb
    simpa using ne_of_mem_of_not_mem hb hnul

/-- A partial line is moved up. -/
theorem Input.Has.moveUp (hhas : s.Has before data) :
    Input.Has { s with
      sATBuffer := poke s.sATBuffer 0 (data ++ [0])
      sATBufferCur := 0 } [] data := by
  have hle := hhas.length_le
  obtain ⟨rest, -, hlength, -, hnul⟩ := hhas
  refine ⟨s.sATBuffer.drop (data ++ [0]).length, ?_, ?_, rfl, hnul⟩
  · simp [poke]
  · simp only [poke, List.length_append, List.length_drop, List.length_take,
      List.length_cons, List.length_nil] at *
    omega

theorem readline_answers (hhas : s.Has before data)
    (hclean : Clean (data ++ s.modem)) :
    Answers (data ++ s.modem) (readline s) := by
  have hhas' := hhas
  obtain ⟨rest, hbuffer, hlength, hcur, hnul⟩ := hhas'
  unfold readline
  cases data with
  | nil =>
      rw [if_pos (by simp [hbuffer, hcur])]
      exact readMore_answers hhas.ditch (by simp) hclean
  | cons b data =>
      have hb : b ≠ 0 := by
        rintro rfl
        simp at hnul
      rw [if_neg (by simpa [hbuffer, hcur] using hb)]
      obtain ⟨s', hs', hscan⟩ := hhas.scan hclean
      dsimp only
      rw [← hs']
      have hcur' : s'.sATBufferCur =
          skipNewlines s.sATBuffer s.sATBufferCur := by rw [hs']
      rw [← hcur']
      rcases hscan with ⟨eol, hfind, hfound⟩ |
        ⟨run, tail, hfind, hrun, htail, hrest, hhas'⟩
      · rw [hfind]
        exact hfound.answers hclean
      · have hmoved := hhas'.moveUp
        have hclean' : Clean (tail ++ s.modem) := by
          rw [hrest, List.append_assoc] at hclean
          exact hclean.of_ends hrun
        have hbuffer' : s'.sATBuffer = s.sATBuffer := by rw [hs']
        have hpart := hhas'.partLine
        rw [hbuffer'] at hpart hmoved
        rw [hfind]
        dsimp only
        rw [hpart, hrest, List.append_assoc]
        have hmore := readMore_answers (s := { s with
          sATBuffer := poke s.sATBuffer 0 (tail ++ [0])
          sATBufferCur := 0 }) hmoved htail hclean'
        unfold Answers at hmore ⊢
        rw [complete_ends hrun]
        exact hmore

/-- For every way the stream is cut into reads, the calls return the lines of
the stream in order. -/
theorem readlines_of_has (calls : Nat) {s : Input} {before data : Bytes}
    (hhas : s.Has before data) (hclean : Clean (data ++ s.modem)) :
    readlines calls s =
      some ((complete isEOL (data ++ s.modem)).take calls) := by
  induction calls generalizing s before data with
  | zero => rfl
  | succ calls ih =>
      rcases readline_answers hhas hclean with ⟨s', hread, hnone⟩ |
        ⟨line, s', before', more, hread, hhas', hclean', hsome⟩
      · rw [readlines, hread, hnone]
        rfl
      · rw [readlines, hread, hsome, List.take_succ_cons]
        dsimp only
        rw [ih hhas' hclean']
        rfl

theorem readlines_eq_complete (stream : Bytes) (cuts : List Nat) (calls : Nat)
    (hclean : Clean stream) :
    readlines calls (Input.start stream cuts) =
      some ((complete isEOL stream).take calls) := by
  have hhas : (Input.start stream cuts).Has [] [] := by
    refine ⟨List.replicate MAX_AT_RESPONSE 0, rfl, ?_, rfl, by simp⟩
    exact List.length_replicate
  exact readlines_of_has calls hhas hclean

end Calls

namespace AtReaderWitness

/-- `\r\nOK\r\n+CSQ\rA` -/
def stream : Bytes :=
  [13, 10, 79, 75, 13, 10, 43, 67, 83, 81, 13, 65]

theorem stream_clean : Clean stream where
  noNul := by decide
  noPrompt := by
    unfold NoneBegins
    decide +kernel
  fits := fits_of_length_le (by decide)

/-- The reads come in the middle of lines and between `\r` and `\n`. -/
theorem readlines_stream :
    readlines 3 (Input.start stream [1, 2, 2, 3]) =
      some [[79, 75], [43, 67, 83, 81]] := by
  rw [readlines_eq_complete stream [1, 2, 2, 3] 3 stream_clean]
  decide +kernel

end AtReaderWitness

end AtChannel

end MetaOS
