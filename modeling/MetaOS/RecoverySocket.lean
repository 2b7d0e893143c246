/-
Recovery's command socket: `process_cmd` and the connection loop of
`event_loop` in `socket_server.c`, and the commands a client such as
`sendmessage` writes.  The socket is a byte stream, so one `recv` may return a
part of a command or several of them, while the server takes each result for
one command.
-/
import MetaOS.CString

namespace MetaOS.RecoverySocket

open Bytes CString

/-- What `process_cmd` does to the rest of recovery. -/
inductive Call
  /-- `ui_set_background(BACKGROUND_ICON_INSTALLING)`. -/
  | uiSetBackgroundInstalling
  /-- `ui_show_progress(percent / 100.0f, seconds)`. -/
  | uiShowProgress (percent seconds : Int)
  /-- `ui_print(text)`. -/
  | uiPrint (text : Bytes)
  | uiResetProgress
  | uiShowIndeterminateProgress
  /-- `reboot(RB_AUTOBOOT)`; a call that returns has failed. -/
  | reboot
  | installPackage (name : Bytes)
  /-- `LOGE`, which prints with `errno` as a further argument. -/
  | loge (format : String)
  deriving DecidableEq, Repr

def recordSize : Nat := 256

def verificationProgressTime : Int := 60

/-- The `int` at index `i` of the buffer. -/
def intBuffer (record : Bytes) (i : Nat) : Int :=
  leInt (record.window (4 * i) 4)

/-- The message of a print or install command, copied into a cleared buffer of
256 bytes: `none` is a message the length checks turn away, `some none` a copy
that leaves one of the two buffers. -/
def message (record : Bytes) (buflen : Nat) : Option (Option Bytes) :=
  if buflen < 8 then none
  else
    let messageLen := intBuffer record 1
    if messageLen < 0 ∨ (buflen : Int) - 8 < messageLen then none
    else if (recordSize : Int) - 8 < messageLen then some none
    else some (some (cstr (record.window 8 messageLen.toNat)))

/-- `process_cmd`, with `installs` for the result of `install_package`; `none`
is a copy outside the buffers. -/
def processCmd (installs : Bytes → Bool) (record : Bytes) (buflen : Nat) :
    Option (List Call) :=
  match intBuffer record 0 with
  | 0 => some [.uiSetBackgroundInstalling,
      .uiShowProgress 0 verificationProgressTime]
  | 1 =>
      if buflen < 12 then some [.loge "Params too few errno:%d\n"]
      else
        let progress := intBuffer record 1
        if progress < 0 ∨ 100 < progress then
          some [.loge "Progress value is not valid errno:%d\n"]
        else some [.uiShowProgress progress (intBuffer record 2)]
  | 2 =>
      match message record buflen with
      | none => some []
      | some copied => copied.map fun text =>
          [.uiPrint text, .uiPrint (ofString "\n")]
  | 3 => some [.uiResetProgress, .uiShowIndeterminateProgress]
  | 4 => some [.reboot]
  | 5 =>
      match message record buflen with
      | none => some []
      | some copied => copied.map fun name =>
          [.installPackage name, .uiPrint (ofString
            (if installs name then "install package success\n"
              else "install package failed\n"))]
  | _ => some []

/-- What one `recv` returns; the end of the stream ends the list of results. -/
inductive Received
  | data (chunk : Bytes)
  | error
  deriving DecidableEq, Repr

/-- The inner loop of `event_loop` on one connection.  `recv` overwrites the
front of `p_record`, and `recordlen` is unsigned, so that the result of a
failed `recv` is a very large length and not the end of the loop. -/
def eventLoop (installs : Bytes → Bool) :
    Bytes → List Received → Option (List Call)
  | _, [] => some []
  | record, .data chunk :: rest => do
      let record' := chunk ++ record.drop chunk.length
      let calls ← processCmd installs record' chunk.length
      let later ← eventLoop installs record' rest
      return calls ++ later
  | record, .error :: rest => do
      let calls ← processCmd installs record (2 ^ 32 - 1)
      let later ← eventLoop installs record rest
      return calls ++ later

/-- The text of a print or install command.  Whether the terminating NUL is
sent with it is up to the client: `sendmessage` leaves it out, the comment on
the command format has it. -/
structure Message where
  text : Bytes
  terminated : Bool
  no_nul : (0 : UInt8) ∉ text
  fits : text.length + 1 < 2 ^ 31

def Message.bytes (m : Message) : Bytes :=
  m.text ++ if m.terminated then [0] else []

/-- The two numbers of a progress command. -/
structure Progress where
  percent : Int
  time : Int
  percent_range : 0 ≤ percent ∧ percent ≤ 100
  time_range : -2 ^ 31 ≤ time ∧ time < 2 ^ 31

inductive Command
  | begin
  | setProgress (p : Progress)
  | print (m : Message)
  | reset
  | reboot
  | install (m : Message)

namespace Command

def code : Command → Int
  | begin => 0
  | setProgress _ => 1
  | print _ => 2
  | reset => 3
  | reboot => 4
  | install _ => 5

/-- What follows the command's number. -/
def params : Command → Bytes
  | setProgress p => ofLeInt 4 p.percent ++ ofLeInt 4 p.time
  | print m => ofLeInt 4 m.bytes.length ++ m.bytes
  | install m => ofLeInt 4 m.bytes.length ++ m.bytes
  | _ => []

/-- The bytes the client writes. -/
def wire (c : Command) : Bytes := ofLeInt 4 c.code ++ c.params

/-- What the command is to make recovery do. -/
def calls (installs : Bytes → Bool) : Command → List Call
  | begin => [.uiSetBackgroundInstalling,
      .uiShowProgress 0 verificationProgressTime]
  | setProgress p => [.uiShowProgress p.percent p.time]
  | print m => [.uiPrint m.text, .uiPrint (ofString "\n")]
  | reset => [.uiResetProgress, .uiShowIndeterminateProgress]
  | reboot => [.reboot]
  | install m => [.installPackage m.text, .uiPrint (ofString
      (if installs m.text then "install package success\n"
        else "install package failed\n"))]

/-- The terminator a command may do without. -/
def spare : Command → Nat
  | print m => if m.terminated then 1 else 0
  | install m => if m.terminated then 1 else 0
  | _ => 0

end Command

/-- The bytes of `commands` as the socket may hand them out: every `recv`
returns something and at most a full record. -/
structure Segmentation (commands : List Command) where
  chunks : List Bytes
  nonempty : ∀ chunk ∈ chunks, chunk ≠ []
  fits : ∀ chunk ∈ chunks, chunk.length ≤ recordSize
  stream : chunks.flatten = (commands.map Command.wire).flatten

theorem intBuffer_append (chunk stale : Bytes) {i : Nat}
    (hin : 4 * i + 4 ≤ chunk.length) :
    intBuffer (chunk ++ stale) i = intBuffer chunk i := by
  rw [intBuffer, window_of_append_left chunk stale _ _ hin, intBuffer]

theorem message_append (chunk stale : Bytes) :
    message (chunk ++ stale) chunk.length = message chunk chunk.length := by
  unfold message
  by_cases hshort : chunk.length < 8
  · rw [if_pos hshort, if_pos hshort]
  · rw [if_neg hshort, if_neg hshort,
      intBuffer_append chunk stale (i := 1) (by omega)]
    dsimp only
    split
    · rfl
    · next hrange =>
        rw [window_of_append_left chunk stale _ _ (by omega)]

/-- What an earlier `recv` left in the buffer is not looked at once a chunk
holds the number of a command. -/
theorem processCmd_append (installs : Bytes → Bool) (chunk stale : Bytes)
    (hcode : 4 ≤ chunk.length) :
    processCmd installs (chunk ++ stale) chunk.length =
      processCmd installs chunk chunk.length := by
  unfold processCmd
  rw [intBuffer_append chunk stale (i := 0) (by omega), message_append]
  split
  · rfl
  · by_cases hshort : chunk.length < 12
    · rw [if_pos hshort, if_pos hshort]
    · rw [if_neg hshort, if_neg hshort,
        intBuffer_append chunk stale (i := 1) (by omega),
        intBuffer_append chunk stale (i := 2) (by omega)]
  all_goals rfl

theorem eventLoop_data {installs : Bytes → Bool} {record chunk : Bytes}
    {rest : List Received} {calls : List Call}
    (hcalls : processCmd installs (chunk ++ record.drop chunk.length)
      chunk.length = some calls) :
    eventLoop installs record (.data chunk :: rest) =
      (eventLoop installs (chunk ++ record.drop chunk.length) rest).map
        (calls ++ ·) := by
  simp only [eventLoop, hcalls]
  cases eventLoop installs (chunk ++ record.drop chunk.length) rest <;> rfl

theorem leInt_ofLeInt_of_range {x : Int} (hrange : -2 ^ 31 ≤ x ∧ x < 2 ^ 31) :
    leInt (ofLeInt 4 x) = x := by
  rw [leInt_ofLeInt]
  exact Int.bmod_eq_of_le (by norm_num; omega) (by norm_num; omega)

theorem intBuffer_of_append (front back rest : Bytes) {i : Nat}
    (hfront : front.length = 4 * i) (hback : back.length = 4) :
    intBuffer (front ++ (back ++ rest)) i = leInt back := by
  rw [intBuffer, window, List.drop_append_of_le_length (by omega),
    List.drop_of_length_le (by omega), List.nil_append,
    List.take_append_of_le_length (by omega), List.take_of_length_le (by omega)]

namespace Message

theorem bytes_length_le (m : Message) :
    m.text.length ≤ m.bytes.length ∧ m.bytes.length < 2 ^ 31 := by
  have hfits := m.fits
  rw [bytes, List.length_append]
  split <;> simp <;> omega

theorem cstr_bytes (m : Message) : cstr m.bytes = m.text := by
  rw [bytes]
  split
  · exact cstr_append_zero m.no_nul []
  · rw [List.append_nil, cstr_eq_self m.no_nul]

theorem bytes_length (m : Message) :
    m.bytes.length = m.text.length + if m.terminated then 1 else 0 := by
  rw [bytes, List.length_append]
  split <;> rfl

end Message

namespace Command

theorem code_range (c : Command) : -2 ^ 31 ≤ c.code ∧ c.code < 2 ^ 31 := by
  cases c <;> simp [code]

theorem wire_length (c : Command) : c.wire.length = 4 + c.params.length := by
  simp [wire]

theorem intBuffer_wire_zero (c : Command) (rest : Bytes) :
    intBuffer (c.wire ++ rest) 0 = c.code := by
  rw [wire, List.append_assoc]
  have hread := intBuffer_of_append [] (ofLeInt 4 c.code) (c.params ++ rest)
    (i := 0) rfl (ofLeInt_length 4 _)
  exact hread.trans (leInt_ofLeInt_of_range c.code_range)

end Command

/-- The message read from a command's number, its length and the bytes that
follow. -/
theorem message_of_wire (number : Bytes) (m : Message) (buflen : Nat)
    (hnumber : number.length = 4) (hbuflen : 8 ≤ buflen)
    (rest : Bytes) :
    message (number ++ (ofLeInt 4 m.bytes.length ++ rest)) buflen =
      if buflen - 8 < m.bytes.length then none
      else if recordSize - 8 < m.bytes.length then some none
      else some (some (cstr (rest.take m.bytes.length))) := by
  have hlen := m.bytes_length_le
  have hread : intBuffer (number ++ (ofLeInt 4 m.bytes.length ++ rest)) 1 =
      m.bytes.length := by
    rw [intBuffer_of_append number _ rest (by omega) (ofLeInt_length 4 _)]
    exact leInt_ofLeInt_of_range (by omega)
  have hdrop : (number ++ (ofLeInt 4 m.bytes.length ++ rest)).window 8
      m.bytes.length = rest.take m.bytes.length := by
    rw [window, ← List.append_assoc, List.drop_append_of_le_length
      (by simp [hnumber]), List.drop_of_length_le (by simp [hnumber]),
      List.nil_append]
  rw [message, if_neg (by omega), hread]
  dsimp only
  rw [Int.toNat_natCast, hdrop]
  refine if_congr ?_ rfl (if_congr ?_ rfl rfl)
  · omega
  · simp only [recordSize]
    omega

/-- A command that arrives alone and whole is carried out. -/
theorem process_wire (installs : Bytes → Bool) (c : Command)
    (hfits : c.wire.length ≤ recordSize) :
    processCmd installs c.wire c.wire.length = some (c.calls installs) := by
  have hcode : intBuffer c.wire 0 = c.code := by
    simpa using c.intBuffer_wire_zero []
  -- the message of a print or install command is the text the client meant
  have hmessage : ∀ m : Message,
      c.params = ofLeInt 4 m.bytes.length ++ m.bytes →
      message c.wire c.wire.length = some (some m.text) := by
    intro m hparams
    have hlength : c.wire.length = 8 + m.bytes.length := by
      rw [c.wire_length, hparams, List.length_append, ofLeInt_length]
      omega
    have hread := message_of_wire (ofLeInt 4 c.code) m c.wire.length
      (ofLeInt_length 4 _) (by omega) m.bytes
    rw [if_neg (by omega), if_neg (by omega), List.take_length,
      m.cstr_bytes] at hread
    rw [← hread, Command.wire, hparams]
  unfold processCmd
  rw [hcode]
  cases c with
  | setProgress p =>
      obtain ⟨percent, time, hpercent, htime⟩ := p
      have hfirst : intBuffer (Command.setProgress
          ⟨percent, time, hpercent, htime⟩).wire 1 = percent :=
        (intBuffer_of_append (ofLeInt 4 1) (ofLeInt 4 percent)
          (ofLeInt 4 time) (by simp) (by simp)).trans
          (leInt_ofLeInt_of_range (by omega))
      have hsecond : intBuffer (Command.setProgress
          ⟨percent, time, hpercent, htime⟩).wire 2 = time := by
        have hread := intBuffer_of_append (ofLeInt 4 1 ++ ofLeInt 4 percent)
          (ofLeInt 4 time) [] (i := 2) (by simp) (by simp)
        rw [List.append_nil, List.append_assoc] at hread
        exact hread.trans (leInt_ofLeInt_of_range htime)
      simp only [Command.code, hfirst, hsecond, Command.calls]
      rw [if_neg (by simp [Command.wire, Command.params]), if_neg (by omega)]
  | print m => simp only [Command.code, hmessage m rfl, Command.calls,
      Option.map_some]
  | install m => simp only [Command.code, hmessage m rfl, Command.calls,
      Option.map_some]
  | begin => rfl
  | reset => rfl
  | reboot => rfl

/-- What a chunk can make the server do: nothing, a complaint, or the calls of
one command no longer than the chunk. -/
inductive Effect (installs : Bytes → Bool) (chunk : Bytes) : List Call → Prop
  | nothing : Effect installs chunk []
  | complains (format : String) : Effect installs chunk [.loge format]
  | obeys (d : Command) (hspare : d.spare = 0)
      (hcode : intBuffer chunk 0 = d.code)
      (hlength : d.wire.length ≤ chunk.length) :
      Effect installs chunk (d.calls installs)

theorem message_cases {chunk : Bytes} (hfits : chunk.length ≤ recordSize) :
    message chunk chunk.length = none ∨
      ∃ m : Message, m.terminated = false ∧
        8 + m.bytes.length ≤ chunk.length ∧
        message chunk chunk.length = some (some m.text) := by
  unfold message
  split
  · exact Or.inl rfl
  · dsimp only
    split
    · exact Or.inl rfl
    · next hlong hrange =>
        simp only [recordSize] at hfits
        rw [if_neg (by simp only [recordSize]; omega)]
        have hle := cstr_length_le (chunk.window 8 (intBuffer chunk 1).toNat)
        rw [window_length] at hle
        refine Or.inr ⟨⟨_, false, zero_not_mem_cstr _, by omega⟩, rfl, ?_, rfl⟩
        simp only [Message.bytes_length]
        simp only [Bool.false_eq_true, if_false]
        omega

theorem intBuffer_range {chunk : Bytes} {i : Nat}
    (hin : 4 * i + 4 ≤ chunk.length) :
    -2 ^ 31 ≤ intBuffer chunk i ∧ intBuffer chunk i < 2 ^ 31 := by
  have hrange := leInt_range (chunk.window (4 * i) 4)
  have hlength : (chunk.window (4 * i) 4).length = 4 := by
    rw [window_length]
    omega
  rw [hlength] at hrange
  rw [intBuffer]
  omega

theorem process_effect (installs : Bytes → Bool) {chunk : Bytes}
    (hcode : 4 ≤ chunk.length) (hfits : chunk.length ≤ recordSize) :
    ∃ calls, processCmd installs chunk chunk.length = some calls ∧
      Effect installs chunk calls := by
  unfold processCmd
  split
  · next hzero =>
      exact ⟨_, rfl, .obeys .begin rfl hzero (by simpa [Command.wire,
        Command.params] using hcode)⟩
  · next hone =>
      split
      · exact ⟨_, rfl, .complains _⟩
      · dsimp only
        split
        · exact ⟨_, rfl, .complains _⟩
        · next hlong hrange =>
            let p : Progress := ⟨intBuffer chunk 1, intBuffer chunk 2,
              by omega, intBuffer_range (by omega)⟩
            exact ⟨_, rfl, .obeys (.setProgress p) rfl hone
              (by simp [Command.wire, Command.params]; omega)⟩
  · next htwo =>
      rcases message_cases hfits with hnone | ⟨m, hopen, hlength, hsome⟩
      · rw [hnone]
        exact ⟨_, rfl, .nothing⟩
      · rw [hsome]
        exact ⟨_, rfl, .obeys (.print m) (by simp [Command.spare, hopen]) htwo
          (by simp [Command.wire, Command.params]; omega)⟩
  · next hthree =>
      exact ⟨_, rfl, .obeys .reset rfl hthree (by simpa [Command.wire,
        Command.params] using hcode)⟩
  · next hfour =>
      exact ⟨_, rfl, .obeys .reboot rfl hfour (by simpa [Command.wire,
        Command.params] using hcode)⟩
  · next hfive =>
      rcases message_cases hfits with hnone | ⟨m, hopen, hlength, hsome⟩
      · rw [hnone]
        exact ⟨_, rfl, .nothing⟩
      · rw [hsome]
        exact ⟨_, rfl, .obeys (.install m) (by simp [Command.spare, hopen])
          hfive (by simp [Command.wire, Command.params]; omega)⟩
  · exact ⟨_, rfl, .nothing⟩

/-- The calls of a command tell it apart from every other one, also when more
calls follow, up to the terminator of its message. -/
theorem calls_decode (installs : Bytes → Bool) {c d : Command}
    {first second : List Call} (hspare : d.spare = 0)
    (heq : d.calls installs ++ first = c.calls installs ++ second) :
    first = second ∧ d.code = c.code ∧
      c.wire.length = d.wire.length + c.spare := by
  cases d <;> cases c <;>
    simp [Command.calls, verificationProgressTime] at heq <;>
    simp [Command.code, Command.wire_length, Command.params, Command.spare,
      Message.bytes_length, heq] at hspare ⊢
  all_goals
    simp only [hspare, Bool.false_eq_true, if_false]
    omega

theorem spare_le (c : Command) : c.spare ≤ 1 := by
  cases c <;> simp only [Command.spare] <;> first | omega | split <;> omega

/-- One byte into a message command no number of a command stands. -/
theorem intBuffer_shifted (number low : UInt8) (rest : Bytes)
    (hpos : 0 < number.toNat) :
    intBuffer ([number, 0, 0, 0] ++ (low :: rest)).tail 0 ≠ number.toNat := by
  have hnumber : number.toNat < 256 := number.toNat_lt
  have hvalue : intBuffer ([number, 0, 0, 0] ++ (low :: rest)).tail 0 =
      ((16777216 * low.toNat : Nat) : Int).bmod (2 ^ 32) := by
    simp [intBuffer, window, leInt, leNat]
    congr 1
    omega
  rw [hvalue]
  intro heq
  have hmod := Int.bmod_emod (x := ((16777216 * low.toNat : Nat) : Int))
    (m := 2 ^ 32)
  rw [heq] at hmod
  omega

/-- A command that may lose its last byte is a message command. -/
theorem wire_of_spare {c : Command} (hspare : c.spare = 1) :
    ∃ (number : UInt8) (m : Message), 0 < number.toNat ∧
      c.code = number.toNat ∧ (c.code = 2 ∨ c.code = 5) ∧
      c.wire = [number, 0, 0, 0] ++ (ofLeInt 4 m.bytes.length ++ m.bytes) := by
  have htwo : ofLeInt 4 2 = [2, 0, 0, 0] := by decide
  have hfive : ofLeInt 4 5 = [5, 0, 0, 0] := by decide
  cases c with
  | print m =>
      exact ⟨2, m, by decide, rfl, Or.inl rfl, by
        rw [Command.wire, Command.params, Command.code, htwo]⟩
  | install m =>
      exact ⟨5, m, by decide, rfl, Or.inr rfl, by
        rw [Command.wire, Command.params, Command.code, hfive]⟩
  | _ => simp [Command.spare] at hspare

theorem intBuffer_tail_wire {c : Command} (hspare : c.spare = 1) :
    intBuffer c.wire.tail 0 ≠ c.code := by
  obtain ⟨number, m, hpos, hcode, -, hwire⟩ := wire_of_spare hspare
  rw [hwire, hcode]
  exact intBuffer_shifted number _ _ hpos

/-- A message command without its last byte is ignored. -/
theorem process_cut (installs : Bytes → Bool) {c : Command} {chunk : Bytes}
    {last : UInt8} (hspare : c.spare = 1) (hchunk : chunk ++ [last] = c.wire) :
    processCmd installs chunk chunk.length = some [] := by
  obtain ⟨number, m, -, hnumber, hcode, hwire⟩ := wire_of_spare hspare
  have hlength : chunk.length + 1 = 8 + m.bytes.length := by
    have hall := congrArg List.length (hchunk.trans hwire)
    simp only [List.length_append, List.length_cons, List.length_nil,
      ofLeInt_length] at hall
    omega
  have hread : intBuffer chunk 0 = c.code := by
    have hwhole := c.intBuffer_wire_zero []
    rw [List.append_nil, ← hchunk, intBuffer_append chunk [last]
      (by omega)]
      at hwhole
    exact hwhole
  have hignored : message chunk chunk.length = none := by
    by_cases hshort : chunk.length < 8
    · rw [message, if_pos hshort]
    · have hmessage := message_append chunk [last]
      rw [hchunk, hwire, message_of_wire _ m _ rfl (by omega),
        if_pos (by omega)] at hmessage
      exact hmessage.symm
  unfold processCmd
  rw [hread, hignored]
  rcases hcode with htwo | hfive
  · rw [htwo]
    rfl
  · rw [hfive]
    rfl

theorem calls_ne_nil (installs : Bytes → Bool) (c : Command) :
    c.calls installs ≠ [] := by
  cases c <;> simp [Command.calls]

/-- The calls of `commands` start with those of an obeyed chunk. -/
theorem obeyed_command {installs : Bytes → Bool} {d : Command}
    {commands : List Command} {later : List Call} (hspare : d.spare = 0)
    (heq : d.calls installs ++ later =
      commands.flatMap (Command.calls installs)) :
    ∃ c cs, commands = c :: cs ∧
      later = cs.flatMap (Command.calls installs) ∧ d.code = c.code ∧
      c.wire.length = d.wire.length + c.spare := by
  cases commands with
  | nil =>
      have hnil := (List.append_eq_nil_iff.mp heq).1
      exact absurd hnil (calls_ne_nil installs d)
  | cons c cs =>
      obtain ⟨hlater, hcode, hlength⟩ := calls_decode installs hspare heq
      exact ⟨c, cs, rfl, hlater, hcode, hlength⟩

theorem complaint_not_called {installs : Bytes → Bool}
    {commands : List Command} {format : String} {later : List Call} :
    [Call.loge format] ++ later ≠
      commands.flatMap (Command.calls installs) := by
  intro heq
  have hmem : Call.loge format ∈ commands.flatMap (Command.calls installs) := by
    rw [← heq]
    simp
  obtain ⟨c, -, hc⟩ := List.mem_flatMap.mp hmem
  cases c <;> simp [Command.calls] at hc

/-- The first step of the loop on a chunk that holds the number of a
command. -/
theorem eventLoop_cases {installs : Bytes → Bool} {record chunk : Bytes}
    {chunks : List Bytes} {done : List Call} (hcode : 4 ≤ chunk.length)
    (hfits : chunk.length ≤ recordSize)
    (hrun : eventLoop installs record ((chunk :: chunks).map .data) =
      some done) :
    ∃ calls later record', Effect installs chunk calls ∧
      processCmd installs chunk chunk.length = some calls ∧
      eventLoop installs record' (chunks.map .data) = some later ∧
      calls ++ later = done := by
  obtain ⟨calls, hcalls, heffect⟩ := process_effect installs hcode hfits
  have hstep : processCmd installs (chunk ++ record.drop chunk.length)
      chunk.length = some calls :=
    (processCmd_append installs chunk _ hcode).trans hcalls
  rw [List.map_cons, eventLoop_data hstep, Option.map_eq_some_iff] at hrun
  obtain ⟨later, hlater, hdone⟩ := hrun
  exact ⟨calls, later, _, heffect, hcalls, hlater, hdone⟩

/-- Once bytes of the stream have been passed over, the commands still to come
are not carried out. -/
theorem misaligned {installs : Bytes → Bool} {chunks : List Bytes}
    {commands : List Command} {lost record : Bytes}
    (hlong : ∀ chunk ∈ chunks, 4 ≤ chunk.length)
    (hfits : ∀ chunk ∈ chunks, chunk.length ≤ recordSize) (hlost : lost ≠ [])
    (hstream : lost ++ chunks.flatten = (commands.map Command.wire).flatten) :
    eventLoop installs record (chunks.map .data) ≠
      some (commands.flatMap (Command.calls installs)) := by
  induction chunks generalizing commands lost record with
  | nil =>
      intro hrun
      have hnone := (Option.some.inj hrun).symm
      cases commands with
      | nil => exact hlost (by simpa using hstream)
      | cons c cs =>
          exact calls_ne_nil installs c (List.append_eq_nil_iff.mp hnone).1
  | cons chunk rest ih =>
      intro hrun
      have hrest : ∀ chunk ∈ rest, 4 ≤ chunk.length :=
        fun chunk hmem => hlong chunk (List.mem_cons_of_mem _ hmem)
      have hrest' : ∀ chunk ∈ rest, chunk.length ≤ recordSize :=
        fun chunk hmem => hfits chunk (List.mem_cons_of_mem _ hmem)
      obtain ⟨calls, later, record', heffect, -, hlater, hdone⟩ :=
        eventLoop_cases (hlong chunk List.mem_cons_self)
          (hfits chunk List.mem_cons_self) hrun
      rw [List.flatten_cons, ← List.append_assoc] at hstream
      have hpos : 0 < lost.length := List.length_pos_iff.mpr hlost
      cases heffect with
      | nothing =>
          rw [List.nil_append] at hdone
          exact ih hrest hrest' (by simp [hlost]) hstream (hdone ▸ hlater)
      | complains format => exact complaint_not_called hdone
      | obeys d hspare hcode hlength =>
          obtain ⟨c, cs, rfl, rfl, hsame, hwire⟩ := obeyed_command hspare hdone
          have hle := spare_le c
          rw [List.map_cons, List.flatten_cons] at hstream
          have hahead : c.wire.length ≤ (lost ++ chunk).length := by
            rw [List.length_append]
            omega
          obtain ⟨lost', hcover⟩ := List.prefix_of_prefix_length_le
            (List.prefix_append c.wire _) ⟨_, hstream⟩ hahead
          by_cases hnext : lost' = []
          · -- the chunk is the command without its first byte
            rw [hnext, List.append_nil] at hcover
            have hall := congrArg List.length hcover
            rw [List.length_append] at hall
            have htail : chunk = c.wire.tail := by
              rw [hcover]
              cases lost with
              | nil => exact absurd rfl hlost
              | cons b lost =>
                  have hshort : lost = [] :=
                    List.length_eq_zero_iff.mp (by simp at hall; omega)
                  rw [hshort]
                  rfl
            refine intBuffer_tail_wire (c := c) (by omega) ?_
            rw [← htail, hcode, hsame]
          · rw [← hcover, List.append_assoc] at hstream
            exact ih hrest hrest' hnext
              (List.append_cancel_left hstream) hlater

/-- If every chunk holds a number and the commands are carried out, then every
chunk is one command. -/
theorem aligned_of_executed {installs : Bytes → Bool} {chunks : List Bytes}
    {commands : List Command} {record : Bytes}
    (hlong : ∀ chunk ∈ chunks, 4 ≤ chunk.length)
    (hfits : ∀ chunk ∈ chunks, chunk.length ≤ recordSize)
    (hstream : chunks.flatten = (commands.map Command.wire).flatten)
    (hrun : eventLoop installs record (chunks.map .data) =
      some (commands.flatMap (Command.calls installs))) :
    chunks = commands.map Command.wire := by
  induction chunks generalizing commands record with
  | nil =>
      have hnone := (Option.some.inj hrun).symm
      cases commands with
      | nil => rfl
      | cons c cs =>
          exact absurd (List.append_eq_nil_iff.mp hnone).1
            (calls_ne_nil installs c)
  | cons chunk rest ih =>
      have hrest : ∀ chunk ∈ rest, 4 ≤ chunk.length :=
        fun chunk hmem => hlong chunk (List.mem_cons_of_mem _ hmem)
      have hrest' : ∀ chunk ∈ rest, chunk.length ≤ recordSize :=
        fun chunk hmem => hfits chunk (List.mem_cons_of_mem _ hmem)
      have hfirst := hlong chunk List.mem_cons_self
      have hsome : chunk ≠ [] := by
        rintro rfl
        simp at hfirst
      obtain ⟨calls, later, record', heffect, hcalls, hlater, hdone⟩ :=
        eventLoop_cases hfirst (hfits chunk List.mem_cons_self) hrun
      rw [List.flatten_cons] at hstream
      cases heffect with
      | nothing =>
          rw [List.nil_append] at hdone
          exact absurd (hdone ▸ hlater) (misaligned hrest hrest' hsome hstream)
      | complains format => exact absurd hdone complaint_not_called
      | obeys d hspare hcode hlength =>
          obtain ⟨c, cs, rfl, rfl, hsame, hwire⟩ := obeyed_command hspare hdone
          have hle := spare_le c
          rw [List.map_cons, List.flatten_cons] at hstream
          rcases Nat.lt_or_ge chunk.length c.wire.length with hcut | hwhole
          · -- the chunk ends before the terminator, and the check sees that
            obtain ⟨missing, hcover⟩ := List.prefix_of_prefix_length_le
              ⟨_, hstream⟩ (List.prefix_append c.wire _) hcut.le
            have hall := congrArg List.length hcover
            rw [List.length_append] at hall
            have hone : missing.length = 1 := by omega
            obtain ⟨last, rfl⟩ := List.length_eq_one_iff.mp hone
            have hignored := process_cut installs (c := c)
              (by omega) hcover
            rw [hcalls] at hignored
            exact absurd (Option.some.inj hignored) (calls_ne_nil installs d)
          · obtain ⟨lost, hcover⟩ := List.prefix_of_prefix_length_le
              (List.prefix_append c.wire _) ⟨_, hstream⟩ hwhole
            rw [← hcover, List.append_assoc] at hstream
            have hnext := List.append_cancel_left hstream
            by_cases hlost : lost = []
            · rw [hlost, List.append_nil] at hcover
              rw [hlost, List.nil_append] at hnext
              rw [← hcover, ih hrest hrest' hnext hlater, List.map_cons]
            · exact absurd hlater (misaligned hrest hrest' hlost hnext)

theorem executed_of_aligned (installs : Bytes → Bool) (commands : List Command)
    (hfits : ∀ c ∈ commands, c.wire.length ≤ recordSize) (record : Bytes) :
    eventLoop installs record ((commands.map Command.wire).map .data) =
      some (commands.flatMap (Command.calls installs)) := by
  induction commands generalizing record with
  | nil => rfl
  | cons c cs ih =>
      have hwhole : 4 ≤ c.wire.length := by
        rw [c.wire_length]
        omega
      have hstep : processCmd installs
          (c.wire ++ record.drop c.wire.length) c.wire.length =
          some (c.calls installs) :=
        (processCmd_append installs c.wire _ hwhole).trans
          (process_wire installs c (hfits c List.mem_cons_self))
      rw [List.map_cons, List.map_cons, eventLoop_data hstep,
        ih (fun d hmem => hfits d (List.mem_cons_of_mem _ hmem))]
      rfl

/-- The server carries out the commands of a connection, each once and in
order, if every `recv` returns exactly one of them.  No other way of cutting
the stream does, as long as no `recv` returns less than a command's number (a
shorter one is completed with what an earlier `recv` left in the buffer). -/
theorem executed_iff_one_command_each (installs : Bytes → Bool)
    (commands : List Command) (s : Segmentation commands) (record : Bytes) :
    (s.chunks = commands.map Command.wire →
      eventLoop installs record (s.chunks.map .data) =
        some (commands.flatMap (Command.calls installs))) ∧
    ((∀ chunk ∈ s.chunks, 4 ≤ chunk.length) →
      eventLoop installs record (s.chunks.map .data) =
        some (commands.flatMap (Command.calls installs)) →
      s.chunks = commands.map Command.wire) := by
  constructor
  · intro haligned
    rw [haligned]
    refine executed_of_aligned installs commands (fun c hc => ?_) record
    refine s.fits c.wire ?_
    rw [haligned]
    exact List.mem_map_of_mem hc
  · intro hlong hrun
    exact aligned_of_executed hlong s.fits s.stream hrun

namespace RecoverySocketWitness

def hello : Message := ⟨ofString "hi", false, by decide, by decide⟩

def commands : List Command := [.begin, .print hello]

/-- The two commands in one `recv` each. -/
def apart : Segmentation commands where
  chunks := commands.map Command.wire
  nonempty := by decide
  fits := by decide
  stream := rfl

theorem apart_executed : eventLoop (fun _ => true) [] (apart.chunks.map .data) =
    some [.uiSetBackgroundInstalling, .uiShowProgress 0 60,
      .uiPrint (ofString "hi"), .uiPrint (ofString "\n")] ∧
    apart.chunks = commands.map Command.wire :=
  have hboth := executed_iff_one_command_each (fun _ => true) commands apart []
  ⟨hboth.1 rfl, hboth.2 (by decide) (hboth.1 rfl)⟩

/-- The two commands in one `recv`. -/
def together : Segmentation commands where
  chunks := [(commands.map Command.wire).flatten]
  nonempty := by decide
  fits := by decide
  stream := by simp

theorem together_loses_print :
    eventLoop (fun _ => true) [] (together.chunks.map .data) =
      some [.uiSetBackgroundInstalling, .uiShowProgress 0 60] ∧
    eventLoop (fun _ => true) [] (together.chunks.map .data) ≠
      some (commands.flatMap (Command.calls fun _ => true)) := by
  decide +kernel

end RecoverySocketWitness

end MetaOS.RecoverySocket
