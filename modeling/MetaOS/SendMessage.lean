/-
hardware/ril/rild/sendmessage.c: the client of recovery's command socket, and
what becomes of its commands in `process_cmd`.
-/
import MetaOS.RecoveryReceive

namespace MetaOS.SendMessage

open Bytes CString RecoverySocket

def EVENT_BEGIN_ANIMATION : Int := 0
def EVENT_SET_PROGRESS : Int := 1
def EVENT_PRINT_MESSAGE : Int := 2
def EVENT_RESET_PROGRESS : Int := 3
def EVENT_REBOOT : Int := 4
def EVENT_INSTALL : Int := 5

/-- An argument of the program, without its NUL. -/
abbrev Arg := {text : Bytes // (0 : UInt8) ∉ text}

def atoi (text : Bytes) : Int := (strtol text).1

/-- The arguments behind the program's name: `argc` is one more than there
are. -/
def errorCheck (args : List Arg) : Int :=
  match args with
  | [] => -1
  | opt :: _ =>
      let option := atoi opt.1
      let argc := args.length + 1
      if option = EVENT_BEGIN_ANIMATION ∨ option = EVENT_RESET_PROGRESS ∨
          option = EVENT_REBOOT then
        if argc = 2 then 0 else -1
      else if option = EVENT_PRINT_MESSAGE ∨ option = EVENT_INSTALL then
        if argc = 3 then 0 else -1
      else if option = EVENT_SET_PROGRESS then
        if argc = 4 then 0 else -1
      else -1

/-- `argv[i]`, a null pointer behind the last argument. -/
def argv (args : List Arg) (i : Nat) : Option Bytes :=
  args[i - 1]?.map (·.1)

/-- `memcpy` behind what `cmd` holds, with a count that is converted to
`size_t`; nothing is a copy behind the 256 bytes. -/
def memcpy (cmd text : Bytes) (count : Int) : Option Bytes :=
  let count := (count % 2 ^ 32).toNat
  if cmd.length + count ≤ 256 then some (cmd ++ text.take count) else none

/-- `strlen` as an `int`. -/
def messageLen (text : Bytes) : Int := (text.length : Int).bmod (2 ^ 32)

/-- What `main` puts in `cmd` for an option, up to `len`. -/
def cmd (args : List Arg) (option : Int) : Option Bytes :=
  if option = EVENT_SET_PROGRESS then do
    let fraction ← argv args 2
    let time ← argv args 3
    pure (ofLeInt 4 option ++ ofLeInt 4 (atoi fraction) ++
      ofLeInt 4 (atoi time))
  else if option = EVENT_PRINT_MESSAGE ∨ option = EVENT_INSTALL then do
    let text ← argv args 2
    memcpy (ofLeInt 4 option ++ ofLeInt 4 (messageLen text)) text
      (messageLen text)
  else some (ofLeInt 4 option)

/-- How `main` ends: it prints its usage, leaves its buffer or follows a null
pointer, or sends a command. -/
inductive Sent
  | usage
  | crashed
  | sent (cmd : Bytes)
  deriving DecidableEq, Repr

def main (args : List Arg) : Sent :=
  if errorCheck args ≠ 0 then .usage
  else
    match (argv args 1).bind fun opt => cmd args (atoi opt) with
    | none => .crashed
    | some cmd => .sent cmd

/-- What a command line asks recovery to do. -/
inductive Asked
  | begin
  | setProgress (fraction time : Int)
  | print (text : Bytes)
  | reset
  | reboot
  | install (name : Bytes)
  deriving DecidableEq, Repr

def asked : List Arg → Option Asked
  | [opt] =>
      match atoi opt.1 with
      | 0 => some .begin
      | 3 => some .reset
      | 4 => some .reboot
      | _ => none
  | [opt, text] =>
      match atoi opt.1 with
      | 2 => some (.print text.1)
      | 5 => some (.install text.1)
      | _ => none
  | [opt, fraction, time] =>
      match atoi opt.1 with
      | 1 => some (.setProgress (atoi fraction.1) (atoi time.1))
      | _ => none
  | _ => none

/-- The calls that do so, with the texts as they are to be shown. -/
def Asked.calls (installs : Bytes → Bool) : Asked → List Call
  | begin => [.uiSetBackgroundInstalling,
      .uiShowProgress 0 verificationProgressTime]
  | setProgress fraction time => [.uiShowProgress fraction time]
  | print text => [.uiPrint text, .uiPrint (ofString "\n")]
  | reset => [.uiResetProgress, .uiShowIndeterminateProgress]
  | reboot => [.reboot]
  | install name => [.installPackage name, .uiPrint (ofString
      (if installs name then "install package success\n"
        else "install package failed\n"))]

/-- What a call shows: `ui_print` takes its text for a format, whose result it
cuts off at 255 bytes. -/
def display : Call → Option Call
  | .uiPrint fmt => (printed fmt).map fun text => .uiPrint (text.take 255)
  | call => some call

/-- The command is sent from within the client's buffer, the server reads
nothing but the command and copies nothing beyond its buffers, and what it
shows and does is what was asked for. -/
def RoundTrip (installs : Bytes → Bool) (args : List Arg) : Prop :=
  ∃ a cmd, asked args = some a ∧ main args = .sent cmd ∧
    cmd.length ≤ recordSize ∧
    ∀ stale, (cmd ++ stale).length = recordSize →
      (∀ access ∈ accesses (cmd ++ stale) cmd.length,
        access.Within cmd.length) ∧
      ∃ calls, processCmd installs (cmd ++ stale) cmd.length = some calls ∧
        calls.mapM display = some (a.calls installs)

/-- Texts that fit the buffers, and that are no formats if they are printed. -/
def Asked.Fits : Asked → Prop
  | setProgress fraction _ => 0 ≤ fraction ∧ fraction ≤ 100
  | print text => text.length ≤ 248 ∧ (37 : UInt8) ∉ text
  | install name => name.length ≤ 248
  | _ => True

theorem strtol_range (text : Bytes) :
    -2 ^ 31 ≤ (strtol text).1 ∧ (strtol text).1 < 2 ^ 31 := by
  rw [strtol]
  generalize sign (text.dropWhile isSpace) = signed
  obtain ⟨negative, number⟩ := signed
  dsimp only
  split
  · norm_num
  · dsimp only
    split
    · omega
    · omega

/-- The command lines that are accepted are those that ask for something. -/
theorem errorCheck_eq_zero_iff (args : List Arg) :
    errorCheck args = 0 ↔ ∃ a, asked args = some a := by
  unfold errorCheck asked EVENT_BEGIN_ANIMATION EVENT_RESET_PROGRESS
    EVENT_REBOOT EVENT_PRINT_MESSAGE EVENT_INSTALL EVENT_SET_PROGRESS
  match args with
  | [] => simp
  | [opt] =>
      dsimp only [List.length_cons, List.length_nil]
      generalize atoi opt.1 = option
      constructor
      · intro hcheck
        by_cases hoption : option = 0 ∨ option = 3 ∨ option = 4
        · rcases hoption with rfl | rfl | rfl
          · exact ⟨_, rfl⟩
          · exact ⟨_, rfl⟩
          · exact ⟨_, rfl⟩
        · simp [hoption] at hcheck
      · rintro ⟨a, hasked⟩
        split at hasked
        · rfl
        · rfl
        · rfl
        · cases hasked
  | [opt, text] =>
      dsimp only [List.length_cons, List.length_nil]
      generalize atoi opt.1 = option
      constructor
      · intro hcheck
        by_cases hoption : option = 2 ∨ option = 5
        · rcases hoption with rfl | rfl
          · exact ⟨_, rfl⟩
          · exact ⟨_, rfl⟩
        · simp [hoption] at hcheck
      · rintro ⟨a, hasked⟩
        split at hasked
        · rfl
        · rfl
        · cases hasked
  | [opt, fraction, time] =>
      dsimp only [List.length_cons, List.length_nil]
      generalize atoi opt.1 = option
      constructor
      · intro hcheck
        by_cases hoption : option = 1
        · subst hoption
          exact ⟨_, rfl⟩
        · simp [hoption] at hcheck
      · rintro ⟨a, hasked⟩
        split at hasked
        · rfl
        · cases hasked
  | opt :: a :: b :: c :: rest =>
      simp only [List.length_cons]
      split_ifs <;> simp <;> omega

/-- What a command line that asks for something puts in the buffer. -/
def Asked.cmd : Asked → Option Bytes
  | begin => some (ofLeInt 4 0)
  | setProgress fraction time =>
      some (ofLeInt 4 1 ++ ofLeInt 4 fraction ++ ofLeInt 4 time)
  | print text =>
      memcpy (ofLeInt 4 2 ++ ofLeInt 4 (messageLen text)) text
        (messageLen text)
  | reset => some (ofLeInt 4 3)
  | reboot => some (ofLeInt 4 4)
  | install name =>
      memcpy (ofLeInt 4 5 ++ ofLeInt 4 (messageLen name)) name
        (messageLen name)

/-- Its texts have no NUL and its numbers are of type `int`. -/
def Asked.Typed : Asked → Prop
  | setProgress fraction time =>
      (-2 ^ 31 ≤ fraction ∧ fraction < 2 ^ 31) ∧ -2 ^ 31 ≤ time ∧ time < 2 ^ 31
  | print text => (0 : UInt8) ∉ text
  | install name => (0 : UInt8) ∉ name
  | _ => True

theorem cmd_of_asked {args : List Arg} {a : Asked}
    (hasked : asked args = some a) :
    ((argv args 1).bind fun opt => cmd args (atoi opt)) = a.cmd ∧ a.Typed := by
  unfold asked at hasked
  split at hasked
  next opt =>
    rw [show argv [opt] 1 = some opt.1 from rfl, Option.bind_some]
    split at hasked
    next hopt =>
      cases hasked
      rw [hopt]
      exact ⟨rfl, trivial⟩
    next hopt =>
      cases hasked
      rw [hopt]
      exact ⟨rfl, trivial⟩
    next hopt =>
      cases hasked
      rw [hopt]
      exact ⟨rfl, trivial⟩
    next => cases hasked
  next opt text =>
    have htext : argv [opt, text] 2 = some text.1 := rfl
    rw [show argv [opt, text] 1 = some opt.1 from rfl, Option.bind_some]
    split at hasked
    next hopt =>
      cases hasked
      refine ⟨?_, text.2⟩
      rw [hopt, cmd, if_neg (by decide), if_pos (by decide), htext,
        Option.bind_eq_bind, Option.bind_some, Asked.cmd]
    next hopt =>
      cases hasked
      refine ⟨?_, text.2⟩
      rw [hopt, cmd, if_neg (by decide), if_pos (by decide), htext,
        Option.bind_eq_bind, Option.bind_some, Asked.cmd]
    next => cases hasked
  next opt fraction time =>
    rw [show argv [opt, fraction, time] 1 = some opt.1 from rfl,
      Option.bind_some]
    split at hasked
    next hopt =>
      cases hasked
      rw [hopt]
      exact ⟨rfl, strtol_range _, strtol_range _⟩
    next => cases hasked
  next => cases hasked

theorem main_of_asked {args : List Arg} {a : Asked}
    (hasked : asked args = some a) :
    main args = match a.cmd with
      | none => .crashed
      | some cmd => .sent cmd := by
  have hcheck := (errorCheck_eq_zero_iff args).mpr ⟨a, hasked⟩
  rw [main, if_neg (not_not.mpr hcheck), (cmd_of_asked hasked).1]

/-- The text that is copied is the whole text, unless its length is too large
for an `int`. -/
theorem memcpy_message {front : Bytes} (hfront : front.length = 8)
    (text : Bytes) :
    memcpy front text (messageLen text) =
      if text.length % 2 ^ 32 ≤ 248 then
        some (front ++ text.take (text.length % 2 ^ 32))
      else none := by
  have hcount : (messageLen text % 2 ^ 32).toNat = text.length % 2 ^ 32 := by
    have hmod : messageLen text % (2 ^ 32 : Nat) =
        (text.length : Int) % (2 ^ 32 : Nat) := Int.bmod_emod
    omega
  rw [memcpy, hcount, hfront]
  refine if_congr ?_ rfl rfl
  omega

theorem messageLen_eq {text : Bytes} (hlen : text.length % 2 ^ 32 ≤ 248) :
    messageLen text = (text.length % 2 ^ 32 : Nat) := by
  have hmod : messageLen text = (text.length : Int).bmod (2 ^ 32) := rfl
  rw [Int.bmod_def] at hmod
  omega

/-- What is sent of a text, as a command's message. -/
def sentMessage (text : Bytes) (htext : (0 : UInt8) ∉ text)
    (hlen : text.length % 2 ^ 32 ≤ 248) : Message where
  text := text.take (text.length % 2 ^ 32)
  terminated := false
  no_nul := fun hmem => htext (List.mem_of_mem_take hmem)
  fits := by
    rw [List.length_take]
    omega

theorem sentMessage_bytes_length {text : Bytes} (htext : (0 : UInt8) ∉ text)
    (hlen : text.length % 2 ^ 32 ≤ 248) :
    (sentMessage text htext hlen).bytes.length = text.length % 2 ^ 32 := by
  have hle : text.length % 2 ^ 32 ≤ text.length := Nat.mod_le _ _
  rw [Message.bytes_length, sentMessage, List.length_take, min_eq_left hle]
  rfl

theorem memcpy_wire {text : Bytes} (htext : (0 : UInt8) ∉ text)
    (hlen : text.length % 2 ^ 32 ≤ 248) (number : Int) :
    memcpy (ofLeInt 4 number ++ ofLeInt 4 (messageLen text)) text
        (messageLen text) =
      some (ofLeInt 4 number ++
        (ofLeInt 4 (sentMessage text htext hlen).bytes.length ++
          (sentMessage text htext hlen).bytes)) := by
  rw [memcpy_message (by simp), if_pos hlen, messageLen_eq hlen,
    sentMessage_bytes_length, Message.bytes]
  simp [sentMessage]

theorem display_ofString_newline :
    display (.uiPrint (ofString "\n")) = some (.uiPrint (ofString "\n")) := by
  decide

theorem display_installed (success : Bool) :
    display (.uiPrint (ofString
      (if success then "install package success\n"
        else "install package failed\n"))) =
      some (.uiPrint (ofString
        (if success then "install package success\n"
          else "install package failed\n"))) := by
  cases success with
  | false => decide +kernel
  | true => decide +kernel

/-- A command that fits the record is carried out from its own bytes. -/
theorem served (installs : Bytes → Bool) {c : Command}
    (hfits : c.wire.length ≤ recordSize) (stale : Bytes) :
    (∀ access ∈ accesses (c.wire ++ stale) c.wire.length,
      access.Within c.wire.length) ∧
    processCmd installs (c.wire ++ stale) c.wire.length =
      some (c.calls installs) := by
  have hcode : 4 ≤ c.wire.length := by
    rw [c.wire_length]
    omega
  exact ⟨accesses_within hcode hfits,
    (processCmd_append installs c.wire stale hcode).trans
      (process_wire installs c hfits)⟩

/-- What is left to see is whether the right calls are made and shown. -/
theorem roundTrip_iff_display {installs : Bytes → Bool} {args : List Arg}
    {a : Asked} (hasked : asked args = some a) {c : Command}
    (hmain : main args = .sent c.wire) (hfits : c.wire.length ≤ recordSize) :
    RoundTrip installs args ↔
      (c.calls installs).mapM display = some (a.calls installs) := by
  constructor
  · rintro ⟨a', cmd, hasked', hmain', -, hserved⟩
    obtain rfl := Option.some_inj.mp (hasked.symm.trans hasked')
    obtain rfl := Sent.sent.inj (hmain.symm.trans hmain')
    obtain ⟨-, calls, hcalls, hshown⟩ := hserved
      (List.replicate (recordSize - c.wire.length) 0) (by simp; omega)
    rw [(served installs hfits _).2] at hcalls
    rwa [Option.some_inj.mp hcalls]
  · intro hshown
    refine ⟨a, c.wire, hasked, hmain, hfits, fun stale _ => ?_⟩
    obtain ⟨hwithin, hcalls⟩ := served installs hfits stale
    exact ⟨hwithin, _, hcalls, hshown⟩

theorem mapM_pair_eq_some_iff {α β : Type} {f : α → Option β} {a b : α}
    {a' b' : β} :
    [a, b].mapM f = some [a', b'] ↔ f a = some a' ∧ f b = some b' := by
  cases ha : f a with
  | none => simp [ha]
  | some x =>
      cases hb : f b with
      | none => simp [ha, hb]
      | some y => simp [ha, hb]

/-- A short text is shown as another one if it stands for it as a format. -/
theorem display_print_iff {fmt : Bytes} (hlen : fmt.length ≤ 248)
    (text : Bytes) :
    display (.uiPrint fmt) = some (.uiPrint text) ↔
      printed fmt = some text := by
  rw [display, Option.map_eq_some_iff]
  constructor
  · rintro ⟨out, hformat, hshown⟩
    have hout := printed_length_le hformat
    rw [List.take_of_length_le (by omega)] at hshown
    rwa [← Call.uiPrint.inj hshown]
  · intro hformat
    have hout := printed_length_le hformat
    exact ⟨text, hformat, by rw [List.take_of_length_le (by omega)]⟩

theorem not_roundTrip_of_crashed {installs : Bytes → Bool} {args : List Arg}
    (hmain : main args = .crashed) : ¬ RoundTrip installs args := by
  rintro ⟨a, cmd, -, hsent, -⟩
  rw [hmain] at hsent
  cases hsent

/-- The part of a text that is sent is the text if it is as long. -/
theorem sentMessage_text {text : Bytes} (htext : (0 : UInt8) ∉ text)
    (hlen : text.length % 2 ^ 32 ≤ 248) :
    (sentMessage text htext hlen).text.length ≤ 248 ∧
      (text.length ≤ (sentMessage text htext hlen).text.length →
        (sentMessage text htext hlen).text = text) ∧
      (text.length ≤ 248 → (sentMessage text htext hlen).text = text) := by
  have hle : text.length % 2 ^ 32 ≤ text.length := Nat.mod_le _ _
  dsimp only [sentMessage]
  rw [List.length_take, min_eq_left hle]
  refine ⟨hlen, fun h => List.take_of_length_le h, fun h => ?_⟩
  rw [Nat.mod_eq_of_lt (by omega), List.take_length]

theorem print_roundTrip_iff (installs : Bytes → Bool) {args : List Arg}
    {text : Bytes} (hasked : asked args = some (.print text)) :
    RoundTrip installs args ↔ (Asked.print text).Fits := by
  have htext : (0 : UInt8) ∉ text := (cmd_of_asked hasked).2
  have hmain := main_of_asked hasked
  rw [Asked.cmd] at hmain
  by_cases hlen : text.length % 2 ^ 32 ≤ 248
  · rw [memcpy_wire htext hlen] at hmain
    have hwire : (Command.print (sentMessage text htext hlen)).wire.length ≤
        recordSize := by
      rw [Command.wire_length, Command.params, List.length_append,
        sentMessage_bytes_length, ofLeInt_length, recordSize]
      omega
    obtain ⟨hshort, hlong, hwhole⟩ := sentMessage_text htext hlen
    rw [roundTrip_iff_display (c := .print (sentMessage text htext hlen))
      hasked hmain hwire, Command.calls, Asked.calls, mapM_pair_eq_some_iff,
      display_print_iff hshort, and_iff_left display_ofString_newline]
    constructor
    · intro hformat
      have hsame := hlong (printed_length_le hformat)
      rw [hsame] at hformat hshort
      exact ⟨hshort, (printed_eq_self_iff text).mp hformat⟩
    · rintro ⟨hfits, hplain⟩
      rw [hwhole hfits]
      exact (printed_eq_self_iff text).mpr hplain
  · rw [memcpy_message (by simp), if_neg hlen] at hmain
    refine iff_of_false (not_roundTrip_of_crashed hmain) ?_
    rintro ⟨hle, -⟩
    rw [Nat.mod_eq_of_lt (by omega)] at hlen
    exact hlen hle

theorem install_roundTrip_iff (installs : Bytes → Bool) {args : List Arg}
    {name : Bytes} (hasked : asked args = some (.install name)) :
    RoundTrip installs args ↔ (Asked.install name).Fits := by
  have hname : (0 : UInt8) ∉ name := (cmd_of_asked hasked).2
  have hmain := main_of_asked hasked
  rw [Asked.cmd] at hmain
  by_cases hlen : name.length % 2 ^ 32 ≤ 248
  · rw [memcpy_wire hname hlen] at hmain
    have hwire : (Command.install (sentMessage name hname hlen)).wire.length ≤
        recordSize := by
      rw [Command.wire_length, Command.params, List.length_append,
        sentMessage_bytes_length, ofLeInt_length, recordSize]
      omega
    obtain ⟨hshort, hlong, hwhole⟩ := sentMessage_text hname hlen
    rw [roundTrip_iff_display (c := .install (sentMessage name hname hlen))
      hasked hmain hwire, Command.calls, Asked.calls, mapM_pair_eq_some_iff]
    constructor
    · rintro ⟨hinstalled, -⟩
      have hsame : (sentMessage name hname hlen).text = name :=
        Call.installPackage.inj (Option.some_inj.mp hinstalled)
      rw [hsame] at hshort
      exact hshort
    · intro hfits
      rw [hwhole hfits]
      exact ⟨rfl, display_installed (installs name)⟩
  · rw [memcpy_message (by simp), if_neg hlen] at hmain
    refine iff_of_false (not_roundTrip_of_crashed hmain) ?_
    intro hle
    change name.length ≤ 248 at hle
    rw [Nat.mod_eq_of_lt (by omega)] at hlen
    exact hlen hle

theorem setProgress_roundTrip_iff (installs : Bytes → Bool) {args : List Arg}
    {fraction time : Int}
    (hasked : asked args = some (.setProgress fraction time)) :
    RoundTrip installs args ↔ (Asked.setProgress fraction time).Fits := by
  obtain ⟨hfraction, htime⟩ :
      (-2 ^ 31 ≤ fraction ∧ fraction < 2 ^ 31) ∧ -2 ^ 31 ≤ time ∧
        time < 2 ^ 31 := (cmd_of_asked hasked).2
  have hmain := main_of_asked hasked
  rw [Asked.cmd] at hmain
  by_cases hrange : 0 ≤ fraction ∧ fraction ≤ 100
  · have hwire : main args =
        .sent (Command.setProgress ⟨fraction, time, hrange, htime⟩).wire := by
      rw [hmain, Command.wire, Command.params, List.append_assoc]
      rfl
    rw [roundTrip_iff_display hasked hwire
      (by simp [Command.wire, Command.params, recordSize])]
    exact iff_of_true rfl hrange
  · refine iff_of_false ?_ hrange
    rintro ⟨a, cmd, hasked', hmain', -, hserved⟩
    obtain rfl := Option.some_inj.mp (hasked.symm.trans hasked')
    obtain rfl := Sent.sent.inj (hmain.symm.trans hmain')
    obtain ⟨-, calls, hcalls, hshown⟩ := hserved (List.replicate 244 0)
      (by simp only [List.length_append, ofLeInt_length, List.length_replicate,
        recordSize])
    have hrefused : processCmd installs
        (ofLeInt 4 1 ++ ofLeInt 4 fraction ++ ofLeInt 4 time)
        (ofLeInt 4 1 ++ ofLeInt 4 fraction ++ ofLeInt 4 time).length =
        some [.loge "Progress value is not valid errno:%d\n"] := by
      have hcode := intBuffer_of_append (i := 0) [] (ofLeInt 4 1)
        (ofLeInt 4 fraction ++ ofLeInt 4 time) rfl (ofLeInt_length 4 _)
      have hprogress := intBuffer_of_append (i := 1) (ofLeInt 4 1)
        (ofLeInt 4 fraction) (ofLeInt 4 time) (ofLeInt_length 4 _)
        (ofLeInt_length 4 _)
      rw [leInt_ofLeInt_of_range (by norm_num)] at hcode
      rw [leInt_ofLeInt_of_range hfraction] at hprogress
      rw [List.append_assoc, processCmd]
      rw [List.nil_append] at hcode
      rw [hcode, if_neg (by simp), hprogress, if_pos (by omega)]
      rfl
    rw [processCmd_append installs _ _ (by simp), hrefused] at hcalls
    rw [← Option.some_inj.mp hcalls] at hshown
    cases hshown

/-- A command line that `error_check` accepts comes through if and only if its
texts fit the buffers, a text that is printed is no format, and a fraction is
between 0 and 100. -/
theorem delivered_intact_iff (installs : Bytes → Bool) {args : List Arg}
    (hcheck : errorCheck args = 0) :
    RoundTrip installs args ↔ ∀ a, asked args = some a → a.Fits := by
  obtain ⟨a, hasked⟩ := (errorCheck_eq_zero_iff args).mp hcheck
  have hfits : (∀ a', asked args = some a' → a'.Fits) ↔ a.Fits := by
    rw [hasked]
    simp
  rw [hfits]
  have hmain := main_of_asked hasked
  cases a with
  | begin =>
      rw [roundTrip_iff_display (c := .begin) hasked hmain (by decide)]
      exact iff_of_true rfl trivial
  | setProgress fraction time =>
      exact setProgress_roundTrip_iff installs hasked
  | print text => exact print_roundTrip_iff installs hasked
  | reset =>
      rw [roundTrip_iff_display (c := .reset) hasked hmain (by decide)]
      exact iff_of_true rfl trivial
  | reboot =>
      rw [roundTrip_iff_display (c := .reboot) hasked hmain (by decide)]
      exact iff_of_true rfl trivial
  | install name => exact install_roundTrip_iff installs hasked

namespace SendMessageWitness

theorem two_typed : (0 : UInt8) ∉ ofString "2" := by decide

theorem hi_typed : (0 : UInt8) ∉ ofString "hi" := by decide

/-- `sendmessage 2 hi` -/
def hi : List Arg := [⟨ofString "2", two_typed⟩, ⟨ofString "hi", hi_typed⟩]

theorem hi_roundTrip : RoundTrip (fun _ => true) hi := by
  refine (delivered_intact_iff (fun _ => true) (by decide)).mpr ?_
  intro a hasked
  obtain rfl : Asked.print (ofString "hi") = a := Option.some_inj.mp hasked
  exact ⟨by decide, by decide⟩

/-- `sendmessage 2 50%` -/
def half : List Arg := [⟨ofString "2", two_typed⟩, ⟨ofString "50%", by decide⟩]

theorem half_not_shown :
    ¬ ∀ installs args, errorCheck args = 0 →
      (∀ fraction time, asked args = some (.setProgress fraction time) →
        0 ≤ fraction ∧ fraction ≤ 100) →
      RoundTrip installs args := by
  intro hclaim
  have hasked : asked half = some (.print (ofString "50%")) := rfl
  have hshown := hclaim (fun _ => true) half (by decide) fun _ _ hother => by
    cases hother
  exact ((print_roundTrip_iff _ hasked).mp hshown).2 (by decide)

end SendMessageWitness

end MetaOS.SendMessage
