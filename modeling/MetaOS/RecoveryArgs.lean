/-
Where recovery takes its arguments from, and whether they are still there at
the next boot.

`get_args` looks at the command line, then at the bootloader control block,
then at the command file, and writes what it found back into the control
block.  The three sources have different limits, and the block has the
tightest one.
-/
import MetaOS.Bootloader

namespace MetaOS

namespace RecoveryArgs

open CString Bootloader

/-- A string the program can hold a pointer to. -/
abbrev Arg := {text : Bytes // (0 : UInt8) ∉ text}

/-- The `argc`/`argv` pair. -/
structure CommandLine where
  argv0 : Arg
  args : List Arg

def maxArgLength : Nat := 4096

def maxArgs : Nat := 100

def isNewline (c : UInt8) : Bool := c == 10

def isLineEnd (c : UInt8) : Bool := c == 13 || c == 10

/-- The word `recovery`, without its newline. -/
def recoveryWord : Bytes := [114, 101, 99, 111, 118, 101, 114, 121]

/-- The text `boot-recovery`. -/
def bootRecovery : Bytes :=
  [98, 111, 111, 116, 45] ++ recoveryWord

/-- The arguments in the control block, and the block `strtok` leaves. -/
def bootArgs (recovery : Bytes) : Option CommandLine × Bytes :=
  match strtok isNewline recovery 0 with
  | none => (none, recovery)
  | some (arg, recovery, pos) =>
      if arg = recoveryWord then
        let (args, recovery) :=
          strtokMany isNewline (maxArgs - 1) recovery pos
        (some ⟨strdup arg, args.map strdup⟩, recovery)
      else (none, recovery)

/-- The loop over the command file.  `strtok` returns NULL on a line without
text, and `strdup` does not survive that. -/
def commandFileArgs : (count : Nat) → Bytes → Option (List Arg)
  | 0, _ => some []
  | count + 1, file =>
      match fgets maxArgLength file with
      | none => some []
      | some (buf, file) =>
          match strtok isLineEnd (buf ++ [0]) 0 with
          | none => none
          | some (arg, _, _) =>
              (commandFileArgs count file).map (strdup arg :: ·)

/-- The loop that puts the arguments back into the control block. -/
def appendArgs (recovery : Bytes) : List Arg → Bytes
  | [] => recovery
  | arg :: args => appendArgs (strlcat (strlcat recovery arg.1) [10]) args

theorem appendArgs_length (recovery : Bytes) (args : List Arg) :
    (appendArgs recovery args).length = recovery.length := by
  induction args generalizing recovery with
  | nil => rfl
  | cons arg args ih =>
      rw [appendArgs, ih, strlcat_length, strlcat_length]

theorem bootArgs_length (recovery : Bytes) :
    (bootArgs recovery).2.length = recovery.length := by
  unfold bootArgs
  cases hcall : strtok isNewline recovery 0 with
  | none => rfl
  | some call =>
      obtain ⟨arg, buf, pos⟩ := call
      have hbuf := strtok_length hcall
      simp only
      split
      · exact (strtokMany_length _ _ _ _).trans hbuf
      · exact hbuf

/-- What the control block makes of an empty command line. -/
def fromBoot (line : CommandLine) (recovery : Bytes) : CommandLine × Bytes :=
  if line.args = [] then
    let (found, recovery) := bootArgs (recovery.set 1023 0)
    (found.getD line, recovery)
  else (line, recovery)

theorem fromBoot_length (line : CommandLine) (recovery : Bytes) :
    (fromBoot line recovery).2.length = recovery.length := by
  unfold fromBoot
  split
  · exact (bootArgs_length _).trans List.length_set
  · rfl

/-- What the command file makes of a command line that is still empty. -/
def fromCommandFile (line : CommandLine) (commandFile : Option Bytes) :
    Option CommandLine :=
  if line.args = [] then
    match commandFile with
    | none => some line
    | some file =>
        (commandFileArgs (maxArgs - 1) file).map (⟨line.argv0, ·⟩)
  else some line

theorem fromCommandFile_of_ne_nil {line : CommandLine}
    (hline : line.args ≠ []) (commandFile : Option Bytes) :
    fromCommandFile line commandFile = some line := by
  unfold fromCommandFile
  rw [if_neg hline]

theorem fromCommandFile_some {line : CommandLine}
    (hline : line.args = []) (file : Bytes) :
    fromCommandFile line (some file) =
      (commandFileArgs (maxArgs - 1) file).map (⟨line.argv0, ·⟩) := by
  unfold fromCommandFile
  rw [if_pos hline]

/-- The control block written back. -/
def writeBack (boot : BootloaderMessage) (recovery : Bytes)
    (hrecovery : recovery.length = 1024) (args : List Arg) :
    BootloaderMessage where
  command := strlcpy boot.command bootRecovery
  status := boot.status
  recovery := appendArgs (strlcpy recovery (recoveryWord ++ [10])) args
  command_length := by
    rw [strlcpy_length (by rw [boot.command_length]; decide),
      boot.command_length]
  status_length := boot.status_length
  recovery_length := by
    rw [appendArgs_length, strlcpy_length (by omega), hrecovery]

/-- `get_args`.  The control block may be unreadable and the command file
missing; the result is the new command line and the control block handed to
`set_bootloader_message`, or nothing when the program crashes. -/
def getArgs (line : CommandLine) (stored : Option BootloaderMessage)
    (commandFile : Option Bytes) :
    Option (CommandLine × BootloaderMessage) :=
  let boot := stored.getD BootloaderMessage.zero
  let booted := fromBoot line boot.recovery
  (fromCommandFile booted.1 commandFile).map fun line =>
    (line, writeBack boot booted.2
      ((fromBoot_length _ _).trans boot.recovery_length) line.args)

/-- The arguments survive a restart: `get_args` returns, and when it returns
arguments, the next boot finds the same ones in the control block, whatever
its program name is and whatever the command file holds by then. -/
def SurvivesRestart (line : CommandLine) (stored : Option BootloaderMessage)
    (commandFile : Option Bytes) : Prop :=
  ∃ found message,
    getArgs line stored commandFile = some (found, message) ∧
    (found.args ≠ [] →
      ∀ argv0 laterFile, ∃ later message',
        getArgs ⟨argv0, []⟩ (some message) laterFile =
          some (later, message') ∧
        later.args = found.args)

/-- The arguments and their separators fit in the control block. -/
def Fits (args : List Bytes) : Prop :=
  recoveryWord.length + (args.map fun arg => 1 + arg.length).sum ≤ 1023

/-- Arguments that come back from the control block as they went in: none is
empty or holds a newline, and they are few and short enough. -/
def Undamaged (args : List Arg) : Prop :=
  (∀ arg ∈ args, arg.1 ≠ [] ∧ (10 : UInt8) ∉ arg.1) ∧
    args.length < maxArgs ∧ Fits (args.map Subtype.val)

/-- The arguments an input control block holds. -/
def storedArgs (boot : BootloaderMessage) : List Bytes :=
  match tokens isNewline (cstr (boot.recovery.take 1023)) with
  | [] => []
  | arg :: args => if arg = recoveryWord then args else []

/-- The pieces of the command file that the loop reads. -/
def fileLines : (count : Nat) → Bytes → List Bytes
  | 0, _ => []
  | count + 1, file =>
      match fgets maxArgLength file with
      | none => []
      | some (buf, file) => buf :: fileLines count file

/-- The text of a line: what stands before its end and before a NUL. -/
def lineText (line : Bytes) : Bytes :=
  ((cstr line).dropWhile isLineEnd).takeWhile fun c => !isLineEnd c

/-- The condition on the input: arguments given on the command line are
not empty, hold no newline, are at most 99 and fit in the control block;
arguments already in the control block need nothing more; a command file has
no line without text, and its lines fit in the control block. -/
def Restartable (line : CommandLine) (stored : Option BootloaderMessage)
    (commandFile : Option Bytes) : Prop :=
  if line.args ≠ [] then Undamaged line.args
  else if storedArgs (stored.getD BootloaderMessage.zero) ≠ [] then True
  else
    ∀ file ∈ commandFile,
      (∀ text ∈ fileLines (maxArgs - 1) file, lineText text ≠ []) ∧
        Fits ((fileLines (maxArgs - 1) file).map lineText)

theorem bootArgs_fst (recovery : Bytes) :
    (bootArgs recovery).1 =
      match tokens isNewline (cstr recovery) with
      | [] => none
      | arg :: args =>
          if arg = recoveryWord then
            some ⟨strdup arg, (args.take (maxArgs - 1)).map strdup⟩
          else none := by
  have hspec := strtok_spec isNewline recovery 0
  rw [List.drop_zero] at hspec
  unfold bootArgs
  cases hcall : strtok isNewline recovery 0 with
  | none =>
      rw [hcall] at hspec
      simp only at hspec ⊢
      rw [hspec]
  | some call =>
      obtain ⟨arg, buf, pos⟩ := call
      rw [hcall] at hspec
      simp only at hspec ⊢
      rw [hspec]
      simp only
      split
      · rw [strtokMany_fst]
      · rfl

/-- Forcing the last byte to NUL leaves the text before it. -/
theorem cstr_set_last {recovery : Bytes}
    (hrecovery : recovery.length = 1024) :
    cstr (recovery.set 1023 0) = cstr (recovery.take 1023) := by
  rw [List.set_eq_take_append_cons_drop, if_pos (by omega),
    cstr_append_nul]

theorem fromBoot_nil (line : CommandLine) (hline : line.args = [])
    (boot : BootloaderMessage) :
    (fromBoot line boot.recovery).1.args =
      ((storedArgs boot).take (maxArgs - 1)).map strdup := by
  unfold fromBoot storedArgs
  rw [if_pos hline]
  simp only
  rw [bootArgs_fst, cstr_set_last boot.recovery_length]
  cases tokens isNewline (cstr (boot.recovery.take 1023)) with
  | nil => simpa using hline
  | cons arg args =>
      simp only
      split
      · rfl
      · simpa using hline

theorem fromBoot_of_ne_nil {line : CommandLine} (hline : line.args ≠ [])
    (recovery : Bytes) : fromBoot line recovery = (line, recovery) := by
  rw [fromBoot, if_neg hline]

/-- The call that strips the newline finds the text of the line. -/
theorem strtok_line (line : Bytes) :
    (strtok isLineEnd (line ++ [0]) 0).map Prod.fst =
      if lineText line = [] then none else some (lineText line) := by
  have hspec := strtok_spec isLineEnd (line ++ [0]) 0
  have hsplit : tokens isLineEnd (cstr line) =
      if lineText line = [] then []
      else lineText line :: tokens isLineEnd
        (((cstr line).dropWhile isLineEnd).dropWhile fun c => !isLineEnd c) :=
    tokens_split _
  rw [List.drop_zero, cstr_append_nul, hsplit] at hspec
  by_cases hblank : lineText line = []
  · rw [if_pos hblank] at hspec ⊢
    cases hcall : strtok isLineEnd (line ++ [0]) 0 with
    | none => rfl
    | some call =>
        rw [hcall] at hspec
        cases hspec
  · rw [if_neg hblank] at hspec ⊢
    cases hcall : strtok isLineEnd (line ++ [0]) 0 with
    | none =>
        rw [hcall] at hspec
        cases hspec
    | some call =>
        rw [hcall] at hspec
        obtain ⟨htext, -⟩ := List.cons.inj hspec
        rw [Option.map_some, htext]

/-- The command file is read without a crash when each of its lines has
text; the arguments are then these texts. -/
theorem commandFileArgs_eq (count : Nat) (file : Bytes) :
    commandFileArgs count file =
      if ∀ text ∈ fileLines count file, lineText text ≠ [] then
        some ((fileLines count file).map fun text => strdup (lineText text))
      else none := by
  induction count generalizing file with
  | zero => simp [commandFileArgs, fileLines]
  | succ count ih =>
      rw [commandFileArgs, fileLines]
      cases hread : fgets maxArgLength file with
      | none => simp
      | some read =>
          obtain ⟨buf, file'⟩ := read
          have hline := strtok_line buf
          cases hcall : strtok isLineEnd (buf ++ [0]) 0 with
          | none =>
              rw [hcall] at hline
              have hblank : lineText buf = [] := by
                by_contra htext
                rw [if_neg htext] at hline
                cases hline
              simp [hcall, hblank]
          | some call =>
              rw [hcall] at hline
              have htext : lineText buf ≠ [] := by
                intro hblank
                rw [if_pos hblank] at hline
                cases hline
              rw [if_neg htext, Option.map_some, Option.some.injEq] at hline
              simp only [hcall, ih, hline, List.forall_mem_cons, htext, ne_eq,
                not_false_eq_true, true_and, List.map_cons]
              split
              · rfl
              · rfl

/-- What `get_args` writes for the next boot: one line for the word and one
for each argument, cut to the size of the field. -/
def messageText (args : List Arg) : Bytes :=
  recoveryWord ++ (args.map Subtype.val).flatMap (10 :: ·) ++ [10]

theorem take_append_take (text more : Bytes) (len : Nat) :
    (text.take len ++ more).take len = (text ++ more).take len := by
  rw [List.take_append, List.take_append, List.take_take, Nat.min_self,
    List.length_take]
  by_cases hlen : len ≤ text.length
  · rw [Nat.min_eq_left hlen, Nat.sub_self, Nat.sub_eq_zero_of_le hlen]
  · rw [Nat.min_eq_right (by omega)]

theorem cstr_appendArgs {recovery text : Bytes} (args : List Arg)
    (hrecovery : recovery.length = 1024)
    (htext : cstr recovery = text.take 1023) :
    cstr (appendArgs recovery args) =
      (text ++ args.flatMap fun arg : Arg => arg.1 ++ [10]).take 1023 := by
  have happend : ∀ {buf text more : Bytes}, buf.length = 1024 →
      cstr buf = text.take 1023 → (0 : UInt8) ∉ more →
      cstr (strlcat buf more) = (text ++ more).take 1023 := by
    intro buf text more hbuf htext hmore
    have hroom : (cstr buf).length < buf.length := by
      rw [htext, List.length_take]
      omega
    rw [cstr_strlcat hmore hroom, htext, hbuf, take_append_take]
  induction args generalizing recovery text with
  | nil => rw [appendArgs, List.flatMap_nil, List.append_nil, htext]
  | cons arg args ih =>
      rw [appendArgs, List.flatMap_cons, ← List.append_assoc,
        ← List.append_assoc]
      apply ih
      · rw [strlcat_length, strlcat_length, hrecovery]
      · apply happend
        · rw [strlcat_length, hrecovery]
        · exact happend hrecovery htext arg.2
        · decide

theorem flatMap_newline (args : List Arg) :
    10 :: args.flatMap (fun arg => arg.1 ++ [10]) =
      (args.map Subtype.val).flatMap (10 :: ·) ++ [10] := by
  induction args with
  | nil => rfl
  | cons arg args ih =>
      rw [List.flatMap_cons, List.map_cons, List.flatMap_cons,
        List.append_assoc, List.singleton_append, ih]
      simp

theorem cstr_writeBack (boot : BootloaderMessage) {recovery : Bytes}
    (hrecovery : recovery.length = 1024) (args : List Arg) :
    cstr (writeBack boot recovery hrecovery args).recovery =
      (messageText args).take 1023 := by
  have hstart : cstr (strlcpy recovery (recoveryWord ++ [10])) =
      (recoveryWord ++ [10]).take 1023 := by
    rw [cstr_strlcpy (by decide), hrecovery]
  have hlength : (strlcpy recovery (recoveryWord ++ [10])).length = 1024 := by
    rw [strlcpy_length (by omega), hrecovery]
  have happend := cstr_appendArgs args hlength hstart
  rw [List.append_assoc, List.singleton_append, flatMap_newline,
    ← List.append_assoc] at happend
  exact happend

theorem zero_not_mem_messageText (args : List Arg) :
    (0 : UInt8) ∉ messageText args := by
  intro hmem
  simp only [messageText, List.mem_append, List.mem_flatMap, List.mem_map,
    List.mem_cons] at hmem
  rcases hmem with (hword | ⟨text, ⟨arg, -, rfl⟩, hzero | hzero⟩) | hzero
  · revert hword
    decide
  · exact absurd hzero (by decide)
  · exact arg.2 hzero
  · exact absurd hzero (by decide)

theorem recoveryWord_token :
    recoveryWord ≠ [] ∧ ∀ c ∈ recoveryWord, isNewline c = false := by
  refine ⟨List.cons_ne_nil _ _, ?_⟩
  intro c hc
  simp only [recoveryWord, List.mem_cons, List.not_mem_nil, or_false] at hc
  rcases hc with rfl | rfl | rfl | rfl | rfl | rfl | rfl | rfl
  all_goals rfl

/-- The arguments the next boot finds in the control block. -/
theorem tokens_messageText (boot : BootloaderMessage) {recovery : Bytes}
    (hrecovery : recovery.length = 1024) (args : List Arg) :
    tokens isNewline ((messageText args).take 1023) = recoveryWord ::
      storedArgs (writeBack boot recovery hrecovery args) := by
  have hcstr : cstr ((writeBack boot recovery hrecovery args).recovery.take
      1023) = (messageText args).take 1023 := by
    rw [cstr, ← List.take_takeWhile, ← cstr, cstr_writeBack, List.take_take,
      Nat.min_self]
  have hfirst : tokens isNewline ((messageText args).take 1023) =
      recoveryWord :: tokens isNewline
        ((10 :: args.flatMap fun arg : Arg => arg.1 ++ [10]).take 1015) := by
    rw [messageText, List.append_assoc, ← flatMap_newline, List.take_append,
      List.take_of_length_le (by decide)]
    apply tokens_eq_cons recoveryWord_token.1 recoveryWord_token.2
    intro c hc
    cases hc
    rfl
  rw [storedArgs, hcstr, hfirst]
  simp only [if_true]

theorem filter_messageText {args : List Arg}
    (hargs : ∀ arg ∈ args, (10 : UInt8) ∉ arg.1) :
    (messageText args).filter (fun c => !isNewline c) =
      recoveryWord ++ (args.map Subtype.val).flatten := by
  have hlines : ((args.map Subtype.val).flatMap (10 :: ·)).filter
      (fun c => !isNewline c) = (args.map Subtype.val).flatten := by
    induction args with
    | nil => rfl
    | cons arg args ih =>
        have hclean : arg.1.filter (fun c => !isNewline c) = arg.1 := by
          rw [List.filter_eq_self]
          intro c hc
          have hne : c ≠ 10 := by
            intro hten
            exact hargs arg List.mem_cons_self (hten ▸ hc)
          simp [isNewline, hne]
        have htail := ih fun arg' hmem =>
          hargs arg' (List.mem_cons_of_mem arg hmem)
        rw [List.map_cons, List.flatMap_cons, List.flatten_cons,
          List.filter_append, htail, List.filter_cons_of_neg (by decide),
          hclean]
  rw [messageText, List.filter_append, List.filter_append, hlines]
  have hword : recoveryWord.filter (fun c => !isNewline c) = recoveryWord := by
    decide
  have hnewline : [(10 : UInt8)].filter (fun c => !isNewline c) = [] := by
    decide
  rw [hword, hnewline, List.append_nil]

theorem length_messageText (args : List Arg) :
    (messageText args).length = recoveryWord.length +
      ((args.map Subtype.val).map fun arg => 1 + arg.length).sum + 1 := by
  rw [messageText, List.length_append, List.length_append,
    List.length_flatMap, List.length_singleton]
  simp only [List.length_cons, Nat.add_comm]

/-- A message cut before its last newline has lost a byte of an argument. -/
theorem fits_of_filter_le {args : List Arg} (hne : args ≠ [])
    (hargs : ∀ arg ∈ args, arg.1 ≠ [] ∧ (10 : UInt8) ∉ arg.1)
    (hfilter : ((messageText args).filter fun c => !isNewline c).length ≤
      (((messageText args).take 1023).filter fun c => !isNewline c).length) :
    Fits (args.map Subtype.val) := by
  by_contra hlong
  have hlength := length_messageText args
  unfold Fits at hlong
  obtain ⟨init, last, rfl⟩ := (List.eq_nil_or_concat' args).resolve_left hne
  obtain ⟨hsome, hclean⟩ := hargs last (by simp)
  obtain ⟨text, c, htext⟩ :=
    (List.eq_nil_or_concat' last.1).resolve_left hsome
  have hc : isNewline c = false := by
    have hten : c ≠ 10 := by
      intro hten
      exact hclean (by simp [htext, hten])
    simp [isNewline, hten]
  have hsplit : ∃ front, messageText (init ++ [last]) = front ++ [c, 10] := by
    refine ⟨recoveryWord ++ (init.map Subtype.val).flatMap (10 :: ·) ++
      10 :: text, ?_⟩
    simp [messageText, htext]
  obtain ⟨front, hfront⟩ := hsplit
  have hcut : 1023 ≤ front.length := by
    have htotal := congrArg List.length hfront
    simp only [List.length_append, List.length_cons, List.length_nil] at htotal
    omega
  have hkept : (((messageText (init ++ [last])).take 1023).filter
      fun c => !isNewline c).length ≤
      (front.filter fun c => !isNewline c).length := by
    rw [hfront, List.take_append_of_le_length hcut]
    exact ((List.take_sublist 1023 front).filter _).length_le
  rw [hfront, List.filter_append, List.length_append] at hfilter
  rw [hfront] at hkept
  simp [hc] at hfilter
  omega

/-- A message that fits loses at most its last newline. -/
theorem tokens_of_fits {args : List Arg}
    (hargs : ∀ arg ∈ args, arg.1 ≠ [] ∧ (10 : UInt8) ∉ arg.1)
    (hfits : Fits (args.map Subtype.val)) :
    tokens isNewline ((messageText args).take 1023) =
      recoveryWord :: args.map Subtype.val := by
  have hlength := length_messageText args
  unfold Fits at hfits
  have hlines : ∀ line ∈ recoveryWord :: args.map Subtype.val,
      line ≠ [] ∧ ∀ c ∈ line, isNewline c = false := by
    intro line hline
    rcases List.mem_cons.mp hline with rfl | hmem
    · exact recoveryWord_token
    · obtain ⟨arg, harg, rfl⟩ := List.mem_map.mp hmem
      obtain ⟨hsome, hclean⟩ := hargs arg harg
      refine ⟨hsome, ?_⟩
      intro c hc
      have hten : c ≠ 10 := fun hten => hclean (hten ▸ hc)
      simp [isNewline, hten]
  have hcut : ∃ rest, (∀ c ∈ rest, isNewline c = true) ∧
      (messageText args).take 1023 = recoveryWord ++
        (args.map Subtype.val).flatMap (10 :: ·) ++ rest := by
    refine ⟨[10].take (1024 - (messageText args).length), ?_, ?_⟩
    · intro c hc
      have hten := List.mem_of_mem_take hc
      simpa [isNewline] using hten
    · have hbody : (recoveryWord ++
          (args.map Subtype.val).flatMap (10 :: ·)).length + 1 =
          (messageText args).length := by
        rw [messageText, ← List.concat_eq_append, List.length_concat]
      conv_lhs => rw [messageText]
      rw [List.take_append, List.take_of_length_le (by omega)]
      congr 2
      omega
  obtain ⟨rest, hrest, hmessage⟩ := hcut
  rw [hmessage]
  exact tokens_lines (by decide) hlines hrest

/-- The next boot reads back exactly the arguments whose lines were not
damaged on the way into the control block. -/
theorem storedArgs_eq_iff (boot : BootloaderMessage) {recovery : Bytes}
    (hrecovery : recovery.length = 1024) {args : List Arg}
    (hne : args ≠ []) :
    ((storedArgs (writeBack boot recovery hrecovery args)).take
        (maxArgs - 1)).map strdup = args ↔ Undamaged args := by
  have htokens := tokens_messageText boot hrecovery args
  generalize storedArgs (writeBack boot recovery hrecovery args) = found
    at htokens ⊢
  constructor
  · intro hfound
    have hmem : ∀ text ∈ found,
        text ∈ tokens isNewline ((messageText args).take 1023) := by
      intro text htext
      rw [htokens]
      exact List.mem_cons_of_mem _ htext
    have hval : args.map Subtype.val = found.take (maxArgs - 1) := by
      rw [← hfound, List.map_map]
      apply (List.map_congr_left ?_).trans (List.map_id _)
      intro text htext
      apply strdup_val
      intro hzero
      apply zero_not_mem_messageText args
      exact List.mem_of_mem_take
        (mem_of_mem_tokens (hmem text (List.mem_of_mem_take htext)) hzero)
    have hargs : ∀ arg ∈ args, arg.1 ≠ [] ∧ (10 : UInt8) ∉ arg.1 := by
      intro arg harg
      have htake : arg.1 ∈ found.take (maxArgs - 1) := by
        rw [← hval]
        exact List.mem_map_of_mem harg
      obtain ⟨hsome, hclean⟩ := mem_tokens
        (hmem arg.1 (List.mem_of_mem_take htake))
      refine ⟨hsome, ?_⟩
      intro hten
      exact absurd (hclean 10 hten) (by decide)
    refine ⟨hargs, ?_, ?_⟩
    · rw [← hfound, List.length_map, List.length_take]
      have hmax : maxArgs = 100 := rfl
      omega
    · apply fits_of_filter_le hne hargs
      rw [filter_messageText fun arg harg => (hargs arg harg).2,
        ← flatten_tokens, htokens, hval, List.flatten_cons,
        List.length_append, List.length_append]
      have hsub := (List.take_sublist (maxArgs - 1) found).flatten.length_le
      omega
  · rintro ⟨hargs, hcount, hfits⟩
    rw [tokens_of_fits hargs hfits] at htokens
    obtain ⟨-, hfound⟩ := List.cons.inj htokens
    rw [← hfound, List.take_of_length_le, List.map_map]
    · apply (List.map_congr_left ?_).trans (List.map_id _)
      intro arg _
      exact Subtype.ext (strdup_val arg.2)
    · rw [List.length_map]
      omega

theorem getArgs_eq (line : CommandLine) (stored : Option BootloaderMessage)
    (commandFile : Option Bytes) :
    ∃ recovery, ∃ hrecovery : recovery.length = 1024,
      getArgs line stored commandFile =
        (fromCommandFile (fromBoot line
            (stored.getD BootloaderMessage.zero).recovery).1
          commandFile).map fun found =>
            (found, writeBack (stored.getD BootloaderMessage.zero) recovery
              hrecovery found.args) :=
  ⟨_, (fromBoot_length _ _).trans (BootloaderMessage.recovery_length _), rfl⟩

/-- A boot without arguments of its own takes them from the control block
when it holds any. -/
theorem getArgs_of_storedArgs (argv0 : Arg) {boot : BootloaderMessage}
    (hboot : storedArgs boot ≠ []) (commandFile : Option Bytes) :
    ∃ found message,
      getArgs ⟨argv0, []⟩ (some boot) commandFile = some (found, message) ∧
      found.args = ((storedArgs boot).take (maxArgs - 1)).map strdup := by
  obtain ⟨recovery, hrecovery, hget⟩ :=
    getArgs_eq ⟨argv0, []⟩ (some boot) commandFile
  have hargs := fromBoot_nil ⟨argv0, []⟩ rfl boot
  have hsome : (fromBoot ⟨argv0, []⟩ boot.recovery).1.args ≠ [] := by
    rw [hargs]
    intro hnil
    rw [List.map_eq_nil_iff, List.take_eq_nil_iff] at hnil
    rcases hnil with hzero | hnil
    · cases hzero
    · exact hboot hnil
  rw [Option.getD_some, fromCommandFile_of_ne_nil hsome,
    Option.map_some] at hget
  exact ⟨_, _, hget, hargs⟩

/-- Once `get_args` has returned arguments, the next boot finds them exactly
when they went into the control block undamaged. -/
theorem restart_iff (boot : BootloaderMessage) {recovery : Bytes}
    (hrecovery : recovery.length = 1024) {args : List Arg}
    (hne : args ≠ []) :
    (∀ argv0 laterFile, ∃ later message,
      getArgs ⟨argv0, []⟩ (some (writeBack boot recovery hrecovery args))
          laterFile = some (later, message) ∧
        later.args = args) ↔ Undamaged args := by
  rw [← storedArgs_eq_iff boot hrecovery hne]
  generalize writeBack boot recovery hrecovery args = message
  constructor
  · intro hrestart
    obtain ⟨later, message', hget, hlater⟩ := hrestart (strdup []) none
    by_cases hstored : storedArgs message = []
    · exfalso
      obtain ⟨recovery', hrecovery', heq⟩ :=
        getArgs_eq ⟨strdup [], []⟩ (some message) none
      have hargs := fromBoot_nil ⟨strdup [], []⟩ rfl message
      rw [hstored, List.take_nil, List.map_nil] at hargs
      rw [Option.getD_some, fromCommandFile, if_pos hargs, Option.map_some,
        hget, Option.some.injEq, Prod.mk.injEq] at heq
      rw [heq.1, hargs] at hlater
      exact hne hlater.symm
    · obtain ⟨found, message'', hget', hfound⟩ :=
        getArgs_of_storedArgs (strdup []) hstored none
      rw [hget, Option.some.injEq, Prod.mk.injEq] at hget'
      rw [← hfound, ← hget'.1, hlater]
  · intro hfound argv0 laterFile
    have hstored : storedArgs message ≠ [] := by
      intro hnil
      rw [hnil, List.take_nil, List.map_nil] at hfound
      exact hne hfound.symm
    obtain ⟨later, message', hget, hlater⟩ :=
      getArgs_of_storedArgs argv0 hstored laterFile
    exact ⟨later, message', hget, hlater.trans hfound⟩

/-- What a control block holds can be written into it again. -/
theorem storedArgs_restartable (boot : BootloaderMessage) :
    (∀ text ∈ storedArgs boot, text ≠ [] ∧ (10 : UInt8) ∉ text ∧
      (0 : UInt8) ∉ text) ∧ Fits (storedArgs boot) := by
  unfold storedArgs
  have hsum := @sum_tokens_le isNewline (cstr (boot.recovery.take 1023))
  have hmem : ∀ text ∈ tokens isNewline (cstr (boot.recovery.take 1023)),
      text ≠ [] ∧ (10 : UInt8) ∉ text ∧ (0 : UInt8) ∉ text := by
    intro text htext
    obtain ⟨hsome, hclean⟩ := mem_tokens htext
    refine ⟨hsome, ?_, ?_⟩
    · intro hten
      exact absurd (hclean 10 hten) (by decide)
    · intro hzero
      exact zero_not_mem_cstr _ (mem_of_mem_tokens htext hzero)
  have hlength := cstr_length_le (boot.recovery.take 1023)
  rw [List.length_take, boot.recovery_length] at hlength
  cases htokens : tokens isNewline (cstr (boot.recovery.take 1023)) with
  | nil => simp [Fits, recoveryWord]
  | cons arg args =>
      rw [htokens] at hmem hsum
      simp only
      split
      · rename_i hword
        refine ⟨fun text htext => hmem text (List.mem_cons_of_mem _ htext), ?_⟩
        rw [List.map_cons, List.sum_cons, hword] at hsum
        unfold Fits
        omega
      · simp [Fits, recoveryWord]

theorem Fits.take {args : List Bytes} (hfits : Fits args) (count : Nat) :
    Fits (args.take count) := by
  have hle := ((List.take_sublist count args).map
    fun arg => 1 + arg.length).sum_le_sum fun _ _ => Nat.zero_le _
  unfold Fits at *
  omega

theorem map_strdup_val {args : List Bytes}
    (hargs : ∀ text ∈ args, (0 : UInt8) ∉ text) :
    (args.map strdup).map Subtype.val = args := by
  rw [List.map_map]
  apply (List.map_congr_left ?_).trans (List.map_id _)
  intro text htext
  exact strdup_val (hargs text htext)

theorem map_strdup_undamaged {args : List Bytes}
    (hargs : ∀ text ∈ args, text ≠ [] ∧ (10 : UInt8) ∉ text ∧
      (0 : UInt8) ∉ text)
    (hcount : args.length < maxArgs) :
    Undamaged (args.map strdup) ↔ Fits args := by
  have hval := map_strdup_val fun text htext => (hargs text htext).2.2
  constructor
  · rintro ⟨-, -, hfits⟩
    rwa [hval] at hfits
  · intro hfits
    refine ⟨?_, ?_, ?_⟩
    · intro arg harg
      obtain ⟨text, htext, rfl⟩ := List.mem_map.mp harg
      obtain ⟨hsome, hten, hzero⟩ := hargs text htext
      rw [strdup_val hzero]
      exact ⟨hsome, hten⟩
    · rwa [List.length_map]
    · rwa [hval]

/-- The run of `get_args` seen from the arguments it settles on. -/
theorem survivesRestart_of_found {line found : CommandLine}
    {stored : Option BootloaderMessage} {commandFile : Option Bytes}
    (hfound : fromCommandFile (fromBoot line
      (stored.getD BootloaderMessage.zero).recovery).1 commandFile =
        some found) :
    SurvivesRestart line stored commandFile ↔
      (found.args ≠ [] → Undamaged found.args) := by
  obtain ⟨recovery, hrecovery, hget⟩ := getArgs_eq line stored commandFile
  rw [hfound, Option.map_some] at hget
  constructor
  · rintro ⟨found', message, hget', hrestart⟩ hne
    rw [hget, Option.some.injEq, Prod.mk.injEq] at hget'
    obtain ⟨rfl, rfl⟩ := hget'
    exact (restart_iff _ hrecovery hne).mp (hrestart hne)
  · intro hgood
    refine ⟨_, _, hget, ?_⟩
    intro hne
    exact (restart_iff _ hrecovery hne).mpr (hgood hne)

theorem lineText_clean (line : Bytes) :
    (10 : UInt8) ∉ lineText line ∧ (0 : UInt8) ∉ lineText line := by
  constructor
  · intro hten
    exact absurd (List.mem_takeWhile_imp hten) (by decide)
  · intro hzero
    apply zero_not_mem_cstr line
    exact (List.dropWhile_sublist _).mem
      ((List.takeWhile_sublist _).mem hzero)

theorem fileLines_length_le (count : Nat) (file : Bytes) :
    (fileLines count file).length ≤ count := by
  induction count generalizing file with
  | zero => exact le_rfl
  | succ count ih =>
      rw [fileLines]
      cases fgets maxArgLength file with
      | none => simp
      | some read => simpa using ih read.2

/-- A command file whose arguments are taken. -/
theorem survivesRestart_file {line : CommandLine}
    {stored : Option BootloaderMessage}
    (hnone : (fromBoot line
      (stored.getD BootloaderMessage.zero).recovery).1.args = [])
    (file : Bytes) :
    SurvivesRestart line stored (some file) ↔
      (∀ text ∈ fileLines (maxArgs - 1) file, lineText text ≠ []) ∧
        Fits ((fileLines (maxArgs - 1) file).map lineText) := by
  by_cases hlines : ∀ text ∈ fileLines (maxArgs - 1) file, lineText text ≠ []
  · have hfile := commandFileArgs_eq (maxArgs - 1) file
    rw [if_pos hlines] at hfile
    have hfound : ∃ argv0, fromCommandFile (fromBoot line
        (stored.getD BootloaderMessage.zero).recovery).1 (some file) =
        some ⟨argv0, ((fileLines (maxArgs - 1) file).map
          lineText).map strdup⟩ := by
      rw [fromCommandFile_some hnone, hfile, List.map_map]
      exact ⟨_, rfl⟩
    obtain ⟨argv0, hfound⟩ := hfound
    rw [survivesRestart_of_found hfound, map_strdup_undamaged]
    · constructor
      · intro hsurvives
        refine ⟨hlines, ?_⟩
        by_cases hempty : (fileLines (maxArgs - 1) file).map lineText = []
        · rw [hempty]
          exact (by decide : 8 ≤ 1023)
        · apply hsurvives
          rwa [ne_eq, List.map_eq_nil_iff]
      · rintro ⟨-, hfits⟩ -
        exact hfits
    · intro text htext
      obtain ⟨piece, hpiece, rfl⟩ := List.mem_map.mp htext
      exact ⟨hlines piece hpiece, lineText_clean piece⟩
    · have hcount := fileLines_length_le (maxArgs - 1) file
      rw [List.length_map]
      have hmax : maxArgs = 100 := rfl
      omega
  · constructor
    · rintro ⟨found, message, hget, -⟩
      exfalso
      obtain ⟨recovery, hrecovery, heq⟩ := getArgs_eq line stored (some file)
      rw [fromCommandFile_some hnone, commandFileArgs_eq,
        if_neg hlines] at heq
      rw [heq] at hget
      cases hget
    · rintro ⟨hall, -⟩
      exact absurd hall hlines

/-- **When arguments survive a restart.**  Arguments already in the control
block always do; others do when they reach it undamaged and, for a command
file, when no line is blank. -/
theorem survivesRestart_iff (line : CommandLine)
    (stored : Option BootloaderMessage) (commandFile : Option Bytes) :
    SurvivesRestart line stored commandFile ↔
      Restartable line stored commandFile := by
  unfold Restartable
  by_cases hline : line.args = []
  · rw [if_neg (not_not.mpr hline)]
    have hboot := fromBoot_nil line hline
      (stored.getD BootloaderMessage.zero)
    have hstored := storedArgs_restartable
      (stored.getD BootloaderMessage.zero)
    by_cases hsome : storedArgs (stored.getD BootloaderMessage.zero) = []
    · rw [hsome, List.take_nil, List.map_nil] at hboot
      rw [if_neg (not_not.mpr hsome)]
      cases commandFile with
      | none =>
          have hfound : fromCommandFile (fromBoot line
              (stored.getD BootloaderMessage.zero).recovery).1 none =
              some (fromBoot line
                (stored.getD BootloaderMessage.zero).recovery).1 := by
            unfold fromCommandFile
            rw [if_pos hboot]
          rw [survivesRestart_of_found hfound]
          simp [hboot]
      | some file =>
          rw [survivesRestart_file hboot]
          simp
    · rw [if_pos hsome, iff_true]
      have hne : (fromBoot line
          (stored.getD BootloaderMessage.zero).recovery).1.args ≠ [] := by
        rw [hboot]
        simp [hsome, maxArgs]
      rw [survivesRestart_of_found (fromCommandFile_of_ne_nil hne _), hboot]
      intro _
      apply (map_strdup_undamaged ?_ ?_).mpr (hstored.2.take _)
      · intro text htext
        exact hstored.1 text (List.mem_of_mem_take htext)
      · rw [List.length_take]
        have hmax : maxArgs = 100 := rfl
        omega
  · rw [if_pos hline, survivesRestart_of_found]
    · exact ⟨fun hgood => hgood hline, fun hgood _ => hgood⟩
    · rw [fromBoot_of_ne_nil hline]
      exact fromCommandFile_of_ne_nil hline commandFile

namespace ArgsWitness

/-- The text `--wipe_data`. -/
def wipeData : Bytes := [45, 45, 119, 105, 112, 101, 95, 100, 97, 116, 97]

/-- A command file with a blank line behind its argument. -/
def blankLineFile : Bytes := wipeData ++ [10, 10]

theorem blankLine_crashes :
    ¬ SurvivesRestart ⟨strdup recoveryWord, []⟩ none (some blankLineFile) := by
  rintro ⟨found, message, hget, -⟩
  have hcrash : (getArgs ⟨strdup recoveryWord, []⟩ none
      (some blankLineFile)).isNone = true := by
    decide +kernel
  rw [hget] at hcrash
  cases hcrash

end ArgsWitness

end RecoveryArgs

end MetaOS
