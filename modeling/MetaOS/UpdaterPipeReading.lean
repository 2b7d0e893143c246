/-
What recovery shows of the commands that the updater writes to the pipe.  A
line of text is cut where the buffer of `ui_print` ends and goes through
`printf`, and of the ends of its lines a text keeps only the last.  Beyond
that each call shows what it should, as long as no line is too long for the
buffer of the reader: there the rest of a line would be a command of its own.
-/
import MetaOS.Numerals
import MetaOS.PropertyTagFile
import MetaOS.SendMessage
import MetaOS.UpdaterPipe

namespace MetaOS

namespace CommandPipe

open Edify CString Updater

section Shown

variable (libc : Libc)

/-- The lines of a text, without the empty ones. -/
def linesOf (text : Bytes) : List Bytes := tokens (· == 10) text

/-- The lines of a text as `ui_print` formats and cuts them, and one end of
line. -/
def linesShown {Float : Type} (text : Bytes) : List (Shown Float) :=
  ((linesOf text).flatMap (fun line => ((printed line).getD []).take 255) ++
    [10]).map .put

def UiCall.shown : UiCall → List (Shown libc.Float)
  | uiPrint args => linesShown (joined args)
  | showProgress frac sec =>
      [.showProgress
        (libc.updateFraction (libc.strtof (libc.printF (libc.strtod frac.1))))
        (strtol sec.1).1]
  | setProgress frac =>
      [.setProgress (libc.strtof (libc.printF (libc.strtod frac.1)))]

def Ending.shown {Float : Type} : Ending → List (Shown Float)
  | result => []
  | aborted none =>
      (Bytes.ofString "script aborted (no error message)").map .put
  | aborted (some errmsg) => linesShown errmsg.1

def Session.shown (session : Session) : List (Shown libc.Float) :=
  session.calls.flatMap (UiCall.shown libc) ++ session.ending.shown

/-- The lines fit in the buffer of the reader together with their command, and
each can be its own format. -/
def Legible (text : Bytes) : Prop :=
  ∀ line ∈ linesOf text, line.length ≤ 1013 ∧ (printed line).isSome

def UiCall.Legible : UiCall → Prop
  | uiPrint args => CommandPipe.Legible (joined args)
  | showProgress _ _ | setProgress _ => True

def Ending.Legible : Ending → Prop
  | result | aborted none => True
  | aborted (some errmsg) => CommandPipe.Legible errmsg.1

def Session.Legible (session : Session) : Prop :=
  (∀ call ∈ session.calls, call.Legible) ∧ session.ending.Legible

end Shown

section Reading

theorem takeWhile_token {delim : UInt8 → Bool} {token rest : Bytes} {d : UInt8}
    (htoken : ∀ c ∈ token, delim c = false) (hd : delim d = true) :
    (token ++ d :: rest).takeWhile (fun c => !delim c) = token := by
  rw [List.takeWhile_append_of_pos (fun c hc => by simp [htoken c hc]),
    List.takeWhile_cons_of_neg (by simp [hd]), List.append_nil]

/-- A token that stands where the call begins. -/
theorem strtok_token {delim : UInt8 → Bool} {before token rest : Bytes}
    {d : UInt8} (hne : token ≠ []) (htoken : ∀ c ∈ token, delim c = false)
    (hzero : (0 : UInt8) ∉ token) (hd : delim d = true) (hd0 : d ≠ 0) :
    strtok delim (before ++ (token ++ d :: rest)) before.length =
      some (token, before ++ (token ++ 0 :: rest),
        before.length + token.length + 1) := by
  obtain ⟨c, body, rfl⟩ := List.exists_cons_of_ne_nil hne
  have hcstr : cstr ((c :: body) ++ d :: rest) =
      (c :: body) ++ d :: cstr rest := by
    rw [cstr, List.takeWhile_append_of_pos, List.takeWhile_cons_of_pos]
    · rfl
    · simpa using hd0
    · intro x hx
      exact bne_iff_ne.mpr fun heq => hzero (heq ▸ hx)
  have hskip : ((c :: body) ++ d :: cstr rest).takeWhile delim = [] := by
    simp [htoken c List.mem_cons_self]
  have hkeep : ((c :: body) ++ d :: cstr rest).dropWhile delim =
      (c :: body) ++ d :: cstr rest := by
    simp [htoken c List.mem_cons_self]
  rw [strtok, List.drop_left, hcstr, hskip, hkeep, takeWhile_token htoken hd,
    if_neg hne, if_pos]
  · rw [List.length_nil, Nat.add_zero, List.set_append_right _ _ (by omega),
      Nat.add_sub_cancel_left, List.set_append_right _ _ le_rfl, Nat.sub_self]
    rfl
  · simp only [List.length_nil, List.length_append, List.length_cons]
    omega

variable {libc : Libc}

/-- With enough fuel the rest of the pipe gives this. -/
def Reads (libc : Libc) (pipe : Bytes) (seen : List (Shown libc.Float)) :
    Prop :=
  ∀ fuel, pipe.length ≤ fuel → readCommands libc fuel pipe = some seen

theorem reads_nil : Reads libc [] [] := by
  intro fuel _
  cases fuel with
  | zero => rfl
  | succ fuel => rfl

/-- A line that fits in the buffer is performed by itself. -/
theorem Reads.line {line rest : Bytes} {first later : List (Shown libc.Float)}
    (hline : (10 : UInt8) ∉ line) (hsize : line.length ≤ 1022)
    (hfirst : performCommand libc (line ++ [10]) = some first)
    (hrest : Reads libc rest later) :
    Reads libc (line ++ 10 :: rest) (first ++ later) := by
  intro fuel hfuel
  rw [List.length_append, List.length_cons] at hfuel
  obtain ⟨fuel, rfl⟩ : ∃ count, fuel = count + 1 := ⟨fuel - 1, by omega⟩
  rw [readCommands, PropertyTag.PropFile.fgets_line hline (by omega)]
  dsimp only
  rw [hfirst, hrest fuel (by omega)]
  rfl

/-- `code` is read by itself, whatever comes behind it. -/
def Shows (libc : Libc) (code : Bytes) (seen : List (Shown libc.Float)) :
    Prop :=
  ∀ rest later, Reads libc rest later →
    Reads libc (code ++ rest) (seen ++ later)

theorem Shows.nil : Shows libc [] [] := fun _ _ hrest => hrest

theorem Shows.append {code code' : Bytes}
    {seen seen' : List (Shown libc.Float)} (hfirst : Shows libc code seen)
    (hsecond : Shows libc code' seen') :
    Shows libc (code ++ code') (seen ++ seen') := by
  intro rest later hrest
  rw [List.append_assoc, List.append_assoc]
  exact hfirst _ _ (hsecond _ _ hrest)

theorem Shows.line {line : Bytes} {seen : List (Shown libc.Float)}
    (hline : (10 : UInt8) ∉ line) (hsize : line.length ≤ 1022)
    (hseen : performCommand libc (line ++ [10]) = some seen) :
    Shows libc (line ++ [10]) seen := by
  intro rest later hrest
  rw [List.append_assoc]
  exact Reads.line hline hsize hseen hrest

theorem Shows.flatMap {α : Type} {list : List α} {code : α → Bytes}
    {seen : α → List (Shown libc.Float)}
    (hall : ∀ a ∈ list, Shows libc (code a) (seen a)) :
    Shows libc (list.flatMap code) (list.flatMap seen) := by
  induction list with
  | nil => exact Shows.nil
  | cons a list ih =>
      obtain ⟨hfirst, hall⟩ := List.forall_mem_cons.mp hall
      exact hfirst.append (ih hall)

end Reading

section Commands

variable {libc : Libc}

/-- The words of the commands are not cut at blanks. -/
theorem noBlank {word : Bytes}
    (hword : (word.all fun c => !isBlank c) = true) :
    ∀ c ∈ word, isBlank c = false := by
  intro c hc
  have hnot := List.all_eq_true.mp hword c hc
  rwa [Bool.not_eq_true'] at hnot

/-- `ui_print` with a text. -/
theorem performCommand_text {line : Bytes} (hne : line ≠ [])
    (hline : (10 : UInt8) ∉ line) (hzero : (0 : UInt8) ∉ line) :
    performCommand libc (Bytes.ofString "ui_print " ++ line ++ [10]) =
      uiPrint line := by
  have hcommand := @strtok_token isBlank [] (Bytes.ofString "ui_print")
    (line ++ [10, 0]) 32 (by decide) (noBlank rfl) (by decide) rfl (by decide)
  have htext := @strtok_token (· == 10) (Bytes.ofString "ui_print" ++ [0])
    line [0] 10 hne (fun c hc => beq_eq_false_iff_ne.mpr fun heq =>
      hline (heq ▸ hc)) hzero rfl (by decide)
  have hbuffer : Bytes.ofString "ui_print " ++ line ++ [10] ++ [0] =
      [] ++ (Bytes.ofString "ui_print" ++ 32 :: (line ++ [10, 0])) := by
    simp [Bytes.ofString]
  have hrest : ([] : Bytes) ++
      (Bytes.ofString "ui_print" ++ 0 :: (line ++ [10, 0])) =
        (Bytes.ofString "ui_print" ++ [0]) ++ (line ++ 10 :: [0]) := by
    simp
  have hpos : ([] : Bytes).length + (Bytes.ofString "ui_print").length + 1 =
      (Bytes.ofString "ui_print" ++ [0]).length := by decide
  have hnotProgress : Bytes.ofString "ui_print" ≠ .ofString "progress" := by
    decide
  have hnotSet : Bytes.ofString "ui_print" ≠ .ofString "set_progress" := by
    decide
  rw [performCommand, hbuffer]
  rw [show (0 : Nat) = ([] : Bytes).length from rfl, hcommand]
  dsimp only
  rw [if_neg hnotProgress, if_neg hnotSet, if_pos rfl, hrest, hpos, htext]

/-- `ui_print` without a text. -/
theorem performCommand_newline :
    performCommand libc (Bytes.ofString "ui_print" ++ [10]) =
      some [.put 10] := by
  rfl

/-- A digit of a number as a byte. -/
theorem digit_byte {c : Char} (hc : c.isDigit = true) :
    isDigit (UInt8.ofNat c.toNat) = true ∧
      (UInt8.ofNat c.toNat).toNat - 48 = c.toNat - 48 := by
  obtain ⟨hlow, hhigh⟩ : 48 ≤ c.toNat ∧ c.toNat ≤ 57 :=
    Char.isDigit_iff_toNat.mp hc
  have hmod : c.toNat % 256 = c.toNat := Nat.mod_eq_of_lt (by omega)
  simp only [isDigit, UInt8.le_iff_toNat_le, Bool.and_eq_true,
    decide_eq_true_eq, UInt8.toNat_ofNat', UInt8.reduceToNat, Nat.reducePow,
    hmod]
  exact ⟨⟨hlow, hhigh⟩, trivial⟩

theorem digits_repr (n : Nat) : Digits (.ofString n.repr) := by
  refine ⟨?_, fun b hb => ?_⟩
  · rw [ne_eq, Bytes.ofString, List.map_eq_nil_iff, Nat.toList_repr]
    exact Nat.toDigits_ne_nil
  · rw [Bytes.ofString, Nat.toList_repr] at hb
    obtain ⟨c, hc, rfl⟩ := List.mem_map.mp hb
    exact (digit_byte (Nat.isDigit_of_mem_toDigits (by decide) (by decide)
      hc)).1

theorem decimalValue_repr (n : Nat) :
    decimalValue (.ofString n.repr) = n := by
  conv_rhs => rw [← Nat.ofDigitChars_ten_toDigits (n := n)]
  rw [decimalValue, Bytes.ofString, Nat.toList_repr, List.foldl_map,
    Nat.ofDigitChars_eq_foldl]
  refine List.foldl_ext _ _ _ fun value c hc => ?_
  rw [(digit_byte (Nat.isDigit_of_mem_toDigits (by decide) (by decide)
    hc)).2]
  rfl

theorem length_repr {n : Nat} (hn : n < 10 ^ 10) :
    (Bytes.ofString n.repr).length ≤ 10 := by
  rw [Bytes.ofString, List.length_map, Nat.toList_repr]
  exact (Nat.length_toDigits_le_iff (by decide) (by decide)).mpr hn

theorem decimal_negSucc (n : Nat) :
    decimal (.negSucc n) = 45 :: Bytes.ofString (n + 1).repr := by
  rw [decimal, Bytes.ofString, Bytes.ofString]
  simp [toString, Int.repr]

/-- A number is printed as a decimal integer. -/
theorem decimal_decimalInteger (n : Int) : DecimalInteger (decimal n) n := by
  cases n with
  | ofNat n =>
      have hplain := DecimalInteger.unsigned (digits_repr n)
      rw [decimalValue_repr] at hplain
      exact hplain
  | negSucc n =>
      have hminus := DecimalInteger.minus (digits_repr (n + 1))
      rw [decimalValue_repr] at hminus
      rw [decimal_negSucc]
      exact hminus

/-- A decimal integer is a word. -/
theorem word_of_decimalInteger {text : Bytes} {n : Int}
    (htext : DecimalInteger text n) :
    text ≠ [] ∧ (∀ c ∈ text, isBlank c = false) ∧ (0 : UInt8) ∉ text ∧
      (10 : UInt8) ∉ text := by
  have hword : ∀ c ∈ text, c = 43 ∨ c = 45 ∨ isDigit c = true := by
    cases htext with
    | unsigned hdigits => exact fun c hc => .inr (.inr (hdigits.2 c hc))
    | plus hdigits =>
        exact List.forall_mem_cons.mpr
          ⟨.inl rfl, fun c hc => .inr (.inr (hdigits.2 c hc))⟩
    | minus hdigits =>
        exact List.forall_mem_cons.mpr
          ⟨.inr (.inl rfl), fun c hc => .inr (.inr (hdigits.2 c hc))⟩
  refine ⟨?_, fun c hc => ?_, fun hzero => ?_, fun hnewline => ?_⟩
  · cases htext with
    | unsigned hdigits => exact hdigits.1
    | plus hdigits => exact List.cons_ne_nil _ _
    | minus hdigits => exact List.cons_ne_nil _ _
  · rcases hword c hc with rfl | rfl | hdigit
    · rfl
    · rfl
    · have hspace := isSpace_of_isDigit hdigit
      by_contra hblank
      rw [Bool.not_eq_false, isBlank, Bool.or_eq_true, beq_iff_eq,
        beq_iff_eq] at hblank
      rcases hblank with rfl | rfl
      · exact absurd hspace (by decide)
      · exact absurd hspace (by decide)
  · exact absurd (hword 0 hzero) (by decide)
  · exact absurd (hword 10 hnewline) (by decide)

/-- `strtol` reads a `long` back as it was printed, in eleven characters at
most. -/
theorem decimal_long {n : Int} (hmin : LONG_MIN ≤ n) (hmax : n ≤ LONG_MAX) :
    (strtol (decimal n)).1 = n ∧ (decimal n).length ≤ 11 := by
  constructor
  · have hnumeral : Numeral (decimal n) n :=
      ⟨[], decimal n, rfl, by simp, decimal_decimalInteger n⟩
    rw [strtol_numeral hnumeral]
    simp only [clamp]
    omega
  · simp only [LONG_MIN, LONG_MAX] at hmin hmax
    cases n with
    | ofNat n =>
        have hsmall : n < 10 ^ 10 := by
          rw [Int.ofNat_eq_natCast] at hmax
          omega
        have hlength := length_repr hsmall
        exact hlength.trans (by decide)
    | negSucc n =>
        have hlength := @length_repr (n + 1) (by omega)
        rw [decimal_negSucc, List.length_cons]
        omega

theorem printF_token (x : libc.Double) :
    (∀ c ∈ libc.printF x, isBlank c = false) ∧ (0 : UInt8) ∉ libc.printF x ∧
      (10 : UInt8) ∉ libc.printF x := by
  refine ⟨fun c hc => ?_, fun hc => (libc.printF_mem hc).2.2 rfl,
    fun hc => (libc.printF_mem hc).2.1 rfl⟩
  obtain ⟨hspace, hnewline, -⟩ := libc.printF_mem hc
  simp [isBlank, hspace, hnewline]

/-- `set_progress` with a number. -/
theorem performCommand_setProgress (x : libc.Double) :
    performCommand libc (Bytes.ofString "set_progress " ++ libc.printF x ++
      [10]) = some [.setProgress (libc.strtof (libc.printF x))] := by
  obtain ⟨hblank, hzero, -⟩ := printF_token x
  have hcommand := @strtok_token isBlank [] (Bytes.ofString "set_progress")
    (libc.printF x ++ [10, 0]) 32 (by decide) (noBlank rfl) (by decide) rfl
    (by decide)
  have hnumber := @strtok_token isBlank (Bytes.ofString "set_progress" ++ [0])
    (libc.printF x) [0] 10 (libc.printF_ne_nil x) hblank hzero rfl (by decide)
  have hbuffer : Bytes.ofString "set_progress " ++ libc.printF x ++ [10] ++
      [0] = [] ++ (Bytes.ofString "set_progress" ++
        32 :: (libc.printF x ++ [10, 0])) := by
    simp [Bytes.ofString]
  have hrest : ([] : Bytes) ++ (Bytes.ofString "set_progress" ++
      0 :: (libc.printF x ++ [10, 0])) =
        (Bytes.ofString "set_progress" ++ [0]) ++
          (libc.printF x ++ 10 :: [0]) := by
    simp
  have hpos : ([] : Bytes).length +
      (Bytes.ofString "set_progress").length + 1 =
        (Bytes.ofString "set_progress" ++ [0]).length := by decide
  have hnotProgress : Bytes.ofString "set_progress" ≠
      .ofString "progress" := by decide
  rw [performCommand, hbuffer, show (0 : Nat) = ([] : Bytes).length from rfl,
    hcommand]
  dsimp only
  rw [if_neg hnotProgress, if_pos rfl, hrest, hpos, hnumber]
  rfl

/-- `progress` with two numbers. -/
theorem performCommand_progress (x : libc.Double) (sec : Int) :
    performCommand libc (Bytes.ofString "progress " ++ libc.printF x ++
      Bytes.ofString " " ++ decimal sec ++ [10]) =
        some [.showProgress
          (libc.updateFraction (libc.strtof (libc.printF x)))
          (strtol (decimal sec)).1] := by
  obtain ⟨hblank, hzero, -⟩ := printF_token x
  obtain ⟨hne, hblank', hzero', -⟩ :=
    word_of_decimalInteger (decimal_decimalInteger sec)
  have hcommand := @strtok_token isBlank [] (Bytes.ofString "progress")
    (libc.printF x ++ 32 :: (decimal sec ++ [10, 0])) 32 (by decide)
    (noBlank rfl) (by decide) rfl (by decide)
  have hnumber := @strtok_token isBlank (Bytes.ofString "progress" ++ [0])
    (libc.printF x) (decimal sec ++ [10, 0]) 32 (libc.printF_ne_nil x) hblank
    hzero rfl (by decide)
  have hseconds := @strtok_token isBlank
    (Bytes.ofString "progress" ++ [0] ++ libc.printF x ++ [0]) (decimal sec)
    [0] 10 hne hblank' hzero' rfl (by decide)
  have hbuffer : Bytes.ofString "progress " ++ libc.printF x ++
      Bytes.ofString " " ++ decimal sec ++ [10] ++ [0] =
        [] ++ (Bytes.ofString "progress" ++
          32 :: (libc.printF x ++ 32 :: (decimal sec ++ [10, 0]))) := by
    simp [Bytes.ofString]
  have hrest : ([] : Bytes) ++ (Bytes.ofString "progress" ++
      0 :: (libc.printF x ++ 32 :: (decimal sec ++ [10, 0]))) =
        (Bytes.ofString "progress" ++ [0]) ++
          (libc.printF x ++ 32 :: (decimal sec ++ [10, 0])) := by
    simp
  have hrest' : Bytes.ofString "progress" ++ [0] ++
      (libc.printF x ++ 0 :: (decimal sec ++ [10, 0])) =
        Bytes.ofString "progress" ++ [0] ++ libc.printF x ++ [0] ++
          (decimal sec ++ 10 :: [0]) := by
    simp
  have hpos : ([] : Bytes).length + (Bytes.ofString "progress").length + 1 =
      (Bytes.ofString "progress" ++ [0]).length := by decide
  have hpos' : (Bytes.ofString "progress" ++ [0]).length +
      (libc.printF x).length + 1 =
        (Bytes.ofString "progress" ++ [0] ++ libc.printF x ++ [0]).length := by
    simp only [List.length_append, List.length_cons, List.length_nil]
  rw [performCommand, hbuffer, show (0 : Nat) = ([] : Bytes).length from rfl,
    hcommand]
  dsimp only
  rw [if_pos rfl, hrest, hpos, hnumber]
  simp only [Option.bind_eq_bind, Option.bind_some]
  rw [hrest', hpos', hseconds]
  rfl

end Commands

section Writing

variable {libc : Libc} {g : Setting Bytes}

/-- What `UIPrintFn` writes for the lines of its text. -/
def linesCode (lines : List Bytes) : Bytes :=
  lines.flatMap (fun line => Bytes.ofString "ui_print " ++ line ++ [10]) ++
    (Bytes.ofString "ui_print" ++ [10])

/-- What a call adds to the pipe. -/
def UiCall.code (libc : Libc) : UiCall → Bytes
  | uiPrint args => linesCode (linesOf (joined args))
  | showProgress frac sec => progressLine libc frac.1 (strtol sec.1).1
  | setProgress frac => setProgressLine libc frac.1

def Ending.code : Ending → Bytes
  | result => []
  | aborted none =>
      Bytes.ofString "ui_print script aborted (no error message)" ++ [10]
  | aborted (some errmsg) => linesCode (linesOf errmsg.1)

theorem eval_printLines {β : Type} (args : List Text) (lines : List Bytes)
    (next : Unit → Action β) (pipe : Bytes) :
    (act (printLines lines >>= next)).eval (onPipe libc g args).handler pipe =
      (act (next ())).eval (onPipe libc g args).handler
        (pipe ++ linesCode lines) := by
  induction lines generalizing pipe with
  | nil => rfl
  | cons line lines ih =>
      have hfirst : (act (printLines (line :: lines) >>= next)).eval
            (onPipe libc g args).handler pipe =
          (act (printLines lines >>= next)).eval (onPipe libc g args).handler
            (pipe ++ (Bytes.ofString "ui_print " ++ line ++
              Bytes.ofString "\n")) := rfl
      rw [hfirst, ih]
      simp only [linesCode, List.flatMap_cons, List.append_assoc]
      rfl

/-- `strtok` finds the lines of a text without a NUL. -/
theorem strtokMany_linesOf {text : Bytes} (htext : (0 : UInt8) ∉ text) :
    (strtokMany (· == 10) (text.length + 1) text 0).1 = linesOf text := by
  have hcount : (tokens (· == 10) text).length ≤ text.length + 1 := by
    have hone : ∀ n ∈ (tokens (· == 10) text).map fun token =>
        1 + token.length, 1 ≤ n := by
      intro n hn
      obtain ⟨token, -, rfl⟩ := List.mem_map.mp hn
      exact Nat.le_add_right 1 _
    have hlength := List.length_le_sum_of_one_le _ hone
    have hsum := @sum_tokens_le (· == 10) text
    rw [List.length_map] at hlength
    omega
  rw [strtokMany_fst, List.drop_zero, cstr_eq_self htext, linesOf,
    List.take_of_length_le hcount]

/-- The arguments of a call are all evaluated. -/
theorem readArgs_args (args : List Text) (pipe : Bytes) :
    (readEach evaluate 0 args.length : Body _).eval
        (onPipe libc g args).handler pipe =
      (some (args.map Subtype.val), pipe) := by
  have hvalue : ∀ k, string? ((onPipe libc g args).value (0 + k)) =
      args[k]?.map Subtype.val := by
    intro k
    rw [Nat.zero_add]
    change string? (args[k]?.map fun text => Value.string text.1) = _
    cases args[k]? with
    | none => rfl
    | some text => rfl
  obtain ⟨values, heval, hlength, -, hvalues⟩ | ⟨-, -, k, hk, hnone⟩ :=
    readEach_cases (evaluate_answers (onPipe libc g args) pipe) 0 args.length
  · rw [heval]
    congr 2
    refine List.ext_getElem? fun k => ?_
    by_cases hk : k < args.length
    · rw [hvalues k hk, hvalue, List.getElem?_map]
    · rw [List.getElem?_eq_none (by omega), List.getElem?_eq_none (by
        rw [List.length_map]
        omega)]
  · rw [hvalue, List.getElem?_eq_getElem hk] at hnone
    cases hnone

theorem not_mem_joined (args : List Text) : (0 : UInt8) ∉ joined args := by
  intro hzero
  obtain ⟨text, htext, hmem⟩ := List.mem_flatten.mp hzero
  obtain ⟨arg, -, rfl⟩ := List.mem_map.mp htext
  exact arg.2 hmem

theorem UiCall.write_eq (call : UiCall) (pipe : Bytes) :
    call.write libc g pipe = pipe ++ call.code libc := by
  cases call with
  | uiPrint args =>
      unfold UiCall.write UiCall.body uiPrintFn readVarArgs
      rw [Prog.eval_bind, show (uiPrint args).args = args from rfl,
        readArgs_args]
      dsimp only
      change ((act (Updater.uiPrint (joined args))).eval _ pipe).2 = _
      rw [Updater.uiPrint]
      dsimp only
      rw [eval_printLines, strtokMany_linesOf (not_mem_joined args)]
      rfl
  | showProgress frac sec => rfl
  | setProgress frac => rfl

theorem Ending.write_eq (ending : Ending) (pipe : Bytes) :
    ending.write libc g pipe = pipe ++ ending.code := by
  cases ending with
  | result => exact (List.append_nil pipe).symm
  | aborted errmsg =>
      cases errmsg with
      | none => rfl
      | some errmsg =>
          unfold Ending.write Ending.report
          dsimp only
          rw [strtokMany_linesOf errmsg.2]
          have hlines := @eval_printLines libc g Unit [] (linesOf errmsg.1)
            pure pipe
          rw [bind_pure] at hlines
          rw [hlines]
          rfl

theorem Session.pipe_eq (session : Session) :
    session.pipe libc g =
      session.calls.flatMap (UiCall.code libc) ++ session.ending.code := by
  have hcalls : ∀ (calls : List UiCall) (pipe : Bytes),
      calls.foldl (fun pipe call => call.write libc g pipe) pipe =
        pipe ++ calls.flatMap (UiCall.code libc) := by
    intro calls
    induction calls with
    | nil => exact fun pipe => (List.append_nil pipe).symm
    | cons call calls ih =>
        intro pipe
        rw [List.foldl_cons, ih, UiCall.write_eq, List.append_assoc,
          List.flatMap_cons]
  rw [Session.pipe, Ending.write_eq, hcalls, List.nil_append]

end Writing

section Session

variable {libc : Libc}

theorem not_mem_linesOf {text line : Bytes} (hzero : (0 : UInt8) ∉ text)
    (hline : line ∈ linesOf text) :
    line ≠ [] ∧ (10 : UInt8) ∉ line ∧ (0 : UInt8) ∉ line := by
  obtain ⟨hne, hdelim⟩ := mem_tokens hline
  refine ⟨hne, fun hnewline => ?_, fun hmem => ?_⟩
  · exact absurd (hdelim 10 hnewline) (by decide)
  · exact hzero (mem_of_mem_tokens hline hmem)

theorem linesCode_shows {text : Bytes} (hzero : (0 : UInt8) ∉ text)
    (hlegible : Legible text) :
    Shows libc (linesCode (linesOf text)) (linesShown text) := by
  have hshown : (linesShown text : List (Shown libc.Float)) =
      (linesOf text).flatMap (fun line =>
        (((printed line).getD []).take 255).map .put) ++ [.put 10] := by
    rw [linesShown, List.map_append, List.map_flatMap]
    rfl
  rw [hshown, linesCode]
  refine Shows.append (Shows.flatMap fun line hline => ?_) ?_
  · obtain ⟨hne, hnewline, hnul⟩ := not_mem_linesOf hzero hline
    obtain ⟨hlength, hformat⟩ := hlegible line hline
    have hcommand : (10 : UInt8) ∉ Bytes.ofString "ui_print " := by decide
    have hsize : (Bytes.ofString "ui_print ").length = 9 := rfl
    refine Shows.line ?_ ?_ ?_
    · rw [List.mem_append]
      exact not_or.mpr ⟨hcommand, hnewline⟩
    · rw [List.length_append, hsize]
      omega
    · rw [performCommand_text hne hnewline hnul, uiPrint]
      obtain ⟨shown, hshown⟩ := Option.isSome_iff_exists.mp hformat
      rw [hshown]
      rfl
  · exact Shows.line (by decide) (by decide) performCommand_newline

theorem UiCall.code_shows {call : UiCall} (hlegible : call.Legible) :
    Shows libc (call.code libc) (call.shown libc) := by
  cases call with
  | uiPrint args => exact linesCode_shows (not_mem_joined args) hlegible
  | showProgress frac sec =>
      obtain ⟨hmin, hmax⟩ := SendMessage.strtol_range sec.1
      obtain ⟨hsec, hlength⟩ := decimal_long hmin (Int.le_sub_one_of_lt hmax)
      obtain ⟨-, -, hnewline⟩ := printF_token (libc.strtod frac.1)
      obtain ⟨-, -, -, hnewline'⟩ :=
        word_of_decimalInteger (decimal_decimalInteger (strtol sec.1).1)
      have hfrac := libc.printF_length (libc.strtod frac.1)
      have hperformed := @performCommand_progress libc (libc.strtod frac.1)
        (strtol sec.1).1
      rw [hsec] at hperformed
      refine Shows.line ?_ ?_ hperformed
      · simp only [List.mem_append, not_or]
        exact ⟨⟨⟨by decide, hnewline⟩, by decide⟩, hnewline'⟩
      · simp only [List.length_append]
        have hcommand : (Bytes.ofString "progress ").length = 9 := rfl
        have hblank : (Bytes.ofString " ").length = 1 := rfl
        omega
  | setProgress frac =>
      obtain ⟨-, -, hnewline⟩ := printF_token (libc.strtod frac.1)
      have hfrac := libc.printF_length (libc.strtod frac.1)
      refine Shows.line ?_ ?_ (performCommand_setProgress _)
      · rw [List.mem_append]
        exact not_or.mpr ⟨by decide, hnewline⟩
      · rw [List.length_append]
        have hcommand : (Bytes.ofString "set_progress ").length = 13 := rfl
        omega

theorem Ending.code_shows {ending : Ending} (hlegible : ending.Legible) :
    Shows libc ending.code ending.shown := by
  cases ending with
  | result => exact Shows.nil
  | aborted errmsg =>
      cases errmsg with
      | none => exact Shows.line (by decide) (by decide) rfl
      | some errmsg => exact linesCode_shows errmsg.2 hlegible

/-- Recovery shows what the updater has written, call by call. -/
theorem tryUpdateBinary_session (session : Session)
    (hlegible : session.Legible) (libc : Libc) (g : Setting Bytes) :
    tryUpdateBinary libc (session.pipe libc g) =
      some (session.shown libc) := by
  have hcode : Shows libc (session.pipe libc g) (session.shown libc) := by
    rw [Session.pipe_eq]
    exact Shows.append
      (Shows.flatMap fun call hcall =>
        UiCall.code_shows (hlegible.1 call hcall))
      (Ending.code_shows hlegible.2)
  have hread := hcode [] [] reads_nil
  rw [List.append_nil, List.append_nil] at hread
  exact hread _ le_rfl

/-- What is printable is shown as it is. -/
theorem linesShown_printable {text : Bytes} (htext : Printable text) :
    Legible text ∧ (linesShown text : List (Shown libc.Float)) =
      shownText text := by
  obtain ⟨hlength, hnewline, hpercent⟩ := htext
  have hformat := (printed_eq_self_iff text).mpr hpercent
  by_cases hne : text = []
  · subst hne
    exact ⟨by simp [Legible, linesOf], rfl⟩
  · have hlines : linesOf text = [text] :=
      tokens_eq_singleton hne fun c hc => beq_eq_false_iff_ne.mpr fun heq =>
        hnewline (heq ▸ hc)
    constructor
    · rw [Legible, hlines, List.forall_mem_singleton, hformat]
      exact ⟨by omega, rfl⟩
    · rw [linesShown, hlines, shownText, List.flatMap_singleton, hformat,
        Option.getD_some, List.take_of_length_le hlength]

theorem UiCall.shown_of_kept {call : UiCall} (hkept : call.Kept libc) :
    call.Legible ∧ call.shown libc = call.meaning libc := by
  cases call with
  | uiPrint args => exact linesShown_printable hkept
  | showProgress frac sec =>
      refine ⟨trivial, ?_⟩
      rw [UiCall.shown, UiCall.meaning,
        show libc.updateFraction _ = _ from hkept]
  | setProgress frac =>
      refine ⟨trivial, ?_⟩
      rw [UiCall.shown, UiCall.meaning, show libc.strtof _ = _ from hkept]

theorem Ending.shown_of_kept {ending : Ending} (hkept : ending.Kept) :
    ending.Legible ∧ (ending.shown : List (Shown libc.Float)) =
      ending.meaning := by
  cases ending with
  | result => exact ⟨trivial, rfl⟩
  | aborted errmsg =>
      cases errmsg with
      | none => exact ⟨trivial, rfl⟩
      | some errmsg => exact linesShown_printable hkept

theorem Session.shown_of_kept {session : Session}
    (hkept : session.Kept libc) :
    session.Legible ∧ session.shown libc = session.meaning libc := by
  obtain ⟨hcalls, hending⟩ := hkept
  obtain ⟨hlegible, hshown⟩ := @Ending.shown_of_kept libc _ hending
  refine ⟨⟨fun call hcall => (UiCall.shown_of_kept (hcalls call hcall)).1,
    hlegible⟩, ?_⟩
  rw [Session.shown, Session.meaning, hshown]
  congr 1
  refine List.flatMap_congr fun call hcall => ?_
  exact (UiCall.shown_of_kept (hcalls call hcall)).2

/-- Whatever a script calls and however it ends, recovery performs a call for
each of its calls, in their order: with the texts as they are cut and
formatted, and with the very texts and numbers if nothing of them is lost on
the way. -/
theorem commands_are_performed (session : Session) (libc : Libc)
    (g : Setting Bytes) :
    (session.Legible → tryUpdateBinary libc (session.pipe libc g) =
      some (session.shown libc)) ∧
    (session.Kept libc → tryUpdateBinary libc (session.pipe libc g) =
      some (session.meaning libc)) := by
  refine ⟨fun hlegible => tryUpdateBinary_session session hlegible libc g,
    fun hkept => ?_⟩
  obtain ⟨hlegible, hshown⟩ := Session.shown_of_kept hkept
  rw [tryUpdateBinary_session session hlegible libc g, hshown]

end Session

namespace UpdaterPipeReadingWitness

/-- Numbers of one digit; a `float` counts quarters. -/
def oneDigit : Libc where
  Double := Fin 10
  Float := Nat
  strtod text := Fin.ofNat 10 (decimalValue (text.take 1))
  strtof text := 4 * (Fin.ofNat 10 (decimalValue (text.take 1))).val
  narrow x := 4 * x.val
  updateFraction x := x * 3 / 4
  printF x := UInt8.ofNat (48 + x.val) :: Bytes.ofString ".000000"
  printF_ne_nil x := List.cons_ne_nil _ _
  printF_length x := by
    rw [List.length_cons]
    decide
  printF_mem {x c} hc := by
    rcases List.mem_cons.mp hc with rfl | hc
    · revert x
      decide
    · have hpoint : (Bytes.ofString ".000000").all
          (fun c => c != 32 && (c != 10 && c != 0)) = true := rfl
      simpa using List.all_eq_true.mp hpoint c hc

open UpdaterArgumentsWitness in
def quiet : Setting Bytes where
  value _ := none
  span _ := (0, 0)
  script := []
  outside e pipe := (nothing e, pipe)

def text (constant : String)
    (h : (0 : UInt8) ∉ Bytes.ofString constant) : Text := ⟨_, h⟩

/-- `show_progress("1", "-5"); ui_print("a\nb%%"); abort("c")` -/
def session : Session where
  calls := [.showProgress (text "1" (by decide)) (text "-5" (by decide)),
    .uiPrint [text "a\n" (by decide), text "b%%" (by decide)]]
  ending := .aborted (some (text "c" (by decide)))

theorem session_legible : session.Legible := by
  unfold Session.Legible session
  simp [UiCall.Legible, Ending.Legible, Legible, joined, text]
  decide

theorem session_performed :
    tryUpdateBinary oneDigit (session.pipe oneDigit quiet) =
      some [.showProgress (3 : Nat) (-5), .put 97, .put 98, .put 37,
        .put 10, .put 99, .put 10] :=
  (commands_are_performed session oneDigit quiet).1 session_legible

end UpdaterPipeReadingWitness

end CommandPipe

end MetaOS
