/-
src/bootable/recovery/tools/ota/add-property-tag.c: a tag behind the value of a
property in a .prop file.

A line is the string that `fgets` leaves in the buffer.  The copy that closes
the gap of a removed tag is taken to go forward, byte by byte.
-/
import Mathlib.Data.List.DropRight
import MetaOS.FirstOccurrence
import MetaOS.Numerals

namespace MetaOS

namespace PropertyTag

open CString

def strstr (text needle : Bytes) : Option (Bytes × Bytes) :=
  FirstOccurrence.split needle text

/-- An `int`. -/
def toInt (value : Int) : Int := value.bmod (2 ^ 32)

/-- Whether the tag should be added to this line. -/
def shouldTag (line propname : Bytes) : Bool :=
  match strstr line propname with
  | none => false
  | some (before, prop) =>
      -- at the beginning of the line, and followed by a '='
      before.all isSpace &&
        ((prop.drop propname.length).dropWhile isSpace).head? == some 61

/-- Removes the first tag with a number behind it; returns the number. -/
def removeTag (line tag : Bytes) : Bytes × Int :=
  match strstr line tag with
  | none => (line, 0)
  | some (before, pos) =>
      let (num, rest) := strtoul10 (pos.drop tag.length)
      (before ++ rest, toInt num)

/-- The number behind a tag, if there is one. -/
def suffix (number : Int) : Bytes :=
  if 0 < number then printInt number else []

def writeTagged (line tag : Bytes) (number : Int) : Bytes :=
  line.rdropWhile isSpace ++ tag ++ suffix number ++ line.rtakeWhile isSpace

/-- The body of the loop in `main`. -/
def writeLine (propname : Bytes) (do_remove do_number : Bool)
    (tag line : Bytes) : Bytes :=
  if !shouldTag line propname then line
  else
    let (line, number) := removeTag line tag
    if do_remove then line
    else writeTagged line tag (toInt (number + if do_number then 1 else 0))

/-- The strings that the loop reads.  Every round reads some of the file, so
that there are not more rounds than bytes. -/
def readLines : (rounds : Nat) → (input : Bytes) → List Bytes
  | 0, _ => []
  | rounds + 1, input =>
      match fgets 4096 input with
      | none => []
      | some (line, input) => cstr line :: readLines rounds input

/-- The exit status, and the file when the program has run.  A file without
the property stays as it is. -/
def main (propname : Bytes) (do_remove do_number : Bool)
    (tag file : Bytes) : Nat × Bytes :=
  let lines := readLines file.length file
  if lines.any (shouldTag · propname) then
    (0, lines.flatMap (writeLine propname do_remove do_number tag))
  else (1, file)

/-- A line has a property: its name comes first, and a '=' next. -/
def HasProperty (propname line : Bytes) : Prop :=
  ∃ blanks gap value, line = blanks ++ propname ++ gap ++ 61 :: value ∧
    (∀ c ∈ blanks, isSpace c = true) ∧ ∀ c ∈ gap, isSpace c = true

section Property

variable {propname line : Bytes}

theorem hasProperty_of_shouldTag (hline : shouldTag line propname = true) :
    HasProperty propname line := by
  unfold shouldTag at hline
  split at hline
  next => cases hline
  next before prop hsplit =>
    obtain ⟨rfl, rest, rfl⟩ := FirstOccurrence.of_split hsplit
    rw [Bool.and_eq_true, List.all_eq_true, List.drop_left, beq_iff_eq,
      List.head?_eq_some_iff] at hline
    obtain ⟨hblanks, value, hvalue⟩ := hline
    refine ⟨before, rest.takeWhile isSpace, value, ?_, hblanks,
      fun c hc => List.mem_takeWhile_imp hc⟩
    rw [← hvalue, List.append_assoc, List.append_assoc,
      List.takeWhile_append_dropWhile]

theorem shouldTag_of_hasProperty (hline : HasProperty propname line) :
    shouldTag line propname = true := by
  obtain ⟨blanks, gap, value, rfl, hblanks, hgap⟩ := hline
  obtain ⟨before, behind, prop, hsplit, rfl⟩ :=
    @FirstOccurrence.exists_split _ _ _ propname
      (blanks ++ propname ++ gap ++ 61 :: value) blanks
      (propname ++ (gap ++ 61 :: value)) (by simp) (List.prefix_append _ _)
  obtain ⟨htext, rest, rfl⟩ := FirstOccurrence.of_split hsplit
  have hbehind : ∀ c ∈ behind, isSpace c = true := fun c hc =>
    hblanks c (List.mem_append_right _ hc)
  have hrest : behind ++ (propname ++ (gap ++ 61 :: value)) =
      propname ++ rest := by
    simpa using htext
  have hequal : rest.dropWhile isSpace = 61 :: value := by
    have hgapped : (gap ++ 61 :: value).dropWhile isSpace = 61 :: value := by
      rw [List.dropWhile_append_of_pos hgap]
      rfl
    by_cases hname : ∀ c ∈ propname, isSpace c = true
    · rw [← List.dropWhile_append_of_pos hname, ← hrest,
        List.dropWhile_append_of_pos hbehind,
        List.dropWhile_append_of_pos hname, hgapped]
    · -- the first character that is no blank has one place only
      have hshort (tail : Bytes) : (propname ++ tail).takeWhile isSpace =
          propname.takeWhile isSpace := by
        rw [List.takeWhile_append, if_neg]
        intro hlength
        exact hname (List.takeWhile_eq_self_iff.mp
          ((List.takeWhile_prefix _).eq_of_length hlength))
      have hlength := congrArg (fun text => (text.takeWhile isSpace).length)
        hrest
      simp only [List.takeWhile_append_of_pos hbehind, hshort,
        List.length_append] at hlength
      obtain rfl : behind = [] := List.length_eq_zero_iff.mp (by omega)
      rw [List.nil_append] at hrest
      rw [← List.append_cancel_left hrest, hgapped]
  rw [shouldTag, strstr, hsplit]
  have hbefore : before.all isSpace = true :=
    List.all_eq_true.mpr fun c hc => hblanks c (List.mem_append_left _ hc)
  simp [hbefore, hequal]

theorem shouldTag_iff :
    shouldTag line propname = true ↔ HasProperty propname line :=
  ⟨hasProperty_of_shouldTag, shouldTag_of_hasProperty⟩

instance (propname line : Bytes) : Decidable (HasProperty propname line) :=
  decidable_of_iff _ shouldTag_iff

theorem HasProperty.append (hline : HasProperty propname line)
    (tail : Bytes) : HasProperty propname (line ++ tail) := by
  obtain ⟨blanks, gap, value, rfl, hblanks, hgap⟩ := hline
  exact ⟨blanks, gap, value ++ tail, by simp, hblanks, hgap⟩

/-- What stands behind the last '=' has no part in what property a line
has. -/
theorem HasProperty.of_append {tail : Bytes} (htail : (61 : UInt8) ∉ tail)
    (hline : HasProperty propname (line ++ tail)) :
    HasProperty propname line := by
  obtain ⟨blanks, gap, value, hline, hblanks, hgap⟩ := hline
  rcases List.append_eq_append_iff.mp hline with
    ⟨more, -, hmore⟩ | ⟨more, rfl, hvalue⟩
  · exact absurd (hmore ▸ List.mem_append_right _ List.mem_cons_self) htail
  · cases more with
    | nil =>
        rw [List.nil_append] at hvalue
        exact absurd (hvalue ▸ List.mem_cons_self) htail
    | cons c more =>
        obtain ⟨rfl, -⟩ := List.cons.inj hvalue
        exact ⟨blanks, gap, more, rfl, hblanks, hgap⟩

end Property

section Strtoul

theorem sign_cons {c : UInt8} (hminus : c ≠ 45) (hplus : c ≠ 43)
    (text : Bytes) : sign (c :: text) = (false, c :: text) := by
  unfold sign
  split
  next heq => exact absurd (List.cons.inj heq).1 hminus
  next heq => exact absurd (List.cons.inj heq).1 hplus
  next => rfl

theorem sign_suffix (text : Bytes) : (sign text).2 <:+ text := by
  unfold sign
  split
  · exact List.suffix_cons _ _
  · exact List.suffix_cons _ _
  · exact List.suffix_rfl

/-- No number, or a number with all of its digits. -/
theorem strtoul10_cases (text : Bytes) :
    strtoul10 text = (0, text) ∨
      ∃ front d, isDigit d = true ∧
        text = front ++ [d] ++ (strtoul10 text).2 ∧
        ∀ c ∈ (strtoul10 text).2.head?, isDigit c = false := by
  have hdigits : (sign (text.dropWhile isSpace)).2 <:+ text :=
    (sign_suffix _).trans (List.dropWhile_suffix _)
  unfold strtoul10 strtoulWith
  simp only [digits_ten, magnitude_ten, List.map_eq_nil_iff]
  generalize (sign (text.dropWhile isSpace)).2 = number at hdigits ⊢
  by_cases hnone : number.takeWhile isDigit = []
  · exact .inl (if_pos hnone)
  · right
    have hrest (taken : Nat × Bytes) (htaken : taken.2 =
        number.dropWhile isDigit) : ∃ front d, isDigit d = true ∧
          text = front ++ [d] ++ taken.2 ∧
          ∀ c ∈ taken.2.head?, isDigit c = false := by
      obtain ⟨blanks, rfl⟩ := hdigits
      refine ⟨blanks ++ (number.takeWhile isDigit).dropLast,
        (number.takeWhile isDigit).getLast hnone,
        List.mem_takeWhile_imp (List.getLast_mem hnone), ?_, ?_⟩
      · rw [htaken, List.append_assoc blanks,
          List.dropLast_append_getLast hnone, List.append_assoc,
          List.takeWhile_append_dropWhile]
      · rw [htaken]
        intro c hc
        have hhead := List.head?_dropWhile_not isDigit number
        rw [Option.mem_def.mp hc] at hhead
        simpa using hhead
    rw [if_neg hnone]
    apply hrest
    split
    · rfl
    · split
      · rfl
      · rfl

theorem sign_append {text : Bytes} (htext : text ≠ []) (tail : Bytes) :
    sign (text ++ tail) = ((sign text).1, (sign text).2 ++ tail) := by
  cases text with
  | nil => exact absurd rfl htext
  | cons c text =>
      by_cases hminus : c = 45
      · subst hminus
        rfl
      · by_cases hplus : c = 43
        · subst hplus
          rfl
        · rw [List.cons_append, sign_cons hminus hplus,
            sign_cons hminus hplus, List.cons_append]

theorem isDigit_of_isSpace {c : UInt8} (hc : isSpace c = true) :
    isDigit c = false := by
  cases hdigit : isDigit c with
  | false => rfl
  | true => rw [isSpace_of_isDigit hdigit] at hc; cases hc

section Blanks

variable {blanks : Bytes} (hblanks : ∀ c ∈ blanks, isSpace c = true)
include hblanks

/-- A number does not go on in blanks. -/
theorem span_append_blanks (number : Bytes) :
    (number ++ blanks).takeWhile isDigit = number.takeWhile isDigit ∧
      (number ++ blanks).dropWhile isDigit =
        number.dropWhile isDigit ++ blanks := by
  have htake : blanks.takeWhile isDigit = [] := by
    cases blanks with
    | nil => rfl
    | cons c blanks =>
        rw [List.takeWhile_cons_of_neg]
        rw [isDigit_of_isSpace (hblanks c List.mem_cons_self)]
        exact Bool.false_ne_true
  constructor
  · rw [List.takeWhile_append, htake, List.append_nil]
    split
    next hall =>
      exact ((List.takeWhile_prefix _).eq_of_length hall).symm
    next => rfl
  · have hdrop : blanks.dropWhile isDigit = blanks := by
      have hspan := @List.takeWhile_append_dropWhile _ isDigit blanks
      rwa [htake, List.nil_append] at hspan
    rw [List.dropWhile_append, hdrop]
    split
    next hnone => rw [List.isEmpty_iff.mp hnone, List.nil_append]
    next => rfl

theorem strtoul10_append_blanks (text : Bytes) :
    strtoul10 (text ++ blanks) =
      ((strtoul10 text).1, (strtoul10 text).2 ++ blanks) := by
  unfold strtoul10 strtoulWith
  simp only [digits_ten, magnitude_ten]
  by_cases hblank : text.dropWhile isSpace = []
  · have hall : (text ++ blanks).dropWhile isSpace = [] := by
      rw [List.dropWhile_eq_nil_iff] at hblank ⊢
      exact List.forall_mem_append.mpr ⟨hblank, hblanks⟩
    rw [hblank, hall]
    rfl
  · have hdrop : (text ++ blanks).dropWhile isSpace =
        text.dropWhile isSpace ++ blanks := by
      rw [List.dropWhile_append, if_neg (by simpa using hblank)]
    rw [hdrop, sign_append hblank]
    simp only [span_append_blanks hblanks]
    split
    · rfl
    · split
      · rfl
      · split
        · rfl
        · rfl

theorem strtoul10_blanks : strtoul10 blanks = (0, blanks) :=
  strtoul10_append_blanks hblanks []

end Blanks

theorem suffix_of_nonpos {number : Int} (hnumber : number ≤ 0) :
    suffix number = [] :=
  if_neg hnumber.not_gt

theorem strtoul10_printInt {number : Int} (hpos : 0 < number)
    (hlt : number < 2 ^ 31) :
    strtoul10 (printInt number) = (number.natAbs, []) := by
  have hdigits := printNat_digits number.natAbs
  have htake := List.takeWhile_eq_self_iff.mpr hdigits.2
  have hdrop := dropWhile_isDigit_eq_nil.mpr hdigits.2
  have hspace : (printNat number.natAbs).dropWhile isSpace =
      printNat number.natAbs :=
    (DecimalInteger.unsigned hdigits).dropWhile_isSpace
  have hsmall : ¬ 2 ^ 32 ≤ number.natAbs := by omega
  rw [printInt, if_neg hpos.not_gt, strtoul10,
    strtoulWith]
  simp only [hspace, sign_of_digits hdigits, digits_ten, magnitude_ten, htake,
    hdrop, decimalValue_printNat, List.map_eq_nil_iff, hdigits.1, if_false,
    hsmall, Bool.false_eq_true]

end Strtoul

/-- The tag comes first where it is added to a value, and the end of the value
is no part of it. -/
def FirstAtEnd (tag value : Bytes) : Prop :=
  strstr (value ++ tag) tag = some (value, tag)

instance (tag value : Bytes) : Decidable (FirstAtEnd tag value) :=
  inferInstanceAs (Decidable (_ = _))

/-- A line without its blanks at the end and without the tag that it has. -/
def valueOf (tag line : Bytes) : Bytes :=
  (removeTag line tag).1.rdropWhile isSpace

section Line

variable {propname line tag value blanks : Bytes} {number : Int}

theorem toInt_bounds (number : Int) :
    toInt number < 2 ^ 31 ∧ toInt (toInt number) = toInt number := by
  have hlt := @Int.bmod_lt number (2 ^ 32) (by decide)
  refine ⟨?_, Int.bmod_bmod⟩
  unfold toInt
  omega

theorem toInt_eq_self (hnonneg : 0 ≤ number) (hlt : number < 2 ^ 31) :
    toInt number = number :=
  Int.bmod_eq_of_le (by omega) (by omega)

theorem removeTag_number (line tag : Bytes) :
    (removeTag line tag).2 < 2 ^ 31 ∧
      toInt (removeTag line tag).2 = (removeTag line tag).2 := by
  unfold removeTag
  split
  next => exact ⟨Int.pow_pos (by decide), rfl⟩
  next before pos _ =>
    dsimp only
    exact toInt_bounds _

theorem removeTag_of_free (hfree : ¬ tag <:+: line) :
    removeTag line tag = (line, 0) := by
  rw [removeTag, strstr, FirstOccurrence.split_eq_none_iff.mpr hfree]

theorem rdropWhile_append_blanks (hvalue : value.rdropWhile isSpace = value)
    (hblanks : ∀ c ∈ blanks, isSpace c = true) :
    (value ++ blanks).rdropWhile isSpace = value := by
  have hreverse : ∀ c ∈ blanks.reverse, isSpace c = true := fun c hc =>
    hblanks c (List.mem_reverse.mp hc)
  rw [List.rdropWhile, List.reverse_append,
    List.dropWhile_append_of_pos hreverse]
  exact hvalue

theorem writeTagged_append (hvalue : value.rdropWhile isSpace = value)
    (hblanks : ∀ c ∈ blanks, isSpace c = true) :
    writeTagged (value ++ blanks) tag number =
      value ++ tag ++ suffix number ++ blanks := by
  have hspan := @List.rdropWhile_append_rtakeWhile _ isSpace (value ++ blanks)
  rw [rdropWhile_append_blanks hvalue hblanks] at hspan
  rw [writeTagged, rdropWhile_append_blanks hvalue hblanks,
    List.append_cancel_left hspan]

/-- The value and the blanks of a line. -/
theorem exists_value (line : Bytes) :
    ∃ blanks, line = line.rdropWhile isSpace ++ blanks ∧
      ∀ c ∈ blanks, isSpace c = true :=
  ⟨line.rtakeWhile isSpace, List.rdropWhile_append_rtakeWhile.symm,
    fun _ hc => List.mem_rtakeWhile_imp hc⟩

/-- A line that has been written gives its number back. -/
theorem strtoul10_suffix (hlt : number < 2 ^ 31)
    (hblanks : ∀ c ∈ blanks, isSpace c = true) :
    strtoul10 (suffix number ++ blanks) = ((max number 0).natAbs, blanks) := by
  rcases le_or_gt number 0 with hnumber | hnumber
  · rw [suffix_of_nonpos hnumber, max_eq_right hnumber]
    exact strtoul10_blanks hblanks
  · rw [suffix, if_pos hnumber, strtoul10_append_blanks hblanks,
      strtoul10_printInt hnumber hlt, max_eq_left hnumber.le]
    rfl

/-- The tag that is found at the end is the one that was added. -/
theorem removeTag_tagged (hfirst : FirstAtEnd tag value)
    (hlt : number < 2 ^ 31) (hblanks : ∀ c ∈ blanks, isSpace c = true) :
    removeTag (value ++ tag ++ suffix number ++ blanks) tag =
      (value ++ blanks, max number 0) := by
  have hsplit : strstr (value ++ tag ++ suffix number ++ blanks) tag =
      some (value, tag ++ (suffix number ++ blanks)) := by
    rw [List.append_assoc]
    exact FirstOccurrence.split_append hfirst _
  rw [removeTag, hsplit]
  simp only [List.drop_left, strtoul10_suffix hlt hblanks]
  have hmax : ((max number 0).natAbs : Int) = max number 0 :=
    Int.natAbs_of_nonneg (le_max_right _ _)
  rw [hmax, toInt_eq_self (le_max_right _ _) (by omega)]

theorem writeLine_of_not {do_remove do_number : Bool}
    (hline : ¬ HasProperty propname line) :
    writeLine propname do_remove do_number tag line = line := by
  rw [← shouldTag_iff, Bool.not_eq_true] at hline
  rw [writeLine, hline]
  rfl

theorem writeLine_remove {do_number : Bool}
    (hline : HasProperty propname line) :
    writeLine propname true do_number tag line = (removeTag line tag).1 := by
  rw [writeLine, shouldTag_of_hasProperty hline]
  rfl

theorem writeLine_add {do_number : Bool}
    (hline : HasProperty propname line) :
    writeLine propname false do_number tag line =
      writeTagged (removeTag line tag).1 tag
        (toInt ((removeTag line tag).2 + if do_number then 1 else 0)) := by
  rw [writeLine, shouldTag_of_hasProperty hline]
  rfl

theorem valueOf_trimmed :
    (valueOf tag line).rdropWhile isSpace = valueOf tag line :=
  List.rdropWhile_idempotent isSpace _

/-- A line is written with its value in front of the tag and with its blanks
behind the number. -/
theorem exists_tagged (line tag : Bytes) :
    ∃ blanks, (∀ c ∈ blanks, isSpace c = true) ∧
      (removeTag line tag).1 = valueOf tag line ++ blanks ∧
      ∀ number, writeTagged (removeTag line tag).1 tag number =
        valueOf tag line ++ tag ++ suffix number ++ blanks := by
  obtain ⟨blanks, hline, hblanks⟩ : ∃ blanks,
      (removeTag line tag).1 = valueOf tag line ++ blanks ∧
        ∀ c ∈ blanks, isSpace c = true := exists_value _
  refine ⟨blanks, hblanks, hline, fun number => ?_⟩
  have hwritten := @writeTagged_append tag _ blanks number
    (@valueOf_trimmed line tag) hblanks
  rwa [← hline] at hwritten

theorem suffix_one : suffix 1 = [49] := by
  simp [suffix, printInt, printNat]

theorem suffix_max (number : Int) : suffix (max number 0) = suffix number := by
  rcases le_total number 0 with hnumber | hnumber
  · rw [max_eq_right hnumber, suffix_of_nonpos hnumber,
      suffix_of_nonpos le_rfl]
  · rw [max_eq_left hnumber]

/-- A second run finds the tag of the first one, and its number. -/
theorem writeLine_writeLine
    (hfirst : HasProperty propname line → FirstAtEnd tag (valueOf tag line)) :
    writeLine propname false false tag
        (writeLine propname false false tag line) =
      writeLine propname false false tag line := by
  by_cases hline : HasProperty propname line
  · obtain ⟨blanks, hblanks, -, hwritten⟩ := exists_tagged line tag
    obtain ⟨hlt, hint⟩ := removeTag_number line tag
    have hadd : writeLine propname false false tag line =
        valueOf tag line ++ tag ++ suffix (removeTag line tag).2 ++
          blanks := by
      rw [writeLine_add hline, hwritten]
      simp only [Bool.false_eq_true, if_false, add_zero, hint]
    rw [hadd]
    by_cases hagain : HasProperty propname (valueOf tag line ++ tag ++
        suffix (removeTag line tag).2 ++ blanks)
    · rw [writeLine_add hagain,
        removeTag_tagged (hfirst hline) hlt hblanks]
      simp only [Bool.false_eq_true, if_false, add_zero,
        writeTagged_append valueOf_trimmed hblanks]
      rw [toInt_eq_self (le_max_right _ _) (by omega), suffix_max]
    · exact writeLine_of_not hagain
  · rw [writeLine_of_not hline, writeLine_of_not hline]

/-- Text that comes back both without a number in front of it and with one
digit is empty. -/
theorem nothing_moved {moved more : Bytes}
    (hlength : more.length = moved.length)
    (hnone : (strtoul10 (more ++ blanks)).2 = moved ++ blanks)
    (hone : (strtoul10 (more ++ ([49] ++ blanks))).2 = moved ++ blanks) :
    moved = [] := by
  have hequal : more = moved := by
    rcases strtoul10_cases (more ++ blanks) with hread | ⟨front, d, -, hread, -⟩
    · rw [hread] at hnone
      exact List.append_cancel_right hnone
    · rw [hnone] at hread
      have hlengths := congrArg List.length hread
      simp only [List.length_append, List.length_singleton] at hlengths
      omega
  subst hequal
  cases more with
  | nil => rfl
  | cons c more =>
      -- one digit is read, and it is the first byte of what comes back
      rcases strtoul10_cases (c :: more ++ ([49] ++ blanks)) with
        hread | ⟨front, d, hdigit, hread, hhead⟩
      · rw [hread] at hone
        have hlengths := congrArg List.length hone
        simp only [List.length_append, List.length_cons, List.length_nil]
          at hlengths
        omega
      · rw [hone] at hread hhead
        have hlengths := congrArg List.length hread
        simp only [List.length_append, List.length_cons, List.length_nil]
          at hlengths
        obtain rfl : front = [] := List.length_eq_zero_iff.mp (by omega)
        obtain ⟨rfl, -⟩ := List.cons.inj hread
        have hnodigit : isDigit c = false := hhead c rfl
        rw [hdigit] at hnodigit
        cases hnodigit

section TagFree

variable (hline : HasProperty propname line) (hfree : ¬ tag <:+: line)
include hline hfree

/-- How a line without the tag is written, and that it keeps the property. -/
theorem exists_added : ∃ blanks, (∀ c ∈ blanks, isSpace c = true) ∧
    line = valueOf tag line ++ blanks ∧
    (∀ do_number, writeLine propname false do_number tag line =
      valueOf tag line ++ tag ++ suffix (if do_number then 1 else 0) ++
        blanks) ∧
    ∀ do_number,
      HasProperty propname (writeLine propname false do_number tag line) := by
  obtain ⟨blanks, hblanks, hvalue, hwritten⟩ := exists_tagged line tag
  replace hvalue : line = valueOf tag line ++ blanks := by
    rwa [removeTag_of_free hfree] at hvalue
  have hadded (do_number : Bool) :
      writeLine propname false do_number tag line =
        valueOf tag line ++ tag ++ suffix (if do_number then 1 else 0) ++
          blanks := by
    rw [writeLine_add hline, hwritten, removeTag_of_free hfree]
    cases do_number with
    | false => rfl
    | true => rfl
  refine ⟨blanks, hblanks, hvalue, hadded, fun do_number => ?_⟩
  have hequals : (61 : UInt8) ∉ blanks := fun hmem =>
    absurd (hblanks 61 hmem) (by decide)
  rw [hvalue] at hline
  rw [hadded, List.append_assoc, List.append_assoc]
  exact (hline.of_append hequals).append _

theorem writeLine_remove_add (hfirst : FirstAtEnd tag (valueOf tag line))
    (do_number : Bool) :
    writeLine propname true false tag
      (writeLine propname false do_number tag line) = line := by
  obtain ⟨blanks, hblanks, hvalue, hadded, hkept⟩ := exists_added hline hfree
  have hsmall : (if do_number then 1 else 0 : Int) < 2 ^ 31 := by
    cases do_number with
    | false => decide
    | true => decide
  rw [writeLine_remove (hkept do_number), hadded,
    removeTag_tagged hfirst hsmall hblanks]
  exact hvalue.symm

/-- Where the tag comes too early, what is left out is not what was added, or
the number is not. -/
theorem firstAtEnd_of_restored
    (hrestored : ∀ do_number, writeLine propname true false tag
      (writeLine propname false do_number tag line) = line) :
    FirstAtEnd tag (valueOf tag line) := by
  obtain ⟨blanks, hblanks, hvalue, hadded, hkept⟩ := exists_added hline hfree
  generalize valueOf tag line = value at *
  obtain ⟨before, moved, found, hsplit, rfl⟩ :=
    @FirstOccurrence.exists_split _ _ _ tag (value ++ tag) value tag rfl
      List.prefix_rfl
  obtain ⟨htext, more, rfl⟩ := FirstOccurrence.of_split hsplit
  rw [List.append_assoc] at htext
  have hmore : moved ++ tag = tag ++ more := List.append_cancel_left htext
  have hleft (do_number : Bool) :
      (strtoul10 (more ++ (suffix (if do_number then 1 else 0) ++ blanks))).2 =
        moved ++ blanks := by
    have hrest := hrestored do_number
    rw [writeLine_remove (hkept do_number), hadded, removeTag] at hrest
    have hfound := FirstOccurrence.split_append hsplit
      (suffix (if do_number then 1 else 0) ++ blanks)
    rw [← List.append_assoc] at hfound
    rw [strstr, hfound] at hrest
    simp only [List.append_assoc, List.drop_left] at hrest
    rw [hvalue, List.append_assoc] at hrest
    exact List.append_cancel_left hrest
  have hlength : more.length = moved.length := by
    have hlengths := congrArg List.length hmore
    rw [List.length_append, List.length_append] at hlengths
    omega
  have hone : (strtoul10 (more ++ ([49] ++ blanks))).2 = moved ++ blanks := by
    rw [← hleft true, if_pos rfl, suffix_one]
  obtain rfl := nothing_moved hlength (hleft false) hone
  obtain rfl : more = [] := List.length_eq_zero_iff.mp hlength
  rw [List.append_nil, List.append_nil] at hsplit
  rwa [FirstAtEnd, strstr, List.append_nil]

end TagFree

theorem isSpace_newline : ∀ c ∈ ([10] : Bytes), isSpace c = true :=
  List.forall_mem_singleton.mpr rfl

theorem hasProperty_append_newline :
    HasProperty propname (line ++ [10]) ↔ HasProperty propname line :=
  ⟨HasProperty.of_append (by decide), fun hline => hline.append [10]⟩

/-- A line with the newline is written as the line without it, and a
newline. -/
theorem writeLine_append_newline (htag : (10 : UInt8) ∉ tag)
    (do_remove do_number : Bool) (line : Bytes) :
    writeLine propname do_remove do_number tag (line ++ [10]) =
      writeLine propname do_remove do_number tag line ++ [10] := by
  have hremoved : removeTag (line ++ [10]) tag =
      ((removeTag line tag).1 ++ [10], (removeTag line tag).2) := by
    unfold removeTag strstr
    rw [FirstOccurrence.split_append_singleton htag]
    cases hsplit : FirstOccurrence.split tag line with
    | none => rfl
    | some place =>
        obtain ⟨-, rest, hrest⟩ := FirstOccurrence.of_split hsplit
        simp only [Option.map_some, ← hrest, List.append_assoc,
          List.drop_left, strtoul10_append_blanks isSpace_newline]
  by_cases hline : HasProperty propname line
  · have hlast := hasProperty_append_newline.mpr hline
    cases do_remove with
    | true => rw [writeLine_remove hline, writeLine_remove hlast, hremoved]
    | false =>
        rw [writeLine_add hline, writeLine_add hlast, hremoved]
        obtain ⟨blanks, hblanks, hvalue, hwritten⟩ := exists_tagged line tag
        rw [hwritten, hvalue]
        dsimp only
        rw [List.append_assoc _ blanks,
          writeTagged_append valueOf_trimmed
            (List.forall_mem_append.mpr ⟨hblanks, isSpace_newline⟩),
          ← List.append_assoc]
  · rw [writeLine_of_not hline,
      writeLine_of_not (mt hasProperty_append_newline.mp hline)]

theorem strtoul10_rest_suffix (text : Bytes) : (strtoul10 text).2 <:+ text := by
  rcases strtoul10_cases text with hnone | ⟨front, d, -, htext, -⟩
  · rw [hnone]
  · exact ⟨front ++ [d], htext.symm⟩

theorem removeTag_subset (line tag : Bytes) :
    (removeTag line tag).1 ⊆ line := by
  unfold removeTag
  split
  next => exact List.Subset.refl _
  next before pos hsplit =>
    obtain ⟨rfl, -⟩ := FirstOccurrence.of_split hsplit
    have hrest : (strtoul10 (pos.drop tag.length)).2 ⊆ pos :=
      ((strtoul10_rest_suffix _).trans (List.drop_suffix _ _)).subset
    dsimp only
    exact List.append_subset.mpr
      ⟨List.subset_append_left _ _, List.subset_append_of_subset_right _ hrest⟩

theorem isDigit_of_mem_suffix {c : UInt8} (hc : c ∈ suffix number) :
    isDigit c = true := by
  unfold suffix at hc
  split at hc
  next hpos =>
    rw [printInt, if_neg hpos.not_gt] at hc
    exact (printNat_digits _).2 c hc
  next => cases hc

/-- A run writes no other bytes than those of the line and the tag, and
digits. -/
theorem not_mem_writeLine {do_remove do_number : Bool} {c : UInt8}
    (hdigit : isDigit c = false) (htag : c ∉ tag) (hc : c ∉ line) :
    c ∉ writeLine propname do_remove do_number tag line := by
  intro hmem
  by_cases hline : HasProperty propname line
  · have hremoved := removeTag_subset line tag
    cases do_remove with
    | true =>
        rw [writeLine_remove hline] at hmem
        exact hc (hremoved hmem)
    | false =>
        obtain ⟨blanks, -, hvalue, hwritten⟩ := exists_tagged line tag
        rw [writeLine_add hline, hwritten] at hmem
        rw [hvalue, List.append_subset] at hremoved
        simp only [List.mem_append] at hmem
        rcases hmem with ((hmem | hmem) | hmem) | hmem
        · exact hc (hremoved.1 hmem)
        · exact htag hmem
        · rw [isDigit_of_mem_suffix hmem] at hdigit
          cases hdigit
        · exact hc (hremoved.2 hmem)
  · rw [writeLine_of_not hline] at hmem
    exact hc hmem

end Line

end PropertyTag

end MetaOS
