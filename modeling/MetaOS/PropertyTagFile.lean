/-
src/bootable/recovery/tools/ota/add-property-tag.c: what two runs do to a
.prop file.
-/
import Mathlib.Tactic.Ring
import MetaOS.PropertyTag

namespace MetaOS

namespace PropertyTag

open CString

section Reading

variable {size rounds : Nat} {file line rest : Bytes}

/-- A newline comes last in what `fgets` reads, and nothing is lost. -/
theorem fgets_cases (hsize : 2 ≤ size) (file : Bytes) :
    (fgets size file = none ∧ file = []) ∨
      ∃ line rest, fgets size file = some (line, rest) ∧ line ≠ [] ∧
        file = line ++ rest ∧ (10 : UInt8) ∉ line.dropLast := by
  by_cases hfile : file = []
  · exact .inl ⟨if_pos hfile, hfile⟩
  · right
    refine ⟨_, _, if_neg hfile, ?_, (List.take_append_drop _ _).symm, ?_⟩
    · rw [ne_eq, List.take_eq_nil_iff, not_or]
      exact ⟨by omega, hfile⟩
    · intro hmem
      have hlength : (file.take (min ((file.takeWhile (· != 10)).length + 1)
          (size - 1))).dropLast.length ≤
          (file.takeWhile (· != 10)).length := by
        rw [List.length_dropLast, List.length_take]
        omega
      have hbefore := List.prefix_of_prefix_length_le
        ((List.dropLast_prefix _).trans (List.take_prefix _ file))
        (List.takeWhile_prefix _) hlength
      have hnewline := List.mem_takeWhile_imp (hbefore.subset hmem)
      exact absurd hnewline (by decide)

theorem readLines_flatten (hnul : (0 : UInt8) ∉ file)
    (hrounds : file.length ≤ rounds) :
    (readLines rounds file).flatten = file ∧
      ∀ line ∈ readLines rounds file, (10 : UInt8) ∉ line.dropLast := by
  induction rounds generalizing file with
  | zero =>
      rw [List.length_eq_zero_iff.mp (Nat.le_zero.mp hrounds)]
      exact ⟨rfl, fun line hline => absurd hline List.not_mem_nil⟩
  | succ rounds ih =>
      rw [readLines]
      rcases @fgets_cases 4096 (by decide) file with
        ⟨hread, rfl⟩ | ⟨line, rest, hread, hne, rfl, hnewline⟩
      · rw [hread]
        exact ⟨rfl, fun line hline => absurd hline List.not_mem_nil⟩
      · rw [List.mem_append, not_or] at hnul
        have hpos := List.length_pos_iff.mpr hne
        rw [List.length_append] at hrounds
        obtain ⟨hflatten, hlater⟩ := ih hnul.2 (by omega)
        rw [hread]
        dsimp only
        rw [cstr_eq_self hnul.1, List.flatten_cons, hflatten]
        exact ⟨rfl, List.forall_mem_cons.mpr ⟨hnewline, hlater⟩⟩

/-- A run without the property changes no line either. -/
theorem main_snd (hnul : (0 : UInt8) ∉ file) (propname : Bytes)
    (do_remove do_number : Bool) (tag : Bytes) :
    (main propname do_remove do_number tag file).2 =
      (readLines file.length file).flatMap
        (writeLine propname do_remove do_number tag) := by
  unfold main
  dsimp only
  split
  next => rfl
  next hnone =>
    simp only [List.any_eq_true, shouldTag_iff, not_exists, not_and] at hnone
    have hsame : (readLines file.length file).flatMap
        (writeLine propname do_remove do_number tag) =
          (readLines file.length file).flatMap id :=
      List.flatMap_congr fun line hline => writeLine_of_not (hnone line hline)
    rw [hsame, List.flatMap_id, (readLines_flatten hnul le_rfl).1]

end Reading

/-- A text file with lines shorter than the buffer: what stands before each
newline, and what stands behind the last one. -/
structure PropFile where
  complete : List Bytes
  last : Bytes
  nul_free : ∀ body ∈ last :: complete, (0 : UInt8) ∉ body
  newline_free : ∀ body ∈ last :: complete, (10 : UInt8) ∉ body
  last_short : last.length < 4096
  short : ∀ body ∈ complete, body.length + 1 < 4096

namespace PropFile

variable (file : PropFile)

def lines : List Bytes :=
  file.complete.map (· ++ [10]) ++ if file.last = [] then [] else [file.last]

def bytes : Bytes := file.lines.flatten

variable {file}

theorem mem_lines {line : Bytes} : line ∈ file.lines ↔
    (∃ body ∈ file.complete, body ++ [10] = line) ∨
      line = file.last ∧ file.last ≠ [] := by
  rw [lines, List.mem_append, List.mem_map]
  split
  next hlast => simp [hlast]
  next hlast => simp [hlast]

/-- What a run writes, line by line. -/
theorem flatMap_lines {f : Bytes → Bytes} (hf : f [] = []) :
    file.lines.flatMap f =
      file.complete.flatMap (fun body => f (body ++ [10])) ++ f file.last := by
  rw [lines, List.flatMap_append, List.flatMap_map]
  split
  next hlast => rw [hlast, hf, List.flatMap_nil]
  next => rw [List.flatMap_singleton]

theorem bytes_eq : file.bytes =
    file.complete.flatMap (· ++ [10]) ++ file.last := by
  rw [bytes, ← List.flatMap_id]
  exact flatMap_lines rfl

theorem zero_not_mem_lines {line : Bytes} (hline : line ∈ file.lines) :
    (0 : UInt8) ∉ line := by
  rcases mem_lines.mp hline with ⟨body, hbody, rfl⟩ | ⟨rfl, -⟩
  · rw [List.mem_append, not_or]
    exact ⟨file.nul_free body (List.mem_cons_of_mem _ hbody), by decide⟩
  · exact file.nul_free _ List.mem_cons_self

theorem zero_not_mem_bytes : (0 : UInt8) ∉ file.bytes := by
  intro hmem
  obtain ⟨line, hline, hzero⟩ := List.mem_flatten.mp hmem
  exact zero_not_mem_lines hline hzero

theorem takeWhile_newline {body : Bytes} (hbody : (10 : UInt8) ∉ body)
    (rest : Bytes) : (body ++ 10 :: rest).takeWhile (· != 10) = body := by
  rw [List.takeWhile_append_of_pos]
  · exact List.append_nil body
  · exact fun c hc => bne_iff_ne.mpr fun heq => hbody (heq ▸ hc)

theorem fgets_line {size : Nat} {body rest : Bytes}
    (hbody : (10 : UInt8) ∉ body) (hsize : body.length + 1 < size) :
    fgets size (body ++ 10 :: rest) = some (body ++ [10], rest) := by
  have hlen : min (body.length + 1) (size - 1) = (body ++ [10]).length := by
    rw [List.length_append, List.length_singleton]
    omega
  rw [fgets, if_neg (List.append_ne_nil_of_right_ne_nil _
    (List.cons_ne_nil _ _)), takeWhile_newline hbody]
  dsimp only
  rw [hlen, List.append_cons body 10 rest, List.take_left, List.drop_left]

theorem fgets_last {size : Nat} {last : Bytes} (hlast : (10 : UInt8) ∉ last)
    (hne : last ≠ []) (hsize : last.length < size) :
    fgets size last = some (last, []) := by
  have htake : last.takeWhile (· != 10) = last :=
    List.takeWhile_eq_self_iff.mpr fun c hc =>
      bne_iff_ne.mpr fun heq => hlast (heq ▸ hc)
  have hlen : last.length ≤ min (last.length + 1) (size - 1) := by
    omega
  rw [fgets, if_neg hne, htake]
  dsimp only
  rw [List.take_of_length_le hlen, List.drop_of_length_le hlen]

theorem readLines_nil (rounds : Nat) : readLines rounds [] = [] := by
  cases rounds with
  | zero => rfl
  | succ rounds => rfl

theorem readLines_last {rounds : Nat} {last : Bytes}
    (hnul : (0 : UInt8) ∉ last) (hnewline : (10 : UInt8) ∉ last)
    (hshort : last.length < 4096) (hrounds : last.length ≤ rounds) :
    readLines rounds last = if last = [] then [] else [last] := by
  by_cases hempty : last = []
  · rw [if_pos hempty, hempty, readLines_nil]
  · have hpos := List.length_pos_iff.mpr hempty
    cases rounds with
    | zero => omega
    | succ rounds =>
        rw [readLines, fgets_last hnewline hempty hshort, if_neg hempty]
        dsimp only
        rw [readLines_nil, cstr_eq_self hnul]

/-- The loop reads the lines of the file. -/
theorem readLines_bytes (file : PropFile) :
    readLines file.bytes.length file.bytes = file.lines := by
  obtain ⟨complete, last, hnul, hnewline, hlast, hshort⟩ := file
  rw [bytes_eq, lines]
  dsimp only at *
  suffices hread : ∀ rounds,
      (complete.flatMap (· ++ [10]) ++ last).length ≤ rounds →
        readLines rounds (complete.flatMap (· ++ [10]) ++ last) =
          complete.map (· ++ [10]) ++ if last = [] then [] else [last] from
    hread _ le_rfl
  intro rounds hrounds
  induction complete generalizing rounds with
  | nil =>
      rw [List.flatMap_nil, List.nil_append, List.map_nil, List.nil_append]
      exact readLines_last (hnul last List.mem_cons_self)
        (hnewline last List.mem_cons_self) hlast (by simpa using hrounds)
  | cons body complete ih =>
      have hmem : body ∈ last :: body :: complete :=
        List.mem_cons_of_mem _ List.mem_cons_self
      have hlines : (body :: complete).flatMap (· ++ [10]) ++ last =
          body ++ 10 :: (complete.flatMap (· ++ [10]) ++ last) := by
        simp
      rw [hlines] at hrounds ⊢
      rw [List.length_append, List.length_cons] at hrounds
      cases rounds with
      | zero => omega
      | succ rounds =>
          have hzero : (0 : UInt8) ∉ body ++ [10] := by
            rw [List.mem_append, not_or]
            exact ⟨hnul body hmem, by decide⟩
          have hlater := ih
            (fun other hother => hnul other (by grind))
            (fun other hother => hnewline other (by grind))
            (fun other hother => hshort other (List.mem_cons_of_mem _ hother))
            rounds (by omega)
          rw [readLines, fgets_line (hnewline body hmem)
            (hshort body List.mem_cons_self)]
          dsimp only
          rw [hlater, cstr_eq_self hzero, List.map_cons, List.cons_append]

theorem main_bytes (file : PropFile) (propname : Bytes)
    (do_remove do_number : Bool) (tag : Bytes) :
    (main propname do_remove do_number tag file.bytes).2 =
      file.lines.flatMap (writeLine propname do_remove do_number tag) := by
  rw [main_snd zero_not_mem_bytes, readLines_bytes]

section Tagged

variable {propname tag : Bytes} {do_number : Bool}

theorem writeLine_nil (do_remove : Bool) :
    writeLine propname do_remove do_number tag [] = [] := by
  refine writeLine_of_not ?_
  rintro ⟨blanks, gap, value, hline, -⟩
  cases (List.append_eq_nil_iff.mp hline.symm).2

variable (hnul : (0 : UInt8) ∉ tag) (hnewline : (10 : UInt8) ∉ tag)
  (hfits : ∀ line ∈ file.lines,
    (writeLine propname false do_number tag line).length < 4096)

/-- The file with the tag in it. -/
def tagged : PropFile where
  complete := file.complete.map (writeLine propname false do_number tag)
  last := writeLine propname false do_number tag file.last
  nul_free := by
    intro body hbody
    rw [← List.map_cons] at hbody
    obtain ⟨before, hbefore, rfl⟩ := List.mem_map.mp hbody
    exact not_mem_writeLine rfl hnul (file.nul_free before hbefore)
  newline_free := by
    intro body hbody
    rw [← List.map_cons] at hbody
    obtain ⟨before, hbefore, rfl⟩ := List.mem_map.mp hbody
    exact not_mem_writeLine rfl hnewline (file.newline_free before hbefore)
  last_short := by
    by_cases hlast : file.last = []
    · rw [hlast, writeLine_nil]
      decide
    · exact hfits _ (mem_lines.mpr (.inr ⟨rfl, hlast⟩))
  short := by
    intro body hbody
    obtain ⟨before, hbefore, rfl⟩ := List.mem_map.mp hbody
    have hline := hfits _ (mem_lines.mpr (.inl ⟨before, hbefore, rfl⟩))
    rwa [writeLine_append_newline hnewline, List.length_append] at hline

theorem main_tagged : (main propname false do_number tag file.bytes).2 =
    (file.tagged hnul hnewline hfits).bytes := by
  rw [main_bytes, flatMap_lines (writeLine_nil false), bytes_eq]
  simp only [writeLine_append_newline hnewline, tagged, List.flatMap_map]

include hnul hnewline hfits

/-- Two runs write a line as the second one writes what the first one has
made of it. -/
theorem main_main (do_remove : Bool) :
    (main propname do_remove false tag
      (main propname false do_number tag file.bytes).2).2 =
        file.lines.flatMap fun line =>
          writeLine propname do_remove false tag
            (writeLine propname false do_number tag line) := by
  have hnil : writeLine propname do_remove false tag
      (writeLine propname false do_number tag []) = [] := by
    rw [writeLine_nil, writeLine_nil]
  rw [main_tagged hnul hnewline hfits, main_bytes,
    flatMap_lines (writeLine_nil do_remove), flatMap_lines hnil]
  simp only [writeLine_append_newline hnewline, tagged, List.flatMap_map]

end Tagged

/-- The bytes of a file show what each line has become. -/
theorem forall_body_of_bytes_eq {complete : List Bytes} {last : Bytes}
    {f g : Bytes → Bytes}
    (hf : ∀ body ∈ complete, (10 : UInt8) ∉ f body ∧ (10 : UInt8) ∉ g body)
    (hbytes : complete.flatMap (fun body => f body ++ [10]) ++ f last =
      complete.flatMap (fun body => g body ++ [10]) ++ g last) :
    (∀ body ∈ complete, f body = g body) ∧ f last = g last := by
  induction complete with
  | nil => exact ⟨fun body hbody => absurd hbody List.not_mem_nil, hbytes⟩
  | cons body complete ih =>
      obtain ⟨hbody, hlater⟩ := List.forall_mem_cons.mp hf
      simp only [List.flatMap_cons, List.append_assoc, List.singleton_append]
        at hbytes
      have hfirst := congrArg (List.takeWhile (· != 10)) hbytes
      rw [List.cons_append, List.cons_append, takeWhile_newline hbody.1,
        takeWhile_newline hbody.2] at hfirst
      rw [hfirst] at hbytes
      obtain ⟨hcomplete, hend⟩ := ih hlater
        (List.cons.inj (List.append_cancel_left hbytes)).2
      exact ⟨List.forall_mem_cons.mpr ⟨hfirst, hcomplete⟩, hend⟩

end PropFile

/-- The length of a text, where each newline makes it a tag shorter. -/
def weight (tag text : Bytes) : Int :=
  text.length - tag.length * text.count 10

section Weight

variable {propname tag : Bytes}

theorem weight_append (text tail : Bytes) :
    weight tag (text ++ tail) = weight tag text + weight tag tail := by
  simp only [weight, List.length_append, List.count_append, Nat.cast_add]
  ring

variable (hnewline : (10 : UInt8) ∈ tag)
include hnewline

/-- A line has its newline at the end, so that the tag ends it. -/
theorem weight_removeTag {line : Bytes}
    (hline : (10 : UInt8) ∉ line.dropLast) :
    weight tag (removeTag line tag).1 = weight tag line := by
  unfold removeTag
  split
  next => rfl
  next before pos hsplit =>
    obtain ⟨rfl, rest, rfl⟩ := FirstOccurrence.of_split hsplit
    rw [← List.append_assoc] at hline
    cases rest with
    | cons c rest =>
        rw [List.dropLast_append_of_ne_nil (List.cons_ne_nil _ _)] at hline
        exact absurd (List.mem_append_left _
          (List.mem_append_right _ hnewline)) hline
    | nil =>
        have hne : tag ≠ [] := List.ne_nil_of_mem hnewline
        rw [List.append_nil, List.dropLast_append_of_ne_nil hne,
          List.mem_append, not_or] at hline
        have hcount : tag.count 10 = 1 := by
          have hlast := List.dropLast_append_getLast hne
          rw [← hlast, List.mem_append, List.mem_singleton] at hnewline
          obtain hlater := hnewline.resolve_left hline.2
          rw [← hlast, List.count_append,
            List.count_eq_zero_of_not_mem hline.2, ← hlater]
          rfl
        have htag : weight tag tag = 0 := by
          rw [weight, hcount]
          omega
        have hnothing : strtoul10 [] = (0, []) := rfl
        rw [List.append_nil, List.drop_length, hnothing]
        dsimp only
        rw [List.append_nil, weight_append, htag, add_zero]

theorem weight_removed {lines : List Bytes}
    (hlines : ∀ line ∈ lines, (10 : UInt8) ∉ line.dropLast) :
    weight tag (lines.flatMap (writeLine propname true false tag)) =
      weight tag lines.flatten := by
  induction lines with
  | nil => rfl
  | cons line lines ih =>
      obtain ⟨hline, hlater⟩ := List.forall_mem_cons.mp hlines
      have hfirst : weight tag (writeLine propname true false tag line) =
          weight tag line := by
        by_cases hprop : HasProperty propname line
        · rw [writeLine_remove hprop, weight_removeTag hnewline hline]
        · rw [writeLine_of_not hprop]
      rw [List.flatMap_cons, List.flatten_cons, weight_append, weight_append,
        hfirst, ih hlater]

/-- The tag and its number make a line longer than the newlines make up
for, or less so. -/
theorem weight_tag_ne : weight tag tag + 1 ≠ 0 := by
  have hpos : 1 ≤ tag.count 10 := List.count_pos_iff.mpr hnewline
  have hle : tag.count 10 ≤ tag.length := List.count_le_length
  unfold weight
  rcases Nat.lt_or_ge 1 (tag.count 10) with htwo | hone
  · have hmul : tag.length * 2 ≤ tag.length * tag.count 10 :=
      Nat.mul_le_mul_left _ htwo
    omega
  · rw [Nat.le_antisymm hone hpos]
    omega

omit hnewline

theorem weight_added {lines : List Bytes}
    (hfree : ∀ line ∈ lines, HasProperty propname line → ¬ tag <:+: line) :
    weight tag (lines.flatMap (writeLine propname false true tag)) =
      weight tag lines.flatten +
        lines.countP (shouldTag · propname) * (weight tag tag + 1) := by
  induction lines with
  | nil => simp
  | cons line lines ih =>
      obtain ⟨hline, hlater⟩ := List.forall_mem_cons.mp hfree
      rw [List.flatMap_cons, List.flatten_cons, weight_append, weight_append,
        ih hlater]
      by_cases hprop : HasProperty propname line
      · obtain ⟨blanks, -, hvalue, hadded, -⟩ :=
          exists_added hprop (hline hprop)
        have hone : weight tag [49] = 1 := by
          simp [weight]
        rw [List.countP_cons, if_pos (shouldTag_of_hasProperty hprop), hadded,
          if_pos rfl, suffix_one]
        conv_rhs => rw [hvalue]
        simp only [weight_append, hone, Nat.cast_add, Nat.cast_one]
        ring
      · rw [List.countP_cons, if_neg (mt hasProperty_of_shouldTag hprop),
          writeLine_of_not hprop]
        push_cast
        ring

end Weight

section RoundTrip

variable (propname tag : Bytes) (file : PropFile)

/-- The tag is in no line of the property. -/
def TagFree : Prop :=
  ∀ line ∈ file.lines, HasProperty propname line → ¬ tag <:+: line

/-- In every line of the property the tag is found where it is added. -/
def FoundAgain : Prop :=
  ∀ line ∈ file.lines, HasProperty propname line →
    (10 : UInt8) ∉ tag ∧ FirstAtEnd tag (valueOf tag line)

instance : Decidable (FoundAgain propname tag file) :=
  inferInstanceAs (Decidable (∀ line ∈ file.lines,
    HasProperty propname line →
      (10 : UInt8) ∉ tag ∧ FirstAtEnd tag (valueOf tag line)))

/-- Adding the tag twice is adding it once. -/
def Idempotent : Prop :=
  (main propname false false tag
      (main propname false false tag file.bytes).2).2 =
    (main propname false false tag file.bytes).2

instance : Decidable (Idempotent propname tag file) :=
  inferInstanceAs (Decidable (_ = _))

/-- Removing the tag undoes adding it. -/
def Restores : Prop :=
  ∀ do_number, (main propname true false tag
    (main propname false do_number tag file.bytes).2).2 = file.bytes

/-- A run changes lines of the property only. -/
def OthersUnchanged : Prop :=
  ∀ do_remove do_number, ∃ f : Bytes → Bytes,
    (main propname do_remove do_number tag file.bytes).2 =
      file.lines.flatMap f ∧
    ∀ line, ¬ HasProperty propname line → f line = line

variable {propname tag file}

theorem othersUnchanged : OthersUnchanged propname tag file :=
  fun do_remove do_number =>
    ⟨_, PropFile.main_bytes file propname do_remove do_number tag,
      fun _ hline => writeLine_of_not hline⟩

theorem main_of_none
    (hnone : ∀ line ∈ file.lines, ¬ HasProperty propname line)
    (do_remove do_number : Bool) :
    (main propname do_remove do_number tag file.bytes).2 = file.bytes := by
  have hsame : file.lines.flatMap
      (writeLine propname do_remove do_number tag) = file.lines.flatMap id :=
    List.flatMap_congr fun line hline => writeLine_of_not (hnone line hline)
  rw [PropFile.main_bytes, hsame, List.flatMap_id, PropFile.bytes]

variable (hnul : (0 : UInt8) ∉ tag)
  (hfits : ∀ do_number, ∀ line ∈ file.lines,
    (writeLine propname false do_number tag line).length < 4096)
include hnul hfits

theorem idempotent_of_foundAgain (hfound : FoundAgain propname tag file) :
    Idempotent propname tag file := by
  unfold Idempotent
  by_cases hnone : ∀ line ∈ file.lines, ¬ HasProperty propname line
  · rw [main_of_none hnone, main_of_none hnone]
  · push Not at hnone
    obtain ⟨line, hline, hprop⟩ := hnone
    rw [PropFile.main_main hnul (hfound line hline hprop).1 (hfits false),
      PropFile.main_bytes]
    exact List.flatMap_congr fun other hother =>
      writeLine_writeLine fun hproperty => (hfound other hother hproperty).2

theorem restores_of_foundAgain (hfree : TagFree propname tag file)
    (hfound : FoundAgain propname tag file) :
    Restores propname tag file := by
  intro do_number
  by_cases hnone : ∀ line ∈ file.lines, ¬ HasProperty propname line
  · rw [main_of_none hnone, main_of_none hnone]
  · push Not at hnone
    obtain ⟨line, hline, hprop⟩ := hnone
    rw [PropFile.main_main hnul (hfound line hline hprop).1
      (hfits do_number), PropFile.bytes, ← List.flatMap_id]
    refine List.flatMap_congr fun other hother => ?_
    by_cases hproperty : HasProperty propname other
    · exact writeLine_remove_add hproperty (hfree other hother hproperty)
        (hfound other hother hproperty).2 do_number
    · rw [writeLine_of_not hproperty, writeLine_of_not hproperty]
      rfl

omit hfits in
/-- Where the tag ends a line, the number that follows it stays. -/
theorem newline_not_mem_of_restores (hfree : TagFree propname tag file)
    (hrestores : Restores propname tag file) {line : Bytes}
    (hline : line ∈ file.lines) (hprop : HasProperty propname line) :
    (10 : UInt8) ∉ tag := by
  intro hnewline
  have hadded : (0 : UInt8) ∉
      (main propname false true tag file.bytes).2 := by
    rw [PropFile.main_bytes]
    intro hmem
    obtain ⟨other, hother, hzero⟩ := List.mem_flatMap.mp hmem
    exact not_mem_writeLine rfl hnul (PropFile.zero_not_mem_lines hother)
      hzero
  have hweight := congrArg (weight tag) (hrestores true)
  obtain ⟨hflatten, hlines⟩ := readLines_flatten hadded le_rfl
  rw [main_snd hadded, weight_removed hnewline hlines, hflatten,
    PropFile.main_bytes, weight_added hfree, PropFile.bytes] at hweight
  have hsome : 0 < file.lines.countP (shouldTag · propname) :=
    List.countP_pos_iff.mpr ⟨line, hline, shouldTag_of_hasProperty hprop⟩
  have hnone := mul_ne_zero (Nat.cast_ne_zero.mpr hsome.ne')
    (weight_tag_ne hnewline)
  omega

/-- What a line has become shows in the file. -/
theorem restored_line (hnewline : (10 : UInt8) ∉ tag)
    (hrestores : Restores propname tag file) {line : Bytes}
    (hline : line ∈ file.lines) (do_number : Bool) :
    writeLine propname true false tag
      (writeLine propname false do_number tag line) = line := by
  have hnil : writeLine propname true false tag
      (writeLine propname false do_number tag []) = [] := by
    rw [PropFile.writeLine_nil, PropFile.writeLine_nil]
  have hbytes := hrestores do_number
  rw [PropFile.main_main hnul hnewline (hfits do_number),
    PropFile.flatMap_lines hnil, PropFile.bytes_eq] at hbytes
  simp only [writeLine_append_newline hnewline] at hbytes
  have hclean : ∀ body ∈ file.complete,
      (10 : UInt8) ∉ writeLine propname true false tag
        (writeLine propname false do_number tag body) ∧
      (10 : UInt8) ∉ body := by
    intro body hbody
    have hplain := file.newline_free body (List.mem_cons_of_mem _ hbody)
    exact ⟨not_mem_writeLine rfl hnewline
      (not_mem_writeLine rfl hnewline hplain), hplain⟩
  obtain ⟨hcomplete, hlast⟩ :=
    @PropFile.forall_body_of_bytes_eq _ _ _ id hclean hbytes
  rcases PropFile.mem_lines.mp hline with ⟨body, hbody, rfl⟩ | ⟨rfl, -⟩
  · rw [writeLine_append_newline hnewline, writeLine_append_newline hnewline,
      hcomplete body hbody]
    rfl
  · exact hlast

theorem foundAgain_of_restores (hfree : TagFree propname tag file)
    (hrestores : Restores propname tag file) :
    FoundAgain propname tag file := by
  intro line hline hprop
  have hnewline :=
    newline_not_mem_of_restores hnul hfree hrestores hline hprop
  exact ⟨hnewline, firstAtEnd_of_restored hprop (hfree line hline hprop)
    (restored_line hnul hfits hnewline hrestores hline)⟩

/-- Other lines stay as they are.  The rest holds where the tag is found where
it is added; in a file without the tag only there. -/
theorem foundAgain_iff :
    OthersUnchanged propname tag file ∧
      (FoundAgain propname tag file → Idempotent propname tag file ∧
        (TagFree propname tag file → Restores propname tag file)) ∧
      (TagFree propname tag file →
        (Idempotent propname tag file ∧ Restores propname tag file ↔
          FoundAgain propname tag file)) := by
  have hidempotent := @idempotent_of_foundAgain propname tag file hnul hfits
  refine ⟨othersUnchanged, fun hfound => ⟨hidempotent hfound, fun hfree =>
    restores_of_foundAgain hnul hfits hfree hfound⟩, fun hfree =>
    ⟨fun hboth => foundAgain_of_restores hnul hfits hfree hboth.2,
      fun hfound => ⟨hidempotent hfound,
        restores_of_foundAgain hnul hfits hfree hfound⟩⟩⟩

end RoundTrip

namespace PropertyTagWitness

/-- A line of the property `p` and a last one of the property `q`. -/
def plainFile : PropFile where
  complete := [.ofString "p=v "]
  last := .ofString "q=p="
  nul_free := by decide
  newline_free := by decide
  last_short := by decide
  short := by decide

/-- The value ends as the tag starts and ends. -/
def overlapFile : PropFile where
  complete := [.ofString "p=v-a"]
  last := []
  nul_free := by decide
  newline_free := by decide
  last_short := by decide
  short := by decide

theorem plain_restored :
    FoundAgain (.ofString "p") (.ofString "-t") plainFile ∧
      OthersUnchanged (.ofString "p") (.ofString "-t") plainFile ∧
      (FoundAgain (.ofString "p") (.ofString "-t") plainFile →
        Idempotent (.ofString "p") (.ofString "-t") plainFile ∧
          (TagFree (.ofString "p") (.ofString "-t") plainFile →
            Restores (.ofString "p") (.ofString "-t") plainFile)) ∧
      (TagFree (.ofString "p") (.ofString "-t") plainFile →
        (Idempotent (.ofString "p") (.ofString "-t") plainFile ∧
            Restores (.ofString "p") (.ofString "-t") plainFile ↔
          FoundAgain (.ofString "p") (.ofString "-t") plainFile)) :=
  ⟨by decide, foundAgain_iff (by decide) (by decide)⟩

/-- A second run finds the tag one byte too early. -/
theorem tag_moved : ¬ ∀ (propname tag : Bytes) (file : PropFile), tag ≠ [] →
    (0 : UInt8) ∉ tag →
    (∀ do_number, ∀ line ∈ file.lines,
      (writeLine propname false do_number tag line).length < 4096) →
    OthersUnchanged propname tag file ∧ Idempotent propname tag file ∧
      (TagFree propname tag file → Restores propname tag file) := by
  intro hclaim
  have hmoved := (hclaim (.ofString "p") (.ofString "-a-") overlapFile
    (by decide) (by decide) (by decide)).2.1
  have hlost : ¬ Idempotent (.ofString "p") (.ofString "-a-") overlapFile := by
    decide
  exact hlost hmoved

end PropertyTagWitness

end PropertyTag

end MetaOS
