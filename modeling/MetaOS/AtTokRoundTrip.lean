/-
hardware/ril/reference-ril/at_tok.c: the fields of a response line, written as
the modem writes them, are read back one after the other.
-/
import MetaOS.AtTok
import MetaOS.Numerals

namespace MetaOS

namespace AtTok

open CString

/-- What a response line holds between its commas. -/
inductive Field where
  | int (value : Int)
  | str (text : Bytes)
deriving DecidableEq

/-- An `int`, or a string that can stand between quotes. -/
def Field.Valid : Field → Prop
  | .int value => -2 ^ 31 ≤ value ∧ value < 2 ^ 31
  | .str text => 34 ∉ text ∧ 0 ∉ text

def Field.render : Field → Bytes
  | .int value => printInt value
  | .str text => 34 :: (text ++ [34])

def renderFields : List Field → Bytes
  | [] => []
  | [field] => field.render
  | field :: fields => field.render ++ 44 :: renderFields fields

def renderLine (linePrefix : Bytes) (fields : List Field) : Bytes :=
  linePrefix ++ 58 :: 32 :: renderFields fields

/-- The function that reads a field of this kind. -/
def Field.next : Field → Cursor → Option (Field × Cursor)
  | .int _, cur =>
      (atTokNextint cur).map fun (value, cur) => (.int value, cur)
  | .str _, cur =>
      (atTokNextstr cur).map fun (text, cur) => (.str text, cur)

/-- There is always more to read, and every field is read as it is. -/
inductive Reads : List Field → Cursor → Cursor → Prop
  | nil (cur : Cursor) : Reads [] cur cur
  | cons {field : Field} {fields : List Field} {cur next last : Cursor}
      (hmore : atTokHasmore cur = true)
      (hnext : field.next cur = some (field, next))
      (hrest : Reads fields next last) : Reads (field :: fields) cur last

/-- Nothing is left: there is no more, and no number either. -/
def Finished (cur : Cursor) : Prop :=
  atTokHasmore cur = false ∧ atTokNextint cur = none

/-- The cursor behind a field of this kind, before the rest of the line. -/
def Field.after : Field → Bytes → Cursor
  | _, _ :: rest => some rest
  | .int _, [] => none
  | .str _, [] => some []

theorem strsep_append {delim : UInt8} {token : Bytes} (htoken : delim ∉ token)
    (rest : Bytes) : strsep delim (token ++ delim :: rest) =
      (token, some rest) := by
  have hall : ∀ c ∈ token, (c != delim) = true := by
    intro c hc
    exact bne_iff_ne.mpr fun h => htoken (h ▸ hc)
  rw [strsep, List.takeWhile_append_of_pos hall,
    List.dropWhile_append_of_pos hall]
  simp

theorem strsep_all {delim : UInt8} {token : Bytes} (htoken : delim ∉ token) :
    strsep delim token = (token, none) := by
  have hall : ∀ c ∈ token, (c != delim) = true := by
    intro c hc
    exact bne_iff_ne.mpr fun h => htoken (h ▸ hc)
  rw [strsep, List.takeWhile_eq_self_iff.mpr hall,
    List.dropWhile_eq_nil_iff.mpr hall]

/-- A printed number has a sign and digits only. -/
theorem mem_printInt {value : Int} {c : UInt8} (hc : c ∈ printInt value) :
    c = 45 ∨ isDigit c = true := by
  have hdigits := (printNat_digits value.natAbs).2
  unfold printInt at hc
  split at hc
  · exact (List.mem_cons.mp hc).imp id (hdigits c)
  · exact .inr (hdigits c hc)

theorem printInt_ne_nil (value : Int) : printInt value ≠ [] := by
  unfold printInt
  split
  · exact List.cons_ne_nil _ _
  · exact (printNat_digits value.natAbs).1

theorem not_mem_printInt {value : Int} {c : UInt8} (hsign : c ≠ 45)
    (hdigit : isDigit c = false) : c ∉ printInt value := by
  intro hc
  rcases mem_printInt hc with rfl | hc
  · exact hsign rfl
  · rw [hdigit] at hc
    cases hc

theorem nextTok_of_dropWhile {text : Bytes} {c : UInt8} {rest : Bytes}
    (htext : text.dropWhile isSpace = c :: rest) (hc : c ≠ 34) :
    nextTok text = strsep 44 (c :: rest) := by
  unfold nextTok
  rw [htext]
  split
  next hquoted => exact absurd (List.cons.inj hquoted).1 hc
  next => rfl

/-- A number is the text up to the comma or the end. -/
theorem nextTok_int {blanks tail : Bytes} (value : Int)
    (hblanks : ∀ c ∈ blanks, isSpace c = true)
    (htail : ∀ c ∈ tail.head?, c = 44) :
    nextTok (blanks ++ (printInt value ++ tail)) =
      (printInt value, (Field.int value).after tail) := by
  have hdrop : (blanks ++ (printInt value ++ tail)).dropWhile isSpace =
      printInt value ++ tail := by
    rw [List.dropWhile_append_of_pos hblanks]
    cases htext : printInt value with
    | nil => exact absurd htext (printInt_ne_nil value)
    | cons c text =>
        have hc := mem_printInt (htext ▸ List.mem_cons_self)
        have hspace : isSpace c = false := by
          rcases hc with rfl | hc
          · decide
          · exact isSpace_of_isDigit hc
        simp [hspace]
  have hcomma : (44 : UInt8) ∉ printInt value :=
    not_mem_printInt (by decide) (by decide)
  have hquote : (34 : UInt8) ∉ printInt value :=
    not_mem_printInt (by decide) (by decide)
  have hstrsep : nextTok (blanks ++ (printInt value ++ tail)) =
      strsep 44 (printInt value ++ tail) := by
    cases htext : printInt value with
    | nil => exact absurd htext (printInt_ne_nil value)
    | cons c text =>
        rw [htext] at hdrop hquote
        exact nextTok_of_dropWhile hdrop
          fun h => hquote (h ▸ List.mem_cons_self)
  rw [hstrsep]
  cases tail with
  | nil =>
      rw [List.append_nil]
      exact strsep_all hcomma
  | cons c rest =>
      obtain rfl := htail c rfl
      exact strsep_append hcomma rest

/-- A string is what stands between its quotes, commas included. -/
theorem nextTok_str {blanks tail text : Bytes} (htext : 34 ∉ text)
    (hblanks : ∀ c ∈ blanks, isSpace c = true)
    (htail : ∀ c ∈ tail.head?, c = 44) :
    nextTok (blanks ++ (34 :: (text ++ [34]) ++ tail)) =
      (text, (Field.str text).after tail) := by
  have hdrop : (blanks ++ (34 :: (text ++ [34]) ++ tail)).dropWhile isSpace =
      34 :: (text ++ 34 :: tail) := by
    rw [List.dropWhile_append_of_pos hblanks, List.cons_append,
      List.append_assoc, List.singleton_append]
    rfl
  have hstrsep := strsep_append htext tail
  unfold nextTok
  simp only [hdrop, hstrsep]
  cases tail with
  | nil => rfl
  | cons c rest =>
      obtain rfl := htail c rfl
      rfl

theorem atTokNextint_of_nextTok {text : Bytes} {value : Int} {cur : Cursor}
    (hrange : -2 ^ 31 ≤ value ∧ value < 2 ^ 31)
    (htok : nextTok text = (printInt value, cur)) :
    atTokNextint (some text) = some (value, cur) := by
  have hnumeral : Numeral (printInt value) value :=
    ⟨[], printInt value, rfl, fun c hc => absurd hc List.not_mem_nil,
      printInt_decimalInteger value⟩
  have hclamp : clamp value = value := by
    simp only [clamp, LONG_MAX, LONG_MIN]
    omega
  have hpos := List.length_pos_iff.mpr (printInt_ne_nil value)
  rw [atTokNextint, atTokNextintBase, htok]
  dsimp only
  rw [strtol_numeral hnumeral, hclamp, if_neg]
  rw [List.length_nil]
  omega

/-- A field is read from the front of the line. -/
theorem next_render {field : Field} (hvalid : field.Valid)
    {blanks tail : Bytes} (hblanks : ∀ c ∈ blanks, isSpace c = true)
    (htail : ∀ c ∈ tail.head?, c = 44) :
    field.next (some (blanks ++ (field.render ++ tail))) =
      some (field, field.after tail) := by
  cases field with
  | int value =>
      have htok := nextTok_int value hblanks htail
      rw [Field.next, Field.render, atTokNextint_of_nextTok hvalid htok]
      rfl
  | str text =>
      have htok := nextTok_str hvalid.1 hblanks htail
      rw [Field.next, Field.render, atTokNextstr, Option.map_some, htok]
      rfl

theorem render_ne_nil (field : Field) : field.render ≠ [] := by
  cases field with
  | int value => exact printInt_ne_nil value
  | str text => exact List.cons_ne_nil _ _

theorem hasmore_render (field : Field) (blanks tail : Bytes) :
    atTokHasmore (some (blanks ++ (field.render ++ tail))) = true := by
  have hne : blanks ++ (field.render ++ tail) ≠ [] := by
    simp [render_ne_nil]
  obtain ⟨c, rest, hcons⟩ := List.exists_cons_of_ne_nil hne
  rw [hcons]
  rfl

/-- Behind the last field the cursor is null or at the end of the line. -/
theorem finished_after (field : Field) : Finished (field.after []) := by
  cases field with
  | int value => exact ⟨rfl, rfl⟩
  | str text =>
      have hnone : atTokNextint (some []) = none := by decide
      exact ⟨rfl, hnone⟩

theorem after_comma (field : Field) (rest : Bytes) :
    field.after (44 :: rest) = some rest := by
  cases field <;> rfl

/-- Induction on the fields, each read with what the ones behind it leave. -/
theorem reads_renderFields {field : Field} {fields : List Field}
    (hvalid : ∀ f ∈ field :: fields, f.Valid) {blanks : Bytes}
    (hblanks : ∀ c ∈ blanks, isSpace c = true) :
    ∃ last, Reads (field :: fields)
      (some (blanks ++ renderFields (field :: fields))) last ∧
      Finished last := by
  induction fields generalizing field blanks with
  | nil =>
      have hmore := hasmore_render field blanks []
      have hnext := @next_render field (hvalid field List.mem_cons_self)
        blanks [] hblanks (fun c hc => by cases hc)
      rw [List.append_nil] at hmore hnext
      exact ⟨_, .cons hmore hnext (.nil _), finished_after field⟩
  | cons next fields ih =>
      obtain ⟨last, hrest, hlast⟩ := @ih next
        (fun f hf => hvalid f (List.mem_cons_of_mem field hf)) []
        (fun c hc => by cases hc)
      have hnext := @next_render field (hvalid field List.mem_cons_self)
        blanks (44 :: renderFields (next :: fields)) hblanks
        (fun c hc => (Option.some_inj.mp hc).symm)
      rw [after_comma] at hnext
      exact ⟨last, .cons (hasmore_render field blanks _) hnext hrest, hlast⟩

/-- A line that was written with fields is read back: each field with its own
function, as long as there is more, and nothing after the last. -/
theorem reads_renderLine {linePrefix : Bytes} (hcolon : 58 ∉ linePrefix)
    {fields : List Field} (hne : fields ≠ [])
    (hvalid : ∀ field ∈ fields, field.Valid) :
    ∃ cur last, atTokStart (renderLine linePrefix fields) = some cur ∧
      Reads fields cur last ∧ Finished last := by
  obtain ⟨field, fields, rfl⟩ := List.exists_cons_of_ne_nil hne
  obtain ⟨last, hreads, hlast⟩ := @reads_renderFields field fields hvalid
    [32] (List.forall_mem_singleton.mpr rfl)
  refine ⟨_, last, ?_, hreads, hlast⟩
  have hall : ∀ c ∈ linePrefix, (c != 58) = true := by
    intro c hc
    exact bne_iff_ne.mpr fun h => hcolon (h ▸ hc)
  rw [atTokStart, renderLine, List.dropWhile_append_of_pos hall]
  rfl

namespace AtTokRoundTripWitness

/-- `+X: -7,"a,b",""` -/
theorem mixed_fields : ∃ cur last,
    atTokStart (renderLine (.ofString "+X")
      [.int (-7), .str (.ofString "a,b"), .str []]) = some cur ∧
    Reads [.int (-7), .str (.ofString "a,b"), .str []] cur last ∧
    Finished last := by
  refine reads_renderLine (by decide) (List.cons_ne_nil _ _) ?_
  refine List.forall_mem_cons.mpr ⟨⟨by decide, by decide⟩, ?_⟩
  refine List.forall_mem_cons.mpr ⟨⟨by decide, by decide⟩, ?_⟩
  exact List.forall_mem_singleton.mpr ⟨by decide, by decide⟩

end AtTokRoundTripWitness

end AtTok

end MetaOS
