/-
The first place at which a text contains another one.

A text is found nowhere behind a place at which it stands, and what follows the
searched text changes nothing unless it makes a new place.
-/
import Mathlib.Data.List.Infix

namespace MetaOS

namespace FirstOccurrence

variable {α : Type} [BEq α] [LawfulBEq α]

/-- The text before the first place, and the text from there on. -/
def split (needle : List α) : (text : List α) → Option (List α × List α)
  | [] => if needle.isEmpty then some ([], []) else none
  | c :: text =>
      if needle.isPrefixOf (c :: text) then some ([], c :: text)
      else (split needle text).map fun (before, found) => (c :: before, found)

variable {needle text before found : List α}

theorem split_of_begins (hbegins : needle <+: text) :
    split needle text = some ([], text) := by
  cases text with
  | nil =>
      rw [List.prefix_nil.mp hbegins]
      rfl
  | cons c text => exact if_pos (List.isPrefixOf_iff_prefix.mpr hbegins)

theorem split_cons {c : α} (hnot : ¬ needle <+: c :: text) :
    split needle (c :: text) =
      (split needle text).map fun (before, found) => (c :: before, found) := by
  rw [split, if_neg (by rwa [List.isPrefixOf_iff_prefix])]

/-- What is found is a place. -/
theorem of_split (hsplit : split needle text = some (before, found)) :
    text = before ++ found ∧ needle <+: found := by
  induction text generalizing before with
  | nil =>
      cases needle with
      | nil =>
          cases hsplit
          exact ⟨rfl, List.prefix_rfl⟩
      | cons c needle => cases hsplit
  | cons c text ih =>
      by_cases hbegins : needle <+: c :: text
      · rw [split_of_begins hbegins] at hsplit
        cases hsplit
        exact ⟨rfl, hbegins⟩
      · rw [split_cons hbegins, Option.map_eq_some_iff] at hsplit
        obtain ⟨⟨front, rest⟩, hrest, heq⟩ := hsplit
        cases heq
        obtain ⟨rfl, hfound⟩ := ih hrest
        exact ⟨rfl, hfound⟩

/-- There is no place in front of the one that is found. -/
theorem exists_split {front rest : List α} (htext : text = front ++ rest)
    (hplace : needle <+: rest) :
    ∃ before behind found, split needle text = some (before, found) ∧
      front = before ++ behind := by
  induction front generalizing text with
  | nil =>
      rw [List.nil_append] at htext
      exact ⟨[], [], text, split_of_begins (htext ▸ hplace), rfl⟩
  | cons c front ih =>
      obtain ⟨before, behind, found, hsplit, rfl⟩ := @ih (front ++ rest) rfl
      rw [htext, List.cons_append]
      by_cases hbegins : needle <+: c :: (before ++ behind ++ rest)
      · exact ⟨[], _, _, split_of_begins hbegins, rfl⟩
      · refine ⟨c :: before, behind, found, ?_, rfl⟩
        rw [split_cons hbegins, hsplit]
        rfl

theorem split_eq_none_iff : split needle text = none ↔ ¬ needle <:+: text := by
  constructor
  · rintro hnone ⟨front, rest, htext⟩
    obtain ⟨before, behind, found, hsplit, -⟩ := @exists_split _ _ _ needle
      text front (needle ++ rest) (by rw [← htext, List.append_assoc])
      (List.prefix_append _ _)
    rw [hnone] at hsplit
    cases hsplit
  · intro hnot
    cases hsplit : split needle text with
    | none => rfl
    | some place =>
        obtain ⟨htext, hplace⟩ := of_split hsplit
        obtain ⟨rest, hrest⟩ := hplace
        exact absurd ⟨place.1, rest, by rw [htext, ← hrest, List.append_assoc]⟩
          hnot

/-- What follows the text makes no place in front of the one that is found. -/
theorem split_append (hsplit : split needle text = some (before, found))
    (tail : List α) :
    split needle (text ++ tail) = some (before, found ++ tail) := by
  induction text generalizing before with
  | nil =>
      obtain ⟨htext, hplace⟩ := of_split hsplit
      obtain ⟨rfl, rfl⟩ := List.append_eq_nil_iff.mp htext.symm
      exact split_of_begins (hplace.trans (List.prefix_append _ _))
  | cons c text ih =>
      by_cases hbegins : needle <+: c :: text
      · rw [split_of_begins hbegins] at hsplit
        cases hsplit
        exact split_of_begins (hbegins.trans (List.prefix_append _ _))
      · rw [split_cons hbegins, Option.map_eq_some_iff] at hsplit
        obtain ⟨⟨front, rest⟩, hrest, heq⟩ := hsplit
        cases heq
        obtain ⟨htext, hplace⟩ := of_split hrest
        have hlength : needle.length ≤ (c :: text).length := by
          have hfound := hplace.length_le
          rw [htext, List.length_cons, List.length_append]
          omega
        have hnot : ¬ needle <+: c :: (text ++ tail) := fun hlater =>
          hbegins (List.prefix_of_prefix_length_le hlater
            (List.prefix_append (c :: text) tail) hlength)
        rw [List.cons_append, split_cons hnot, ih hrest]
        rfl

/-- An element that the text does not have makes no new place. -/
theorem split_append_singleton {c : α} (hc : c ∉ needle) :
    split needle (text ++ [c]) = (split needle text).map
      fun (before, found) => (before, found ++ [c]) := by
  have hbegins_iff (text : List α) :
      needle <+: text ++ [c] ↔ needle <+: text := by
    rw [List.prefix_concat_iff]
    refine or_iff_right fun heq => hc ?_
    rw [heq]
    exact List.mem_append_right _ List.mem_cons_self
  induction text with
  | nil =>
      by_cases hempty : needle <+: []
      · rw [split_of_begins hempty,
          split_of_begins ((hbegins_iff []).mpr hempty)]
        rfl
      · have hnot := mt (hbegins_iff []).mp hempty
        rw [List.nil_append] at hnot ⊢
        rw [split_cons hnot]
        cases needle with
        | nil => exact absurd List.prefix_rfl hempty
        | cons d needle => rfl
  | cons d text ih =>
      by_cases hbegins : needle <+: d :: text
      · rw [split_of_begins hbegins,
          split_of_begins ((hbegins_iff _).mpr hbegins)]
        rfl
      · have hnot := mt (hbegins_iff (d :: text)).mp hbegins
        rw [List.cons_append] at hnot ⊢
        rw [split_cons hbegins, split_cons hnot, ih, Option.map_map,
          Option.map_map]
        rfl

end FirstOccurrence

end MetaOS
