/-
Text in lines of a bounded length.

A line ends at a newline, or where the next element would not fit.  What one
more element at the end of the text does depends on the last line only.
-/
import Mathlib.Data.List.Basic

namespace MetaOS

namespace WrappedText

variable {α : Type}

/-- A line without newlines, cut into pieces that fit.  An empty line is one
empty piece. -/
def chunks (cols : Nat) (line : List α) : List (List α) :=
  if 0 < cols ∧ cols < line.length then
    line.take cols :: chunks cols (line.drop cols)
  else [line]
termination_by line.length
decreasing_by
  simp only [List.length_drop]
  omega

theorem chunks_of_fits {cols : Nat} {line : List α}
    (hfits : line.length ≤ cols) : chunks cols line = [line] := by
  rw [chunks, if_neg]
  omega

theorem chunks_of_long {cols : Nat} {line : List α} (hcols : 0 < cols)
    (hlong : cols < line.length) :
    chunks cols line = line.take cols :: chunks cols (line.drop cols) := by
  rw [chunks, if_pos ⟨hcols, hlong⟩]

theorem chunks_ne_nil (cols : Nat) (line : List α) :
    chunks cols line ≠ [] := by
  rw [chunks]
  split
  · exact List.cons_ne_nil _ _
  · exact List.cons_ne_nil _ _

/-- A last element goes behind the last piece, if it fits there. -/
theorem chunks_append {cols : Nat} (hcols : 0 < cols) {line last : List α}
    {pieces : List (List α)} (hline : chunks cols line = pieces ++ [last])
    (c : α) :
    chunks cols (line ++ [c]) =
      if last.length < cols then pieces ++ [last ++ [c]]
      else pieces ++ [last, [c]] := by
  fun_induction chunks cols line generalizing pieces with
  | case1 line hlong ih =>
      obtain ⟨-, hlong⟩ := hlong
      have hlength : cols < (line ++ [c]).length := by
        rw [List.length_append]
        omega
      have hle : cols ≤ line.length := Nat.le_of_lt hlong
      rw [chunks_of_long hcols hlength, List.take_append_of_le_length hle,
        List.drop_append_of_le_length hle]
      cases pieces with
      | nil =>
          exact absurd (List.cons.inj hline).2 (chunks_ne_nil _ _)
      | cons piece pieces =>
          obtain ⟨hpiece, hrest⟩ := List.cons.inj hline
          rw [ih hrest, ← hpiece]
          split
          · rfl
          · rfl
  | case2 line hshort =>
      have hfits : line.length ≤ cols := by omega
      obtain ⟨rfl, hlast⟩ : pieces = [] ∧ line = last := by
        cases pieces with
        | nil => exact ⟨rfl, (List.cons.inj hline).1⟩
        | cons piece pieces =>
            exact absurd (List.cons.inj hline).2.symm (by simp)
      subst hlast
      split
      next hroom =>
        apply chunks_of_fits
        rw [List.length_append, List.length_singleton]
        exact hroom
      next hfull =>
        have hlength : line.length = cols := by omega
        have hlong : cols < (line ++ [c]).length := by
          rw [List.length_append, List.length_singleton]
          omega
        rw [chunks_of_long hcols hlong, List.take_left' hlength,
          List.drop_left' hlength, chunks_of_fits hcols]
        rfl

variable [BEq α]

/-- Without columns there are no lines. -/
def wrapped (newline : α) (cols : Nat) (text : List α) : List (List α) :=
  if cols = 0 then [] else (text.splitOn newline).flatMap (chunks cols)

variable {newline c : α} {cols : Nat} {text last : List α}
  {lines : List (List α)}

theorem wrapped_nil (newline : α) (hcols : 0 < cols) :
    wrapped newline cols [] = [] ++ [[]] := by
  rw [wrapped, if_neg (by omega), List.splitOn_nil, List.flatMap_singleton,
    chunks_of_fits (Nat.zero_le _)]
  rfl

variable [LawfulBEq α]

theorem splitOn_append_newline (newline : α) (text : List α) :
    (text ++ [newline]).splitOn newline = text.splitOn newline ++ [[]] := by
  rw [List.splitOn_eq_splitOnP, List.splitOn_eq_splitOnP,
    @List.splitOnP_append_cons _ (· == newline) text [] newline BEq.rfl,
    List.splitOnP_nil]

theorem splitOn_append_other (hc : c ≠ newline)
    (htext : text.splitOn newline = lines ++ [last]) :
    (text ++ [c]).splitOn newline = lines ++ [last ++ [c]] := by
  induction text generalizing lines last with
  | nil =>
      obtain ⟨rfl, rfl⟩ : lines = [] ∧ last = [] := by
        cases lines with
        | nil => exact ⟨rfl, (List.cons.inj htext).1.symm⟩
        | cons line lines =>
            exact absurd (List.cons.inj htext).2.symm (by simp)
      rw [List.nil_append, List.splitOn_cons_eq_if_modifyHead,
        if_neg (by simpa using hc)]
      rfl
  | cons d text ih =>
      rw [List.splitOn_cons_eq_if_modifyHead] at htext
      rw [List.cons_append, List.splitOn_cons_eq_if_modifyHead]
      split at htext
      next hd =>
        rw [if_pos hd]
        cases lines with
        | nil =>
            exact absurd (List.cons.inj htext).2 (List.splitOn_ne_nil _ _)
        | cons line lines =>
            obtain ⟨rfl, hrest⟩ := List.cons.inj htext
            rw [ih hrest]
            rfl
      next hd =>
        rw [if_neg hd]
        -- the first line of the rest has one more element in front
        obtain ⟨front, rest, hsplit⟩ : ∃ front rest,
            text.splitOn newline = front ++ [rest] :=
          ⟨_, _, (List.dropLast_append_getLast
            (List.splitOn_ne_nil _ _)).symm⟩
        rw [hsplit] at htext
        rw [ih hsplit]
        cases front with
        | nil =>
            change [] ++ [d :: rest] = _ at htext
            obtain ⟨rfl, hlast⟩ := List.append_inj' htext rfl
            rw [← (List.cons.inj hlast).1]
            rfl
        | cons first front =>
            change ((d :: first) :: front) ++ [rest] = _ at htext
            obtain ⟨rfl, hlast⟩ := List.append_inj' htext rfl
            rw [← (List.cons.inj hlast).1]
            rfl

section Append

variable (hcols : 0 < cols)
  (htext : wrapped newline cols text = lines ++ [last])

include hcols htext

theorem wrapped_append_newline :
    wrapped newline cols (text ++ [newline]) = lines ++ [last] ++ [[]] := by
  rw [wrapped, if_neg (by omega)] at htext
  rw [wrapped, if_neg (by omega), splitOn_append_newline, List.flatMap_append,
    htext, List.flatMap_singleton, chunks_of_fits (Nat.zero_le _)]

theorem wrapped_append_other (hc : c ≠ newline) :
    wrapped newline cols (text ++ [c]) =
      if last.length < cols then lines ++ [last ++ [c]]
      else lines ++ [last] ++ [[c]] := by
  obtain ⟨front, rest, hsplit⟩ : ∃ front rest,
      text.splitOn newline = front ++ [rest] :=
    ⟨_, _, (List.dropLast_append_getLast (List.splitOn_ne_nil _ _)).symm⟩
  obtain ⟨pieces, piece, hpieces⟩ : ∃ pieces piece,
      chunks cols rest = pieces ++ [piece] :=
    ⟨_, _, (List.dropLast_append_getLast (chunks_ne_nil _ _)).symm⟩
  rw [wrapped, if_neg (by omega), hsplit, List.flatMap_append,
    List.flatMap_singleton, hpieces, ← List.append_assoc] at htext
  obtain ⟨rfl, hlast⟩ := List.append_inj' htext rfl
  obtain ⟨rfl, -⟩ := List.cons.inj hlast
  rw [wrapped, if_neg (by omega), splitOn_append_other hc hsplit,
    List.flatMap_append, List.flatMap_singleton,
    chunks_append hcols hpieces]
  split
  · simp
  · simp

end Append

end WrappedText

end MetaOS
