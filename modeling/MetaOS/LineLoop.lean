/-
Loops over the lines of a text.  Each round looks at the text from the start
of a line on and then goes behind the end of that line.
-/
import Mathlib.Data.List.TakeWhile
import Mathlib.Tactic

namespace MetaOS

namespace Lines

section Loop

variable {α σ ι : Type}

/-- The beginning of a list of lines: whole lines and a part of the next. -/
theorem take_items (render : ι → List α) (items : List ι) (n : Nat) :
    ∃ whole part, whole <+: items ∧
      (items.flatMap render).take n = whole.flatMap render ++ part ∧
      (part = [] ∨ ∃ item, whole ++ [item] <+: items ∧
        part <+: render item ∧ part ≠ render item) := by
  induction items generalizing n with
  | nil => exact ⟨[], [], List.nil_prefix, by simp, .inl rfl⟩
  | cons item items ih =>
      by_cases hwhole : (render item).length ≤ n
      · obtain ⟨whole, part, hbegins, htake, hpart⟩ :=
          ih (n - (render item).length)
        refine ⟨item :: whole, part, ?_, ?_, ?_⟩
        · exact List.cons_prefix_cons.mpr ⟨rfl, hbegins⟩
        · rw [List.flatMap_cons, List.flatMap_cons, List.take_append,
            List.take_of_length_le hwhole, htake, List.append_assoc]
        · rcases hpart with hnil | ⟨next, hnext, hbegins, hne⟩
          · exact .inl hnil
          · exact .inr ⟨next, List.cons_prefix_cons.mpr ⟨rfl, hnext⟩, hbegins,
              hne⟩
      · rw [not_le] at hwhole
        refine ⟨[], (render item).take n, List.nil_prefix, ?_, .inr ⟨item,
          ⟨items, rfl⟩, List.take_prefix _ _, fun heq => ?_⟩⟩
        · rw [List.flatMap_cons, List.take_append_of_le_length hwhole.le]
          rfl
        · have hlength := congrArg List.length heq
          rw [List.length_take] at hlength
          omega

/-- A proper part of a line from its start on does not hold the end. -/
theorem not_mem_part {lineEnd : α} {line part : List α}
    (hline : lineEnd ∉ line)
    (hbegins : part <+: line ++ [lineEnd])
    (hne : part ≠ line ++ [lineEnd]) : lineEnd ∉ part := by
  have hpart : part <+: line := by
    rcases List.prefix_concat_iff.mp hbegins with heq | hpart
    · exact absurd heq hne
    · exact hpart
  exact fun hmem => hline (hpart.subset hmem)

variable [DecidableEq α]

/-- Go behind the end of the line. -/
def eatLine (lineEnd : α) (text : List α) : List α :=
  (text.dropWhile fun c => decide (c ≠ lineEnd)).tail

theorem length_eatLine_lt (lineEnd c : α) (text : List α) :
    (eatLine lineEnd (c :: text)).length < (c :: text).length := by
  have hle : ∀ rest : List α, (eatLine lineEnd rest).length ≤ rest.length :=
    fun rest => (List.tail_sublist _).length_le.trans
      (List.dropWhile_sublist _).length_le
  by_cases hend : c = lineEnd
  · rw [eatLine, List.dropWhile_cons_of_neg (by simpa using hend)]
    exact Nat.lt_succ_self _
  · have hskip : eatLine lineEnd (c :: text) = eatLine lineEnd text := by
      rw [eatLine, List.dropWhile_cons_of_pos (by simpa using hend)]
      rfl
    rw [hskip]
    exact Nat.lt_succ_of_le (hle text)

/-- Do `step` at the start of each line, until the text is used up or a step
has no outcome. -/
def eachLine (lineEnd : α) (step : σ → List α → Option σ) (s : σ) :
    List α → Option σ
  | [] => some s
  | c :: text =>
      (step s (c :: text)).bind fun s =>
        eachLine lineEnd step s (eatLine lineEnd (c :: text))
termination_by text => text.length
decreasing_by exact length_eatLine_lt lineEnd c text

variable {lineEnd : α} {step : σ → List α → Option σ} {s : σ}

/-- The loop keeps a relation between two states that each step keeps. -/
theorem eachLine_rel (r : σ → σ → Prop) {s' final final' : σ}
    {text : List α} (hfinal : eachLine lineEnd step s text = some final)
    (hfinal' : eachLine lineEnd step s' text = some final') (hr : r s s')
    (hstep : ∀ {s s' text next next'}, r s s' → step s text = some next →
      step s' text = some next' → r next next') : r final final' := by
  fun_induction eachLine lineEnd step s text generalizing s' with
  | case1 s =>
      rw [eachLine] at hfinal'
      cases hfinal
      cases hfinal'
      exact hr
  | case2 s c text ih =>
      rw [eachLine] at hfinal'
      obtain ⟨next, hnext, hfinal⟩ := Option.bind_eq_some_iff.mp hfinal
      obtain ⟨next', hnext', hfinal'⟩ := Option.bind_eq_some_iff.mp hfinal'
      exact ih next hfinal hfinal' (hstep hr hnext hnext')

theorem eatLine_line {line : List α} (hline : lineEnd ∉ line)
    (text : List α) : eatLine lineEnd (line ++ lineEnd :: text) = text := by
  rw [eatLine, List.dropWhile_append_of_pos, List.dropWhile_cons_of_neg]
  · rfl
  · simp
  · intro c hc
    exact decide_eq_true fun heq => hline (heq ▸ hc)

theorem eatLine_tail {line : List α} (hline : lineEnd ∉ line) :
    eatLine lineEnd line = [] := by
  have hall : line.dropWhile (fun c => decide (c ≠ lineEnd)) = [] :=
    List.dropWhile_eq_nil_iff.mpr fun c hc =>
      decide_eq_true fun heq => hline (heq ▸ hc)
  rw [eatLine, hall]
  rfl

/-- The loop at a whole line. -/
theorem eachLine_line {line : List α} (hline : lineEnd ∉ line)
    (text : List α) :
    eachLine lineEnd step s (line ++ lineEnd :: text) =
      (step s (line ++ lineEnd :: text)).bind fun s =>
        eachLine lineEnd step s text := by
  have hrest := eatLine_line hline text
  cases line with
  | nil =>
      rw [List.nil_append] at hrest ⊢
      rw [eachLine, hrest]
  | cons c line =>
      rw [List.cons_append] at hrest ⊢
      rw [eachLine, hrest]

/-- The loop at a line that has no end. -/
theorem eachLine_tail {line : List α} (hline : lineEnd ∉ line)
    (hne : line ≠ []) :
    eachLine lineEnd step s line = step s line := by
  obtain ⟨c, rest, rfl⟩ := List.exists_cons_of_ne_nil hne
  rw [eachLine, eatLine_tail hline]
  cases step s (c :: rest) with
  | none => rfl
  | some s' => rw [Option.bind_some, eachLine]

variable {render : ι → List α} {add : σ → ι → Option σ}

/-- Where a step at the line of an item adds the item, the loop over the lines
of a list of items adds them in turn. -/
theorem eachLine_items {items : List ι}
    (hlines : ∀ item ∈ items, ∃ line, lineEnd ∉ line ∧
      render item = line ++ [lineEnd])
    (hstep : ∀ item ∈ items, ∀ s text,
      step s (render item ++ text) = add s item)
    (s : σ) (tail : List α) :
    eachLine lineEnd step s (items.flatMap render ++ tail) =
      (items.foldlM add s).bind fun s => eachLine lineEnd step s tail := by
  induction items generalizing s with
  | nil => rfl
  | cons item items ih =>
      obtain ⟨line, hline, hrender⟩ := hlines item List.mem_cons_self
      have hfirst := hstep item List.mem_cons_self s
        (items.flatMap render ++ tail)
      rw [List.flatMap_cons, List.append_assoc]
      rw [hrender, List.append_assoc, List.singleton_append] at hfirst ⊢
      rw [eachLine_line hline, hfirst, List.foldlM_cons]
      change _ = (Option.bind (add s item) fun s => items.foldlM add s).bind _
      rw [Option.bind_assoc]
      congr 1
      funext s
      exact ih (fun item hitem => hlines item (List.mem_cons_of_mem _ hitem))
        (fun item hitem => hstep item (List.mem_cons_of_mem _ hitem)) s

end Loop

end Lines

end MetaOS
