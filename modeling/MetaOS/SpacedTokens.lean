/-
Texts that are tokens with blanks in front of each of them and behind the
last.  What a scanner takes off the head of a text is stated as `Takes`: the
tokens that it has taken may stand in front of whatever the rest may be.
-/
import Mathlib.Tactic
import Mathlib.Data.List.TakeWhile

namespace MetaOS

namespace Tokens

variable {α : Type} {blank : α → Bool}

inductive Spaced (blank : α → Bool) : List (List α) → List α → Prop
  | blanks {rest : List α} (hblank : ∀ c ∈ rest, blank c = true) :
      Spaced blank [] rest
  | token {before token rest : List α} {tokens : List (List α)}
      (hblank : ∀ c ∈ before, blank c = true)
      (hrest : Spaced blank tokens rest) :
      Spaced blank (token :: tokens) (before ++ (token ++ rest))

/-- The tokens stand at the head of the text, and `rest` is behind them. -/
def Takes (blank : α → Bool) (taken : List (List α)) (text rest : List α) :
    Prop :=
  ∀ tokens, Spaced blank tokens rest → Spaced blank (taken ++ tokens) text

theorem Takes.nil (text : List α) : Takes blank [] text text :=
  fun _ hrest => hrest

theorem Takes.append {first second : List (List α)}
    {text between rest : List α} (hfirst : Takes blank first text between)
    (hsecond : Takes blank second between rest) :
    Takes blank (first ++ second) text rest := by
  intro tokens hrest
  rw [List.append_assoc]
  exact hfirst _ (hsecond _ hrest)

/-- A token behind the blanks at the head of a text. -/
theorem Takes.token {text token rest : List α}
    (htext : text.dropWhile blank = token ++ rest) :
    Takes blank [token] text rest := by
  intro tokens hrest
  rw [← List.takeWhile_append_dropWhile (p := blank) (l := text), htext]
  exact .token (fun c hc => List.mem_takeWhile_imp hc) hrest

/-- Blanks may be passed over. -/
theorem Takes.skip (text : List α) :
    Takes blank [] text (text.dropWhile blank) := by
  intro tokens hrest
  generalize htail : text.dropWhile blank = tail at hrest
  have hhead : ∀ c ∈ text.takeWhile blank, blank c = true :=
    fun c hc => List.mem_takeWhile_imp hc
  rw [← List.takeWhile_append_dropWhile (p := blank) (l := text), htail]
  cases hrest with
  | blanks hblank =>
      refine .blanks fun c hc => ?_
      rcases List.mem_append.mp hc with hbefore | hbehind
      · exact hhead c hbefore
      · exact hblank c hbehind
  | token hblank hrest =>
      rw [← List.append_assoc]
      refine .token (fun c hc => ?_) hrest
      rcases List.mem_append.mp hc with hbefore | hbehind
      · exact hhead c hbefore
      · exact hblank c hbehind

/-- Behind the blanks stands the first token, unless it starts with one. -/
theorem Spaced.dropWhile {token : List α} {tokens : List (List α)}
    {text : List α} (htext : Spaced blank (token :: tokens) text)
    (hhead : ∃ c ∈ token.head?, blank c = false) :
    ∃ rest, text.dropWhile blank = token ++ rest ∧
      Spaced blank tokens rest := by
  cases htext with
  | token hblank hrest =>
      obtain ⟨c, hc, hkept⟩ := hhead
      obtain ⟨body, rfl⟩ : ∃ body, token = c :: body :=
        ⟨token.tail, List.eq_cons_of_mem_head? hc⟩
      refine ⟨_, ?_, hrest⟩
      rw [List.dropWhile_append_of_pos hblank, List.cons_append,
        List.dropWhile_cons_of_neg (by simp [hkept])]

theorem Spaced.dropWhile_nil {text : List α} (htext : Spaced blank [] text) :
    text.dropWhile blank = [] := by
  cases htext with
  | blanks hblank => exact List.dropWhile_eq_nil_iff.mpr hblank

/-- A text goes on with a blank or with its first token. -/
theorem Spaced.head {tokens : List (List α)} {text : List α}
    (htext : Spaced blank tokens text) {token : List α}
    (hfirst : tokens.head? = some token) (hsome : token ≠ []) :
    ∀ c ∈ text.head?, blank c = true ∨ c ∈ token.head? := by
  cases htext with
  | blanks => cases hfirst
  | token hblank hrest =>
      rename_i before found rest tokens
      cases hfirst
      intro c hc
      cases before with
      | nil =>
          cases token with
          | nil => exact absurd rfl hsome
          | cons d body => exact .inr hc
      | cons d before =>
          cases hc
          exact .inl (hblank c List.mem_cons_self)

/-- Tokens may be read in another way behind others. -/
theorem Spaced.mono {before tokens tokens' : List (List α)} {text : List α}
    (hmono : ∀ rest, Spaced blank tokens rest → Spaced blank tokens' rest)
    (htext : Spaced blank (before ++ tokens) text) :
    Spaced blank (before ++ tokens') text := by
  induction before generalizing text with
  | nil => exact hmono text htext
  | cons token before ih =>
      cases htext with
      | token hblank hrest => exact .token hblank (ih hrest)

/-- Two tokens may also stand next to each other. -/
theorem Spaced.split {before after : List (List α)}
    {first second text : List α}
    (htext : Spaced blank (before ++ (first ++ second) :: after) text) :
    Spaced blank (before ++ first :: second :: after) text := by
  induction before generalizing text with
  | nil =>
      cases htext with
      | token hblank hrest =>
          rw [List.append_assoc]
          refine .token hblank ?_
          exact @Spaced.token _ _ [] _ _ _ (by simp) hrest
  | cons token before ih =>
      cases htext with
      | token hblank hrest => exact .token hblank (ih hrest)

theorem Spaced.mem {tokens : List (List α)} {text : List α}
    (htext : Spaced blank tokens text) {c : α} (hc : c ∈ text) :
    blank c = true ∨ ∃ token ∈ tokens, c ∈ token := by
  induction htext with
  | blanks hblank => exact .inl (hblank c hc)
  | token hblank hrest ih =>
      rcases List.mem_append.mp hc with hbefore | hbehind
      · exact .inl (hblank c hbefore)
      · rcases List.mem_append.mp hbehind with htoken | hrest
        · exact .inr ⟨_, List.mem_cons_self, htoken⟩
        · rcases ih hrest with hblank | ⟨token, hmem, htoken⟩
          · exact .inl hblank
          · exact .inr ⟨token, List.mem_cons_of_mem _ hmem, htoken⟩

theorem Spaced.length_le {tokens : List (List α)} {text : List α}
    (htext : Spaced blank tokens text) :
    tokens.flatten.length ≤ text.length := by
  induction htext with
  | blanks hblank => exact Nat.zero_le _
  | token hblank hrest ih =>
      simp only [List.flatten_cons, List.length_append] at ih ⊢
      omega

theorem spaced_flatten (tokens : List (List α)) :
    Spaced blank tokens tokens.flatten := by
  induction tokens with
  | nil => exact .blanks (by simp)
  | cons token tokens ih => exact @Spaced.token _ _ [] _ _ _ (by simp) ih

/-- Only blanks stand behind the last token. -/
theorem Spaced.last {tokens : List (List α)} {token text : List α}
    (htext : Spaced blank (tokens ++ [token]) text) :
    ∃ front behind, text = front ++ (token ++ behind) ∧
      ∀ c ∈ behind, blank c = true := by
  induction tokens generalizing text with
  | nil =>
      cases htext with
      | token hblank hrest =>
          cases hrest with
          | blanks hbehind => exact ⟨_, _, rfl, hbehind⟩
  | cons first tokens ih =>
      cases htext with
      | token hblank hrest =>
          rename_i before rest
          obtain ⟨front, behind, rfl, hbehind⟩ := ih hrest
          refine ⟨before ++ (first ++ front), behind, ?_, hbehind⟩
          simp only [List.append_assoc]

end Tokens

end MetaOS
