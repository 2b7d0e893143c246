/-
bootable/recovery/edify/lexer.l: a script is read piece by piece.

No rule looks behind what it matches, so a part of a script that begins and
ends with a token is read by itself as it is read in the script, and the
positions that the rules keep are those of the pieces.
-/
import MetaOS.EdifyPrinter

namespace MetaOS

namespace Edify

open CString

section Matching

variable {a b : Bytes}

theorem length_takeWhile_append {p : UInt8 → Bool}
    (hle : ((a ++ b).takeWhile p).length ≤ a.length) :
    ((a ++ b).takeWhile p).length = (a.takeWhile p).length := by
  rw [List.takeWhile_append] at hle ⊢
  split
  next hall =>
    rw [if_pos hall, List.length_append] at hle
    rw [List.length_append]
    omega
  next => rfl

theorem length_noComment {c : UInt8} (hc : c ≠ 35) (input : Bytes) :
    Rule.lineEnd.length (c :: input) = if c = 10 then 1 else 0 := by
  simp [Rule.length, hc]

/-- A comment, with the end of its line. -/
def commentLength (input : Bytes) : Nat :=
  if input[(input.takeWhile (· != 10)).length]? = some 10 then
    (input.takeWhile (· != 10)).length + 1
  else 0

theorem length_comment (input : Bytes) :
    Rule.lineEnd.length (35 :: input) = commentLength (35 :: input) := rfl

theorem commentLength_append (hle : commentLength (a ++ b) ≤ a.length) :
    commentLength a = commentLength (a ++ b) := by
  unfold commentLength at *
  rw [List.takeWhile_append] at *
  split at hle
  next hall =>
    rw [if_pos hall, hall, List.getElem?_eq_none le_rfl, if_neg (by simp)]
    split
    next hend =>
      rw [if_pos hend, List.length_append] at hle
      omega
    next => rfl
  next hall =>
    have hlt : (a.takeWhile (· != 10)).length < a.length :=
      lt_of_le_of_ne ((List.takeWhile_prefix _).length_le) hall
    rw [if_neg hall, List.getElem?_append_left hlt]

/-- What a rule matches does not change with what is behind it. -/
theorem Rule.length_append (rule : Rule)
    (hle : rule.length (a ++ b) ≤ a.length) :
    rule.length a = rule.length (a ++ b) := by
  cases rule with
  | quote | punctuation | other =>
      cases a with
      | nil => exact (Nat.le_zero.mp hle).symm
      | cons c a => rfl
  | fixed text token =>
      simp only [Rule.length] at hle ⊢
      by_cases hfirst : text <+: a
      · rw [if_pos hfirst, if_pos (hfirst.trans (List.prefix_append a b))]
      · rw [if_neg hfirst]
        split
        next hmatch =>
          rw [if_pos hmatch] at hle
          exact absurd (List.prefix_of_prefix_length_le hmatch
            (List.prefix_append a b) hle) hfirst
        next => rfl
  | word | blanks => exact (length_takeWhile_append hle).symm
  | lineEnd =>
      cases a with
      | nil => exact (Nat.le_zero.mp hle).symm
      | cons c a =>
          by_cases hc : c = 35
          · subst hc
            rw [List.cons_append, length_comment] at hle ⊢
            exact commentLength_append hle
          · rw [length_noComment hc, List.cons_append, length_noComment hc]

theorem length_le_longest (input : Bytes) (rs : List Rule) :
    ∀ r ∈ rs, r.length input ≤ ((longest input rs).map Prod.snd).getD 0 := by
  induction rs with
  | nil => simp
  | cons first rs ih =>
      intro r hr
      rw [longest]
      cases hrest : longest input rs with
      | none =>
          simp only [hrest, Option.map_none, Option.getD_none] at ih
          dsimp only
          obtain rfl | hr := List.mem_cons.mp hr
          · split
            · exact le_rfl
            · exact Nat.le_of_not_lt ‹_›
          · have hzero := ih r hr
            omega
      | some best =>
          simp only [hrest, Option.map_some, Option.getD_some] at ih
          dsimp only
          obtain rfl | hr := List.mem_cons.mp hr
          · split
            · exact le_rfl
            · exact (Nat.lt_of_not_le ‹_›).le
          · have hle := ih r hr
            split
            · exact le_trans hle ‹_›
            · exact hle

theorem longest_congr {input input' : Bytes} {rs : List Rule}
    (heq : ∀ r ∈ rs, r.length input = r.length input') :
    longest input rs = longest input' rs := by
  induction rs with
  | nil => rfl
  | cons first rs ih =>
      rw [longest, longest, ih fun r hr => heq r (List.mem_cons_of_mem _ hr),
        heq first (List.mem_cons_self ..)]

theorem longest_append {best : Rule} {len : Nat}
    (hlongest : longest (a ++ b) rules = some (best, len))
    (hle : len ≤ a.length) : longest a rules = some (best, len) := by
  rw [← hlongest]
  apply longest_congr
  intro r hr
  have hlongest_le := length_le_longest (a ++ b) rules r hr
  rw [hlongest] at hlongest_le
  exact r.length_append (le_trans hlongest_le hle)

theorem pos_of_longest {input : Bytes} {rs : List Rule} {best : Rule}
    {len : Nat} (hlongest : longest input rs = some (best, len)) :
    0 < len := by
  induction rs generalizing best len with
  | nil => cases hlongest
  | cons first rs ih =>
      rw [longest] at hlongest
      split at hlongest
      next =>
        split at hlongest
        next hpos =>
          cases hlongest
          exact hpos
        next => cases hlongest
      next hbest =>
        have hpos := ih hbest
        split at hlongest
        next hle =>
          cases hlongest
          exact lt_of_lt_of_le hpos hle
        next =>
          cases hlongest
          exact hpos

theorem Rule.length_le (rule : Rule) (input : Bytes) :
    rule.length input ≤ input.length := by
  cases rule with
  | quote | punctuation | other =>
      cases input with
      | nil => exact le_rfl
      | cons c input =>
          simp only [Rule.length, List.length_cons]
          split <;> omega
  | fixed text token =>
      simp only [Rule.length]
      split
      next hmatch => exact hmatch.length_le
      next => exact Nat.zero_le _
  | word | blanks => exact (List.takeWhile_prefix _).length_le
  | lineEnd =>
      dsimp only [Rule.length]
      generalize (if input.head? = some 35 then input.takeWhile (· != 10)
        else []) = comment
      split
      next hend => exact (List.getElem?_eq_some_iff.mp hend).1
      next => exact Nat.zero_le _

theorem length_le_of_longest {input : Bytes} {rs : List Rule} {best : Rule}
    {len : Nat} (hlongest : longest input rs = some (best, len)) :
    len ≤ input.length := by
  obtain ⟨_, rfl⟩ := mem_of_longest hlongest
  exact best.length_le input

end Matching

section Quoted

open lexString

/-- What is behind a backslash makes an escape of it. -/
def escapes : Bytes → Bool
  | 110 :: _ | 116 :: _ | 34 :: _ | 92 :: _ => true
  | 120 :: a :: b :: _ => (hexDigit? a).isSome && (hexDigit? b).isSome
  | _ => false

theorem lexString_plain {input : Bytes} (hplain : escapes input = false) :
    lexString (92 :: input) = stored 92 1 (lexString input) := by
  unfold escapes at hplain
  split at hplain
  · cases hplain
  · cases hplain
  · cases hplain
  · cases hplain
  · rw [lexString]
    split
    · simp_all
    · rfl
  · rw [lexString] <;> simp_all

/-- A quote is no part of an escape that `\x` begins. -/
theorem escapes_append {body rest : Bytes}
    (hplain : escapes (body ++ 34 :: rest) = false) (rest' : Bytes) :
    escapes (body ++ 34 :: rest') = false := by
  have hquote : hexDigit? 34 = none := by decide
  rcases body with _ | ⟨c, body⟩
  · cases hplain
  · by_cases hc : c = 120
    · subst hc
      rcases body with _ | ⟨a, _ | ⟨b, body⟩⟩
      · cases rest' <;> simp [escapes, hquote]
      · simp [escapes, hquote]
      · exact hplain
    · simp only [List.cons_append] at hplain ⊢
      unfold escapes at hplain ⊢
      split at hplain <;> simp_all

variable {input text rest : Bytes} {count : Nat}

/-- The text ends at a quote, whatever is behind it. -/
def Quoted (text : Bytes) (count : Nat) (rest input : Bytes) : Prop :=
  ∃ body, input = body ++ 34 :: rest ∧ body.length + 1 = count ∧
    ∀ rest', lexString (body ++ 34 :: rest') = (text, count, some rest')

theorem quoted_of_stored {c : UInt8} (escape : Bytes)
    (ih : ∀ {text count}, lexString input = (text, count, some rest) →
      Quoted text count rest input)
    (hlex : stored c escape.length (lexString input) =
      (text, count, some rest))
    (hstored : ∀ body, input = body ++ 34 :: rest → ∀ rest',
      lexString (escape ++ (body ++ 34 :: rest')) =
        stored c escape.length (lexString (body ++ 34 :: rest'))) :
    Quoted text count rest (escape ++ input) := by
  rcases hread : lexString input with ⟨text', count', rest'⟩
  rw [hread] at hlex
  cases hlex
  obtain ⟨body, hinput, rfl, hbody⟩ := ih hread
  refine ⟨escape ++ body, ?_, ?_, fun rest' => ?_⟩
  · rw [hinput, List.append_assoc]
  · rw [List.length_append, Nat.add_assoc]
  · rw [List.append_assoc, hstored body hinput, hbody]
    rfl

theorem quoted_of_lexString
    (hlex : lexString input = (text, count, some rest)) :
    Quoted text count rest input := by
  fun_induction lexString input generalizing text count with
  | case1 => cases hlex
  | case2 input =>
      cases hlex
      exact ⟨[], rfl, rfl, fun _ => rfl⟩
  | case3 input ih =>
      exact quoted_of_stored [92, 110] ih hlex fun _ _ _ => rfl
  | case4 input ih =>
      exact quoted_of_stored [92, 116] ih hlex fun _ _ _ => rfl
  | case5 input ih =>
      exact quoted_of_stored [92, 34] ih hlex fun _ _ _ => rfl
  | case6 input ih =>
      exact quoted_of_stored [92, 92] ih hlex fun _ _ _ => rfl
  | case7 a b input high low hhigh hlow ih =>
      refine quoted_of_stored [92, 120, a, b] ih hlex fun body _ rest' => ?_
      simp only [List.cons_append, List.nil_append]
      rw [lexString, hhigh, hlow]
      rfl
  | case8 a b input hnone ih =>
      have hplain : escapes (120 :: a :: b :: input) = false := by
        cases hhigh : hexDigit? a <;> cases hlow : hexDigit? b <;>
          simp_all [escapes]
      refine quoted_of_stored [92] ih hlex fun body hinput rest' => ?_
      rw [hinput] at hplain
      exact lexString_plain (escapes_append hplain rest')
  | case9 c input hquote hn ht hq hb hx ih =>
      refine quoted_of_stored [c] ih hlex fun body hinput rest' => ?_
      by_cases hc : c = 92
      · subst hc
        have hplain : escapes input = false := by
          clear hinput
          unfold escapes
          split <;> simp_all
        rw [hinput] at hplain
        exact lexString_plain (escapes_append hplain rest')
      · exact lexString_cons hquote hc _

end Quoted

section Pieces

/-- Whatever part of `rest` is behind it, the text is read as the token, or is
passed over. -/
structure Piece (text : Bytes) (token : Option Token) (rest : Bytes) :
    Prop where
  ne_nil : text ≠ []
  next_eq : ∀ rest', rest' <+: rest → ∀ pos loc, ∃ loc',
    next pos loc (text ++ rest') =
      .go (token.map fun t => ⟨t, pos, pos + text.length⟩)
        (pos + text.length) loc' rest'

theorem action_eq {rule : Rule} (hquote : rule ≠ .quote)
    (hother : rule ≠ .other) (text rest : Bytes) (pos : Nat) (loc : YYLTYPE) :
    ∃ loc', rule.action pos loc (text ++ rest) text.length =
      .go ((rule.token? text).map fun t => ⟨t, pos, pos + text.length⟩)
        (pos + text.length) loc' rest := by
  cases rule with
  | quote => exact absurd rfl hquote
  | other => exact absurd rfl hother
  | fixed | word | punctuation | blanks | lineEnd =>
      simp only [Rule.action, Rule.token?, List.take_left', List.drop_left',
        Option.map_none]
      exact ⟨_, rfl⟩

/-- What a rule matches is a piece, if it is no quote and has a rule of its
own. -/
theorem piece_of_longest {text rest : Bytes} {rule : Rule}
    (hlongest : longest (text ++ rest) rules = some (rule, text.length))
    (hquote : rule ≠ .quote) (hother : rule ≠ .other) :
    Piece text (rule.token? text) rest where
  ne_nil := List.length_pos_iff.mp (pos_of_longest hlongest)
  next_eq := by
    rintro rest' ⟨more, rfl⟩ pos loc
    rw [← List.append_assoc] at hlongest
    rw [next_of_longest (longest_append hlongest (by simp))]
    exact action_eq hquote hother text rest' pos loc

/-- A string with its quotes is a piece. -/
theorem piece_of_lexString {text rest input : Bytes} {count : Nat}
    (hlex : lexString input = (text, count, some rest))
    (hmax : text.length < MAX_STRING_LEN)
    (hlongest : longest (34 :: input) rules = some (.quote, 1)) :
    ∃ piece, 34 :: input = piece ++ rest ∧ piece.length = 1 + count ∧
      Piece piece (some (.STRING (cstr text))) rest := by
  obtain ⟨body, rfl, rfl, hbody⟩ := quoted_of_lexString hlex
  refine ⟨34 :: (body ++ [34]), by simp, by simp; omega, by simp, ?_⟩
  rintro rest' ⟨more, rfl⟩ pos loc
  have hsplit : 34 :: (body ++ 34 :: (rest' ++ more)) =
      (34 :: (body ++ [34]) ++ rest') ++ more := by
    simp
  rw [hsplit] at hlongest
  have hread := longest_append hlongest (by simp)
  refine ⟨⟨pos, pos + 1 + (body.length + 1)⟩, ?_⟩
  rw [next_of_longest hread]
  simp only [Rule.action, List.cons_append, List.drop_succ_cons,
    List.drop_zero, List.append_assoc, List.nil_append, lexQuoted, hbody,
    if_pos hmax]
  simp [Nat.add_comm, Nat.add_left_comm]

theorem quote_of_longest {input : Bytes} {len : Nat}
    (hlongest : longest input rules = some (.quote, len)) :
    ∃ rest, input = 34 :: rest := by
  have hpos := pos_of_longest hlongest
  rw [(mem_of_longest hlongest).2, Rule.length] at hpos
  cases input with
  | nil => simp at hpos
  | cons c input =>
      simp only [List.head?_cons, Option.some.injEq] at hpos
      split at hpos
      next hc => exact ⟨input, by rw [hc]⟩
      next => cases hpos

theorem piece_of_next {pos pos' : Nat} {loc loc' : YYLTYPE}
    {input rest : Bytes} {lexeme : Option Lexeme}
    (hnext : next pos loc input = .go lexeme pos' loc' rest)
    (hbad : ∀ l ∈ lexeme, l.token ≠ .BAD) :
    ∃ text token, input = text ++ rest ∧ Piece text token rest ∧
      pos' = pos + text.length ∧
      lexeme = token.map fun t => ⟨t, pos, pos + text.length⟩ := by
  cases hlongest : longest input rules with
  | none =>
      have hdone : next pos loc input = .done := by
        unfold next
        rw [hlongest]
      rw [hdone] at hnext
      cases hnext
  | some best =>
      obtain ⟨rule, len⟩ := best
      rw [next_of_longest hlongest] at hnext
      by_cases hother : rule = .other
      · subst hother
        cases hnext
        exact absurd rfl (hbad _ rfl)
      by_cases hquote : rule = .quote
      · subst hquote
        obtain ⟨input, rfl⟩ := quote_of_longest hlongest
        obtain rfl : len = 1 := (mem_of_longest hlongest).2
        simp only [Rule.action, List.drop_succ_cons, List.drop_zero,
          lexQuoted] at hnext
        rcases hread : lexString input with ⟨text, count, _ | rest₀⟩
        · rw [hread] at hnext
          dsimp only at hnext
          split at hnext <;> cases hnext
        · rw [hread] at hnext
          dsimp only at hnext
          split at hnext
          next hmax =>
            cases hnext
            obtain ⟨piece, hinput, hlen, hpiece⟩ :=
              piece_of_lexString hread hmax hlongest
            refine ⟨piece, _, hinput, hpiece, ?_, ?_⟩
            · rw [hlen, Nat.add_assoc]
            · rw [hlen, ← Nat.add_assoc]
              rfl
          next => cases hnext
      · obtain ⟨text, rest₀, rfl, rfl⟩ :
            ∃ text rest₀, input = text ++ rest₀ ∧ text.length = len :=
          ⟨input.take len, input.drop len, (List.take_append_drop ..).symm,
            List.length_take_of_le (length_le_of_longest hlongest)⟩
        obtain ⟨loc₀, haction⟩ := action_eq hquote hother text rest₀ pos loc
        rw [haction] at hnext
        cases hnext
        exact ⟨text, _, rfl, piece_of_longest hlongest hquote hother, rfl,
          rfl⟩

/-- The text of some pieces, each with the token it is read as. -/
def flatten (pieces : List (Bytes × Option Token)) : Bytes :=
  pieces.flatMap Prod.fst

/-- The pieces are read one after the other in front of `tail`. -/
def Cuts : List (Bytes × Option Token) → Bytes → Prop
  | [], _ => True
  | (text, token) :: pieces, tail =>
      Piece text token (flatten pieces ++ tail) ∧ Cuts pieces tail

/-- The tokens of the pieces, where they stand. -/
def lexemes : Nat → List (Bytes × Option Token) → List Lexeme
  | _, [] => []
  | pos, (text, token) :: pieces =>
      (token.map fun t => ⟨t, pos, pos + text.length⟩).toList ++
        lexemes (pos + text.length) pieces

variable {pieces before behind : List (Bytes × Option Token)} {tail : Bytes}

theorem map_token_lexemes (pos pos' : Nat) :
    (lexemes pos pieces).map Lexeme.token =
      (lexemes pos' pieces).map Lexeme.token := by
  induction pieces generalizing pos pos' with
  | nil => rfl
  | cons piece pieces ih =>
      obtain ⟨text, token⟩ := piece
      rw [lexemes, lexemes, List.map_append, List.map_append,
        ih (pos + text.length) (pos' + text.length)]
      cases token <;> rfl

theorem cuts_append : Cuts (before ++ behind) tail ↔
    Cuts before (flatten behind ++ tail) ∧ Cuts behind tail := by
  induction before with
  | nil => simp [Cuts]
  | cons piece before ih =>
      obtain ⟨text, token⟩ := piece
      simp only [List.cons_append, Cuts, ih, flatten, List.flatMap_append,
        List.append_assoc, and_assoc]

/-- The pieces are read alike in front of less. -/
theorem Cuts.mono {tail' : Bytes} (hcuts : Cuts pieces tail)
    (htail : tail' <+: tail) : Cuts pieces tail' := by
  induction pieces with
  | nil => trivial
  | cons piece pieces ih =>
      obtain ⟨text, token⟩ := piece
      refine ⟨⟨hcuts.1.ne_nil, fun rest' hrest => ?_⟩, ih hcuts.2⟩
      exact hcuts.1.next_eq rest'
        (hrest.trans ((List.prefix_append_right_inj _).mpr htail))

theorem lex_flatten (hcuts : Cuts pieces []) :
    ∀ fuel pos loc, (flatten pieces).length < fuel →
      lex fuel pos loc (flatten pieces) = some (lexemes pos pieces) := by
  induction pieces with
  | nil =>
      rintro (_ | fuel) pos loc hfuel
      · omega
      · rfl
  | cons piece pieces ih =>
      obtain ⟨text, token⟩ := piece
      rintro (_ | fuel) pos loc hfuel
      · omega
      · obtain ⟨hpiece, hrest⟩ := hcuts
        rw [List.append_nil] at hpiece
        obtain ⟨loc', hnext⟩ := hpiece.next_eq _ List.prefix_rfl pos loc
        have hpos := List.length_pos_iff.mpr hpiece.ne_nil
        have htext : flatten ((text, token) :: pieces) =
          text ++ flatten pieces := rfl
        rw [htext, List.length_append] at hfuel
        rw [htext, lex_of_go hnext, ih hrest _ _ _ (by omega)]
        rfl

/-- A script without a character that belongs to no token is pieces, and
perhaps a string that has no end. -/
theorem exists_pieces {fuel pos : Nat} {loc : YYLTYPE} {input : Bytes}
    {w : List Lexeme} (hlex : lex fuel pos loc input = some w)
    (hbad : ∀ l ∈ w, l.token ≠ .BAD) :
    ∃ pieces tail, input = flatten pieces ++ tail ∧ Cuts pieces tail ∧
      w = lexemes pos pieces := by
  induction fuel generalizing pos loc input w with
  | zero =>
      cases hlex
      exact ⟨[], input, rfl, trivial, rfl⟩
  | succ fuel ih =>
      cases hnext : next pos loc input with
      | done =>
          rw [lex_succ fuel hnext] at hlex
          cases hlex
          exact ⟨[], input, rfl, trivial, rfl⟩
      | overrun =>
          rw [lex_succ fuel hnext] at hlex
          cases hlex
      | go lexeme pos' loc' rest =>
          rw [lex_succ fuel hnext] at hlex
          obtain ⟨v, hrest, rfl⟩ := Option.map_eq_some_iff.mp hlex
          obtain ⟨text, token, rfl, hpiece, rfl, rfl⟩ := piece_of_next hnext
            fun l hl => hbad l (List.mem_append_left _
              (Option.mem_toList.mpr hl))
          obtain ⟨pieces, tail, rfl, hcuts, rfl⟩ := ih hrest
            fun l hl => hbad l (List.mem_append_right _ hl)
          exact ⟨(text, token) :: pieces, tail,
            (List.append_assoc text (flatten pieces) tail).symm,
            ⟨hpiece, hcuts⟩, rfl⟩

end Pieces

section Windows

variable {pieces : List (Bytes × Option Token)} {pos : Nat}
  {u v w : List Lexeme}

/-- From the start of the first token to the end of the last. -/
def Spans (w : List Lexeme) (start stop : Nat) : Prop :=
  (∃ first ∈ w.head?, first.loc.start = start) ∧
    ∃ last ∈ w.getLast?, last.loc.stop = stop

theorem Spans.ne_nil {start stop : Nat} (hspans : Spans w start stop) :
    w ≠ [] := by
  rintro rfl
  obtain ⟨⟨first, hfirst, _⟩, _⟩ := hspans
  cases hfirst

theorem Spans.unique {start stop start' stop' : Nat}
    (hspans : Spans w start stop) (hother : Spans w start' stop') :
    start = start' ∧ stop = stop' := by
  obtain ⟨⟨first, hfirst, rfl⟩, last, hlast, rfl⟩ := hspans
  obtain ⟨⟨first', hfirst', rfl⟩, last', hlast', rfl⟩ := hother
  rw [Option.mem_unique hfirst hfirst', Option.mem_unique hlast hlast']
  exact ⟨rfl, rfl⟩

theorem length_flatten_cons (text : Bytes) (token : Option Token) :
    pos + (flatten ((text, token) :: pieces)).length =
      pos + text.length + (flatten pieces).length := by
  simp [flatten, Nat.add_assoc]

/-- The pieces are cut in front of a token. -/
theorem cut_before (hpieces : lexemes pos pieces = u ++ v) (hv : v ≠ []) :
    ∃ before behind, pieces = before ++ behind ∧ lexemes pos before = u ∧
      lexemes (pos + (flatten before).length) behind = v ∧
      ∃ first ∈ v.head?, first.loc.start = pos + (flatten before).length := by
  induction pieces generalizing pos u with
  | nil =>
      obtain ⟨-, rfl⟩ := List.append_eq_nil_iff.mp hpieces.symm
      exact absurd rfl hv
  | cons piece pieces ih =>
      obtain ⟨text, _ | t⟩ := piece
      · obtain ⟨before, behind, rfl, rfl, hbehind, hfirst⟩ := ih hpieces
        refine ⟨(text, none) :: before, behind, rfl, rfl, ?_⟩
        rw [length_flatten_cons]
        exact ⟨hbehind, hfirst⟩
      · cases u with
        | nil =>
            refine ⟨[], (text, some t) :: pieces, rfl, rfl, hpieces, ?_⟩
            rw [← List.nil_append v, ← hpieces]
            exact ⟨_, rfl, rfl⟩
        | cons l u =>
            obtain ⟨rfl, hrest⟩ := List.cons_eq_cons.mp hpieces
            obtain ⟨before, behind, rfl, rfl, hbehind, hfirst⟩ := ih hrest
            refine ⟨(text, some t) :: before, behind, rfl, rfl, ?_⟩
            rw [length_flatten_cons]
            exact ⟨hbehind, hfirst⟩

/-- The pieces are cut behind a token. -/
theorem cut_behind (hpieces : lexemes pos pieces = u ++ v) (hu : u ≠ []) :
    ∃ before behind, pieces = before ++ behind ∧ lexemes pos before = u ∧
      lexemes (pos + (flatten before).length) behind = v ∧
      ∃ last ∈ u.getLast?, last.loc.stop = pos + (flatten before).length := by
  induction pieces generalizing pos u with
  | nil =>
      obtain ⟨rfl, -⟩ := List.append_eq_nil_iff.mp hpieces.symm
      exact absurd rfl hu
  | cons piece pieces ih =>
      obtain ⟨text, _ | t⟩ := piece
      · obtain ⟨before, behind, rfl, rfl, hbehind, hlast⟩ := ih hpieces hu
        refine ⟨(text, none) :: before, behind, rfl, rfl, ?_⟩
        rw [length_flatten_cons]
        exact ⟨hbehind, hlast⟩
      · cases u with
        | nil => exact absurd rfl hu
        | cons l u =>
            obtain ⟨rfl, hrest⟩ := List.cons_eq_cons.mp hpieces
            by_cases hnil : u = []
            · subst hnil
              refine ⟨[(text, some t)], pieces, rfl, rfl, ?_⟩
              rw [length_flatten_cons]
              exact ⟨hrest, _, rfl, rfl⟩
            · obtain ⟨before, behind, rfl, rfl, hbehind, last, hlast, hstop⟩ :=
                ih hrest hnil
              refine ⟨(text, some t) :: before, behind, rfl, rfl, ?_⟩
              rw [length_flatten_cons]
              refine ⟨hbehind, last, ?_, hstop⟩
              rw [List.getLast?_cons_of_ne_nil hnil]
              exact hlast

/-- Some tokens of the pieces are those of some of the pieces. -/
theorem exists_window (hpart : w <:+: lexemes pos pieces) (hne : w ≠ []) :
    ∃ before inside behind, pieces = before ++ (inside ++ behind) ∧
      w = lexemes (pos + (flatten before).length) inside ∧
      Spans w (pos + (flatten before).length)
        (pos + (flatten before).length + (flatten inside).length) := by
  obtain ⟨u, v, heq⟩ := hpart
  rw [List.append_assoc] at heq
  obtain ⟨before, rest, rfl, -, hrest, first, hfirst, hstart⟩ :=
    cut_before heq.symm (List.append_ne_nil_of_left_ne_nil hne v)
  obtain ⟨inside, behind, rfl, rfl, -, last, hlast, hstop⟩ :=
    cut_behind hrest hne
  refine ⟨before, inside, behind, rfl, rfl, ⟨first, ?_, hstart⟩, last, hlast,
    hstop⟩
  rwa [List.head?_append_of_ne_nil _ hne] at hfirst

/-- A part of a script that is some of its tokens is read as these, by itself
and at the beginning. -/
theorem yylex_window {script : Bytes} {seg : List Lexeme}
    {start stop : Nat} (hlex : yylex script = some w)
    (hbad : ∀ l ∈ w, l.token ≠ .BAD) (hpart : seg <:+: w)
    (hspans : Spans seg start stop) :
    start ≤ stop ∧ stop ≤ script.length ∧
      (∀ inner start' stop', inner <:+: seg → Spans inner start' stop' →
        start ≤ start' ∧ stop' ≤ stop) ∧
      ∃ seg', yylex (script.window start (stop - start)) = some seg' ∧
        seg'.map Lexeme.token = seg.map Lexeme.token := by
  obtain ⟨pieces, tail, rfl, hcuts, rfl⟩ := exists_pieces hlex hbad
  obtain ⟨before, inside, behind, rfl, rfl, hpos⟩ :=
    exists_window hpart hspans.ne_nil
  obtain ⟨rfl, rfl⟩ := hspans.unique hpos
  rw [Nat.zero_add] at *
  refine ⟨Nat.le_add_right _ _, ?_, ?_, lexemes 0 inside, ?_,
    map_token_lexemes _ _⟩
  · simp only [flatten, List.flatMap_append, List.length_append]
    omega
  · intro inner start' stop' hinner hspans'
    obtain ⟨before', inside', behind', rfl, -, hpos'⟩ :=
      exists_window hinner hspans'.ne_nil
    obtain ⟨rfl, rfl⟩ := hspans'.unique hpos'
    simp only [flatten, List.flatMap_append, List.length_append]
    omega
  · have hinside : Cuts inside [] :=
      (cuts_append.mp (cuts_append.mp hcuts).2).1.mono (List.nil_prefix)
    have hwindow : (flatten (before ++ (inside ++ behind)) ++ tail).window
        (flatten before).length ((flatten before).length +
          (flatten inside).length - (flatten before).length) =
        flatten inside := by
      simp [Bytes.window, flatten]
    rw [hwindow]
    exact lex_flatten hinside _ 0 ⟨0, 0⟩ (Nat.lt_succ_self _)

end Windows

end Edify

end MetaOS
