/-
NUL-terminated strings in fixed buffers: `strlcpy`, `strlcat`, `strtok` and
`fgets` on byte lists.  `tokens` is what repeated `strtok` calls return; the
lemmas about it say how a text splits and when it can be put together again.
-/
import Mathlib.Data.List.TakeWhile
import MetaOS.ByteString

namespace MetaOS

namespace CString

/-- The string a buffer holds: everything before the first NUL. -/
def cstr (buf : Bytes) : Bytes := buf.takeWhile (· != 0)

theorem cstr_length_le (buf : Bytes) : (cstr buf).length ≤ buf.length :=
  (List.takeWhile_prefix _).length_le

theorem zero_not_mem_cstr (buf : Bytes) : (0 : UInt8) ∉ cstr buf := by
  intro hmem
  have hnonzero := List.mem_takeWhile_imp hmem
  simp at hnonzero

theorem cstr_eq_self {text : Bytes} (htext : (0 : UInt8) ∉ text) :
    cstr text = text := by
  rw [cstr, List.takeWhile_eq_self_iff]
  intro c hc
  have hne : c ≠ 0 := fun h => htext (h ▸ hc)
  simp [hne]

theorem cstr_append_nul (text rest : Bytes) :
    cstr (text ++ 0 :: rest) = cstr text := by
  unfold cstr
  rw [List.takeWhile_append]
  split
  · rename_i hall
    simp only [bne_self_eq_false, Bool.false_eq_true, not_false_eq_true,
      List.takeWhile_cons_of_neg, List.append_nil]
    exact (List.takeWhile_prefix _).eq_of_length hall |>.symm
  · rfl

theorem cstr_append_zero {text : Bytes} (htext : (0 : UInt8) ∉ text)
    (rest : Bytes) : cstr (text ++ 0 :: rest) = text :=
  (cstr_append_nul text rest).trans (cstr_eq_self htext)

/-- Put a text and its NUL at the start of a buffer, keeping what follows. -/
def overwrite (buf text : Bytes) : Bytes :=
  text ++ 0 :: buf.drop (text.length + 1)

theorem overwrite_length {buf text : Bytes}
    (hfits : text.length < buf.length) :
    (overwrite buf text).length = buf.length := by
  simp only [overwrite, List.length_append, List.length_cons,
    List.length_drop]
  omega

theorem cstr_overwrite (buf : Bytes) {text : Bytes}
    (htext : (0 : UInt8) ∉ text) : cstr (overwrite buf text) = text :=
  cstr_append_zero htext _

/-- `strlcpy` into a buffer, of which it uses the whole length. -/
def strlcpy (dst src : Bytes) : Bytes :=
  overwrite dst (src.take (dst.length - 1))

/-- `strlcat`: a buffer without a NUL is left alone. -/
def strlcat (dst src : Bytes) : Bytes :=
  if (cstr dst).length = dst.length then dst
  else overwrite dst (cstr dst ++
    src.take (dst.length - 1 - (cstr dst).length))

theorem strlcpy_length {dst src : Bytes} (hdst : 0 < dst.length) :
    (strlcpy dst src).length = dst.length := by
  apply overwrite_length
  simp only [List.length_take]
  omega

theorem strlcat_length (dst src : Bytes) :
    (strlcat dst src).length = dst.length := by
  unfold strlcat
  split
  · rfl
  · rename_i hroom
    have hle := cstr_length_le dst
    apply overwrite_length
    simp only [List.length_append, List.length_take]
    omega

theorem cstr_strlcpy {dst src : Bytes} (hsrc : (0 : UInt8) ∉ src) :
    cstr (strlcpy dst src) = src.take (dst.length - 1) :=
  cstr_overwrite dst fun hmem => hsrc (List.mem_of_mem_take hmem)

/-- `strlcat` appends what fits. -/
theorem cstr_strlcat {dst src : Bytes} (hsrc : (0 : UInt8) ∉ src)
    (hroom : (cstr dst).length < dst.length) :
    cstr (strlcat dst src) = (cstr dst ++ src).take (dst.length - 1) := by
  have hne : ¬ (cstr dst).length = dst.length := by omega
  have hclean : (0 : UInt8) ∉ cstr dst ++
      src.take (dst.length - 1 - (cstr dst).length) := by
    intro hmem
    rcases List.mem_append.mp hmem with hold | hnew
    · exact zero_not_mem_cstr dst hold
    · exact hsrc (List.mem_of_mem_take hnew)
  have hold : (cstr dst).take (dst.length - 1) = cstr dst :=
    List.take_of_length_le (by omega)
  rw [strlcat, if_neg hne, cstr_overwrite dst hclean, List.take_append, hold]

/-- The maximal runs of characters that are not delimiters. -/
def tokens (delim : UInt8 → Bool) : Bytes → List Bytes
  | [] => []
  | c :: text =>
      if delim c then tokens delim text
      else
        match text with
        | [] => [[c]]
        | d :: _ =>
            if delim d then [c] :: tokens delim text
            else
              match tokens delim text with
              | [] => [[c]]
              | token :: rest => (c :: token) :: rest

section Tokens

variable {delim : UInt8 → Bool}

@[simp] theorem tokens_nil : tokens delim [] = [] := rfl

theorem tokens_cons_delim {c : UInt8} (hc : delim c = true) (text : Bytes) :
    tokens delim (c :: text) = tokens delim text := by
  simp [tokens, hc]

/-- A token followed by a delimiter. -/
theorem tokens_append_delim {token : Bytes} (hne : token ≠ [])
    (htoken : ∀ c ∈ token, delim c = false) {d : UInt8}
    (hd : delim d = true) (rest : Bytes) :
    tokens delim (token ++ d :: rest) = token :: tokens delim rest := by
  induction token with
  | nil => exact absurd rfl hne
  | cons c token ih =>
      have hc : delim c = false := htoken c List.mem_cons_self
      cases token with
      | nil => simp [tokens, hc, hd]
      | cons c' token =>
          have hc' : delim c' = false := htoken c' (by simp)
          have htail := ih (by simp) fun x hx =>
            htoken x (List.mem_cons_of_mem c hx)
          simp only [List.cons_append] at htail ⊢
          rw [tokens]
          simp only [hc, hc', htail, Bool.false_eq_true, ↓reduceIte]

/-- A token at the end of the text. -/
theorem tokens_eq_singleton {token : Bytes} (hne : token ≠ [])
    (htoken : ∀ c ∈ token, delim c = false) :
    tokens delim token = [token] := by
  induction token with
  | nil => exact absurd rfl hne
  | cons c token ih =>
      have hc : delim c = false := htoken c List.mem_cons_self
      cases token with
      | nil => simp [tokens, hc]
      | cons c' token =>
          have hc' : delim c' = false := htoken c' (by simp)
          have htail := ih (by simp) fun x hx =>
            htoken x (List.mem_cons_of_mem c hx)
          rw [tokens]
          simp only [hc, hc', htail, Bool.false_eq_true, ↓reduceIte]

theorem tokens_append_delims {skip : Bytes}
    (hskip : ∀ c ∈ skip, delim c = true) (text : Bytes) :
    tokens delim (skip ++ text) = tokens delim text := by
  induction skip with
  | nil => rfl
  | cons c skip ih =>
      rw [List.cons_append, tokens_cons_delim (hskip c List.mem_cons_self)]
      exact ih fun x hx => hskip x (List.mem_cons_of_mem c hx)

/-- Splitting loses the delimiters and nothing else. -/
theorem flatten_tokens (text : Bytes) :
    (tokens delim text).flatten = text.filter fun c => !delim c := by
  induction text with
  | nil => rfl
  | cons c text ih =>
      by_cases hc : delim c = true
      · rw [tokens_cons_delim hc, ih]
        simp [hc]
      · have hc' : delim c = false := by simpa using hc
        cases text with
        | nil => simp [tokens, hc']
        | cons d text =>
            by_cases hd : delim d = true
            · rw [tokens]
              simp only [hc', hd, Bool.false_eq_true, ↓reduceIte,
                List.flatten_cons, ih]
              simp [hc']
            · have hd' : delim d = false := by simpa using hd
              rw [tokens]
              simp only [hc', hd', Bool.false_eq_true, ↓reduceIte]
              cases htail : tokens delim (d :: text) with
              | nil =>
                  rw [htail] at ih
                  simp [hd'] at ih
              | cons token rest =>
                  rw [htail] at ih
                  simp only [List.flatten_cons] at ih ⊢
                  rw [List.cons_append, ih]
                  simp [hc']

/-- Text that starts with a token splits behind that token. -/
theorem tokens_eq_cons {token rest : Bytes} (hne : token ≠ [])
    (htoken : ∀ c ∈ token, delim c = false)
    (hrest : ∀ c ∈ rest.head?, delim c = true) :
    tokens delim (token ++ rest) = token :: tokens delim rest := by
  cases rest with
  | nil => rw [List.append_nil, tokens_eq_singleton hne htoken, tokens_nil]
  | cons d rest =>
      have hd : delim d = true := hrest d rfl
      rw [tokens_append_delim hne htoken hd, tokens_cons_delim hd]

/-- Every token is found by the maximal-run decomposition of the text. -/
theorem tokens_split (text : Bytes) :
    tokens delim text =
      if (text.dropWhile delim).takeWhile (fun c => !delim c) = [] then []
      else (text.dropWhile delim).takeWhile (fun c => !delim c) ::
        tokens delim
          ((text.dropWhile delim).dropWhile fun c => !delim c) := by
  have hskip : tokens delim text = tokens delim (text.dropWhile delim) := by
    conv_lhs => rw [← List.takeWhile_append_dropWhile (p := delim) (l := text)]
    exact tokens_append_delims (fun c hc => List.mem_takeWhile_imp hc) _
  rw [hskip]
  generalize hbody : text.dropWhile delim = body
  split
  · rename_i hnone
    cases body with
    | nil => rfl
    | cons c body =>
        have hhead := List.head?_dropWhile_not delim text
        rw [hbody] at hhead
        simp at hhead
        simp [hhead] at hnone
  · rename_i hsome
    conv_lhs => rw [← List.takeWhile_append_dropWhile
      (p := fun c => !delim c) (l := body)]
    apply tokens_eq_cons hsome
    · intro c hc
      simpa using List.mem_takeWhile_imp hc
    · intro c hc
      have hhead := List.head?_dropWhile_not (fun c => !delim c) body
      rw [Option.mem_def.mp hc] at hhead
      simpa using hhead

/-- A token is not empty and holds no delimiter. -/
theorem mem_tokens {text token : Bytes} (hmem : token ∈ tokens delim text) :
    token ≠ [] ∧ ∀ c ∈ token, delim c = false := by
  constructor
  · intro hempty
    induction hlen : text.length using Nat.strong_induction_on
      generalizing text with
    | _ len ih =>
        rw [tokens_split] at hmem
        split at hmem
        · simp at hmem
        · rename_i hsome
          rcases List.mem_cons.mp hmem with hfirst | hrest
          · exact hsome (hfirst ▸ hempty)
          · refine ih _ ?_ hrest rfl
            have hdrop := (List.dropWhile_suffix delim (l := text)).length_le
            have hbody := congrArg List.length
              (List.takeWhile_append_dropWhile (p := fun c => !delim c)
                (l := text.dropWhile delim))
            have hpos := List.length_pos_iff.mpr hsome
            rw [List.length_append] at hbody
            omega
  · intro c hc
    have hflat : c ∈ (tokens delim text).flatten :=
      List.mem_flatten.mpr ⟨token, hmem, hc⟩
    rw [flatten_tokens] at hflat
    simpa using (List.mem_filter.mp hflat).2

/-- Tokens and one separator for each of them fit in the text they come
from, but for the last separator. -/
theorem sum_tokens_le (text : Bytes) :
    ((tokens delim text).map fun token => 1 + token.length).sum ≤
      1 + text.length := by
  induction hlen : text.length using Nat.strong_induction_on
    generalizing text with
  | _ len ih =>
      rw [tokens_split]
      have hdrop := (List.dropWhile_suffix delim (l := text)).length_le
      have hbody := congrArg List.length
        (List.takeWhile_append_dropWhile (p := fun c => !delim c)
          (l := text.dropWhile delim))
      have hfront := List.head?_dropWhile_not (fun c => !delim c)
        (text.dropWhile delim)
      rw [List.length_append] at hbody
      generalize (text.dropWhile delim).takeWhile (fun c => !delim c) = token
        at hbody ⊢
      generalize (text.dropWhile delim).dropWhile (fun c => !delim c) = rest
        at hbody hfront ⊢
      split
      · simp
      · rw [List.map_cons, List.sum_cons]
        cases rest with
        | nil =>
            simp only [tokens_nil, List.map_nil, List.sum_nil]
            omega
        | cons d rest =>
            have hd : delim d = true := by simpa using hfront
            rw [List.length_cons] at hbody
            have htail := ih rest.length (by omega) rest rfl
            rw [tokens_cons_delim hd]
            omega

/-- Lines put behind each other split into themselves. -/
theorem tokens_lines {d : UInt8} (hd : delim d = true) {first : Bytes}
    {lines : List Bytes} {rest : Bytes}
    (hlines : ∀ line ∈ first :: lines,
      line ≠ [] ∧ ∀ c ∈ line, delim c = false)
    (hrest : ∀ c ∈ rest, delim c = true) :
    tokens delim (first ++ lines.flatMap (d :: ·) ++ rest) =
      first :: lines := by
  induction lines generalizing first with
  | nil =>
      obtain ⟨hne, hfirst⟩ := hlines first List.mem_cons_self
      rw [List.flatMap_nil, List.append_nil, tokens_eq_cons hne hfirst]
      · have hnone := tokens_append_delims hrest []
        rw [List.append_nil, tokens_nil] at hnone
        rw [hnone]
      · intro c hc
        exact hrest c (List.mem_of_mem_head? hc)
  | cons line lines ih =>
      obtain ⟨hne, hfirst⟩ := hlines first List.mem_cons_self
      have htail : tokens delim
          (line ++ lines.flatMap (d :: ·) ++ rest) = line :: lines :=
        ih fun text htext => hlines text (List.mem_cons_of_mem first htext)
      rw [List.append_assoc, tokens_eq_cons hne hfirst]
      · simp only [List.flatMap_cons, List.cons_append]
        rw [tokens_cons_delim hd, htail]
      · intro c hc
        simp only [List.flatMap_cons, List.cons_append, List.head?_cons,
          Option.mem_def, Option.some.injEq] at hc
        exact hc ▸ hd

theorem mem_of_mem_tokens {text token : Bytes}
    (hmem : token ∈ tokens delim text) {c : UInt8} (hc : c ∈ token) :
    c ∈ text := by
  have hflat : c ∈ (tokens delim text).flatten :=
    List.mem_flatten.mpr ⟨token, hmem, hc⟩
  rw [flatten_tokens] at hflat
  exact (List.mem_filter.mp hflat).1

end Tokens

/-- One `strtok` call on a buffer from `pos` on: the token, the buffer with
the delimiter behind it turned into a NUL, and where the next call starts. -/
def strtok (delim : UInt8 → Bool) (buf : Bytes) (pos : Nat) :
    Option (Bytes × Bytes × Nat) :=
  let text := cstr (buf.drop pos)
  let start := pos + (text.takeWhile delim).length
  let token := (text.dropWhile delim).takeWhile fun c => !delim c
  let stop := start + token.length
  if token = [] then none
  else if stop < pos + text.length then
    some (token, buf.set stop 0, stop + 1)
  else some (token, buf, stop)

/-- At most `count` further tokens, and the buffer they leave behind. -/
def strtokMany (delim : UInt8 → Bool) :
    (count : Nat) → Bytes → Nat → List Bytes × Bytes
  | 0, buf, _ => ([], buf)
  | count + 1, buf, pos =>
      match strtok delim buf pos with
      | none => ([], buf)
      | some (token, buf, pos) =>
          let (rest, buf) := strtokMany delim count buf pos
          (token :: rest, buf)

theorem cstr_drop (buf : Bytes) {len : Nat} (hlen : len ≤ (cstr buf).length) :
    cstr (buf.drop len) = (cstr buf).drop len := by
  induction buf generalizing len with
  | nil => simp [cstr]
  | cons c buf ih =>
      cases len with
      | zero => rfl
      | succ len =>
          by_cases hc : c = 0
          · subst hc
            simp [cstr] at hlen
          · have hcons : cstr (c :: buf) = c :: cstr buf := by
              simp [cstr, hc]
            rw [hcons] at hlen ⊢
            simp only [List.drop_succ_cons]
            exact ih (by simpa using hlen)

/-- One call returns the first token and leaves the others to be found. -/
theorem strtok_spec (delim : UInt8 → Bool) (buf : Bytes) (pos : Nat) :
    match strtok delim buf pos with
    | none => tokens delim (cstr (buf.drop pos)) = []
    | some (token, buf', pos') =>
        tokens delim (cstr (buf.drop pos)) =
          token :: tokens delim (cstr (buf'.drop pos')) := by
  unfold strtok
  rw [tokens_split]
  dsimp only
  generalize htext : cstr (buf.drop pos) = text
  have hsplit : text = text.takeWhile delim ++
      ((text.dropWhile delim).takeWhile (fun c => !delim c) ++
        (text.dropWhile delim).dropWhile fun c => !delim c) := by
    rw [List.takeWhile_append_dropWhile, List.takeWhile_append_dropWhile]
  have hfront := List.head?_dropWhile_not (fun c => !delim c)
    (text.dropWhile delim)
  generalize text.takeWhile delim = skip at hsplit ⊢
  generalize (text.dropWhile delim).takeWhile (fun c => !delim c) = token
    at hsplit ⊢
  generalize (text.dropWhile delim).dropWhile (fun c => !delim c) = rest
    at hsplit hfront ⊢
  have hlen : text.length = skip.length + (token.length + rest.length) := by
    rw [hsplit, List.length_append, List.length_append]
  have hdrop : ∀ len, len ≤ text.length →
      cstr (buf.drop (pos + len)) = text.drop len := by
    intro len hle
    rw [← List.drop_drop, cstr_drop _ (htext ▸ hle), htext]
  by_cases hnone : token = []
  · simp [hnone]
  · by_cases hmore : pos + skip.length + token.length < pos + text.length
    · simp only [hnone, hmore, if_false, if_true]
      cases rest with
      | nil => simp at hlen; omega
      | cons d rest =>
          have hd : delim d = true := by simpa using hfront
          have hnext : cstr ((buf.set (pos + skip.length + token.length)
              0).drop (pos + skip.length + token.length + 1)) = rest := by
            rw [List.drop_set_of_lt (by omega), Nat.add_assoc, Nat.add_assoc,
              hdrop _ (by omega), hsplit, ← Nat.add_assoc, ← List.drop_drop,
              ← List.length_append, ← List.append_assoc, List.drop_left]
            rfl
          rw [hnext, tokens_cons_delim hd]
    · simp only [hnone, hmore, if_false]
      have hempty : rest = [] := List.eq_nil_of_length_eq_zero (by omega)
      have hend : skip.length + token.length = text.length := by omega
      rw [Nat.add_assoc, hend, hdrop _ le_rfl, List.drop_length, hempty]

/-- What repeated calls return, the marks they leave in the buffer aside. -/
theorem strtokMany_fst (delim : UInt8 → Bool) (count : Nat) (buf : Bytes)
    (pos : Nat) :
    (strtokMany delim count buf pos).1 =
      (tokens delim (cstr (buf.drop pos))).take count := by
  induction count generalizing buf pos with
  | zero => simp [strtokMany]
  | succ count ih =>
      have hspec := strtok_spec delim buf pos
      rw [strtokMany]
      cases hcall : strtok delim buf pos with
      | none =>
          rw [hcall] at hspec
          simp only at hspec ⊢
          rw [hspec, List.take_nil]
      | some call =>
          obtain ⟨token, buf', pos'⟩ := call
          rw [hcall] at hspec
          simp only at hspec ⊢
          rw [hspec, List.take_succ_cons, ih]

theorem strtok_length {delim : UInt8 → Bool} {buf token buf' : Bytes}
    {pos pos' : Nat} (hcall : strtok delim buf pos = some (token, buf', pos')) :
    buf'.length = buf.length := by
  unfold strtok at hcall
  simp only at hcall
  split at hcall
  · simp at hcall
  · split at hcall
    all_goals
      simp only [Option.some.injEq, Prod.mk.injEq] at hcall
      obtain ⟨-, rfl, -⟩ := hcall
      simp

theorem strtokMany_length (delim : UInt8 → Bool) (count : Nat) (buf : Bytes)
    (pos : Nat) : (strtokMany delim count buf pos).2.length = buf.length := by
  induction count generalizing buf pos with
  | zero => rfl
  | succ count ih =>
      rw [strtokMany]
      cases hcall : strtok delim buf pos with
      | none => rfl
      | some call =>
          obtain ⟨token, buf', pos'⟩ := call
          exact (ih buf' pos').trans (strtok_length hcall)

def isSpace (c : UInt8) : Bool := c == 32 || (9 ≤ c && c ≤ 13)

/-- A digit of a base up to 36. -/
def digit? (base : Nat) (c : UInt8) : Option Nat :=
  let value :=
    if 48 ≤ c ∧ c ≤ 57 then c.toNat - 48
    else if 97 ≤ c ∧ c ≤ 122 then c.toNat - 87
    else if 65 ≤ c ∧ c ≤ 90 then c.toNat - 55
    else base
  if value < base then some value else none

/-- The digits at the head of a text. -/
def digits (base : Nat) (text : Bytes) : List Nat :=
  (text.takeWhile fun c => (digit? base c).isSome).filterMap (digit? base)

/-- The value of the digits, and the text behind them.  A `long` has 32 bits in
what follows. -/
def magnitude (base : Nat) (text : Bytes) : Nat × Bytes :=
  ((digits base text).foldl (fun value d => base * value + d) 0,
    text.drop (digits base text).length)

/-- The sign, and what follows it. -/
def sign (text : Bytes) : Bool × Bytes :=
  match text with
  | 45 :: rest => (true, rest)
  | 43 :: rest => (false, rest)
  | rest => (false, rest)

/-- The base that a text asks for, and its digits. -/
def basedDigits : Bytes → Nat × Bytes
  | 48 :: x :: d :: rest =>
      if (x = 120 ∨ x = 88) ∧ (digit? 16 d).isSome then (16, d :: rest)
      else (8, 48 :: x :: d :: rest)
  | 48 :: rest => (8, 48 :: rest)
  | rest => (10, rest)

/-- `strtol(text, &end, 10)`: the value and the text at `end`. -/
def strtol (text : Bytes) : Int × Bytes :=
  let (negative, number) := sign (text.dropWhile isSpace)
  if digits 10 number = [] then (0, text)
  else
    let (value, rest) := magnitude 10 number
    (if negative then -(min value (2 ^ 31) : Nat)
      else (min value (2 ^ 31 - 1) : Nat), rest)

/-- `strtoul`, which finds its base and the digits with `start` behind the
sign: the value and the text behind them. -/
def strtoulWith (start : Bytes → Nat × Bytes) (text : Bytes) : Nat × Bytes :=
  let (negative, number) := sign (text.dropWhile isSpace)
  let (base, number) := start number
  if digits base number = [] then (0, text)
  else
    let (value, rest) := magnitude base number
    if 2 ^ 32 ≤ value then (2 ^ 32 - 1, rest)
    else if negative then ((2 ^ 32 - value) % 2 ^ 32, rest)
    else (value, rest)

/-- `strtoul(text, &end, 0)` -/
def strtoul : Bytes → Nat × Bytes := strtoulWith basedDigits

/-- `strtoul(text, &end, 10)` -/
def strtoul10 : Bytes → Nat × Bytes := strtoulWith fun number => (10, number)

/-- `0x` before the digits is passed over. -/
def hexDigits : Bytes → Nat × Bytes
  | 48 :: x :: d :: rest =>
      if (x = 120 ∨ x = 88) ∧ (digit? 16 d).isSome then (16, d :: rest)
      else (16, 48 :: x :: d :: rest)
  | number => (16, number)

/-- `strtoul(text, &end, 16)` -/
def strtoul16 : Bytes → Nat × Bytes := strtoulWith hexDigits

/-- What a format comes to that is printed without arguments; nothing is a
conversion, which has none to convert. -/
def printed : Bytes → Option Bytes
  | [] => some []
  | 37 :: 37 :: fmt => (printed fmt).map (37 :: ·)
  | c :: fmt => if c = 37 then none else (printed fmt).map (c :: ·)

theorem printed_length_le {fmt text : Bytes}
    (hformat : printed fmt = some text) :
    text.length ≤ fmt.length := by
  fun_induction printed generalizing text with
  | case1 => simp_all
  | case2 fmt ih =>
      obtain ⟨rest, hrest, rfl⟩ := Option.map_eq_some_iff.mp hformat
      have hle := ih hrest
      simp only [List.length_cons]
      omega
  | case3 => cases hformat
  | case4 c fmt hnot hc ih =>
      obtain ⟨rest, hrest, rfl⟩ := Option.map_eq_some_iff.mp hformat
      exact Nat.succ_le_succ (ih hrest)

/-- A format stands for itself if and only if it has no conversions. -/
theorem printed_eq_self_iff (fmt : Bytes) :
    printed fmt = some fmt ↔ (37 : UInt8) ∉ fmt := by
  fun_induction printed with
  | case1 => simp
  | case2 fmt ih =>
      refine iff_of_false ?_ (by simp)
      intro hsame
      obtain ⟨rest, hrest, heq⟩ := Option.map_eq_some_iff.mp hsame
      have hle := printed_length_le hrest
      rw [List.cons_eq_cons] at heq
      rw [heq.2] at hle
      simp at hle
  | case3 => simp
  | case4 c fmt hnot hc ih =>
      rw [List.mem_cons, not_or, ← ih]
      constructor
      · intro hsame
        obtain ⟨rest, hrest, heq⟩ := Option.map_eq_some_iff.mp hsame
        rw [hrest, (List.cons_eq_cons.mp heq).2]
        exact ⟨fun h => hc h.symm, rfl⟩
      · rintro ⟨-, hrest⟩
        rw [hrest]
        rfl

/-- `fgets` into a buffer of `size` bytes: up to a newline, the end of the
file or a full buffer. -/
def fgets (size : Nat) (file : Bytes) : Option (Bytes × Bytes) :=
  if file = [] then none
  else
    let upToNewline := (file.takeWhile (· != 10)).length + 1
    let len := min upToNewline (size - 1)
    some (file.take len, file.drop len)

/-- `strdup` copies a string into memory of its own. -/
def strdup (text : Bytes) : {text : Bytes // (0 : UInt8) ∉ text} :=
  ⟨cstr text, zero_not_mem_cstr text⟩

theorem strdup_val {text : Bytes} (htext : (0 : UInt8) ∉ text) :
    (strdup text).1 = text :=
  cstr_eq_self htext

end CString

end MetaOS
