/-
Decimal integers as texts: what they denote, how `strtol` reads them and how
`%d` prints them.
-/
import Mathlib.Data.Nat.Digits.Lemmas
import MetaOS.CString

namespace MetaOS

namespace CString

def isDigit (c : UInt8) : Bool := 48 ≤ c && c ≤ 57

/-- One decimal digit or more. -/
def Digits (text : Bytes) : Prop := text ≠ [] ∧ ∀ c ∈ text, isDigit c = true

def decimalValue (text : Bytes) : Nat :=
  text.foldl (fun value c => 10 * value + (c.toNat - 48)) 0

/-- A text is a decimal integer: an optional sign and digits, however many. -/
inductive DecimalInteger : Bytes → Int → Prop
  | unsigned {text : Bytes} (htext : Digits text) :
      DecimalInteger text (decimalValue text)
  | plus {text : Bytes} (htext : Digits text) :
      DecimalInteger (43 :: text) (decimalValue text)
  | minus {text : Bytes} (htext : Digits text) :
      DecimalInteger (45 :: text) (-(decimalValue text : Int))

/-- A decimal integer behind blanks. -/
def Numeral (text : Bytes) (n : Int) : Prop :=
  ∃ blanks body, text = blanks ++ body ∧
    (∀ c ∈ blanks, isSpace c = true) ∧ DecimalInteger body n

def LONG_MAX : Int := 2 ^ 31 - 1
def LONG_MIN : Int := -2 ^ 31

/-- The nearest `long`. -/
def clamp (n : Int) : Int := max LONG_MIN (min n LONG_MAX)

theorem clamp_lt_clamp_iff {l r : Int} :
    clamp l < clamp r ↔ l < r ∧ l < LONG_MAX ∧ LONG_MIN < r := by
  simp only [clamp, LONG_MAX, LONG_MIN]
  omega

theorem digit?_ten (c : UInt8) :
    digit? 10 c = if isDigit c then some (c.toNat - 48) else none := by
  simp only [digit?, isDigit, UInt8.le_iff_toNat_le, Bool.and_eq_true,
    decide_eq_true_eq, UInt8.reduceToNat]
  grind

theorem digits_ten (text : Bytes) :
    digits 10 text = (text.takeWhile isDigit).map (·.toNat - 48) := by
  have hdigit : (fun c => (digit? 10 c).isSome) = isDigit := by
    funext c
    rw [digit?_ten]
    cases isDigit c with
    | false => rfl
    | true => rfl
  rw [digits, hdigit, ← List.filterMap_eq_map]
  apply List.filterMap_congr
  intro c hc
  rw [digit?_ten, List.mem_takeWhile_imp hc]
  rfl

/-- The digits at the head of a text are a number, and what is behind them is
left over. -/
theorem magnitude_ten (text : Bytes) :
    magnitude 10 text =
      (decimalValue (text.takeWhile isDigit), text.dropWhile isDigit) := by
  rw [magnitude, digits_ten, List.foldl_map, List.length_map]
  congr 1
  conv_lhs => rw [← List.takeWhile_append_dropWhile (p := isDigit) (l := text)]
  rw [List.drop_left']
  rw [List.takeWhile_append_dropWhile]

theorem dropWhile_isDigit_eq_nil {text : Bytes} :
    text.dropWhile isDigit = [] ↔ ∀ c ∈ text, isDigit c = true := by
  rw [List.dropWhile_eq_nil_iff]

theorem isSpace_of_isDigit {c : UInt8} (hc : isDigit c = true) :
    isSpace c = false := by
  simp only [isDigit, isSpace, Bool.and_eq_true, decide_eq_true_eq,
    UInt8.le_iff_toNat_le, UInt8.reduceToNat, Bool.or_eq_false_iff,
    beq_eq_false_iff_ne, ne_eq, ← UInt8.toNat_inj, Bool.and_eq_false_iff,
    decide_eq_false_iff_not] at *
  omega

/-- The number that a sign and digits stand for. -/
def signed (body : Bytes) : Int :=
  if (sign body).1 then -(decimalValue (sign body).2 : Int)
  else decimalValue (sign body).2

theorem sign_of_digits {text : Bytes} (htext : Digits text) :
    sign text = (false, text) := by
  unfold sign
  split
  · have hhead := htext.2 45 List.mem_cons_self
    exact absurd hhead (by decide)
  · have hhead := htext.2 43 List.mem_cons_self
    exact absurd hhead (by decide)
  · rfl

theorem decimalInteger_iff {body : Bytes} {n : Int} :
    DecimalInteger body n ↔ Digits (sign body).2 ∧ n = signed body := by
  constructor
  · intro hbody
    cases hbody with
    | unsigned hdigits =>
        rw [signed, sign_of_digits hdigits]
        exact ⟨hdigits, rfl⟩
    | plus hdigits => exact ⟨hdigits, rfl⟩
    | minus hdigits => exact ⟨hdigits, rfl⟩
  · rintro ⟨hdigits, rfl⟩
    unfold sign at hdigits
    split at hdigits
    · exact .minus hdigits
    · exact .plus hdigits
    · rw [signed, sign_of_digits hdigits]
      exact .unsigned hdigits

/-- A decimal integer starts with no blank. -/
theorem DecimalInteger.dropWhile_isSpace {body : Bytes} {n : Int}
    (hbody : DecimalInteger body n) : body.dropWhile isSpace = body := by
  cases hbody with
  | unsigned hdigits =>
      cases body with
      | nil => rfl
      | cons c text =>
          have hc := isSpace_of_isDigit (hdigits.2 c List.mem_cons_self)
          simp [hc]
  | plus hdigits => rfl
  | minus hdigits => rfl

theorem numeral_iff {text : Bytes} {n : Int} :
    Numeral text n ↔ DecimalInteger (text.dropWhile isSpace) n := by
  constructor
  · rintro ⟨blanks, body, rfl, hblanks, hbody⟩
    rwa [List.dropWhile_append_of_pos hblanks, hbody.dropWhile_isSpace]
  · intro hbody
    exact ⟨text.takeWhile isSpace, _, List.takeWhile_append_dropWhile.symm,
      fun c hc => List.mem_takeWhile_imp hc, hbody⟩

/-- A text denotes one number at most. -/
theorem Numeral.unique {text : Bytes} {n m : Int} (hn : Numeral text n)
    (hm : Numeral text m) : n = m := by
  rw [numeral_iff, decimalInteger_iff] at hn hm
  rw [hn.2, hm.2]

/-- `strtol` reads a numeral to its end. -/
theorem strtol_numeral {text : Bytes} {n : Int} (htext : Numeral text n) :
    strtol text = (clamp n, []) := by
  rw [numeral_iff, decimalInteger_iff] at htext
  obtain ⟨⟨hne, hdigits⟩, rfl⟩ := htext
  have hall : (sign (text.dropWhile isSpace)).2.takeWhile isDigit =
      (sign (text.dropWhile isSpace)).2 :=
    List.takeWhile_eq_self_iff.mpr hdigits
  have hnone := dropWhile_isDigit_eq_nil.mpr hdigits
  rw [strtol, signed]
  simp only [digits_ten, magnitude_ten, hall, hnone, List.map_eq_nil_iff, hne,
    if_false]
  congr 1
  cases (sign (text.dropWhile isSpace)).1 with
  | false =>
      simp only [Bool.false_eq_true, if_false, clamp, LONG_MAX, LONG_MIN]
      omega
  | true =>
      simp only [if_true, clamp, LONG_MAX, LONG_MIN]
      omega

/-- What `strtol` reads to its end is a numeral or empty. -/
theorem numeral_of_strtol {text : Bytes} (hne : text ≠ [])
    (hrest : (strtol text).2 = []) : ∃ n, Numeral text n := by
  refine ⟨signed (text.dropWhile isSpace), ?_⟩
  rw [numeral_iff, decimalInteger_iff]
  refine ⟨?_, rfl⟩
  rw [strtol] at hrest
  simp only [digits_ten, magnitude_ten, List.map_eq_nil_iff] at hrest
  split at hrest
  · exact absurd hrest hne
  · rename_i hsome
    rw [dropWhile_isDigit_eq_nil] at hrest
    refine ⟨?_, hrest⟩
    intro hnil
    rw [hnil] at hsome
    exact hsome rfl

def printNat (n : Nat) : Bytes :=
  if n = 0 then [48]
  else (Nat.digits 10 n).reverse.map fun d => UInt8.ofNat (48 + d)

def printInt (n : Int) : Bytes :=
  if n < 0 then 45 :: printNat n.natAbs else printNat n.natAbs

/-- The character of a digit. -/
theorem digit_char {d : Nat} (hd : d < 10) :
    isDigit (UInt8.ofNat (48 + d)) = true ∧
      (UInt8.ofNat (48 + d)).toNat - 48 = d := by
  have hmod : (48 + d) % 256 = 48 + d := Nat.mod_eq_of_lt (by omega)
  simp only [isDigit, UInt8.le_iff_toNat_le, Bool.and_eq_true,
    decide_eq_true_eq, UInt8.toNat_ofNat', UInt8.reduceToNat,
    Nat.reducePow, hmod]
  omega

theorem printNat_digits (n : Nat) : Digits (printNat n) := by
  unfold printNat
  split
  next =>
    exact ⟨List.cons_ne_nil _ _, List.forall_mem_singleton.mpr rfl⟩
  next hne =>
    refine ⟨?_, fun c hc => ?_⟩
    · rw [ne_eq, List.map_eq_nil_iff, List.reverse_eq_nil_iff]
      exact Nat.digits_ne_nil_iff_ne_zero.mpr hne
    · obtain ⟨d, hmem, rfl⟩ := List.mem_map.mp hc
      exact (digit_char (Nat.digits_lt_base (by decide)
        (List.mem_reverse.mp hmem))).1

theorem decimalValue_printNat (n : Nat) : decimalValue (printNat n) = n := by
  unfold printNat
  split
  next hzero =>
    rw [hzero]
    rfl
  next =>
    rw [decimalValue, List.foldl_map, List.foldl_reverse]
    conv_rhs => rw [← Nat.ofDigits_digits 10 n, Nat.ofDigits_eq_foldr]
    refine List.foldr_ext _ _ _ fun d hd value => ?_
    rw [(digit_char (Nat.digits_lt_base (by decide) hd)).2]
    exact Nat.add_comm _ _

theorem printInt_decimalInteger (n : Int) : DecimalInteger (printInt n) n := by
  have hvalue := decimalValue_printNat n.natAbs
  unfold printInt
  split
  next hneg =>
    have hminus := DecimalInteger.minus (printNat_digits n.natAbs)
    rw [hvalue] at hminus
    rwa [Int.ofNat_natAbs_of_nonpos hneg.le, neg_neg] at hminus
  next hpos =>
    have hplain := DecimalInteger.unsigned (printNat_digits n.natAbs)
    rw [hvalue] at hplain
    rwa [Int.natAbs_of_nonneg (not_lt.mp hpos)] at hplain

end CString

end MetaOS
