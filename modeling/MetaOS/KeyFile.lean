/-
bootable/recovery/install.c: the form of the key file.  `load_keys` reads it
with `fscanf`, whose conversions take more than the numbers of the documented
form, and does not look whether its last call finds the closing braces.
-/
import MetaOS.InstallPackage
import MetaOS.SpacedTokens

namespace MetaOS

namespace KeyFile

open InstallPackage MinZip Tokens Verifier

/-- One digit of a base or more. -/
def Digits (base : Nat) (body : Bytes) : Prop :=
  body ≠ [] ∧ ∀ c ∈ body, digitValue c < base

def value (base : Nat) (body : Bytes) : Nat :=
  body.foldl (fun acc c => acc * base + digitValue c) 0

/-- A word of a key, as an unsigned or as a signed number. -/
inductive Number : Bytes → Nat → Prop
  | unsigned {body : Bytes} (hdigits : Digits 10 body)
      (hfits : value 10 body < 2 ^ 32) : Number body (value 10 body)
  | negative {body : Bytes} (hdigits : Digits 10 body)
      (hfits : value 10 body ≤ 2 ^ 31) :
      Number (45 :: body) ((2 ^ 32 - value 10 body) % 2 ^ 32)

/-- A word behind `0x`. -/
def HexNumber (body : Bytes) (word : Nat) : Prop :=
  Digits 16 body ∧ word = value 16 body ∧ word < 2 ^ 32

/-- A text with or without a sign. -/
inductive Signed : Bytes → Bool → Bytes → Prop
  | plain (body : Bytes) : Signed body false body
  | plus (body : Bytes) : Signed (43 :: body) false body
  | minus (body : Bytes) : Signed (45 :: body) true body

/-- `0x` or `0X` in front of the digits. -/
def Prefixed (body digits : Bytes) : Prop :=
  ∃ x, (x = 120 ∨ x = 88) ∧ body = 48 :: x :: digits

/-- What `%u` takes. -/
def TakenU (text : Bytes) (word : Nat) : Prop :=
  ∃ negative body, Signed text negative body ∧ Digits 10 body ∧
    word = storeWord negative (value 10 body)

/-- What `%x` takes. -/
def TakenX (text : Bytes) (word : Nat) : Prop :=
  ∃ negative body digits, Signed text negative body ∧
    (body = digits ∨ Prefixed body digits) ∧ Digits 16 digits ∧
    word = storeWord negative (value 16 digits)

/-- A number with the base that it shows. -/
inductive Based : Bytes → Nat → Bytes → Prop
  | hexadecimal {body digits : Bytes} (hbody : Prefixed body digits)
      (hdigits : Digits 16 digits) : Based body 16 digits
  | octal {body : Bytes} (hhead : body.head? = some 48)
      (hdigits : Digits 8 body) : Based body 8 body
  | decimal {body : Bytes} (hhead : body.head? ≠ some 48)
      (hdigits : Digits 10 body) : Based body 10 body

/-- What `%i` takes. -/
def TakenI (text : Bytes) (n : Int) : Prop :=
  ∃ negative body base digits, Signed text negative body ∧
    Based body base digits ∧
    n = toLong (storeInt negative (value base digits))

def comma : Bytes := [44]
def openBrace : Bytes := [123]
def closeBrace : Bytes := [125]

/-- The texts of a key: its length, what stands behind `0x`, its words, and
how many braces close it. -/
structure KeyText where
  len : Bytes
  n0inv : Bytes
  n : List Bytes
  rr : List Bytes
  braces : Nat

/-- Texts with commas between them. -/
def commas : List Bytes → List Bytes
  | [] => []
  | [text] => [text]
  | text :: texts => text :: comma :: commas texts

/-- What follows the first number. -/
def KeyText.words (k : KeyText) : List Bytes :=
  [comma, openBrace] ++ commas k.n ++ [closeBrace, comma, openBrace] ++
    commas k.rr ++ List.replicate k.braces closeBrace

/-- The tokens of the documented form. -/
def KeyText.documented (k : KeyText) : List Bytes :=
  [openBrace, k.len, comma, [48, 120] ++ k.n0inv] ++ k.words

/-- The tokens that `fscanf` takes. -/
def KeyText.taken (k : KeyText) : List Bytes :=
  [openBrace, k.len, comma, [48, 120], k.n0inv] ++ k.words

/-- Keys with commas between them. -/
def keys : List (List Bytes) → List Bytes
  | [] => []
  | [key] => key
  | key :: rest => key ++ comma :: keys rest

/-- `{64,0x<hex>,{64 numbers},{64 numbers}}` and what it says. -/
structure KeyText.Documented (k : KeyText) (key : RSAPublicKey) : Prop where
  len : k.len = [54, 52] ∧ key.len = 64
  n0inv : HexNumber k.n0inv key.n0inv
  n : List.Forall₂ Number k.n key.n
  nLength : k.n.length = RSANUMWORDS
  rr : List.Forall₂ Number k.rr key.rr
  rrLength : k.rr.length = RSANUMWORDS
  braces : k.braces = 2

/-- One or more keys of the documented form, with single commas between them
and blanks wherever they do not cut a token. -/
def Documented (text : Bytes) (found : List RSAPublicKey) : Prop :=
  ∃ ks : List KeyText, ks ≠ [] ∧
    List.Forall₂ KeyText.Documented ks found ∧
    Spaced isSpace (keys (ks.map KeyText.documented)) text

/-- The form that `fscanf` does not tell from it: any number that stores 64,
blanks, a sign and one more prefix behind `0x`, numbers with a plus sign or of
any size, and no more than two closing braces. -/
structure KeyText.Lax (k : KeyText) (key : RSAPublicKey) : Prop where
  len : TakenI k.len key.len
  lenWords : key.len = RSANUMWORDS
  n0inv : TakenX k.n0inv key.n0inv
  n : List.Forall₂ TakenU k.n key.n
  nLength : k.n.length = RSANUMWORDS
  rr : List.Forall₂ TakenU k.rr key.rr
  rrLength : k.rr.length = RSANUMWORDS
  braces : k.braces ≤ 2

def Lax (text : Bytes) (found : List RSAPublicKey) : Prop :=
  ∃ ks : List KeyText, ks ≠ [] ∧ List.Forall₂ KeyText.Lax ks found ∧
    Spaced isSpace (keys (ks.map KeyText.taken)) text

/-- The keys of a text of the documented form are loaded, and no keys of any
other text. -/
def Faithful (text : Bytes) : Prop :=
  (∃ found, Documented text found ∧ loadKeys (some text) = some found) ∨
    (¬ ∃ found, Documented text found) ∧ loadKeys (some text) = none

/-- What may follow a number of a key. -/
def Ends (rest : Bytes) : Prop :=
  ∀ c ∈ rest.head?, isSpace c = true ∨ c = 44 ∨ c = 125

theorem not_digit_of_ends {c : UInt8}
    (hc : isSpace c = true ∨ c = 44 ∨ c = 125) : digitValue c = 16 := by
  rcases hc with hspace | rfl | rfl
  · simp only [isSpace, Bool.or_eq_true, beq_iff_eq, Bool.and_eq_true,
      decide_eq_true_eq, UInt8.le_iff_toNat_le, ← UInt8.toNat_inj,
      UInt8.reduceToNat] at hspace
    unfold digitValue
    split_ifs <;> omega
  · rfl
  · rfl

theorem isSpace_of_digit {c : UInt8} (hc : digitValue c < 16) :
    isSpace c = false := by
  rw [Bool.eq_false_iff]
  intro hspace
  rw [not_digit_of_ends (.inl hspace)] at hc
  exact lt_irrefl _ hc

theorem scanDigits_eq {base : Nat} {body rest : Bytes} (count acc : Nat)
    (hdigits : ∀ c ∈ body, digitValue c < base)
    (hrest : ∀ c ∈ rest.head?, ¬ digitValue c < base) :
    scanDigits base (body ++ rest) count acc =
      (count + body.length,
        body.foldl (fun acc c => acc * base + digitValue c) acc, rest) := by
  induction body generalizing count acc with
  | nil =>
      cases rest with
      | nil => rfl
      | cons c rest => exact if_neg (hrest c rfl)
  | cons c body ih =>
      rw [List.forall_mem_cons] at hdigits
      rw [List.cons_append, scanDigits, if_pos hdigits.1, ih _ _ hdigits.2,
        List.length_cons, List.foldl_cons, Nat.add_assoc, Nat.add_comm 1]

theorem scanNumber_eq_some_iff {store : Bool → Nat → Nat} {base word : Nat}
    {negative : Bool} {text rest : Bytes} :
    scanNumber store base negative text = some (word, rest) ↔
      ∃ body, text = body ++ rest ∧ Digits base body ∧
        (∀ c ∈ rest.head?, ¬ digitValue c < base) ∧
        word = store negative (value base body) := by
  constructor
  · intro hscan
    have hsplit := List.takeWhile_append_dropWhile
      (p := fun c => decide (digitValue c < base)) (l := text)
    have hdigits : ∀ c ∈ text.takeWhile fun c => decide (digitValue c < base),
        digitValue c < base := by
      intro c hc
      simpa using List.mem_takeWhile_imp hc
    have hrest : ∀ c ∈ (text.dropWhile fun c =>
        decide (digitValue c < base)).head?, ¬ digitValue c < base := by
      intro c hc
      have hnot := List.head?_dropWhile_not
        (fun c => decide (digitValue c < base)) text
      rw [Option.mem_def.mp hc] at hnot
      simpa using hnot
    have hcount := scanDigits_eq 0 0 hdigits hrest
    rw [hsplit] at hcount
    rw [scanNumber, hcount, Nat.zero_add] at hscan
    generalize (text.takeWhile fun c => decide (digitValue c < base)) = body
      at hsplit hdigits hscan
    cases body with
    | nil => cases hscan
    | cons c body =>
        cases hscan
        exact ⟨c :: body, hsplit.symm, ⟨by simp, hdigits⟩, hrest, rfl⟩
  · rintro ⟨body, rfl, ⟨hsome, hdigits⟩, hrest, rfl⟩
    rw [scanNumber, scanDigits_eq 0 0 hdigits hrest]
    cases body with
    | nil => exact absurd rfl hsome
    | cons c body =>
        rw [List.length_cons, Nat.zero_add]
        rfl

theorem signed_scanSign (text : Bytes) :
    Signed text (scanSign text).1 (scanSign text).2 := by
  cases text with
  | nil => exact .plain []
  | cons c rest =>
      rw [scanSign]
      split_ifs with hminus hplus
      · obtain rfl : c = 45 := UInt8.toNat_inj.mp hminus
        exact .minus rest
      · obtain rfl : c = 43 := UInt8.toNat_inj.mp hplus
        exact .plus rest
      · exact .plain _

/-- A sign is taken off a number, which starts with none itself. -/
theorem scanSign_eq {token body : Bytes} {negative : Bool}
    (hsigned : Signed token negative body)
    (hhead : ∃ c ∈ body.head?, digitValue c < 16) (rest : Bytes) :
    scanSign (token ++ rest) = (negative, body ++ rest) := by
  cases hsigned with
  | plus => rfl
  | minus => rfl
  | plain =>
      obtain ⟨c, hc, hdigit⟩ := hhead
      obtain ⟨digits, rfl⟩ : ∃ digits, token = c :: digits :=
        ⟨token.tail, List.eq_cons_of_mem_head? hc⟩
      rw [List.cons_append, scanSign, if_neg, if_neg]
      · intro hplus
        rw [UInt8.toNat_inj.mp (show c.toNat = (43 : UInt8).toNat from hplus)]
          at hdigit
        exact absurd hdigit (by decide)
      · intro hminus
        rw [UInt8.toNat_inj.mp (show c.toNat = (45 : UInt8).toNat from hminus)]
          at hdigit
        exact absurd hdigit (by decide)

theorem Digits.head {base : Nat} {body : Bytes} (hdigits : Digits base body)
    (hbase : base ≤ 16) : ∃ c ∈ body.head?, digitValue c < 16 := by
  obtain ⟨hsome, hall⟩ := hdigits
  cases body with
  | nil => exact absurd rfl hsome
  | cons c body =>
      exact ⟨c, rfl, (hall c List.mem_cons_self).trans_le hbase⟩

theorem not_digit_of_head {base : Nat} (hbase : base ≤ 16) {rest : Bytes}
    (hends : Ends rest) : ∀ c ∈ rest.head?, ¬ digitValue c < base := by
  intro c hc
  rw [not_digit_of_ends (hends c hc)]
  omega

/-- What a conversion takes starts with no blank. -/
theorem Signed.head {token body : Bytes} {negative : Bool}
    (hsigned : Signed token negative body)
    (hhead : ∃ c ∈ body.head?, digitValue c < 16) :
    ∃ c ∈ token.head?, isSpace c = false := by
  cases hsigned with
  | plus => exact ⟨43, rfl, rfl⟩
  | minus => exact ⟨45, rfl, rfl⟩
  | plain =>
      obtain ⟨c, hc, hdigit⟩ := hhead
      exact ⟨c, hc, isSpace_of_digit hdigit⟩

theorem Signed.split {text body rest : Bytes} {negative : Bool}
    (hsigned : Signed text negative (body ++ rest)) :
    ∃ token, text = token ++ rest ∧ Signed token negative body := by
  cases hsigned with
  | plain => exact ⟨body, rfl, .plain body⟩
  | plus => exact ⟨43 :: body, rfl, .plus body⟩
  | minus => exact ⟨45 :: body, rfl, .minus body⟩

section Conversions

variable {text token rest : Bytes} {word : Nat}

theorem scanU_takes (hscan : scanU text = some (word, rest)) :
    ∃ token, TakenU token word ∧ skipSpace text = token ++ rest := by
  have hsigned := signed_scanSign (skipSpace text)
  unfold scanU at hscan
  generalize scanSign (skipSpace text) = sign at hsigned hscan
  obtain ⟨body, hbody, hdigits, -, hword⟩ :=
    scanNumber_eq_some_iff.mp hscan
  rw [hbody] at hsigned
  obtain ⟨token, htoken, hsigned⟩ := hsigned.split
  exact ⟨token, ⟨_, body, hsigned, hdigits, hword⟩, htoken⟩

theorem scanU_eq (htaken : TakenU token word) (hends : Ends rest)
    (htext : skipSpace text = token ++ rest) :
    scanU text = some (word, rest) := by
  obtain ⟨negative, body, hsigned, hdigits, hword⟩ := htaken
  have hsign := scanSign_eq hsigned (hdigits.head (by decide)) rest
  rw [scanU, htext, hsign]
  exact scanNumber_eq_some_iff.mpr
    ⟨body, rfl, hdigits, not_digit_of_head (by decide) hends, hword⟩

theorem dropHexPrefix_eq_some_iff {body digits : Bytes} :
    dropHexPrefix body = some digits ↔
      Prefixed body digits ∧ ∃ c ∈ digits.head?, digitValue c < 16 := by
  constructor
  · intro hdrop
    unfold dropHexPrefix at hdrop
    split at hdrop
    · rename_i x d behind
      split_ifs at hdrop with hprefix
      cases hdrop
      refine ⟨⟨x, ?_, rfl⟩, d, rfl, hprefix.2⟩
      exact hprefix.1.imp (fun h => UInt8.toNat_inj.mp h)
        (fun h => UInt8.toNat_inj.mp h)
    · cases hdrop
  · rintro ⟨⟨x, hx, rfl⟩, c, hc, hdigit⟩
    obtain ⟨behind, rfl⟩ : ∃ behind, digits = c :: behind :=
      ⟨digits.tail, List.eq_cons_of_mem_head? hc⟩
    refine if_pos ⟨?_, hdigit⟩
    exact hx.imp (congrArg UInt8.toNat) (congrArg UInt8.toNat)

/-- Digits of a number are no prefix and digits. -/
theorem dropHexPrefix_eq_none {base : Nat} {digits : Bytes}
    (hdigits : Digits base digits) (hbase : base ≤ 16) (hends : Ends rest) :
    dropHexPrefix (digits ++ rest) = none := by
  rw [Option.eq_none_iff_forall_not_mem]
  intro behind hdrop
  obtain ⟨⟨x, hx, hbody⟩, -⟩ := dropHexPrefix_eq_some_iff.mp hdrop
  have hvalue : digitValue x = 16 := by
    rcases hx with rfl | rfl
    · rfl
    · rfl
  obtain ⟨hsome, hall⟩ := hdigits
  cases digits with
  | nil => exact hsome rfl
  | cons c digits =>
      have htail : digits ++ rest = x :: behind := (List.cons.inj hbody).2
      cases digits with
      | nil =>
          rw [List.nil_append] at htail
          have hend := hends x (by rw [htail]; rfl)
          rcases hx with rfl | rfl
          · exact absurd hend (by decide)
          · exact absurd hend (by decide)
      | cons d digits =>
          obtain rfl : d = x := (List.cons.inj htail).1
          have hlt := hall d (by simp)
          omega

theorem dropHexPrefix_prefixed {body digits : Bytes}
    (hbody : Prefixed body digits) (hdigits : Digits 16 digits) :
    dropHexPrefix (body ++ rest) = some (digits ++ rest) := by
  obtain ⟨x, hx, rfl⟩ := hbody
  obtain ⟨c, hc, hdigit⟩ := hdigits.head le_rfl
  refine dropHexPrefix_eq_some_iff.mpr ⟨⟨x, hx, rfl⟩, c, ?_, hdigit⟩
  rw [List.head?_append, Option.mem_def.mp hc]
  rfl

theorem Prefixed.head {body digits : Bytes} (hbody : Prefixed body digits) :
    ∃ c ∈ body.head?, digitValue c < 16 := by
  obtain ⟨x, -, rfl⟩ := hbody
  exact ⟨48, rfl, by decide⟩

theorem scanX_takes (hscan : scanX text = some (word, rest)) :
    ∃ token, TakenX token word ∧ skipSpace text = token ++ rest := by
  have hsigned := signed_scanSign (skipSpace text)
  unfold scanX at hscan
  generalize scanSign (skipSpace text) = sign at hsigned hscan
  obtain ⟨digits, hbody, hdigits, -, hword⟩ :=
    scanNumber_eq_some_iff.mp hscan
  cases hdrop : dropHexPrefix sign.2 with
  | none =>
      rw [hdrop, Option.getD_none] at hbody
      rw [hbody] at hsigned
      obtain ⟨token, htoken, hsigned⟩ := hsigned.split
      exact ⟨token, ⟨_, digits, digits, hsigned, .inl rfl, hdigits, hword⟩,
        htoken⟩
  | some behind =>
      rw [hdrop, Option.getD_some] at hbody
      obtain ⟨⟨x, hx, hprefixed⟩, -⟩ := dropHexPrefix_eq_some_iff.mp hdrop
      rw [hprefixed, hbody] at hsigned
      obtain ⟨token, htoken, hsigned⟩ :=
        @Signed.split _ (48 :: x :: digits) _ _ hsigned
      exact ⟨token, ⟨_, _, digits, hsigned, .inr ⟨x, hx, rfl⟩, hdigits,
        hword⟩, htoken⟩

theorem scanX_eq (htaken : TakenX token word) (hends : Ends rest)
    (htext : skipSpace text = token ++ rest) :
    scanX text = some (word, rest) := by
  obtain ⟨negative, body, digits, hsigned, hbody, hdigits, hword⟩ := htaken
  have hnumber := scanNumber_eq_some_iff.mpr
    ⟨digits, rfl, hdigits, not_digit_of_head le_rfl hends, hword⟩
  rcases hbody with rfl | hprefixed
  · have hsign := scanSign_eq hsigned (hdigits.head le_rfl) rest
    rw [scanX, htext, hsign]
    dsimp only
    rw [dropHexPrefix_eq_none hdigits le_rfl hends]
    exact hnumber
  · have hsign := scanSign_eq hsigned hprefixed.head rest
    rw [scanX, htext, hsign]
    dsimp only
    rw [dropHexPrefix_prefixed hprefixed hdigits]
    exact hnumber

theorem scanI_takes {n : Int} (hscan : scanI text = some (n, rest)) :
    ∃ token, TakenI token n ∧ skipSpace text = token ++ rest := by
  have hsigned := signed_scanSign (skipSpace text)
  unfold scanI at hscan
  generalize scanSign (skipSpace text) = sign at hsigned hscan
  obtain ⟨⟨word, behind⟩, hnumber, heq⟩ := Option.map_eq_some_iff.mp hscan
  obtain ⟨rfl, rfl⟩ := Prod.mk.inj heq
  cases hdrop : dropHexPrefix sign.2 with
  | some digits =>
      rw [hdrop] at hnumber
      obtain ⟨body, hbody, hdigits, -, rfl⟩ :=
        scanNumber_eq_some_iff.mp hnumber
      obtain ⟨⟨x, hx, hprefixed⟩, -⟩ := dropHexPrefix_eq_some_iff.mp hdrop
      rw [hprefixed, hbody] at hsigned
      obtain ⟨token, htoken, hsigned⟩ :=
        @Signed.split _ (48 :: x :: body) _ _ hsigned
      exact ⟨token, ⟨_, _, 16, body, hsigned,
        .hexadecimal ⟨x, hx, rfl⟩ hdigits, rfl⟩, htoken⟩
  | none =>
      rw [hdrop] at hnumber
      dsimp only at hnumber
      split_ifs at hnumber with hoctal
      · obtain ⟨body, hbody, hdigits, -, rfl⟩ :=
          scanNumber_eq_some_iff.mp hnumber
        have hhead : body.head? = some 48 := by
          rw [hbody, List.head?_append_of_ne_nil _ hdigits.1] at hoctal
          exact hoctal
        rw [hbody] at hsigned
        obtain ⟨token, htoken, hsigned⟩ := hsigned.split
        exact ⟨token, ⟨_, body, 8, body, hsigned, .octal hhead hdigits, rfl⟩,
          htoken⟩
      · obtain ⟨body, hbody, hdigits, -, rfl⟩ :=
          scanNumber_eq_some_iff.mp hnumber
        have hhead : body.head? ≠ some 48 := by
          rw [hbody, List.head?_append_of_ne_nil _ hdigits.1] at hoctal
          exact hoctal
        rw [hbody] at hsigned
        obtain ⟨token, htoken, hsigned⟩ := hsigned.split
        exact ⟨token, ⟨_, body, 10, body, hsigned, .decimal hhead hdigits,
          rfl⟩, htoken⟩

theorem scanI_eq {n : Int} (htaken : TakenI token n) (hends : Ends rest)
    (htext : skipSpace text = token ++ rest) :
    scanI text = some (n, rest) := by
  obtain ⟨negative, body, base, digits, hsigned, hbased, rfl⟩ := htaken
  have hnumber : ∀ base, base ≤ 16 → Digits base digits →
      scanNumber storeInt base negative (digits ++ rest) =
        some (storeInt negative (value base digits), rest) :=
    fun base hbase hdigits => scanNumber_eq_some_iff.mpr
      ⟨digits, rfl, hdigits, not_digit_of_head hbase hends, rfl⟩
  cases hbased with
  | hexadecimal hprefixed hdigits =>
      have hsign := scanSign_eq hsigned hprefixed.head rest
      rw [scanI, htext, hsign]
      dsimp only
      rw [dropHexPrefix_prefixed hprefixed hdigits]
      dsimp only
      rw [hnumber 16 le_rfl hdigits]
      rfl
  | octal hhead hdigits =>
      have hsign := scanSign_eq hsigned (hdigits.head (by decide)) rest
      rw [scanI, htext, hsign]
      dsimp only
      rw [dropHexPrefix_eq_none hdigits (by decide) hends]
      dsimp only
      rw [List.head?_append_of_ne_nil _ hdigits.1, if_pos hhead,
        hnumber 8 (by decide) hdigits]
      rfl
  | decimal hhead hdigits =>
      have hsign := scanSign_eq hsigned (hdigits.head (by decide)) rest
      rw [scanI, htext, hsign]
      dsimp only
      rw [dropHexPrefix_eq_none hdigits (by decide) hends]
      dsimp only
      rw [List.head?_append_of_ne_nil _ hdigits.1, if_neg hhead,
        hnumber 10 (by decide) hdigits]
      rfl

end Conversions

section Formats

variable {text rest : Bytes} {tokens : List Bytes}

theorem takes_char {c : Char} {b : UInt8} (hb : b.toNat = c.toNat)
    (hscan : scanChar c (skipSpace text) = some rest) :
    Takes isSpace [[b]] text rest := by
  refine Takes.token ?_
  change skipSpace text = b :: rest
  cases htext : skipSpace text with
  | nil =>
      rw [htext] at hscan
      cases hscan
  | cons d behind =>
      rw [htext, scanChar] at hscan
      split_ifs at hscan with hd
      cases hscan
      rw [UInt8.toNat_inj.mp (hd.trans hb.symm)]

theorem scanChar_of_spaced {c : Char} {b : UInt8} (hb : b.toNat = c.toNat)
    (hblank : isSpace b = false)
    (htext : Spaced isSpace ([b] :: tokens) text) :
    ∃ rest, scanChar c (skipSpace text) = some rest ∧
      Spaced isSpace tokens rest := by
  obtain ⟨rest, hskip, hrest⟩ := htext.dropWhile ⟨b, rfl, hblank⟩
  refine ⟨rest, ?_, hrest⟩
  rw [skipSpace, hskip]
  exact if_pos hb

theorem takes_number {token : Bytes} (htext : skipSpace text = token ++ rest) :
    Takes isSpace [token] text rest :=
  Takes.token htext

/-- A number is followed by what may follow one. -/
def EndsBefore (tokens : List Bytes) : Prop :=
  ∀ rest, Spaced isSpace tokens rest → Ends rest

theorem endsBefore_nil : EndsBefore [] := by
  intro rest hrest c hc
  cases hrest with
  | blanks hblank => exact .inl (hblank c (List.mem_of_mem_head? hc))

theorem endsBefore_comma (tokens : List Bytes) :
    EndsBefore (comma :: tokens) := by
  intro rest hrest c hc
  refine (hrest.head rfl (by simp [comma]) c hc).imp id fun hcomma => ?_
  exact .inl (Option.some.inj hcomma).symm

theorem endsBefore_close (tokens : List Bytes) :
    EndsBefore (closeBrace :: tokens) := by
  intro rest hrest c hc
  refine (hrest.head rfl (by simp [closeBrace]) c hc).imp id fun hclose => ?_
  exact .inr (Option.some.inj hclose).symm

theorem commas_cons (first : Bytes) (texts : List Bytes) :
    commas (first :: texts) =
      first :: texts.flatMap fun text => [comma, text] := by
  induction texts generalizing first with
  | nil => rfl
  | cons second texts ih =>
      rw [commas, ih, List.flatMap_cons]
      · rfl
      · simp

theorem scanWords_takes {count : Nat} {words : List Nat}
    (hscan : scanWords count text = some (words, rest)) :
    ∃ texts : List Bytes, texts.length = count ∧
      List.Forall₂ TakenU texts words ∧
      Takes isSpace (texts.flatMap fun text => [comma, text]) text rest := by
  induction count generalizing text words with
  | zero =>
      cases hscan
      exact ⟨[], rfl, .nil, Takes.nil _⟩
  | succ count ih =>
      simp only [scanWords, Option.bind_eq_bind, Option.bind_eq_some_iff,
        Option.pure_def, Prod.exists, Option.some.injEq,
        Prod.mk.injEq] at hscan
      obtain ⟨text₁, hcomma, word, text₂, hword, others, text₃, hothers, rfl,
        rfl⟩ := hscan
      obtain ⟨texts, hlength, htaken, htakes⟩ := ih hothers
      obtain ⟨token, htoken, htext⟩ := scanU_takes hword
      refine ⟨token :: texts, congrArg (· + 1) hlength, .cons htoken htaken,
        ?_⟩
      exact (takes_char (b := 44) rfl hcomma).append
        ((takes_number htext).append htakes)

theorem TakenU.head {token : Bytes} {word : Nat} (htaken : TakenU token word) :
    ∃ c ∈ token.head?, isSpace c = false := by
  obtain ⟨negative, body, hsigned, hdigits, -⟩ := htaken
  exact hsigned.head (hdigits.head (by decide))

theorem scanU_of_spaced {token : Bytes} {word : Nat}
    (htaken : TakenU token word) (hends : EndsBefore tokens)
    (htext : Spaced isSpace (token :: tokens) text) :
    ∃ rest, scanU text = some (word, rest) ∧ Spaced isSpace tokens rest := by
  obtain ⟨rest, hskip, hrest⟩ := htext.dropWhile htaken.head
  exact ⟨rest, scanU_eq htaken (hends rest hrest) hskip, hrest⟩

theorem endsBefore_words (texts : List Bytes) (hends : EndsBefore tokens) :
    EndsBefore ((texts.flatMap fun text => [comma, text]) ++ tokens) := by
  cases texts with
  | nil => exact hends
  | cons first texts => exact endsBefore_comma _

theorem scanWords_of_spaced {texts : List Bytes} {words : List Nat}
    (htaken : List.Forall₂ TakenU texts words) (hends : EndsBefore tokens)
    (htext : Spaced isSpace
      ((texts.flatMap fun text => [comma, text]) ++ tokens) text) :
    ∃ rest, scanWords texts.length text = some (words, rest) ∧
      Spaced isSpace tokens rest := by
  induction htaken generalizing text with
  | nil => exact ⟨text, rfl, htext⟩
  | cons hword hothers ih =>
      obtain ⟨text₁, hcomma, htext₁⟩ :=
        scanChar_of_spaced (c := ',') rfl rfl htext
      obtain ⟨text₂, hnumber, htext₂⟩ :=
        scanU_of_spaced hword (endsBefore_words _ hends) htext₁
      obtain ⟨rest, hrest, htail⟩ := ih htext₂
      refine ⟨rest, ?_, htail⟩
      simp only [List.length_cons, scanWords, hcomma, hnumber, hrest,
        Option.bind_eq_bind, Option.bind_some, Option.pure_def]

/-- The call that is not looked at takes what there is of two braces. -/
theorem scanClose_takes (text : Bytes) :
    ∃ braces ≤ 2, Takes isSpace (List.replicate braces closeBrace) text
      (scanClose text) := by
  unfold scanClose
  dsimp only
  cases hfirst : scanChar '}' (skipSpace text) with
  | none => exact ⟨0, by decide, Takes.skip text⟩
  | some text₁ =>
      have htakes₁ := takes_char (b := 125) rfl hfirst
      dsimp only
      cases hsecond : scanChar '}' (skipSpace text₁) with
      | none => exact ⟨1, by decide, htakes₁.append (Takes.skip text₁)⟩
      | some text₂ =>
          have htakes₂ := takes_char (b := 125) rfl hsecond
          exact ⟨2, le_rfl, htakes₁.append (htakes₂.append (Takes.skip text₂))⟩

/-- What is left behind a key: nothing, or a comma and the next keys. -/
inductive Behind : List Bytes → Bytes → Prop
  | last : Behind [] []
  | more {tokens : List Bytes} {rest : Bytes}
      (hrest : Spaced isSpace tokens rest) :
      Behind (comma :: tokens) (44 :: rest)

theorem behind_of_spaced
    (hnext : tokens = [] ∨ ∃ others, tokens = comma :: others)
    (htext : Spaced isSpace tokens text) : Behind tokens (skipSpace text) := by
  rcases hnext with rfl | ⟨others, rfl⟩
  · rw [skipSpace, htext.dropWhile_nil]
    exact .last
  · obtain ⟨rest, hskip, hrest⟩ := htext.dropWhile ⟨44, rfl, rfl⟩
    rw [skipSpace, hskip]
    exact .more hrest

theorem Behind.scanChar_close (hbehind : Behind tokens text) :
    scanChar '}' text = none := by
  cases hbehind with
  | last => rfl
  | more => rfl

theorem scanClose_of_spaced {braces : Nat} (hbraces : braces ≤ 2)
    (hnext : tokens = [] ∨ ∃ others, tokens = comma :: others)
    (htext : Spaced isSpace (List.replicate braces closeBrace ++ tokens)
      text) : Behind tokens (scanClose text) := by
  have hnone : ∀ {text}, Spaced isSpace tokens text →
      scanChar '}' (skipSpace text) = none :=
    fun htext => (behind_of_spaced hnext htext).scanChar_close
  unfold scanClose
  dsimp only
  rcases braces with _ | _ | _ | braces
  · rw [hnone htext]
    exact behind_of_spaced hnext htext
  · obtain ⟨text₁, hfirst, htext₁⟩ :=
      scanChar_of_spaced (c := '}') rfl rfl htext
    rw [hfirst]
    dsimp only
    rw [hnone htext₁]
    exact behind_of_spaced hnext htext₁
  · obtain ⟨text₁, hfirst, htext₁⟩ :=
      scanChar_of_spaced (c := '}') rfl rfl htext
    obtain ⟨text₂, hsecond, htext₂⟩ :=
      scanChar_of_spaced (c := '}') rfl rfl htext₁
    rw [hfirst]
    dsimp only
    rw [hsecond]
    exact behind_of_spaced hnext htext₂
  · omega

end Formats

section Keys

variable {text rest : Bytes} {tokens : List Bytes}

/-- The literal `0x`. -/
theorem takes_zeroX {between : Bytes}
    (hzero : scanChar '0' (skipSpace text) = some between)
    (hx : scanChar 'x' between = some rest) :
    Takes isSpace [[48, 120]] text rest := by
  refine takes_number ?_
  cases htext : skipSpace text with
  | nil =>
      rw [htext] at hzero
      cases hzero
  | cons c behind =>
      rw [htext, scanChar] at hzero
      split_ifs at hzero with hc
      cases hzero
      cases between with
      | nil => cases hx
      | cons d behind =>
          rw [scanChar] at hx
          split_ifs at hx with hd
          cases hx
          obtain rfl : c = 48 := UInt8.toNat_inj.mp hc
          obtain rfl : d = 120 := UInt8.toNat_inj.mp hd
          rfl

theorem zeroX_of_spaced (htext : Spaced isSpace ([48, 120] :: tokens) text) :
    ∃ between rest, scanChar '0' (skipSpace text) = some between ∧
      scanChar 'x' between = some rest ∧ Spaced isSpace tokens rest := by
  obtain ⟨rest, hskip, hrest⟩ := htext.dropWhile ⟨48, rfl, rfl⟩
  refine ⟨120 :: rest, rest, ?_, rfl, hrest⟩
  rw [skipSpace, hskip]
  rfl

theorem scanKey_takes {key : RSAPublicKey}
    (hscan : scanKey text = some (key, rest)) :
    ∃ k : KeyText, k.Lax key ∧ Takes isSpace k.taken text rest := by
  rw [scanKey] at hscan
  obtain ⟨text₁, hopen, hscan⟩ := Option.bind_eq_some_iff.mp hscan
  obtain ⟨⟨len, text₂⟩, hlen, hscan⟩ := Option.bind_eq_some_iff.mp hscan
  obtain ⟨text₃, hcomma, hscan⟩ := Option.bind_eq_some_iff.mp hscan
  obtain ⟨text₄, hzero, hscan⟩ := Option.bind_eq_some_iff.mp hscan
  obtain ⟨text₅, hx, hscan⟩ := Option.bind_eq_some_iff.mp hscan
  obtain ⟨⟨n0inv, text₆⟩, hn0inv, hscan⟩ := Option.bind_eq_some_iff.mp hscan
  obtain ⟨text₇, hcomma₂, hscan⟩ := Option.bind_eq_some_iff.mp hscan
  obtain ⟨text₈, hopen₂, hscan⟩ := Option.bind_eq_some_iff.mp hscan
  obtain ⟨⟨firstN, text₉⟩, hfirstN, hscan⟩ := Option.bind_eq_some_iff.mp hscan
  split_ifs at hscan with hwords
  obtain ⟨⟨restN, text₁₀⟩, hrestN, hscan⟩ := Option.bind_eq_some_iff.mp hscan
  obtain ⟨text₁₁, hclose, hscan⟩ := Option.bind_eq_some_iff.mp hscan
  obtain ⟨text₁₂, hcomma₃, hscan⟩ := Option.bind_eq_some_iff.mp hscan
  obtain ⟨text₁₃, hopen₃, hscan⟩ := Option.bind_eq_some_iff.mp hscan
  obtain ⟨⟨firstR, text₁₄⟩, hfirstR, hscan⟩ :=
    Option.bind_eq_some_iff.mp hscan
  obtain ⟨⟨restR, text₁₅⟩, hrestR, hscan⟩ := Option.bind_eq_some_iff.mp hscan
  obtain ⟨rfl, rfl⟩ := Prod.mk.inj (Option.some.inj hscan)
  obtain ⟨tokenLen, htakenLen, hlen⟩ := scanI_takes hlen
  obtain ⟨tokenX, htakenX, hn0inv⟩ := scanX_takes hn0inv
  obtain ⟨tokenN, htakenN, hfirstN⟩ := scanU_takes hfirstN
  obtain ⟨textsN, hlengthN, htakenRestN, hrestN⟩ := scanWords_takes hrestN
  obtain ⟨tokenR, htakenR, hfirstR⟩ := scanU_takes hfirstR
  obtain ⟨textsR, hlengthR, htakenRestR, hrestR⟩ := scanWords_takes hrestR
  obtain ⟨braces, hbraces, hend⟩ := scanClose_takes text₁₅
  refine ⟨⟨tokenLen, tokenX, tokenN :: textsN, tokenR :: textsR, braces⟩,
    ⟨htakenLen, not_not.mp hwords, htakenX, .cons htakenN htakenRestN,
      congrArg (· + 1) hlengthN, .cons htakenR htakenRestR,
      congrArg (· + 1) hlengthR, hbraces⟩, ?_⟩
  have hhead := (takes_char (b := 123) rfl hopen).append
    ((takes_number hlen).append ((takes_char (b := 44) rfl hcomma).append
      ((takes_zeroX hzero hx).append (takes_number hn0inv))))
  have hn := (takes_char (b := 44) rfl hcomma₂).append
    ((takes_char (b := 123) rfl hopen₂).append
      ((takes_number hfirstN).append hrestN))
  have hrr := (takes_char (b := 125) rfl hclose).append
    ((takes_char (b := 44) rfl hcomma₃).append
      ((takes_char (b := 123) rfl hopen₃).append
        ((takes_number hfirstR).append hrestR)))
  have hall := hhead.append (hn.append (hrr.append hend))
  simp only [KeyText.taken, KeyText.words, commas_cons, List.append_assoc,
    List.cons_append, List.nil_append] at hall ⊢
  exact hall

theorem KeyText.Lax.length_pos {k : KeyText} {key : RSAPublicKey}
    (hlax : k.Lax key) :
    (∃ first texts, k.n = first :: texts) ∧
      ∃ first texts, k.rr = first :: texts :=
  ⟨List.exists_cons_of_length_pos (hlax.nLength ▸ by decide),
    List.exists_cons_of_length_pos (hlax.rrLength ▸ by decide)⟩

theorem TakenX.head {token : Bytes} {word : Nat} (htaken : TakenX token word) :
    ∃ c ∈ token.head?, isSpace c = false := by
  obtain ⟨negative, body, digits, hsigned, hbody, hdigits, -⟩ := htaken
  rcases hbody with rfl | hprefixed
  · exact hsigned.head (hdigits.head le_rfl)
  · exact hsigned.head hprefixed.head

theorem TakenI.head {token : Bytes} {n : Int} (htaken : TakenI token n) :
    ∃ c ∈ token.head?, isSpace c = false := by
  obtain ⟨negative, body, base, digits, hsigned, hbased, -⟩ := htaken
  refine hsigned.head ?_
  cases hbased with
  | hexadecimal hprefixed hdigits => exact hprefixed.head
  | octal hhead hdigits => exact hdigits.head (by decide)
  | decimal hhead hdigits => exact hdigits.head (by decide)

theorem scanKey_of_spaced {k : KeyText} {key : RSAPublicKey}
    (hlax : k.Lax key)
    (hnext : tokens = [] ∨ ∃ others, tokens = comma :: others)
    (htext : Spaced isSpace (k.taken ++ tokens) text) :
    ∃ rest, scanKey text = some (key, rest) ∧ Behind tokens rest := by
  obtain ⟨⟨firstN, textsN, hn⟩, firstR, textsR, hrr⟩ := hlax.length_pos
  obtain ⟨keyLen, keyX, keyN, keyR⟩ := key
  obtain ⟨textLen, textX, textN, textR, braces⟩ := k
  dsimp only at hn hrr
  subst hn hrr
  obtain ⟨hlen, hwords, hn0inv, hn, hlengthN, hrr, hlengthR, hbraces⟩ := hlax
  dsimp only at hlen hwords hn0inv hn hlengthN hrr hlengthR hbraces
  cases hn with
  | cons hfirstN hrestN =>
  cases hrr with
  | cons hfirstR hrestR =>
  simp only [KeyText.taken, KeyText.words, commas_cons, List.append_assoc,
    List.cons_append, List.nil_append] at htext
  obtain ⟨text₁, hopen, htext⟩ := scanChar_of_spaced (c := '{') rfl rfl htext
  obtain ⟨text₂, hskip, htext⟩ := htext.dropWhile hlen.head
  have hlen' := scanI_eq hlen (endsBefore_comma _ _ htext) hskip
  obtain ⟨text₃, hcomma, htext⟩ := scanChar_of_spaced (c := ',') rfl rfl htext
  obtain ⟨text₄, text₅, hzero, hx, htext⟩ := zeroX_of_spaced htext
  obtain ⟨text₆, hskip₂, htext⟩ := htext.dropWhile hn0inv.head
  have hn0inv' := scanX_eq hn0inv (endsBefore_comma _ _ htext) hskip₂
  obtain ⟨text₇, hcomma₂, htext⟩ :=
    scanChar_of_spaced (c := ',') rfl rfl htext
  obtain ⟨text₈, hopen₂, htext⟩ := scanChar_of_spaced (c := '{') rfl rfl htext
  obtain ⟨text₉, hfirstN', htext⟩ := scanU_of_spaced hfirstN
    (endsBefore_words _ (endsBefore_close _)) htext
  obtain ⟨text₁₀, hrestN', htext⟩ := scanWords_of_spaced hrestN
    (endsBefore_close _) htext
  obtain ⟨text₁₁, hclose, htext⟩ := scanChar_of_spaced (c := '}') rfl rfl htext
  obtain ⟨text₁₂, hcomma₃, htext⟩ :=
    scanChar_of_spaced (c := ',') rfl rfl htext
  obtain ⟨text₁₃, hopen₃, htext⟩ := scanChar_of_spaced (c := '{') rfl rfl htext
  have hends : EndsBefore (List.replicate braces closeBrace ++ tokens) := by
    cases braces with
    | zero =>
        rcases hnext with rfl | ⟨others, rfl⟩
        · exact endsBefore_nil
        · exact endsBefore_comma others
    | succ braces => exact endsBefore_close _
  obtain ⟨text₁₄, hfirstR', htext⟩ := scanU_of_spaced hfirstR
    (endsBefore_words _ hends) htext
  obtain ⟨text₁₅, hrestR', htext⟩ := scanWords_of_spaced hrestR hends htext
  refine ⟨scanClose text₁₅, ?_, scanClose_of_spaced hbraces hnext htext⟩
  rw [show textsN.length = RSANUMWORDS - 1 from Nat.succ.inj hlengthN]
    at hrestN'
  rw [show textsR.length = RSANUMWORDS - 1 from Nat.succ.inj hlengthR]
    at hrestR'
  rw [scanKey]
  refine Option.bind_eq_some_iff.mpr ⟨_, hopen, ?_⟩
  refine Option.bind_eq_some_iff.mpr ⟨_, hlen', ?_⟩
  refine Option.bind_eq_some_iff.mpr ⟨_, hcomma, ?_⟩
  refine Option.bind_eq_some_iff.mpr ⟨_, hzero, ?_⟩
  refine Option.bind_eq_some_iff.mpr ⟨_, hx, ?_⟩
  refine Option.bind_eq_some_iff.mpr ⟨_, hn0inv', ?_⟩
  refine Option.bind_eq_some_iff.mpr ⟨_, hcomma₂, ?_⟩
  refine Option.bind_eq_some_iff.mpr ⟨_, hopen₂, ?_⟩
  refine Option.bind_eq_some_iff.mpr ⟨_, hfirstN', ?_⟩
  refine (if_neg (not_not.mpr hwords)).trans ?_
  refine Option.bind_eq_some_iff.mpr ⟨_, hrestN', ?_⟩
  refine Option.bind_eq_some_iff.mpr ⟨_, hclose, ?_⟩
  refine Option.bind_eq_some_iff.mpr ⟨_, hcomma₃, ?_⟩
  refine Option.bind_eq_some_iff.mpr ⟨_, hopen₃, ?_⟩
  refine Option.bind_eq_some_iff.mpr ⟨_, hfirstR', ?_⟩
  exact Option.bind_eq_some_iff.mpr ⟨_, hrestR', rfl⟩

theorem keys_cons {key : List Bytes} {rest : List (List Bytes)}
    (hrest : rest ≠ []) : keys (key :: rest) = key ++ comma :: keys rest := by
  cases rest with
  | nil => exact absurd rfl hrest
  | cons next rest => rfl

theorem lax_of_loadKeysFrom {fuel : Nat} {found : List RSAPublicKey}
    (hload : loadKeysFrom fuel text = some found) : Lax text found := by
  induction fuel generalizing text found with
  | zero => cases hload
  | succ fuel ih =>
      rw [loadKeysFrom] at hload
      cases hscan : scanKey text with
      | none =>
          rw [hscan] at hload
          cases hload
      | some scanned =>
          obtain ⟨key, rest⟩ := scanned
          obtain ⟨k, hlax, htakes⟩ := scanKey_takes hscan
          rw [hscan] at hload
          cases rest with
          | nil =>
              cases hload
              refine ⟨[k], by simp, .cons hlax .nil, ?_⟩
              have htext := htakes [] (.blanks (by simp))
              rwa [List.append_nil] at htext
          | cons b rest =>
              dsimp only at hload
              split_ifs at hload with hb
              obtain rfl : b = 44 := UInt8.toNat_inj.mp hb
              obtain ⟨others, hothers, rfl⟩ := Option.map_eq_some_iff.mp hload
              obtain ⟨ks, hne, hall, hspaced⟩ := ih hothers
              refine ⟨k :: ks, by simp, .cons hlax hall, ?_⟩
              rw [List.map_cons, keys_cons (by simpa using hne)]
              refine htakes _ ?_
              exact @Spaced.token _ _ [] comma rest _ (by simp) hspaced

theorem loadKeysFrom_of_lax {ks : List KeyText} {found : List RSAPublicKey}
    (hall : List.Forall₂ KeyText.Lax ks found) (hne : ks ≠ [])
    (htext : Spaced isSpace (keys (ks.map KeyText.taken)) text) {fuel : Nat}
    (hfuel : ks.length ≤ fuel) : loadKeysFrom fuel text = some found := by
  induction hall generalizing text fuel with
  | nil => exact absurd rfl hne
  | cons hlax hall ih =>
      rename_i k key ks found
      cases fuel with
      | zero => cases hfuel
      | succ fuel =>
          rw [loadKeysFrom]
          cases ks with
          | nil =>
              cases hall
              have htext' : Spaced isSpace (k.taken ++ []) text := by
                rwa [List.append_nil]
              obtain ⟨rest, hscan, hbehind⟩ :=
                scanKey_of_spaced hlax (.inl rfl) htext'
              cases hbehind
              rw [hscan]
          | cons next ks =>
              rw [List.map_cons, keys_cons (by simp)] at htext
              obtain ⟨rest, hscan, hbehind⟩ :=
                scanKey_of_spaced hlax (.inr ⟨_, rfl⟩) htext
              cases hbehind with
              | more hrest =>
                  rw [hscan]
                  dsimp only
                  rw [ih (by simp) hrest (Nat.le_of_succ_le_succ hfuel)]
                  rfl

/-- There are no more keys than characters. -/
theorem length_le_keys (ks : List KeyText) :
    ks.length ≤ (keys (ks.map KeyText.taken)).flatten.length := by
  induction ks with
  | nil => exact Nat.zero_le _
  | cons k ks ih =>
      have hopen : 1 ≤ k.taken.flatten.length := by
        rw [KeyText.taken, List.cons_append, List.flatten_cons,
          List.length_append]
        exact Nat.le_add_right 1 _
      cases ks with
      | nil => exact hopen
      | cons next ks =>
          rw [List.map_cons, keys_cons (by simp), List.flatten_append,
            List.length_append, List.flatten_cons, List.length_append,
            List.length_cons]
          omega

/-- The code loads the keys of the lax form and of no other text. -/
theorem loadKeys_eq_some_iff {found : List RSAPublicKey} :
    loadKeys (some text) = some found ↔ Lax text found := by
  constructor
  · exact lax_of_loadKeysFrom
  · rintro ⟨ks, hne, hall, htext⟩
    refine loadKeysFrom_of_lax hall hne htext ?_
    have hkeys := (length_le_keys ks).trans htext.length_le
    omega

end Keys

theorem Number.taken {text : Bytes} {word : Nat} (hnumber : Number text word) :
    TakenU text word := by
  cases hnumber with
  | unsigned hdigits hfits =>
      refine ⟨false, text, .plain text, hdigits, ?_⟩
      rw [storeWord, if_neg (by omega), if_neg (by decide),
        Nat.mod_eq_of_lt hfits]
  | negative hdigits hfits =>
      rename_i body
      refine ⟨true, body, .minus body, hdigits, ?_⟩
      rw [storeWord, if_neg (by omega), if_pos rfl]
      omega

theorem HexNumber.taken {text : Bytes} {word : Nat}
    (hnumber : HexNumber text word) : TakenX text word := by
  obtain ⟨hdigits, rfl, hfits⟩ := hnumber
  refine ⟨false, text, text, .plain text, .inl rfl, hdigits, ?_⟩
  rw [storeWord, if_neg (by omega), if_neg (by decide),
    Nat.mod_eq_of_lt hfits]

theorem takenI_words : TakenI [54, 52] 64 :=
  ⟨false, _, 10, _, .plain _,
    .decimal (by decide) ⟨by decide, List.forall_mem_cons.mpr
      ⟨by decide, List.forall_mem_singleton.mpr (by decide)⟩⟩, by decide⟩

theorem KeyText.Documented.lax {k : KeyText} {key : RSAPublicKey}
    (hkey : k.Documented key) : k.Lax key where
  len := by
    rw [hkey.len.1, hkey.len.2]
    exact takenI_words
  lenWords := hkey.len.2
  n0inv := hkey.n0inv.taken
  n := hkey.n.imp fun _ _ hnumber => hnumber.taken
  nLength := hkey.nLength
  rr := hkey.rr.imp fun _ _ hnumber => hnumber.taken
  rrLength := hkey.rrLength
  braces := hkey.braces.le

theorem taken_of_documented (k : KeyText) {tokens tokens' : List Bytes}
    (htokens : ∀ rest, Spaced isSpace tokens rest →
      Spaced isSpace tokens' rest) {text : Bytes}
    (htext : Spaced isSpace (k.documented ++ tokens) text) :
    Spaced isSpace (k.taken ++ tokens') text := by
  have hsame : Spaced isSpace (k.documented ++ tokens') text :=
    htext.mono htokens
  exact @Spaced.split _ _ [openBrace, k.len, comma] (k.words ++ tokens')
    [48, 120] k.n0inv text hsame

theorem keys_taken_of_documented (ks : List KeyText) {text : Bytes}
    (htext : Spaced isSpace (keys (ks.map KeyText.documented)) text) :
    Spaced isSpace (keys (ks.map KeyText.taken)) text := by
  induction ks generalizing text with
  | nil => exact htext
  | cons k ks ih =>
      by_cases hrest : ks = []
      · subst hrest
        have htext' : Spaced isSpace (k.documented ++ []) text := by
          rwa [List.append_nil]
        have htaken := taken_of_documented k (fun _ hrest => hrest) htext'
        rwa [List.append_nil] at htaken
      · rw [List.map_cons, keys_cons (by simpa using hrest)] at htext ⊢
        refine taken_of_documented k (fun rest hnext => ?_) htext
        exact @Spaced.mono _ _ [comma] _ _ _ (fun _ => ih) hnext

theorem Documented.lax {text : Bytes} {found : List RSAPublicKey}
    (htext : Documented text found) : Lax text found := by
  obtain ⟨ks, hne, hall, htokens⟩ := htext
  exact ⟨ks, hne, hall.imp fun _ _ hkey => hkey.lax,
    keys_taken_of_documented ks htokens⟩

/-- The code is faithful to the documented form at the texts of this form and
at those that it does not take for one. -/
theorem faithful_iff (text : Bytes) :
    Faithful text ↔
      (∃ found, Documented text found) ∨ ¬ ∃ found, Lax text found := by
  constructor
  · rintro (⟨found, hfound, -⟩ | ⟨-, hnone⟩)
    · exact .inl ⟨found, hfound⟩
    · refine .inr ?_
      rintro ⟨found, hlax⟩
      rw [loadKeys_eq_some_iff.mpr hlax] at hnone
      cases hnone
  · rintro (⟨found, hfound⟩ | hnone)
    · exact .inl ⟨found, hfound, loadKeys_eq_some_iff.mpr hfound.lax⟩
    · refine .inr ⟨fun ⟨found, hfound⟩ => hnone ⟨found, hfound.lax⟩, ?_⟩
      cases hload : loadKeys (some text) with
      | none => rfl
      | some found =>
          exact absurd ⟨found, loadKeys_eq_some_iff.mp hload⟩ hnone

/-- A documented text ends with a brace. -/
theorem Documented.last {text : Bytes} {found : List RSAPublicKey}
    (htext : Documented text found) :
    ∃ front behind, text = front ++ 125 :: behind ∧
      ∀ c ∈ behind, isSpace c = true := by
  obtain ⟨ks, hne, hall, htokens⟩ := htext
  have hclosed : ∃ tokens, keys (ks.map KeyText.documented) =
      tokens ++ [closeBrace] := by
    clear htokens
    induction hall with
    | nil => exact absurd rfl hne
    | cons hkey hall ih =>
        rename_i k key ks found
        by_cases hrest : ks = []
        · subst hrest
          refine ⟨[openBrace, k.len, comma, [48, 120] ++ k.n0inv] ++
            ([comma, openBrace] ++ commas k.n ++
              [closeBrace, comma, openBrace] ++ commas k.rr ++
              [closeBrace]), ?_⟩
          change k.documented = _
          rw [KeyText.documented, KeyText.words, hkey.braces]
          simp only [List.append_assoc]
          rfl
        · obtain ⟨tokens, htokens⟩ := ih hrest
          refine ⟨k.documented ++ comma :: tokens, ?_⟩
          rw [List.map_cons, keys_cons (by simpa using hrest), htokens,
            List.append_assoc, List.cons_append]
  obtain ⟨tokens, heq⟩ := hclosed
  rw [heq] at htokens
  exact htokens.last

namespace KeyFileWitness

/-- A key without its closing braces. -/
def unclosed : KeyText where
  len := [54, 52]
  n0inv := [49]
  n := List.replicate 64 [49]
  rr := List.replicate 64 [49]
  braces := 0

def unclosedText : Bytes := unclosed.taken.flatten

theorem one_taken : TakenU [49] 1 :=
  ⟨false, _, .plain _,
    ⟨by decide, List.forall_mem_singleton.mpr (by decide)⟩, by decide⟩

theorem unclosed_lax : Lax unclosedText
    [⟨64, 1, List.replicate 64 1, List.replicate 64 1⟩] := by
  have hones : ∀ count, List.Forall₂ TakenU (List.replicate count [49])
      (List.replicate count 1) := by
    intro count
    induction count with
    | zero => exact .nil
    | succ count ih => exact .cons one_taken ih
  exact ⟨[unclosed], by simp, .cons
    ⟨takenI_words, rfl, ⟨false, _, _, .plain _, .inl rfl,
      ⟨by decide, List.forall_mem_singleton.mpr (by decide)⟩, by decide⟩,
      hones 64, List.length_replicate,
      hones 64, List.length_replicate, by decide⟩ .nil, spaced_flatten _⟩

theorem unclosed_not_documented :
    ¬ ∃ found, Documented unclosedText found := by
  rintro ⟨found, hfound⟩
  obtain ⟨front, behind, htext, hblank⟩ := hfound.last
  have hlast : unclosedText.getLast? = some 49 := by decide +kernel
  rw [htext, List.getLast?_append_cons] at hlast
  cases hbehind : behind.getLast? with
  | none =>
      rw [List.getLast?_eq_none_iff.mp hbehind] at hlast
      exact absurd hlast (by decide)
  | some c =>
      rw [List.getLast?_cons, hbehind] at hlast
      obtain rfl : c = 49 := Option.some.inj hlast
      have hspace := hblank 49 (List.mem_of_getLast? hbehind)
      exact absurd hspace (by decide)

theorem unclosed_loaded : ¬ ∀ text, Faithful text := by
  intro hfaithful
  rcases hfaithful unclosedText with ⟨found, hfound, -⟩ | ⟨-, hnone⟩
  · exact unclosed_not_documented ⟨found, hfound⟩
  · rw [loadKeys_eq_some_iff.mpr unclosed_lax] at hnone
    cases hnone

end KeyFileWitness

end KeyFile

end MetaOS
