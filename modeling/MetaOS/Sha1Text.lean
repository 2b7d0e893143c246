/-
applypatch.c `ParseSha1`, `FindMatchingPatch` and updater/install.c
`PrintSha1`: the texts of digests.
-/
import MetaOS.Hexadecimal
import MetaOS.UpdaterFunctions

namespace MetaOS

namespace Sha1Text

open ApplyPatch Hexadecimal Updater

def SHA_DIGEST_SIZE : Nat := 20

/-- The text is the digest in hexadecimal, alone or of the form
"<digest>:<anything>". -/
def Documented (text digest : Bytes) : Prop :=
  digest.length = SHA_DIGEST_SIZE ∧ ∃ hex rest, text = hex ++ rest ∧
    Denotes hex digest ∧ (rest = [] ∨ rest.head? = some 58)

/-- The digits of a digest, with a colon behind them. -/
def Suffixed (text : Bytes) : Prop :=
  ∃ hex anything, text = hex ++ 58 :: anything ∧
    hex.length = 2 * SHA_DIGEST_SIZE ∧ ∀ c ∈ hex, ∃ value, HexValue c value

/-- What is found is the least index of a text that has the property. -/
def LeastIndex (p : Bytes → Prop) (texts : List Bytes) : Option Nat → Prop
  | some i => (∃ text, texts[i]? = some text ∧ p text) ∧
      ∀ j < i, ∀ text, texts[j]? = some text → ¬ p text
  | none => ∀ text ∈ texts, ¬ p text

section Digits

theorem hexDigit_digits {value : Nat} (hvalue : value < 16) :
    lowerDigits[value]?.bind hexDigit = some (UInt8.ofNat value) ∧
      upperDigits[value]?.bind hexDigit = some (UInt8.ofNat value) := by
  revert value
  decide

theorem hexValue_of_hexDigit {c v : UInt8} (hc : hexDigit c = some v) :
    HexValue c v.toNat := by
  have htable : ∀ n < 256, (hexDigit (UInt8.ofNat n)).all
      fun v => decide (HexValue (UInt8.ofNat n) v.toNat) := by
    decide +kernel
  have hvalue := htable c.toNat c.toNat_lt
  rwa [UInt8.ofNat_toNat, hc, Option.all_some, decide_eq_true_iff] at hvalue

theorem hexDigit_of_hexValue {c : UInt8} {value : Nat}
    (hc : HexValue c value) : hexDigit c = some (UInt8.ofNat value) := by
  have hdigits := hexDigit_digits hc.lt
  rcases hc with hc | hc
  · rw [← hdigits.1, hc, Option.bind_some]
  · rw [← hdigits.2, hc, Option.bind_some]

theorem toNat_digit {value : Nat} (hvalue : value < 16) :
    (UInt8.ofNat value).toNat = value :=
  UInt8.toNat_ofNat_of_lt' (Nat.lt_trans hvalue (by decide))

theorem byte_of_digits {high low : UInt8} (hhigh : high.toNat < 16)
    (hlow : low.toNat < 16) :
    (high <<< 4 ||| low).toNat = 16 * high.toNat + low.toNat := by
  have hshift : (high <<< 4).toNat = high.toNat <<< 4 := by
    rw [UInt8.toNat_shiftLeft, Nat.mod_eq_of_lt]
    · rfl
    · simp [Nat.shiftLeft_eq]
      omega
  rw [UInt8.toNat_or, hshift, ← Nat.shiftLeft_add_eq_or_of_lt hlow,
    Nat.shiftLeft_eq]
  omega

/-- `parseDigits` takes the digits of so many bytes, and no others. -/
theorem parseDigits_eq_some {count : Nat} {text digest rest : Bytes} :
    parseDigits count text = some (digest, rest) ↔ digest.length = count ∧
      ∃ hex, text = hex ++ rest ∧ Denotes hex digest := by
  induction count generalizing text digest with
  | zero =>
      simp only [parseDigits, Option.some.injEq, Prod.mk.injEq]
      constructor
      · rintro ⟨rfl, rfl⟩
        exact ⟨rfl, [], rfl, .nil⟩
      · rintro ⟨hlength, hex, rfl, hdenotes⟩
        obtain rfl := List.length_eq_zero_iff.mp hlength
        cases hdenotes
        exact ⟨rfl, rfl⟩
  | succ count ih =>
      constructor
      · intro hparse
        match text, hparse with
        | c :: d :: text, hparse =>
            simp only [parseDigits, Option.bind_eq_bind,
              Option.bind_eq_some_iff, Option.pure_def, Option.some.injEq,
              Prod.mk.injEq, Prod.exists] at hparse
            obtain ⟨high, hhigh, low, hlow, tail, rest, htail, rfl, rfl⟩ :=
              hparse
            obtain ⟨hlength, hex, rfl, hdenotes⟩ := ih.mp htail
            replace hhigh := hexValue_of_hexDigit hhigh
            replace hlow := hexValue_of_hexDigit hlow
            exact ⟨by simp [hlength], c :: d :: hex, rfl,
              .cons hhigh hlow (byte_of_digits hhigh.lt hlow.lt) hdenotes⟩
      · rintro ⟨hlength, hex, rfl, hdenotes⟩
        cases hdenotes with
        | nil => cases hlength
        | cons hhigh hlow hbyte hdenotes =>
            rename_i byte high low hex tail
            have htail := ih.mpr ⟨Nat.succ.inj hlength, hex, rfl, hdenotes⟩
            have hsum : UInt8.ofNat high <<< 4 ||| UInt8.ofNat low = byte := by
              have hfst := toNat_digit hhigh.lt
              have hsnd := toNat_digit hlow.lt
              apply UInt8.toNat_inj.mp
              rw [byte_of_digits (by rw [hfst]; exact hhigh.lt)
                (by rw [hsnd]; exact hlow.lt), hfst, hsnd, hbyte]
            simp [parseDigits, hexDigit_of_hexValue hhigh,
              hexDigit_of_hexValue hlow, htail, hsum]

/-- The code takes the digits and nothing behind them. -/
theorem parseSha1_eq_some {text digest : Bytes} :
    parseSha1 text = some digest ↔
      digest.length = SHA_DIGEST_SIZE ∧ Denotes text digest := by
  have hdigits := @parseDigits_eq_some 20 text digest []
  simp only [List.append_nil, exists_eq_left'] at hdigits
  rw [SHA_DIGEST_SIZE, ← hdigits, parseSha1]
  cases parseDigits 20 text with
  | none => simp
  | some parsed =>
      obtain ⟨bytes, rest⟩ := parsed
      cases rest <;> simp

theorem hexNibble_value {value : Nat} (hvalue : value < 16) :
    HexValue (hexNibble value) value := by
  revert value
  decide

theorem printSha1_denotes (digest : Bytes) :
    Denotes (printSha1 digest) digest := by
  induction digest with
  | nil => exact .nil
  | cons byte digest ih =>
      have hbyte := byte.toNat_lt
      exact .cons (hexNibble_value (by omega)) (hexNibble_value (by omega))
        (by omega) ih

end Digits

section Texts

variable {text digest : Bytes}

theorem documented_of_parseSha1 (hparse : parseSha1 text = some digest) :
    Documented text digest := by
  obtain ⟨hlength, hdenotes⟩ := parseSha1_eq_some.mp hparse
  exact ⟨hlength, text, [], (List.append_nil text).symm, hdenotes, .inl rfl⟩

/-- What is documented is accepted unless there is a suffix. -/
theorem parseSha1_or_suffixed (htext : Documented text digest) :
    parseSha1 text = some digest ∨ Suffixed text := by
  obtain ⟨hlength, hex, rest, rfl, hdenotes, hrest⟩ := htext
  rcases hrest with rfl | hcolon
  · left
    rw [List.append_nil]
    exact parseSha1_eq_some.mpr ⟨hlength, hdenotes⟩
  · right
    obtain ⟨anything, rfl⟩ := List.head?_eq_some_iff.mp hcolon
    refine ⟨hex, anything, rfl, ?_, hdenotes.digits⟩
    rw [hdenotes.length, hlength]

theorem documented_of_suffixed (htext : Suffixed text) :
    ∃ digest, Documented text digest := by
  obtain ⟨hex, anything, rfl, hlength, hdigits⟩ := htext
  obtain ⟨digest, hdigest, hdenotes⟩ := exists_denotes hlength hdigits
  exact ⟨digest, hdigest, hex, _, rfl, hdenotes, .inr rfl⟩

/-- The colon is one character too many. -/
theorem parseSha1_suffixed (htext : Suffixed text) :
    parseSha1 text ≠ some digest := by
  intro hparse
  obtain ⟨hdigest, hdenotes⟩ := parseSha1_eq_some.mp hparse
  obtain ⟨hex, anything, rfl, hlength, -⟩ := htext
  have htotal := hdenotes.length
  rw [hdigest, List.length_append, List.length_cons, hlength] at htotal
  omega

theorem accepts_iff : (∀ digest, parseSha1 text = some digest ↔
    Documented text digest) ↔ ¬ Suffixed text := by
  constructor
  · intro haccepts hsuffixed
    obtain ⟨digest, hdocumented⟩ := documented_of_suffixed hsuffixed
    exact parseSha1_suffixed hsuffixed ((haccepts digest).mpr hdocumented)
  · intro hplain digest
    refine ⟨documented_of_parseSha1, fun hdocumented => ?_⟩
    exact (parseSha1_or_suffixed hdocumented).resolve_right hplain

theorem parseSha1_printSha1 (hdigest : digest.length = SHA_DIGEST_SIZE) :
    parseSha1 (printSha1 digest) = some digest :=
  parseSha1_eq_some.mpr ⟨hdigest, printSha1_denotes digest⟩

end Texts

section Matching

variable {p : Bytes → Prop} {texts : List Bytes} {sha1 : Bytes}

theorem leastIndex_findIdx? [DecidablePred p] :
    LeastIndex p texts (texts.findIdx? fun text => decide (p text)) := by
  cases hfind : texts.findIdx? fun text => decide (p text) with
  | none =>
      intro text hmem
      simpa using List.findIdx?_eq_none_iff.mp hfind text hmem
  | some i =>
      obtain ⟨hlt, hp, hleast⟩ := List.findIdx?_eq_some_iff_getElem.mp hfind
      refine ⟨⟨texts[i], List.getElem?_eq_getElem hlt, by simpa using hp⟩, ?_⟩
      intro j hj text htext
      obtain ⟨hjlt, rfl⟩ := List.getElem?_eq_some_iff.mp htext
      simpa using hleast j hj

theorem LeastIndex.unique {r r' : Option Nat} (hr : LeastIndex p texts r)
    (hr' : LeastIndex p texts r') : r = r' := by
  cases r with
  | none =>
      cases r' with
      | none => rfl
      | some j =>
          obtain ⟨⟨text, htext, hp⟩, -⟩ := hr'
          exact absurd hp (hr text (List.mem_of_getElem? htext))
  | some i =>
      obtain ⟨⟨text, htext, hp⟩, hleast⟩ := hr
      cases r' with
      | none => exact absurd hp (hr' text (List.mem_of_getElem? htext))
      | some j =>
          obtain ⟨⟨text', htext', hp'⟩, hleast'⟩ := hr'
          rcases Nat.lt_trichotomy i j with hlt | rfl | hgt
          · exact absurd hp (hleast' i hlt text htext)
          · rfl
          · exact absurd hp' (hleast j hgt text' htext')

theorem LeastIndex.of_imp {q : Bytes → Prop} {r : Option Nat}
    (hr : LeastIndex p texts r) (himp : ∀ text, q text → p text)
    (hfound : ∀ i text, r = some i → texts[i]? = some text → p text → q text) :
    LeastIndex q texts r := by
  cases r with
  | none => exact fun text hmem hq => hr text hmem (himp text hq)
  | some i =>
      obtain ⟨⟨text, htext, hp⟩, hleast⟩ := hr
      exact ⟨⟨text, htext, hfound i text rfl htext hp⟩,
        fun j hj other hother hq => hleast j hj other hother (himp other hq)⟩

theorem findMatchingPatch_least :
    LeastIndex (fun text => parseSha1 text = some sha1) texts
      (findMatchingPatch sha1 texts) :=
  leastIndex_findIdx?

theorem findMatchingPatch_documented_iff :
    LeastIndex (Documented · sha1) texts (findMatchingPatch sha1 texts) ↔
      ∀ i, LeastIndex (Documented · sha1) texts (some i) →
        ∀ found, texts[i]? = some found → ¬ Suffixed found := by
  constructor
  · intro hleast i hi found hget hsuffixed
    have hfound := @findMatchingPatch_least texts sha1
    rw [hleast.unique hi] at hfound
    obtain ⟨⟨text, htext, hparse⟩, -⟩ := hfound
    rw [hget, Option.some.injEq] at htext
    exact parseSha1_suffixed hsuffixed (htext ▸ hparse)
  · intro hplain
    classical
    have hleast := @leastIndex_findIdx? (Documented · sha1) texts _
    have hparsed := hleast.of_imp
      (q := fun text => parseSha1 text = some sha1)
      (fun _ => documented_of_parseSha1) fun i text hi htext hdocumented =>
        (parseSha1_or_suffixed hdocumented).resolve_right
          (hplain i (hi ▸ hleast) text htext)
    rwa [findMatchingPatch_least.unique hparsed]

end Matching

/-- Texts are parsed as documented, digests are printed so that they are parsed
again, and the least match is found, exactly if neither the text nor the
first documented match has something behind its digest. -/
theorem sha1Texts_iff (text digest sha1 : Bytes) (texts : List Bytes)
    (hdigest : digest.length = SHA_DIGEST_SIZE) :
    ((∀ parsed, parseSha1 text = some parsed ↔ Documented text parsed) ∧
      parseSha1 (printSha1 digest) = some digest ∧
      LeastIndex (fun text => parseSha1 text = some sha1) texts
        (findMatchingPatch sha1 texts) ∧
      LeastIndex (Documented · sha1) texts (findMatchingPatch sha1 texts)) ↔
    ¬ Suffixed text ∧
      ∀ i, LeastIndex (Documented · sha1) texts (some i) →
        ∀ found, texts[i]? = some found → ¬ Suffixed found := by
  rw [accepts_iff, findMatchingPatch_documented_iff]
  constructor
  · rintro ⟨hplain, -, -, hfound⟩
    exact ⟨hplain, hfound⟩
  · rintro ⟨hplain, hfound⟩
    exact ⟨hplain, parseSha1_printSha1 hdigest, findMatchingPatch_least,
      hfound⟩

namespace Sha1TextWitness

theorem printed_faithful :
    let digest : Bytes := List.replicate 20 171
    let text := printSha1 digest
    let texts : List Bytes := [[], text]
    ((∀ parsed, parseSha1 text = some parsed ↔ Documented text parsed) ∧
      parseSha1 (printSha1 digest) = some digest ∧
      LeastIndex (fun text => parseSha1 text = some digest) texts
        (findMatchingPatch digest texts) ∧
      LeastIndex (Documented · digest) texts
        (findMatchingPatch digest texts)) ↔
    ¬ Suffixed text ∧
      ∀ i, LeastIndex (Documented · digest) texts (some i) →
        ∀ found, texts[i]? = some found → ¬ Suffixed found :=
  sha1Texts_iff _ _ _ _ rfl

/-- Forty zeros and ":x". -/
theorem suffix_rejected : ¬ ∀ text digest,
    parseSha1 text = some digest ↔ Documented text digest := by
  intro haccepts
  refine accepts_iff.mp (haccepts (List.replicate 40 48 ++ [58, 120]))
    ⟨List.replicate 40 48, [120], rfl, rfl, fun c hmem => ⟨0, ?_⟩⟩
  rw [List.eq_of_mem_replicate hmem]
  decide

end Sha1TextWitness

end Sha1Text

end MetaOS
