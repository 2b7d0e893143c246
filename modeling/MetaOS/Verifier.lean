/-
verifier.c: the whole-file signature check of an update package, and its
agreement with minzip on where the end-of-central-directory record stands.
`sha1` and `RSA_verify` belong to libmincrypt and are parameters.
-/
import MetaOS.MinZip

namespace MetaOS

namespace Verifier

open MinZip

def FOOTER_SIZE : Nat := 6
def EOCD_HEADER_SIZE : Nat := 22
def BUFFER_SIZE : Nat := 4096
def RSANUMWORDS : Nat := 64
def RSANUMBYTES : Nat := 256

/-- The magic number `$50 $4b $05 $06`. -/
def eocdMagic : Bytes := [0x50, 0x4b, 0x05, 0x06]

structure RSAPublicKey where
  len : Int
  n0inv : Nat
  n : List Nat
  rr : List Nat
deriving DecidableEq, Repr

inductive VerifyResult where
  | success
  | failure
deriving DecidableEq, Repr

/-- What the structural checks leave to the signature check. -/
structure SignedLayout where
  eocd : Bytes
  signedLen : Nat
deriving DecidableEq

/-- `comment_size` and `signature_start`, if the footer is one the signing
tool writes and leaves room for an RSA block. -/
def readFooter (footer : Bytes) : Option (Nat × Nat) :=
  if footer.window 2 2 ≠ [0xff, 0xff] then none
  else
    let commentSize := footer.leAt 4 2
    let signatureStart := footer.leAt 0 2
    if (signatureStart : Int) - FOOTER_SIZE < RSANUMBYTES then none
    else some (commentSize, signatureStart)

/-- The marker occurs again after the start of the record. -/
def markerOccursLater (eocd : Bytes) : Bool :=
  (List.range' 4 (eocd.length - 3 - 4)).any fun i =>
    decide (eocd.MatchAt i eocdMagic)

/-- All checks of `verify_file` before any byte is hashed, on a file whose
reads succeed. -/
def verifyStructure (file : Bytes) : Option SignedLayout :=
  if file.length < FOOTER_SIZE then none
  else
    match readFooter (file.drop (file.length - FOOTER_SIZE)) with
    | none => none
    | some (commentSize, _) =>
        let eocdSize := commentSize + EOCD_HEADER_SIZE
        if file.length < eocdSize then none
        else
          let start := file.length - eocdSize
          let eocd : Bytes := file.drop start
          if ¬ eocd.MatchAt 0 eocdMagic then none
          else if markerOccursLater eocd then none
          else some ⟨eocd, start + EOCD_HEADER_SIZE - 2⟩

/-- Outcomes of the calls `verify_file` makes.  `below` is the memory that
happens to lie before the `eocd` buffer. -/
structure VerifyIo where
  fopen : Bool
  seekFooter : Bool
  readFooter : Bool
  seekEocd : Bool
  mallocEocd : Bool
  readEocd : Bool
  mallocBuffer : Bool
  readBody : Nat → Bool
  below : Bytes

/-- The hashing loop: `ctx` is what `SHA_update` has been given so far. -/
def hashSigned (io : VerifyIo) (file : Bytes) (signedLen : Nat) :
    (fuel soFar : Nat) → Bytes → Option Bytes
  | 0, _, ctx => some ctx
  | fuel + 1, soFar, ctx =>
      if soFar < signedLen then
        let size := min BUFFER_SIZE (signedLen - soFar)
        if io.readBody soFar then
          hashSigned io file signedLen fuel (soFar + size)
            (ctx ++ file.window soFar size)
        else none
      else some ctx

/-- The bytes at `eocd + eocd_size - 6 - RSANUMBYTES`. -/
def signatureBlock (io : VerifyIo) (eocd : Bytes) : Bytes :=
  let memory := io.below ++ eocd
  Bytes.window memory (memory.length - FOOTER_SIZE - RSANUMBYTES) RSANUMBYTES

def verifyFile (sha1 : Bytes → Bytes)
    (rsaVerify : RSAPublicKey → Bytes → Bytes → Bool)
    (io : VerifyIo) (file : Bytes) (pKeys : List RSAPublicKey) :
    VerifyResult :=
  if !(io.fopen && io.seekFooter && io.readFooter && io.seekEocd &&
      io.mallocEocd && io.readEocd && io.mallocBuffer) then .failure
  else
    match verifyStructure file with
    | none => .failure
    | some layout =>
        match hashSigned io file layout.signedLen layout.signedLen 0 [] with
        | none => .failure
        | some ctx =>
            if pKeys.any fun key =>
                rsaVerify key (signatureBlock io layout.eocd) (sha1 ctx) then
              .success
            else .failure

/-- Whatever the reads do, a context the loop hands on holds exactly the
signed prefix. -/
theorem hashSigned_eq_some {io : VerifyIo} {file : Bytes} {signedLen : Nat}
    {fuel soFar : Nat} {ctx : Bytes} (hsofar : soFar ≤ signedLen)
    (hfuel : signedLen - soFar ≤ fuel)
    (hhash : hashSigned io file signedLen fuel soFar (file.take soFar) =
      some ctx) : ctx = file.take signedLen := by
  induction fuel generalizing soFar with
  | zero =>
      have hdone : soFar = signedLen := by omega
      rw [hashSigned, hdone] at hhash
      exact (Option.some.inj hhash).symm
  | succ fuel ih =>
      by_cases hmore : soFar < signedLen
      · have hchunk : file.take soFar ++
            file.window soFar (min BUFFER_SIZE (signedLen - soFar)) =
            file.take (soFar + min BUFFER_SIZE (signedLen - soFar)) := by
          rw [List.take_add]
          rfl
        have hprogress : 0 < min BUFFER_SIZE (signedLen - soFar) := by
          simp only [BUFFER_SIZE]
          omega
        simp only [hashSigned, hmore, ↓reduceIte] at hhash
        split at hhash
        · rw [hchunk] at hhash
          exact ih (by omega) (by omega) hhash
        · simp at hhash
      · have hdone : soFar = signedLen := by omega
        simp only [hashSigned, hmore, ↓reduceIte, Option.some.injEq] at hhash
        rw [← hhash, hdone]

/-- A verified file passed every structural check, and some key matches the
hash of its signed prefix. -/
theorem verifyFile_success {sha1 : Bytes → Bytes}
    {rsaVerify : RSAPublicKey → Bytes → Bytes → Bool} {io : VerifyIo}
    {file : Bytes} {pKeys : List RSAPublicKey}
    (hverify : verifyFile sha1 rsaVerify io file pKeys = .success) :
    ∃ layout, verifyStructure file = some layout ∧
      ∃ key ∈ pKeys, rsaVerify key (signatureBlock io layout.eocd)
        (sha1 (file.take layout.signedLen)) = true := by
  unfold verifyFile at hverify
  split at hverify
  · simp at hverify
  · cases hlayout : verifyStructure file with
    | none => simp [hlayout] at hverify
    | some layout =>
        simp only [hlayout] at hverify
        cases hctx : hashSigned io file layout.signedLen
            layout.signedLen 0 [] with
        | none => simp [hctx] at hverify
        | some ctx =>
            simp only [hctx] at hverify
            split at hverify
            · rename_i hany
              obtain ⟨key, hkey, hmatch⟩ := List.any_eq_true.mp hany
              have hsignedEq := hashSigned_eq_some (Nat.zero_le _)
                (Nat.sub_le _ _) hctx
              rw [hsignedEq] at hmatch
              exact ⟨layout, rfl, key, hkey, hmatch⟩
            · simp at hverify

/-- What acceptance by the structural checks means for the bytes. -/
theorem verifyStructure_eq_some {file : Bytes} {layout : SignedLayout}
    (haccept : verifyStructure file = some layout) :
    ∃ start, start + EOCD_HEADER_SIZE ≤ file.length ∧
      layout.signedLen = start + 20 ∧
      file.MatchAt start eocdMagic ∧
      ∀ off, start + 4 ≤ off → off + 4 ≤ file.length →
        ¬ file.MatchAt off eocdMagic := by
  unfold verifyStructure at haccept
  split at haccept
  · simp at haccept
  · cases hfooter : readFooter (file.drop (file.length - FOOTER_SIZE)) with
    | none => simp [hfooter] at haccept
    | some sizes =>
        obtain ⟨commentSize, signatureStart⟩ := sizes
        simp only [hfooter] at haccept
        split at haccept
        · simp at haccept
        · rename_i hsize
          split at haccept
          · simp at haccept
          · rename_i hmagic
            split at haccept
            · simp at haccept
            · rename_i hlater
              simp only [Option.some.injEq] at haccept
              let start := file.length - (commentSize + EOCD_HEADER_SIZE)
              have hstart : start + (commentSize + EOCD_HEADER_SIZE) =
                  file.length := by
                simp only [start]
                omega
              refine ⟨start, by omega, ?_, ?_, ?_⟩
              · rw [← haccept]
                simp only [EOCD_HEADER_SIZE, start]
                omega
              · rw [not_not, Bytes.matchAt_drop, Nat.add_zero] at hmagic
                exact hmagic
              · intro off hlow hhigh hmatch
                apply hlater
                refine List.any_eq_true.mpr ⟨off - start, ?_, ?_⟩
                · rw [List.mem_range'_1, List.length_drop]
                  simp only [EOCD_HEADER_SIZE, start] at *
                  omega
                · rw [decide_eq_true_eq, Bytes.matchAt_drop]
                  rwa [show start + (off - start) = off by omega]

/-- The marker cannot overlap itself. -/
theorem not_matchAt_overlap {file : Bytes} {start shift : Nat}
    (hmatch : file.MatchAt start eocdMagic) (hpos : 0 < shift)
    (hshift : shift < 4) : ¬ file.MatchAt (start + shift) eocdMagic := by
  intro hsecond
  have hfirst := hmatch.getElem shift (by simpa [eocdMagic] using hshift)
  have hhead := hsecond.getElem 0 (by simp [eocdMagic])
  rw [Nat.add_zero, hfirst] at hhead
  interval_cases shift <;> simp [eocdMagic] at hhead

theorem get4LE_eq_ENDSIG_iff {file : Bytes} {off : Nat}
    (hin : off + 4 ≤ file.length) :
    get4LE file off = ENDSIG ↔ file.MatchAt off eocdMagic := by
  have hmagic : Bytes.leNat eocdMagic = ENDSIG := by decide
  constructor
  · intro hvalue
    apply Bytes.leNat_injective
    · rw [Bytes.window_length]
      simp only [eocdMagic, List.length_cons, List.length_nil]
      omega
    · rw [hmagic]
      exact hvalue
  · intro hmatch
    rw [← hmagic, ← hmatch]
    rfl

/-- The backward scan stops at the last marker it can see. -/
theorem scanEnd_eq_some {file : Bytes} {found ptr : Nat}
    (hle : found ≤ ptr) (hhit : get4LE file found = ENDSIG)
    (hmiss : ∀ off, found < off → off ≤ ptr → get4LE file off ≠ ENDSIG) :
    scanEnd file ptr = some found := by
  induction ptr with
  | zero =>
      have hzero : found = 0 := by omega
      subst hzero
      simp [scanEnd, hhit]
  | succ ptr ih =>
      by_cases hhere : found = ptr + 1
      · subst hhere
        simp [scanEnd, hhit]
      · have hskip := hmiss (ptr + 1) (by omega) (by omega)
        simp only [scanEnd, hskip, ↓reduceIte]
        exact ih (by omega) fun off hlow hhigh => hmiss off hlow (by omega)

/-- minzip finds the record the verifier checked. -/
theorem findEnd_of_accepted {file : Bytes} {layout : SignedLayout}
    (haccept : verifyStructure file = some layout) :
    findEnd file = some (layout.signedLen - 20) := by
  obtain ⟨start, hin, hsigned, hmagic, hlater⟩ :=
    verifyStructure_eq_some haccept
  simp only [EOCD_HEADER_SIZE] at hin
  rw [hsigned, Nat.add_sub_cancel, findEnd]
  apply scanEnd_eq_some
  · simp only [ENDHDR]
    omega
  · rw [get4LE_eq_ENDSIG_iff (by omega)]
    exact hmagic
  · intro off hlow hhigh hhit
    simp only [ENDHDR] at hhigh
    rw [get4LE_eq_ENDSIG_iff (by omega)] at hhit
    by_cases hfar : start + 4 ≤ off
    · exact hlater off hfar (by omega) hhit
    · obtain ⟨shift, rfl⟩ := Nat.exists_eq_add_of_lt hlow
      exact not_matchAt_overlap hmagic (Nat.succ_pos shift) (by omega) hhit

/-- The fields minzip reads are those of the signed prefix. -/
theorem endFields_of_accepted {file : Bytes} {layout : SignedLayout}
    (haccept : verifyStructure file = some layout) :
    endFields file = some
      (get2LE (file.take layout.signedLen) (layout.signedLen - 20 + ENDSUB),
        get4LE (file.take layout.signedLen)
          (layout.signedLen - 20 + ENDOFF)) := by
  obtain ⟨start, -, hsigned, -, -⟩ := verifyStructure_eq_some haccept
  rw [endFields, findEnd_of_accepted haccept, Option.map_some]
  simp only [get2LE, get4LE, Bytes.leAt, ENDSUB, ENDOFF]
  rw [Bytes.window_take _ _ _ _ (by omega),
    Bytes.window_take _ _ _ _ (by omega)]

theorem signedLen_le {file : Bytes} {layout : SignedLayout}
    (haccept : verifyStructure file = some layout) :
    20 ≤ layout.signedLen ∧ layout.signedLen ≤ file.length := by
  obtain ⟨start, hin, hsigned, -, -⟩ := verifyStructure_eq_some haccept
  simp only [EOCD_HEADER_SIZE] at hin
  omega

/-- Verifier and unzipper agree: the backward scan stops at the record the
verifier placed, the fields minzip reads there lie in the signed prefix, and
two accepted files with one signed prefix give minzip one entry count and one
directory offset. -/
theorem verifier_unzipper_agree (file : Bytes) (layout : SignedLayout)
    (haccept : verifyStructure file = some layout) :
    findEnd file = some (layout.signedLen - 20) ∧
      layout.signedLen - 20 + ENDSUB + 2 ≤ layout.signedLen ∧
      layout.signedLen - 20 + ENDOFF + 4 ≤ layout.signedLen ∧
      layout.signedLen ≤ file.length ∧
      endFields file = some
        (get2LE (file.take layout.signedLen)
          (layout.signedLen - 20 + ENDSUB),
          get4LE (file.take layout.signedLen)
            (layout.signedLen - 20 + ENDOFF)) ∧
      ∀ (other : Bytes) (otherLayout : SignedLayout),
        verifyStructure other = some otherLayout →
        other.take otherLayout.signedLen = file.take layout.signedLen →
        endFields other = endFields file := by
  have hbounds := signedLen_le haccept
  refine ⟨findEnd_of_accepted haccept, ?_, ?_, hbounds.2,
    endFields_of_accepted haccept, ?_⟩
  · simp only [ENDSUB]
    omega
  · simp only [ENDOFF]
    omega
  · intro other otherLayout hother hsignedEq
    have hotherBounds := signedLen_le hother
    have hlength := congrArg List.length hsignedEq
    simp only [List.length_take] at hlength
    have hsame : otherLayout.signedLen = layout.signedLen := by omega
    rw [endFields_of_accepted haccept, endFields_of_accepted hother, hsignedEq,
      hsame]

namespace VerifierWitness

/-- An archive that is nothing but a signed end record: 262 bytes of comment,
of which the last six are the footer. -/
def bareArchive : Bytes :=
  eocdMagic ++ List.replicate 16 0 ++ [6, 1] ++ List.replicate 256 7 ++
    [6, 1, 0xff, 0xff, 6, 1]

def bareLayout : SignedLayout := ⟨bareArchive, 20⟩

theorem bareArchive_agrees :
    verifyStructure bareArchive = some bareLayout ∧
      findEnd bareArchive = some 0 := by
  have haccept : verifyStructure bareArchive = some bareLayout := by
    decide +kernel
  exact ⟨haccept, (verifier_unzipper_agree bareArchive bareLayout haccept).1⟩

end VerifierWitness

end Verifier

end MetaOS
