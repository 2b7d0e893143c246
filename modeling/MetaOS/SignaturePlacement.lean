/-
verifier.c: where in the archive comment `verify_file` takes the RSA block
from.  `signature_start` is compared with the size of an RSA block and
`comment_size` is not, so a short comment puts the block before its buffer.
-/
import MetaOS.Verifier

namespace MetaOS

namespace Verifier

open MinZip

/-- The six bytes the signing tool appends to the signature. -/
def footer (file : Bytes) : Bytes :=
  file.drop (file.length - FOOTER_SIZE)

def commentSize (file : Bytes) : Nat := (footer file).leAt 4 2

def signatureStart (file : Bytes) : Nat := (footer file).leAt 0 2

/-- What `verify_file` holds when it turns to the keys: the layout of the
archive and the bytes it has hashed. -/
def signedContext (io : VerifyIo) (file : Bytes) :
    Option (SignedLayout × Bytes) :=
  if !(io.fopen && io.seekFooter && io.readFooter && io.seekEocd &&
      io.mallocEocd && io.readEocd && io.mallocBuffer) then none
  else
    match verifyStructure file with
    | none => none
    | some layout =>
        (hashSigned io file layout.signedLen layout.signedLen 0 []).map
          fun ctx => (layout, ctx)

/-- `verify_file` goes on from there to the keys. -/
theorem verifyFile_eq (sha1 : Bytes → Bytes)
    (rsaVerify : RSAPublicKey → Bytes → Bytes → Bool) (io : VerifyIo)
    (file : Bytes) (pKeys : List RSAPublicKey) :
    verifyFile sha1 rsaVerify io file pKeys =
      match signedContext io file with
      | none => .failure
      | some (layout, ctx) =>
          if pKeys.any fun key =>
              rsaVerify key (signatureBlock io layout.eocd) (sha1 ctx)
          then .success
          else .failure := by
  unfold verifyFile signedContext
  split
  next => rfl
  next =>
    cases verifyStructure file with
    | none => rfl
    | some layout =>
        dsimp only
        cases hashSigned io file layout.signedLen layout.signedLen 0 [] with
        | none => rfl
        | some ctx => rfl

/-- `verify_file` gets as far as its first call of `RSA_verify`. -/
def ReachesRsaVerify (io : VerifyIo) (file : Bytes)
    (pKeys : List RSAPublicKey) (layout : SignedLayout) : Prop :=
  pKeys ≠ [] ∧ ∃ ctx, signedContext io file = some (layout, ctx)

/-- The distance of `eocd + eocd_size - 6 - RSANUMBYTES` from `eocd`. -/
def signatureOffset (eocd : Bytes) : Int :=
  eocd.length - FOOTER_SIZE - RSANUMBYTES

/-- The block starts at that distance, as long as the memory reaches there. -/
theorem signatureBlock_eq_window {io : VerifyIo} {eocd : Bytes}
    (hinside : 0 ≤ (io.below.length : Int) + signatureOffset eocd) :
    signatureBlock io eocd = (io.below ++ eocd).window
      (io.below.length + signatureOffset eocd).toNat RSANUMBYTES := by
  have hstart :
      (io.below ++ eocd).length - FOOTER_SIZE - RSANUMBYTES =
        (io.below.length + signatureOffset eocd).toNat := by
    unfold signatureOffset at hinside ⊢
    rw [List.length_append]
    omega
  rw [← hstart]
  rfl

/-- The RSA block lies in the comment, not before the place the footer
names, and shares no byte with the signed prefix of the file. -/
structure SignaturePlaced (file : Bytes) (layout : SignedLayout) : Prop where
  in_comment : EOCD_HEADER_SIZE ≤ signatureOffset layout.eocd ∧
    signatureOffset layout.eocd + RSANUMBYTES ≤ layout.eocd.length
  from_start : (layout.eocd.length : Int) - signatureStart file ≤
    signatureOffset layout.eocd
  unsigned : ∀ i < RSANUMBYTES,
    (layout.signedLen : Int) ≤
      (file.length - layout.eocd.length : Nat) +
        signatureOffset layout.eocd + i

/-- The sizes behind an accepted layout. -/
theorem layout_of_accepted {file : Bytes} {layout : SignedLayout}
    (haccept : verifyStructure file = some layout) :
    RSANUMBYTES + FOOTER_SIZE ≤ signatureStart file ∧
      layout.eocd.length = commentSize file + EOCD_HEADER_SIZE ∧
      layout.signedLen + 2 = file.length - commentSize file ∧
      commentSize file + EOCD_HEADER_SIZE ≤ file.length := by
  unfold verifyStructure at haccept
  split at haccept
  · simp at haccept
  · cases hread : readFooter (file.drop (file.length - FOOTER_SIZE)) with
    | none => simp [hread] at haccept
    | some sizes =>
        obtain ⟨comment, start⟩ := sizes
        simp only [hread] at haccept
        have hfields : comment = commentSize file ∧
            RSANUMBYTES + FOOTER_SIZE ≤ signatureStart file := by
          unfold readFooter at hread
          split at hread
          · simp at hread
          · dsimp only at hread
            split at hread
            · simp at hread
            · rename_i hlong
              simp only [Option.some.injEq, Prod.mk.injEq] at hread
              refine ⟨hread.1.symm, ?_⟩
              rw [signatureStart, footer]
              omega
        obtain ⟨rfl, hstart⟩ := hfields
        split at haccept
        · simp at haccept
        · split at haccept
          · simp at haccept
          · split at haccept
            · simp at haccept
            · simp only [Option.some.injEq] at haccept
              subst haccept
              simp only [List.length_drop, EOCD_HEADER_SIZE] at *
              omega

theorem accepted_of_reaches {io : VerifyIo} {file : Bytes}
    {pKeys : List RSAPublicKey} {layout : SignedLayout}
    (hreach : ReachesRsaVerify io file pKeys layout) :
    verifyStructure file = some layout := by
  obtain ⟨-, ctx, hctx⟩ := hreach
  unfold signedContext at hctx
  split at hctx
  · simp at hctx
  · cases hlayout : verifyStructure file with
    | none => simp [hlayout] at hctx
    | some reached =>
        simp only [hlayout, Option.map_eq_some_iff, Prod.mk.injEq] at hctx
        obtain ⟨-, -, rfl, -⟩ := hctx
        rfl

/-- The bytes handed to `RSA_verify` are where they should be exactly if the
comment has room for an RSA block and the footer. -/
theorem signaturePlaced_iff (io : VerifyIo) (file : Bytes)
    (pKeys : List RSAPublicKey) (layout : SignedLayout)
    (hreach : ReachesRsaVerify io file pKeys layout) :
    SignaturePlaced file layout ↔
      FOOTER_SIZE + RSANUMBYTES ≤ commentSize file := by
  obtain ⟨hstart, hlength, hsigned, hfile⟩ :=
    layout_of_accepted (accepted_of_reaches hreach)
  simp only [FOOTER_SIZE, RSANUMBYTES, EOCD_HEADER_SIZE] at *
  constructor
  · intro hplaced
    have hcomment := hplaced.in_comment.1
    simp only [signatureOffset, FOOTER_SIZE, RSANUMBYTES, EOCD_HEADER_SIZE]
      at hcomment
    omega
  · intro hroom
    constructor
    · simp only [signatureOffset, FOOTER_SIZE, RSANUMBYTES, EOCD_HEADER_SIZE]
      omega
    · simp only [signatureOffset, FOOTER_SIZE, RSANUMBYTES]
      omega
    · intro i hi
      simp only [signatureOffset, FOOTER_SIZE, RSANUMBYTES]
      omega

namespace SignaturePlacementWitness

open VerifierWitness

/-- All calls of `verify_file` succeed. -/
def allGood : VerifyIo :=
  ⟨true, true, true, true, true, true, true, fun _ => true, []⟩

def someKey : RSAPublicKey := ⟨64, 0, [], []⟩

theorem bareArchive_placed :
    SignaturePlaced bareArchive bareLayout ↔
      FOOTER_SIZE + RSANUMBYTES ≤ commentSize bareArchive :=
  signaturePlaced_iff allGood bareArchive [someKey] bareLayout
    ⟨by simp, bareArchive.take 20, by decide +kernel⟩

/-- An end record whose comment is the footer alone: it promises 262 bytes of
signature and has none. -/
def shortComment : Bytes :=
  eocdMagic ++ List.replicate 16 0 ++ [6, 0] ++ [6, 1, 0xff, 0xff, 6, 0]

theorem shortComment_not_placed :
    ¬ ∀ (io : VerifyIo) (file : Bytes) (pKeys : List RSAPublicKey)
      (layout : SignedLayout), ReachesRsaVerify io file pKeys layout →
      SignaturePlaced file layout := by
  intro hall
  have hplaced := hall allGood shortComment [someKey] ⟨shortComment, 20⟩
    ⟨by simp, shortComment.take 20, by decide +kernel⟩
  have hcomment := hplaced.in_comment.1
  revert hcomment
  decide +kernel

end SignaturePlacementWitness

end Verifier

end MetaOS
