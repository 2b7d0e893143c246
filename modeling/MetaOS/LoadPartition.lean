/-
What `LoadMTDContents` loads.

The name of the partition lists the sizes and the hashes the contents may
have.  The sizes are tried in increasing order, and each further read extends
what was hashed so far, so the shortest prefix with one of the hashes is the
one that is found.  Flash that fails at some point only matters if no shorter
prefix has matched.
-/
import MetaOS.ApplyPatch
import MetaOS.MtdReadChunks

namespace MetaOS

namespace Mtd

variable {part : Partition} {S : Type} (source : Source part S)

/-- `read_block` yields these bytes before it fails. -/
def Source.Yields (start : S) (bytes : Bytes) : Prop :=
  ∃ (blocks : List Bytes) (stop : S),
    source.Fetches start (blocks.map some) stop ∧ bytes <+: blocks.flatten

/-- The partition can be opened and then read that far. -/
def Source.Supplies (state : S) (bytes : Bytes) : Prop :=
  (source.handler .openDevice state).1 = true ∧
    source.Yields (source.handler .openDevice state).2 bytes

variable {source}

/-- Two readings of one length are the same. -/
theorem Source.Yields.unique {start : S} {bytes other : Bytes}
    (hbytes : source.Yields start bytes) (hother : source.Yields start other)
    (hlength : bytes.length = other.length) : bytes = other := by
  obtain ⟨blocks, stop, hfetch, hle⟩ := hbytes
  obtain ⟨blocks', stop', hfetch', hle'⟩ := hother
  -- the longer list of blocks holds both
  rcases Nat.le_total (blocks.map some).length (blocks'.map some).length with
    hcount | hcount
  · have hmap := hfetch.determined hfetch' hcount
    have hblocks : blocks <+: blocks' :=
      (List.prefix_map_iff_of_injective (Option.some_injective _)).mp hmap
    have hlong := hle.trans hblocks.flatten
    exact (List.prefix_of_prefix_length_le hlong hle' hlength.le).eq_of_length
      hlength
  · have hmap := hfetch'.determined hfetch hcount
    have hblocks : blocks' <+: blocks :=
      (List.prefix_map_iff_of_injective (Option.some_injective _)).mp hmap
    have hlong := hle'.trans hblocks.flatten
    exact (List.prefix_of_prefix_length_le hle hlong hlength.le).eq_of_length
      hlength

/-- A failure before the blocks that a request needs are there: nothing as
long as the request can be read. -/
theorem Source.Yields.length_lt {start state stop : S} {done blocks :
    List Bytes} {soFar other : Bytes} {ctx : ReadContext} {len : Nat}
    (hdone : source.Fetches start (done.map some) state)
    (hkept : soFar ++ ctx.unread = done.flatten)
    (hfetch : source.Fetches state (blocks.map some ++ [none]) stop)
    (hfew : blocks.length < blocksFor part ctx len)
    (hother : source.Yields start other) :
    other.length < soFar.length + len := by
  obtain ⟨all, stop', hall, hle⟩ := hother
  have hsize := part.eraseSize_pos
  have hcount : all.length ≤ done.length + blocks.length := by
    by_contra hmore
    have hlonger : (done.map some ++ (blocks.map some ++ [none])).length ≤
        (all.map some).length := by
      simp only [List.length_append, List.length_map, List.length_singleton]
      omega
    have hmem := ((hdone.append hfetch).determined hall hlonger).subset
      (List.mem_append_right _ (List.mem_append_right _ List.mem_cons_self))
    simp at hmem
  have hread := flatten_length_eq_mul hall.lengths
  have htaken := flatten_length_eq_mul hdone.lengths
  have hbound := hle.length_le
  have hneed : (blocks.length + 1) * part.eraseSize ≤
      len - ctx.unread.length + part.eraseSize - 1 :=
    (Nat.le_div_iff_mul_le hsize).mp hfew
  have htotal := Nat.mul_le_mul_right part.eraseSize hcount
  rw [← hkept, List.length_append] at htaken
  rw [Nat.add_mul] at htotal
  rw [Nat.add_mul, Nat.one_mul] at hneed
  omega

end Mtd

namespace ApplyPatch

open FileSystem CString

/-- The value of decimal digits. -/
def decimal (text : Bytes) : Nat :=
  text.foldl (fun value c => 10 * value + (c.toNat - 48)) 0

/-- A size in decimal digits and a hash in hexadecimal digits. -/
structure Candidate where
  sizeText : Bytes
  shaText : Bytes
  digest : Bytes
  digits : ∀ c ∈ sizeText, 48 ≤ c ∧ c ≤ 57
  positive : 0 < decimal sizeText
  digest_length : digest.length = 20
  hex : shaText.map hexDigit =
    digest.flatMap fun byte => [some (byte / 16), some (byte % 16)]

namespace Candidate

variable (cand : Candidate)

/-- The size as a `long`: `strtol` does not go beyond the largest. -/
def size : Nat := min (decimal cand.sizeText) (2 ^ 31 - 1)

def pair : Nat × Option Bytes := (cand.size, some cand.shaText)

/-- These bytes have the size and the hash. -/
def Matches (sha1 : Bytes → Bytes) (bytes : Bytes) : Prop :=
  bytes.length = cand.size ∧ sha1 bytes = cand.digest

theorem size_pos : 0 < cand.size := by
  have hpos := cand.positive
  rw [size]
  omega

theorem size_lt : cand.size < 2 ^ 31 := by
  rw [size]
  omega

theorem sizeText_ne_nil : cand.sizeText ≠ [] := by
  intro hnil
  have hpos := cand.positive
  rw [hnil] at hpos
  cases hpos

theorem strtolSize_sizeText : strtolSize cand.sizeText = cand.size := by
  obtain ⟨c, text, htext⟩ := List.exists_cons_of_ne_nil cand.sizeText_ne_nil
  have hc := cand.digits c (htext ▸ List.mem_cons_self)
  have hblank : c ≠ 32 := by
    rintro rfl
    exact absurd hc.1 (by decide)
  have hcontrol : ¬ c ≤ 13 := fun hle =>
    absurd (UInt8.le_trans hc.1 hle) (by decide)
  have hminus : c ≠ 45 := by
    rintro rfl
    exact absurd hc.1 (by decide)
  have hplus : c ≠ 43 := by
    rintro rfl
    exact absurd hc.1 (by decide)
  have hall : cand.sizeText.takeWhile (fun c => 48 ≤ c && c ≤ 57) =
      cand.sizeText := by
    rw [List.takeWhile_eq_self_iff]
    intro c hc
    obtain ⟨hlow, hhigh⟩ := cand.digits c hc
    simp [hlow, hhigh]
  have hstart : cand.sizeText.dropWhile
      (fun c => c == 32 || (9 ≤ c && c ≤ 13)) = cand.sizeText := by
    rw [htext, List.dropWhile_cons_of_neg]
    simp [hblank, hcontrol]
  have hhead : cand.sizeText.head? = some c := by
    rw [htext, List.head?_cons]
  simp only [strtolSize, hstart, hhead, Option.some.injEq, hminus, hplus,
    or_self, if_false, hall]
  rfl

theorem digits_of_byte (byte : UInt8) :
    (byte / 16) <<< 4 ||| byte % 16 = byte := by
  have hlt := byte.toNat_lt
  have hlow : byte.toNat % 16 < 2 ^ 4 := Nat.mod_lt _ (by decide)
  have hhigh : byte.toNat / 16 * 16 < 256 := by omega
  have hshift : ((byte / 16) <<< 4 : UInt8).toNat =
      (byte.toNat / 16) <<< 4 := by
    simp [Nat.shiftLeft_eq, Nat.mod_eq_of_lt hhigh]
  apply UInt8.toNat_inj.mp
  rw [UInt8.toNat_or, hshift, UInt8.toNat_mod]
  change (byte.toNat / 16) <<< 4 ||| byte.toNat % 16 = byte.toNat
  rw [← Nat.shiftLeft_add_eq_or_of_lt hlow, Nat.shiftLeft_eq]
  omega

theorem parseDigits_digest {text digest : Bytes} (hhex : text.map hexDigit =
    digest.flatMap fun byte => [some (byte / 16), some (byte % 16)]) :
    parseDigits digest.length text = some (digest, []) := by
  induction digest generalizing text with
  | nil =>
      have hnil : text = [] := by simpa using hhex
      rw [hnil]
      rfl
  | cons byte digest ih =>
      match text, hhex with
      | [high], hhex => simp at hhex
      | high :: low :: text, hhex =>
          simp only [List.map_cons, List.flatMap_cons, List.cons_append,
            List.nil_append, List.cons.injEq] at hhex
          simp [parseDigits, hhex.1, hhex.2.1, ih hhex.2.2, digits_of_byte]

theorem parseSha1_shaText : parseSha1 cand.shaText = some cand.digest := by
  have hparse := parseDigits_digest cand.hex
  rw [cand.digest_length] at hparse
  rw [parseSha1, hparse]

theorem isColon_sizeText {c : UInt8} (hc : c ∈ cand.sizeText) :
    isColon c = false := by
  obtain ⟨-, hhigh⟩ := cand.digits c hc
  rw [isColon, beq_eq_false_iff_ne]
  rintro rfl
  exact absurd hhigh (by decide)

theorem isColon_shaText {c : UInt8} (hc : c ∈ cand.shaText) :
    isColon c = false := by
  have hmem : hexDigit c ∈ cand.shaText.map hexDigit :=
    List.mem_map_of_mem hc
  rw [cand.hex] at hmem
  rw [isColon, beq_eq_false_iff_ne]
  rintro rfl
  have hnone : hexDigit 58 = none := by decide
  simp [hnone] at hmem

theorem shaText_ne_nil : cand.shaText ≠ [] := by
  intro hnil
  have hparse := cand.parseSha1_shaText
  rw [hnil] at hparse
  cases hparse

end Candidate

/-- A well-formed name of a partition. -/
structure PartitionName where
  partition : Bytes
  nonempty : partition ≠ []
  no_colon : ∀ c ∈ partition, isColon c = false
  first : Candidate
  others : List Candidate

namespace PartitionName

variable (name : PartitionName)

def candidates : List Candidate := name.first :: name.others

def fields : List Bytes :=
  name.partition ::
    name.candidates.flatMap fun cand => [cand.sizeText, cand.shaText]

def sorted : List Candidate :=
  name.candidates.insertionSort fun a b => a.size ≤ b.size

theorem pairwise_sorted :
    name.sorted.Pairwise fun a b => a.size ≤ b.size := by
  have htotal : Std.Total fun a b : Candidate => a.size ≤ b.size :=
    ⟨fun a b => Nat.le_total a.size b.size⟩
  have htrans : IsTrans Candidate fun a b => a.size ≤ b.size :=
    ⟨fun _ _ _ => Nat.le_trans⟩
  exact List.pairwise_insertionSort _ _

theorem mem_sorted {cand : Candidate} :
    cand ∈ name.sorted ↔ cand ∈ name.candidates :=
  List.mem_insertionSort _

/-- The name as the updater spells it, each field behind a colon. -/
def text : Bytes := ascii "MTD" ++ name.fields.flatMap (58 :: ·)

theorem mem_fields {field : Bytes} (hmem : field ∈ name.fields) :
    field ≠ [] ∧ ∀ c ∈ field, isColon c = false := by
  rw [fields, List.mem_cons, List.mem_flatMap] at hmem
  rcases hmem with rfl | ⟨cand, -, hmem⟩
  · exact ⟨name.nonempty, name.no_colon⟩
  · simp only [List.mem_cons, List.not_mem_nil, or_false] at hmem
    rcases hmem with rfl | rfl
    · exact ⟨cand.sizeText_ne_nil, fun c => cand.isColon_sizeText⟩
    · exact ⟨cand.shaText_ne_nil, fun c => cand.isColon_shaText⟩

theorem tokens_text :
    tokens isColon name.text = ascii "MTD" :: name.fields := by
  have hlines : tokens isColon (ascii "MTD" ++
      name.fields.flatMap (58 :: ·) ++ []) = ascii "MTD" :: name.fields := by
    apply tokens_lines rfl
    · intro field hmem
      rcases List.mem_cons.mp hmem with rfl | hmem
      · decide +kernel
      · exact name.mem_fields hmem
    · simp
  rwa [List.append_nil] at hlines

theorem countP_fields {fields : List Bytes}
    (hfields : ∀ field ∈ fields, ∀ c ∈ field, isColon c = false) :
    (fields.flatMap (58 :: ·)).countP isColon = fields.length := by
  induction fields with
  | nil => rfl
  | cons field fields ih =>
      have hfield : field.countP isColon = 0 := by
        rw [List.countP_eq_zero]
        intro c hc
        simp [hfields field List.mem_cons_self c hc]
      have hrest := ih fun other hmem =>
        hfields other (List.mem_cons_of_mem field hmem)
      rw [List.flatMap_cons, List.cons_append, List.countP_cons_of_pos rfl,
        List.countP_append, hfield, hrest, List.length_cons, Nat.zero_add]

theorem colons_text : (name.text.countP isColon - 1) / 2 =
    name.candidates.length := by
  have hmagic : (ascii "MTD").countP isColon = 0 := by decide
  rw [text, List.countP_append, hmagic, countP_fields fun field hmem =>
    (name.mem_fields hmem).2, fields, List.length_cons, List.length_flatMap]
  simp

end PartitionName

theorem parsePairs_candidates (candidates : List Candidate) :
    parsePairs candidates.length
        (candidates.flatMap fun cand => [cand.sizeText, cand.shaText]) =
      pure (some (candidates.map Candidate.pair)) := by
  induction candidates with
  | nil => rfl
  | cons cand candidates ih =>
      have hsize : cand.size ≠ 0 := cand.size_pos.ne'
      simp only [List.flatMap_cons, List.cons_append, List.nil_append,
        List.length_cons, parsePairs, cand.strtolSize_sizeText, hsize,
        if_false, List.tail_cons, List.head?_cons, ih, Prog.pure_eq_ret,
        Prog.ret_bind, Option.map_some, List.map_cons, Candidate.pair]

section Load

variable {part : Mtd.Partition} {S : Type} (source : Mtd.Source part S)

/-- The partition is found, and its device is the source. -/
def partitionAnswers : (c : Syscall) → S → Option (Answer c × S)
  | .mtdFind _, state => some (some part, state)
  | .mtd _ c, state => some (source.handler c state)
  | _, _ => none

theorem advance_onFlash {α : Type} (name : Bytes) (prog : Mtd.MtdProg α)
    (state : S) :
    (onFlash name prog).advance (partitionAnswers source) state =
      (Prog.ret (prog.eval source.handler state).1,
        (prog.eval source.handler state).2) := by
  induction prog generalizing state with
  | ret value => rfl
  | call c next ih => exact ih _ _

variable (sha1 : Bytes → Bytes)

/-- The search of `LoadMTDContents`: it has found the first of the candidates
that match, or there is none. -/
inductive Search (start : S) (candidates : List Candidate) :
    Bool × Bytes → Prop
  | found {cand : Candidate} {bytes : Bytes} (hmem : cand ∈ candidates)
      (hyields : source.Yields start bytes)
      (hmatch : cand.Matches sha1 bytes)
      (hfirst : ∀ cand ∈ candidates, ∀ other, source.Yields start other →
        cand.Matches sha1 other → bytes.length ≤ other.length) :
      Search start candidates (true, bytes)
  | missing {bytes : Bytes}
      (hnone : ∀ cand ∈ candidates, ∀ other, source.Yields start other →
        ¬ cand.Matches sha1 other) :
      Search start candidates (false, bytes)

variable {source sha1}

/-- A candidate that does not match is passed over. -/
theorem Search.cons {start : S} {cand : Candidate}
    {candidates : List Candidate} {result : Bool × Bytes}
    (hsearch : Search source sha1 start candidates result)
    (hother : ∀ other, source.Yields start other →
      ¬ cand.Matches sha1 other) :
    Search source sha1 start (cand :: candidates) result := by
  cases hsearch with
  | found hmem hyields hmatch hfirst =>
      refine Search.found (List.mem_cons_of_mem _ hmem) hyields hmatch ?_
      intro other hother'
      rcases List.mem_cons.mp hother' with rfl | hother'
      · intro bytes hbytes hmatch'
        exact absurd hmatch' (hother bytes hbytes)
      · exact hfirst other hother'
  | missing hnone =>
      refine Search.missing ?_
      intro other hother'
      rcases List.mem_cons.mp hother' with rfl | hother'
      · exact hother
      · exact hnone other hother'

/-- The candidates in increasing order.  What was read so far and the rest of
the buffer are the blocks that were taken. -/
theorem advance_matchPairs (sha1 : Bytes → Bytes) (name : Bytes)
    {candidates : List Candidate}
    {start state : S} {ctx : Mtd.ReadContext} {soFar : Bytes}
    {done : List Bytes}
    (hsorted : candidates.Pairwise fun a b => a.size ≤ b.size)
    (hready : ctx.Ready part)
    (hdone : source.Fetches start (done.map some) state)
    (hkept : soFar ++ ctx.unread = done.flatten)
    (hshort : ∀ cand ∈ candidates, soFar.length ≤ cand.size) :
    ∃ result state', (matchPairs sha1 name part
        (candidates.map Candidate.pair) ctx soFar).advance
          (partitionAnswers source) state = (Prog.ret result, state') ∧
      Search source sha1 start candidates result := by
  induction candidates generalizing state ctx soFar done with
  | nil =>
      refine ⟨(false, soFar), state, rfl, Search.missing ?_⟩
      intro cand hmem
      cases hmem
  | cons cand candidates ih =>
      obtain ⟨hbehind, hsorted⟩ := List.pairwise_cons.mp hsorted
      have hlen := hshort cand List.mem_cons_self
      have hsmall : cand.size - soFar.length < 2 ^ 31 :=
        (Nat.sub_le _ _).trans_lt cand.size_lt
      obtain ⟨read, ctx', state', heval, hready', hcall⟩ :
          ∃ read ctx' state', (Mtd.mtdReadData part ctx
              (cand.size - soFar.length)).eval source.handler state =
                ((read, ctx'), state') ∧ ctx'.Ready part ∧
            Mtd.ReadCall source (cand.size - soFar.length) ctx state read
              ctx' state' :=
        Mtd.eval_mtdReadData state hready hsmall
      have hread := advance_onFlash source name
        (Mtd.mtdReadData part ctx (cand.size - soFar.length)) state
      rw [heval] at hread
      rw [List.map_cons, Candidate.pair, matchPairs, Prog.advance_bind hread]
      cases hcall with
      | @served data blocks _ _ hfetch hlength hdata =>
          have hnow : (soFar ++ data).length = cand.size := by
            rw [List.length_append]
            omega
          have hdone' : source.Fetches start ((done ++ blocks).map some)
              state' := by
            rw [List.map_append]
            exact hdone.append hfetch
          have hkept' : soFar ++ data ++ ctx'.unread =
              (done ++ blocks).flatten := by
            rw [List.append_assoc, hdata, ← List.append_assoc, hkept,
              List.flatten_append]
          have hyields : source.Yields start (soFar ++ data) :=
            ⟨_, _, hdone', hkept' ▸ List.prefix_append _ _⟩
          simp only [hlength, ne_eq, not_true, if_false,
            cand.parseSha1_shaText]
          by_cases hmatch : sha1 (soFar ++ data) = cand.digest
          · rw [if_pos hmatch]
            refine ⟨_, state', rfl, Search.found List.mem_cons_self hyields
              ⟨hnow, hmatch⟩ ?_⟩
            intro other hmem bytes _ hother
            rw [hnow, hother.1]
            rcases List.mem_cons.mp hmem with rfl | hmem
            · exact le_rfl
            · exact hbehind other hmem
          · rw [if_neg hmatch]
            have hshort' : ∀ other ∈ candidates,
                (soFar ++ data).length ≤ other.size := by
              intro other hmem
              rw [hnow]
              exact hbehind other hmem
            obtain ⟨result, stop, hrun, hsearch⟩ :=
              ih hsorted hready' hdone' hkept' hshort'
            refine ⟨result, stop, hrun, hsearch.cons ?_⟩
            intro bytes hbytes hother
            have hsame := hbytes.unique hyields (hother.1.trans hnow.symm)
            exact hmatch (hsame ▸ hother.2)
      | broke hfetch hfew hdropped =>
          refine ⟨(false, soFar), state', rfl, Search.missing ?_⟩
          intro other hmem bytes hbytes hother
          have hlt := hbytes.length_lt hdone hkept hfetch hfew
          have hle : cand.size ≤ other.size := by
            rcases List.mem_cons.mp hmem with rfl | hmem
            · exact le_rfl
            · exact hbehind other hmem
          rw [hother.1] at hlt
          omega

/-- What is left of `LoadMTDContents` once the name has been parsed. -/
theorem loadMTDContents_text (name : PartitionName) (file : FileContents) :
    loadMTDContents sha1 file name.text = (do
      match ← mtdFind name.partition with
      | none => pure (false, file)
      | some part =>
          match ← onFlash name.partition (Mtd.mtdReadPartition part) with
          | none => pure (false, file)
          | some ctx =>
              let (found, soFar) ← matchPairs sha1 name.partition part
                (name.sorted.map Candidate.pair) ctx []
              if found then
                pure (true, ⟨sha1 soFar, .live soFar, soFar.length,
                  ⟨0o644, 0, 0⟩⟩)
              else pure (false, { file with size := soFar.length })) := by
  have hpairs : parsePairs name.candidates.length
      ((ascii "MTD" :: name.fields).drop 2) =
        pure (some (name.candidates.map Candidate.pair)) :=
    parsePairs_candidates name.candidates
  have hsort : (name.candidates.map Candidate.pair).insertionSort
      (fun a b => a.1 ≤ b.1) = name.sorted.map Candidate.pair :=
    (List.map_insertionSort (fun a b : Candidate => a.size ≤ b.size)
      (fun a b => a.1 ≤ b.1) Candidate.pair name.candidates
      fun _ _ _ _ => Iff.rfl).symm
  simp only [loadMTDContents, name.tokens_text, name.colons_text, hpairs,
    List.head?_cons, ne_eq, not_true, if_false, Prog.pure_eq_ret,
    Prog.ret_bind, List.tail_cons, hsort]
  rfl

/-- `LoadMTDContents` succeeds if and only if the partition supplies a prefix
with one of the sizes and its hash, and then it loads the shortest one. -/
theorem loadMTDContents_loads (source : Mtd.Source part S) (state : S)
    (sha1 : Bytes → Bytes) (name : PartitionName) (file : FileContents) :
    ∃ ok file' state', (loadMTDContents sha1 file name.text).advance
        (partitionAnswers source) state = (Prog.ret (ok, file'), state') ∧
      (ok = true ↔ ∃ cand ∈ name.candidates, ∃ bytes,
        source.Supplies state bytes ∧ cand.Matches sha1 bytes) ∧
      (ok = true → ∃ bytes, source.Supplies state bytes ∧
        (∃ cand ∈ name.candidates, cand.Matches sha1 bytes) ∧
        (∀ cand ∈ name.candidates, ∀ other, source.Supplies state other →
          cand.Matches sha1 other → bytes.length ≤ other.length) ∧
        file'.data = .live bytes ∧ file'.size = bytes.length ∧
        file'.sha1 = sha1 bytes) := by
  have hfind : (mtdFind name.partition).advance (partitionAnswers source)
      state = (Prog.ret (some part), state) := rfl
  rw [loadMTDContents_text, Prog.advance_bind hfind]
  dsimp only
  rw [Prog.advance_bind (advance_onFlash source _ _ _)]
  cases hopen : (source.handler .openDevice state).1 with
  | false =>
      have hctx : ((Mtd.mtdReadPartition part).eval source.handler state).1 =
          none := by
        simp [Mtd.mtdReadPartition, Mtd.openDevice, hopen]
      rw [hctx]
      refine ⟨false, file, _, rfl, ?_, ?_⟩
      · simp [Mtd.Source.Supplies, hopen]
      · intro hok
        cases hok
  | true =>
      have heval : (Mtd.mtdReadPartition part).eval source.handler state =
          (some ⟨List.replicate part.eraseSize 0, part.eraseSize⟩,
            (source.handler .openDevice state).2) := by
        simp [Mtd.mtdReadPartition, Mtd.openDevice, hopen]
      have hsupplies : ∀ bytes, source.Supplies state bytes ↔
          source.Yields (source.handler .openDevice state).2 bytes := by
        intro bytes
        rw [Mtd.Source.Supplies, hopen, eq_self, true_and]
      have hready : Mtd.ReadContext.Ready part
          ⟨List.replicate part.eraseSize 0, part.eraseSize⟩ :=
        ⟨List.length_replicate, le_rfl⟩
      have hnothing : [] ++ Mtd.ReadContext.unread
          ⟨List.replicate part.eraseSize 0, part.eraseSize⟩ =
            ([] : List Bytes).flatten := by
        rw [Mtd.ReadContext.unread, List.drop_of_length_le
          (le_of_eq List.length_replicate)]
        rfl
      obtain ⟨result, stop, hrun, hsearch⟩ := advance_matchPairs sha1
        name.partition name.pairwise_sorted hready
        Mtd.Source.Fetches.nil hnothing fun _ _ => Nat.zero_le _
      rw [heval]
      dsimp only
      rw [Prog.advance_bind hrun]
      simp only [hsupplies]
      cases hsearch with
      | found hmem hyields hmatch hfirst =>
          rw [name.mem_sorted] at hmem
          refine ⟨true, _, stop, rfl, ?_, fun _ => ?_⟩
          · exact iff_of_true rfl ⟨_, hmem, _, hyields, hmatch⟩
          · refine ⟨_, hyields, ⟨_, hmem, hmatch⟩, ?_, rfl, rfl, rfl⟩
            intro cand hcand
            exact hfirst cand (name.mem_sorted.mpr hcand)
      | missing hnone =>
          refine ⟨false, _, stop, rfl, ?_, ?_⟩
          · refine iff_of_false Bool.false_ne_true ?_
            rintro ⟨cand, hcand, bytes, hyields, hmatch⟩
            exact hnone cand (name.mem_sorted.mpr hcand) bytes hyields hmatch
          · intro hok
            cases hok

end Load

namespace LoadPartitionWitness

open Mtd.MtdReadChunksWitness

theorem digits_of_all {text : Bytes}
    (hall : text.all (fun c => 48 ≤ c && c ≤ 57) = true) :
    ∀ c ∈ text, 48 ≤ c ∧ c ≤ 57 := by
  intro c hc
  simpa using List.all_eq_true.mp hall c hc

/-- The hashes of the first four bytes of the partition, and of two of them. -/
def sha1 (bytes : Bytes) : Bytes :=
  if bytes = [1, 2] then
    [0x0c, 0xa6, 0x23, 0xe2, 0x85, 0x5f, 0x2c, 0x75, 0xc8, 0x42, 0xad, 0x30,
      0x2f, 0xe8, 0x20, 0xe4, 0x1b, 0x4d, 0x19, 0x7d]
  else
    [0x12, 0xda, 0xda, 0x1f, 0xff, 0x4d, 0x47, 0x87, 0xad, 0xe3, 0x33, 0x31,
      0x47, 0x20, 0x2c, 0x3b, 0x44, 0x3e, 0x37, 0x6f]

def four : Candidate where
  sizeText := ascii "4"
  shaText := ascii "12dada1fff4d4787ade3333147202c3b443e376f"
  digest := sha1 [1, 2, 3, 4]
  digits := digits_of_all (by decide)
  positive := by decide
  digest_length := rfl
  hex := by decide +kernel

def two : Candidate where
  sizeText := ascii "2"
  shaText := ascii "0ca623e2855f2c75c842ad302fe820e41b4d197d"
  digest := sha1 [1, 2]
  digits := digits_of_all (by decide)
  positive := by decide
  digest_length := rfl
  hex := by decide +kernel

/-- Both are in the partition, and the longer one stands first. -/
def boot : PartitionName where
  partition := ascii "boot"
  nonempty := by decide
  no_colon := by
    intro c hc
    have hall : (ascii "boot").all (fun c => !isColon c) = true := by decide
    simpa using List.all_eq_true.mp hall c hc
  first := four
  others := [two]

def unread : FileContents := ⟨[], .null, 0, ⟨0, 0, 0⟩⟩

theorem two_supplied : (flaky 9).Supplies start [1, 2] := by
  have hfetch : (flaky 9).Fetches start ([[1, 2]].map some)
      ((flaky 9).next start).2 :=
    Mtd.Source.Fetches.step (by decide +kernel) Mtd.Source.Fetches.nil
  exact ⟨rfl, [[1, 2]], _, hfetch, List.prefix_rfl⟩

/-- The shorter prefix is tried first, and it is loaded. -/
theorem two_loaded : ∃ file' state',
    (loadMTDContents sha1 unread boot.text).advance
        (partitionAnswers (flaky 9)) start = (Prog.ret (true, file'), state') ∧
      file'.data = .live [1, 2] := by
  obtain ⟨ok, file', state', hrun, hiff, hloads⟩ :=
    loadMTDContents_loads (flaky 9) start sha1 boot unread
  have htwo : two ∈ boot.candidates :=
    List.mem_cons_of_mem four List.mem_cons_self
  have hmatch : two.Matches sha1 [1, 2] := ⟨by decide +kernel, rfl⟩
  obtain rfl : ok = true := hiff.mpr ⟨two, htwo, _, two_supplied, hmatch⟩
  obtain ⟨bytes, hbytes, ⟨cand, hcand, hsize, -⟩, hfirst, hdata, -⟩ :=
    hloads rfl
  refine ⟨file', state', hrun, ?_⟩
  have hle : bytes.length ≤ 2 := hfirst two htwo _ two_supplied hmatch
  have hlength : bytes.length = 2 := by
    rcases List.mem_cons.mp hcand with rfl | hcand
    · have hfour : boot.first.size = 4 := by decide +kernel
      omega
    · obtain rfl := List.mem_singleton.mp hcand
      rw [hsize]
      decide +kernel
  rw [hdata, hbytes.2.unique two_supplied.2 hlength]

end LoadPartitionWitness

end ApplyPatch

end MetaOS
