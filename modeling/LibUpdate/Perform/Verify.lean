import LibUpdate.Foundation.Numeral
import LibUpdate.Perform.Gate

/-!
# `Perform.Verify` — what `update_verify` decides (`update.c`)

A readable file is accepted exactly where the expected string, without the white space around it, is 64
hexadecimal digits that write the SHA-256 of the content. `Writes` says so without the code: digits count as
`strtoull` counts them, and two digits write a byte.
-/

namespace LibUpdate

/-! ## Written digests -/

/-- The byte that two hexadecimal digits write. -/
def hexByte (hi lo : UInt8) : UInt8 := UInt8.ofNat (digitsValue 16 [hi, lo])

/-- The bytes that hexadecimal digits write, two to a byte. -/
def hexBytes : Bytes → Bytes
  | hi :: lo :: p => hexByte hi lo :: hexBytes p
  | _ => []

/-- `written` is 64 hexadecimal digits with white space around, and they write `digest`. -/
def Writes (written digest : Bytes) : Prop :=
  ∃ before digits after, written = before ++ (digits ++ after) ∧ (∀ c ∈ before, isspace c = true)
    ∧ (∀ c ∈ after, isspace c = true) ∧ digits.length = 64 ∧ (∀ c ∈ digits, isDigitOf 16 c = true)
    ∧ hexBytes digits = digest

/-- `hex_nibble` knows the hexadecimal digits, with the values they have in a number. -/
theorem hexNibble_eq (c : UInt8) :
    hexNibble c = if isDigitOf 16 c then some (UInt8.ofNat ((digitValue c).getD 0)) else none :=
  forall_byte (P := fun c => hexNibble c
    = if isDigitOf 16 c then some (UInt8.ofNat ((digitValue c).getD 0)) else none) (by decide +kernel) c

theorem digitValue_lt {c : UInt8} (h : isDigitOf 16 c = true) : (digitValue c).getD 0 < 16 := by
  unfold isDigitOf at h
  cases hv : digitValue c with
  | none => decide
  | some v =>
      rw [hv, Option.any_some, decide_eq_true_eq] at h
      exact h

theorem shift_or_nibbles :
    ∀ hi < 16, ∀ lo < 16, UInt8.ofNat hi <<< 4 ||| UInt8.ofNat lo = UInt8.ofNat (hi * 16 + lo) := by
  decide +kernel

/-- Two nibbles put together are the byte that the digits write. -/
theorem nibbles_hexByte {hi lo : UInt8} (hhi : isDigitOf 16 hi = true) (hlo : isDigitOf 16 lo = true) :
    UInt8.ofNat ((digitValue hi).getD 0) <<< 4 ||| UInt8.ofNat ((digitValue lo).getD 0) = hexByte hi lo := by
  rw [shift_or_nibbles _ (digitValue_lt hhi) _ (digitValue_lt hlo)]
  simp [hexByte, digitsValue]

/-- Pairs of digits are read as the bytes they write, and nothing but digits is read. -/
theorem hexPairs_eq_some {p out : Bytes} (heven : p.length % 2 = 0) :
    hexPairs p = some out ↔ (∀ c ∈ p, isDigitOf 16 c = true) ∧ hexBytes p = out := by
  fun_induction hexBytes p generalizing out with
  | case1 hi lo p ih =>
      rw [List.length_cons, List.length_cons] at heven
      have hpairs : p.length % 2 = 0 := by omega
      rw [hexPairs, hexNibble_eq, hexNibble_eq, List.forall_mem_cons, List.forall_mem_cons]
      cases hhi : isDigitOf 16 hi with
      | false => simp
      | true =>
          cases hlo : isDigitOf 16 lo with
          | false => simp
          | true =>
              simp only [if_true, nibbles_hexByte hhi hlo, true_and, Option.map_eq_some_iff]
              constructor
              · rintro ⟨rest, hrest, rfl⟩
                obtain ⟨hdigits, hbytes⟩ := (ih hpairs).mp hrest
                exact ⟨hdigits, by rw [hbytes]⟩
              · rintro ⟨hdigits, rfl⟩
                exact ⟨_, (ih hpairs).mpr ⟨hdigits, rfl⟩, rfl⟩
  | case2 p hshort =>
      have hnil : p = [] := by
        match p with
        | [] => rfl
        | [_] => cases heven
        | a :: b :: p => exact absurd rfl (hshort a b p)
      subst hnil
      simp [hexPairs]

/-! ## Trimming -/

/-- What is left of a text when the white space around it is gone. -/
def trimmed (s : Bytes) : Bytes := hexTrimEnd (hexSkipSpace s)

/-- Nothing but white space goes. -/
theorem trimmed_spec (s : Bytes) :
    ∃ before after, s = before ++ (trimmed s ++ after) ∧ (∀ c ∈ before, isspace c = true)
      ∧ ∀ c ∈ after, isspace c = true := by
  refine ⟨s.takeWhile isspace, ((s.dropWhile isspace).reverse.takeWhile isspace).reverse, ?_, ?_, ?_⟩
  · rw [trimmed, hexTrimEnd, hexSkipSpace, ← List.reverse_append, List.takeWhile_append_dropWhile,
      List.reverse_reverse, List.takeWhile_append_dropWhile]
  · exact forall_takeWhile isspace s
  · intro c hc
    exact forall_takeWhile isspace _ c (List.mem_reverse.mp hc)

/-- All of it goes: what stands between is left where it holds none. -/
theorem trimmed_eq {before mid after : Bytes} (hbefore : ∀ c ∈ before, isspace c = true)
    (hafter : ∀ c ∈ after, isspace c = true) (hne : mid ≠ []) (hmid : ∀ c ∈ mid, isspace c = false) :
    trimmed (before ++ (mid ++ after)) = mid := by
  have hskip : hexSkipSpace (before ++ (mid ++ after)) = mid ++ after := by
    apply dropWhile_span hbefore
    intro c hc
    obtain ⟨d, ds, rfl⟩ := List.exists_cons_of_ne_nil hne
    obtain rfl : d = c := Option.some.inj hc
    exact hmid d List.mem_cons_self
  have htrim : (mid ++ after).reverse.dropWhile isspace = mid.reverse := by
    rw [List.reverse_append]
    apply dropWhile_span
    · intro c hc
      exact hafter c (List.mem_reverse.mp hc)
    · intro c hc
      exact hmid c (List.mem_reverse.mp (List.mem_of_mem_head? hc))
  rw [trimmed, hskip, hexTrimEnd, htrim, List.reverse_reverse]

/-- **`parse_sha256_hex`** reads a digest from exactly the strings that write it. -/
theorem parseSha256Hex_eq_some {written digest : Bytes} :
    parseSha256Hex written = some digest ↔ Writes written digest := by
  have hparse : parseSha256Hex written
      = if (trimmed written).length ≠ 64 then none else hexPairs (trimmed written) := rfl
  rw [hparse]
  constructor
  · intro h
    split at h; · cases h
    next hlen =>
    have hlen : (trimmed written).length = 64 := Decidable.not_not.mp hlen
    obtain ⟨hdigits, hbytes⟩ := (hexPairs_eq_some (by rw [hlen])).mp h
    obtain ⟨before, after, heq, hbefore, hafter⟩ := trimmed_spec written
    exact ⟨before, trimmed written, after, heq, hbefore, hafter, hlen, hdigits, hbytes⟩
  · rintro ⟨before, digits, after, rfl, hbefore, hafter, hlen, hdigits, hbytes⟩
    have hne : digits ≠ [] := by
      rintro rfl
      cases hlen
    rw [trimmed_eq hbefore hafter hne fun c hc => (hexDigit_plain (hdigits c hc)).2.1, if_neg (by simp [hlen])]
    exact (hexPairs_eq_some (by rw [hlen])).mpr ⟨hdigits, hbytes⟩

/-! ## The decision -/

/-- With fuel for the bytes, the hash of a message comes back. -/
theorem hashBlocks_digest {fuel : Nat} (m : Fips180.Message) (hfuel : m.bytes.length < fuel) :
    ∃ ctx, hashBlocks fuel m.bytes = some ctx ∧ ∀ out, Sha256.sha256Final ctx out = m.digest := by
  have hblocks := flatten_freadBlocks (m.bytes.length / 8192) m.bytes
  have hfuel : (freadBlocks (m.bytes.length / 8192) m.bytes).flatten.length < fuel := by rwa [hblocks]
  obtain ⟨ctx, hrun, _⟩ := Sha256.sha256Updates_absorbed (Sha256.absorbed_init rawCtx) _ hfuel
  exact ⟨ctx, hrun, Sha256.sha256Final_of_updates hrun hblocks.symm⟩

/-- **`update_verify` decides the digest.** On a file that is read to its end it comes back, and it accepts exactly
    where the expected string writes the digest of the content. -/
theorem updateVerify_exact (m : Fips180.Message) (expectedHash : Bytes) {file : Bytes} (hfile : file ≠ [])
    {fuel : Nat} (hfuel : m.bytes.length < fuel) {s : LibState} (hdata : dataAt s.fs (fsPath file) = some m.bytes)
    {e : LibOutcome} (hread : e (.readFile file) = .complete) (es : List LibOutcome) :
    ∃ st, (libDevice.run (updateVerify fuel file expectedHash) (e :: es) s).result = some (some st)
      ∧ (st = .ok ↔ Writes expectedHash m.digest) := by
  rw [← parseSha256Hex_eq_some]
  unfold updateVerify
  by_cases hempty : expectedHash = []
  · subst hempty
    refine ⟨.error, by simp, iff_of_false (by decide) ?_⟩
    intro h
    cases h
  rw [if_neg (by simp [hfile, hempty])]
  cases hparse : parseSha256Hex expectedHash with
  | none => exact ⟨.error, by simp, iff_of_false (by decide) (by simp)⟩
  | some expectBin =>
      obtain ⟨ctx, hhash, hdigest⟩ := hashBlocks_digest m hfuel
      have hanswer : (libDevice.step (.readFile file) e s).1 = some (m.bytes, false) := by
        show stepReadFile file (e (.readFile file)) s.fs = _
        unfold stepReadFile
        rw [hdata, hread]
      have hlen : m.digest.length = expectBin.length := by
        rw [Sha256.length_digest, length_parseSha256Hex hparse]
      simp only [ask, Prog.perform_bind, Device.run_op_cons, hanswer, hhash, Bool.false_eq_true, if_false, hdigest,
        Option.some.injEq]
      by_cases hequal : sha256DigestEqualsCt m.digest expectBin = 0
      · rw [if_neg (by simp [hequal])]
        exact ⟨.ok, by simp, iff_of_true rfl ((sha256DigestEqualsCt_eq_zero hlen).mp hequal).symm⟩
      · rw [if_pos hequal]
        refine ⟨.error, by simp, iff_of_false (by decide) ?_⟩
        intro heq
        exact hequal ((sha256DigestEqualsCt_eq_zero hlen).mpr heq.symm)

/-- A disk with the file `abc`. -/
def abcOnDisk : LibState := ⟨⟨.zero, 0⟩, [([ascii "f"], .file ⟨ascii "abc", 0o644⟩)]⟩

/-- The digest of `abc`, in capital letters and with a line end behind it. -/
def abcWritten : Bytes := ascii "BA7816BF8F01CFEA414140DE5DAE2223B00361A396177A9CB410FF61F20015AD\n"

/-- The file `abc` is checked against its digest. -/
theorem updateVerify_exact_abc :
    ∃ st, (libDevice.run (updateVerify 4 (ascii "/f") abcWritten) [abcOutcome] abcOnDisk).result = some (some st)
      ∧ (st = .ok ↔ Writes abcWritten (Fips180.Message.digest ⟨ascii "abc", by decide⟩)) :=
  updateVerify_exact ⟨ascii "abc", by decide⟩ abcWritten (by decide +kernel) (by decide) (by decide +kernel) rfl []

example : (libDevice.run (updateVerify 4 (ascii "/f") abcWritten) [abcOutcome] abcOnDisk).result
    = some (some .ok) := by
  decide +kernel

end LibUpdate
