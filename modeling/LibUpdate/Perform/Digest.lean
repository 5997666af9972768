import LibUpdate.Sha256.Streaming

/-!
# `Perform.Digest` — written digests and the digest of a file (`update.c`)

`parseSha256Hex` reads a digest as it is written in a manifest or in the options; `hashBlocks` is the loop of
`update_verify` over what `fread` delivers.
-/

namespace LibUpdate

def hexNibble (c : UInt8) : Option UInt8 :=
  if ch '0' ≤ c ∧ c ≤ ch '9' then some (c - ch '0')
  else if ch 'a' ≤ c ∧ c ≤ ch 'f' then some (c - ch 'a' + 10)
  else if ch 'A' ≤ c ∧ c ≤ ch 'F' then some (c - ch 'A' + 10)
  else none

def hexSkipSpace (s : Bytes) : Bytes := s.dropWhile isspace

def hexTrimEnd (s : Bytes) : Bytes := (s.reverse.dropWhile isspace).reverse

/-- The loop of `parse_sha256_hex` over the pairs of digits. -/
def hexPairs : Bytes → Option Bytes
  | hi :: lo :: p =>
      match hexNibble hi, hexNibble lo with
      | some hi, some lo => (hexPairs p).map fun out => (hi <<< 4 ||| lo) :: out
      | _, _ => none
  | _ => some []

/-- `parse_sha256_hex`; `none` is -1. -/
def parseSha256Hex (hex : Bytes) : Option Bytes :=
  let p := hexTrimEnd (hexSkipSpace hex)
  if p.length ≠ 64 then none else hexPairs p

/-- `sha256_digest_equals_ct`: 0 where the digests are equal. -/
def sha256DigestEqualsCt (a b : Bytes) : Int :=
  if (List.zipWith (· ^^^ ·) a b).foldl (· ||| ·) 0 = 0 then 0 else 1

/-- What the calls of `fread` with room for 8192 bytes deliver: full blocks, and the rest, if there is one. -/
def freadBlocks : Nat → Bytes → List Bytes
  | 0, data => if data = [] then [] else [data]
  | n + 1, data => data.take 8192 :: freadBlocks n (data.drop 8192)

/-- The context before `sha256_init`: nothing depends on what it holds. -/
def rawCtx : Sha256.Sha256Ctx := ⟨0, .replicate 8 0, .replicate 64 0, 0⟩

/-- The loop of `update_verify` that reads and hashes. -/
def hashBlocks (fuel : Nat) (data : Bytes) : Option Sha256.Sha256Ctx :=
  Sha256.sha256Updates fuel (Sha256.sha256Init rawCtx) (freadBlocks (data.length / 8192) data)

/-! ## The written digest -/

theorem length_hexPairs {p out : Bytes} (h : hexPairs p = some out) : out.length = p.length / 2 := by
  fun_induction hexPairs p generalizing out with
  | case1 hi lo p hi' lo' hhi hlo ih =>
      obtain ⟨rest, hrest, rfl⟩ := Option.map_eq_some_iff.mp h
      have hlen := ih hrest
      simp only [List.length_cons]
      omega
  | case2 => cases h
  | case3 p hshort =>
      cases h
      match p with
      | [] => rfl
      | [_] => simp
      | a :: b :: p => exact absurd rfl (hshort a b p)

/-- A written digest has 32 bytes. -/
theorem length_parseSha256Hex {hex d : Bytes} (h : parseSha256Hex hex = some d) : d.length = 32 := by
  unfold parseSha256Hex at h
  dsimp only at h
  split at h
  · cases h
  next hlen =>
  rw [length_hexPairs h]
  omega

/-- The accumulator of the comparison is zero only if every difference is. -/
theorem foldl_or_eq_zero {xs : Bytes} {acc : UInt8} :
    xs.foldl (· ||| ·) acc = 0 ↔ acc = 0 ∧ ∀ x ∈ xs, x = 0 := by
  induction xs generalizing acc with
  | nil => simp
  | cons x xs ih =>
      rw [List.foldl_cons, ih, UInt8.or_eq_zero_iff, List.forall_mem_cons, and_assoc]

theorem zipWith_xor_zero {a b : Bytes} (hlen : a.length = b.length) :
    (∀ x ∈ List.zipWith (· ^^^ ·) a b, x = 0) ↔ a = b := by
  induction a generalizing b with
  | nil =>
      cases b with
      | nil => simp
      | cons y b => cases hlen
  | cons x a ih =>
      cases b with
      | nil => cases hlen
      | cons y b =>
          rw [List.zipWith_cons_cons, List.forall_mem_cons, ih (Nat.succ.inj hlen), UInt8.xor_eq_zero_iff,
            List.cons.injEq]

theorem sha256DigestEqualsCt_eq_zero {a b : Bytes} (hlen : a.length = b.length) :
    sha256DigestEqualsCt a b = 0 ↔ a = b := by
  unfold sha256DigestEqualsCt
  rw [← zipWith_xor_zero hlen]
  split
  · next h => exact iff_of_true rfl (foldl_or_eq_zero.mp h).2
  · next h => exact iff_of_false (by decide) fun hall => h (foldl_or_eq_zero.mpr ⟨rfl, hall⟩)

/-! ## The digest of a file -/

/-- The blocks are the file. -/
theorem flatten_freadBlocks (n : Nat) (data : Bytes) : (freadBlocks n data).flatten = data := by
  induction n generalizing data with
  | zero =>
      rw [freadBlocks]
      split
      · next h => rw [h]; rfl
      · exact List.append_nil data
  | succ n ih => rw [freadBlocks, List.flatten_cons, ih, List.take_append_drop]

end LibUpdate

namespace LibUpdate.Sha256

open Fips180 (Message)

/-- More fuel gives the same context. -/
theorem sha256Updates_mono {fuel fuel' : Nat} (hle : fuel ≤ fuel') {chunks : List Bytes} {ctx ctx' : Sha256Ctx}
    (h : sha256Updates fuel ctx chunks = some ctx') : sha256Updates fuel' ctx chunks = some ctx' := by
  have hstable : Stable (fun fuel s => whileLoop (fun _ s => some (updatePass s)) fuel s) :=
    Stable.whileLoop fun _ _ _ _ _ hpass => hpass
  induction chunks generalizing ctx with
  | nil => exact h
  | cons c chunks ih =>
      rw [sha256Updates, List.foldlM_cons] at h ⊢
      obtain ⟨mid, hmid, hrest⟩ := Option.bind_eq_some_iff.mp h
      exact Option.bind_eq_some_iff.mpr ⟨mid, hstable _ _ _ _ hle hmid, ih hrest⟩

/-- The digest of what was taken in, wherever the updates come back. -/
theorem sha256Final_of_updates {fuel : Nat} {start ctx : Sha256Ctx} {chunks : List Bytes} {m : Message}
    (h : sha256Updates fuel (sha256Init start) chunks = some ctx) (hm : m.bytes = chunks.flatten) (out : Bytes) :
    sha256Final ctx out = m.digest := by
  obtain ⟨ctx', hrun, habs⟩ := sha256Updates_absorbed (absorbed_init start) chunks
    (Nat.lt_of_lt_of_le (Nat.lt_succ_self chunks.flatten.length) (Nat.le_max_left _ fuel))
  rw [sha256Updates_mono (Nat.le_max_right _ fuel) h] at hrun
  cases hrun
  rw [List.nil_append, ← hm] at habs
  exact sha256Final_digest habs out

theorem length_digest (m : Message) : m.digest.length = 32 := by
  have hword (x : Fips180.Word) : (Fips180.bytesOf x).length = 4 := by simp [Fips180.bytesOf]
  rw [Message.digest]
  simp [Fips180.Words.bytes, hword]

end LibUpdate.Sha256
