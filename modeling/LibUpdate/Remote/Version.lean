import LibUpdate.Foundation.Numeral
import LibUpdate.JsonMini

/-!
# `Remote.Version` — comparing versions (`update_remote_check.c`)

A version is the numbers that `sscanf` reads off its text. A missing number is zero; what follows the numbers
is not looked at.
-/

namespace LibUpdate

/-- The three numbers of a version. -/
structure Semver where
  ma : UInt32
  mi : UInt32
  pa : UInt32
  deriving DecidableEq, Repr

/-- `%u` of `sscanf`: a number behind white space and a sign, reduced to 32 bits, and what follows. There
    has to be a digit. -/
def scanUnsigned (p : Bytes) : Option (UInt32 × Bytes) :=
  let p := p.dropWhile isspace
  let negative := p.head? == some (ch '-')
  let digits := if negative || p.head? == some (ch '+') then p.tail else p
  if digits.head?.any (isDigitOf 10) then
    -- a number that is too large for 32 bits is reduced
    let n := UInt32.ofNat (digitsValue 10 (digits.takeWhile (isDigitOf 10)))
    some (if negative then -n else n, digits.dropWhile (isDigitOf 10))
  else none

/-- `.%u` of `sscanf`. -/
def scanDotUnsigned : Bytes → Option (UInt32 × Bytes)
  | c :: p => if c = ch '.' then scanUnsigned p else none
  | [] => none

/-- `sscanf(p, "%u.%u.%u", ma, mi, pa)` where the three are zero before; `none` where it reads none of them. -/
def scanSemver (p : Bytes) : Option Semver :=
  match scanUnsigned p with
  | none => none
  | some (ma, p) =>
      match scanDotUnsigned p with
      | none => some ⟨ma, 0, 0⟩
      | some (mi, p) =>
          match scanDotUnsigned p with
          | none => some ⟨ma, mi, 0⟩
          | some (pa, _) => some ⟨ma, mi, pa⟩

/-- `parse_semver3`; `none` is -1. -/
def parseSemver3 (s : Bytes) : Option Semver :=
  let p := jsonMiniSkipWs s
  scanSemver (if p.head? == some (ch 'v') || p.head? == some (ch 'V') then p.tail else p)

/-- `remote_version_is_newer`. -/
def remoteVersionIsNewer (remote localVersion : Bytes) : Int :=
  match parseSemver3 remote with
  | none => -1
  | some r =>
      -- a local version that is none counts as 0.0.0
      let l := (parseSemver3 localVersion).getD ⟨0, 0, 0⟩
      if r.ma > l.ma then 1
      else if r.ma < l.ma then 0
      else if r.mi > l.mi then 1
      else if r.mi < l.mi then 0
      else if r.pa > l.pa then 1
      else 0

/-! ## The order of versions -/

/-- The order of what is kept of two versions: the first number in which they differ decides. -/
def Semver.Newer (r l : Semver) : Prop :=
  l.ma < r.ma ∨ (l.ma = r.ma ∧ (l.mi < r.mi ∨ (l.mi = r.mi ∧ l.pa < r.pa)))

/-- The remote version is newer than the local one as far as the code reads them: what 32 bits keep of their
    numbers is compared. A local version that is none counts as 0.0.0. -/
def NewerAsRead (remote localVersion : Bytes) : Prop :=
  ∃ r, parseSemver3 remote = some r ∧ r.Newer ((parseSemver3 localVersion).getD ⟨0, 0, 0⟩)

/-- **Newer versions** are the ones that are newer as they are read. -/
theorem remoteVersionIsNewer_eq_one {remote localVersion : Bytes} :
    remoteVersionIsNewer remote localVersion = 1 ↔ NewerAsRead remote localVersion := by
  unfold remoteVersionIsNewer NewerAsRead
  cases parseSemver3 remote with
  | none => simp
  | some r =>
      generalize (parseSemver3 localVersion).getD ⟨0, 0, 0⟩ = l
      have hiff : ∀ a b : UInt32, ¬ a > b → ¬ a < b → b = a := by
        intro a b h₁ h₂
        exact UInt32.le_antisymm (UInt32.not_lt.mp h₂) (UInt32.not_lt.mp h₁)
      simp only [Option.some.injEq, exists_eq_left', Semver.Newer]
      split; · simp_all
      next hgt =>
      split
      · next hlt => grind
      next hlt =>
      have hma := hiff _ _ hgt hlt
      split; · simp_all
      next hgt' =>
      split
      · next hlt' => grind
      next hlt' =>
      have hmi := hiff _ _ hgt' hlt'
      grind

/-- The answer is 1, 0 or -1. -/
theorem remoteVersionIsNewer_cases (remote localVersion : Bytes) :
    remoteVersionIsNewer remote localVersion = 1 ∨ remoteVersionIsNewer remote localVersion = 0
      ∨ remoteVersionIsNewer remote localVersion = -1 := by
  unfold remoteVersionIsNewer
  grind

example : remoteVersionIsNewer (ascii "v1.10") (ascii "1.9.3") = 1 := by decide

/-! ## The numbers of a version text

What a version text says, next to what is kept of it: its numbers have any size, and one with a minus sign is
below zero. Which of two texts is strictly newer is said of these. -/

/-- The numbers that a version text writes. -/
structure VersionNumbers where
  ma : Int
  mi : Int
  pa : Int
  deriving DecidableEq, Repr

/-- A number behind white space and a sign, and the text behind it. -/
def writtenNumber (p : Bytes) : Option (Int × Bytes) :=
  let p := p.dropWhile isspace
  let negative := p.head? == some (ch '-')
  let digits := if negative || p.head? == some (ch '+') then p.tail else p
  if digits.head?.any (isDigitOf 10) then
    let n : Int := digitsValue 10 (digits.takeWhile (isDigitOf 10))
    some (if negative then -n else n, digits.dropWhile (isDigitOf 10))
  else none

/-- A dot and a number. -/
def writtenDotNumber : Bytes → Option (Int × Bytes)
  | c :: p => if c = ch '.' then writtenNumber p else none
  | [] => none

/-- One to three numbers with dots between them; one that is not there is zero. -/
def writtenNumbers (p : Bytes) : Option VersionNumbers :=
  match writtenNumber p with
  | none => none
  | some (ma, p) =>
      match writtenDotNumber p with
      | none => some ⟨ma, 0, 0⟩
      | some (mi, p) => some ⟨ma, mi, ((writtenDotNumber p).map Prod.fst).getD 0⟩

/-- The version that a text writes, behind white space and `v` or `V`. A text that does not begin with a number
    writes none. -/
def writtenVersion (s : Bytes) : Option VersionNumbers :=
  let p := jsonMiniSkipWs s
  writtenNumbers (if p.head? == some (ch 'v') || p.head? == some (ch 'V') then p.tail else p)

namespace VersionNumbers

/-- The order of versions: the first number in which they differ decides. -/
def Less (a b : VersionNumbers) : Prop :=
  a.ma < b.ma ∨ (a.ma = b.ma ∧ (a.mi < b.mi ∨ (a.mi = b.mi ∧ a.pa < b.pa)))

instance (a b : VersionNumbers) : Decidable (a.Less b) := inferInstanceAs (Decidable (_ ∨ _))

/-- What 32 bits keep of the numbers. -/
def kept (w : VersionNumbers) : Semver := ⟨UInt32.ofInt w.ma, UInt32.ofInt w.mi, UInt32.ofInt w.pa⟩

/-- All three numbers fit in 32 bits without a sign. -/
def Small (w : VersionNumbers) : Prop :=
  (0 ≤ w.ma ∧ w.ma < UInt32.size) ∧ (0 ≤ w.mi ∧ w.mi < UInt32.size) ∧ 0 ≤ w.pa ∧ w.pa < UInt32.size

instance (w : VersionNumbers) : Decidable w.Small := inferInstanceAs (Decidable (_ ∧ _))

end VersionNumbers

/-- The remote version is strictly newer than the local one: the numbers that the two texts write decide, and a
    local text that writes none counts as 0.0.0. -/
def StrictlyNewer (remote localVersion : Bytes) : Prop :=
  ∃ r, writtenVersion remote = some r ∧ ((writtenVersion localVersion).getD ⟨0, 0, 0⟩).Less r

theorem ofInt_nat (n : Nat) : UInt32.ofInt n = UInt32.ofNat n := by
  rw [UInt32.ofInt, ← UInt32.toNat_inj, UInt32.toNat_ofNat', UInt32.toNat_ofNat']
  omega

/-- `%u` reads the number that is written, and keeps 32 bits of it. -/
theorem scanUnsigned_written (p : Bytes) :
    scanUnsigned p = (writtenNumber p).map fun x => (UInt32.ofInt x.1, x.2) := by
  simp only [scanUnsigned, writtenNumber]
  generalize ((p.dropWhile isspace).head? == some (ch '-')) = negative
  generalize (if negative || _ then (p.dropWhile isspace).tail else p.dropWhile isspace) = digits
  by_cases hdigit : digits.head?.any (isDigitOf 10) = true
  · rw [if_pos hdigit, if_pos hdigit]
    cases negative <;> simp [ofInt_nat]
  · rw [if_neg hdigit, if_neg hdigit]
    rfl

theorem scanDotUnsigned_written (p : Bytes) :
    scanDotUnsigned p = (writtenDotNumber p).map fun x => (UInt32.ofInt x.1, x.2) := by
  cases p with
  | nil => rfl
  | cons c p =>
      simp only [scanDotUnsigned, writtenDotNumber]
      split
      · exact scanUnsigned_written p
      · rfl

theorem scanSemver_written (p : Bytes) : scanSemver p = (writtenNumbers p).map VersionNumbers.kept := by
  rw [scanSemver, writtenNumbers, scanUnsigned_written]
  cases writtenNumber p with
  | none => rfl
  | some ma =>
      simp only [Option.map_some, scanDotUnsigned_written]
      cases writtenDotNumber ma.2 with
      | none => rfl
      | some mi =>
          cases hpa : writtenDotNumber mi.2 with
          | none =>
              simp only [hpa, Option.map_none, Option.map_some, Option.getD_none, VersionNumbers.kept]
              rfl
          | some pa => simp [VersionNumbers.kept, hpa]

/-- **The code keeps 32 bits of every number of a version**, and takes the texts for versions that write one. -/
theorem parseSemver3_written (s : Bytes) : parseSemver3 s = (writtenVersion s).map VersionNumbers.kept :=
  scanSemver_written _

/-- What is kept of a number that fits in 32 bits is the number. -/
theorem toNat_ofInt_small {n : Int} (h : 0 ≤ n ∧ n < UInt32.size) : ((UInt32.ofInt n).toNat : Int) = n := by
  have hmod : n % (2 ^ 32 : Int) = n := Int.emod_eq_of_lt h.1 h.2
  rw [UInt32.ofInt, UInt32.toNat_ofNat', hmod]
  have hbound := h.2
  simp only [UInt32.size] at hbound
  omega

/-- Numbers that fit in 32 bits are compared as they are written. -/
theorem VersionNumbers.Small.newer_kept {a b : VersionNumbers} (ha : a.Small) (hb : b.Small) :
    b.kept.Newer a.kept ↔ a.Less b := by
  obtain ⟨ha₁, ha₂, ha₃⟩ := ha
  obtain ⟨hb₁, hb₂, hb₃⟩ := hb
  have hlt : ∀ m n : Int, 0 ≤ m ∧ m < UInt32.size → 0 ≤ n ∧ n < UInt32.size →
      (UInt32.ofInt m < UInt32.ofInt n ↔ m < n) := by
    intro m n hm hn
    have hm' := toNat_ofInt_small hm
    have hn' := toNat_ofInt_small hn
    rw [UInt32.lt_iff_toNat_lt]
    omega
  have heq : ∀ m n : Int, 0 ≤ m ∧ m < UInt32.size → 0 ≤ n ∧ n < UInt32.size →
      (UInt32.ofInt m = UInt32.ofInt n ↔ m = n) := by
    intro m n hm hn
    have hm' := toNat_ofInt_small hm
    have hn' := toNat_ofInt_small hn
    rw [← UInt32.toNat_inj]
    omega
  simp only [Semver.Newer, VersionNumbers.kept, VersionNumbers.Less, hlt _ _ ha₁ hb₁, hlt _ _ ha₂ hb₂,
    hlt _ _ ha₃ hb₃, heq _ _ ha₁ hb₁, heq _ _ ha₂ hb₂]

/-- The version of a text has numbers that fit in 32 bits, where it writes one. -/
def SmallVersion (s : Bytes) : Prop := ∀ w, writtenVersion s = some w → w.Small

/-- **Newer as read is strictly newer** where the numbers of both texts fit in 32 bits. -/
theorem newerAsRead_iff_strictlyNewer {remote localVersion : Bytes} (hremote : SmallVersion remote)
    (hlocal : SmallVersion localVersion) : NewerAsRead remote localVersion ↔ StrictlyNewer remote localVersion := by
  have hkept : (parseSemver3 localVersion).getD ⟨0, 0, 0⟩ = ((writtenVersion localVersion).getD ⟨0, 0, 0⟩).kept := by
    rw [parseSemver3_written]
    cases writtenVersion localVersion <;> rfl
  have hsmall : ((writtenVersion localVersion).getD ⟨0, 0, 0⟩).Small := by
    cases h : writtenVersion localVersion with
    | none => exact (by decide : VersionNumbers.Small ⟨0, 0, 0⟩)
    | some w => exact hlocal w h
  rw [NewerAsRead, StrictlyNewer, hkept, parseSemver3_written]
  cases h : writtenVersion remote with
  | none => simp
  | some w => simpa using hsmall.newer_kept (hremote w h)

end LibUpdate
