import LibUpdate.Remote.Version

/-!
# `Remote.Order` — the order of versions as numbers

A version text writes three natural numbers of any size, and versions are ordered by them. The comparison of
the code orders what `sscanf` keeps of them, which is their remainders modulo 2³². It is an order all the
same, so no version is newer than itself and no two are newer than each other; but it is the order of the
numbers only as far as reducing them keeps it.
-/

namespace LibUpdate

/-! ## Versions -/

/-- The numbers of a version. -/
structure Version where
  major : Nat
  minor : Nat
  patch : Nat
  deriving DecidableEq, Repr

namespace Version

/-- The order of versions: the first number in which they differ decides. -/
def Less (a b : Version) : Prop :=
  a.major < b.major ∨ a.major = b.major ∧ (a.minor < b.minor ∨ a.minor = b.minor ∧ a.patch < b.patch)

instance (a b : Version) : Decidable (a.Less b) := inferInstanceAs (Decidable (_ ∨ _))

/-- What 32 bits keep of a version. -/
def reduced (v : Version) : Version := ⟨v.major % UInt32.size, v.minor % UInt32.size, v.patch % UInt32.size⟩

/-- All three numbers fit in 32 bits. -/
def Small (v : Version) : Prop := v.major < UInt32.size ∧ v.minor < UInt32.size ∧ v.patch < UInt32.size

theorem Small.reduced_eq {v : Version} (h : v.Small) : v.reduced = v := by
  obtain ⟨hma, hmi, hpa⟩ := h
  rw [reduced, Nat.mod_eq_of_lt hma, Nat.mod_eq_of_lt hmi, Nat.mod_eq_of_lt hpa]

theorem less_irrefl (a : Version) : ¬ a.Less a := by
  unfold Less
  omega

theorem Less.asymm {a b : Version} (h : a.Less b) : ¬ b.Less a := by
  unfold Less at h ⊢
  omega

theorem Less.trans {a b c : Version} (h : a.Less b) (h' : b.Less c) : a.Less c := by
  unfold Less at h h' ⊢
  omega

end Version

/-- White space, `v` or `V` or neither, one to three numerals with dots between them, and then nothing, or
    anything that begins with `-` or `+`. -/
structure VersionText where
  space : Bytes
  space_white : ∀ c ∈ space, isspace c = true
  tag : Bytes
  tag_v : tag = [] ∨ tag = [ch 'v'] ∨ tag = [ch 'V']
  major : Decimal
  more : Option (Decimal × Option Decimal)
  suffix : Bytes
  suffix_apart : ∀ c ∈ suffix.head?, c = ch '-' ∨ c = ch '+'

namespace VersionText

/-- `.patch`, where there is one. -/
def patchText : Option Decimal → Bytes
  | none => []
  | some patch => ch '.' :: patch.digits

/-- `.minor` and `.minor.patch`, where they are there. -/
def moreText : Option (Decimal × Option Decimal) → Bytes
  | none => []
  | some (minor, patch) => ch '.' :: minor.digits ++ patchText patch

def text (t : VersionText) : Bytes := t.space ++ (t.tag ++ (t.major.digits ++ (moreText t.more ++ t.suffix)))

/-- The numbers that the text writes; a number that is not there is zero. -/
def version (t : VersionText) : Version where
  major := t.major.value
  minor := (t.more.map fun m => m.1.value).getD 0
  patch := ((t.more.bind fun m => m.2).map Decimal.value).getD 0

end VersionText

/-! ## What is read of a version -/

/-- A numeral that something other than a digit follows is read whole. -/
theorem writtenNumber_digits (d : Decimal) {rest : Bytes} (hrest : ∀ c ∈ rest.head?, isDigitOf 10 c = false) :
    writtenNumber (d.digits ++ rest) = some ((d.value : Int), rest) := by
  have hat := d.atDigits rest
  have hhead : (d.digits ++ rest).head?.any (isDigitOf 10) = true := by
    obtain ⟨c, cs, hcs, hc⟩ := d.exists_cons
    simpa [hcs] using hc
  have hbehind : (d.digits ++ rest).dropWhile (isDigitOf 10) = rest := dropWhile_span d.decimal hrest
  rw [writtenNumber, hat.space, hat.minus, hat.plus]
  simp only [Bool.or_self, Bool.false_eq_true, if_false, hhead, if_true, d.takeWhile_digits hrest, hbehind]
  rfl

theorem writtenDotNumber_digits (d : Decimal) {rest : Bytes} (hrest : ∀ c ∈ rest.head?, isDigitOf 10 c = false) :
    writtenDotNumber (ch '.' :: d.digits ++ rest) = some ((d.value : Int), rest) := by
  show (if ch '.' = ch '.' then writtenNumber (d.digits ++ rest) else none) = _
  rw [if_pos rfl, writtenNumber_digits d hrest]

/-- The numbers end at the suffix. -/
theorem writtenDotNumber_suffix {suffix : Bytes} (h : ∀ c ∈ suffix.head?, c = ch '-' ∨ c = ch '+') :
    writtenDotNumber suffix = none := by
  cases suffix with
  | nil => rfl
  | cons c cs =>
      show (if c = ch '.' then _ else _) = _
      rw [if_neg]
      rcases h c rfl with rfl | rfl <;> decide

namespace VersionText

/-- Behind a numeral stands no digit. -/
theorem suffix_head {suffix : Bytes} (h : ∀ c ∈ suffix.head?, c = ch '-' ∨ c = ch '+') :
    ∀ c ∈ suffix.head?, isDigitOf 10 c = false := by
  intro c hc
  rcases h c hc with rfl | rfl <;> decide

theorem patchText_head {suffix : Bytes} (h : ∀ c ∈ suffix.head?, c = ch '-' ∨ c = ch '+') (patch : Option Decimal) :
    ∀ c ∈ (patchText patch ++ suffix).head?, isDigitOf 10 c = false := by
  cases patch with
  | none => exact suffix_head h
  | some patch =>
      intro c hc
      obtain rfl : ch '.' = c := Option.some.inj hc
      decide

theorem moreText_head {suffix : Bytes} (h : ∀ c ∈ suffix.head?, c = ch '-' ∨ c = ch '+')
    (more : Option (Decimal × Option Decimal)) :
    ∀ c ∈ (moreText more ++ suffix).head?, isDigitOf 10 c = false := by
  cases more with
  | none => exact suffix_head h
  | some m =>
      intro c hc
      obtain rfl : ch '.' = c := Option.some.inj hc
      decide

/-- The numbers of the text, next to the ones of texts that are no version texts. -/
def written (t : VersionText) : VersionNumbers := ⟨t.version.major, t.version.minor, t.version.patch⟩

/-- What 32 bits keep of the three numbers. -/
def semver (t : VersionText) : Semver :=
  ⟨UInt32.ofNat t.version.major, UInt32.ofNat t.version.minor, UInt32.ofNat t.version.patch⟩

theorem kept_written (t : VersionText) : t.written.kept = t.semver := by
  simp only [VersionNumbers.kept, written, semver, ofInt_nat]

/-- **The numbers are read**: as many as there are. -/
theorem writtenNumbers_text (t : VersionText) :
    writtenNumbers (t.major.digits ++ (moreText t.more ++ t.suffix)) = some t.written := by
  have hsuffix := t.suffix_apart
  have hmajor := writtenNumber_digits t.major (moreText_head hsuffix t.more)
  cases hmore : t.more with
  | none =>
      rw [hmore] at hmajor
      have hstop : writtenDotNumber (moreText none ++ t.suffix) = none := writtenDotNumber_suffix hsuffix
      simp only [writtenNumbers, hmajor, hstop]
      simp only [written, version, hmore]
      rfl
  | some m =>
      obtain ⟨minor, patch⟩ := m
      rw [hmore] at hmajor
      have htext : moreText (some (minor, patch)) ++ t.suffix
          = ch '.' :: minor.digits ++ (patchText patch ++ t.suffix) := List.append_assoc _ _ _
      have hminor := writtenDotNumber_digits minor (patchText_head hsuffix patch)
      rw [htext] at hmajor ⊢
      cases patch with
      | none =>
          have hstop : writtenDotNumber (patchText none ++ t.suffix) = none := writtenDotNumber_suffix hsuffix
          simp only [writtenNumbers, hmajor, hminor, hstop]
          simp only [written, version, hmore]
          rfl
      | some patch =>
          have hpatch : writtenDotNumber (patchText (some patch) ++ t.suffix)
              = some ((patch.value : Int), t.suffix) := writtenDotNumber_digits patch (suffix_head hsuffix)
          simp only [writtenNumbers, hmajor, hminor, hpatch]
          simp only [written, version, hmore]
          rfl

/-- A version text writes its numbers. -/
theorem writtenVersion_text (t : VersionText) : writtenVersion t.text = some t.written := by
  obtain ⟨d, ds, hds, hd⟩ := t.major.exists_cons
  have hplain := hexDigit_plain (isDigitOf_mono (by decide) hd)
  have hnot_v : d ≠ ch 'v' ∧ d ≠ ch 'V' := by
    constructor
    · rintro rfl
      exact absurd hd (by decide)
    · rintro rfl
      exact absurd hd (by decide)
  have hspace : ∀ c ∈ (t.tag ++ (t.major.digits ++ (moreText t.more ++ t.suffix))).head?, isspace c = false := by
    intro c hc
    rcases t.tag_v with h | h | h
    · rw [h, hds] at hc
      obtain rfl : d = c := Option.some.inj hc
      exact hplain.2.1
    · rw [h] at hc
      obtain rfl : ch 'v' = c := Option.some.inj hc
      decide
    · rw [h] at hc
      obtain rfl : ch 'V' = c := Option.some.inj hc
      decide
  have hskip : jsonMiniSkipWs t.text = t.tag ++ (t.major.digits ++ (moreText t.more ++ t.suffix)) :=
    dropWhile_span t.space_white hspace
  have hnumbers := t.writtenNumbers_text
  rw [writtenVersion, hskip]
  rcases t.tag_v with h | h | h
  · rw [h, List.nil_append]
    rw [hds] at hnumbers ⊢
    have hno : ((d :: ds ++ (moreText t.more ++ t.suffix)).head? == some (ch 'v')
        || (d :: ds ++ (moreText t.more ++ t.suffix)).head? == some (ch 'V')) = false := by
      simpa using hnot_v
    simp only [hno, Bool.false_eq_true, if_false]
    exact hnumbers
  · rw [h]
    exact hnumbers
  · rw [h]
    exact hnumbers

/-- **A version text is read as its numbers, reduced to 32 bits.** -/
theorem parseSemver3_text (t : VersionText) : parseSemver3 t.text = some t.semver := by
  rw [parseSemver3_written, t.writtenVersion_text, Option.map_some, t.kept_written]

end VersionText

/-! ## The comparison -/

/-- Of two version texts, one is strictly newer where its numbers come later. -/
theorem strictlyNewer_text (r l : VersionText) : StrictlyNewer r.text l.text ↔ l.version.Less r.version := by
  simp only [StrictlyNewer, r.writtenVersion_text, l.writtenVersion_text, Option.getD_some, Option.some.injEq,
    exists_eq_left', VersionText.written, VersionNumbers.Less, Version.Less]
  omega

/-- The order of what is kept is the order of the remainders. -/
theorem semver_newer_iff (r l : VersionText) :
    r.semver.Newer l.semver ↔ l.version.reduced.Less r.version.reduced := by
  have hlt : ∀ m n : Nat, UInt32.ofNat m < UInt32.ofNat n ↔ m % UInt32.size < n % UInt32.size := by
    intro m n
    rw [UInt32.lt_iff_toNat_lt, UInt32.toNat_ofNat', UInt32.toNat_ofNat']
  have heq : ∀ m n : Nat, UInt32.ofNat m = UInt32.ofNat n ↔ m % UInt32.size = n % UInt32.size := by
    intro m n
    rw [← UInt32.toNat_inj, UInt32.toNat_ofNat', UInt32.toNat_ofNat']
  simp only [Semver.Newer, VersionText.semver, Version.Less, Version.reduced, hlt, heq]

/-- **What the comparison compares**: the remainders modulo 2³². -/
theorem remoteVersionIsNewer_reduced (r l : VersionText) :
    remoteVersionIsNewer r.text l.text = 1 ↔ l.version.reduced.Less r.version.reduced := by
  rw [remoteVersionIsNewer_eq_one, ← semver_newer_iff, NewerAsRead, r.parseSemver3_text, l.parseSemver3_text,
    Option.getD_some]
  constructor
  · rintro ⟨w, hw, h⟩
    cases hw
    exact h
  · intro h
    exact ⟨_, rfl, h⟩

/-- Numbers below 2³² are compared as they are. -/
theorem remoteVersionIsNewer_small (r l : VersionText) (hr : r.version.Small) (hl : l.version.Small) :
    remoteVersionIsNewer r.text l.text = 1 ↔ l.version.Less r.version := by
  rw [remoteVersionIsNewer_reduced, hr.reduced_eq, hl.reduced_eq]

/-- **Versions are compared as numbers exactly where reducing them modulo 2³² keeps their order.** What is
    newer is never the same, never newer the other way round, and newer than what the other is newer than. -/
theorem remoteVersionIsNewer_order_iff (r l : VersionText) :
    ((remoteVersionIsNewer r.text l.text = 1 ↔ l.version.Less r.version)
        ↔ (l.version.reduced.Less r.version.reduced ↔ l.version.Less r.version))
      ∧ remoteVersionIsNewer r.text r.text ≠ 1
      ∧ (remoteVersionIsNewer r.text l.text = 1 → remoteVersionIsNewer l.text r.text ≠ 1)
      ∧ ∀ other : VersionText, remoteVersionIsNewer r.text l.text = 1 →
          remoteVersionIsNewer l.text other.text = 1 → remoteVersionIsNewer r.text other.text = 1 := by
  refine ⟨?_, ?_, ?_, ?_⟩
  · rw [remoteVersionIsNewer_reduced]
  · intro h
    exact Version.less_irrefl _ ((remoteVersionIsNewer_reduced r r).mp h)
  · intro h h'
    exact ((remoteVersionIsNewer_reduced r l).mp h).asymm ((remoteVersionIsNewer_reduced l r).mp h')
  · intro other h h'
    have hrl := (remoteVersionIsNewer_reduced r l).mp h
    have hlo := (remoteVersionIsNewer_reduced l other).mp h'
    exact (remoteVersionIsNewer_reduced r other).mpr (hlo.trans hrl)

/-- A version of one number. -/
def plainVersion (d : Decimal) : VersionText where
  space := []
  space_white := by decide +kernel
  tag := []
  tag_v := Or.inl rfl
  major := d
  more := none
  suffix := []
  suffix_apart := by decide +kernel

/-- 1 is offered as an update of 4294967296. -/
theorem remoteVersionIsNewer_offers_older :
    remoteVersionIsNewer (ascii "1") (ascii "4294967296") = 1
      ∧ ¬ ∀ r l : VersionText, remoteVersionIsNewer r.text l.text = 1 ↔ l.version.Less r.version := by
  have hone : remoteVersionIsNewer (ascii "1") (ascii "4294967296") = 1 := by decide +kernel
  refine ⟨hone, ?_⟩
  intro h
  have hless := (h (plainVersion ⟨ascii "1", by decide +kernel, by decide +kernel⟩)
    (plainVersion ⟨ascii "4294967296", by decide +kernel, by decide +kernel⟩)).mp hone
  exact absurd hless (by decide +kernel)

end LibUpdate
