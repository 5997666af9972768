import LibUpdate.Html.Pass

/-!
# `Html.Room` — how much the output buffer takes

The capacity doubles up to a hard limit, and a call that writes fails where the text and its NUL would pass
the limit. With enough memory this is the only way to fail: the doubling reaches every size up to half of
`size_t`, and what is cut back to the limit is still enough. So a call that writes `w` succeeds exactly when
`w` fits (`Fills`), and calls in a row write their texts in a row.
-/

namespace LibUpdate

/-- Up to here the doubling of a capacity does not wrap. -/
def halfSize : Nat := sizeTotal / 2

/-- What a call that writes `w` does: it appends `w` if `w` and the NUL stay within the limit, and fails
    otherwise. -/
structure Fills (b : Buf) (w : Bytes) (r : Option Buf) : Prop where
  written : b.d.length + w.length < b.maxTotal →
    ∃ b', r = some b' ∧ b'.d = b.d ++ w ∧ b'.maxTotal = b.maxTotal
  full : b.maxTotal ≤ b.d.length + w.length → r = none

/-- What is in a buffer fits. -/
theorem Buf.fits (b : Buf) : b.d.length < b.maxTotal := Nat.lt_of_lt_of_le b.text_fits b.cap_fits

theorem Fills.nil (b : Buf) : Fills b [] (some b) := by
  refine ⟨fun _ => ⟨b, rfl, (List.append_nil _).symm, rfl⟩, ?_⟩
  intro hfull
  have hfits := b.fits
  simp only [List.length_nil] at hfull
  omega

/-- Two calls in a row, where the failure of the first one ends the call. -/
theorem Fills.seq {b : Buf} {v w : Bytes} {r q : Option Buf} (hr : Fills b v r) (hnone : r = none → q = none)
    (hsome : ∀ b', r = some b' → b'.d = b.d ++ v → Fills b' w q) : Fills b (v ++ w) q := by
  by_cases hv : b.d.length + v.length < b.maxTotal
  · obtain ⟨b', hb', hd, hmax⟩ := hr.written hv
    have hq := hsome b' hb' hd
    have hlen : b'.d.length + w.length = b.d.length + (v ++ w).length := by
      rw [hd, List.length_append, List.length_append, Nat.add_assoc]
    constructor
    · intro hroom
      obtain ⟨b'', hb'', hd'', hmax''⟩ := hq.written (by rw [hlen, hmax]; exact hroom)
      exact ⟨b'', hb'', by rw [hd'', hd, List.append_assoc], hmax''.trans hmax⟩
    · intro hfull
      exact hq.full (by rw [hlen, hmax]; exact hfull)
  · have hq := hnone (hr.full (by omega))
    refine ⟨fun hroom => ?_, fun _ => hq⟩
    rw [List.length_append] at hroom
    omega

/-! ## Growing -/

/-- The doubling reaches every size below half of `size_t`, or the limit. -/
theorem growCap_reaches (maxTotal : Nat) {need : Nat} (hneed : need ≤ halfSize) (rounds : Nat) {ncap : Nat}
    (hpos : 0 < ncap) (hreach : need ≤ ncap <<< rounds) :
    ∃ n, growCap need maxTotal (rounds + 1) ncap = some n ∧ (need ≤ n ∨ maxTotal ≤ n) := by
  have hhalf : halfSize * 2 = sizeTotal := by decide
  induction rounds generalizing ncap with
  | zero =>
      have hdone : ¬ (ncap < need && ncap < maxTotal) = true := by
        simp only [Nat.shiftLeft_zero] at hreach
        simp [Nat.not_lt.mpr hreach]
      refine ⟨ncap, ?_, Or.inl hreach⟩
      rw [growCap, if_neg hdone]
  | succ rounds ih =>
      by_cases hgo : (ncap < need && ncap < maxTotal) = true
      · have hlt : ncap < need := by simpa using (Bool.and_eq_true_iff.mp hgo).1
        have hmod : ncap * 2 % sizeTotal = ncap * 2 := Nat.mod_eq_of_lt (by omega)
        rw [Nat.shiftLeft_succ_inside, Nat.mul_comm] at hreach
        obtain ⟨n, hn, hn'⟩ := ih (by omega) hreach
        refine ⟨n, ?_, hn'⟩
        rw [growCap, if_pos hgo]
        dsimp only
        rw [hmod, if_neg (by omega), hn]
      · refine ⟨ncap, by rw [growCap, if_neg hgo], ?_⟩
        simp only [Bool.and_eq_true, decide_eq_true_eq] at hgo
        omega

theorem bufEnsure_full {alloc : Nat → Bool} {b : Buf} {add : Nat} (h : b.maxTotal ≤ b.d.length + add) :
    bufEnsure alloc b add = none := by
  have hfits := b.fits
  rw [bufEnsure, dif_pos (by omega)]

theorem bufEnsure_room {b : Buf} {add : Nat} (h : b.d.length + add < b.maxTotal)
    (hsize : b.d.length + add < halfSize) :
    ∃ x, bufEnsure memory b add = some x ∧ x.val.maxTotal = b.maxTotal := by
  have hhalf : halfSize * 2 = sizeTotal := by decide
  have hpos : 0 < b.cap := Nat.zero_lt_of_lt b.text_fits
  have hreach : b.d.length + add + 1 ≤ b.cap <<< 64 := by
    have hshift : b.cap <<< 64 = sizeTotal * b.cap := by
      rw [Nat.shiftLeft_eq, Nat.mul_comm]
      rfl
    calc b.d.length + add + 1 ≤ sizeTotal := by omega
      _ ≤ sizeTotal * b.cap := Nat.le_mul_of_pos_right _ hpos
      _ = b.cap <<< 64 := hshift.symm
  obtain ⟨n, hgrow, hn⟩ := growCap_reaches b.maxTotal (show b.d.length + add + 1 ≤ halfSize by omega) 64
    hpos hreach
  unfold bufEnsure
  rw [dif_neg (by omega)]
  dsimp only
  split
  · exact ⟨_, rfl, rfl⟩
  · rw [hgrow]
    dsimp only
    have hcut : ¬ (if n > b.maxTotal then b.maxTotal else n) < b.d.length + add + 1 := by
      split <;> omega
    rw [dif_neg hcut, if_pos (show memory _ = true from rfl)]
    exact ⟨_, rfl, rfl⟩

/-! ## Writing -/

theorem bufAppend_fills {b : Buf} {s : Bytes} (hsize : b.d.length + s.length < halfSize) :
    Fills b s (bufAppend memory b s) := by
  constructor
  · intro hroom
    obtain ⟨⟨b', hd, hcap⟩, hx, hmax⟩ := bufEnsure_room hroom hsize
    have hb : ∃ b', bufAppend memory b s = some b' ∧ b'.maxTotal = b.maxTotal := by
      rw [bufAppend, hx]
      exact ⟨_, rfl, hmax⟩
    obtain ⟨b', hb', hmax'⟩ := hb
    exact ⟨b', hb', bufAppend_d hb', hmax'⟩
  · intro hfull
    rw [bufAppend, bufEnsure_full hfull]

theorem emitHtmlEscaped_fills {b : Buf} {s : Bytes} (hsize : b.d.length + (escaped s).length < halfSize) :
    Fills b (escaped s) (emitHtmlEscaped memory b s) := by
  induction s generalizing b with
  | nil => exact .nil b
  | cons c s ih =>
      rw [escaped_cons, List.length_append] at hsize
      rw [escaped_cons]
      refine (bufAppend_fills (by omega)).seq (fun h => ?_) fun b' h hd => ?_
      · rw [emitHtmlEscaped, h]
      · rw [emitHtmlEscaped, h]
        refine ih ?_
        rw [hd, List.length_append]
        omega

/-- With enough memory a first buffer is there for every limit but 0. -/
theorem bufInit_memory {maxTotal : Nat} (h : 0 < maxTotal) :
    ∃ b, bufInit memory maxTotal = some b ∧ b.d = [] ∧ b.maxTotal = maxTotal := by
  rw [bufInit, dif_pos h, if_pos (show memory _ = true from rfl)]
  exact ⟨_, rfl, rfl, rfl⟩

end LibUpdate
