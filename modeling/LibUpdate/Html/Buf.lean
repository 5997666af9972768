import LibUpdate.Foundation.Bytes

/-!
# `Html.Buf` — the output buffer of the HTML functions (`update_html.c`)

`Buf` is the growing output buffer: `d` is what has been written, without the NUL behind it. That the
text and its NUL fit into the capacity, and the capacity under the limit, are fields, so the unsigned
subtraction in `bufEnsure` cannot wrap.

Allocation is the environment's: `alloc n` says whether `malloc` or `realloc` gives `n` bytes. In one call
of the HTML functions no size is asked for twice, since the capacity grows at every reallocation.
-/

namespace LibUpdate

/-- The number of values of a `size_t`. -/
def sizeTotal : Nat := UInt64.size

structure Buf where
  d : Bytes
  cap : Nat
  maxTotal : Nat
  text_fits : d.length < cap
  cap_fits : cap ≤ maxTotal

/-- The first capacity, of `init_cap` bytes or as many as are allowed. -/
def firstCap (maxTotal : Nat) : Nat := if 4096 < maxTotal then 4096 else maxTotal

theorem firstCap_le (maxTotal : Nat) : firstCap maxTotal ≤ maxTotal := by
  unfold firstCap
  split <;> omega

theorem firstCap_pos {maxTotal : Nat} (h : 0 < maxTotal) : 0 < firstCap maxTotal := by
  unfold firstCap
  split <;> omega

/-- `buf_init`; `none` is the return value -1. -/
def bufInit (alloc : Nat → Bool) (maxTotal : Nat) : Option Buf :=
  if h : 0 < maxTotal then
    if alloc (firstCap maxTotal) then
      some ⟨[], firstCap maxTotal, maxTotal, firstCap_pos h, firstCap_le maxTotal⟩
    else none
  else none

/-- The doubling loop of `buf_ensure`, in 64-bit arithmetic; `none` where the capacity wraps to 0. -/
def growCap (need maxTotal : Nat) : Nat → Nat → Option Nat
  | 0, _ => none
  | rounds + 1, ncap =>
      if ncap < need && ncap < maxTotal then
        let ncap := ncap * 2 % sizeTotal
        if ncap = 0 then none else growCap need maxTotal rounds ncap
      else some ncap

/-- `buf_ensure`: room for `add` more bytes and the NUL; `none` is the return value -1. -/
def bufEnsure (alloc : Nat → Bool) (b : Buf) (add : Nat) :
    Option { b' : Buf // b'.d = b.d ∧ b.d.length + add < b'.cap } :=
  if hadd : add > b.maxTotal - b.d.length - 1 then none
  else
    let need := b.d.length + add + 1
    if hcap : need ≤ b.cap then some ⟨b, rfl, by omega⟩
    else
      match growCap need b.maxTotal 65 b.cap with
      | none => none
      | some ncap =>
          let ncap := if ncap > b.maxTotal then b.maxTotal else ncap
          if hneed : ncap < need then none
          else if alloc ncap then
            some ⟨⟨b.d, ncap, b.maxTotal, by omega, by simp only [ncap]; split <;> omega⟩, rfl,
              by show b.d.length + add < ncap; omega⟩
          else none

/-- `buf_append` (and `buf_append_cstr`). -/
def bufAppend (alloc : Nat → Bool) (b : Buf) (s : Bytes) : Option Buf :=
  match bufEnsure alloc b s.length with
  | none => none
  | some ⟨b', hd, hroom⟩ =>
      some { b' with d := b'.d ++ s, text_fits := by rw [List.length_append, hd]; exact hroom }

/-! ## What the operations do -/

theorem bufInit_d {alloc : Nat → Bool} {maxTotal : Nat} {b : Buf} (h : bufInit alloc maxTotal = some b) :
    b.d = [] := by
  unfold bufInit at h
  split at h
  · split at h
    · cases h
      rfl
    · cases h
  · cases h

theorem bufInit_pos {alloc : Nat → Bool} {maxTotal : Nat} {b : Buf} (h : bufInit alloc maxTotal = some b) :
    0 < maxTotal := by
  unfold bufInit at h
  split at h
  · next hpos => exact hpos
  · cases h

theorem bufAppend_d {alloc : Nat → Bool} {b b' : Buf} {s : Bytes} (h : bufAppend alloc b s = some b') :
    b'.d = b.d ++ s := by
  unfold bufAppend at h
  split at h
  · cases h
  · next b₁ hd _ _ =>
    cases h
    show b₁.d ++ s = _
    rw [hd]

/-! ## The doubling loop ends

A capacity that is a multiple of `1 << k` wraps to 0 after `64 - k` doublings. -/

theorem double_eq_zero {ncap : Nat} (h : 1 <<< 64 ∣ ncap) : ncap * 2 % sizeTotal = 0 := by
  obtain ⟨m, rfl⟩ := h
  unfold sizeTotal UInt64.size
  omega

theorem dvd_double {k : Nat} (hk : k < 64) {ncap : Nat} (h : 1 <<< k ∣ ncap) :
    1 <<< (k + 1) ∣ ncap * 2 % sizeTotal := by
  have hdouble : 1 <<< (k + 1) ∣ ncap * 2 := by
    rw [Nat.shiftLeft_succ, Nat.mul_comm 2]
    exact Nat.mul_dvd_mul_right h 2
  have hsize : 1 <<< (k + 1) ∣ sizeTotal := by
    rw [Nat.one_shiftLeft]
    exact Nat.pow_dvd_pow 2 hk
  exact (Nat.dvd_mod_iff hsize).mpr hdouble

theorem growCap_pow {need maxTotal : Nat} (k : Nat) (hk : k ≤ 64) {ncap : Nat} (hdvd : 1 <<< k ∣ ncap)
    (more : Nat) :
    growCap need maxTotal (65 - k + more) ncap = growCap need maxTotal (65 - k) ncap := by
  induction hn : 64 - k generalizing k ncap with
  | zero =>
      obtain rfl : k = 64 := by omega
      rw [show 65 - 64 + more = more + 1 by omega]
      simp [growCap, double_eq_zero hdvd]
  | succ n ih =>
      -- the induction is on the doublings that are left until the capacity wraps to 0
      have hrec := ih (k + 1) (by omega) (dvd_double (by omega) hdvd) (by omega)
      rw [show 65 - k + more = (65 - (k + 1) + more) + 1 by omega,
        show 65 - k = (65 - (k + 1)) + 1 by omega]
      simp only [growCap, hrec]

/-- **The doubling loop of `buf_ensure` ends within 65 tests of its condition.** -/
theorem growCap_rounds (need maxTotal ncap more : Nat) :
    growCap need maxTotal (65 + more) ncap = growCap need maxTotal 65 ncap :=
  growCap_pow 0 (by omega) (Nat.one_dvd ncap) more

end LibUpdate
