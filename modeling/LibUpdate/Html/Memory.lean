import LibUpdate.Foundation.Loop
import LibUpdate.Html.Room

/-!
# `Html.Memory` — the output buffer in memory (`update_html.c`)

`Buf` carries its invariant in its fields. Here the buffer is as C has it: a block of bytes and three numbers of
type `size_t`, whose arithmetic wraps; a store outside of the block is a fault, and the doubling loop is a loop.
Every call of `buf_append` on it comes back without a fault and does what `bufAppend` does (`Lies`), so that
what is shown of `Buf` is true of the memory.

What `malloc` and `realloc` answer is up to the environment, call by call: they fail, or the bytes of the block
that are new are anything.
-/

namespace LibUpdate

/-- A store of `s` from byte `i` of a block on; `none` where a byte of it lies outside. -/
def storeAt (d : Bytes) (i : Nat) (s : Bytes) : Option Bytes :=
  if i + s.length ≤ d.length then some (d.take i ++ s ++ d.drop (i + s.length)) else none

/-- A block of `n` bytes that begins as `d` does. -/
def grown (junk : Nat → UInt8) (d : Bytes) (n : Nat) : Bytes :=
  d.take n ++ (List.range (n - d.length)).map junk

/-- What `malloc` or `realloc` answers: `NULL`, or a block with these bytes where it is new. -/
abbrev Fresh := Option (Nat → UInt8)

/-- A call of `buf_append`, and what `realloc` answers in it. -/
structure AppendCall where
  s : Bytes
  fresh : Fresh
  size : s.length < UInt64.size

def AppendCall.n (call : AppendCall) : UInt64 := UInt64.ofNat call.s.length

theorem AppendCall.toNat_n (call : AppendCall) : call.n.toNat = call.s.length :=
  UInt64.toNat_ofNat_of_lt' call.size

/-- `Buf` in memory. -/
structure CBuf where
  d : Bytes
  len : UInt64
  cap : UInt64
  maxTotal : UInt64

namespace CBuf

/-- `buf_init`; `some none` is the return value -1, and `none` a store outside of the block. -/
def init (maxTotal : UInt64) (fresh : Fresh) : Option (Option CBuf) :=
  if maxTotal = 0 then some none
  else
    let first := if 4096 < maxTotal then 4096 else maxTotal
    match fresh with
    | none => some none
    | some junk => do
        let d ← storeAt (grown junk [] first.toNat) 0 [0]
        some (some ⟨d, 0, first, maxTotal⟩)

/-- A pass of the loop of `buf_ensure`; it leaves the loop with `none` for the return value -1. -/
def growRound (need maxTotal ncap : UInt64) : Round UInt64 (Option UInt64) :=
  if ncap < need && ncap < maxTotal then
    let ncap := ncap * 2
    if ncap = 0 then .leave none else .again ncap
  else .leave (some ncap)

def growLoop (need maxTotal : UInt64) : Nat → UInt64 → Option (Option UInt64) :=
  whileLoop fun _ ncap => some (growRound need maxTotal ncap)

/-- `buf_ensure`: whether it returns 0, and the buffer then; `none` where the fuel runs out. -/
def ensure (fuel : Nat) (b : CBuf) (add : UInt64) (fresh : Fresh) : Option (Bool × CBuf) :=
  if add > b.maxTotal - b.len - 1 then some (false, b)
  else
    let need := b.len + add + 1
    if need ≤ b.cap then some (true, b)
    else
      match growLoop need b.maxTotal fuel b.cap with
      | none => none
      | some none => some (false, b)
      | some (some ncap) =>
          let ncap := if ncap > b.maxTotal then b.maxTotal else ncap
          if ncap < need then some (false, b)
          else
            match fresh with
            | none => some (false, b)
            | some junk => some (true, { b with d := grown junk b.d ncap.toNat, cap := ncap })

/-- `buf_append`; `none` is a store outside of the block, or the fuel runs out. -/
def append (fuel : Nat) (b : CBuf) (call : AppendCall) : Option (Bool × CBuf) := do
  let (ok, b) ← b.ensure fuel call.n call.fresh
  if ok then
    let d ← storeAt b.d b.len.toNat call.s
    let len := b.len + call.n
    let d ← storeAt d len.toNat [0]
    some (true, { b with d := d, len := len })
  else some (false, b)

/-- Calls in a row: what each of them returned, and the buffer behind them. -/
def run (fuel : Nat) (b : CBuf) : List AppendCall → Option (List Bool × CBuf)
  | [] => some ([], b)
  | call :: calls => do
      let (ok, b) ← b.append fuel call
      let (oks, b) ← run fuel b calls
      some (ok :: oks, b)

/-- The buffer is well-formed, and `content` with a NUL behind it is what it holds. -/
structure Holds (maxTotal : UInt64) (content : Bytes) (b : CBuf) : Prop where
  limit : b.maxTotal = maxTotal
  text_fits : b.len < b.cap
  cap_fits : b.cap ≤ b.maxTotal
  block : b.d.length = b.cap.toNat
  length : b.len.toNat = content.length
  text : b.d.take (content.length + 1) = content ++ [0]

end CBuf

/-- The texts of the calls that returned 0, one behind the other. -/
def kept : List AppendCall → List Bool → Bytes
  | call :: calls, ok :: oks => (if ok then call.s else []) ++ kept calls oks
  | _, _ => []

/-! ## The block -/

theorem storeAt_spec {d s : Bytes} {i : Nat} (h : i + s.length ≤ d.length) :
    ∃ d', storeAt d i s = some d' ∧ d'.length = d.length ∧ d'.take (i + s.length) = d.take i ++ s := by
  have htake : (d.take i ++ s).length = i + s.length := by
    rw [List.length_append, List.length_take]
    omega
  refine ⟨_, if_pos h, ?_, List.take_left' htake⟩
  rw [List.length_append, htake, List.length_drop]
  omega

theorem length_grown (junk : Nat → UInt8) {d : Bytes} {n : Nat} (h : d.length ≤ n) :
    (grown junk d n).length = n := by
  rw [grown, List.length_append, List.length_take, List.length_map, List.length_range]
  omega

theorem take_grown (junk : Nat → UInt8) {d : Bytes} {n k : Nat} (hk : k ≤ d.length) (h : d.length ≤ n) :
    (grown junk d n).take k = d.take k := by
  rw [grown, List.take_of_length_le h, List.take_append_of_le_length hk]

/-! ## The doubling loop -/

/-- A pass leaves the loop, or doubles the capacity to one that is not 0. -/
theorem growRound_cases (need maxTotal ncap : UInt64) :
    (∃ r, CBuf.growRound need maxTotal ncap = .leave r)
      ∨ CBuf.growRound need maxTotal ncap = .again (ncap * 2) ∧ ncap * 2 ≠ 0 := by
  unfold CBuf.growRound
  split
  · dsimp only
    split
    · exact Or.inl ⟨_, rfl⟩
    · next hne => exact Or.inr ⟨rfl, hne⟩
  · exact Or.inl ⟨_, rfl⟩

theorem toNat_double (ncap : UInt64) : (ncap * 2).toNat = ncap.toNat * 2 % sizeTotal := UInt64.toNat_mul ncap 2

/-- A capacity that is a multiple of `1 << k` wraps to 0 after `64 - k` doublings. -/
theorem growLoop_pow (need maxTotal : UInt64) (k : Nat) (hk : k ≤ 64) {ncap : UInt64}
    (hdvd : 1 <<< k ∣ ncap.toNat) (more : Nat) :
    ∃ r, iterate (fun ncap => some (CBuf.growRound need maxTotal ncap)) (65 - k + more) ncap = some r := by
  induction hn : 64 - k generalizing k ncap with
  | zero =>
      obtain rfl : k = 64 := by omega
      rw [show 65 - 64 + more = more + 1 by omega]
      rcases growRound_cases need maxTotal ncap with ⟨r, hr⟩ | ⟨_, hne⟩
      · exact ⟨r, iterate_leave (by rw [hr]) more⟩
      · have hzero : (ncap * 2).toNat = 0 := (toNat_double ncap).trans (double_eq_zero hdvd)
        exact absurd (UInt64.toNat_inj.mp hzero) hne
  | succ n ih =>
      -- the induction is on the doublings that are left until the capacity wraps to 0
      rw [show 65 - k + more = (65 - (k + 1) + more) + 1 by omega]
      rcases growRound_cases need maxTotal ncap with ⟨r, hr⟩ | ⟨hagain, _⟩
      · exact ⟨r, iterate_leave (by rw [hr]) _⟩
      · rw [iterate_again (by rw [hagain])]
        refine ih (k + 1) (by omega) ?_ (by omega)
        rw [toNat_double]
        exact dvd_double (by omega) hdvd

/-- **The doubling loop ends**, from every capacity and for every limit. -/
theorem growLoop_returns (need maxTotal ncap : UInt64) (more : Nat) :
    ∃ r, CBuf.growLoop need maxTotal (65 + more) ncap = some r :=
  growLoop_pow need maxTotal 0 (by omega) (Nat.one_dvd _) more

/-- The loop is the one of `bufEnsure`. -/
theorem growLoop_growCap {need maxTotal : UInt64} {n : Nat} {ncap : UInt64} {r : Option UInt64}
    (h : iterate (fun ncap => some (CBuf.growRound need maxTotal ncap)) n ncap = some r) :
    growCap need.toNat maxTotal.toNat n ncap.toNat = r.map UInt64.toNat := by
  induction n generalizing ncap with
  | zero => cases h
  | succ n ih =>
      have htest : (ncap.toNat < need.toNat && ncap.toNat < maxTotal.toNat) = (ncap < need && ncap < maxTotal) := by
        simp only [UInt64.lt_iff_toNat_lt]
      have hzero : ncap.toNat * 2 % sizeTotal = 0 ↔ ncap * 2 = 0 := by
        rw [← toNat_double, ← UInt64.toNat_zero, UInt64.toNat_inj]
      rw [growCap, htest]
      simp only [iterate, CBuf.growRound] at h
      by_cases hgo : (ncap < need && ncap < maxTotal) = true
      · rw [if_pos hgo] at h ⊢
        dsimp only
        by_cases hwrap : ncap * 2 = 0
        · rw [if_pos hwrap] at h
          rw [if_pos (hzero.mpr hwrap), ← Option.some.inj h]
          rfl
        · rw [if_neg hwrap] at h
          rw [if_neg (mt hzero.mp hwrap), ← toNat_double]
          exact ih h
      · rw [if_neg hgo] at h ⊢
        rw [← Option.some.inj h]
        rfl

/-! ## The capacities

A capacity is a power of two, but for one that was cut back to the limit. -/

/-- What the capacity of a buffer can be. -/
def Buf.Sized (b : Buf) : Prop :=
  b.cap = b.maxTotal ∧ b.maxTotal ≤ halfSize ∨ ∃ k ≤ 63, b.cap = 1 <<< k

theorem bufInit_sized {alloc : Nat → Bool} {maxTotal : Nat} {b : Buf} (h : bufInit alloc maxTotal = some b) :
    b.Sized := by
  unfold bufInit at h
  split at h
  · split at h
    · cases h
      unfold Buf.Sized firstCap
      dsimp only
      split
      · exact Or.inr ⟨12, by omega, rfl⟩
      · have hhalf : 4096 ≤ halfSize := by decide
        exact Or.inl ⟨rfl, by omega⟩
    · cases h
  · cases h

/-- A power of two is doubled to the next one, or wraps to 0. -/
theorem double_shift {k : Nat} (hk : k ≤ 63) :
    k < 63 ∧ (1 <<< k) * 2 % sizeTotal = 1 <<< (k + 1) ∨ k = 63 ∧ (1 <<< k) * 2 % sizeTotal = 0 := by
  rcases Nat.lt_or_ge k 63 with hlt | hge
  · have hsize : 1 <<< (k + 1) < sizeTotal := by
      rw [Nat.one_shiftLeft]
      exact Nat.pow_lt_pow_right (by omega) (show k + 1 < 64 by omega)
    rw [Nat.mul_comm, ← Nat.shiftLeft_succ, Nat.mod_eq_of_lt hsize]
    exact Or.inl ⟨hlt, rfl⟩
  · obtain rfl : k = 63 := by omega
    exact Or.inr ⟨rfl, by decide⟩

theorem growCap_shift {need maxTotal rounds n : Nat} {k : Nat} (hk : k ≤ 63)
    (h : growCap need maxTotal rounds (1 <<< k) = some n) : ∃ j ≤ 63, n = 1 <<< j := by
  induction rounds generalizing k with
  | zero => cases h
  | succ rounds ih =>
      rw [growCap] at h
      dsimp only at h
      split at h
      · rcases double_shift hk with ⟨hlt, hnext⟩ | ⟨_, hwrap⟩
        · rw [hnext] at h
          split at h
          · cases h
          · exact ih (by omega) h
        · rw [hwrap, if_pos rfl] at h
          cases h
      · cases h
        exact ⟨k, hk, rfl⟩

theorem shift_le_halfSize {k : Nat} (hk : k ≤ 63) : 1 <<< k ≤ halfSize := by
  rw [Nat.one_shiftLeft]
  exact Nat.pow_le_pow_right (by omega) hk

/-- What `bufEnsure` did where it succeeded. -/
theorem bufEnsure_cases {alloc : Nat → Bool} {b : Buf} {add : Nat} {x} (h : bufEnsure alloc b add = some x) :
    x.val = b ∨ b.cap < b.d.length + add + 1 ∧ x.val.maxTotal = b.maxTotal
      ∧ ∃ n, growCap (b.d.length + add + 1) b.maxTotal 65 b.cap = some n
        ∧ x.val.cap = if n > b.maxTotal then b.maxTotal else n := by
  unfold bufEnsure at h
  split at h
  · cases h
  dsimp only at h
  split at h
  · cases h
    exact Or.inl rfl
  next hcap =>
  refine Or.inr ⟨Nat.lt_of_not_le hcap, ?_⟩
  split at h
  · cases h
  next n hgrow =>
  by_cases hneed : (if n > b.maxTotal then b.maxTotal else n) < b.d.length + add + 1
  · rw [dif_pos hneed] at h
    cases h
  · rw [dif_neg hneed] at h
    by_cases halloc : alloc (if n > b.maxTotal then b.maxTotal else n) = true
    · rw [if_pos halloc] at h
      cases h
      exact ⟨rfl, n, hgrow, rfl⟩
    · rw [if_neg halloc] at h
      cases h

theorem bufEnsure_maxTotal {alloc : Nat → Bool} {b : Buf} {add : Nat} {x} (h : bufEnsure alloc b add = some x) :
    x.val.maxTotal = b.maxTotal := by
  rcases bufEnsure_cases h with hsame | ⟨_, hmax, _⟩
  · rw [hsame]
  · exact hmax

theorem bufEnsure_sized {alloc : Nat → Bool} {b : Buf} {add : Nat} {x} (h : bufEnsure alloc b add = some x)
    (hb : b.Sized) : x.val.Sized := by
  rcases bufEnsure_cases h with hsame | ⟨hcap, hmax, n, hgrow, hx⟩
  · rw [hsame]
    exact hb
  · have hroom := x.property.2
    have hfits := x.val.cap_fits
    rcases hb with ⟨hfull, _⟩ | ⟨k, hk, hpow⟩
    · -- the buffer is as large as it may be, and the text fits
      omega
    · rw [hpow] at hgrow
      obtain ⟨j, hj, rfl⟩ := growCap_shift hk hgrow
      unfold Buf.Sized
      rw [hmax, hx]
      have hhalf := shift_le_halfSize hj
      split
      · exact Or.inl ⟨rfl, by omega⟩
      · exact Or.inr ⟨j, hj, rfl⟩

/-- **With enough memory `buf_ensure` fails** where the text and its NUL would pass the limit, or half of `size_t`. -/
theorem bufEnsure_eq_none_iff {b : Buf} (hb : b.Sized) (add : Nat) :
    bufEnsure memory b add = none
      ↔ b.maxTotal < b.d.length + add + 1 ∨ halfSize < b.d.length + add + 1 := by
  constructor
  · intro hnone
    by_cases hmax : b.d.length + add < b.maxTotal
    · by_cases hhalf : b.d.length + add < halfSize
      · obtain ⟨x, hx, _⟩ := bufEnsure_room hmax hhalf
        rw [hx] at hnone
        cases hnone
      · omega
    · omega
  · rintro (hfull | hhalf)
    · exact bufEnsure_full (by omega)
    · by_cases hmax : b.maxTotal < b.d.length + add + 1
      · exact bufEnsure_full (by omega)
      cases h : bufEnsure memory b add with
      | none => rfl
      | some x =>
          -- a capacity that took the text would be at most half of `size_t`
          have hroom := x.property.2
          rcases bufEnsure_sized h hb with ⟨hcap, hle⟩ | ⟨k, hk, hpow⟩
          · omega
          · have hle := shift_le_halfSize hk
            omega

/-! ## Memory and `Buf` -/

/-- The buffer in memory is `b`. -/
structure Lies (c : CBuf) (b : Buf) : Prop where
  limit : c.maxTotal.toNat = b.maxTotal
  cap : c.cap.toNat = b.cap
  length : c.len.toNat = b.d.length
  block : c.d.length = b.cap
  text : c.d.take (b.d.length + 1) = b.d ++ [0]

theorem Lies.holds {c : CBuf} {b : Buf} (h : Lies c b) : c.Holds c.maxTotal b.d := by
  have hlen := h.length
  have hcap := h.cap
  have hlimit := h.limit
  refine ⟨rfl, ?_, ?_, h.block.trans hcap.symm, hlen, h.text⟩
  · rw [UInt64.lt_iff_toNat_lt, hlen, hcap]
    exact b.text_fits
  · rw [UInt64.le_iff_toNat_le, hcap, hlimit]
    exact b.cap_fits

/-- What a call returned, and the memory behind it, where the call on `b` gave `q`: a failure leaves the memory
    as it was. -/
def Answers (c : CBuf) (q : Option Buf) (r : Option (Bool × CBuf)) : Prop :=
  q = none ∧ r = some (false, c) ∨ ∃ b' c', q = some b' ∧ r = some (true, c') ∧ Lies c' b'

theorem bufInit_lies {maxTotal : UInt64} (h : maxTotal ≠ 0) (junk : Nat → UInt8) :
    ∃ c b, CBuf.init maxTotal (some junk) = some (some c) ∧ bufInit memory maxTotal.toNat = some b
      ∧ c.maxTotal = maxTotal ∧ Lies c b := by
  have hpos : 0 < maxTotal.toNat := by
    have hne : maxTotal.toNat ≠ 0 := fun hzero => h (UInt64.toNat_inj.mp hzero)
    omega
  have hfirst : (if 4096 < maxTotal then 4096 else maxTotal).toNat = firstCap maxTotal.toNat := by
    have hlt : 4096 < maxTotal ↔ 4096 < maxTotal.toNat := UInt64.lt_iff_toNat_lt
    unfold firstCap
    by_cases hmax : 4096 < maxTotal
    · rw [if_pos hmax, if_pos (hlt.mp hmax)]
      rfl
    · rw [if_neg hmax, if_neg (mt hlt.mpr hmax)]
  have hblock : (grown junk [] (firstCap maxTotal.toNat)).length = firstCap maxTotal.toNat :=
    length_grown junk (Nat.zero_le _)
  obtain ⟨d, hd, hlen, htake⟩ := storeAt_spec (d := grown junk [] (firstCap maxTotal.toNat)) (s := [0]) (i := 0)
    (by rw [hblock]; exact firstCap_pos hpos)
  refine ⟨⟨d, 0, if 4096 < maxTotal then 4096 else maxTotal, maxTotal⟩,
    ⟨[], firstCap maxTotal.toNat, maxTotal.toNat, firstCap_pos hpos, firstCap_le _⟩, ?_, ?_, rfl, ?_⟩
  · rw [CBuf.init, if_neg h]
    dsimp only
    rw [hfirst, hd]
    rfl
  · rw [bufInit, dif_pos hpos, if_pos (show memory _ = true from rfl)]
  · exact ⟨rfl, hfirst, rfl, hlen.trans hblock, htake⟩

/-- Under the invariant, the arithmetic of `buf_ensure` does not wrap. -/
theorem Lies.arith {c : CBuf} {b : Buf} (h : Lies c b) (add : UInt64) :
    (c.maxTotal - c.len - 1).toNat = b.maxTotal - b.d.length - 1
      ∧ (b.d.length + add.toNat < b.maxTotal → (c.len + add + 1).toNat = b.d.length + add.toNat + 1) := by
  have hlimit := h.limit
  have hlen := h.length
  have hfits := b.fits
  have hlt := c.maxTotal.toNat_lt
  constructor
  · rw [UInt64.toNat_sub, UInt64.toNat_sub, UInt64.toNat_one]
    omega
  · intro hroom
    rw [UInt64.toNat_add, UInt64.toNat_add, UInt64.toNat_one]
    omega

/-- The capacity is cut back to the limit. -/
theorem Lies.cut {c : CBuf} {b : Buf} (h : Lies c b) (ncap : UInt64) :
    (if ncap > c.maxTotal then c.maxTotal else ncap).toNat
      = if ncap.toNat > b.maxTotal then b.maxTotal else ncap.toNat := by
  have hgt : ncap > c.maxTotal ↔ ncap.toNat > b.maxTotal := by
    rw [gt_iff_lt, UInt64.lt_iff_toNat_lt, h.limit]
  by_cases hover : ncap > c.maxTotal
  · rw [if_pos hover, if_pos (hgt.mp hover)]
    exact h.limit
  · rw [if_neg hover, if_neg (mt hgt.mpr hover)]

/-- `realloc` keeps the text; what it adds may be anything. -/
theorem Lies.realloc {c : CBuf} {b : Buf} (h : Lies c b) (junk : Nat → UInt8) {ncap : UInt64}
    (hgrows : b.cap ≤ ncap.toNat) (hfits : ncap.toNat ≤ b.maxTotal) :
    Lies { c with d := grown junk c.d ncap.toNat, cap := ncap }
      ⟨b.d, ncap.toNat, b.maxTotal, Nat.lt_of_lt_of_le b.text_fits hgrows, hfits⟩ := by
  have hlong : c.d.length ≤ ncap.toNat := by
    rw [h.block]
    exact hgrows
  refine ⟨h.limit, rfl, h.length, length_grown junk hlong, ?_⟩
  have htext : b.d.length + 1 ≤ c.d.length := by
    rw [h.block]
    exact b.text_fits
  exact (take_grown junk htext hlong).trans h.text

/-- **A call of `buf_ensure` does what `bufEnsure` does.** The branches are taken in the order of the source. -/
theorem ensure_answers {c : CBuf} {b : Buf} (h : Lies c b) (add : UInt64) (fresh : Fresh) (more : Nat) :
    Answers c ((bufEnsure (fun _ => fresh.isSome) b add.toNat).map Subtype.val)
      (c.ensure (65 + more) add fresh) := by
  obtain ⟨hsub, hneed⟩ := h.arith add
  have hfits := b.fits
  unfold CBuf.ensure bufEnsure
  by_cases hadd : add.toNat > b.maxTotal - b.d.length - 1
  · rw [dif_pos hadd, if_pos (by rw [gt_iff_lt, UInt64.lt_iff_toNat_lt, hsub]; exact hadd)]
    exact Or.inl ⟨rfl, rfl⟩
  have hneed := hneed (by omega)
  rw [dif_neg hadd, if_neg (by rw [gt_iff_lt, UInt64.lt_iff_toNat_lt, hsub]; exact hadd)]
  dsimp only
  have hle : c.len + add + 1 ≤ c.cap ↔ b.d.length + add.toNat + 1 ≤ b.cap := by
    rw [UInt64.le_iff_toNat_le, hneed, h.cap]
  by_cases hcap : b.d.length + add.toNat + 1 ≤ b.cap
  · rw [dif_pos hcap, if_pos (hle.mpr hcap)]
    exact Or.inr ⟨b, c, rfl, rfl, h⟩
  rw [dif_neg hcap, if_neg (mt hle.mp hcap)]
  -- the capacity is doubled
  obtain ⟨r, hloop⟩ := growLoop_returns (c.len + add + 1) c.maxTotal c.cap more
  have hgrow := growLoop_growCap hloop
  rw [growCap_rounds, hneed, h.limit, h.cap] at hgrow
  rw [hloop, hgrow]
  cases r with
  | none => exact Or.inl ⟨rfl, rfl⟩
  | some ncap =>
      dsimp only [Option.map_some]
      have hlt : (if ncap > c.maxTotal then c.maxTotal else ncap) < c.len + add + 1
          ↔ (if ncap.toNat > b.maxTotal then b.maxTotal else ncap.toNat) < b.d.length + add.toNat + 1 := by
        rw [UInt64.lt_iff_toNat_lt, hneed, h.cut]
      by_cases hshort : (if ncap.toNat > b.maxTotal then b.maxTotal else ncap.toNat) < b.d.length + add.toNat + 1
      · rw [dif_pos hshort, if_pos (hlt.mpr hshort)]
        exact Or.inl ⟨rfl, rfl⟩
      rw [dif_neg hshort, if_neg (mt hlt.mp hshort)]
      cases fresh with
      | none => exact Or.inl ⟨rfl, rfl⟩
      | some junk =>
          simp only [← h.cut ncap] at hshort ⊢
          refine Or.inr ⟨_, _, rfl, rfl, h.realloc junk (by omega) ?_⟩
          rw [h.cut]
          split <;> omega

/-- The two stores of `buf_append`, where there is room for them. -/
theorem store_text {c : CBuf} {b : Buf} (h : Lies c b) {s : Bytes} (hroom : b.d.length + s.length < b.cap) :
    ∃ d d', storeAt c.d b.d.length s = some d ∧ storeAt d (b.d.length + s.length) [0] = some d'
      ∧ d'.length = b.cap ∧ d'.take ((b.d ++ s).length + 1) = b.d ++ s ++ [0] := by
  have hblock := h.block
  obtain ⟨d, hd, hlen, htext⟩ := storeAt_spec (d := c.d) (s := s) (i := b.d.length) (by omega)
  obtain ⟨d', hd', hlen', hnul⟩ := storeAt_spec (d := d) (s := [0]) (i := b.d.length + s.length)
    (by rw [hlen, hblock]; exact hroom)
  -- the old NUL is overwritten
  have hold : c.d.take b.d.length = b.d := by
    have htake := congrArg (List.take b.d.length) h.text
    rwa [List.take_take, Nat.min_eq_left (Nat.le_succ _), List.take_left] at htake
  refine ⟨d, d', hd, hd', by omega, ?_⟩
  rw [List.length_append]
  exact hnul.trans (by rw [htext, hold])

/-- **A call of `buf_append` comes back without a fault, and does what `bufAppend` does.** -/
theorem append_answers {c : CBuf} {b : Buf} (h : Lies c b) (call : AppendCall) (more : Nat) :
    Answers c (bufAppend (fun _ => call.fresh.isSome) b call.s) (c.append (65 + more) call) := by
  have hens := ensure_answers h call.n call.fresh more
  rw [call.toNat_n] at hens
  unfold CBuf.append bufAppend
  rcases hens with ⟨hnone, hc⟩ | ⟨b', c', hb', hc', hlies⟩
  · rw [hc, Option.map_eq_none_iff.mp hnone]
    exact Or.inl ⟨rfl, rfl⟩
  · obtain ⟨⟨b'', hd, hroom⟩, hx, rfl⟩ := Option.map_eq_some_iff.mp hb'
    dsimp only at hlies
    rw [hx, hc']
    rw [← hd] at hroom
    obtain ⟨d, d', hstore, hstore', hlen, htext⟩ := store_text hlies hroom
    have hend : (c'.len + call.n).toNat = b''.d.length + call.s.length := by
      have hfits := b''.cap_fits
      have hlt := c'.maxTotal.toNat_lt
      have hlimit := hlies.limit
      rw [UInt64.toNat_add, hlies.length, call.toNat_n]
      omega
    refine Or.inr ⟨_, { c' with d := d', len := c'.len + call.n }, rfl, ?_, ?_⟩
    · simp [hlies.length, hstore, hend, hstore', -UInt64.toNat_add]
    · refine ⟨hlies.limit, hlies.cap, ?_, hlen, htext⟩
      dsimp only
      rw [hend, List.length_append]

/-! ## Calls in a row -/

theorem bufAppend_sized {alloc : Nat → Bool} {b b' : Buf} {s : Bytes} (h : bufAppend alloc b s = some b')
    (hb : b.Sized) : b'.maxTotal = b.maxTotal ∧ b'.Sized := by
  unfold bufAppend at h
  cases hens : bufEnsure alloc b s.length with
  | none =>
      rw [hens] at h
      cases h
  | some x =>
      rw [hens] at h
      obtain ⟨b₁, hd, hroom⟩ := x
      cases h
      exact ⟨bufEnsure_maxTotal hens, bufEnsure_sized hens hb⟩

theorem bufAppend_eq_none_iff {b : Buf} (hb : b.Sized) (s : Bytes) :
    bufAppend memory b s = none
      ↔ b.maxTotal < b.d.length + s.length + 1 ∨ halfSize < b.d.length + s.length + 1 := by
  rw [← bufEnsure_eq_none_iff hb]
  unfold bufAppend
  rcases bufEnsure memory b s.length with _ | ⟨b', hd, hroom⟩
  · exact iff_of_true rfl rfl
  · exact iff_of_false (by simp) (by simp)

/-- A run of calls: `b` is what the memory is at the end. -/
theorem run_answers {c : CBuf} {b : Buf} (h : Lies c b) (hb : b.Sized) (calls : List AppendCall) (more : Nat) :
    ∃ oks c' b', c.run (65 + more) calls = some (oks, c') ∧ oks.length = calls.length ∧ Lies c' b' ∧ b'.Sized
      ∧ c'.maxTotal = c.maxTotal ∧ b'.d = b.d ++ kept calls oks := by
  induction calls generalizing c b with
  | nil => exact ⟨[], c, b, rfl, rfl, h, hb, rfl, (List.append_nil _).symm⟩
  | cons call calls ih =>
      rcases append_answers h call more with ⟨_, hc⟩ | ⟨b', c', hb', hc', hlies⟩
      -- the rest of the calls finds the buffer as it was
      · obtain ⟨oks, c', b', hrun, hlen, hlies, hsized, hmax, hd⟩ := ih h hb
        refine ⟨false :: oks, c', b', ?_, by simp [hlen], hlies, hsized, hmax, ?_⟩
        · simp [CBuf.run, hc, hrun]
        · simp [kept, hd]
      · obtain ⟨hmax, hsized⟩ := bufAppend_sized hb' hb
        obtain ⟨oks, c'', b'', hrun, hlen, hlies', hsized', hmax', hd⟩ := ih hlies hsized
        refine ⟨true :: oks, c'', b'', ?_, by simp [hlen], hlies', hsized', hmax'.trans ?_, ?_⟩
        · simp [CBuf.run, hc', hrun]
        · rw [← UInt64.toNat_inj, hlies.limit, hmax, h.limit]
        · simp [kept, hd, bufAppend_d hb']

/-- What a call does in a buffer whose capacity is as it can be. -/
theorem append_fails_iff {c : CBuf} {b : Buf} (h : Lies c b) (hb : b.Sized) (call : AppendCall) (more : Nat) :
    ∃ ok c', c.append (65 + more) call = some (ok, c') ∧ (ok = false → c' = c)
      ∧ (call.fresh.isSome → (ok = false ↔ c.maxTotal.toNat < b.d.length + call.s.length + 1
        ∨ halfSize < b.d.length + call.s.length + 1)) := by
  have hmemory : call.fresh.isSome = true → (fun _ : Nat => call.fresh.isSome) = memory := by
    intro hsome
    funext n
    exact hsome
  have hiff := bufAppend_eq_none_iff hb call.s
  rw [← h.limit] at hiff
  rcases append_answers h call more with ⟨hnone, hc⟩ | ⟨b', c', hb', hc', _⟩
  · refine ⟨false, c, hc, fun _ => rfl, fun hsome => ?_⟩
    rw [hmemory hsome] at hnone
    exact iff_of_true rfl (hiff.mp hnone)
  · refine ⟨true, c', hc', fun hfalse => absurd hfalse (by simp), fun hsome => ?_⟩
    rw [hmemory hsome] at hb'
    refine iff_of_false (by simp) fun hfull => ?_
    rw [hiff.mpr hfull] at hb'
    cases hb'

/-- **The output buffer holds what was appended**: from `buf_init` with a limit above 0, calls in a row come back
    without a fault, whatever `realloc` answers; the texts of those that returned 0 stand in the block, one behind
    the other and with a NUL behind them. A call that fails changes nothing, and with memory a call fails exactly
    where the text and the NUL would pass the limit, or half of `size_t`. -/
theorem cbufRun_holds {maxTotal : UInt64} (hmax : 1 ≤ maxTotal) (junk : Nat → UInt8) (calls : List AppendCall)
    (more : Nat) :
    ∃ c₀ oks c, CBuf.init maxTotal (some junk) = some (some c₀) ∧ c₀.run (65 + more) calls = some (oks, c)
      ∧ oks.length = calls.length ∧ c.Holds maxTotal (kept calls oks)
      ∧ ∀ call, ∃ ok c', c.append (65 + more) call = some (ok, c') ∧ (ok = false → c' = c)
        ∧ (call.fresh.isSome → (ok = false ↔ maxTotal.toNat < (kept calls oks).length + call.s.length + 1
          ∨ halfSize < (kept calls oks).length + call.s.length + 1)) := by
  have hne : maxTotal ≠ 0 := by
    rintro rfl
    exact absurd hmax (by decide)
  obtain ⟨c₀, b₀, hinit, hbuf, hlimit, hlies⟩ := bufInit_lies hne junk
  obtain ⟨oks, c, b, hrun, hlen, hlies', hsized, hmax', hd⟩ := run_answers hlies (bufInit_sized hbuf) calls more
  rw [bufInit_d hbuf, List.nil_append] at hd
  have hholds := hlies'.holds
  rw [hmax', hlimit, hd] at hholds
  refine ⟨c₀, oks, c, hinit, hrun, hlen, hholds, fun call => ?_⟩
  have hcall := append_fails_iff hlies' hsized call more
  rw [hmax', hlimit, hd] at hcall
  exact hcall

/-- Three calls under a limit of six bytes: the second has one byte too many, the third fills the block. -/
theorem cbufRun_holds_sample :
    ∃ c₀ c, CBuf.init 6 (some fun _ => 255) = some (some c₀)
      ∧ c₀.run 65 [⟨ascii "<b>", none, by decide⟩, ⟨ascii "<i>", none, by decide⟩, ⟨ascii "hi", none, by decide⟩]
        = some ([true, false, true], c)
      ∧ c.Holds 6 (ascii "<b>hi") := by
  obtain ⟨c₀, oks, c, hinit, hrun, _, hholds, _⟩ := cbufRun_holds (show (1 : UInt64) ≤ 6 by decide) (fun _ => 255)
    [⟨ascii "<b>", none, by decide⟩, ⟨ascii "<i>", none, by decide⟩, ⟨ascii "hi", none, by decide⟩] 0
  have hoks : ((CBuf.init 6 (some fun _ => 255)).bind fun r => r.bind fun c₀ => (c₀.run 65
      [⟨ascii "<b>", none, by decide⟩, ⟨ascii "<i>", none, by decide⟩, ⟨ascii "hi", none, by decide⟩]).map Prod.fst)
      = some [true, false, true] := by decide +kernel
  rw [hinit] at hoks
  simp only [Option.bind_some, hrun, Option.map_some, Option.some.injEq] at hoks
  subst hoks
  exact ⟨c₀, c, hinit, hrun, hholds⟩

/-- **A text of half of `size_t`** is within the largest limit, and is turned away with memory there: no doubling
    reaches it. -/
theorem cbufAppend_half :
    ∃ c₀, CBuf.init 0xffffffffffffffff (some fun _ => 0) = some (some c₀)
      ∧ c₀.append 65 ⟨List.replicate 0x8000000000000000 0, some fun _ => 0, by rw [List.length_replicate]; decide⟩
        = some (false, c₀)
      ∧ c₀.len.toNat + (List.replicate 0x8000000000000000 (0 : UInt8)).length + 1 ≤ c₀.maxTotal.toNat := by
  obtain ⟨c₀, b₀, hinit, hbuf, hlimit, hlies⟩ :=
    bufInit_lies (show (0xffffffffffffffff : UInt64) ≠ 0 by decide) fun _ => 0
  obtain ⟨ok, c, happend, hsame, hfails⟩ := append_fails_iff hlies (bufInit_sized hbuf)
    ⟨List.replicate 0x8000000000000000 0, some fun _ => 0, by rw [List.length_replicate]; decide⟩ 0
  have hsize : halfSize = 0x8000000000000000 := by decide
  have hok : ok = false := by
    refine (hfails rfl).mpr (Or.inr ?_)
    dsimp only
    rw [List.length_replicate, hsize]
    omega
  subst hok
  rw [hsame rfl] at happend
  refine ⟨c₀, hinit, happend, ?_⟩
  rw [hlies.length, bufInit_d hbuf, List.length_replicate, hlimit]
  decide

end LibUpdate
