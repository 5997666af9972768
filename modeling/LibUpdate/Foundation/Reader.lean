import LibUpdate.Foundation.Bytes

/-!
# `Foundation.Reader` — sources of bytes, and what a reader can tell of them

A source answers a read of up to `cap` bytes with the bytes it has, or fails. What a read hands out is
taken from what was left, and nothing else is (`Source.read_left`): loops over reads descend in it.

`Stream` is the plain source: the bytes to come and how they end. A `SourceMap` is a map of states under
which reads commute; a program that does nothing but read gives the same result on both sides, so a source
that arrives in pieces can be replaced by its stream.
-/

namespace LibUpdate

/-- A kind of source with states in `σ`. An answer shorter than `cap` means that the source has ended;
    `none` means that reading failed. -/
structure Source (σ : Type) where
  read : σ → Nat → Option (Bytes × σ)
  left : σ → Nat
  read_left : ∀ {s cap bs s'}, read s cap = some (bs, s') → left s' + bs.length = left s

/-- The bytes that are to come, and whether reading beyond them fails. -/
structure Stream where
  bytes : Bytes
  failing : Bool
  deriving DecidableEq, Repr

namespace Stream

def read (s : Stream) (cap : Nat) : Option (Bytes × Stream) :=
  if cap ≤ s.bytes.length then some (s.bytes.take cap, { s with bytes := s.bytes.drop cap })
  else if s.failing then none
  else some (s.bytes, { s with bytes := [] })

theorem read_of_le {s : Stream} {cap : Nat} (h : cap ≤ s.bytes.length) :
    s.read cap = some (s.bytes.take cap, { s with bytes := s.bytes.drop cap }) := if_pos h

/-- The first bytes of a stream, read exactly. -/
theorem read_append (xs ys : Bytes) (failing : Bool) :
    read ⟨xs ++ ys, failing⟩ xs.length = some (xs, ⟨ys, failing⟩) := by
  rw [read_of_le (by simp)]
  simp

theorem read_left {s s' : Stream} {cap : Nat} {bs : Bytes} (h : s.read cap = some (bs, s')) :
    s'.bytes.length + bs.length = s.bytes.length := by
  unfold read at h
  split at h
  · cases h
    simp only [List.length_drop, List.length_take]
    omega
  · split at h
    · cases h
    · cases h
      simp

/-- What a read hands out came first in the stream. -/
theorem read_eq_some {s s' : Stream} {cap : Nat} {bs : Bytes} (h : s.read cap = some (bs, s')) :
    s.bytes = bs ++ s'.bytes ∧ s'.failing = s.failing
      ∧ (bs.length = cap ∨ bs.length < cap ∧ s'.bytes = [] ∧ s.failing = false) := by
  unfold read at h
  split at h
  · next hle =>
    cases h
    exact ⟨(List.take_append_drop ..).symm, rfl, Or.inl (List.length_take_of_le hle)⟩
  · next hle =>
    split at h
    · cases h
    · next hf =>
      cases h
      exact ⟨(List.append_nil _).symm, rfl, Or.inr ⟨by omega, rfl, by simpa using hf⟩⟩

/-- A read in two parts, the first of which the stream still has. -/
theorem read_parts {s : Stream} {n cap : Nat} (hn : n ≤ s.bytes.length) (hcap : n ≤ cap) :
    s.read cap
      = (read { s with bytes := s.bytes.drop n } (cap - n)).map fun x => (s.bytes.take n ++ x.1, x.2) := by
  unfold read
  by_cases h : cap ≤ s.bytes.length
  · have hrest : cap - n ≤ (s.bytes.drop n).length := by rw [List.length_drop]; omega
    rw [if_pos h, if_pos hrest, Option.map_some, List.drop_drop, Nat.add_sub_cancel' hcap]
    have htake : s.bytes.take cap = s.bytes.take n ++ (s.bytes.drop n).take (cap - n) := by
      rw [← List.take_add, Nat.add_sub_cancel' hcap]
    rw [htake]
  · have hrest : ¬ cap - n ≤ (s.bytes.drop n).length := by rw [List.length_drop]; omega
    rw [if_neg h, if_neg hrest]
    by_cases hf : s.failing = true
    · simp [hf]
    · simp [hf]

/-- Streams as sources. -/
def source : Source Stream := ⟨read, fun s => s.bytes.length, read_left⟩

end Stream

variable {σ τ α : Type}

/-- Carries what a reader returned over to another source. -/
def carry (f : σ → τ) (r : Option (α × σ)) : Option (α × τ) := r.map fun x => (x.1, f x.2)

@[simp] theorem carry_none (f : σ → τ) : carry f (none : Option (α × σ)) = none := rfl
@[simp] theorem carry_some (f : σ → τ) (a : α) (s : σ) : carry f (some (a, s)) = some (a, f s) := rfl

/-- A map of states under which reads commute. -/
structure SourceMap (p : Source σ) (q : Source τ) where
  map : σ → τ
  read_map : ∀ s cap, q.read (map s) cap = carry map (p.read s cap)

end LibUpdate
