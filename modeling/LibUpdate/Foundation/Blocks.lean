/-!
# `Foundation.Blocks` — folding a stream block by block

A function on blocks of `n` symbols is folded over a stream of symbols. `foldBlocks` folds the complete
blocks and keeps what is left; because the rest is carried over, folding a stream in pieces is the
same as folding it at once (`foldBlocks_pieces`). `stateAfter` is the same fold indexed by the number of the
block.
-/

namespace LibUpdate

variable {σ τ α : Type}

/-- A fold whose steps correspond, for the symbols it meets. -/
theorem foldl_simulates {f : σ → α → σ} {g : τ → α → τ} (r : σ → τ) {xs : List α}
    (hstep : ∀ s, ∀ x ∈ xs, r (f s x) = g (r s) x) (s : σ) : r (xs.foldl f s) = xs.foldl g (r s) := by
  induction xs generalizing s with
  | nil => rfl
  | cons x xs ih =>
      rw [List.foldl_cons, List.foldl_cons, ih fun s y hy => hstep s y (List.mem_cons_of_mem x hy),
        hstep s x List.mem_cons_self]

/-- `n` blocks of this size from the front, and the rest, if there is one. -/
def cutBlocks (size : Nat) : Nat → List α → List (List α)
  | 0, xs => if xs.isEmpty then [] else [xs]
  | n + 1, xs => xs.take size :: cutBlocks size n (xs.drop size)

theorem flatten_cutBlocks (size n : Nat) (xs : List α) : (cutBlocks size n xs).flatten = xs := by
  induction n generalizing xs with
  | zero =>
      unfold cutBlocks
      split
      · next hempty => exact (List.isEmpty_iff.mp hempty).symm
      · exact List.flatten_singleton
  | succ n ih => rw [cutBlocks, List.flatten_cons, ih, List.take_append_drop]

section Blocks

variable (n : Nat) (f : σ → List α → σ)

/-- Fold the complete blocks of `xs`; the second component is what is left. -/
def foldBlocks (s : σ) (xs : List α) : σ × List α :=
  if 0 < n ∧ n ≤ xs.length then foldBlocks (f s (xs.take n)) (xs.drop n) else (s, xs)
termination_by xs.length
decreasing_by simp only [List.length_drop]; omega

/-- The fold after `i` blocks of `xs`. -/
def stateAfter (s : σ) (xs : List α) : Nat → σ
  | 0 => s
  | i + 1 => f (stateAfter s xs i) ((xs.drop (n * i)).take n)

variable {n f}

theorem foldBlocks_of_short (s : σ) {xs : List α} (h : xs.length < n) : foldBlocks n f s xs = (s, xs) := by
  rw [foldBlocks, if_neg]
  omega

theorem foldBlocks_block (hn : 0 < n) (s : σ) {b : List α} (hb : b.length = n) (xs : List α) :
    foldBlocks n f s (b ++ xs) = foldBlocks n f (f s b) xs := by
  have hlen : 0 < n ∧ n ≤ (b ++ xs).length := ⟨hn, by rw [List.length_append]; omega⟩
  rw [foldBlocks, if_pos hlen, ← hb, List.take_left, List.drop_left]

theorem foldBlocks_rest_length (hn : 0 < n) (s : σ) (xs : List α) :
    (foldBlocks n f s xs).2.length = xs.length % n := by
  fun_induction foldBlocks n f s xs with
  | case1 s xs h ih => rw [ih, List.length_drop, ← Nat.mod_eq_sub_mod h.2]
  | case2 s xs h =>
      show xs.length = xs.length % n
      rw [Nat.mod_eq_of_lt (by omega)]

/-- **A stream in pieces.** The rest of the first piece goes in front of the second. -/
theorem foldBlocks_pieces (s : σ) (xs ys : List α) :
    foldBlocks n f s (xs ++ ys) = foldBlocks n f (foldBlocks n f s xs).1 ((foldBlocks n f s xs).2 ++ ys) := by
  fun_induction foldBlocks n f s xs with
  | case1 s xs h ih =>
      rw [← ih]
      have hsplit : xs ++ ys = xs.take n ++ (xs.drop n ++ ys) := by
        rw [← List.append_assoc, List.take_append_drop]
      rw [hsplit, foldBlocks_block h.1 s (List.length_take_of_le h.2)]
  | case2 s xs h => rfl

/-- The fold over all complete blocks, by the number of blocks. -/
theorem foldBlocks_eq_stateAfter (hn : 0 < n) (s : σ) (xs : List α) :
    (foldBlocks n f s xs).1 = stateAfter n f s xs (xs.length / n) := by
  -- the first block is the last one that the recursion on the number of blocks comes to
  have hshift : ∀ (s : σ) (xs : List α) (i : Nat), n ≤ xs.length →
      stateAfter n f s xs (i + 1) = stateAfter n f (f s (xs.take n)) (xs.drop n) i := by
    intro s xs i hxs
    induction i with
    | zero => simp [stateAfter]
    | succ i ih =>
        rw [stateAfter, ih, stateAfter, List.drop_drop]
        have hoff : n * (i + 1) = n + n * i := by rw [Nat.mul_succ, Nat.add_comm]
        rw [hoff]
  fun_induction foldBlocks n f s xs with
  | case1 s xs h ih =>
      have hdiv : xs.length / n = (xs.drop n).length / n + 1 := by
        rw [List.length_drop, Nat.div_eq_sub_div hn h.2]
      rw [ih, hdiv, hshift s xs _ h.2]
  | case2 s xs h =>
      have hdiv : xs.length / n = 0 := Nat.div_eq_of_lt (by omega)
      rw [hdiv]
      rfl

/-- The same fold as a loop over the number of the block. -/
theorem foldl_range_eq_stateAfter (s : σ) (xs : List α) (m : Nat) :
    (List.range m).foldl (fun s i => f s ((xs.drop (n * i)).take n)) s = stateAfter n f s xs m := by
  induction m with
  | zero => rfl
  | succ m ih => rw [List.range_succ, List.foldl_append, ih, List.foldl_cons, List.foldl_nil, stateAfter]

/-- Folds whose steps correspond, for the blocks of the stream. -/
theorem stateAfter_simulates {g : τ → List α → τ} (r : σ → τ) (hstep : ∀ s b, r (f s b) = g (r s) b)
    (s : σ) (xs : List α) (m : Nat) : r (stateAfter n f s xs m) = stateAfter n g (r s) xs m := by
  induction m with
  | zero => rfl
  | succ m ih => rw [stateAfter, stateAfter, hstep, ih]

end Blocks

end LibUpdate
