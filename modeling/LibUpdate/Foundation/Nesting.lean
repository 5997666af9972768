/-!
# `Foundation.Nesting` — bracketed words, and writing them from left to right

A bracketed language has words without brackets (`Atom`), and for each kind of bracket the words that
open it (`Opens`) and the one word that closes it (`close`). `Nested` is the language of the balanced and
properly nested words over them.

A writer that goes from left to right has at each moment written a word with some brackets still open.
`Pending ts w` says that `w` is such a word and that `ts` are the open brackets, the innermost first.
The rules follow what a writer does: it appends an atom, opens a bracket, closes the innermost one.
`NestedIn n` and `PendingIn n` are the same languages with at most `n` brackets inside each other.
-/

namespace LibUpdate

/-- What the words of a bracketed language are made of. -/
structure Brackets (τ α : Type) where
  Atom : List α → Prop
  Opens : τ → List α → Prop
  close : τ → List α

namespace Brackets

variable {τ α : Type} (B : Brackets τ α)

/-- The balanced and properly nested words. -/
inductive Nested : List α → Prop where
  | nil : Nested []
  | atom {w rest : List α} (hw : B.Atom w) (hrest : Nested rest) : Nested (w ++ rest)
  | node {t : τ} {o w rest : List α} (ho : B.Opens t o) (hw : Nested w) (hrest : Nested rest) :
      Nested (o ++ w ++ B.close t ++ rest)

/-- The words in which the brackets `ts` are still open. -/
inductive Pending : List τ → List α → Prop where
  | done {w : List α} (hw : B.Nested w) : Pending [] w
  | inside {t : τ} {ts : List τ} {pre o w : List α} (hpre : Pending ts pre) (ho : B.Opens t o)
      (hw : B.Nested w) : Pending (t :: ts) (pre ++ o ++ w)

variable {B}

theorem Nested.of_atom {w : List α} (hw : B.Atom w) : B.Nested w := by
  have h : B.Nested (w ++ []) := .atom hw .nil
  rwa [List.append_nil] at h

theorem Nested.append {v w : List α} (hv : B.Nested v) (hw : B.Nested w) : B.Nested (v ++ w) := by
  induction hv with
  | nil => exact hw
  | atom hu _ ih =>
      rw [List.append_assoc]
      exact .atom hu ih
  | node ho hu _ _ ih =>
      rw [List.append_assoc]
      exact .node ho hu ih

namespace Pending

variable {ts : List τ} {t : τ} {v w : List α}

theorem nil_iff : B.Pending [] w ↔ B.Nested w := by
  constructor
  · intro h
    cases h with
    | done hw => exact hw
  · exact .done

/-- Appends a nested word inside the innermost open bracket. -/
theorem append (h : B.Pending ts v) (hw : B.Nested w) : B.Pending ts (v ++ w) := by
  cases h with
  | done hv => exact .done (hv.append hw)
  | inside hpre ho hv =>
      rw [List.append_assoc]
      exact .inside hpre ho (hv.append hw)

/-- Opens a bracket. -/
theorem opens (h : B.Pending ts v) (ho : B.Opens t w) : B.Pending (t :: ts) (v ++ w) := by
  have hin : B.Pending (t :: ts) (v ++ w ++ []) := .inside h ho .nil
  rwa [List.append_nil] at hin

/-- Closes the innermost open bracket. -/
theorem closes (h : B.Pending (t :: ts) v) : B.Pending ts (v ++ B.close t) := by
  cases h with
  | inside hpre ho hw =>
      rename_i pre o w
      have hnode : B.Nested (o ++ w ++ B.close t ++ []) := .node ho hw .nil
      rw [List.append_nil] at hnode
      have hall := hpre.append hnode
      simpa only [List.append_assoc] using hall

/-- Closes all open brackets. -/
theorem closes_all (h : B.Pending ts v) : B.Nested (v ++ ts.flatMap B.close) := by
  induction ts generalizing v with
  | nil =>
      rw [List.flatMap_nil, List.append_nil]
      exact nil_iff.mp h
  | cons t ts ih =>
      rw [List.flatMap_cons, ← List.append_assoc]
      exact ih h.closes

end Pending

/-! ## With a bound on the depth -/

variable (B) in
/-- The nested words with at most `n` brackets inside each other. -/
inductive NestedIn : Nat → List α → Prop where
  | nil {n : Nat} : NestedIn n []
  | atom {n : Nat} {w rest : List α} (hw : B.Atom w) (hrest : NestedIn n rest) : NestedIn n (w ++ rest)
  | node {n : Nat} {t : τ} {o w rest : List α} (ho : B.Opens t o) (hw : NestedIn n w)
      (hrest : NestedIn (n + 1) rest) : NestedIn (n + 1) (o ++ w ++ B.close t ++ rest)

variable (B) in
/-- The words in which the brackets `ts` are still open, with at most `n` inside each other. -/
inductive PendingIn (n : Nat) : List τ → List α → Prop where
  | done {w : List α} (hw : B.NestedIn n w) : PendingIn n [] w
  | inside {t : τ} {ts : List τ} {pre o w : List α} (hpre : PendingIn n ts pre) (hroom : ts.length < n)
      (ho : B.Opens t o) (hw : B.NestedIn (n - (ts.length + 1)) w) : PendingIn n (t :: ts) (pre ++ o ++ w)

theorem NestedIn.of_atom {n : Nat} {w : List α} (hw : B.Atom w) : B.NestedIn n w := by
  have h : B.NestedIn n (w ++ []) := .atom hw .nil
  rwa [List.append_nil] at h

theorem NestedIn.append {n : Nat} {v w : List α} (hv : B.NestedIn n v) (hw : B.NestedIn n w) :
    B.NestedIn n (v ++ w) := by
  induction hv with
  | nil => exact hw
  | atom hu _ ih =>
      rw [List.append_assoc]
      exact .atom hu (ih hw)
  | node ho hu _ _ ih =>
      rw [List.append_assoc]
      exact .node ho hu (ih hw)

namespace PendingIn

variable {n : Nat} {ts : List τ} {t : τ} {v w : List α}

theorem append (h : B.PendingIn n ts v) (hw : B.NestedIn (n - ts.length) w) : B.PendingIn n ts (v ++ w) := by
  cases h with
  | done hv => exact .done (hv.append hw)
  | inside hpre hroom ho hv =>
      rw [List.append_assoc]
      exact .inside hpre hroom ho (hv.append hw)

theorem opens (h : B.PendingIn n ts v) (hroom : ts.length < n) (ho : B.Opens t w) :
    B.PendingIn n (t :: ts) (v ++ w) := by
  have hin : B.PendingIn n (t :: ts) (v ++ w ++ []) := .inside h hroom ho .nil
  rwa [List.append_nil] at hin

theorem closes (h : B.PendingIn n (t :: ts) v) : B.PendingIn n ts (v ++ B.close t) := by
  cases h with
  | inside hpre hroom ho hw =>
      rename_i pre o w
      have hdepth : n - ts.length = n - (ts.length + 1) + 1 := by omega
      have hnode : B.NestedIn (n - ts.length) (o ++ w ++ B.close t ++ []) := by
        rw [hdepth]
        exact .node ho hw .nil
      rw [List.append_nil] at hnode
      have hall := hpre.append hnode
      simpa only [List.append_assoc] using hall

theorem closes_all (h : B.PendingIn n ts v) : B.NestedIn n (v ++ ts.flatMap B.close) := by
  induction ts generalizing v with
  | nil =>
      rw [List.flatMap_nil, List.append_nil]
      cases h with
      | done hw => exact hw
  | cons t ts ih =>
      rw [List.flatMap_cons, ← List.append_assoc]
      exact ih h.closes

end PendingIn

end Brackets

end LibUpdate
