/-!
# `Foundation.Machine` — runs of a system whose parties take turns

A system moves by acts, one at a time, in any order: which party moves, and how what it asks for turns out.
An act may be impossible in a state (a party that waits, a party that is gone). A *run* is a list of acts,
and an `allowed` test says which acts a run may take in which states, so that one machine has its runs
under any failures and its runs under some of them.

What every step keeps holds along a run (`run_invariant`). A measure that the steps lower bounds the runs
(`run_length`), and where something can always be done it leads to the end (`completes`).
-/

namespace LibUpdate

/-- The state after an act, if the act is possible. -/
structure Machine (σ ι : Type) where
  step : σ → ι → Option σ

namespace Machine

variable {σ ι : Type} {m : Machine σ ι} {allowed : σ → ι → Bool} {s t u : σ} {acts : List ι}

/-- The state after the acts, if each is allowed and possible where its turn comes. -/
def run (m : Machine σ ι) (allowed : σ → ι → Bool) : σ → List ι → Option σ
  | s, [] => some s
  | s, a :: acts => if allowed s a then (m.step s a).bind fun t => run m allowed t acts else none

theorem run_cons {a : ι} :
    m.run allowed s (a :: acts) = some u
      ↔ allowed s a = true ∧ ∃ t, m.step s a = some t ∧ m.run allowed t acts = some u := by
  simp only [run]
  split <;> rename_i ha
  · simp [ha, Option.bind_eq_some_iff]
  · simp [ha]

/-- The acts that count, each in the state in which it is made. -/
def counted (m : Machine σ ι) (counts : σ → ι → Bool) : σ → List ι → Nat
  | _, [] => 0
  | s, a :: acts => (if counts s a then 1 else 0) + ((m.step s a).map fun t => counted m counts t acts).getD 0

theorem counted_cons {counts : σ → ι → Bool} {a : ι} (h : m.step s a = some t) :
    m.counted counts s (a :: acts) = (if counts s a then 1 else 0) + m.counted counts t acts := by
  simp only [counted, h, Option.map_some, Option.getD_some]

theorem run_append {more : List ι} (h : m.run allowed s acts = some t) :
    m.run allowed s (acts ++ more) = m.run allowed t more := by
  induction acts generalizing s with
  | nil =>
      cases h
      rfl
  | cons a acts ih =>
      obtain ⟨ha, r, hr, hrun⟩ := run_cons.mp h
      rw [List.cons_append, run, if_pos ha, hr, Option.bind_some]
      exact ih hrun

/-- A run may be taken where more is allowed. -/
theorem run_mono {more : σ → ι → Bool} (hmore : ∀ s a, allowed s a = true → more s a = true)
    (h : m.run allowed s acts = some t) : m.run more s acts = some t := by
  induction acts generalizing s with
  | nil => exact h
  | cons a acts ih =>
      obtain ⟨ha, r, hr, hrun⟩ := run_cons.mp h
      exact run_cons.mpr ⟨hmore s a ha, r, hr, ih hrun⟩

/-- **The invariant rule.** What every allowed step keeps holds at the end of a run. -/
theorem run_invariant (inv : σ → Prop)
    (hstep : ∀ s a t, inv s → allowed s a = true → m.step s a = some t → inv t)
    (h : m.run allowed s acts = some t) (hs : inv s) : inv t := by
  induction acts generalizing s with
  | nil =>
      cases h
      exact hs
  | cons a acts ih =>
      obtain ⟨ha, r, hr, hrun⟩ := run_cons.mp h
      exact ih hrun (hstep s a r hs ha hr)

/-- **Runs are bounded** where each act that counts lowers the measure, and none raises it. -/
theorem run_length (measure : σ → Nat) (counts : σ → ι → Bool)
    (hlower : ∀ s a t, m.step s a = some t → counts s a = true → measure t < measure s)
    (hkeep : ∀ s a t, m.step s a = some t → measure t ≤ measure s)
    (h : m.run allowed s acts = some t) : m.counted counts s acts + measure t ≤ measure s := by
  induction acts generalizing s with
  | nil =>
      cases h
      simp [counted]
  | cons a acts ih =>
      obtain ⟨-, r, hr, hrun⟩ := run_cons.mp h
      have hrest := ih hrun
      rw [counted_cons hr]
      split
      · have hlt := hlower s a r hr ‹_›
        omega
      · have hle := hkeep s a r hr
        omega

/-- **The progress rule.** Where the end is not reached, something is possible that lowers the measure: the
end can be reached. -/
theorem completes (measure : σ → Nat) (inv final : σ → Prop)
    (hprogress : ∀ s, inv s → ¬ final s →
      ∃ a t, allowed s a = true ∧ m.step s a = some t ∧ inv t ∧ measure t < measure s)
    (hs : inv s) : ∃ acts t, m.run allowed s acts = some t ∧ final t := by
  induction hn : measure s using Nat.strongRecOn generalizing s with
  | ind n ih =>
      by_cases hfinal : final s
      · exact ⟨[], s, rfl, hfinal⟩
      · obtain ⟨a, t, ha, hstep, ht, hlt⟩ := hprogress s hs hfinal
        obtain ⟨acts, u, hrun, hu⟩ := ih (measure t) (by omega) ht rfl
        exact ⟨a :: acts, u, run_cons.mpr ⟨ha, t, hstep, hrun⟩, hu⟩

end Machine

end LibUpdate
