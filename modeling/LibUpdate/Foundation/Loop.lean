/-!
# `Foundation.Loop` — `while` loops that need not end

One pass of a loop either goes round again, in a new state, or leaves the loop with a value. A pass may
run loops of its own, so it is given fuel and may not come back either. `whileLoop` runs a loop with the
same fuel for the number of passes and for the loops inside them; `none` says that the fuel ran out.

A loop *returns* when some fuel is enough. `Returns.whileLoop_iff` reduces that to the passes: a loop
whose passes descend in a measure returns exactly when every pass it comes to returns.
-/

namespace LibUpdate

/-- What a pass of a loop ends in. -/
inductive Round (σ α : Type) where
  | again (s : σ)
  | leave (a : α)
  deriving DecidableEq, Repr

variable {σ α : Type}

/-- At most `n` passes of a loop. -/
def iterate (pass : σ → Option (Round σ α)) : Nat → σ → Option α
  | 0, _ => none
  | n + 1, s =>
      match pass s with
      | none => none
      | some (.again t) => iterate pass n t
      | some (.leave a) => some a

def whileLoop (pass : Nat → σ → Option (Round σ α)) (fuel : Nat) (s : σ) : Option α :=
  iterate (pass fuel) fuel s

/-- Some fuel is enough. -/
def Returns (f : Nat → σ → Option α) (s : σ) : Prop := ∃ fuel a, f fuel s = some a

/-- More fuel gives the same value. -/
def Stable (f : Nat → σ → Option α) : Prop := ∀ m n s a, m ≤ n → f m s = some a → f n s = some a

/-- The states in which passes of the loop start. -/
inductive Reaches (pass : Nat → σ → Option (Round σ α)) : σ → σ → Prop where
  | refl (s : σ) : Reaches pass s s
  | head {s t u : σ} (fuel : Nat) (h : pass fuel s = some (.again t)) (rest : Reaches pass t u) :
      Reaches pass s u

/-! ## Runs of a loop -/

theorem iterate_again {pass : σ → Option (Round σ α)} {s t : σ} (h : pass s = some (.again t)) (n : Nat) :
    iterate pass (n + 1) s = iterate pass n t := by
  simp [iterate, h]

theorem iterate_leave {pass : σ → Option (Round σ α)} {s : σ} {a : α} (h : pass s = some (.leave a))
    (n : Nat) : iterate pass (n + 1) s = some a := by
  simp [iterate, h]

/-- A run that came back began with a pass that came back. -/
theorem iterate_eq_some {pass : σ → Option (Round σ α)} {n : Nat} {s : σ} {a : α}
    (h : iterate pass n s = some a) :
    ∃ m, n = m + 1 ∧ ((∃ t, pass s = some (.again t) ∧ iterate pass m t = some a)
      ∨ pass s = some (.leave a)) := by
  cases n with
  | zero => cases h
  | succ m =>
      refine ⟨m, rfl, ?_⟩
      cases hp : pass s with
      | none => simp [iterate, hp] at h
      | some r =>
          cases r with
          | again t => exact Or.inl ⟨t, rfl, by rwa [iterate_again hp] at h⟩
          | leave b =>
              rw [iterate_leave hp] at h
              exact Or.inr (by rw [Option.some.inj h])

/-- Passes that give the same values, and more of them. -/
theorem iterate_mono {f g : σ → Option (Round σ α)} (hfg : ∀ s r, f s = some r → g s = some r)
    {m n : Nat} (hmn : m ≤ n) {s : σ} {a : α} (h : iterate f m s = some a) : iterate g n s = some a := by
  induction m generalizing n s with
  | zero => cases h
  | succ m ih =>
      obtain ⟨n, rfl⟩ : ∃ n', n = n' + 1 := ⟨n - 1, by omega⟩
      obtain ⟨_, hm, ⟨t, hp, ht⟩ | hp⟩ := iterate_eq_some h
      · cases hm
        rw [iterate_again (hfg _ _ hp)]
        exact ih (by omega) ht
      · exact iterate_leave (hfg _ _ hp) n

/-- Passes that give the same values, but for leaving with `bad`: the loop gives the same value, if not `bad`. -/
theorem iterate_mono_of_ne {f g : σ → Option (Round σ α)} {bad : α}
    (hfg : ∀ s r, f s = some r → r ≠ .leave bad → g s = some r) {n : Nat} {s : σ} {a : α}
    (h : iterate f n s = some a) (ha : a ≠ bad) : iterate g n s = some a := by
  induction n generalizing s with
  | zero => cases h
  | succ n ih =>
      obtain ⟨_, hn, ⟨t, hp, ht⟩ | hp⟩ := iterate_eq_some h
      · cases hn
        rw [iterate_again (hfg _ _ hp (by simp))]
        exact ih ht
      · refine iterate_leave (hfg _ _ hp ?_) n
        simpa using ha

/-- **The invariant rule.** What the passes keep holds where the loop is left. -/
theorem iterate_invariant {pass : σ → Option (Round σ α)} (inv : σ → Prop)
    (hstep : ∀ s t, inv s → pass s = some (.again t) → inv t) {n : Nat} {s : σ} {a : α}
    (h : iterate pass n s = some a) (hs : inv s) : ∃ t, inv t ∧ pass t = some (.leave a) := by
  induction n generalizing s with
  | zero => cases h
  | succ n ih =>
      obtain ⟨_, hn, ⟨t, hp, ht⟩ | hp⟩ := iterate_eq_some h
      · cases hn
        exact ih ht (hstep s t hs hp)
      · exact ⟨s, hs, hp⟩

/-! ## Loops that return -/

variable {pass : Nat → σ → Option (Round σ α)} {s t : σ}

theorem Returns.above {f : Nat → σ → Option α} (hf : Stable f) (h : Returns f s) (least : Nat) :
    ∃ fuel a, least ≤ fuel ∧ f fuel s = some a := by
  obtain ⟨fuel, a, ha⟩ := h
  exact ⟨max fuel least, a, Nat.le_max_right .., hf _ _ _ _ (Nat.le_max_left ..) ha⟩

theorem Stable.whileLoop (hpass : Stable pass) : Stable (whileLoop pass) := by
  intro m n s a hmn h
  exact iterate_mono (fun t r hr => hpass m n t r hmn hr) hmn h

/-- A loop that returns begins with a pass that does. -/
theorem Returns.first_pass (h : Returns (whileLoop pass) s) : Returns pass s := by
  obtain ⟨fuel, a, ha⟩ := h
  obtain ⟨_, _, ⟨t, hp, _⟩ | hp⟩ := iterate_eq_some ha
  · exact ⟨fuel, _, hp⟩
  · exact ⟨fuel, _, hp⟩

/-- Where a loop returns, so does the rest of it after one pass. -/
theorem Returns.again (hpass : Stable pass) {fuel : Nat} (hp : pass fuel s = some (.again t))
    (h : Returns (whileLoop pass) s) : Returns (whileLoop pass) t := by
  obtain ⟨n, a, hn, ha⟩ := h.above (Stable.whileLoop hpass) fuel
  have hpn : pass n s = some (.again t) := hpass fuel n s _ hn hp
  obtain ⟨m, hm, ⟨t', hp', ht'⟩ | hp'⟩ := iterate_eq_some ha
  · cases hpn.symm.trans hp'
    exact ⟨n, a, iterate_mono (fun _ _ hr => hr) (by omega) ht'⟩
  · cases hpn.symm.trans hp'

/-- One pass more at the front, and the rest of the loop. -/
theorem whileLoop_again (hpass : Stable pass) {m n : Nat} {a : α} (hp : pass m s = some (.again t))
    (h : whileLoop pass n t = some a) : ∃ fuel, whileLoop pass fuel s = some a := by
  refine ⟨max m n + 1, ?_⟩
  have hpm : pass (max m n + 1) s = some (.again t) := hpass m _ s _ (by omega) hp
  rw [whileLoop, iterate_again hpm]
  exact iterate_mono (fun u r hr => hpass n _ u r (by omega) hr) (by omega) h

/-- A pass that leaves the loop. -/
theorem whileLoop_leave (hpass : Stable pass) {m : Nat} {a : α} (hp : pass m s = some (.leave a)) :
    ∃ fuel, whileLoop pass fuel s = some a :=
  ⟨m + 1, iterate_leave (hpass m (m + 1) s _ (by omega) hp) m⟩

/-- One pass more at the front. -/
theorem Returns.cons (hpass : Stable pass) {fuel : Nat} (hp : pass fuel s = some (.again t))
    (h : Returns (whileLoop pass) t) : Returns (whileLoop pass) s := by
  obtain ⟨n, a, ha⟩ := h
  obtain ⟨m, hm⟩ := whileLoop_again hpass hp ha
  exact ⟨m, a, hm⟩

/-- **The variant rule.** Passes that keep `inv` under it and descend in a measure come to an end. -/
theorem Returns.of_variant (hpass : Stable pass) (inv : σ → Prop) (size : σ → Nat)
    (hstep : ∀ s, inv s → ∃ fuel r, pass fuel s = some r ∧ ∀ t, r = .again t → inv t ∧ size t < size s)
    (hs : inv s) : Returns (whileLoop pass) s := by
  induction hn : size s using Nat.strongRecOn generalizing s with
  | ind n ih =>
      -- on the measure: a pass that goes round again has made it smaller
      obtain ⟨m, r, hp, hagain⟩ := hstep s hs
      cases r with
      | leave a =>
          obtain ⟨n, hn⟩ := whileLoop_leave hpass hp
          exact ⟨n, a, hn⟩
      | again t =>
          obtain ⟨ht, hlt⟩ := hagain t rfl
          exact (ih (size t) (hn ▸ hlt) ht rfl).cons hpass hp

/-- **A descending loop returns exactly when each of its passes does.** -/
theorem Returns.whileLoop_iff (hpass : Stable pass) (size : σ → Nat)
    (hsize : ∀ fuel s t, pass fuel s = some (.again t) → size t < size s) :
    Returns (whileLoop pass) s ↔ ∀ t, Reaches pass s t → Returns pass t := by
  constructor
  · intro h t hreach
    induction hreach with
    | refl s => exact h.first_pass
    | head fuel hp _ ih => exact ih (h.again hpass hp)
  · refine Returns.of_variant hpass (fun s => ∀ t, Reaches pass s t → Returns pass t) size ?_
    intro s hs
    obtain ⟨m, r, hp⟩ := hs s (.refl s)
    refine ⟨m, r, hp, ?_⟩
    rintro t rfl
    exact ⟨fun u hu => hs u (.head m hp hu), hsize m s t hp⟩

end LibUpdate
