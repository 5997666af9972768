import LibUpdate.Foundation.Prog

/-!
# `Foundation.CrashLogic` — invariants of programs that may crash at any operation

A `Contract` says what is assumed of each event, what must be true of each event, and what must hold
in every state, also in the states a crash leaves behind. `Safe` is the weakest precondition of a
program under a contract: it is computed along the program, one rule for each constructor, and a
sequence is proved from its parts by `Safe.bind`.

The two soundness theorems turn `Safe` into statements about executions: `Safe.run_sound` for one
execution and `history_sound` for histories of crashing executions.
-/

namespace LibUpdate

/-- The contract of an execution. -/
structure Contract (Op ε σ : Type) where
  /-- What is assumed of an event. -/
  assumes : Event Op ε σ → Prop
  /-- What is shown of an event. -/
  ensures : Event Op ε σ → Prop
  /-- What is shown of every state. -/
  invariant : σ → Prop

variable {Op : Type} {Res : Op → Type} {ε σ α β ι : Type}

/-- Both contracts at once. -/
def Contract.both (c₁ c₂ : Contract Op ε σ) : Contract Op ε σ where
  assumes ev := c₁.assumes ev ∧ c₂.assumes ev
  ensures ev := c₁.ensures ev ∧ c₂.ensures ev
  invariant s := c₁.invariant s ∧ c₂.invariant s

/-- Nothing is assumed and nothing is shown but of the end. -/
def anyContract : Contract Op ε σ := ⟨fun _ => True, fun _ => True, fun _ => True⟩

/-- From state `s` the program meets the contract, and where it returns, `Q` holds. -/
def Safe (d : Device Op Res ε σ) (c : Contract Op ε σ) (Q : α → σ → Prop) : Prog Op Res α → σ → Prop
  | .ret a, s => Q a s
  | .op o k, s => ∀ e, c.assumes ⟨o, e, s⟩ →
      c.ensures ⟨o, e, s⟩ ∧ c.invariant (d.step o e s).2
        ∧ Safe d c Q (k (d.step o e s).1) (d.step o e s).2

namespace Safe

variable {d : Device Op Res ε σ} {c c₁ c₂ : Contract Op ε σ} {Q Q₁ Q₂ : α → σ → Prop} {s : σ}

@[simp] theorem ret_iff {a : α} : Safe d c Q (.ret a) s ↔ Q a s := Iff.rfl

/-- The rule of sequencing. -/
theorem bind {p : Prog Op Res α} {f : α → Prog Op Res β} {R : β → σ → Prop}
    (h : Safe d c (fun a t => Safe d c R (f a) t) p s) : Safe d c R (p >>= f) s := by
  induction p generalizing s with
  | ret a => exact h
  | op o k ih => exact fun e he => ⟨(h e he).1, (h e he).2.1, ih _ (h e he).2.2⟩

/-- One operation, with the equation of its step. -/
theorem perform {o : Op} {f : Res o → Prog Op Res α}
    (h : ∀ e r t, c.assumes ⟨o, e, s⟩ → d.step o e s = (r, t) →
      c.ensures ⟨o, e, s⟩ ∧ c.invariant t ∧ Safe d c Q (f r) t) :
    Safe d c Q (Prog.perform o >>= f) s :=
  fun e he => h e _ _ he rfl

/-- The rule of consequence. -/
theorem mono {p : Prog Op Res α} (h : Safe d c Q₁ p s) (hQ : ∀ a t, Q₁ a t → Q₂ a t) :
    Safe d c Q₂ p s := by
  induction p generalizing s with
  | ret a => exact hQ a s h
  | op o k ih => exact fun e he => ⟨(h e he).1, (h e he).2.1, ih _ (h e he).2.2⟩

/-- The rule of consequence for contracts. -/
theorem weaken {p : Prog Op Res α} {Q : α → σ → Prop} (h : Safe d c₁ Q p s)
    (hassumes : ∀ ev, c₂.assumes ev → c₁.assumes ev) (hensures : ∀ ev, c₁.ensures ev → c₂.ensures ev)
    (hinv : ∀ t, c₁.invariant t → c₂.invariant t) : Safe d c₂ Q p s := by
  induction p generalizing s with
  | ret a => exact h
  | op o k ih =>
      intro e he
      obtain ⟨hens, hnext, hk⟩ := h e (hassumes _ he)
      exact ⟨hensures _ hens, hinv _ hnext, ih _ hk⟩

/-- The rule of conjunction. -/
theorem both {p : Prog Op Res α} (h₁ : Safe d c₁ Q₁ p s) (h₂ : Safe d c₂ Q₂ p s) :
    Safe d (c₁.both c₂) (fun a t => Q₁ a t ∧ Q₂ a t) p s := by
  induction p generalizing s with
  | ret a => exact ⟨h₁, h₂⟩
  | op o k ih =>
      intro e he
      obtain ⟨hens₁, hinv₁, hk₁⟩ := h₁ e he.1
      obtain ⟨hens₂, hinv₂, hk₂⟩ := h₂ e he.2
      exact ⟨⟨hens₁, hens₂⟩, ⟨hinv₁, hinv₂⟩, ih _ hk₁ hk₂⟩

/-- **Embedding.** A program keeps its contract in a larger device whose operations act on a part of the state as
    they did, and leave the rest as it is. -/
theorem embed {Op' ε' σ' ρ : Type} {Res' : Op' → Type} {on : Op → Op'} {answer : ∀ o, Res' (on o) → Res o}
    {d' : Device Op' Res' ε' σ'} {c' : Contract Op' ε' σ'} (out : ε' → ε) (part : σ' → σ) (rest : σ' → ρ)
    (hstep : ∀ o e s, (answer o (d'.step (on o) e s).1, part (d'.step (on o) e s).2)
      = d.step o (out e) (part s))
    (hrest : ∀ o e s, rest (d'.step (on o) e s).2 = rest s) {r : ρ}
    (hassumes : ∀ o e s, c'.assumes ⟨on o, e, s⟩ → c.assumes ⟨o, out e, part s⟩)
    (hensures : ∀ o e s, rest s = r → c.ensures ⟨o, out e, part s⟩ → c'.ensures ⟨on o, e, s⟩)
    (hinv : ∀ s, rest s = r → c.invariant (part s) → c'.invariant s)
    {p : Prog Op Res α} {s : σ'} (hs : rest s = r) (h : Safe d c Q p (part s)) :
    Safe d' c' (fun a t => Q a (part t) ∧ rest t = r) (p.embed on answer) s := by
  induction p generalizing s with
  | ret a => exact ⟨h, hs⟩
  | op o k ih =>
      intro e he
      obtain ⟨hens, hnext, hk⟩ := h (out e) (hassumes o e s he)
      have hr : rest (d'.step (on o) e s).2 = r := (hrest o e s).trans hs
      rw [← hstep o e s] at hnext hk
      exact ⟨hensures o e s hs hens, hinv _ hr hnext, ih _ hr hk⟩

/-- **Soundness for one execution.** Where the assumptions hold of every event, every event meets the
    contract, the invariant holds after it, and a returned value satisfies the postcondition. -/
theorem run_sound {p : Prog Op Res α} (h : Safe d c Q p s) {es : List ε}
    (hassumes : ∀ ev ∈ (d.run p es s).events, c.assumes ev) :
    (∀ ev ∈ (d.run p es s).events, c.ensures ev ∧ c.invariant (d.after ev))
      ∧ ∀ a, (d.run p es s).result = some a → Q a (d.run p es s).final := by
  induction p generalizing es s with
  | ret a => simpa using h
  | op o k ih =>
      cases es with
      | nil => simp
      | cons e es =>
          rw [Device.run_op_cons] at hassumes ⊢
          obtain ⟨hens, hinv, hk⟩ := h e (hassumes _ List.mem_cons_self)
          obtain ⟨hevents, hresult⟩ := ih _ hk fun ev hev => hassumes ev (List.mem_cons_of_mem _ hev)
          refine ⟨?_, hresult⟩
          intro ev hev
          rcases List.mem_cons.mp hev with rfl | hev
          · exact ⟨hens, hinv⟩
          · exact hevents ev hev

/-- The state an execution ends in satisfies the invariant. -/
theorem final_sound {p : Prog Op Res α} (h : Safe d c Q p s) (hs : c.invariant s) {es : List ε}
    (hassumes : ∀ ev ∈ (d.run p es s).events, c.assumes ev) : c.invariant (d.run p es s).final := by
  rcases d.final_mem p es s with hf | ⟨ev, hev, hf⟩
  · rw [hf]; exact hs
  · rw [hf]; exact ((h.run_sound hassumes).1 ev hev).2

end Safe

/-! ## Crashes after undisturbed operations

The contract of recovery looks at a crash inside any operation: up to there the operations turned out
as `good` says, and whatever the crashing operation leaves must satisfy `R`. -/

/-- Operations turn out well; wherever one is cut short, `R` holds of what it leaves. -/
def crashContract (d : Device Op Res ε σ) (good : ε → Prop) (R : σ → Prop) : Contract Op ε σ where
  assumes ev := good ev.outcome
  ensures ev := ∀ e, R (d.step ev.op e ev.before).2
  invariant := R

/-- **Soundness for one crash.** After operations that turned out well and at most one that did not
    complete, `R` holds. -/
theorem Safe.crash_sound {d : Device Op Res ε σ} {good : ε → Prop} {R : σ → Prop} {Q : α → σ → Prop}
    {p : Prog Op Res α} {s : σ} (h : Safe d (crashContract d good R) Q p s) (hs : R s) {g : ε}
    (hg : good g) {es tail : List ε} (hes : ∀ e ∈ es, good e) (htail : tail.length ≤ 1) :
    R (d.run p (es ++ tail) s).final := by
  have hgood : ∀ es' : List ε, (∀ e ∈ es', good e) → ∀ ev ∈ (d.run p es' s).events, good ev.outcome := by
    intro es' hes' ev hev
    exact hes' ev.outcome (d.outcome_mem hev)
  have hfinal : R (d.run p es s).final := h.final_sound hs (hgood es hes)
  match tail, htail with
  | [], _ => rwa [List.append_nil]
  | [e], _ =>
      rcases d.run_snoc p es s with ⟨_, heq⟩ | ⟨o, hlast⟩
      · rw [heq e]
        exact hfinal
      · -- had the last operation turned out well, the contract would speak of it
        have hes' : ∀ e' ∈ es ++ [g], good e' := by
          intro e' he'
          rcases List.mem_append.mp he' with he' | he'
          · exact hes e' he'
          · rw [List.mem_singleton.mp he']
            exact hg
        have hensures := ((h.run_sound (hgood _ hes')).1 _ (hlast g).1).1
        rw [(hlast e).2]
        exact hensures e

/-- **Soundness for histories.** Let the contracts of the programs share an invariant, and let each
    program of the history be safe from every state of that invariant. Then in every history whose
    events meet the assumptions all events meet the contract, and the invariant holds after each. -/
theorem history_sound (d : Device Op Res ε σ) (c : ι → Contract Op ε σ) (inv : σ → Prop)
    (prog : ι → Prog Op Res α) (runs : List (ι × List ε)) {s : σ}
    (hinv : ∀ i, (c i).invariant = inv)
    (hsafe : ∀ run ∈ runs, ∀ t, inv t → Safe d (c run.1) (fun _ _ => True) (prog run.1) t)
    (hs : inv s) (hassumes : ∀ x ∈ d.history prog runs s, (c x.1).assumes x.2) :
    ∀ x ∈ d.history prog runs s, (c x.1).ensures x.2 ∧ inv (d.after x.2) := by
  induction runs generalizing s with
  | nil => simp [Device.history]
  | cons run runs ih =>
      obtain ⟨i, es⟩ := run
      -- the first run leaves the invariant to the rest of the history
      have hrun := hsafe (i, es) List.mem_cons_self s hs
      simp only [Device.history, List.mem_append, List.mem_map] at hassumes ⊢
      have hfirst : ∀ ev ∈ (d.run (prog i) es s).events, (c i).assumes ev := fun ev hev =>
        hassumes (i, ev) (Or.inl ⟨ev, hev, rfl⟩)
      have hfinal := hrun.final_sound (by rw [hinv]; exact hs) hfirst
      rw [hinv] at hfinal
      rintro x (⟨ev, hev, rfl⟩ | hx)
      · have hens := (hrun.run_sound hfirst).1 ev hev
        rw [hinv] at hens
        exact hens
      · exact ih (fun r hr => hsafe r (List.mem_cons_of_mem _ hr)) hfinal
          (fun y hy => hassumes y (Or.inr hy)) x hx

end LibUpdate
