import LibUpdate.Foundation.CrashLogic

/-!
# `Foundation.Trace` — what an execution leaves behind

A view says what of an operation performed is worth showing; the trace of an execution is what its
operations show, in order. `Leaves` is the weakest precondition of a program with a postcondition on the
returned value, the trace and the last state, where some events may be assumed not to happen. It is
computed along the program: an operation puts what it shows in front, and a sequence is proved from its
parts by `Leaves.seq`, which joins their traces.
-/

namespace LibUpdate

variable {Op : Type} {Res : Op → Type} {ε σ α β τ : Type}

/-- The trace of an execution. -/
def Run.trace (view : Event Op ε σ → List τ) (r : Run Op ε σ α) : List τ := r.events.flatMap view

/-- From state `s`, where events are as assumed and the program returns, `Q` holds of the value, the trace
    and the last state. -/
def Leaves (d : Device Op Res ε σ) (assumes : Event Op ε σ → Prop) (view : Event Op ε σ → List τ) :
    Prog Op Res α → (α → List τ → σ → Prop) → σ → Prop
  | .ret a, Q, s => Q a [] s
  | .op o k, Q, s => ∀ e, assumes ⟨o, e, s⟩ →
      Leaves d assumes view (k (d.step o e s).1) (fun a tr t => Q a (view ⟨o, e, s⟩ ++ tr) t) (d.step o e s).2

namespace Leaves

variable {d : Device Op Res ε σ} {assumes : Event Op ε σ → Prop} {view : Event Op ε σ → List τ}
variable {Q Q' : α → List τ → σ → Prop} {R : β → List τ → σ → Prop} {s : σ}

/-- The rule of consequence. -/
theorem mono {p : Prog Op Res α} (h : Leaves d assumes view p Q s) (hQ : ∀ a tr t, Q a tr t → Q' a tr t) :
    Leaves d assumes view p Q' s := by
  induction p generalizing s Q Q' with
  | ret a => exact hQ a [] s h
  | op o k ih =>
      intro e he
      apply ih _ (h e he)
      intro a tr t hq
      exact hQ a _ t hq

/-- A postcondition with another way out. -/
theorem or_right {p : Prog Op Res α} (h : Leaves d assumes view p Q' s) :
    Leaves d assumes view p (fun a tr t => Q a tr t ∨ Q' a tr t) s :=
  h.mono fun _ _ _ => Or.inr

/-- The rule of sequencing: the traces are joined. -/
theorem seq {p : Prog Op Res α} {f : α → Prog Op Res β} (h : Leaves d assumes view p Q s)
    (hf : ∀ a tr t, Q a tr t → Leaves d assumes view (f a) (fun b tr' u => R b (tr ++ tr') u) t) :
    Leaves d assumes view (p >>= f) R s := by
  induction p generalizing s Q R with
  | ret a => exact hf a [] s h
  | op o k ih =>
      intro e he
      apply ih _ (h e he)
      intro a tr t hq
      apply (hf a _ t hq).mono
      intro b tr' u hr
      rwa [List.append_assoc] at hr

/-- The rule of conjunction. -/
theorem both {p : Prog Op Res α} (h : Leaves d assumes view p Q s) (h' : Leaves d assumes view p Q' s) :
    Leaves d assumes view p (fun a tr t => Q a tr t ∧ Q' a tr t) s := by
  induction p generalizing s Q Q' with
  | ret a => exact ⟨h, h'⟩
  | op o k ih => exact fun e he => ih _ (h e he) (h' e he)

/-- What holds of all that the events show holds of all of the trace. -/
theorem trace_all {P : τ → Prop} (hview : ∀ ev, assumes ev → ∀ x ∈ view ev, P x) (p : Prog Op Res α) (s : σ) :
    Leaves d assumes view p (fun _ tr _ => ∀ x ∈ tr, P x) s := by
  induction p generalizing s with
  | ret a => exact fun x hx => by cases hx
  | op o k ih =>
      intro e he
      apply (ih _ _).mono
      intro a tr t htr x hx
      rcases List.mem_append.mp hx with hx | hx
      · exact hview _ he x hx
      · exact htr x hx

/-- One operation, with the equation of its step. -/
theorem perform {o : Op} {f : Res o → Prog Op Res β}
    (h : ∀ e r t, assumes ⟨o, e, s⟩ → d.step o e s = (r, t) →
      Leaves d assumes view (f r) (fun b tr u => R b (view ⟨o, e, s⟩ ++ tr) u) t) :
    Leaves d assumes view (Prog.perform o >>= f) R s :=
  fun e he => h e _ _ he rfl

/-- **Soundness.** Where the events of an execution are as assumed, a returned value, the trace and the
    last state satisfy the postcondition. -/
theorem sound {p : Prog Op Res α} (h : Leaves d assumes view p Q s) {es : List ε}
    (hassumes : ∀ ev ∈ (d.run p es s).events, assumes ev) {a : α} (ha : (d.run p es s).result = some a) :
    Q a ((d.run p es s).trace view) (d.run p es s).final := by
  induction p generalizing es s Q with
  | ret b =>
      rw [Device.run_ret] at ha ⊢
      cases ha
      exact h
  | op o k ih =>
      cases es with
      | nil => cases ha
      | cons e es =>
          rw [Device.run_op_cons] at hassumes ha ⊢
          have hk := h e (hassumes _ List.mem_cons_self)
          exact ih _ hk (fun ev hev => hassumes ev (List.mem_cons_of_mem _ hev)) ha

/-- **Embedding.** A program of a smaller device shows nothing and ends as it does there, where its operations act on
    a part of the state as they did. -/
theorem embed {Op' ε' σ' : Type} {Res' : Op' → Type} {on : Op → Op'} {answer : ∀ o, Res' (on o) → Res o}
    {d' : Device Op' Res' ε' σ'} {c : Contract Op ε σ} {assumes' : Event Op' ε' σ' → Prop}
    {view' : Event Op' ε' σ' → List τ} (out : Op → ε' → ε) (part : σ' → σ)
    (hstep : ∀ o e s, (answer o (d'.step (on o) e s).1, part (d'.step (on o) e s).2) = d.step o (out o e) (part s))
    (hassumes : ∀ o e s, assumes' ⟨on o, e, s⟩ → c.assumes ⟨o, out o e, part s⟩)
    (hview : ∀ o e s, view' ⟨on o, e, s⟩ = []) {Q : α → σ → Prop} {p : Prog Op Res α} {s : σ'}
    (h : Safe d c Q p (part s)) :
    Leaves d' assumes' view' (p.embed on answer) (fun a tr t => tr = [] ∧ Q a (part t)) s := by
  induction p generalizing s with
  | ret a => exact ⟨rfl, h⟩
  | op o k ih =>
      intro e he
      obtain ⟨_, _, hk⟩ := h (out o e) (hassumes o e s he)
      rw [← hstep o e s] at hk
      apply (ih _ hk).mono
      rintro a tr t ⟨rfl, hq⟩
      exact ⟨by rw [hview, List.append_nil], hq⟩

/-- **Returning.** In an environment that has an outcome for every operation, and one that is as assumed, the program
    returns after finitely many operations, and the postcondition holds. -/
theorem returns {p : Prog Op Res α} (h : Leaves d assumes view p Q s) (env : Nat → ε)
    (hassumes : ∀ i o t, assumes ⟨o, env i, t⟩) :
    ∃ n, ∀ m, n ≤ m → ∃ a, (d.run p ((List.range m).map env) s).result = some a
      ∧ Q a ((d.run p ((List.range m).map env) s).trace view) (d.run p ((List.range m).map env) s).final := by
  induction p generalizing env s Q with
  | ret a =>
      refine ⟨0, fun m _ => ⟨a, ?_⟩⟩
      rw [Device.run_ret]
      exact ⟨rfl, h⟩
  | op o k ih =>
      obtain ⟨n, hn⟩ := ih _ (h (env 0) (hassumes 0 o s)) (fun i => env (i + 1)) fun i => hassumes (i + 1)
      refine ⟨n + 1, fun m hm => ?_⟩
      obtain ⟨m, rfl⟩ : ∃ m', m = m' + 1 := ⟨m - 1, by omega⟩
      obtain ⟨a, ha, hq⟩ := hn m (by omega)
      have hsplit : (List.range (m + 1)).map env = env 0 :: (List.range m).map fun i => env (i + 1) := by
        rw [List.range_succ_eq_map, List.map_cons, List.map_map]
        rfl
      rw [hsplit, Device.run_op_cons]
      exact ⟨a, ha, hq⟩

end Leaves

/-- The program performs nothing but operations that leave the state as it is. -/
inductive Prog.Keeps (d : Device Op Res ε σ) : Prog Op Res α → Prop where
  | ret {a : α} : Keeps d (.ret a)
  | op {o : Op} {k : Res o → Prog Op Res α} (ho : ∀ e s, (d.step o e s).2 = s) (hk : ∀ r, Keeps d (k r)) :
      Keeps d (.op o k)

theorem Prog.Keeps.perform {d : Device Op Res ε σ} {o : Op} {f : Res o → Prog Op Res α}
    (ho : ∀ e s, (d.step o e s).2 = s) (hf : ∀ r, (f r).Keeps d) : (Prog.perform o >>= f).Keeps d := .op ho hf

/-- What a program that keeps the state leaves, it leaves in the state it started in, and that is the state all
    along. -/
theorem Leaves.safe {d : Device Op Res ε σ} {assumes : Event Op ε σ → Prop} {view : Event Op ε σ → List τ}
    {p : Prog Op Res α} {Q : α → List τ → σ → Prop} {s : σ} (hp : p.Keeps d)
    (h : Leaves d assumes view p Q s) :
    Safe d ⟨assumes, fun _ => True, fun t => t = s⟩ (fun a t => t = s ∧ ∃ tr, Q a tr s) p s := by
  induction hp generalizing Q with
  | ret => exact ⟨rfl, [], h⟩
  | op ho _ ih =>
      intro e he
      have hnext := h e he
      rw [ho e s] at hnext ⊢
      refine ⟨trivial, rfl, (ih _ hnext).mono ?_⟩
      rintro a t ⟨ht, tr, hq⟩
      exact ⟨ht, _, hq⟩

end LibUpdate
