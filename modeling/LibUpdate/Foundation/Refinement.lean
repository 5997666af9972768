import LibUpdate.Foundation.CrashLogic

/-!
# `Foundation.Refinement` — operations that are carried out by programs

`Prog.expand` puts a program over a lower device in the place of every operation of a higher one.
`Implements` says that these programs do what the operations may do: one that returns gives the answer
and the state of some outcome of its operation, and where one is cut short, the operation has not
happened or has turned out somehow.

What is shown of a program over the higher device then holds of the expanded one: contracts go down by
`Implements.safe`, and each execution below, crashes included, is one above (`Implements.run`,
`Implements.history`).
-/

namespace LibUpdate

namespace Prog

variable {Op Op' : Type} {Res : Op → Type} {Res' : Op' → Type} {α β : Type}

/-- Carries out each operation by a program. -/
def expand (impl : (o : Op) → Prog Op' Res' (Res o)) : Prog Op Res α → Prog Op' Res' α
  | .ret a => .ret a
  | .op o k => impl o >>= fun r => (k r).expand impl

end Prog

variable {Op Op' : Type} {Res : Op → Type} {Res' : Op' → Type} {ε ε' σ σ' α ι : Type}

namespace Safe

variable {d : Device Op Res ε σ} {c : Contract Op ε σ} {Q : α → σ → Prop} {s : σ}

/-- What every operation keeps holds before each of them, and where the program returns. -/
theorem keeps {inv : σ → Prop} (hstep : ∀ o e s, inv s → inv (d.step o e s).2) {p : Prog Op Res α}
    (h : Safe d c Q p s) (hs : inv s) :
    Safe d ⟨c.assumes, fun ev => c.ensures ev ∧ inv ev.before, c.invariant⟩ (fun a t => Q a t ∧ inv t) p s := by
  induction p generalizing s with
  | ret a => exact ⟨h, hs⟩
  | op o k ih => exact fun e he => ⟨⟨(h e he).1, hs⟩, (h e he).2.1, ih _ (h e he).2.2 (hstep o e s hs)⟩

/-- What is shown under a weaker assumption holds at the end, too. -/
theorem and_ends {c₂ : Contract Op ε σ} {Q₂ : α → σ → Prop} {p : Prog Op Res α} (h : Safe d c Q p s)
    (h₂ : Safe d c₂ Q₂ p s) (hc : ∀ ev, c.assumes ev → c₂.assumes ev) :
    Safe d c (fun a t => Q a t ∧ Q₂ a t) p s :=
  (Safe.both h h₂).weaken (fun ev he => ⟨he, hc ev he⟩) (fun _ hens => hens.1) fun _ hinv => hinv.1

/-- **The rule of reliance**: what one contract shows of the events, another may assume. -/
theorem rely {c₂ : Contract Op ε σ} {Q₂ : α → σ → Prop} {p : Prog Op Res α} (h : Safe d c Q p s)
    (h₂ : Safe d c₂ Q₂ p s) (hc : ∀ ev, c₂.assumes ev → c₂.ensures ev → c.assumes ev) :
    Safe d ⟨c₂.assumes, c.ensures, c.invariant⟩ Q p s := by
  induction p generalizing s with
  | ret a => exact h
  | op o k ih =>
      intro e he
      obtain ⟨hens₂, _, hk₂⟩ := h₂ e he
      obtain ⟨hens, hinv, hk⟩ := h e (hc _ he hens₂)
      exact ⟨hens, hinv, ih _ hk hk₂⟩

/-- **The rule of calls**: what the operations that a program may come to keep holds all along. -/
theorem of_only {P : Op → Prop} {inv : σ → Prop} (hstep : ∀ o e s, P o → inv s → inv (d.step o e s).2)
    {p : Prog Op Res α} (hp : p.Only P) (hs : inv s) :
    Safe d ⟨fun _ => True, fun ev => P ev.op ∧ inv ev.before, inv⟩ (fun _ t => inv t) p s := by
  induction hp generalizing s with
  | ret => exact hs
  | op ho _ ih =>
      intro e _
      have hnext := hstep _ e s ho hs
      exact ⟨⟨ho, hs⟩, hnext, ih _ hnext⟩

/-- What holds after any outcome holds wherever an operation is cut short. -/
theorem crash {E : Event Op ε σ → Prop} {I : σ → Prop} {good : ε → Prop} {p : Prog Op Res α}
    (h : Safe d ⟨fun _ => True, E, I⟩ Q p s) : Safe d (crashContract d good I) Q p s := by
  induction p generalizing s with
  | ret a => exact h
  | op o k ih =>
      intro e _
      exact ⟨fun e => (h e trivial).2.1, (h e trivial).2.1, ih _ (h e trivial).2.2⟩

end Safe

/-! ## Contracts with a condition for each call -/

/-- Operations turn out well and are called as `pre` says; wherever one is cut short, `I` holds of what it
    leaves. -/
def callContract (d : Device Op Res ε σ) (good : ε → Prop) (pre : Op → σ → Prop) (I : σ → Prop) :
    Contract Op ε σ where
  assumes ev := good ev.outcome
  ensures ev := pre ev.op ev.before ∧ ∀ e, I (d.step ev.op e ev.before).2
  invariant := I

/-- The program calls its operations as `pre` says, in the states that it comes to while their outcomes turn out as
    `good` says. -/
def Calls (d : Device Op Res ε σ) (good : ε → Prop) (pre : Op → σ → Prop) (p : Prog Op Res α) (s : σ) : Prop :=
  Safe d ⟨fun ev => good ev.outcome, fun ev => pre ev.op ev.before, fun _ => True⟩ (fun _ _ => True) p s

section

variable {d : Device Op Res ε σ} {good : ε → Prop} {pre : Op → σ → Prop} {I : σ → Prop} {Q : α → σ → Prop} {s : σ}

theorem Safe.crash_mono {J : σ → Prop} {p : Prog Op Res α} (h : Safe d (crashContract d good I) Q p s)
    (hI : ∀ t, I t → J t) : Safe d (crashContract d good J) Q p s :=
  h.weaken (fun _ he => he) (fun _ hens e => hI _ (hens e)) hI

/-- A program that calls its operations rightly. -/
theorem Safe.calls {p : Prog Op Res α} (h : Safe d (crashContract d good I) Q p s) (hcalls : Calls d good pre p s) :
    Safe d (callContract d good pre I) Q p s := by
  refine ((Safe.both h hcalls).mono fun _ _ hQ => hQ.1).weaken (fun _ he => ⟨he, he⟩) (fun _ hens => ?_) fun _ hI => hI.1
  exact ⟨hens.2, hens.1⟩

/-- The operations that a program may come to are called rightly. -/
theorem Prog.Only.calls {P : Op → Prop} {p : Prog Op Res α} (hp : p.Only P) (hpre : ∀ o s, P o → pre o s) (s : σ) :
    Calls d good pre p s := by
  induction hp generalizing s with
  | ret => trivial
  | op ho _ ih => exact fun e _ => ⟨hpre _ s ho, trivial, ih _ _⟩

theorem Calls.perform {o : Op} {f : Res o → Prog Op Res α} (ho : pre o s)
    (hf : ∀ e r t, good e → d.step o e s = (r, t) → Calls d good pre (f r) t) :
    Calls d good pre (Prog.perform o >>= f) s :=
  fun e he => ⟨ho, trivial, hf e _ _ he rfl⟩

/-- Where every call is right, there is nothing to show. -/
theorem calls_any (hpre : ∀ o s, pre o s) (p : Prog Op Res α) (s : σ) : Calls d good pre p s := by
  induction p generalizing s with
  | ret a => trivial
  | op o k ih => exact fun e _ => ⟨hpre o s, trivial, ih _ _⟩

/-! ## What is true of every execution -/

/-- Where an execution may end whose operations turn out well, up to a last one that may not. -/
def Reached (d : Device Op Res ε σ) (good : ε → Prop) (p : Prog Op Res α) (s t : σ) : Prop :=
  ∃ es tail : List ε, (∀ e ∈ es, good e) ∧ tail.length ≤ 1 ∧ (d.run p (es ++ tail) s).final = t

/-- Where an execution may return whose operations turn out well. -/
def Returned (d : Device Op Res ε σ) (good : ε → Prop) (p : Prog Op Res α) (s : σ) (a : α) (t : σ) : Prop :=
  ∃ es : List ε, (∀ e ∈ es, good e) ∧ (d.run p es s).result = some a ∧ (d.run p es s).final = t

theorem Reached.start (p : Prog Op Res α) (s : σ) : Reached d good p s s := by
  refine ⟨[], [], List.forall_mem_nil _, Nat.zero_le 1, ?_⟩
  cases p <;> rfl

/-- **The strongest contract.** Every program keeps to the states that its own executions reach. -/
theorem Safe.strongest (p : Prog Op Res α) (s : σ) :
    Safe d (crashContract d good (Reached d good p s)) (Returned d good p s) p s := by
  induction p generalizing s with
  | ret a => exact ⟨[], List.forall_mem_nil _, rfl, rfl⟩
  | op o k ih =>
      intro e he
      have hone : ∀ e, Reached d good (.op o k) s (d.step o e s).2 := by
        intro e
        refine ⟨[], [e], List.forall_mem_nil _, Nat.le_refl 1, ?_⟩
        rw [List.nil_append, Device.run_op_cons]
        cases k (d.step o e s).1 <;> rfl
      refine ⟨hone, hone e, ?_⟩
      -- an execution of the rest is one of the whole, with this operation before it
      have hrest := ih (d.step o e s).1 (d.step o e s).2
      refine (hrest.crash_mono ?_).mono ?_
      · rintro t ⟨es, tail, hes, htail, rfl⟩
        exact ⟨e :: es, tail, List.forall_mem_cons.mpr ⟨he, hes⟩, htail, rfl⟩
      · rintro a t ⟨es, hes, hresult, rfl⟩
        exact ⟨e :: es, List.forall_mem_cons.mpr ⟨he, hes⟩, hresult, rfl⟩

end

/-- **Every program comes to an end**, on any sequence of outcomes that is long enough. -/
theorem Device.run_returns (d : Device Op Res ε σ) (p : Prog Op Res α) (turns : Nat → ε) (s : σ) :
    ∃ n, ∀ m, n ≤ m → (d.run p ((List.range m).map turns) s).result.isSome := by
  induction p generalizing turns s with
  | ret a => exact ⟨0, fun m _ => by rw [Device.run_ret]; rfl⟩
  | op o k ih =>
      obtain ⟨n, hn⟩ := ih (d.step o (turns 0) s).1 (fun i => turns (i + 1)) (d.step o (turns 0) s).2
      refine ⟨n + 1, fun m hm => ?_⟩
      obtain ⟨m, rfl⟩ : ∃ m', m = m' + 1 := ⟨m - 1, by omega⟩
      rw [List.range_succ_eq_map, List.map_cons, List.map_map, Device.run_op_cons]
      exact hn m (by omega)

/-! ### Runs that are cut off -/

/-- The outcomes of a run that is cut off: all are good, up to a last one. -/
def CutOff (good : ε → Prop) (es : List ε) : Prop :=
  ∃ init tail : List ε, es = init ++ tail ∧ (∀ e ∈ init, good e) ∧ tail.length ≤ 1

theorem CutOff.mono {good good' : ε → Prop} {es : List ε} (h : CutOff good es) (hgood : ∀ e, good e → good' e) :
    CutOff good' es := by
  obtain ⟨init, tail, rfl, hinit, htail⟩ := h
  exact ⟨init, tail, rfl, fun e he => hgood e (hinit e he), htail⟩

/-- What runs of one program leave that are cut off where their outcomes end. -/
def Device.cutRuns (d : Device Op Res ε σ) (p : Prog Op Res α) (runs : List (List ε)) (s : σ) : σ :=
  runs.foldl (fun s es => (d.run p es s).final) s

/-- **The rule of repeated crashes.** Where a run from `J (k + 1)` that is cut off leaves `J k`, `k` runs may be cut
    off. -/
theorem Device.cutRuns_keeps {d : Device Op Res ε σ} {good : ε → Prop} {p : Prog Op Res α} {J : Nat → σ → Prop}
    {Q : α → σ → Prop} (hstep : ∀ k s, J (k + 1) s → Safe d (crashContract d good (J k)) Q p s ∧ J k s) {g : ε}
    (hg : good g) : ∀ (runs : List (List ε)), (∀ es ∈ runs, CutOff good es) →
      ∀ k s, J (runs.length + k) s → J k (d.cutRuns p runs s) := by
  intro runs
  induction runs with
  | nil =>
      intro _ k s hs
      rwa [List.length_nil, Nat.zero_add] at hs
  | cons es runs ih =>
      intro hruns k s hs
      obtain ⟨⟨init, tail, rfl, hinit, htail⟩, hrest⟩ := List.forall_mem_cons.mp hruns
      rw [List.length_cons, Nat.add_right_comm] at hs
      obtain ⟨hsafe, hnow⟩ := hstep _ s hs
      exact ih hrest k _ (hsafe.crash_sound hnow hg hinit htail)

/-! ## Refinement -/

/-- The operation has not happened, or it has turned out somehow. -/
def Between (d : Device Op Res ε σ) (R : σ' → σ → Prop) (o : Op) (s : σ) (t' : σ') : Prop :=
  R t' s ∨ ∃ e, R t' (d.step o e s).2

/-- The answer and the state are those of an outcome of the operation. -/
def Completes (d : Device Op Res ε σ) (R : σ' → σ → Prop) (good : ε → Prop) (o : Op) (s : σ) (r : Res o) (t' : σ') :
    Prop :=
  ∃ e, good e ∧ (d.step o e s).1 = r ∧ R t' (d.step o e s).2

/-- Each operation of `d`, called as `pre` says, is carried out by a program over `d'`: where the operations
    below turn out as `good'` says, the one above turns out as `good` says. -/
def Implements (d' : Device Op' Res' ε' σ') (d : Device Op Res ε σ) (R : σ' → σ → Prop) (good' : ε' → Prop)
    (good : ε → Prop) (pre : Op → σ → Prop) (impl : (o : Op) → Prog Op' Res' (Res o)) : Prop :=
  ∀ o s' s, pre o s → R s' s →
    Safe d' (crashContract d' good' (Between d R o s)) (Completes d R good o s) (impl o) s'

namespace Implements

variable {d' : Device Op' Res' ε' σ'} {d : Device Op Res ε σ} {R : σ' → σ → Prop} {good' : ε' → Prop}
  {good : ε → Prop} {pre : Op → σ → Prop} {impl : (o : Op) → Prog Op' Res' (Res o)} {s' : σ'} {s : σ}

/-- **Contracts go down.** What a program keeps and ends in, the expanded one keeps and ends in, up to `R`. -/
theorem safe (h : Implements d' d R good' good pre impl) {g : ε} (hg : good g) {I : σ → Prop} {Q : α → σ → Prop}
    {p : Prog Op Res α} (hp : Safe d (callContract d good pre I) Q p s) (hI : I s) (hs : R s' s) :
    Safe d' (crashContract d' good' fun t' => ∃ t, R t' t ∧ I t) (fun a t' => ∃ t, R t' t ∧ Q a t)
      (p.expand impl) s' := by
  induction p generalizing s' s with
  | ret a => exact ⟨s, hs, hp⟩
  | op o k ih =>
      obtain ⟨hpre, hcut⟩ := (hp g hg).1
      have himpl := h o s' s hpre hs
      refine Safe.bind ((himpl.crash_mono ?_).mono ?_)
      · rintro t' (ht | ⟨e, ht⟩)
        · exact ⟨s, ht, hI⟩
        · exact ⟨_, ht, hcut e⟩
      · rintro r t' ⟨e, he, rfl, ht⟩
        exact ih _ (hp e he).2.2 (hcut e) ht

/-- **Each execution below is one above.** Let the operations below turn out well, up to a last one. Then the
    state they end in is that of an execution above whose operations turn out well, up to a last one; and where
    the expanded program returns, the program returns the same. -/
theorem run (h : Implements d' d R good' good pre impl) {g : ε} (hg : good g) {g' : ε'} (hg' : good' g')
    {p : Prog Op Res α} (hcalls : Calls d good pre p s) (hs : R s' s) {es' tail' : List ε'}
    (hes : ∀ e ∈ es', good' e) (htail : tail'.length ≤ 1) :
    (∃ t, R (d'.run (p.expand impl) (es' ++ tail') s').final t ∧ Reached d good p s t)
      ∧ ∀ a, (d'.run (p.expand impl) es' s').result = some a →
        ∃ t, R (d'.run (p.expand impl) es' s').final t ∧ Returned d good p s a t := by
  have hsafe := h.safe hg ((Safe.strongest p s).calls hcalls) (Reached.start p s) hs
  refine ⟨hsafe.crash_sound ⟨s, hs, Reached.start p s⟩ hg' hes htail, ?_⟩
  exact (hsafe.run_sound fun ev hev => hes _ (d'.outcome_mem hev)).2

/-- **Each sequence of runs below that are cut off is one above.** -/
theorem cutRuns (h : Implements d' d R good' good pre impl) {g : ε} (hg : good g) {g' : ε'} (hg' : good' g')
    {p : Prog Op Res α} (hcalls : ∀ s, Calls d good pre p s) (hs : R s' s) (runs' : List (List ε'))
    (hruns' : ∀ es ∈ runs', CutOff good' es) :
    ∃ runs : List (List ε), runs.length = runs'.length ∧ (∀ es ∈ runs, CutOff good es)
      ∧ R (d'.cutRuns (p.expand impl) runs' s') (d.cutRuns p runs s) := by
  induction runs' generalizing s' s with
  | nil => exact ⟨[], rfl, List.forall_mem_nil _, hs⟩
  | cons es' runs' ih =>
      obtain ⟨⟨init, tail, rfl, hinit, htail⟩, hrest⟩ := List.forall_mem_cons.mp hruns'
      obtain ⟨t, ht, es, last, hes, hlast, rfl⟩ := (h.run hg hg' (hcalls s) hs hinit htail).1
      obtain ⟨runs, hlen, hruns, hends⟩ := ih ht hrest
      refine ⟨(es ++ last) :: runs, by rw [List.length_cons, List.length_cons, hlen], ?_, hends⟩
      exact List.forall_mem_cons.mpr ⟨⟨es, last, rfl, hes, hlast⟩, hruns⟩

end Implements

/-! ### Histories -/

/-- What a history of executions leaves: each entry runs `prog i` with its outcomes. -/
def Device.leaves (d : Device Op Res ε σ) (prog : ι → Prog Op Res α) (runs : List (ι × List ε)) (s : σ) : σ :=
  runs.foldl (fun s run => (d.run (prog run.1) run.2 s).final) s

/-- **Each history below is one above**, of the same programs in the same order, where the programs do what the
    operations may do however the operations below turn out. -/
theorem Implements.history {d' : Device Op' Res' ε' σ'} {d : Device Op Res ε σ} {R : σ' → σ → Prop}
    {good' : ε' → Prop} {good : ε → Prop} {pre : Op → σ → Prop} {impl : (o : Op) → Prog Op' Res' (Res o)}
    (h : Implements d' d R good' good pre impl) (hall : ∀ e, good' e) (g' : ε') {g : ε} (hg : good g)
    (prog : ι → Prog Op Res α) (hcalls : ∀ i s, Calls d good pre (prog i) s) {s' : σ'} {s : σ} (hs : R s' s)
    (runs' : List (ι × List ε')) :
    ∃ runs : List (ι × List ε), runs.map Prod.fst = runs'.map Prod.fst
      ∧ R (d'.leaves (fun i => (prog i).expand impl) runs' s') (d.leaves prog runs s) := by
  induction runs' generalizing s' s with
  | nil => exact ⟨[], rfl, hs⟩
  | cons run' runs' ih =>
      obtain ⟨i, es'⟩ := run'
      have hnone : ([] : List ε').length ≤ 1 := Nat.zero_le 1
      obtain ⟨t, ht, es, tail, _, _, rfl⟩ :=
        (h.run hg (hall g') (hcalls i s) hs (fun e (_ : e ∈ es') => hall e) hnone).1
      rw [List.append_nil] at ht
      obtain ⟨runs, hlabels, hruns⟩ := ih ht
      exact ⟨(i, es ++ tail) :: runs, by rw [List.map_cons, List.map_cons, hlabels], hruns⟩

end LibUpdate
