/-!
# `Foundation.Prog` — programs over a device whose operations may fail

A program performs operations on a device and branches on their answers. How one operation turns out
is decided by an outcome that the environment picks; an execution is given by the list of the outcomes,
in order, and it crashes where the list ends. A crash inside an operation is an outcome that leaves its
work half done, followed by the end of the list.

`Device.run` gives the operations performed, the state at the end and the value returned, if the program
came to return one. A history is a list of executions, each starting in the state the one before it left.
-/

namespace LibUpdate

/-- Programs that perform operations `Op`, each answered in `Res`, and return an `α`. -/
inductive Prog (Op : Type) (Res : Op → Type) (α : Type) where
  | ret (a : α)
  | op (o : Op) (k : Res o → Prog Op Res α)

namespace Prog

variable {Op : Type} {Res : Op → Type} {α β : Type}

def bind : Prog Op Res α → (α → Prog Op Res β) → Prog Op Res β
  | ret a, f => f a
  | op o k, f => op o fun r => (k r).bind f

instance : Monad (Prog Op Res) where
  pure := ret
  bind := bind

/-- Performs one operation. -/
def perform (o : Op) : Prog Op Res (Res o) := op o ret

@[simp] theorem pure_eq (a : α) : (pure a : Prog Op Res α) = ret a := rfl

@[simp] theorem perform_bind (o : Op) (f : Res o → Prog Op Res β) : (perform o >>= f) = op o f := rfl

theorem bind_assoc {γ : Type} (p : Prog Op Res α) (f : α → Prog Op Res β) (g : β → Prog Op Res γ) :
    ((p >>= f) >>= g) = p >>= fun a => f a >>= g := by
  induction p with
  | ret a => rfl
  | op o k ih => exact congrArg (op o) (funext ih)

/-- What a program returns where the operations are answered by anything that has a state. -/
def eval {σ : Type} (answer : (o : Op) → σ → Res o × σ) : Prog Op Res α → σ → α
  | ret a, _ => a
  | op o k, s => (k (answer o s).1).eval answer (answer o s).2

theorem eval_bind_ret {σ : Type} (answer : (o : Op) → σ → Res o × σ) (p : Prog Op Res α) (f : α → β) (s : σ) :
    (p >>= fun a => ret (f a)).eval answer s = f (p.eval answer s) := by
  induction p generalizing s with
  | ret a => rfl
  | op o k ih => exact ih _ _

end Prog

/-- A program over operations that are among those of a larger device, where they are answered the same. -/
def Prog.embed {Op Op' : Type} {Res : Op → Type} {Res' : Op' → Type} {α : Type} (on : Op → Op')
    (answer : ∀ o, Res' (on o) → Res o) : Prog Op Res α → Prog Op' Res' α
  | .ret a => .ret a
  | .op o k => .op (on o) fun r => (k (answer o r)).embed on answer

/-- The program returns after at most `n` operations, whatever they answer. -/
inductive Prog.AtMost {Op : Type} {Res : Op → Type} {α : Type} : Nat → Prog Op Res α → Prop where
  | ret {n : Nat} {a : α} : AtMost n (.ret a)
  | op {n : Nat} {o : Op} {k : Res o → Prog Op Res α} (h : ∀ r, AtMost n (k r)) : AtMost (n + 1) (.op o k)

namespace Prog.AtMost

variable {Op : Type} {Res : Op → Type} {α β : Type}

theorem mono {p : Prog Op Res α} {n m : Nat} (h : p.AtMost n) (hnm : n ≤ m) : p.AtMost m := by
  induction h generalizing m with
  | ret => exact .ret
  | op h ih =>
      obtain ⟨m, rfl⟩ : ∃ m', m = m' + 1 := ⟨m - 1, by omega⟩
      exact .op fun r => ih r (by omega)

theorem perform {o : Op} {f : Res o → Prog Op Res β} {n : Nat} (h : ∀ r, (f r).AtMost n) :
    (Prog.perform o >>= f).AtMost (n + 1) := .op h

end Prog.AtMost

/-- Every operation that the program may come to is as `P` says. -/
inductive Prog.Only {Op : Type} {Res : Op → Type} {α : Type} (P : Op → Prop) : Prog Op Res α → Prop where
  | ret {a : α} : Only P (.ret a)
  | op {o : Op} {k : Res o → Prog Op Res α} (ho : P o) (hk : ∀ r, Only P (k r)) : Only P (.op o k)

namespace Prog.Only

variable {Op : Type} {Res : Op → Type} {α β : Type} {P : Op → Prop}

theorem bind {p : Prog Op Res α} {f : α → Prog Op Res β} (hp : p.Only P) (hf : ∀ a, (f a).Only P) :
    (p >>= f).Only P := by
  induction hp with
  | ret => exact hf _
  | op ho _ ih => exact .op ho ih

theorem perform {o : Op} {f : Res o → Prog Op Res β} (ho : P o) (hf : ∀ r, (f r).Only P) :
    (Prog.perform o >>= f).Only P := .op ho hf

theorem mono {P' : Op → Prop} (h : ∀ o, P o → P' o) {p : Prog Op Res α} (hp : p.Only P) : p.Only P' := by
  induction hp with
  | ret => exact .ret
  | op ho _ ih => exact .op (h _ ho) ih

theorem embed {Op' : Type} {Res' : Op' → Type} {P' : Op' → Prop} {on : Op → Op'} {answer : ∀ o, Res' (on o) → Res o}
    (hon : ∀ o, P o → P' (on o)) {p : Prog Op Res α} (hp : p.Only P) : (p.embed on answer).Only P' := by
  induction hp with
  | ret => exact .ret
  | op ho _ ih => exact .op (hon _ ho) fun r => ih _

end Prog.Only

/-- A device: how each operation answers and changes the state, for each outcome. -/
structure Device (Op : Type) (Res : Op → Type) (ε σ : Type) where
  step : (o : Op) → ε → σ → Res o × σ

/-- An operation performed: what it was, how it turned out, and the state it started in. -/
structure Event (Op ε σ : Type) where
  op : Op
  outcome : ε
  before : σ

/-- An execution: the operations performed, the state at the end, the value returned. -/
structure Run (Op ε σ α : Type) where
  events : List (Event Op ε σ)
  final : σ
  result : Option α

namespace Device

variable {Op : Type} {Res : Op → Type} {ε σ α β ι : Type} (d : Device Op Res ε σ)

/-- The state an event leaves. -/
def after (ev : Event Op ε σ) : σ := (d.step ev.op ev.outcome ev.before).2

/-- Executes a program until it returns or the outcomes end. -/
def run : Prog Op Res α → List ε → σ → Run Op ε σ α
  | .ret a, _, s => ⟨[], s, some a⟩
  | .op _ _, [], s => ⟨[], s, none⟩
  | .op o k, e :: es, s =>
      let r := run (k (d.step o e s).1) es (d.step o e s).2
      { r with events := ⟨o, e, s⟩ :: r.events }

@[simp] theorem run_ret (a : α) (es : List ε) (s : σ) :
    d.run (.ret a : Prog Op Res α) es s = ⟨[], s, some a⟩ := by
  cases es <;> rfl

@[simp] theorem run_op_nil (o : Op) (k : Res o → Prog Op Res α) (s : σ) :
    d.run (.op o k) [] s = ⟨[], s, none⟩ := rfl

@[simp] theorem run_op_cons (o : Op) (k : Res o → Prog Op Res α) (e : ε) (es : List ε) (s : σ) :
    d.run (.op o k) (e :: es) s
      = { d.run (k (d.step o e s).1) es (d.step o e s).2 with
          events := ⟨o, e, s⟩ :: (d.run (k (d.step o e s).1) es (d.step o e s).2).events } := rfl

/-- What an execution ends in after its first operation. -/
theorem final_perform {o : Op} {f : Res o → Prog Op Res α} {e : ε} {es : List ε} {s t : σ} {r : Res o}
    (h : d.step o e s = (r, t)) :
    (d.run (Prog.perform o >>= f) (e :: es) s).final = (d.run (f r) es t).final := by
  rw [Prog.perform_bind, run_op_cons, h]

/-- An execution that returns has performed the first operation. -/
theorem result_perform {o : Op} {f : Res o → Prog Op Res α} {es : List ε} {s : σ} {a : α}
    (h : (d.run (Prog.perform o >>= f) es s).result = some a) :
    ∃ e es' r t, es = e :: es' ∧ d.step o e s = (r, t) ∧ (d.run (f r) es' t).result = some a
      ∧ (d.run (Prog.perform o >>= f) es s).final = (d.run (f r) es' t).final := by
  rw [Prog.perform_bind] at h ⊢
  cases es with
  | nil => simp at h
  | cons e es' => exact ⟨e, es', _, _, rfl, rfl, h, rfl⟩

/-- The state an execution ends in is the last one an operation left. -/
theorem final_mem (p : Prog Op Res α) (es : List ε) (s : σ) :
    (d.run p es s).final = s ∨ ∃ ev ∈ (d.run p es s).events, (d.run p es s).final = d.after ev := by
  induction p generalizing es s with
  | ret a => simp
  | op o k ih =>
      cases es with
      | nil => simp
      | cons e es =>
          right
          rcases ih (d.step o e s).1 es (d.step o e s).2 with h | ⟨ev, hmem, h⟩
          · exact ⟨⟨o, e, s⟩, by simp, by simpa [after] using h⟩
          · exact ⟨ev, by simp [hmem], by simpa using h⟩

/-- **Invariants of a device.** What every operation keeps holds along every execution of every program. -/
theorem run_invariant {inv : σ → Prop} (hstep : ∀ o e s, inv s → inv (d.step o e s).2)
    (p : Prog Op Res α) (es : List ε) {s : σ} (hs : inv s) :
    ∀ ev ∈ (d.run p es s).events, inv (d.after ev) := by
  induction p generalizing es s with
  | ret a => simp
  | op o k ih =>
      cases es with
      | nil => simp
      | cons e es =>
          have hafter : inv (d.step o e s).2 := hstep o e s hs
          intro ev hev
          rw [run_op_cons] at hev
          rcases List.mem_cons.mp hev with rfl | hev
          · exact hafter
          · exact ih _ es hafter ev hev

/-- What every operation keeps under the outcomes of a run holds in the state that it ends in. -/
theorem final_invariant {inv : σ → Prop} (p : Prog Op Res α) {es : List ε}
    (hstep : ∀ e ∈ es, ∀ o s, inv s → inv (d.step o e s).2) {s : σ} (hs : inv s) : inv (d.run p es s).final := by
  induction p generalizing es s with
  | ret a => exact hs
  | op o k ih =>
      cases es with
      | nil => exact hs
      | cons e es =>
          have hafter : inv (d.step o e s).2 := hstep e List.mem_cons_self o s hs
          exact ih _ (fun e' he' => hstep e' (List.mem_cons_of_mem e he')) hafter

/-- Events turn out as the list says. -/
theorem outcome_mem {p : Prog Op Res α} {es : List ε} {s : σ} {ev : Event Op ε σ}
    (h : ev ∈ (d.run p es s).events) : ev.outcome ∈ es := by
  induction p generalizing es s with
  | ret a => simp at h
  | op o k ih =>
      cases es with
      | nil => simp at h
      | cons e es =>
          rw [run_op_cons] at h
          rcases List.mem_cons.mp h with rfl | h
          · exact List.mem_cons_self
          · exact List.mem_cons_of_mem _ (ih _ h)

/-- One more outcome: either the program has returned, or it performs one more operation. -/
theorem run_snoc (p : Prog Op Res α) (es : List ε) (s : σ) :
    ((d.run p es s).result.isSome ∧ ∀ e, d.run p (es ++ [e]) s = d.run p es s)
      ∨ ∃ o, ∀ e, ⟨o, e, (d.run p es s).final⟩ ∈ (d.run p (es ++ [e]) s).events
          ∧ (d.run p (es ++ [e]) s).final = (d.step o e (d.run p es s).final).2 := by
  induction p generalizing es s with
  | ret a => exact Or.inl ⟨by simp, fun e => by simp⟩
  | op o k ih =>
      cases es with
      | nil =>
          refine Or.inr ⟨o, fun e => ?_⟩
          cases hk : k (d.step o e s).1 <;> simp [hk]
      | cons e' es =>
          rcases ih (d.step o e' s).1 es (d.step o e' s).2 with ⟨hsome, heq⟩ | ⟨o', h⟩
          · exact Or.inl ⟨by simpa using hsome, fun e => by simp [heq e]⟩
          · refine Or.inr ⟨o', fun e => ?_⟩
            obtain ⟨hmem, hfinal⟩ := h e
            exact ⟨by simp [hmem], by simpa using hfinal⟩

/-- A program that is given as many outcomes as it performs operations returns. -/
theorem result_isSome_of_atMost {p : Prog Op Res α} {n : Nat} (h : p.AtMost n) {es : List ε}
    (hn : n ≤ es.length) (s : σ) : (d.run p es s).result.isSome := by
  induction h generalizing es s with
  | ret => simp
  | op h ih =>
      cases es with
      | nil => simp at hn
      | cons e es =>
          simp only [List.length_cons, Nat.add_le_add_iff_right] at hn
          simpa using ih _ hn _

/-- A program reads no more outcomes than it may perform operations. -/
theorem outcome_mem_take {p : Prog Op Res α} {n : Nat} (h : p.AtMost n) {es : List ε} {s : σ} {ev : Event Op ε σ}
    (hev : ev ∈ (d.run p es s).events) : ev.outcome ∈ es.take n := by
  induction h generalizing es s with
  | ret => simp at hev
  | op h ih =>
      cases es with
      | nil => simp at hev
      | cons e es =>
          rw [run_op_cons] at hev
          rw [List.take_succ_cons]
          rcases List.mem_cons.mp hev with rfl | hev
          · exact List.mem_cons_self
          · exact List.mem_cons_of_mem _ (ih _ hev)

/-- The operations of a history of executions, in order: each entry runs `prog i` with its outcomes,
    and its operations carry the label `i`. -/
def history (prog : ι → Prog Op Res α) : List (ι × List ε) → σ → List (ι × Event Op ε σ)
  | [], _ => []
  | (i, es) :: rest, s =>
      (d.run (prog i) es s).events.map (fun ev => (i, ev)) ++ history prog rest (d.run (prog i) es s).final

end Device

end LibUpdate
