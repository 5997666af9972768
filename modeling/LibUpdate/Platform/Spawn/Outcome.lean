import LibUpdate.Platform.Spawn.Verdict

/-!
# `Platform.Spawn.Outcome` — how starting a program turns out

To a caller, a call that comes to the `fork` is one of five: `Child`. Here the machine of parent and child is
shown to have these outcomes and no others (`endsAs_anything`, `shows_of_run`), and without hidden failures the first
three of them only (`EndsAs.answer_right`). A model that has its callers see a `Child` says what the machine says.
-/

namespace LibUpdate

/-- What becomes of the child, and what its parent sees of it. -/
inductive Child where
  /-- `fork` fails. -/
  | none
  /-- No program runs, and the parent sees it: the child writes its byte, or the parent cannot read. -/
  | execFailed
  /-- The program runs: its end of the pipe is closed, and the parent reads the end of the file. -/
  | running
  /-- No program runs, and the parent reads the end of the file all the same: the child is killed before `execv`, or
      before it has written its byte, or cannot write it. -/
  | lost
  /-- The program runs, but the `read` of the parent fails, and it takes the call for one that failed. -/
  | unseen
  deriving DecidableEq, Repr

namespace Child

/-- The parent reads the end of the file, which it takes for success. -/
def endOfFile : Child → Bool
  | running => true
  | lost => true
  | _ => false

/-- The program runs. -/
def runs : Child → Bool
  | running => true
  | unseen => true
  | _ => false

/-- Success that is rightly seen is a program that runs. -/
theorem eq_running {child : Child} (hend : child.endOfFile = true) (hright : child.endOfFile = child.runs) :
    child = running := by
  cases child with
  | running => rfl
  | lost => cases hright
  | _ => cases hend

end Child

namespace Spawn

variable {c : Call} {s : St}

/-- The child is not on its way to the program any more. -/
def St.settled (s : St) : Prop := ∀ code, s.child ≠ .own code

/-- What a call that has returned shows of the child: the answer, whether there was a child, and whether the program
    runs. By these three a `Child` stands for a run of the machine. -/
structure Shows (s : St) (rc : Code) (child : LibUpdate.Child) : Prop where
  answer : rc = .ok ↔ child.endOfFile = true
  born : s.child = .unborn ↔ child = .none
  runs : s.started = true ↔ child.runs = true

/-- In some order of the steps, with the failures that are allowed, the call returns, the child comes to the program
or to its end, and all of it shows as this outcome. -/
def EndsAs (allowed : St → Act → Bool) (c : Call) (child : LibUpdate.Child) : Prop :=
  ∃ acts s rc, (machine c).run allowed start acts = some s ∧ s.parent = .returned rc ∧ s.settled ∧ Shows s rc child

/-! ## Every call shows as an outcome -/

/-- Before the `fork`, or where it has failed or has never been come to. -/
def Parent.childless : Parent → Bool
  | .release rc => rc != .ok
  | .returned rc => rc != .ok
  | p => p.alone

/-- Without a child nothing is started, and the parent does not return `PLATFORM_OK`. -/
def Childless (s : St) : Prop := s.child = .unborn → s.started = false ∧ s.parent.childless = true

theorem Edge.childless {n : Nat} {p q : Parent} (h : Edge n p q) (hp : p.childless = true) : q.childless = true := by
  cases h <;> simp_all [Parent.childless, Parent.alone]

theorem Childless.step {a : Act} {t : St} (hs : Childless s) (h : Spawn.step c s a = some t) : Childless t := by
  intro hunborn
  cases a with
  | parent e =>
      cases parentStep_move h with
      | edge hedge hchild =>
          simp only [St.childSide, Prod.mk.injEq] at hchild
          obtain ⟨hstarted, hp⟩ := hs (hchild.1 ▸ hunborn)
          exact ⟨hchild.2.2.2.trans hstarted, hedge.childless hp⟩
      | fork hp ht hchild => cases hchild.symm.trans hunborn
      | byte hp ht hchild =>
          simp only [St.childSide, Prod.mk.injEq] at hchild
          obtain ⟨-, hchildless⟩ := hs (hchild.1 ▸ hunborn)
          rw [hp] at hchildless
          cases hchildless
      | bury hp ht hchild => cases hchild.symm.trans hunborn
  | child e => exact absurd hunborn (childStep_move h).born.1
  | dies =>
      obtain ⟨rfl, -⟩ := step_dies h
      cases hunborn

theorem childless_run {allowed : St → Act → Bool} {acts : List Act}
    (hrun : (machine c).run allowed start acts = some s) : Childless s :=
  Machine.run_invariant Childless (fun _ _ _ hs _ h => hs.step h) hrun (fun _ => ⟨rfl, rfl⟩)

/-- **Every call that returns shows as an outcome.** -/
theorem shows_of_run {allowed : St → Act → Bool} {acts : List Act} {rc : Code}
    (hrun : (machine c).run allowed start acts = some s) (hrc : s.parent = .returned rc) :
    ∃ child, Shows s rc child := by
  by_cases hborn : s.child = .unborn
  · obtain ⟨hstarted, hchildless⟩ := childless_run hrun hborn
    have hnot : rc ≠ .ok := by
      rw [hrc] at hchildless
      simpa [Parent.childless] using hchildless
    exact ⟨.none, by simp [hnot, Child.endOfFile], by simp [hborn], by simp [hstarted, Child.runs]⟩
  · by_cases hok : rc = .ok
    · cases hstarted : s.started with
      | true => exact ⟨.running, by simp [hok, Child.endOfFile], by simp [hborn], by simp [hstarted, Child.runs]⟩
      | false => exact ⟨.lost, by simp [hok, Child.endOfFile], by simp [hborn], by simp [hstarted, Child.runs]⟩
    · cases hstarted : s.started with
      | true => exact ⟨.unseen, by simp [hok, Child.endOfFile], by simp [hborn], by simp [hstarted, Child.runs]⟩
      | false =>
          exact ⟨.execFailed, by simp [hok, Child.endOfFile], by simp [hborn], by simp [hstarted, Child.runs]⟩

/-! ## Every outcome is one of a call -/

/-- The call has come to the `fork`. -/
def atFork (c : Call) : St :=
  { start with parent := .fork, table := true, copies := c.words, readEnd := true, writeEnd := true }

/-- The acts up to the `fork`. -/
def toFork (c : Call) : List Act :=
  .parent .done :: .parent .done :: (.replicate c.words.length (.parent .done) ++ [.parent .done, .parent .done])

/-- The first words are copied. -/
def copying (c : Call) (i : Nat) : St :=
  { start with parent := .duplicate i, table := true, copies := c.words.take i }

theorem run_copying (allowed : St → Act → Bool) (hallowed : ∀ s, s.parent ≠ .read → allowed s (.parent .done) = true)
    (left i : Nat) (hi : i + left = c.words.length) :
    (machine c).run allowed (copying c i) (.replicate left (.parent .done)) = some (copying c c.words.length) := by
  induction left generalizing i with
  | zero =>
      rw [Nat.add_zero] at hi
      rw [hi]
      rfl
  | succ left ih =>
      have hlt : i < c.words.length := by omega
      have hword : c.words[i]? = some c.words[i] := List.getElem?_eq_getElem hlt
      have hstep : parentStep c (copying c i) .done = some (copying c (i + 1)) := by
        simp only [parentStep, copying, hword, if_true, take_next hword]
      rw [List.replicate_succ]
      exact Machine.run_cons.mpr ⟨hallowed _ nofun, _, hstep, ih (i + 1) (by omega)⟩

/-- Arguments that are not refused lead to the `fork`. -/
theorem run_toFork (allowed : St → Act → Bool) (hallowed : ∀ s, s.parent ≠ .read → allowed s (.parent .done) = true)
    (hc : c.refused = false) : (machine c).run allowed start (toFork c) = some (atFork c) := by
  have hcheck : parentStep c start .done = some { start with parent := .allocate } := by
    simp only [parentStep, start, hc, Bool.false_eq_true, if_false]
  have hcopied : parentStep c (copying c c.words.length) .done
      = some { copying c c.words.length with parent := .makePipe } := by
    have hend : c.words[c.words.length]? = none := List.getElem?_eq_none (Nat.le_refl _)
    simp only [parentStep, copying, hend]
  have hpiped : parentStep c { copying c c.words.length with parent := .makePipe } .done = some (atFork c) := by
    simp only [parentStep, copying, atFork, if_true, List.take_length]
  refine Machine.run_cons.mpr ⟨hallowed _ nofun, _, hcheck, Machine.run_cons.mpr ⟨hallowed _ nofun, copying c 0, rfl, ?_⟩⟩
  rw [Machine.run_append (run_copying allowed hallowed c.words.length 0 (Nat.zero_add _))]
  exact Machine.run_cons.mpr
    ⟨hallowed _ nofun, _, hcopied, Machine.run_cons.mpr ⟨hallowed _ nofun, _, hpiped, rfl⟩⟩

/-- What happens from the `fork` on. -/
def afterFork : LibUpdate.Child → List Act
  | .none => [.parent .failed, .parent .done, .parent .done]
  | .execFailed =>
      .parent .done :: .replicate 4 (.child .done) ++ .child .failed :: .replicate 3 (.child .done)
        ++ .replicate 5 (.parent .done)
  | .running => .parent .done :: .replicate 5 (.child .done) ++ .replicate 4 (.parent .done)
  -- the child is killed before it has done anything
  | .lost => .parent .done :: .dies :: .replicate 4 (.parent .done)
  -- the parent cannot read, and waits for the program
  | .unseen =>
      .parent .done :: .replicate 5 (.child .done) ++ [.parent .done, .parent .failed, .parent .done, .dies]
        ++ .replicate 2 (.parent .done)

/-- A call that comes to the `fork` ends as the child does. -/
theorem EndsAs.of_fork {allowed : St → Act → Bool} {child : LibUpdate.Child} {rc : Code}
    (hfork : (machine c).run allowed start (toFork c) = some (atFork c))
    (hrun : (machine c).run allowed (atFork c) (afterFork child) = some s) (hrc : s.parent = .returned rc)
    (hsettled : s.settled) (hshows : Shows s rc child) : EndsAs allowed c child :=
  ⟨toFork c ++ afterFork child, s, rc, (Machine.run_append hfork).trans hrun, hrc, hsettled, hshows⟩

/-- A call without hidden failures. -/
theorem endsAs_heard (hc : c.refused = false) {child : LibUpdate.Child}
    (hchild : child.endOfFile = child.runs) : EndsAs heard c child := by
  have hfork := run_toFork heard (fun s _ => by simp [heard]) hc
  cases child with
  | none =>
      exact .of_fork hfork rfl rfl (fun _ hown => by cases hown)
        ⟨by simp [Child.endOfFile], by simp [atFork, start], by simp [atFork, start, Child.runs]⟩
  | execFailed =>
      exact .of_fork hfork rfl rfl (fun _ hown => by cases hown)
        ⟨by simp [Child.endOfFile], by simp, by simp [St.childGone, atFork, start, Child.runs]⟩
  | running =>
      exact .of_fork hfork rfl rfl (fun _ hown => by cases hown)
        ⟨by simp [Child.endOfFile], by simp, by simp [Child.runs]⟩
  | lost => cases hchild
  | unseen => cases hchild

/-- **Every outcome is one of a call**, whatever the arguments are, if they are not refused. -/
theorem endsAs_anything (hc : c.refused = false) (child : LibUpdate.Child) : EndsAs anything c child := by
  have hfork := run_toFork anything (fun _ _ => rfl) hc
  by_cases hchild : child.endOfFile = child.runs
  · obtain ⟨acts, s, rc, hrun, hrest⟩ := endsAs_heard hc hchild
    exact ⟨acts, s, rc, Machine.run_mono (fun _ _ _ => rfl) hrun, hrest⟩
  cases child with
  | lost =>
      exact .of_fork hfork rfl rfl (fun _ hown => by cases hown)
        ⟨by simp [Child.endOfFile], by simp [St.childGone], by simp [St.childGone, atFork, start, Child.runs]⟩
  | unseen =>
      exact .of_fork hfork rfl rfl (fun _ hown => by cases hown)
        ⟨by simp [Child.endOfFile], by simp, by simp [St.childGone, Child.runs]⟩
  | _ => exact absurd rfl hchild

/-- **Without hidden failures the parent's answer is right.** -/
theorem EndsAs.answer_right {child : LibUpdate.Child} (h : EndsAs heard c child) : child.endOfFile = child.runs := by
  obtain ⟨acts, s, rc, hrun, hrc, -, hshows⟩ := h
  rw [Bool.eq_iff_iff, ← hshows.answer, ← hshows.runs]
  exact (sound_run hrun).told.started_iff hrc

end Spawn

end LibUpdate
