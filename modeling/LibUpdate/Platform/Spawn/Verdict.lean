import LibUpdate.Platform.Spawn.Return

/-!
# `Platform.Spawn.Verdict` — what the parent learns

The parent reads the end of the pipe where the program runs, and a byte where it does not (`Told`). It is wrong
only where the child dies, or cannot write, before it comes to the program.
-/

namespace LibUpdate

namespace Spawn

variable {c : Call} {s t : St} {e : Ending}

/-! ## What the parent learns -/

/-- Nothing happens that the pipe cannot show: the child is not killed before it comes to the program or has
written its byte, `fcntl` and the `write` come off, and `read` fails with `EINTR` only. -/
def heard (s : St) : Act → Bool
  | .parent e => !(s.parent == .read && e == .failed)
  | .child e => !((s.child == .own .setCloexec || s.child == .own .report) && e != .done)
  | .dies => match s.child with
    | .own code => code == .closeWrite || code == .exit
    | _ => true

/-- The child has given up. -/
def St.gaveUp (s : St) : Bool := !s.started && (s.child.afterExec || s.child == .reaped)

def Parent.asks : Parent → Bool
  | .closeWrite => true
  | .read => true
  | _ => false

structure Told (s : St) : Prop where
  unstarted : ∀ code, s.child = .own code → s.started = false
  running : ∀ i, s.child = .image i → s.started = true
  sent : s.parent.asks = true → (s.bytes = 0 ↔ s.gaveUp = false)
  byte : s.parent.toldByByte = true → s.gaveUp = true
  endOfFile : s.parent = .closeRead .endOfFile → s.started = true
  verdict : ∀ rc, s.parent = .release rc ∨ s.parent = .returned rc →
    if rc = .ok then s.started = true else s.gaveUp = true ∨ (s.child = .unborn ∧ s.started = false)
  alone : s.parent.alone = true → s.started = false

theorem unblocked_of_heard {a : Act} (h : heard s a = true) : unblocked s a = true := by
  cases a with
  | parent e => exact h
  | child e =>
      by_cases hc : s.child = .own .setCloexec
      · simpa [heard, unblocked, hc] using h
      · simp [unblocked, hc]
  | dies => rfl

/-- The end of the file is read only where the program runs, or has run. -/
theorem Told.started_of_end (hs : Told s) (hm : Moving s) (hside : Tidy c s) (hread : s.parent = .read)
    (hbytes : s.bytes = 0) (hwrite : s.childWrite = false) : s.started = true := by
  have hgave := (hs.sent (by rw [hread]; rfl)).mp hbytes
  obtain ⟨hborn, hhere⟩ := hm.born (by rw [hread]; rfl)
  rw [hside.child.writeEnd] at hwrite
  cases hc : s.child with
  | unborn => exact absurd hc hborn
  | own code => cases code <;> simp_all [Child.holdsWrite, St.gaveUp, Child.afterExec]
  | image i => exact hs.running i hc
  | dead => simpa [St.gaveUp, hc, Child.afterExec] using hgave
  | reaped => exact absurd hc hhere

theorem gaveUp_congr (h : t.childSide = s.childSide) : t.gaveUp = s.gaveUp := by
  simp only [St.childSide, Prod.mk.injEq] at h
  rw [St.gaveUp, St.gaveUp, h.1, h.2.2.2]

theorem Edge.asks {n : Nat} {p q : Parent} (h : Edge n p q) (hq : q.asks = true) : p.asks = true := by
  cases h <;> simp_all [Parent.asks]

/-- Where a return comes from. -/
theorem Edge.verdict {n : Nat} {p q : Parent} (h : Edge n p q) {rc : Code} (hq : q = .release rc ∨ q = .returned rc) :
    (p = .release rc ∨ p = .returned rc) ∨ (rc ≠ .ok ∧ p.alone = true) ∨ (rc = .ok ∧ p = .closeRead .endOfFile)
      ∨ (rc = .io ∧ p = .wait) := by
  cases h <;> rcases hq with hq | hq <;> cases hq <;> simp [Parent.alone]

theorem Told.edge (hs : Told s) (hm : Moving s) (hside : Tidy c s) {n : Nat} (hedge : Edge n s.parent t.parent)
    (hchild : t.childSide = s.childSide) (hbytes : t.bytes = s.bytes)
    (hend : t.parent = .closeRead .endOfFile → s.bytes = 0 ∧ s.childWrite = false) : Told t := by
  obtain ⟨halone, -, htold⟩ := hedge.backwards hm.heard
  have hgave := gaveUp_congr hchild
  simp only [St.childSide, Prod.mk.injEq] at hchild
  obtain ⟨hchild, -, -, hstarted⟩ := hchild
  refine ⟨?_, ?_, fun hasks => ?_, fun hbyte => ?_, fun heof => ?_, fun rc hrc => ?_, fun h => ?_⟩
  · rw [hchild, hstarted]
    exact hs.unstarted
  · rw [hchild, hstarted]
    exact hs.running
  · rw [hbytes, hgave]
    exact hs.sent (hedge.asks hasks)
  · rw [hgave]
    exact hs.byte (htold hbyte)
  · rw [hstarted]
    obtain ⟨hzero, hwrite⟩ := hend heof
    have hread : s.parent = .read := by
      rw [heof] at hedge
      generalize s.parent = p at hedge
      cases hedge
      rfl
    exact hs.started_of_end hm hside hread hzero hwrite
  · rw [hstarted, hgave, hchild]
    rcases hedge.verdict hrc with hp | ⟨hne, hp⟩ | ⟨rfl, hp⟩ | ⟨rfl, hp⟩
    · exact hs.verdict rc hp
    · rw [if_neg hne]
      exact Or.inr ⟨(hm.alone hp).1, hs.alone hp⟩
    · rw [if_pos rfl]
      exact hs.endOfFile hp
    · have hne : Code.io ≠ .ok := by decide
      rw [if_neg hne]
      exact Or.inl (hs.byte (by rw [hp]; rfl))
  · rw [hstarted]
    exact hs.alone (halone h)

theorem Told.parentStep (hs : Told s) (hm : Moving s) (hside : Tidy c s) (h : parentStep c s e = some t) : Told t := by
  cases parentStep_move h with
  | edge hedge hchild hbytes hend => exact hs.edge hm hside hedge hchild hbytes hend
  | fork hp ht hchild hbytes hstarted =>
      have halone : s.parent.alone = true := by rw [hp]; rfl
      have hempty := (hm.alone halone).2
      have hunstarted := hs.alone halone
      constructor <;>
        simp [ht, hchild, hbytes, hempty, hstarted, hunstarted, St.gaveUp, Child.afterExec, Parent.toldByByte]
  | byte hp ht hchild hbytes =>
      have hgave := gaveUp_congr hchild
      have hasked : s.parent.asks = true := by rw [hp]; rfl
      have hafter : s.gaveUp = true := by
        have hsent := hs.sent hasked
        cases hg : s.gaveUp with
        | true => rfl
        | false =>
            have hzero := hsent.mpr hg
            omega
      simp only [St.childSide, Prod.mk.injEq] at hchild
      refine ⟨?_, ?_, ?_, fun _ => hgave.trans hafter, ?_, ?_, ?_⟩
      · rw [hchild.1, hchild.2.2.2]
        exact hs.unstarted
      · rw [hchild.1, hchild.2.2.2]
        exact hs.running
      · simp [ht, Parent.asks]
      · simp [ht]
      · simp [ht]
      · simp [ht, Parent.alone]
  | bury hp ht hchild hdead hstarted =>
      have hgave := hs.byte (by rw [hp]; rfl)
      simp only [St.gaveUp, Bool.and_eq_true, Bool.not_eq_true'] at hgave
      constructor <;>
        simp [ht, hchild, hstarted, hgave.1, St.gaveUp, Parent.asks, Parent.toldByByte, Parent.alone]

theorem Tidy.readEnd_of_asks (hs : Tidy c s) (h : s.parent.asks = true) : s.readEnd = true := by
  have hheld := hs.parent.held
  cases hp : s.parent <;> simp_all [Parent.asks, St.held, Parent.holds]

/-- Where the child goes on, it has not been started, and the parent still asks, or has been told. -/
theorem Told.childStep (hs : Told s) (hm : Moving s) (hside : Tidy c s) (ha : heard s (.child e) = true)
    (h : childStep c s e = some t) : Told t := by
  have hmove := childStep_move h
  obtain ⟨code, hc⟩ := hmove.own
  have hunstarted := hs.unstarted code hc
  have hgave : s.gaveUp = s.child.afterExec := by simp [St.gaveUp, hunstarted, hc]
  have hgave' : t.gaveUp = true → s.gaveUp = true ∨ s.child = .own .report := by
    intro ht
    simp only [St.gaveUp, Bool.and_eq_true, Bool.or_eq_true, beq_iff_eq] at ht
    rcases ht.2 with hafter | hreaped
    · rw [hgave]
      exact hmove.unreported hafter
    · exact absurd hreaped hmove.born.2
  have hkeep : s.gaveUp = true → t.gaveUp = true := by
    intro hg
    have hafter : s.child.afterExec = true := hgave ▸ hg
    have hexec : s.child ≠ .own .exec := by
      intro hexec
      rw [hexec] at hafter
      cases hafter
    simp [St.gaveUp, hmove.started hexec, hunstarted, hmove.after hafter]
  refine ⟨fun code' hc' => ?_, fun i hi => hmove.image i hi, fun hasked => ?_, fun hbyte => ?_, fun heof => ?_,
    fun rc hrc => ?_, fun halone => ?_⟩
  · rw [hmove.stillOwn code' hc']
    exact hunstarted
  · rw [hmove.parent] at hasked
    by_cases hreport : s.child = .own .report
    · -- the parent's end is open, and the byte goes into the pipe
      have hdone : e = .done := by simpa [heard, hreport] using ha
      obtain ⟨hafter, hsent⟩ := hmove.report hreport
      have hexec : s.child ≠ .own .exec := by simp [hreport]
      have hbytes := hsent (hside.readEnd_of_asks hasked) hdone
      have hgaveUp : t.gaveUp = true := by simp [St.gaveUp, hmove.started hexec, hunstarted, hafter]
      simp [hgaveUp, hbytes]
    · rw [hmove.bytes hreport, hs.sent hasked]
      have hiff : t.gaveUp = true ↔ s.gaveUp = true :=
        ⟨fun ht => (hgave' ht).resolve_right hreport, hkeep⟩
      rw [Bool.eq_iff_iff.mpr hiff]
  · rw [hmove.parent] at hbyte
    exact hkeep (hs.byte hbyte)
  · rw [hmove.parent] at heof
    rw [hs.endOfFile heof] at hunstarted
    cases hunstarted
  · rw [hmove.parent] at hrc
    have hverdict := hs.verdict rc hrc
    split at hverdict
    · rw [hverdict] at hunstarted
      cases hunstarted
    · next hne =>
      rw [if_neg hne]
      rcases hverdict with hg | ⟨hunborn, -⟩
      · exact Or.inl (hkeep hg)
      · rw [hc] at hunborn
        cases hunborn
  · rw [hmove.parent] at halone
    have hunborn := (hm.alone halone).1
    rw [hc] at hunborn
    cases hunborn

theorem Told.dies (hs : Told s) (ha : heard s .dies = true) (h : Spawn.step c s .dies = some t) : Told t := by
  obtain ⟨rfl, hc⟩ := step_dies h
  have hgave : s.childGone.gaveUp = s.gaveUp := by
    rcases hc with ⟨code, hc⟩ | ⟨i, hc⟩
    · -- the byte is written, so the child had given up before it was killed
      have hafter : s.child.afterExec = true := by
        rw [hc]
        cases code <;> simp_all [heard, Child.afterExec]
      have hgone : s.childGone.child.afterExec = true := rfl
      rw [St.gaveUp, St.gaveUp, hafter, hgone]
      rfl
    · -- the program has been started, and that it ends changes nothing
      have hstarted := hs.running i hc
      simp [St.gaveUp, St.childGone, hstarted]
  refine ⟨(fun _ hown => by cases hown), (fun _ hrun => by cases hrun), fun hasked => ?_, fun hbyte => ?_, hs.endOfFile,
    fun rc hrc => ?_, fun halone => ?_⟩
  · rw [hgave]
    exact hs.sent hasked
  · rw [hgave]
    exact hs.byte hbyte
  · have hverdict := hs.verdict rc hrc
    split at hverdict
    · next hok =>
      rw [if_pos hok]
      exact hverdict
    · next hok =>
      rw [if_neg hok, hgave]
      rcases hverdict with hg | ⟨hunborn, -⟩
      · exact Or.inl hg
      · rcases hc with ⟨code, hc⟩ | ⟨i, hc⟩ <;> cases hunborn.symm.trans hc
  · exact hs.alone halone

theorem told_start : Told start where
  unstarted _ h := by cases h
  running _ h := by cases h
  sent h := by cases h
  byte h := by cases h
  endOfFile h := by cases h
  verdict rc h := by rcases h with h | h <;> cases h
  alone _ := rfl

/-- What holds in a run without hidden failures. -/
structure Sound (c : Call) (s : St) : Prop where
  tidy : Tidy c s
  moving : Moving s
  told : Told s

theorem Sound.step {a : Act} (hs : Sound c s) (ha : heard s a = true) (h : Spawn.step c s a = some t) :
    Sound c t := by
  refine ⟨hs.tidy.step h, hs.moving.step (unblocked_of_heard ha) h, ?_⟩
  cases a with
  | parent e => exact hs.told.parentStep hs.moving hs.tidy h
  | child e => exact hs.told.childStep hs.moving hs.tidy ha h
  | dies => exact hs.told.dies ha h

theorem sound_run {acts : List Act} (hrun : (machine c).run heard start acts = some s) : Sound c s :=
  Machine.run_invariant (Sound c) (fun _ _ _ hs ha h => hs.step ha h) hrun
    ⟨tidy_start, moving_start, told_start⟩

/-- `PLATFORM_OK` says that the program has been started. -/
theorem Told.started_iff (hs : Told s) {rc : Code} (hrc : s.parent = .returned rc) : rc = .ok ↔ s.started = true := by
  have hverdict := hs.verdict rc (Or.inr hrc)
  split at hverdict
  · next hok => simp [hok, hverdict]
  · next hnot =>
    have hunstarted : s.started = false := by
      rcases hverdict with hgave | ⟨-, hstarted⟩
      · simp only [St.gaveUp, Bool.and_eq_true, Bool.not_eq_true'] at hgave
        exact hgave.1
      · exact hstarted
    simp [hnot, hunstarted]

/-- `waitpid` comes back when the child has ended, and not before. -/
def waited (s : St) : Act → Bool
  | .parent e => !(s.parent == .wait && e != .done)
  | _ => true

/-- An error is returned when there is no child, or none any more. -/
structure Buried (s : St) : Prop where
  alone : s.parent.alone = true → s.child = .unborn
  returned : ∀ rc, s.parent = .release rc ∨ s.parent = .returned rc → rc ≠ .ok → s.child = .unborn ∨ s.child = .reaped

theorem Buried.step {a : Act} (hs : Buried s) (ha : waited s a = true) (h : Spawn.step c s a = some t) :
    Buried t := by
  cases a with
  | parent e =>
      cases parentStep_move h with
      | edge hedge hchild hbytes hend hfailed hwait =>
          simp only [St.childSide, Prod.mk.injEq] at hchild
          have hback : t.parent.alone = true → s.parent.alone = true := by
            intro halone
            generalize s.parent = p at hedge ⊢
            generalize t.parent = q at hedge halone
            cases hedge <;> simp_all [Parent.alone]
          refine ⟨fun halone => ?_, fun rc hrc hne => ?_⟩
          · rw [hchild.1]
            exact hs.alone (hback halone)
          · rw [hchild.1]
            rcases hedge.verdict hrc with hp | ⟨-, hp⟩ | ⟨hok, -⟩ | ⟨-, hp⟩
            · exact hs.returned rc hp hne
            · exact Or.inl (hs.alone hp)
            · exact absurd hok hne
            · -- `waitpid` is not interrupted
              have hdone : e = .done := by simpa [waited, hp] using ha
              exact absurd hdone (hwait hp)
      | fork hp ht => constructor <;> simp [ht, Parent.alone]
      | byte hp ht => constructor <;> simp [ht, Parent.alone]
      | bury hp ht hchild => constructor <;> simp [ht, hchild, Parent.alone]
  | child e =>
      have hmove := childStep_move h
      obtain ⟨code, hc⟩ := hmove.own
      refine ⟨fun halone => ?_, fun rc hrc hne => ?_⟩
      · rw [hmove.parent] at halone
        rw [hs.alone halone] at hc
        cases hc
      · rw [hmove.parent] at hrc
        rcases hs.returned rc hrc hne with hunborn | hreaped
        · rw [hunborn] at hc
          cases hc
        · rw [hreaped] at hc
          cases hc
  | dies =>
      obtain ⟨rfl, hc⟩ := step_dies h
      have hborn : s.child ≠ .unborn ∧ s.child ≠ .reaped := by
        rcases hc with ⟨code, hc⟩ | ⟨i, hc⟩ <;> simp [hc]
      refine ⟨fun halone => absurd (hs.alone halone) hborn.1, fun rc hrc hne => ?_⟩
      rcases hs.returned rc hrc hne with hunborn | hreaped
      · exact absurd hunborn hborn.1
      · exact absurd hreaped hborn.2

theorem buried_start : Buried start where
  alone _ := rfl
  returned rc h := by rcases h with h | h <;> cases h

/-- **The answer is right.** In whatever order the two run: where no failure happens that the pipe cannot
show, the call returns `PLATFORM_OK` exactly when the program has been started; and where `waitpid` is not
interrupted, an error leaves no child behind, running or unburied. -/
theorem spawn_verdict (c : Call) :
    (∀ acts s rc, (machine c).run heard start acts = some s → s.parent = .returned rc →
        (rc = .ok ↔ s.started = true))
      ∧ ∀ acts s rc, (machine c).run waited start acts = some s → s.parent = .returned rc → rc ≠ .ok →
        s.child = .unborn ∨ s.child = .reaped := by
  constructor
  · intro acts s rc hrun hrc
    exact (sound_run hrun).told.started_iff hrc
  · intro acts s rc hrun hrc hne
    have hburied : Buried s :=
      Machine.run_invariant Buried (fun _ _ _ hs ha h => hs.step ha h) hrun buried_start
    exact hburied.returned rc (Or.inr hrc) hne

theorem spawn_verdict_sample :
    (sampleEnd sampleStart).started = true
      ∧ ((sampleEnd sampleMissing).child = .unborn ∨ (sampleEnd sampleMissing).child = .reaped) :=
  ⟨((spawn_verdict sampleCall).1 sampleStart (sampleEnd sampleStart) .ok (by decide) (by decide)).mp rfl,
    (spawn_verdict sampleCall).2 sampleMissing (sampleEnd sampleMissing) .io (by decide) (by decide) (by decide)⟩

end Spawn

end LibUpdate
