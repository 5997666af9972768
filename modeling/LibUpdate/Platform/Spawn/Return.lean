import LibUpdate.Platform.Spawn.Steps

/-!
# `Platform.Spawn.Return` — the two never wait for one another

The parent waits twice: for the end of the pipe to close or to carry a byte, and for the child to end. The child
waits for nothing. `Moving` is what keeps one of the two going: the child's end of the pipe is marked before the
program starts, and the parent waits for the child's end only when it has found that the program does not start.
-/

namespace LibUpdate

namespace Spawn

variable {c : Call} {s t : St} {e : Ending}

/-! ## Waiting -/

/-- `fcntl` does not fail, and `read` fails with `EINTR` only. -/
def unblocked (s : St) : Act → Bool
  | .parent e => !(s.parent == .read && e == .failed)
  | .child e => !(s.child == .own .setCloexec && e != .done)
  | .dies => true

/-- Calls that come off. -/
def smooth (_ : St) : Act → Bool
  | .parent e => e == .done
  | .child e => e == .done
  | .dies => false

/-- The child is not there yet, or could not be made. -/
def Parent.alone : Parent → Bool
  | .check => true
  | .allocate => true
  | .duplicate _ => true
  | .makePipe => true
  | .fork => true
  | .closeBoth => true
  | _ => false

/-- The child is there. -/
def Parent.forked : Parent → Bool
  | .closeWrite => true
  | .read => true
  | .closeRead _ => true
  | .wait => true
  | _ => false

/-- The parent has read the byte. -/
def Parent.toldByByte : Parent → Bool
  | .closeRead .byte => true
  | .wait => true
  | _ => false

theorem Edge.backwards {n : Nat} {p q : Parent} (h : Edge n p q) (hp : p ≠ .closeRead .nothing) :
    (q.alone = true → p.alone = true) ∧ (q.forked = true → p.forked = true)
      ∧ (q.toldByByte = true → p.toldByByte = true) := by
  cases h <;> simp_all [Parent.alone, Parent.forked, Parent.toldByByte]

/-- What keeps the two from waiting for one another: the end that the child holds is closed by `execv`, a byte in
    the pipe is from a child that has given up, and behind the `fork` there is a child to wait for. -/
structure Moving (s : St) : Prop where
  cloexec : s.child.marked = true → s.cloexec = true
  sent : s.parent.forked = true → 0 < s.bytes → s.child.afterExec = true
  told : s.parent.toldByByte = true → s.child.afterExec = true
  heard : s.parent ≠ .closeRead .nothing
  born : s.parent.forked = true → s.child ≠ .unborn ∧ s.child ≠ .reaped
  alone : s.parent.alone = true → s.child = .unborn ∧ s.bytes = 0

theorem Moving.parentStep (hs : Moving s) (ha : unblocked s (.parent e) = true)
    (h : parentStep c s e = some t) : Moving t := by
  cases parentStep_move h with
  | edge hedge hchild hbytes hend hfailed hwait =>
      obtain ⟨halone, hforked, htold⟩ := hedge.backwards hs.heard
      simp only [St.childSide, Prod.mk.injEq] at hchild
      obtain ⟨hchild, -, hcloexec, -⟩ := hchild
      refine ⟨?_, ?_, ?_, ?_, ?_, ?_⟩
      · rw [hchild, hcloexec]
        exact hs.cloexec
      · rw [hchild, hbytes]
        exact fun h => hs.sent (hforked h)
      · rw [hchild]
        exact fun h => hs.told (htold h)
      · intro hnothing
        obtain ⟨hread, hfail⟩ := hfailed hnothing
        simp [unblocked, hread, hfail] at ha
      · rw [hchild]
        exact fun h => hs.born (hforked h)
      · rw [hchild, hbytes]
        exact fun h => hs.alone (halone h)
  | fork hp ht hchild hbytes hstarted =>
      have hempty := (hs.alone (by rw [hp]; rfl)).2
      constructor <;> simp [ht, hchild, hbytes, hempty, Child.marked, Parent.toldByByte, Parent.alone]
  | byte hp ht hchild hbytes =>
      simp only [St.childSide, Prod.mk.injEq] at hchild
      obtain ⟨hchild, -, hcloexec, -⟩ := hchild
      -- the byte is the child's
      have hforked : s.parent.forked = true := by rw [hp]; rfl
      have hafter := hs.sent hforked hbytes
      refine ⟨?_, ?_, ?_, ?_, ?_, ?_⟩
      · rw [hchild, hcloexec]
        exact hs.cloexec
      · rw [hchild]
        exact fun _ _ => hafter
      · rw [hchild]
        exact fun _ => hafter
      · simp [ht]
      · rw [hchild]
        exact fun _ => hs.born hforked
      · simp [ht, Parent.alone]
  | bury hp ht hchild hdead hstarted =>
      constructor <;> simp [ht, hchild, Child.marked, Parent.forked, Parent.toldByByte, Parent.alone]

theorem Moving.childStep (hs : Moving s) (ha : unblocked s (.child e) = true)
    (h : childStep c s e = some t) : Moving t := by
  have hmove := childStep_move h
  obtain ⟨code, hown⟩ := hmove.own
  refine ⟨fun hmarked => ?_, fun hforked hbytes => ?_, fun htold => ?_, ?_, fun _ => hmove.born, fun halone => ?_⟩
  · rcases hmove.marks hmarked with ⟨hbefore, hcloexec⟩ | ⟨hset, hcloexec⟩
    · rw [hcloexec]
      exact hs.cloexec hbefore
    · simpa [unblocked, hset, hcloexec] using ha
  · rw [hmove.parent] at hforked
    by_cases hreport : s.child = .own .report
    · exact (hmove.report hreport).1
    · rw [hmove.bytes hreport] at hbytes
      exact hmove.after (hs.sent hforked hbytes)
  · rw [hmove.parent] at htold
    exact hmove.after (hs.told htold)
  · rw [hmove.parent]
    exact hs.heard
  · rw [hmove.parent] at halone
    have hunborn := (hs.alone halone).1
    rw [hown] at hunborn
    cases hunborn

theorem Moving.dies (hs : Moving s) (h : Spawn.step c s .dies = some t) : Moving t := by
  obtain ⟨rfl, hchild⟩ := step_dies h
  refine ⟨nofun, fun _ _ => rfl, fun _ => rfl, hs.heard, fun _ => ⟨nofun, nofun⟩, fun halone => ?_⟩
  have hunborn := (hs.alone halone).1
  rcases hchild with ⟨code, hc⟩ | ⟨i, hc⟩ <;> cases hunborn.symm.trans hc

theorem Moving.step {a : Act} (hs : Moving s) (ha : unblocked s a = true) (h : Spawn.step c s a = some t) :
    Moving t := by
  cases a with
  | parent e => exact hs.parentStep ha h
  | child e => exact hs.childStep ha h
  | dies => exact hs.dies h

theorem moving_start : Moving start where
  cloexec h := by cases h
  sent h := by cases h
  told h := by cases h
  heard h := by cases h
  born h := by cases h
  alone _ := ⟨rfl, rfl⟩

/-- The calls that the parent has left to make, at most, with those of a child that it has yet to start. -/
def Parent.left (n : Nat) : Parent → Nat
  | .check => n + 20
  | .allocate => n + 19
  | .duplicate i => n - i + 18
  | .makePipe => 17
  | .fork => 16
  | .closeBoth => 6
  | .closeWrite => 6
  | .read => 5
  | .closeRead _ => 4
  | .wait => 3
  | .release _ => 2
  | .returned _ => 0

/-- And those of the child. -/
def Child.left : Child → Nat
  | .own .signal => 9
  | .own .closeRead => 8
  | .own .setCloexec => 7
  | .own .chdir => 6
  | .own .exec => 5
  | .own .report => 4
  | .own .closeWrite => 3
  | .own .exit => 2
  | .image _ => 1
  | _ => 0

def St.left (c : Call) (s : St) : Nat := s.parent.left c.words.length + s.child.left

/-- A `read` that a signal interrupts is made again; every other act is a step towards the end. -/
def counts (s : St) (a : Act) : Bool := !(s.parent == .read && a == .parent .interrupted)

theorem Edge.left {n : Nat} {p q : Parent} (h : Edge n p q) : q.left n < p.left n ∨ (p = .read ∧ q = .read) := by
  cases h with
  | interrupted => exact Or.inr ⟨rfl, rfl⟩
  | duplicate i hi =>
      simp only [Parent.left]
      omega
  | _ =>
      simp only [Parent.left]
      omega

theorem childStep_left (h : childStep c s e = some t) : t.child.left < s.child.left := by
  unfold childStep at h
  cases hc : s.child with
  | own code =>
      cases code with
      | exec =>
          simp only [hc] at h
          split at h <;> cases h <;> simp [Child.left]
      | report =>
          simp only [hc] at h
          split at h
          · cases h
            simp [Child.left]
          · split at h <;> cases h <;> simp [Child.left, St.childGone]
      | _ =>
          simp only [hc] at h
          cases h
          simp [Child.left, St.childGone]
  | _ =>
      simp only [hc] at h
      cases h

/-- A `read` that is interrupted changes nothing. -/
theorem parentStep_read (hp : s.parent = .read) (ht : t.parent = .read) (h : parentStep c s e = some t) :
    e = .interrupted := by
  unfold parentStep at h
  simp only [hp] at h
  cases e with
  | interrupted => rfl
  | failed =>
      cases h
      cases ht
  | done =>
      simp only at h
      split at h
      · cases h
        cases ht
      · split at h
        · cases h
        · cases h
          cases ht

theorem left_le {a : Act} (h : step c s a = some t) :
    t.left c ≤ s.left c ∧ (counts s a = true → t.left c < s.left c) := by
  unfold St.left
  cases a with
  | parent e =>
      have hparent : parentStep c s e = some t := h
      cases parentStep_move hparent with
      | edge hedge hchild =>
          simp only [St.childSide, Prod.mk.injEq] at hchild
          rw [hchild.1]
          rcases hedge.left with hlt | ⟨hp, ht⟩
          · exact ⟨by omega, fun _ => by omega⟩
          · have hinterrupted := parentStep_read hp ht hparent
            refine ⟨Nat.le_of_eq (by rw [hp, ht]), fun hcounts => ?_⟩
            simp [counts, hp, hinterrupted] at hcounts
      | fork hp ht hchild =>
          rw [hp, ht, hchild]
          simp only [Parent.left, Child.left]
          exact ⟨by omega, fun _ => by omega⟩
      | byte hp ht hchild =>
          simp only [St.childSide, Prod.mk.injEq] at hchild
          rw [hp, ht, hchild.1]
          simp only [Parent.left]
          exact ⟨by omega, fun _ => by omega⟩
      | bury hp ht hchild hdead =>
          rw [hp, ht, hchild, hdead]
          simp only [Parent.left, Child.left]
          exact ⟨by omega, fun _ => by omega⟩
  | child e =>
      have hchild : childStep c s e = some t := h
      rw [(childStep_move hchild).parent]
      have hlt := childStep_left hchild
      exact ⟨by omega, fun _ => by omega⟩
  | dies =>
      obtain ⟨rfl, hc⟩ := step_dies h
      have hlt : s.childGone.child.left < s.child.left := by
        rcases hc with ⟨code, hc⟩ | ⟨i, hc⟩
        · rw [hc]
          cases code <;> simp [Child.left, St.childGone]
        · rw [hc]
          simp [Child.left, St.childGone]
      have hparent : s.childGone.parent = s.parent := rfl
      rw [hparent]
      exact ⟨by omega, fun _ => by omega⟩

/-- A child that has not come to the program goes on by itself. -/
theorem childStep_own {code : ChildCode} (hc : s.child = .own code) : ∃ t, childStep c s .done = some t := by
  unfold childStep
  rw [hc]
  cases code with
  | report =>
      show ∃ t, (if s.readEnd || s.childRead then _ else if s.childIgnores then _ else _) = some t
      split
      · exact ⟨_, rfl⟩
      · split <;> exact ⟨_, rfl⟩
  | _ => exact ⟨_, rfl⟩

/-- Nothing can be written to the pipe any more, where the child has come to the program or to its end. -/
theorem Moving.no_writer (hs : Moving s) (hside : Tidy c s) (hread : s.parent = .read)
    (hown : ¬ ∃ code, s.child = .own code) : (s.writeEnd || s.childWrite) = false := by
  have hheld := hside.parent.held
  simp only [hread, St.held, Parent.holds, Prod.mk.injEq] at hheld
  rw [hheld.2.2.1, hside.child.writeEnd, Bool.false_or]
  cases hc : s.child with
  | own code => exact absurd ⟨code, hc⟩ hown
  | image i =>
      have hcloexec := hs.cloexec (by rw [hc]; rfl)
      simp [Child.holdsWrite, hcloexec]
  | _ => rfl

/-- The child that the parent waits for is dead, or on its way there. -/
theorem Moving.waits_for_dead (hs : Moving s) (hwait : s.parent = .wait)
    (hown : ¬ ∃ code, s.child = .own code) : s.child = .dead := by
  have hafter := hs.told (by rw [hwait]; rfl)
  cases hc : s.child with
  | own code => exact absurd ⟨code, hc⟩ hown
  | dead => rfl
  | _ => simp [hc, Child.afterExec] at hafter

theorem Moving.parent_goes_on (hs : Moving s) (hside : Tidy c s) (hreturned : ¬ ∃ rc, s.parent = .returned rc)
    (hown : ¬ ∃ code, s.child = .own code) : ∃ t, Spawn.parentStep c s .done = some t := by
  unfold Spawn.parentStep
  cases hp : s.parent with
  | returned rc => exact absurd ⟨rc, hp⟩ hreturned
  | duplicate i =>
      cases hw : c.words[i]? <;> simp [hw]
  | read =>
      show ∃ t, (if 0 < s.bytes then _ else if s.writeEnd || s.childWrite then none else _) = some t
      rw [hs.no_writer hside hp hown]
      split <;> exact ⟨_, rfl⟩
  | wait =>
      rw [hs.waits_for_dead hp hown]
      exact ⟨_, rfl⟩
  | _ => exact ⟨_, rfl⟩

/-- As long as the call has not returned, one of the two can go on. -/
theorem Moving.goes_on (hs : Moving s) (hside : Tidy c s) (hreturned : ¬ ∃ rc, s.parent = .returned rc) :
    ∃ a t, smooth s a = true ∧ Spawn.step c s a = some t := by
  by_cases hown : ∃ code, s.child = .own code
  · obtain ⟨code, hc⟩ := hown
    obtain ⟨t, ht⟩ := childStep_own (c := c) hc
    exact ⟨.child .done, t, rfl, ht⟩
  · obtain ⟨t, ht⟩ := hs.parent_goes_on hside hreturned hown
    exact ⟨.parent .done, t, rfl, ht⟩

theorem unblocked_of_smooth {a : Act} (h : smooth s a = true) : unblocked s a = true := by
  cases a with
  | parent e => simp_all [smooth, unblocked]
  | child e => simp_all [smooth, unblocked]
  | dies => rfl

theorem moving_run {acts : List Act} (hrun : (machine c).run unblocked start acts = some s) : Moving s :=
  Machine.run_invariant Moving (fun _ _ _ hs ha h => hs.step ha h) hrun moving_start

/-- **The call returns.** However the steps of the two are ordered and whatever fails, there are no more of
them than a bound in the number of words, apart from reads that a signal interrupts. And where `fcntl` and
`read` do not fail, the two never wait for one another: from wherever they are, the call comes to return. -/
theorem spawn_returns (c : Call) :
    (∀ acts s, (machine c).run anything start acts = some s →
        (machine c).counted counts start acts ≤ c.words.length + 20)
      ∧ ∀ acts s, (machine c).run unblocked start acts = some s →
        ∃ more t rc, (machine c).run smooth s more = some t ∧ t.parent = .returned rc := by
  constructor
  · intro acts s hrun
    have hlength := Machine.run_length (St.left c) counts (fun _ _ _ h => (left_le h).2)
      (fun _ _ _ h => (left_le h).1) hrun
    have hstart : start.left c = c.words.length + 20 := rfl
    omega
  · intro acts s hrun
    have hprogress : ∀ s, (Moving s ∧ Tidy c s) → (¬ ∃ rc, s.parent = .returned rc) →
        ∃ a t, smooth s a = true ∧ (machine c).step s a = some t ∧ (Moving t ∧ Tidy c t)
          ∧ t.left c < s.left c := by
      rintro s ⟨hs, htidy⟩ hreturned
      obtain ⟨a, t, ha, h⟩ := hs.goes_on htidy hreturned
      have hcounts : counts s a = true := by cases a <;> simp_all [smooth, counts]
      exact ⟨a, t, ha, h, ⟨hs.step (unblocked_of_smooth ha) h, htidy.step h⟩, (left_le h).2 hcounts⟩
    obtain ⟨more, t, hmore, rc, hrc⟩ := Machine.completes (St.left c) _ _ hprogress
      ⟨moving_run hrun, tidy_run hrun⟩
    exact ⟨more, t, rc, hmore, hrc⟩

theorem spawn_returns_sample :
    (machine sampleCall).counted counts start sampleStart ≤ 21
      ∧ ∃ more t rc, (machine sampleCall).run smooth (sampleEnd sampleMissing) more = some t
        ∧ t.parent = .returned rc :=
  ⟨(spawn_returns sampleCall).1 sampleStart (sampleEnd sampleStart) (by decide),
    (spawn_returns sampleCall).2 sampleMissing (sampleEnd sampleMissing) (by decide)⟩

end Spawn

end LibUpdate
