import LibUpdate.Platform.Spawn

/-!
# `Platform.Spawn.Steps` — what a step of the two can do

Each step of the parent is one of four (`parentStep_move`): along an edge of its control flow, which leaves the
child and the pipe alone; the fork; the byte; the burial. What a step of the child can do is `childStep_move`.
The invariants of the two parties are proved from these.
-/

namespace LibUpdate

namespace Spawn

variable {c : Call} {s t : St} {e : Ending}

/-! ## What a step can do -/

/-- What the parent's calls leave alone, but for the one that makes the child and the one that buries it. -/
def St.childSide (s : St) : Child × Bool × Bool × Bool := (s.child, s.childWrite, s.cloexec, s.started)

/-- The steps of the parent that leave the child and the pipe alone, where `n` words are copied. -/
inductive Edge (n : Nat) : Parent → Parent → Prop where
  | refuse : Edge n .check (.returned .invalidArg)
  | check : Edge n .check .allocate
  | allocate : Edge n .allocate (.duplicate 0)
  | noTable : Edge n .allocate (.returned .noMem)
  | duplicate (i : Nat) (hi : i < n) : Edge n (.duplicate i) (.duplicate (i + 1))
  | noString (i : Nat) : Edge n (.duplicate i) (.release .noMem)
  | duplicated (i : Nat) : Edge n (.duplicate i) .makePipe
  | makePipe : Edge n .makePipe .fork
  | noPipe : Edge n .makePipe (.release .io)
  | noChild : Edge n .fork .closeBoth
  | closeBoth : Edge n .closeBoth (.release .io)
  | closeWrite : Edge n .closeWrite .read
  | interrupted : Edge n .read .read
  | endOfFile : Edge n .read (.closeRead .endOfFile)
  | failed : Edge n .read (.closeRead .nothing)
  | running : Edge n (.closeRead .endOfFile) (.release .ok)
  | toldByByte : Edge n (.closeRead .byte) .wait
  | toldNothing : Edge n (.closeRead .nothing) .wait
  | notWaited : Edge n .wait (.release .io)
  | release (rc : Code) : Edge n (.release rc) (.returned rc)

/-- A call of the parent: a step of its own, the child, the byte in the pipe, or the end of the child. -/
inductive ParentMove (c : Call) (s t : St) (e : Ending) : Prop where
  | edge (hedge : Edge c.words.length s.parent t.parent) (hchild : t.childSide = s.childSide) (hbytes : t.bytes = s.bytes)
      (hend : t.parent = .closeRead .endOfFile → s.bytes = 0 ∧ s.childWrite = false)
      (hfailed : t.parent = .closeRead .nothing → s.parent = .read ∧ e = .failed)
      (hwait : s.parent = .wait → e ≠ .done)
  | fork (hs : s.parent = .fork) (ht : t.parent = .closeWrite) (hchild : t.child = .own .signal)
      (hbytes : t.bytes = s.bytes) (hstarted : t.started = s.started)
  | byte (hs : s.parent = .read) (ht : t.parent = .closeRead .byte) (hchild : t.childSide = s.childSide)
      (hbytes : 0 < s.bytes)
  | bury (hs : s.parent = .wait) (ht : t.parent = .release .io) (hchild : t.child = .reaped)
      (hdead : s.child = .dead) (hstarted : t.started = s.started)

theorem parentStep_move (h : parentStep c s e = some t) : ParentMove c s t e := by
  unfold parentStep at h
  cases hp : s.parent with
  | check =>
      simp only [hp] at h
      cases h
      refine .edge ?_ rfl rfl (by simp; split <;> simp) (by simp; split <;> simp) (by simp [hp])
      rw [hp]
      show Edge _ .check (if c.refused = true then _ else _)
      split
      · exact .refuse
      · exact .check
  | allocate =>
      simp only [hp] at h
      split at h
      · cases h
        exact .edge (by rw [hp]; exact .allocate) rfl rfl (by simp) (by simp) (by simp [hp])
      · cases h
        exact .edge (by rw [hp]; exact .noTable) rfl rfl (by simp) (by simp) (by simp [hp])
  | duplicate i =>
      simp only [hp] at h
      split at h
      · next word hword =>
        split at h
        · cases h
          have hi : i < c.words.length := (List.getElem?_eq_some_iff.mp hword).1
          exact .edge (by rw [hp]; exact .duplicate i hi) rfl rfl (by simp) (by simp) (by simp [hp])
        · cases h
          exact .edge (by rw [hp]; exact .noString i) rfl rfl (by simp) (by simp) (by simp [hp])
      · cases h
        exact .edge (by rw [hp]; exact .duplicated i) rfl rfl (by simp) (by simp) (by simp [hp])
  | makePipe =>
      simp only [hp] at h
      split at h
      · cases h
        exact .edge (by rw [hp]; exact .makePipe) rfl rfl (by simp) (by simp) (by simp [hp])
      · cases h
        exact .edge (by rw [hp]; exact .noPipe) rfl rfl (by simp) (by simp) (by simp [hp])
  | fork =>
      simp only [hp] at h
      split at h
      · cases h
        exact .fork hp rfl rfl rfl rfl
      · cases h
        exact .edge (by rw [hp]; exact .noChild) rfl rfl (by simp) (by simp) (by simp [hp])
  | closeBoth =>
      simp only [hp] at h
      cases h
      exact .edge (by rw [hp]; exact .closeBoth) rfl rfl (by simp) (by simp) (by simp [hp])
  | closeWrite =>
      simp only [hp] at h
      cases h
      exact .edge (by rw [hp]; exact .closeWrite) rfl rfl (by simp) (by simp) (by simp [hp])
  | read =>
      simp only [hp] at h
      cases e with
      | done =>
          simp only at h
          split at h
          · next hbytes =>
            cases h
            exact .byte hp rfl rfl hbytes
          · next hbytes =>
            split at h
            · cases h
            · next hopen =>
              cases h
              simp only [Bool.or_eq_true, not_or, Bool.not_eq_true] at hopen
              exact .edge (by rw [hp]; exact .endOfFile) rfl rfl (fun _ => ⟨by omega, hopen.2⟩) (by simp)
                (by simp [hp])
      | interrupted =>
          cases h
          exact .edge (by rw [hp]; exact .interrupted) rfl rfl (by simp [hp]) (by simp [hp]) (by simp [hp])
      | failed =>
          cases h
          exact .edge (by rw [hp]; exact .failed) rfl rfl (by simp) (by simp [hp]) (by simp [hp])
  | closeRead rr =>
      simp only [hp] at h
      cases h
      cases rr with
      | endOfFile => exact .edge (by rw [hp]; exact .running) rfl rfl (by simp) (by simp) (by simp [hp])
      | byte => exact .edge (by rw [hp]; exact .toldByByte) rfl rfl (by simp) (by simp) (by simp [hp])
      | nothing => exact .edge (by rw [hp]; exact .toldNothing) rfl rfl (by simp) (by simp) (by simp [hp])
  | wait =>
      simp only [hp] at h
      split at h
      · split at h
        · next hdead =>
          cases h
          exact .bury hp rfl rfl hdead rfl
        · cases h
      · next hdone =>
        cases h
        exact .edge (by rw [hp]; exact .notWaited) rfl rfl (by simp) (by simp) (fun _ => hdone)
  | release rc =>
      simp only [hp] at h
      cases h
      exact .edge (by rw [hp]; exact .release rc) rfl rfl (by simp) (by simp) (by simp [hp])
  | returned rc =>
      simp only [hp] at h
      cases h

/-- The child has found that the program cannot be started. -/
def Child.afterExec : Child → Bool
  | .own .closeWrite => true
  | .own .exit => true
  | .dead => true
  | _ => false

/-- The child's end of the pipe has been marked, and it is still there, or the program runs. -/
def Child.marked : Child → Bool
  | .own .chdir => true
  | .own .exec => true
  | .own .report => true
  | .own .closeWrite => true
  | .own .exit => true
  | .image _ => true
  | _ => false

/-- A call of the child. -/
structure ChildMove (s t : St) (e : Ending) : Prop where
  parent : t.parent = s.parent
  own : ∃ code, s.child = .own code
  born : t.child ≠ .unborn ∧ t.child ≠ .reaped
  after : s.child.afterExec = true → t.child.afterExec = true
  marks : t.child.marked = true →
    (s.child.marked = true ∧ t.cloexec = s.cloexec) ∨ (s.child = .own .setCloexec ∧ t.cloexec = (e == .done))
  bytes : s.child ≠ .own .report → t.bytes = s.bytes
  unreported : t.child.afterExec = true → s.child.afterExec = true ∨ s.child = .own .report
  report : s.child = .own .report →
    t.child.afterExec = true ∧ (s.readEnd = true → e = .done → t.bytes = s.bytes + 1)
  started : s.child ≠ .own .exec → t.started = s.started
  stillOwn : ∀ code, t.child = .own code → t.started = s.started
  image : ∀ i, t.child = .image i → t.started = true

theorem childStep_move (h : childStep c s e = some t) : ChildMove s t e := by
  have hparent : t.parent = s.parent := congrArg Prod.fst (childStep_parentSide h)
  unfold childStep at h
  cases hc : s.child with
  | own code =>
      cases code with
      | exec =>
          simp only [hc] at h
          split at h
          · cases h
            constructor <;> simp [hc, Child.afterExec, Child.marked]
          · cases h
            constructor <;> simp [hc, Child.afterExec, Child.marked]
      | report =>
          simp only [hc] at h
          split at h
          · cases h
            constructor <;> simp [hc, Child.afterExec, Child.marked]
          · next hopen =>
            simp only [Bool.or_eq_true, not_or, Bool.not_eq_true] at hopen
            split at h
            · cases h
              constructor <;> simp [hc, hopen.1, Child.afterExec, Child.marked]
            · cases h
              constructor <;> simp [hc, hopen.1, Child.afterExec, Child.marked, St.childGone]
      | _ =>
          simp only [hc] at h
          cases h
          constructor <;> simp [hc, Child.afterExec, Child.marked, St.childGone]
  | _ =>
      simp only [hc] at h
      cases h

end Spawn

end LibUpdate
