import LibUpdate.Html.Sanitize

/-!
# `Html.Allocation` — the HTML functions and the allocator

The allocator can make a call of the HTML functions fail, but it cannot change what is written: an output
that comes back with one allocator comes back with every allocator that gives at least as much. So a
description that was not refused is the whole output.
-/

namespace LibUpdate

section

variable {alloc more : Nat → Bool}

/-- What `alloc` gives, `more` gives. A call that succeeds with `alloc` succeeds with `more`, and with the same
    output. -/
def GivesMore (alloc more : Nat → Bool) : Prop := ∀ n, alloc n = true → more n = true

theorem givesMore_memory (alloc : Nat → Bool) : GivesMore alloc memory := fun _ _ => rfl

/-! ## The buffer -/

theorem bufInit_more (h : GivesMore alloc more) {maxTotal : Nat} {b : Buf} (hb : bufInit alloc maxTotal = some b) :
    bufInit more maxTotal = some b := by
  unfold bufInit at hb ⊢
  split at hb
  · next hpos =>
    rw [dif_pos hpos]
    split at hb
    · next halloc => rwa [if_pos (h _ halloc)]
    · cases hb
  · cases hb

theorem bufEnsure_more (h : GivesMore alloc more) {b : Buf} {add : Nat} {x}
    (hb : bufEnsure alloc b add = some x) : bufEnsure more b add = some x := by
  unfold bufEnsure at hb ⊢
  split at hb; · cases hb
  next hadd =>
  rw [dif_neg hadd]
  dsimp only at hb ⊢
  split at hb
  · next hcap => rwa [dif_pos hcap]
  next hcap =>
  rw [dif_neg hcap]
  split at hb; · cases hb
  next ncap hgrow =>
  by_cases hneed : (if ncap > b.maxTotal then b.maxTotal else ncap) < b.d.length + add + 1
  · rw [dif_pos hneed] at hb
    cases hb
  · rw [dif_neg hneed] at hb ⊢
    by_cases halloc : alloc (if ncap > b.maxTotal then b.maxTotal else ncap) = true
    · rw [if_pos halloc] at hb
      rwa [if_pos (h _ halloc)]
    · rw [if_neg halloc] at hb
      cases hb

theorem bufAppend_more (h : GivesMore alloc more) {b b' : Buf} {s : Bytes} (hb : bufAppend alloc b s = some b') :
    bufAppend more b s = some b' := by
  unfold bufAppend at hb ⊢
  cases hens : bufEnsure alloc b s.length with
  | none =>
      rw [hens] at hb
      cases hb
  | some x =>
      rw [hens] at hb
      rw [bufEnsure_more h hens]
      exact hb

theorem emitHtmlEscaped_more (h : GivesMore alloc more) {b b' : Buf} {s : Bytes}
    (hb : emitHtmlEscaped alloc b s = some b') : emitHtmlEscaped more b s = some b' := by
  induction s generalizing b with
  | nil => exact hb
  | cons c s ih =>
      unfold emitHtmlEscaped at hb ⊢
      split at hb; · cases hb
      next b₁ hb₁ =>
      rw [bufAppend_more h hb₁]
      exact ih hb

theorem bufAppendAll_more (h : GivesMore alloc more) {b b' : Buf} {parts : List Bytes}
    (hb : bufAppendAll alloc b parts = some b') : bufAppendAll more b parts = some b' := by
  induction parts generalizing b with
  | nil => exact hb
  | cons s parts ih =>
      unfold bufAppendAll at hb ⊢
      split at hb; · cases hb
      next b₁ hb₁ =>
      rw [bufAppend_more h hb₁]
      exact ih hb

theorem bufEmitAnchor_more (h : GivesMore alloc more) {b b' : Buf} {href : Bytes}
    (hb : bufEmitAnchor alloc b href = some b') : bufEmitAnchor more b href = some b' := by
  unfold bufEmitAnchor at hb ⊢
  split at hb; · cases hb
  next b₁ h₁ =>
  split at hb; · cases hb
  next b₂ h₂ =>
  rw [bufAppend_more h h₁]
  dsimp only
  rw [emitHtmlEscaped_more h h₂]
  exact bufAppend_more h hb

theorem bufEmitCloseTag_more (h : GivesMore alloc more) {b b' : Buf} {tid : Tid}
    (hb : bufEmitCloseTag alloc b tid = some b') : bufEmitCloseTag more b tid = some b' := by
  unfold bufEmitCloseTag at hb ⊢
  split at hb
  · next hbr => rwa [if_pos hbr]
  · next hbr =>
    rw [if_neg hbr]
    exact bufAppendAll_more h hb

theorem closeAll_more (h : GivesMore alloc more) {b b' : Buf} {stack : List Tid}
    (hb : closeAll alloc b stack = some b') : closeAll more b stack = some b' := by
  induction stack generalizing b with
  | nil => exact hb
  | cons t stack ih =>
      unfold closeAll at hb ⊢
      split at hb; · cases hb
      next b₁ hb₁ =>
      rw [bufEmitCloseTag_more h hb₁]
      exact ih hb

/-! ## A pass of the main loop

A pass that does not fail is the same pass with `more`. -/

theorem ofAppend_more {r r' : Option Buf} (hr : ∀ b, r = some b → r' = some b) {e : Emitted}
    (he : Emitted.ofAppend r = e) (hne : e ≠ .failed) : Emitted.ofAppend r' = e := by
  cases r with
  | none => exact absurd he.symm hne
  | some b => rwa [hr b rfl]

theorem bufEmitOpenTag_more (h : GivesMore alloc more) {fuel : Nat} {b : Buf} {tid : Tid} {inner : Bytes}
    {isVoid : Bool} {e : Emitted} (he : bufEmitOpenTag alloc fuel b tid inner isVoid = some e)
    (hne : e ≠ .failed) :
    bufEmitOpenTag more fuel b tid inner isVoid = some e := by
  unfold bufEmitOpenTag at he ⊢
  split at he
  · next hvoid =>
    rw [if_pos hvoid]
    exact congrArg some (ofAppend_more (fun _ hb => bufAppend_more h hb) (Option.some.inj he) hne)
  next hvoid =>
  rw [if_neg hvoid]
  split at he
  · next ha =>
    rw [if_pos ha]
    split at he
    · cases he
    · next href hparse =>
      split at he
      · next hempty => rwa [if_pos hempty]
      · next hempty =>
        rw [if_neg hempty]
        exact congrArg some (ofAppend_more (fun _ hb => bufEmitAnchor_more h hb) (Option.some.inj he) hne)
  · next ha =>
    rw [if_neg ha]
    exact congrArg some (ofAppend_more (fun _ hb => bufAppendAll_more h hb) (Option.some.inj he) hne)

theorem writeText_more (h : GivesMore alloc more) {st : Scan} {text p : Bytes}
    (hne : st.writeText alloc text p ≠ .leave none) : st.writeText more text p = st.writeText alloc text p := by
  unfold Scan.writeText at hne ⊢
  cases hb : bufAppend alloc st.buf text with
  | none => simp [hb] at hne
  | some b => rw [bufAppend_more h hb]

theorem closeTagRound_more (h : GivesMore alloc more) {st : Scan} {lt afterSlash : Bytes}
    (hne : closeTagRound alloc st lt afterSlash ≠ .leave none) :
    closeTagRound more st lt afterSlash = closeTagRound alloc st lt afterSlash := by
  unfold closeTagRound at hne ⊢
  dsimp only at hne ⊢
  split at hne
  · next hname =>
    rw [if_pos hname, if_pos hname]
    exact writeText_more h hne
  next hname =>
  rw [if_neg hname, if_neg hname]
  split at hne
  · next hclass => rfl
  next tid isVoid hclass =>
  split at hne
  · next hbr => rw [if_pos hbr, if_pos hbr]
  next hbr =>
  rw [if_neg hbr, if_neg hbr]
  obtain ⟨p, stack, buf, hfits⟩ := st
  cases stack with
  | nil => rfl
  | cons top stack =>
      dsimp only at hne ⊢
      split at hne
      · next htop =>
        rw [if_pos htop, if_pos htop]
        cases hb : bufEmitCloseTag alloc buf tid with
        | none => simp [hb] at hne
        | some b => rw [bufEmitCloseTag_more h hb]
      · next htop => rw [if_neg htop, if_neg htop]

theorem openTagRound_more (h : GivesMore alloc more) {fuel : Nat} {st : Scan} {lt : Bytes}
    {r : Round Scan (Option Scan)} (hr : openTagRound alloc fuel st lt = some r) (hne : r ≠ .leave none) :
    openTagRound more fuel st lt = some r := by
  unfold openTagRound at hr ⊢
  dsimp only at hr ⊢
  split at hr
  · next hname =>
    cases hr
    rw [if_pos hname, writeText_more h hne]
  next hname =>
  rw [if_neg hname]
  split at hr
  · next hdanger => rwa [if_pos hdanger]
  next hdanger =>
  rw [if_neg hdanger]
  split at hr
  · exact hr
  next tid isVoid hclass =>
  split at hr
  · next hbr =>
    rw [if_pos hbr]
    obtain ⟨e, he, rfl⟩ := Option.map_eq_some_iff.mp hr
    cases e with
    | failed => exact absurd rfl hne
    | skipped => rw [bufEmitOpenTag_more h he (by simp), Option.map_some]
    | emitted buf => rw [bufEmitOpenTag_more h he (by simp), Option.map_some]
  next hbr =>
  rw [if_neg hbr]
  split at hr
  · next hfull => rwa [dif_pos hfull]
  · next hfull =>
    rw [dif_neg hfull]
    obtain ⟨e, he, rfl⟩ := Option.map_eq_some_iff.mp hr
    cases e with
    | failed => exact absurd rfl hne
    | skipped => rw [bufEmitOpenTag_more h he (by simp), Option.map_some]
    | emitted buf => rw [bufEmitOpenTag_more h he (by simp), Option.map_some]

theorem sanitizeRound_more (h : GivesMore alloc more) {fuel : Nat} {st : Scan} {r : Round Scan (Option Scan)}
    (hr : sanitizeRound alloc fuel st = some r) (hne : r ≠ .leave none) : sanitizeRound more fuel st = some r := by
  unfold sanitizeRound at hr ⊢
  split at hr
  · next hp => rwa [if_pos hp]
  next hp =>
  rw [if_neg hp]
  split at hr
  · next hbuf =>
    cases hr
    exact absurd rfl hne
  next buf hbuf =>
  rw [emitHtmlEscaped_more h hbuf]
  dsimp only
  split at hr
  · next hlt => exact hr
  next c rest hlt =>
  unfold markupRound at hr ⊢
  split at hr
  · next hcomment => rwa [if_pos hcomment]
  next hcomment =>
  rw [if_neg hcomment]
  split at hr
  · next hdecl => rwa [if_pos hdecl]
  next hdecl =>
  rw [if_neg hdecl]
  split at hr
  · next hclose =>
    rw [if_pos hclose]
    cases hr
    rw [closeTagRound_more h hne]
  next hclose =>
  rw [if_neg hclose]
  exact openTagRound_more h hr hne

/-! ## The functions -/

/-- **The sanitizer's output does not depend on the allocator.** -/
theorem updateHtmlSanitizeAlloc_more (h : GivesMore alloc more) {maxOutTotal fuel : Nat} {input out : Bytes}
    (hout : updateHtmlSanitizeAlloc alloc maxOutTotal fuel input = some (some out)) :
    updateHtmlSanitizeAlloc more maxOutTotal fuel input = some (some out) := by
  unfold updateHtmlSanitizeAlloc at hout ⊢
  split at hout; · cases hout
  next hlen =>
  rw [if_neg hlen]
  split at hout; · cases hout
  next b hb =>
  rw [bufInit_more h hb]
  dsimp only
  split at hout; · cases hout
  · cases hout
  next st hrun =>
  have hrun' : whileLoop (sanitizeRound more) fuel (.start input b) = some (some st) :=
    iterate_mono_of_ne (fun _ _ hr hne => sanitizeRound_more h hr hne) hrun (by simp)
  rw [hrun']
  dsimp only
  obtain ⟨b', hb', hd⟩ := Option.map_eq_some_iff.mp (Option.some.inj hout)
  rw [closeAll_more h hb', Option.map_some, hd]

end

end LibUpdate
