import LibUpdate.Html.Grammar

/-!
# `Html.Document` — the documents of the allowed subset

`AllowedDoc` is the output language of `Html.Grammar` with the bounds that the sanitizer keeps as well: tags
are at most as deep as its stack, and a link target fits into its buffer. What a successful call writes is an
allowed document.
-/

namespace LibUpdate

/-- The brackets of an allowed document: a link has a safe target that fits into `href_buf`. -/
def allowedBrackets : Brackets Tid UInt8 where
  Atom w := EscapedText w ∨ w = ascii "<br>"
  Opens t w := (t ≠ .br ∧ t ≠ .a ∧ w = openTag t)
    ∨ (t = .a ∧ ∃ target, SafeTarget target ∧ target.length < hrefBufSize ∧ (0 : UInt8) ∉ target
        ∧ w = anchorTag target)
  close := closeTag

/-- Well-nested allowed tags, as deep as the stack, with escaped text between them and safe links. -/
def AllowedDoc : Bytes → Prop := allowedBrackets.NestedIn stackSize

/-- A document with the tags `stack` still open: what the main loop has written after any of its passes. -/
def AllowedPending : List Tid → Bytes → Prop := allowedBrackets.PendingIn stackSize

/-! ## The length of a link target -/

/-- What `parse_anchor_href` stores fits into its buffer. -/
theorem parseAnchorHref_length {hrefCap fuel : Nat} (hcap : 0 < hrefCap) {text href : Bytes}
    (h : parseAnchorHref hrefCap fuel text = some href) : href.length < hrefCap := by
  have hvalue : ∀ name hrefOut p, hrefOut.length < hrefCap →
      (attrValueRound hrefCap name hrefOut p).hrefOut.length < hrefCap := by
    intro name hrefOut p hlen
    unfold attrValueRound
    split; · exact hlen
    split
    · split; · exact hlen
      dsimp only
      split
      · next hfits => exact of_decide_eq_true (Bool.and_eq_true_iff.mp hfits).2
      · exact hlen
    · exact hlen
  obtain ⟨st, hst, hleave⟩ := iterate_invariant (fun st : AttrScan => st.hrefOut.length < hrefCap)
    (fun s t hs hagain => by
      have hpass := attrRound_pass hrefCap s
      rw [Option.some.inj hagain] at hpass
      cases hpass with
      | bare _ _ _ => exact hs
      | value _ => exact hvalue _ _ _ hs)
    h hcap
  have hpass := attrRound_pass hrefCap st
  rw [Option.some.inj hleave] at hpass
  cases hpass with
  | atEnd _ => exact hst
  | noValue _ _ => exact hst

theorem length_cstr_le (s : Bytes) : (cstr s).length ≤ s.length := (List.takeWhile_sublist _).length_le

theorem escaped_inj {s t : Bytes} (h : escaped s = escaped t) : s = t := by
  rw [← entityDecode_escaped s, h, entityDecode_escaped]

theorem anchorTag_inj {s t : Bytes} (h : anchorTag s = anchorTag t) : s = t := by
  unfold anchorTag at h
  exact escaped_inj (List.append_cancel_left (List.append_cancel_right h))

/-- A closing tag never leaves more tags open. -/
theorem closeTagRound_stack {alloc : Nat → Bool} {st st' : Scan} {lt afterSlash : Bytes}
    (h : closeTagRound alloc st lt afterSlash = .again st') : st'.stack.length ≤ st.stack.length := by
  unfold closeTagRound at h
  dsimp only at h
  split at h
  · unfold Scan.writeText at h
    split at h
    · cases h
    · cases h
      exact Nat.le_refl _
  split at h
  · cases h
    exact Nat.le_refl _
  split at h
  · cases h
    exact Nat.le_refl _
  obtain ⟨p, stack, buf, hfits⟩ := st
  cases stack with
  | nil =>
      cases h
      exact Nat.le_refl _
  | cons top stack =>
      dsimp only at h
      split at h
      · split at h
        · cases h
        · cases h
          exact Nat.le_succ _
      · cases h
        exact Nat.le_refl _

/-- A pass that writes a link, and opens it, writes a target that fits into the buffer. -/
theorem openTagRound_link {alloc : Nat → Bool} {fuel : Nat} {st st' : Scan} {lt target : Bytes}
    (h : openTagRound alloc fuel st lt = some (.again st')) (hstack : st'.stack = .a :: st.stack)
    (hd : st'.buf.d = st.buf.d ++ anchorTag target) : target.length < hrefBufSize := by
  have hsame : st.stack ≠ .a :: st.stack := fun heq => by simpa using congrArg List.length heq
  unfold openTagRound at h
  dsimp only at h
  split at h
  · unfold Scan.writeText at h
    split at h
    · cases h
    · cases h
      exact absurd hstack hsame
  split at h
  · split at h
    · cases h
      exact absurd hstack hsame
    · cases h
      exact absurd hstack hsame
  split at h
  · cases h
    exact absurd hstack hsame
  next tid isVoid hclass =>
  split at h
  · obtain ⟨e, _, he⟩ := Option.map_eq_some_iff.mp h
    cases e with
    | failed => cases he
    | skipped =>
        cases he
        exact absurd hstack hsame
    | emitted buf =>
        cases he
        exact absurd hstack hsame
  split at h
  · cases h
    exact absurd hstack hsame
  obtain ⟨e, hemit, he⟩ := Option.map_eq_some_iff.mp h
  cases e with
  | failed => cases he
  | skipped =>
      cases he
      exact absurd hstack hsame
  | emitted buf =>
      cases he
      obtain rfl : tid = .a := (List.cons.inj hstack).1
      unfold bufEmitOpenTag at hemit
      rw [if_neg (by simp), if_pos rfl] at hemit
      split at hemit
      · cases hemit
      next href hparse =>
      split at hemit
      · cases hemit
      have hbuf := bufEmitAnchor_d (Emitted.ofAppend_eq (Option.some.inj hemit))
      obtain rfl := anchorTag_inj (List.append_cancel_left (hd.symm.trans hbuf))
      exact Nat.lt_of_le_of_lt (length_cstr_le href) (parseAnchorHref_length (by decide) hparse)

theorem sanitizeRound_link {alloc : Nat → Bool} {fuel : Nat} {st st' : Scan} {target : Bytes}
    (h : sanitizeRound alloc fuel st = some (.again st')) (hstack : st'.stack = .a :: st.stack)
    (hd : st'.buf.d = st.buf.d ++ escaped st.chunk ++ anchorTag target) : target.length < hrefBufSize := by
  have hsame : st.stack ≠ .a :: st.stack := fun heq => by simpa using congrArg List.length heq
  unfold sanitizeRound at h
  split at h; · cases h
  split at h; · cases h
  next buf hbuf =>
  have hchunk : buf.d = st.buf.d ++ escaped st.chunk := emitHtmlEscaped_d hbuf
  split at h; · cases h
  unfold markupRound at h
  split at h
  · cases h
    exact absurd hstack hsame
  split at h
  · cases h
    exact absurd hstack hsame
  split at h
  · have hle := closeTagRound_stack (Option.some.inj h)
    rw [hstack, List.length_cons] at hle
    exact absurd hle (Nat.not_succ_le_self _)
  · exact openTagRound_link h hstack (by rw [hd, ← hchunk])

/-! ## The invariant of the main loop -/

theorem allowedPending_escaped {stack : List Tid} {out : Bytes} (h : AllowedPending stack out) (s : Bytes) :
    AllowedPending stack (out ++ escaped s) :=
  h.append (.of_atom (Or.inl (escapedText_escaped s)))

/-- An effect of markup keeps the invariant, if the stack has room and a link target is short. -/
theorem allowedPending_effect {stack stack' : List Tid} {out w : Bytes} (h : AllowedPending stack out)
    (heff : Effect stack stack' w) (hfits : stack'.length ≤ stackSize)
    (hlink : ∀ target, w = anchorTag target → stack' = .a :: stack → target.length < hrefBufSize) :
    AllowedPending stack' (out ++ w) := by
  cases heff with
  | nothing => rwa [List.append_nil]
  | lt => exact h.append (.of_atom (Or.inl (escapedText_entity (e := (ch '<', ascii "&lt;")) (by decide))))
  | br => exact h.append (.of_atom (Or.inr rfl))
  | opens _ hbr ha => exact h.opens hfits (Or.inl ⟨hbr, ha, rfl⟩)
  | @anchor href _ hsafe _ =>
      have hsafe' := safeTarget_cstr (hrefIsSafe_iff.mp hsafe)
      exact h.opens hfits (Or.inr ⟨rfl, cstr href, hsafe', hlink _ rfl rfl, nul_not_mem_cstr href, rfl⟩)
  | closes _ _ => exact h.closes

/-- What holds before every pass of the main loop. -/
structure LoopAllowed (st : Scan) : Prop where
  pending : AllowedPending st.stack st.buf.d
  noBr : Tid.br ∉ st.stack

theorem LoopAllowed.again {alloc : Nat → Bool} {fuel : Nat} {st st' : Scan} (h : LoopAllowed st)
    (hr : sanitizeRound alloc fuel st = some (.again st')) : LoopAllowed st' := by
  cases sanitizeRound_done hr with
  | again hlt hp hd heff =>
      refine ⟨?_, br_not_mem_effect h.noBr heff⟩
      rw [hd]
      refine allowedPending_effect (allowedPending_escaped h.pending st.chunk) heff st'.stack_fits ?_
      rintro target rfl hstack
      exact sanitizeRound_link hr hstack hd

/-- **What a successful call writes is an allowed document.** -/
theorem sanitize_allowed {alloc : Nat → Bool} {maxOutTotal fuel : Nat} {input out : Bytes}
    (h : updateHtmlSanitizeAlloc alloc maxOutTotal fuel input = some (some out)) : AllowedDoc out := by
  unfold updateHtmlSanitizeAlloc at h
  split at h; · cases h
  split at h; · cases h
  next b hb =>
  split at h
  · cases h
  · cases h
  next st hloop =>
  obtain ⟨b', hclose, rfl⟩ := Option.map_eq_some_iff.mp (Option.some.inj h)
  have hstart : LoopAllowed (.start input b) := by
    have hd : (Scan.start input b).buf.d = [] := bufInit_d hb
    refine ⟨?_, by simp [Scan.start]⟩
    rw [hd]
    exact .done .nil
  obtain ⟨st', hok, hleave⟩ := iterate_invariant LoopAllowed (fun s t hs hr => hs.again hr) hloop hstart
  cases sanitizeRound_done hleave with
  | finished hstack hd =>
      rw [hstack] at hclose
      rw [closeAll_d hok.noBr hclose, hd]
      exact (allowedPending_escaped hok.pending st'.chunk).closes_all

end LibUpdate
