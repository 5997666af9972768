import LibUpdate.Html.Escape
import LibUpdate.Html.Termination

/-!
# `Html.Run` — the sanitizer, told by what it writes

`Emits p stack out` says that the main loop from the cursor `p` with the open tags `stack`, and the loop
behind it, write `out`, whatever is in the buffer, as long as it fits. It is proved from the front of the
text: a byte of text is written escaped (`Emits.byte`), and a piece of markup is a step to a later cursor
(`Steps`, `Emits.step`). What the pieces do whatever follows them is the second half of this module.
-/

namespace LibUpdate

/-! ## The writing calls -/

theorem bufAppendAll_fills {b : Buf} {parts : List Bytes} (hsize : b.d.length + parts.flatten.length < halfSize) :
    Fills b parts.flatten (bufAppendAll memory b parts) := by
  induction parts generalizing b with
  | nil => exact .nil b
  | cons s parts ih =>
      rw [List.flatten_cons, List.length_append] at hsize
      rw [List.flatten_cons]
      refine (bufAppend_fills (by omega)).seq (fun h => ?_) fun b' h hd => ?_
      · rw [bufAppendAll, h]
      · rw [bufAppendAll, h]
        refine ih ?_
        rw [hd, List.length_append]
        omega

theorem bufEmitCloseTag_fills {b : Buf} {t : Tid} (hbr : t ≠ .br)
    (hsize : b.d.length + (closeTag t).length < halfSize) : Fills b (closeTag t) (bufEmitCloseTag memory b t) := by
  have hparts : closeTag t = [ascii "</", tagOpen t, ascii ">"].flatten := by simp [closeTag]
  rw [hparts] at hsize ⊢
  rw [bufEmitCloseTag, if_neg hbr]
  exact bufAppendAll_fills hsize

theorem bufEmitAnchor_fills {b : Buf} {href : Bytes} (hsize : b.d.length + (anchorTag href).length < halfSize) :
    Fills b (anchorTag href) (bufEmitAnchor memory b href) := by
  have hparts : anchorTag href = ascii "<a href=\"" ++ (escaped href ++ ascii "\">") := List.append_assoc ..
  rw [hparts, List.length_append, List.length_append] at hsize
  rw [hparts]
  refine (bufAppend_fills (by omega)).seq (fun h => ?_) fun b₁ h₁ hd₁ => ?_
  · rw [bufEmitAnchor, h]
  have hlen₁ : b₁.d.length = b.d.length + (ascii "<a href=\"").length := by rw [hd₁, List.length_append]
  refine (emitHtmlEscaped_fills (by omega)).seq (fun h => ?_) fun b₂ h₂ hd₂ => ?_
  · rw [bufEmitAnchor, h₁]
    dsimp only
    rw [h]
  have hlen₂ : b₂.d.length = b₁.d.length + (escaped href).length := by rw [hd₂, List.length_append]
  rw [bufEmitAnchor, h₁]
  dsimp only
  rw [h₂]
  exact bufAppend_fills (by omega)

theorem closeAll_fills {b : Buf} {stack : List Tid} (hbr : Tid.br ∉ stack)
    (hsize : b.d.length + (stack.flatMap closeTag).length < halfSize) :
    Fills b (stack.flatMap closeTag) (closeAll memory b stack) := by
  induction stack generalizing b with
  | nil => exact .nil b
  | cons t stack ih =>
      rw [List.mem_cons, not_or] at hbr
      rw [List.flatMap_cons, List.length_append] at hsize
      rw [List.flatMap_cons]
      refine (bufEmitCloseTag_fills (Ne.symm hbr.1) (by omega)).seq (fun h => ?_) fun b' h hd => ?_
      · rw [closeAll, h]
      · rw [closeAll, h]
        refine ih hbr.2 ?_
        rw [hd, List.length_append]
        omega

/-! ## Runs -/

/-- The main loop and the loop behind it; the result `some none` is a failure. -/
def finish (fuel : Nat) (st : Scan) : Option (Option Buf) :=
  (whileLoop (sanitizeRound memory) fuel st).map fun r => r.bind fun st => closeAll memory st.buf st.stack

/-- The main loop from `p` with the open tags `stack`, and the loop behind it, write `out`. -/
def Emits (p : Bytes) (stack : List Tid) (out : Bytes) : Prop :=
  ∀ (b : Buf) (hfits : stack.length ≤ stackSize), b.d.length + out.length < halfSize →
    ∃ fuel r, finish fuel ⟨p, stack, b, hfits⟩ = some r ∧ Fills b out r

/-- A pass from `p` with the open tags `stack` writes `w` and goes on at `p'` with the open tags `stack'`. -/
def Steps (p : Bytes) (stack : List Tid) (w p' : Bytes) (stack' : List Tid) : Prop :=
  ∀ (b : Buf) (hfits : stack.length ≤ stackSize), b.d.length + w.length < halfSize →
    ∃ (fuel : Nat) (r : Option Buf) (hfits' : stack'.length ≤ stackSize), Fills b w r
      ∧ sanitizeRound memory fuel ⟨p, stack, b, hfits⟩
        = some (r.elim (.leave none) fun b' => .again ⟨p', stack', b', hfits'⟩)

theorem finish_again {m n : Nat} {st st' : Scan} {r : Option Buf} (hp : sanitizeRound memory m st = some (.again st'))
    (h : finish n st' = some r) : ∃ fuel, finish fuel st = some r := by
  obtain ⟨a, ha, rfl⟩ := Option.map_eq_some_iff.mp h
  obtain ⟨fuel, hfuel⟩ := whileLoop_again (sanitizeRound_stable memory) hp ha
  exact ⟨fuel, by rw [finish, hfuel, Option.map_some]⟩

theorem finish_leave {m : Nat} {st : Scan} {a : Option Scan} (hp : sanitizeRound memory m st = some (.leave a)) :
    ∃ fuel, finish fuel st = some (a.bind fun st => closeAll memory st.buf st.stack) := by
  obtain ⟨fuel, hfuel⟩ := whileLoop_leave (sanitizeRound_stable memory) hp
  exact ⟨fuel, by rw [finish, hfuel, Option.map_some]⟩

/-- At the end of the text the open tags are closed. -/
theorem Emits.nil {stack : List Tid} (hbr : Tid.br ∉ stack) : Emits [] stack (stack.flatMap closeTag) := by
  intro b hfits hsize
  have hround : sanitizeRound memory 0 ⟨[], stack, b, hfits⟩ = some (.leave (some ⟨[], stack, b, hfits⟩)) := rfl
  obtain ⟨fuel, hfuel⟩ := finish_leave hround
  exact ⟨fuel, _, hfuel, closeAll_fills hbr hsize⟩

/-- A step, and the rest of the run. -/
theorem Emits.step {p p' w out : Bytes} {stack stack' : List Tid} (hstep : Steps p stack w p' stack')
    (h : Emits p' stack' out) : Emits p stack (w ++ out) := by
  intro b hfits hsize
  rw [List.length_append] at hsize
  obtain ⟨m, r, hfits', hfill, hround⟩ := hstep b hfits (by omega)
  cases r with
  | none =>
      obtain ⟨fuel, hfuel⟩ := finish_leave hround
      exact ⟨fuel, none, hfuel, hfill.seq (fun _ => rfl) fun b' hb' => by cases hb'⟩
  | some b' =>
      have hd : b'.d = b.d ++ w := by
        by_cases hroom : b.d.length + w.length < b.maxTotal
        · obtain ⟨b'', hb'', hd, _⟩ := hfill.written hroom
          rw [Option.some.inj hb'', hd]
        · cases hfill.full (by omega)
      obtain ⟨n, q, hq, hfill'⟩ := h b' hfits' (by rw [hd, List.length_append]; omega)
      obtain ⟨fuel, hfuel⟩ := finish_again hround hq
      refine ⟨fuel, q, hfuel, hfill.seq (fun hnone => by cases hnone) ?_⟩
      intro b'' hb'' _
      cases hb''
      exact hfill'

theorem closeTagRound_cursor (alloc : Nat → Bool) (p₁ p₂ : Bytes) {stack : List Tid} (buf : Buf)
    (hfits : stack.length ≤ stackSize) (lt afterSlash : Bytes) :
    closeTagRound alloc ⟨p₁, stack, buf, hfits⟩ lt afterSlash
      = closeTagRound alloc ⟨p₂, stack, buf, hfits⟩ lt afterSlash := by
  cases stack <;> rfl

/-- What markup does, it does from its `<`: the cursor before the text does not matter. -/
theorem markupRound_cursor (alloc : Nat → Bool) (fuel : Nat) (p₁ p₂ : Bytes) {stack : List Tid} (buf : Buf)
    (hfits : stack.length ≤ stackSize) (lt : Bytes) :
    markupRound alloc fuel ⟨p₁, stack, buf, hfits⟩ lt = markupRound alloc fuel ⟨p₂, stack, buf, hfits⟩ lt := by
  unfold markupRound
  rw [closeTagRound_cursor alloc p₁ p₂]
  rfl

/-- How the pass behind a byte of text compares with the pass at it: only the cursor they leave behind at
    the end differs. -/
theorem sanitizeRound_byte {c : UInt8} (hc : c ≠ ch '<') {p : Bytes} {stack : List Tid} {b b' : Buf}
    {hfits : stack.length ≤ stackSize} (hb : bufAppend memory b (escapeByte c) = some b') {fuel : Nat}
    {r : Round Scan (Option Scan)} (h : sanitizeRound memory fuel ⟨p, stack, b', hfits⟩ = some r) :
    ∃ r', sanitizeRound memory fuel ⟨c :: p, stack, b, hfits⟩ = some r'
      ∧ (r' = r ∨ ∃ buf p₁ p₂, r = .leave (some ⟨p₁, stack, buf, hfits⟩)
          ∧ r' = .leave (some ⟨p₂, stack, buf, hfits⟩)) := by
  have htest : (c != ch '<') = true := bne_iff_ne.mpr hc
  have hemit : emitHtmlEscaped memory b (c :: p.takeWhile (· != ch '<'))
      = emitHtmlEscaped memory b' (p.takeWhile (· != ch '<')) := by
    rw [emitHtmlEscaped, hb]
  have htake : (c :: p).takeWhile (· != ch '<') = c :: p.takeWhile (· != ch '<') :=
    List.takeWhile_cons_of_pos htest
  have hdrop : (c :: p).dropWhile (· != ch '<') = p.dropWhile (· != ch '<') := List.dropWhile_cons_of_pos htest
  unfold sanitizeRound at h ⊢
  rw [if_neg (List.cons_ne_nil c p)]
  dsimp only at h ⊢
  rw [htake, hdrop, hemit]
  by_cases hp : p = []
  · subst hp
    obtain rfl := Option.some.inj h
    exact ⟨_, rfl, Or.inr ⟨b', [], [c], rfl, rfl⟩⟩
  rw [if_neg hp] at h
  cases hbuf : emitHtmlEscaped memory b' (p.takeWhile (· != ch '<')) with
  | none =>
      rw [hbuf] at h
      exact ⟨r, h, Or.inl rfl⟩
  | some buf =>
      rw [hbuf] at h
      dsimp only at h ⊢
      cases hlt : p.dropWhile (· != ch '<') with
      | nil =>
          rw [hlt] at h
          obtain rfl := Option.some.inj h
          exact ⟨_, rfl, Or.inr ⟨buf, p, c :: p, rfl, rfl⟩⟩
      | cons d rest =>
          rw [hlt] at h
          exact ⟨r, (markupRound_cursor memory fuel (c :: p) p buf hfits (d :: rest)).trans h, Or.inl rfl⟩

/-- A byte of text is written escaped. -/
theorem Emits.byte {c : UInt8} (hc : c ≠ ch '<') {p out : Bytes} {stack : List Tid} (h : Emits p stack out) :
    Emits (c :: p) stack (escapeByte c ++ out) := by
  intro b hfits hsize
  rw [List.length_append] at hsize
  have hfill := bufAppend_fills (b := b) (s := escapeByte c) (by omega)
  cases hb : bufAppend memory b (escapeByte c) with
  | none =>
      have hround : sanitizeRound memory 0 ⟨c :: p, stack, b, hfits⟩ = some (.leave none) := by
        have htake : (c :: p).takeWhile (· != ch '<') = c :: p.takeWhile (· != ch '<') :=
          List.takeWhile_cons_of_pos (bne_iff_ne.mpr hc)
        unfold sanitizeRound
        rw [if_neg (List.cons_ne_nil c p)]
        dsimp only
        rw [htake, emitHtmlEscaped, hb]
      obtain ⟨fuel, hfuel⟩ := finish_leave hround
      exact ⟨fuel, none, hfuel, hfill.seq (fun _ => rfl) fun b' hb' => by rw [hb] at hb'; cases hb'⟩
  | some b' =>
      have hd := bufAppend_d hb
      obtain ⟨fuel, q, hq, hfill'⟩ := h b' hfits (by rw [hd, List.length_append]; omega)
      have hrun : ∃ fuel, finish fuel ⟨c :: p, stack, b, hfits⟩ = some q := by
        obtain ⟨a, ha, rfl⟩ := Option.map_eq_some_iff.mp hq
        obtain ⟨n, rfl, ⟨t, hp, ht⟩ | hp⟩ := iterate_eq_some ha
        · obtain ⟨r', hr', rfl | ⟨buf, p₁, p₂, hleave, _⟩⟩ := sanitizeRound_byte hc hb hp
          · exact ⟨n + 1, by rw [finish, whileLoop, iterate_again hr', ht, Option.map_some]⟩
          · cases hleave
        · obtain ⟨r', hr', rfl | ⟨buf, p₁, p₂, hleave, rfl⟩⟩ := sanitizeRound_byte hc hb hp
          · exact finish_leave hr'
          · cases hleave
            have hend := finish_leave hr'
            exact hend
      obtain ⟨fuel', hfuel'⟩ := hrun
      refine ⟨fuel', q, hfuel', hfill.seq (fun hnone => by rw [hb] at hnone; cases hnone) ?_⟩
      intro b'' hb'' _
      rw [hb] at hb''
      cases hb''
      exact hfill'

/-- Text without `<` is written escaped. -/
theorem Emits.text {s : Bytes} (hs : ch '<' ∉ s) {p out : Bytes} {stack : List Tid} (h : Emits p stack out) :
    Emits (s ++ p) stack (escaped s ++ out) := by
  induction s with
  | nil => exact h
  | cons c s ih =>
      rw [List.mem_cons, not_or] at hs
      rw [escaped_cons, List.append_assoc]
      exact (ih hs.2).byte (Ne.symm hs.1)

/-- What the run of the whole text writes is the result of the call, exactly where it fits. -/
theorem Emits.sanitize {input out : Bytes} (h : Emits input [] out) (hlen : input.length ≤ htmlDescMaxIn)
    (hsize : out.length < halfSize) (maxOutTotal : Nat) :
    ∃ fuel, updateHtmlSanitizeAlloc memory maxOutTotal fuel input
      = some (if out.length + 1 ≤ maxOutTotal then some out else none) := by
  by_cases hzero : maxOutTotal = 0
  · subst hzero
    exact ⟨0, rfl⟩
  obtain ⟨b, hb, hd, hmax⟩ := bufInit_memory (Nat.pos_of_ne_zero hzero)
  have hargs : ¬ (maxOutTotal = 0 || input.length > htmlDescMaxIn) = true := by
    simp [hzero, Nat.not_lt.mpr hlen]
  obtain ⟨fuel, r, hr, hfill⟩ := h b (Nat.zero_le _) (by rw [hd, List.length_nil, Nat.zero_add]; exact hsize)
  have hresult := hfill.fresh hd
  rw [hmax] at hresult
  refine ⟨fuel, ?_⟩
  rw [updateHtmlSanitizeAlloc, if_neg hargs, hb, ← hresult]
  obtain ⟨a, ha, rfl⟩ := Option.map_eq_some_iff.mp hr
  dsimp only [Scan.start]
  rw [ha]
  cases a with
  | none => rfl
  | some st => rfl

/-- The result of a call does not depend on the fuel. -/
theorem updateHtmlSanitizeAlloc_stable (alloc : Nat → Bool) (maxOutTotal : Nat) :
    Stable (updateHtmlSanitizeAlloc alloc maxOutTotal) := by
  intro m n input out hmn h
  unfold updateHtmlSanitizeAlloc at h ⊢
  split at h
  · next hargs => rwa [if_pos hargs]
  next hargs =>
  rw [if_neg hargs]
  split at h
  · exact h
  next b hb =>
  cases hloop : whileLoop (sanitizeRound alloc) m (.start input b) with
  | none =>
      rw [hloop] at h
      cases h
  | some a =>
      rw [hloop] at h
      rw [(sanitizeRound_stable alloc).whileLoop m n _ a hmn hloop]
      exact h

/-- Two calls that come back agree. -/
theorem updateHtmlSanitizeAlloc_unique {alloc : Nat → Bool} {maxOutTotal m n : Nat} {input : Bytes}
    {r r' : Option Bytes} (h : updateHtmlSanitizeAlloc alloc maxOutTotal m input = some r)
    (h' : updateHtmlSanitizeAlloc alloc maxOutTotal n input = some r') : r = r' := by
  have hstable := updateHtmlSanitizeAlloc_stable alloc maxOutTotal
  have hm := hstable m (max m n) input r (Nat.le_max_left m n) h
  have hn := hstable n (max m n) input r' (Nat.le_max_right m n) h'
  exact Option.some.inj (hm.symm.trans hn)

end LibUpdate
