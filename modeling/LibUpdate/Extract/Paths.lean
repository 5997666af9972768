import LibUpdate.Extract.Model

/-!
# `Extract.Paths` — where the paths of an extraction lead

Every path that an extraction works on is the destination, or is joined to it by a `/` and a rest without
`..` segments (`Joined`). Such a path leads to the destination or below it, whether it is split at `/` as the
system does or at both separators. The one exception are the directories on the way to the destination
(`Ancestor`), at which `mkdir -p` calls `mkdir` too.
-/

namespace LibUpdate

/-- Read with both separators, a path leads to the destination or below it. -/
def Inside (dest p : Bytes) : Prop := resolvePath isAnySep dest <+: resolvePath isAnySep p

/-- The destination, or a path joined to it that does not go up. -/
def Joined (dest p : Bytes) : Prop := p = dest ∨ ∃ rest, p = dest ++ ch '/' :: rest ∧ NoDotDot isAnySep rest

/-- A directory on the way to the destination. -/
def Ancestor (dest p : Bytes) : Prop := ∃ rest, dest = p ++ ch '/' :: rest

/-- The paths at which `mkdir` may be called. -/
def DirOk (dest p : Bytes) : Prop := Joined dest p ∨ Ancestor dest p

variable {dest p q name : Bytes}

/-! ## Where such paths lead -/

theorem NoDotDot.slash (h : NoDotDot isAnySep p) : NoDotDot isPathSep p := by
  refine h.coarsen (fun c hc => ?_) (by decide)
  simp only [isPathSep, beq_iff_eq] at hc
  simp [isAnySep, hc]

theorem Joined.inside (h : Joined dest p) : Inside dest p := by
  rcases h with rfl | ⟨rest, rfl, hrest⟩
  · exact List.prefix_refl _
  · rw [Inside, resolvePath_join (by decide) hrest]
    exact List.prefix_append _ _

theorem Joined.fsPath_below (h : Joined dest p) : fsPath dest <+: fsPath p := by
  rcases h with rfl | ⟨rest, rfl, hrest⟩
  · exact List.prefix_refl _
  · rw [fsPath, fsPath, resolvePath_join (by decide) hrest.slash]
    exact List.prefix_append _ _

/-- An ancestor of an accepted destination leads to a directory above it. -/
theorem Ancestor.inside (hdest : NoDotDot isAnySep dest) (h : Ancestor dest p) : Inside p dest := by
  obtain ⟨rest, rfl⟩ := h
  exact Joined.inside (Or.inr ⟨rest, rfl, ((noDotDot_join_iff (by decide)).mp hdest).2⟩)

theorem Ancestor.fsPath_below (hdest : NoDotDot isAnySep dest) (h : Ancestor dest p) :
    fsPath p <+: fsPath dest := by
  obtain ⟨rest, rfl⟩ := h
  exact Joined.fsPath_below (Or.inr ⟨rest, rfl, ((noDotDot_join_iff (by decide)).mp hdest).2⟩)

/-! ## The paths of the entry loop -/

/-- A path that is cut at a `/`. -/
theorem DirOk.cut {rest : Bytes} (h : DirOk dest (p ++ ch '/' :: rest)) : DirOk dest p := by
  rcases h with (heq | ⟨r, heq, hr⟩) | ⟨r, heq⟩
  · exact Or.inr ⟨rest, heq.symm⟩
  · rcases List.append_eq_append_iff.mp heq with ⟨x, hdest, hx⟩ | ⟨x, hp, hx⟩
    · cases x with
      | nil =>
          rw [List.append_nil] at hdest
          exact Or.inl (Or.inl hdest.symm)
      | cons c x =>
          rw [List.cons_append] at hx
          obtain ⟨rfl, _⟩ := List.cons.inj hx
          exact Or.inr ⟨x, hdest⟩
    · cases x with
      | nil =>
          rw [List.append_nil] at hp
          exact Or.inl (Or.inl hp)
      | cons c x =>
          rw [List.cons_append] at hx
          obtain ⟨rfl, rfl⟩ := List.cons.inj hx
          exact Or.inl (Or.inr ⟨x, hp, ((noDotDot_join_iff (by decide)).mp hr).1⟩)
  · exact Or.inr ⟨rest ++ ch '/' :: r, by rw [heq, List.append_assoc, List.cons_append]⟩

theorem beforeLastSlash_eq (h : beforeLastSlash p = some q) : ∃ rest, p = q ++ ch '/' :: rest := by
  unfold beforeLastSlash at h
  split at h
  · next hany =>
    have hq := Option.some.inj h
    have hsplit := List.takeWhile_append_dropWhile (p := fun c => !isPathSep c) (l := p.reverse)
    cases hd : p.reverse.dropWhile fun c => !isPathSep c with
    | nil =>
        rw [hd, List.append_nil] at hsplit
        obtain ⟨c, hc, hsep⟩ := List.any_eq_true.mp hany
        have := forall_takeWhile (fun c => !isPathSep c) p.reverse c (by rw [hsplit]; simpa using hc)
        simp [hsep] at this
    | cons c r =>
        have hc := head?_dropWhile (fun c => !isPathSep c) p.reverse c (by rw [hd]; rfl)
        obtain rfl : c = ch '/' := by simpa [isPathSep] using hc
        rw [hd] at hq hsplit
        refine ⟨(p.reverse.takeWhile fun c => !isPathSep c).reverse, ?_⟩
        have hrev := congrArg List.reverse hsplit
        rw [List.reverse_append, List.reverse_reverse, List.reverse_cons, List.append_assoc] at hrev
        rw [← hq]
        exact hrev.symm
  · cases h

theorem stripTrailingSeps_append (s : Bytes) :
    ∃ seps, s = stripTrailingSeps s ++ seps ∧ ∀ c ∈ seps, isAnySep c = true := by
  refine ⟨(s.reverse.takeWhile isAnySep).reverse, ?_, ?_⟩
  · rw [stripTrailingSeps, ← List.reverse_append, List.takeWhile_append_dropWhile, List.reverse_reverse]
  · intro c hc
    exact forall_takeWhile isAnySep s.reverse c (List.mem_reverse.mp hc)

/-- Trimming a path that goes on behind `/` with another byte than a separator leaves the `/` alone. -/
theorem stripTrailingSeps_join {base : Bytes} (h : ∃ c ∈ name, isAnySep c = false) :
    stripTrailingSeps (base ++ ch '/' :: name) = base ++ ch '/' :: stripTrailingSeps name := by
  obtain ⟨c, hc, hsep⟩ := h
  have hne : (name.reverse.dropWhile isAnySep).isEmpty = false := by
    rw [Bool.eq_false_iff]
    intro hempty
    have hall : (name.reverse.takeWhile isAnySep) = name.reverse := by
      have hsplit := List.takeWhile_append_dropWhile (p := isAnySep) (l := name.reverse)
      rwa [List.isEmpty_iff.mp hempty, List.append_nil] at hsplit
    have := forall_takeWhile isAnySep name.reverse c (by rw [hall]; simpa using hc)
    rw [hsep] at this
    cases this
  unfold stripTrailingSeps
  rw [List.reverse_append, List.reverse_cons, List.append_assoc, List.dropWhile_append, hne]
  simp

/-- What the name filter lets through. -/
structure NameSafe (name : Bytes) : Prop where
  down : NoDotDot isAnySep name
  starts : ∃ c ∈ name, isAnySep c = false

theorem zipEntryNameSafe_nameSafe (h : zipEntryNameSafe name = true) : NameSafe name := by
  unfold zipEntryNameSafe at h
  split at h; · cases h
  next hne =>
  split at h; · cases h
  next hhead =>
  split at h; · cases h
  constructor
  · intro hmem
    have := List.all_eq_true.mp h dotdot hmem
    simp at this
    exact absurd this (by decide)
  · cases name with
    | nil => exact absurd rfl hne
    | cons c name => exact ⟨c, List.mem_cons_self, by simpa using hhead⟩

theorem entryPath_eq {e : Entry} {fullPath : Bytes} (h : entryPath dest e = some fullPath) :
    fullPath = dest ++ ch '/' :: e.filename ∧ NameSafe e.filename := by
  unfold entryPath at h
  split at h; · cases h
  split at h; · cases h
  split at h; · cases h
  next hsafe =>
  split at h; · cases h
  next path hjoin =>
  split at h
  · cases h
    rw [joinDestEntry, snprintf_eq_some] at hjoin
    refine ⟨?_, zipEntryNameSafe_nameSafe (by simpa using hsafe)⟩
    rw [hjoin.2, List.append_assoc]
    rfl
  · cases h

theorem NameSafe.joined (h : NameSafe name) : Joined dest (dest ++ ch '/' :: name) :=
  Or.inr ⟨name, rfl, h.down⟩

theorem NameSafe.strip_joined (h : NameSafe name) : Joined dest (stripTrailingSeps (dest ++ ch '/' :: name)) := by
  rw [stripTrailingSeps_join h.starts]
  refine Or.inr ⟨_, rfl, ?_⟩
  obtain ⟨seps, hname, hseps⟩ := stripTrailingSeps_append name
  cases seps with
  | nil =>
      rw [List.append_nil] at hname
      rw [← hname]
      exact h.down
  | cons c seps =>
      have hdown := h.down
      rw [hname, noDotDot_join_iff (hseps c List.mem_cons_self)] at hdown
      exact hdown.1

theorem NameSafe.tmp_joined (h : NameSafe name) :
    Joined dest (dest ++ ch '/' :: name ++ extractingSuffix) := by
  rw [List.append_assoc, List.cons_append]
  exact Or.inr ⟨_, rfl, noDotDot_append (by decide +kernel) (by decide +kernel) h.down⟩

end LibUpdate
