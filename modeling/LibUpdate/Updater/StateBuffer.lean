import LibUpdate.Updater.State

/-!
# `Updater.StateBuffer` — the stores of the state reader (`update_state.c`)

The read loop of `updater_state_load` keeps three numbers: how much was read, how much is allocated, and what
the last `fread` gave. `statePasses` lists them for each pass, also behind a store that lies outside of the
allocation, so that what is stored where can be told of whole runs. The capacity is always what the block
needs, and so one byte short for the NUL behind a full block.
-/

namespace LibUpdate

/-- A pass of the loop: what was read before it, the capacity that `fread` finds, and what `fread` gives. -/
structure ReadPass where
  len : Nat
  cap : Nat
  nread : Nat
  deriving DecidableEq, Repr

/-- The block that `fread` is given, and the NUL behind what it has read, lie in the allocation. -/
def ReadPass.InBounds (p : ReadPass) : Prop := p.len + 4096 ≤ p.cap ∧ p.len + p.nread < p.cap

/-- The loop from `len` bytes in an allocation of `cap`; `rest` is what the stream still gives. A stream that
    ends and one that fails look the same to the loop. -/
def readPasses (alloc : Nat → Bool) (len cap : Nat) (rest : Bytes) : List ReadPass :=
  if len + 4096 > stateReadMax then []
  -- the growth asks for room for the block, not for the NUL behind it
  else if len + 4096 > cap && !alloc (cap + 4096) then []
  else
    let cap := if len + 4096 > cap then cap + 4096 else cap
    let nread := (rest.take 4096).length
    ⟨len, cap, nread⟩ :: if _h : nread < 4096 then [] else readPasses alloc (len + nread) cap (rest.drop 4096)
termination_by rest.length
decreasing_by
  have hlen : nread ≤ rest.length := by
    rw [show nread = (rest.take 4096).length from rfl, List.length_take]
    omega
  rw [List.length_drop]
  omega

/-- The passes on a file, from the first `malloc` on. -/
def statePasses (alloc : Nat → Bool) (file : Bytes) : List ReadPass :=
  if alloc 4096 then readPasses alloc 0 4096 file else []

/-! ## What a pass does -/

/-- The loop as it comes to a pass: everything that is allocated has been read, or nothing has been. -/
def Filled (len cap : Nat) : Prop := cap = len ∨ len = 0 ∧ cap = 4096

/-- The capacity is what the block needs, and no more, up to the cut-off. -/
theorem readPasses_cap {alloc : Nat → Bool} {len cap : Nat} {rest : Bytes} (h : Filled len cap) :
    ∀ p ∈ readPasses alloc len cap rest, p.cap = p.len + 4096 ∧ p.cap ≤ stateReadMax ∧ p.nread ≤ 4096 := by
  induction hn : rest.length using Nat.strongRecOn generalizing len cap rest with
  | ind n ih =>
      unfold readPasses
      split
      · simp
      next hmax =>
      split
      · simp
      dsimp only
      have hcap : (if len + 4096 > cap then cap + 4096 else cap) = len + 4096 := by
        rcases h with rfl | ⟨rfl, rfl⟩
        · rw [if_pos (by omega)]
        · rfl
      rw [hcap, List.forall_mem_cons]
      have htake : (rest.take 4096).length = min 4096 rest.length := List.length_take
      refine ⟨⟨rfl, Nat.le_of_not_lt hmax, ?_⟩, ?_⟩
      · dsimp only
        omega
      split
      · simp
      next hfull =>
      -- a full block: all of the allocation has been read
      have hnread : (rest.take 4096).length = 4096 := by omega
      refine ih (rest.drop 4096).length ?_ ?_ rfl
      · rw [List.length_drop]
        omega
      · exact Or.inl (by rw [hnread])

/-- **What a pass stores where**: the block is in the allocation, and the NUL is at most one byte behind it. -/
theorem statePasses_inBounds_iff {alloc : Nat → Bool} {file : Bytes} {p : ReadPass}
    (h : p ∈ statePasses alloc file) :
    p.len + 4096 ≤ p.cap ∧ p.len + p.nread ≤ p.cap ∧ (p.InBounds ↔ p.nread < 4096) := by
  unfold statePasses at h
  split at h
  · have hfilled : Filled 0 4096 := Or.inr ⟨rfl, rfl⟩
    obtain ⟨hcap, _, hnread⟩ := readPasses_cap hfilled p h
    refine ⟨by omega, by omega, ?_⟩
    unfold ReadPass.InBounds
    omega
  · exact absurd h List.not_mem_nil

/-! ## Whole runs -/

/-- A pass that finds room for its block. -/
theorem readPasses_room (alloc : Nat → Bool) (rest : Bytes) {len cap : Nat} (hmax : len + 4096 ≤ stateReadMax)
    (hroom : len + 4096 ≤ cap) :
    ∃ more, readPasses alloc len cap rest = ⟨len, cap, (rest.take 4096).length⟩ :: more
      ∧ ((rest.take 4096).length < 4096 → more = []) := by
  unfold readPasses
  rw [if_neg (Nat.not_lt.mpr hmax), if_neg (by simp [Nat.not_lt.mpr hroom])]
  dsimp only
  rw [if_neg (Nat.not_lt.mpr hroom)]
  exact ⟨_, rfl, fun hshort => dif_pos hshort⟩

theorem statePasses_first {alloc : Nat → Bool} (h : alloc 4096 = true) (file : Bytes) :
    ∃ more, statePasses alloc file = ⟨0, 4096, (file.take 4096).length⟩ :: more
      ∧ (file.length < 4096 → more = []) := by
  have hmax : 0 + 4096 ≤ stateReadMax := by
    unfold stateReadMax
    omega
  obtain ⟨more, hpasses, hmore⟩ := readPasses_room alloc file hmax (Nat.le_of_eq (Nat.zero_add 4096))
  rw [statePasses, if_pos h]
  refine ⟨more, hpasses, fun hshort => hmore ?_⟩
  rw [List.length_take]
  omega

/-- **Every store of the reader lies in its buffer** exactly where the file gives less than one block, or there
    is no buffer. -/
theorem statePasses_inBounds (alloc : Nat → Bool) (file : Bytes) :
    (∀ p ∈ statePasses alloc file, p.InBounds) ↔ (alloc 4096 = true → file.length < 4096) := by
  have htake : (file.take 4096).length = min 4096 file.length := List.length_take
  constructor
  · intro h halloc
    obtain ⟨more, hpasses, _⟩ := statePasses_first halloc file
    have hfirst : (⟨0, 4096, (file.take 4096).length⟩ : ReadPass) ∈ statePasses alloc file := by
      rw [hpasses]
      exact List.mem_cons_self
    have hnread := (statePasses_inBounds_iff hfirst).2.2.mp (h _ hfirst)
    dsimp only at hnread
    omega
  · intro h p hp
    cases halloc : alloc 4096 with
    | false =>
        rw [statePasses, if_neg (by simp [halloc])] at hp
        exact absurd hp List.not_mem_nil
    | true =>
        have hshort := h halloc
        obtain ⟨more, hpasses, hmore⟩ := statePasses_first halloc file
        refine (statePasses_inBounds_iff hp).2.2.mpr ?_
        rw [hpasses, hmore hshort] at hp
        rw [List.mem_singleton.mp hp]
        dsimp only
        omega

theorem updaterStateParse_ne_overrun (buf : Bytes) : updaterStateParse buf ≠ .overrun := by
  unfold updaterStateParse
  split
  · simp
  · simp

/-- With memory, the load gets behind its loop exactly where all stores of the loop lie in the buffer. -/
theorem updaterStateLoad_overrun_iff (file : Bytes) :
    updaterStateLoad (some file) = .overrun ↔ ¬ ∀ p ∈ statePasses memory file, p.InBounds := by
  have hmemory : memory 4096 = true := rfl
  rw [statePasses_inBounds, updaterStateLoad]
  by_cases hshort : file.length < 4096
  · rw [readStateBlocks_short hshort]
    exact iff_of_false (updaterStateParse_ne_overrun _) (fun h => h fun _ => hshort)
  · rw [readStateBlocks_long (Nat.le_of_not_lt hshort)]
    exact iff_of_true rfl fun h => hshort (h hmemory)

/-- **A file of one block** is followed by a NUL behind the allocation. -/
theorem statePasses_overrun :
    (⟨0, 4096, 4096⟩ : ReadPass) ∈ statePasses memory (List.replicate 4096 (ch ' '))
      ∧ ¬ ∀ p ∈ statePasses memory (List.replicate 4096 (ch ' ')), p.InBounds := by
  have hlen : (List.replicate 4096 (ch ' ')).length = 4096 := List.length_replicate
  obtain ⟨more, hpasses, _⟩ := statePasses_first (show memory 4096 = true from rfl) (List.replicate 4096 (ch ' '))
  rw [List.take_of_length_le (Nat.le_of_eq hlen), hlen] at hpasses
  have hfirst : (⟨0, 4096, 4096⟩ : ReadPass) ∈ statePasses memory (List.replicate 4096 (ch ' ')) := by
    rw [hpasses]
    exact List.mem_cons_self
  exact ⟨hfirst, fun h => absurd (h _ hfirst).2 (Nat.lt_irrefl 4096)⟩

end LibUpdate
