import LibUpdate.Perform.Gate

/-!
# `Perform.Process` — the child of `update_perform`, and the two parties behind it

To `update_perform` the child is an outcome, next to the memory and the pipe that the call asks for. In
`Platform.Spawn` the same call is parent and child step by step. Here the one is shown to do what the other does:
every call of the two parties is one of the device, with its answer and its child, and every call of the device is
one of theirs. So `update_perform` is gated where nothing happens that the pipe cannot show.
-/

namespace LibUpdate

/-- The call of `platform_process_spawn_with_cwd` by a process that has set this for `SIGPIPE`. -/
def spawnCall (path : Bytes) (argv : List Bytes) (cwd : Bytes) (ignoresSigpipe : Bool) : Spawn.Call :=
  ⟨some path, some argv, some cwd, true, ignoresSigpipe⟩

theorem spawnCall_refused (path : Bytes) (argv : List Bytes) (cwd : Bytes) (ignoresSigpipe : Bool) :
    (spawnCall path argv cwd ignoresSigpipe).refused = (path = [] || argv = [] : Bool) := by
  cases path <;> cases argv <;> rfl

/-- What a call shows that ends with this child. -/
def forkActs (path : Bytes) (argv : List Bytes) (cwd : Bytes) (child : Child) : List Act :=
  if child = .none then [] else [.forked path argv cwd child]

/-- Where there is memory, the arguments are copied, and nothing is shown. -/
theorem run_dupArgs {β : Type} {e : LibOutcome} (hmemory : ∀ n, e (.malloc n) = true) (argv : List Bytes)
    (f : Bool → LibProg β) (es : List LibOutcome) (s : LibState) :
    (libDevice.run (dupArgs argv >>= f) (.replicate argv.length e ++ es) s).result = (libDevice.run (f true) es s).result
      ∧ (libDevice.run (dupArgs argv >>= f) (.replicate argv.length e ++ es) s).trace actsOf
        = (libDevice.run (f true) es s).trace actsOf := by
  induction argv with
  | nil => exact ⟨rfl, rfl⟩
  | cons arg argv ih =>
      have hstep : dupArgs (arg :: argv) >>= f
          = ask (.malloc (arg.length + 1)) >>= fun given => (if given then dupArgs argv else pure false) >>= f := rfl
      rw [hstep, List.length_cons, List.replicate_succ, List.cons_append, Prog.perform_bind, Device.run_op_cons]
      have hgiven : (libDevice.step (.malloc (arg.length + 1)) e s) = (true, s) := by
        show (e (.malloc (arg.length + 1)), s) = _
        rw [hmemory]
      rw [hgiven]
      exact ih

/-- Everything that the call asks for is given, and this becomes of the child. -/
theorem run_processSpawn {path : Bytes} {argv : List Bytes} (hpath : path ≠ []) (hargv : argv ≠ []) (cwd : Bytes)
    (child : Child) (s : LibState) :
    ∃ es, (libDevice.run (platformProcessSpawnWithCwd path argv cwd) es s).result = some child.endOfFile
      ∧ (libDevice.run (platformProcessSpawnWithCwd path argv cwd) es s).trace actsOf
        = forkActs path argv cwd child := by
  refine ⟨childOutcome child :: (.replicate argv.length (childOutcome child) ++ .replicate 2 (childOutcome child)), ?_⟩
  have hcall : (decide (path = []) || decide (argv = [])) = false := by simp [hpath, hargv]
  have hrun := run_dupArgs (e := childOutcome child) (fun _ => rfl) argv (fun copied => if copied then
    ask .pipe >>= fun piped => if piped then
      ask (.fork path argv cwd) >>= fun child => pure child.endOfFile else pure false else pure false)
    (.replicate 2 (childOutcome child)) s
  unfold platformProcessSpawnWithCwd
  rw [hcall]
  refine ⟨hrun.1.trans rfl, hrun.2.trans ?_⟩
  show actsOf ⟨.pipe, _, s⟩ ++ (actsOf ⟨.fork path argv cwd, _, s⟩ ++ []) = _
  rw [List.append_nil]
  rfl

/-- **Every call of the two parties is one of the device**, with its answer and with what becomes of the child. -/
theorem platformProcessSpawnWithCwd_simulates {path : Bytes} {argv : List Bytes} (hpath : path ≠ []) (hargv : argv ≠ [])
    (cwd : Bytes) (ignoresSigpipe : Bool) (s : LibState) {acts : List Spawn.Act} {t : Spawn.St} {rc : Spawn.Code}
    (hrun : (Spawn.machine (spawnCall path argv cwd ignoresSigpipe)).run Spawn.anything Spawn.start acts = some t)
    (hrc : t.parent = .returned rc) :
    ∃ child es, Spawn.Shows t rc child
      ∧ (libDevice.run (platformProcessSpawnWithCwd path argv cwd) es s).result = some (decide (rc = .ok))
      ∧ (libDevice.run (platformProcessSpawnWithCwd path argv cwd) es s).trace actsOf
        = forkActs path argv cwd child := by
  obtain ⟨child, hshows⟩ := Spawn.shows_of_run hrun hrc
  obtain ⟨es, hresult, htrace⟩ := run_processSpawn hpath hargv cwd child s
  have hanswer : child.endOfFile = decide (rc = .ok) := by
    rw [Bool.eq_iff_iff, decide_eq_true_eq]
    exact hshows.answer.symm
  exact ⟨child, es, hshows, hresult.trans (congrArg some hanswer), htrace⟩

/-- **The child of the device is that of the two parties.** For a program and words that there are: what the call
    returns and shows over the device, for some outcomes of what it asks for, is what parent and child come to, in
    some order of their steps and with some failures, and the other way round. -/
theorem platformProcessSpawnWithCwd_iff {path : Bytes} {argv : List Bytes} (hpath : path ≠ []) (hargv : argv ≠ [])
    (cwd : Bytes) (ignoresSigpipe : Bool) (s : LibState) (r : Bool) (tr : List Act) :
    (∃ es, (libDevice.run (platformProcessSpawnWithCwd path argv cwd) es s).result = some r
        ∧ (libDevice.run (platformProcessSpawnWithCwd path argv cwd) es s).trace actsOf = tr)
      ↔ ∃ child, Spawn.EndsAs Spawn.anything (spawnCall path argv cwd ignoresSigpipe) child
        ∧ r = child.endOfFile ∧ tr = forkActs path argv cwd child := by
  have hcall : (spawnCall path argv cwd ignoresSigpipe).refused = false := by
    rw [spawnCall_refused]
    simp [hpath, hargv]
  constructor
  · rintro ⟨es, hr, rfl⟩
    have hends := (platformProcessSpawnWithCwd_ends (A := fun _ => True) path argv cwd s).sound
      (fun _ _ => trivial) hr
    rcases hends.2 with ⟨rfl, htr⟩ | ⟨child, hborn, rfl, htr⟩
    · exact ⟨.none, Spawn.endsAs_anything hcall .none, rfl, htr⟩
    · exact ⟨child, Spawn.endsAs_anything hcall child, rfl, by rw [htr, forkActs, if_neg hborn]⟩
  · rintro ⟨child, -, rfl, rfl⟩
    exact run_processSpawn hpath hargv cwd child s

/-! ## When the gate holds -/

/-- Numbers that fit in 32 bits are compared as they are written. -/
theorem ComparedAsWritten.of_small {version body : Bytes} (hversion : SmallVersion version)
    (hbody : ∀ v, jsonStringValue (cstr body) (ascii "version") = some v → SmallVersion v) :
    ComparedAsWritten version body :=
  fun v hv hread => (newerAsRead_iff_strictlyNewer (hbody v hv) hversion).mp hread

/-- **A run is untroubled** where nothing happens between parent and child that the pipe cannot show, and the numbers
    of the versions fit in 32 bits. -/
theorem Untroubled.of_heard {version : Bytes} {tr : List Act} (ignoresSigpipe : Bool)
    (hheard : ∀ path argv cwd child, Act.forked path argv cwd child ∈ tr →
      Spawn.EndsAs Spawn.heard (spawnCall path argv cwd ignoresSigpipe) child)
    (hversion : SmallVersion version)
    (hbody : ∀ url body, Act.fetched url body ∈ tr →
      ∀ v, jsonStringValue (cstr body) (ascii "version") = some v → SmallVersion v) :
    Untroubled version tr where
  told path argv cwd child hmem := by
    have hanswer := (hheard path argv cwd child hmem).answer_right
    constructor
    · rintro rfl
      cases hanswer
    · rintro rfl
      cases hanswer
  compared _ _ _ url body _ hfetched := .of_small hversion (hbody url body hfetched)

end LibUpdate
