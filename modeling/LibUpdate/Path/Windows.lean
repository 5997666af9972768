import LibUpdate.Path.Absolute

/-!
# `Path.Windows` — device names in paths (`update_path.c`, Windows build)

The Windows build of `update_validate_path` also turns down paths that name a device: `CON`, `NUL`, `COM1` and
the like, in any letter case and with any extension. Windows takes such a name for the device wherever it
stands in a path. The check looks behind the last separator only.
-/

namespace LibUpdate

/-! ## The checks of the Windows build -/

def winPathHasBadChars (path : Bytes) : Bool := path.any fun c => c < 32 || (ascii "<>|*?\"").contains c

def winPathIsAbsolute (path : Bytes) : Bool :=
  (path[0]?.any fun c => (ch 'A' ≤ c && c ≤ ch 'Z') || (ch 'a' ≤ c && c ≤ ch 'z')) && path[1]? == some (ch ':')
      && (path[2]? == some (ch '\\') || path[2]? == some (ch '/'))
    || path[0]? == some (ch '\\') && path[1]? == some (ch '\\')

/-- The letter that `win_reserved_name` makes of a letter in its copy of the name. -/
def winUpper (c : UInt8) : UInt8 := if ch 'a' ≤ c ∧ c ≤ ch 'z' then c - ch 'a' + ch 'A' else c

/-- The tests of `win_reserved_name` on its copy of the name. -/
def winReservedBuf (buf : Bytes) : Bool :=
  let baseLen := (buf.takeWhile (· != ch '.')).length
  if baseLen == 0 then false
  else if baseLen == 3 && (buf.take 3 == ascii "CON" || buf.take 3 == ascii "PRN" || buf.take 3 == ascii "AUX"
      || buf.take 3 == ascii "NUL") then true
  else if baseLen == 4 && buf.take 3 == ascii "COM" && buf[3]?.any fun c => ch '1' ≤ c && c ≤ ch '9' then true
  else if baseLen == 4 && buf.take 3 == ascii "LPT" && buf[3]?.any fun c => ch '1' ≤ c && c ≤ ch '9' then true
  else false

/-- `win_reserved_name`; its copy of the name has 16 bytes. -/
def winReservedName (name : Bytes) (len : Nat) : Bool :=
  if len == 0 || len + 1 > 16 then false else winReservedBuf ((name.take len).map winUpper)

/-- The loop of `path_rejects_win_reserved`: what `base` is at the end of the path. -/
def baseFrom (base : Bytes) : Bytes → Bytes
  | [] => base
  | c :: p => if isAnySep c then baseFrom p p else baseFrom base p

def pathRejectsWinReserved (path : Bytes) : Bool :=
  let base := baseFrom path path
  let dot := (base.takeWhile (· != ch '.')).length
  winReservedName base (if dot < base.length then dot else base.length)

/-- `update_validate_path`. -/
def winValidatePath (path : Bytes) (flags : UInt32) : UpdateStatus :=
  if path = [] then .error
  else if path.length ≥ pathMax then .error
  else if winPathHasBadChars path then .error
  else if pathRejectsDotSegments path then .error
  else if flags &&& 1 != 0 && !winPathIsAbsolute path then .error
  else if pathRejectsWinReserved path then .error
  else .ok

example : winValidatePath (ascii "C:\\notes\\lpt1.txt") 1 = .error := by decide +kernel

/-! ## Device names -/

def deviceNames : List Bytes :=
  [ascii "CON", ascii "PRN", ascii "AUX", ascii "NUL"]
    ++ (ascii "123456789").flatMap fun d => [ascii "COM" ++ [d], ascii "LPT" ++ [d]]

/-- A component names a device by what stands before its first dot, in any letter case. -/
def NamesDevice (comp : Bytes) : Prop :=
  ∃ device ∈ deviceNames, (comp.takeWhile (· != ch '.')).map tolower = device.map tolower

/-- The path is turned down for no other reason. -/
structure PassesOthers (path : Bytes) (flags : UInt32) : Prop where
  nonempty : path ≠ []
  short : path.length < pathMax
  chars : winPathHasBadChars path = false
  segments : pathRejectsDotSegments path = false
  absolute : flags &&& 1 ≠ 0 → winPathIsAbsolute path = true

/-- A path is accepted that passes the other checks and names no device, and none is accepted that names one. -/
def DevicesRejected (path : Bytes) (flags : UInt32) : Prop :=
  ((∃ comp ∈ components path, NamesDevice comp) → winValidatePath path flags = .error)
    ∧ (PassesOthers path flags → (¬ ∃ comp ∈ components path, NamesDevice comp) →
        winValidatePath path flags = .ok)

/-! ## The stem -/

theorem tolower_winUpper (c : UInt8) : tolower (winUpper c) = tolower c := by
  have hall : ∀ c, tolower (winUpper c) = tolower c := forall_byte (by decide +kernel)
  exact hall c

theorem winUpper_tolower (c : UInt8) : winUpper (tolower c) = winUpper c := by
  have hall : ∀ c, winUpper (tolower c) = winUpper c := forall_byte (by decide +kernel)
  exact hall c

/-- For the letters and digits of the device names, raising a letter and lowering it tell the same apart. -/
theorem winUpper_eq_iff {u : UInt8} (hu : u ∈ ascii "ABCDEFGHIJKLMNOPQRSTUVWXYZ0123456789") (c : UInt8) :
    winUpper c = u ↔ tolower c = tolower u := by
  have hraised : ∀ u ∈ ascii "ABCDEFGHIJKLMNOPQRSTUVWXYZ0123456789", winUpper u = u := by decide +kernel
  constructor
  · rintro rfl
    exact (tolower_winUpper c).symm
  · intro h
    calc winUpper c = winUpper (tolower c) := (winUpper_tolower c).symm
      _ = winUpper (tolower u) := by rw [h]
      _ = winUpper u := winUpper_tolower u
      _ = u := hraised u hu

theorem map_winUpper_eq_iff {w : Bytes} (hw : ∀ u ∈ w, u ∈ ascii "ABCDEFGHIJKLMNOPQRSTUVWXYZ0123456789")
    (s : Bytes) : s.map winUpper = w ↔ s.map tolower = w.map tolower := by
  induction s generalizing w with
  | nil => cases w <;> simp
  | cons c s ih =>
      cases w with
      | nil => simp
      | cons u w =>
          rw [List.forall_mem_cons] at hw
          rw [List.map_cons, List.map_cons, List.map_cons, List.cons_eq_cons, List.cons_eq_cons,
            winUpper_eq_iff hw.1, ih hw.2]

theorem namesDevice_iff {comp : Bytes} :
    NamesDevice comp ↔ (comp.takeWhile (· != ch '.')).map winUpper ∈ deviceNames := by
  have hletters : ∀ device ∈ deviceNames, ∀ u ∈ device, u ∈ ascii "ABCDEFGHIJKLMNOPQRSTUVWXYZ0123456789" := by
    decide +kernel
  constructor
  · rintro ⟨device, hmem, heq⟩
    rwa [(map_winUpper_eq_iff (hletters device hmem) _).mpr heq]
  · intro hmem
    exact ⟨_, hmem, (map_winUpper_eq_iff (hletters _ hmem) _).mp rfl⟩

/-- A name of four bytes is its front and a digit. -/
theorem port_of_tests {buf front : Bytes} (hlen : buf.length = 4) (hfront : buf.take 3 = front)
    (hdigit : (buf[3]?.any fun c => ch '1' ≤ c && c ≤ ch '9') = true) :
    ∃ c, buf = front ++ [c] ∧ (ch '1' ≤ c && c ≤ ch '9') = true := by
  obtain ⟨c, hc⟩ : ∃ c, buf[3]? = some c := ⟨buf[3], List.getElem?_eq_getElem (by omega)⟩
  rw [hc] at hdigit
  refine ⟨c, ?_, hdigit⟩
  have htake := List.take_add_one (l := buf) (i := 3)
  rwa [hc, Option.toList_some, List.take_of_length_le (by omega), hfront] at htake

/-- The tests on a copy without a dot. -/
theorem winReservedBuf_iff {buf : Bytes} (hdot : ∀ c ∈ buf, (c != ch '.') = true) :
    winReservedBuf buf = true ↔ buf ∈ deviceNames := by
  have hbase : buf.takeWhile (· != ch '.') = buf := by
    have hspan : (buf ++ []).takeWhile (· != ch '.') = buf := takeWhile_span hdot (by simp)
    rwa [List.append_nil] at hspan
  constructor
  · intro h
    have hnumber : ∀ c, (ch '1' ≤ c && c ≤ ch '9') = true → ascii "COM" ++ [c] ∈ deviceNames
        ∧ ascii "LPT" ++ [c] ∈ deviceNames := forall_byte (by decide +kernel)
    unfold winReservedBuf at h
    rw [hbase] at h
    dsimp only at h
    split at h; · cases h
    split at h
    · next hword =>
      simp only [Bool.and_eq_true, Bool.or_eq_true, beq_iff_eq] at hword
      obtain ⟨hlen, hword⟩ := hword
      rw [List.take_of_length_le (by omega)] at hword
      rcases hword with ((rfl | rfl) | rfl) | rfl
      · decide +kernel
      · decide +kernel
      · decide +kernel
      · decide +kernel
    split at h
    · next hcom =>
      simp only [Bool.and_eq_true, beq_iff_eq] at hcom
      obtain ⟨c, rfl, hc⟩ := port_of_tests hcom.1.1 hcom.1.2 hcom.2
      exact (hnumber c hc).1
    split at h
    · next hlpt =>
      simp only [Bool.and_eq_true, beq_iff_eq] at hlpt
      obtain ⟨c, rfl, hc⟩ := port_of_tests hlpt.1.1 hlpt.1.2 hlpt.2
      exact (hnumber c hc).2
    · cases h
  · have hall : ∀ device ∈ deviceNames, winReservedBuf device = true := by decide +kernel
    exact hall buf

theorem winUpper_ne_dot {c : UInt8} (h : (c != ch '.') = true) : (winUpper c != ch '.') = true := by
  have hall : ∀ c, (c != ch '.') = true → (winUpper c != ch '.') = true := forall_byte (by decide +kernel)
  exact hall c h

/-- `win_reserved_name` with the length of the stem. A stem that does not fit the copy is no device. -/
theorem winReservedName_iff (comp : Bytes) :
    winReservedName comp (comp.takeWhile (· != ch '.')).length = true ↔ NamesDevice comp := by
  have hlengths : ∀ device ∈ deviceNames, device.length ≠ 0 ∧ device.length ≤ 4 := by decide +kernel
  have htake : comp.take (comp.takeWhile (· != ch '.')).length = comp.takeWhile (· != ch '.') :=
    List.prefix_iff_eq_take.mp (List.takeWhile_prefix _) |>.symm
  rw [winReservedName, htake, namesDevice_iff]
  split
  · next hlen =>
    refine iff_of_false Bool.false_ne_true fun hmem => ?_
    have hdevice := hlengths _ hmem
    simp only [List.length_map, Bool.or_eq_true, beq_iff_eq, decide_eq_true_eq] at hdevice hlen
    omega
  · refine winReservedBuf_iff ?_
    intro c hc
    obtain ⟨d, hd, rfl⟩ := List.mem_map.mp hc
    exact winUpper_ne_dot (forall_takeWhile (· != ch '.') comp d hd)

/-! ## The last component -/

theorem baseFrom_no_sep {p : Bytes} (h : ∀ c ∈ p, isAnySep c = false) (base : Bytes) : baseFrom base p = base := by
  induction p with
  | nil => rfl
  | cons c p ih =>
      rw [List.forall_mem_cons] at h
      rw [baseFrom, h.1]
      exact ih h.2

theorem baseFrom_last {a b : Bytes} {c : UInt8} (hc : isAnySep c = true) (hb : ∀ d ∈ b, isAnySep d = false)
    (base : Bytes) : baseFrom base (a ++ c :: b) = b := by
  induction a generalizing base with
  | nil =>
      rw [List.nil_append, baseFrom, if_pos hc]
      exact baseFrom_no_sep hb b
  | cons d a ih =>
      rw [List.cons_append, baseFrom]
      split
      · exact ih _
      · exact ih _

/-- The loop ends with the segment behind the last separator. -/
theorem getLast?_splitOnP (path : Bytes) : (path.splitOnP isAnySep).getLast? = some (baseFrom path path) := by
  rcases exists_last_sep isAnySep path with h | ⟨a, c, b, rfl, hc, hb⟩
  · rw [List.splitOnP_eq_singleton h, baseFrom_no_sep h]
    rfl
  · rw [splitOnP_last hc hb, baseFrom_last hc hb, List.getLast?_concat]

theorem pathRejectsWinReserved_iff {path : Bytes} :
    pathRejectsWinReserved path = true ↔ ∃ last ∈ (path.splitOnP isAnySep).getLast?, NamesDevice last := by
  have hstem : ∀ base : Bytes, (if (base.takeWhile (· != ch '.')).length < base.length
      then (base.takeWhile (· != ch '.')).length else base.length) = (base.takeWhile (· != ch '.')).length := by
    intro base
    have hle := (List.takeWhile_sublist (· != ch '.') (l := base)).length_le
    split <;> omega
  rw [getLast?_splitOnP, pathRejectsWinReserved, hstem, winReservedName_iff]
  simp

/-! ## The check -/

theorem winValidatePath_eq_ok {path : Bytes} {flags : UInt32} :
    winValidatePath path flags = .ok
      ↔ PassesOthers path flags ∧ ¬ ∃ last ∈ (path.splitOnP isAnySep).getLast?, NamesDevice last := by
  rw [← pathRejectsWinReserved_iff]
  unfold winValidatePath
  constructor
  · intro h
    split at h; · cases h
    next hne =>
    split at h; · cases h
    next hlen =>
    split at h; · cases h
    next hbad =>
    split at h; · cases h
    next hdots =>
    split at h; · cases h
    next habs =>
    split at h; · cases h
    next hdevice =>
    refine ⟨⟨hne, by omega, by simpa using hbad, by simpa using hdots, ?_⟩, hdevice⟩
    intro hflag
    simpa [hflag] using habs
  · rintro ⟨⟨hne, hshort, hbad, hdots, habs⟩, hdevice⟩
    rw [if_neg hne, if_neg (by omega), if_neg (by simp [hbad]), if_neg (by simp [hdots]), if_neg, if_neg hdevice]
    simpa using habs

theorem winValidatePath_eq_error {path : Bytes} {flags : UInt32} (h : winValidatePath path flags ≠ .ok) :
    winValidatePath path flags = .error := by
  unfold winValidatePath at h ⊢
  repeat' split
  all_goals first
    | rfl
    | exact absurd (by simp [*]) h

/-- **Device names are turned down** exactly where one of them stands behind the last separator, if there is any
    and nothing else is wrong with the path. -/
theorem winValidatePath_devices_iff (path : Bytes) (flags : UInt32) :
    DevicesRejected path flags
      ↔ (PassesOthers path flags → (∃ comp ∈ components path, NamesDevice comp) →
          ∃ last ∈ (path.splitOnP isAnySep).getLast?, NamesDevice last) := by
  have hlast : (∃ last ∈ (path.splitOnP isAnySep).getLast?, NamesDevice last) →
      ∃ comp ∈ components path, NamesDevice comp := by
    rintro ⟨last, hlast, hdevice⟩
    refine ⟨last, mem_components.mpr ⟨List.mem_of_getLast? hlast, ?_⟩, hdevice⟩
    rintro rfl
    exact absurd (namesDevice_iff.mp hdevice) (by decide +kernel)
  constructor
  · rintro ⟨hreject, _⟩ hothers hsome
    refine Classical.not_not.mp fun hnot => ?_
    have hok := winValidatePath_eq_ok.mpr ⟨hothers, hnot⟩
    rw [hreject hsome] at hok
    cases hok
  · intro h
    refine ⟨fun hsome => winValidatePath_eq_error fun hok => ?_, fun hothers hnone => ?_⟩
    · obtain ⟨hothers, hnot⟩ := winValidatePath_eq_ok.mp hok
      exact hnot (h hothers hsome)
    · exact winValidatePath_eq_ok.mpr ⟨hothers, fun hdevice => hnone (hlast hdevice)⟩

/-- **A device behind which the path goes on is accepted.** -/
theorem winValidatePath_accepts_device :
    (∃ comp ∈ components (ascii "C:\\CON\\update.zip"), NamesDevice comp)
      ∧ winValidatePath (ascii "C:\\CON\\update.zip") 1 = .ok
      ∧ ¬ DevicesRejected (ascii "C:\\CON\\update.zip") 1 := by
  have hdevice : ∃ comp ∈ components (ascii "C:\\CON\\update.zip"), NamesDevice comp :=
    ⟨ascii "CON", by decide +kernel, namesDevice_iff.mpr (by decide +kernel)⟩
  have hok : winValidatePath (ascii "C:\\CON\\update.zip") 1 = .ok := by decide +kernel
  refine ⟨hdevice, hok, fun h => ?_⟩
  rw [h.1 hdevice] at hok
  cases hok

end LibUpdate
