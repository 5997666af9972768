import LibUpdate.Platform.Fs

/-!
# `Extract.Model` — extracting the package (`update_extract.c`, POSIX build)

What miniz reports of an archive is a list of entries; the names, kinds and modes are whatever the archive
says. `updateExtract` checks each name, joins it to the destination, and writes a file to a temporary path
beside it before it moves it into place.
-/

namespace LibUpdate

/-- What miniz reports of one entry. -/
structure Entry where
  /-- `mz_zip_reader_file_stat` succeeds. -/
  statOk : Bool
  /-- `m_bit_flag`; bit 0 says that the entry is encrypted. -/
  bitFlag : Nat
  /-- `m_filename`. -/
  filename : Bytes
  /-- `mz_zip_reader_is_file_a_directory`. -/
  isDir : Bool
  /-- `m_external_attr`. -/
  externalAttr : Nat
  /-- The content. -/
  data : Bytes
  deriving DecidableEq, Repr

/-! ## The checks of a name -/

/-- The bytes that `strip_trailing_seps_len` leaves. -/
def stripTrailingSeps (s : Bytes) : Bytes := (s.reverse.dropWhile isAnySep).reverse

def pathUnderDestPrefix (destCanon joinedPath : Bytes) : Bool :=
  let dest := stripTrailingSeps destCanon
  -- there has to be a separator behind the prefix
  if joinedPath.length < dest.length + 1 then false
  else dest.isPrefixOf joinedPath && joinedPath[dest.length]?.any isAnySep

/-- `zip_entry_name_safe`. Its loop skips runs of separators, so the empty segments between them are not
    tested. -/
def zipEntryNameSafe (name : Bytes) : Bool :=
  if name = [] then false
  else if name.head?.any isAnySep then false
  else if (strstr (ascii "../") name).isSome || (strstr (ascii "..\\") name).isSome then false
  else (name.splitOnP isAnySep).all fun seg => seg.length == 0 || (seg != dotdot && seg != dot)

/-- `join_dest_entry`. -/
def joinDestEntry (destCanon entry : Bytes) : Option Bytes :=
  snprintf pathMax (destCanon ++ ascii "/" ++ entry)

/-- The checks at the head of the entry loop, up to the joined path. -/
def entryPath (destAbs : Bytes) (e : Entry) : Option Bytes :=
  if !e.statOk then none
  -- an encrypted entry
  else if e.bitFlag % 2 ≠ 0 then none
  else if !zipEntryNameSafe e.filename then none
  else
    match joinDestEntry destAbs e.filename with
    | none => none
    | some fullPath => if pathUnderDestPrefix destAbs fullPath then some fullPath else none

/-! ## The entry loop -/

/-- The permission bits in the external attributes. -/
def entryMode (e : Entry) : Nat := e.externalAttr >>> 16 &&& 0o7777

def extractingSuffix : Bytes := ascii ".extracting"

/-- What comes before the last `/`. -/
def beforeLastSlash (path : Bytes) : Option Bytes :=
  if path.any isPathSep then some ((path.reverse.dropWhile fun c => !isPathSep c).drop 1).reverse else none

def ensureParentDirs (filePath : Bytes) : FsProg Bool :=
  if filePath.length + 1 > pathMax then pure false
  else
    match beforeLastSlash filePath with
    | none => pure true
    | some parent => if parent = [] then pure true else createDirectoryRecursive parent

/-- Sets the permission bits, unless the entry has none. -/
def chmodEntry (e : Entry) (path : Bytes) : FsProg Unit :=
  if entryMode e ≠ 0 then do
    let _ ← Prog.perform (.chmod path (entryMode e))
    pure ()
  else pure ()

/-- A pass of the entry loop for a directory. -/
def extractDir (e : Entry) (fullPath : Bytes) : FsProg Bool := do
  let made ← createDirectoryRecursive (stripTrailingSeps fullPath)
  if made then
    chmodEntry e (stripTrailingSeps fullPath)
    pure true
  else pure false

/-- Removes the temporary file and gives up. -/
def dropTmp (tmpPath : Bytes) : FsProg Bool := do
  let _ ← Prog.perform (.remove tmpPath)
  pure false

/-- The end of a pass for a file: the temporary file is written and moved into place. -/
def writeEntry (e : Entry) (fullPath tmpPath : Bytes) : FsProg Bool := do
  let written ← Prog.perform (.extractTo e.data tmpPath)
  if written then
    chmodEntry e tmpPath
    let moved ← Prog.perform (.move tmpPath fullPath)
    if moved then pure true else dropTmp tmpPath
  else dropTmp tmpPath

/-- A pass of the entry loop for a file. -/
def extractFile (e : Entry) (fullPath : Bytes) : FsProg Bool :=
  match snprintf (pathMax + 32) (fullPath ++ extractingSuffix) with
  | none => pure false
  | some tmpPath => do
      -- what an extraction that was cut short has left
      let _ ← Prog.perform (.remove tmpPath)
      let parents ← ensureParentDirs fullPath
      if parents then writeEntry e fullPath tmpPath else pure false

/-- A pass of the entry loop. -/
def extractEntry (destAbs : Bytes) (e : Entry) : FsProg Bool :=
  match entryPath destAbs e with
  | none => pure false
  | some fullPath => if e.isDir then extractDir e fullPath else extractFile e fullPath

def extractEntries (destAbs : Bytes) : List Entry → FsProg UpdateStatus
  | [] => pure .ok
  | e :: es => do
      let extracted ← extractEntry destAbs e
      if extracted then extractEntries destAbs es else pure .error

/-- The destination that `update_extract` goes on with: accepted as given and in its absolute form. -/
def extractDest (cwd : Option Bytes) (zipPath destDir : Bytes) : Option Bytes :=
  if zipPath = [] || destDir = [] then none
  else if updateValidatePath zipPath false ≠ .ok || updateValidatePath destDir false ≠ .ok then none
  else
    match updatePathMakeAbsolute cwd zipPath pathMax, updatePathMakeAbsolute cwd destDir pathMax with
    | some zipAbs, some destAbs =>
        if updateValidatePath zipAbs true ≠ .ok || updateValidatePath destAbs true ≠ .ok then none
        else some destAbs
    | _, _ => none

/-- `update_extract`. `cwd` is what `getcwd` gives, and `archive` the entries that miniz finds behind the zip
    path, or `none` where it cannot open it. -/
def updateExtract (cwd : Option Bytes) (archive : Option (List Entry)) (zipPath destDir : Bytes) :
    FsProg UpdateStatus :=
  match extractDest cwd zipPath destDir with
  | none => pure .error
  | some destAbs => do
      let made ← createDirectoryRecursive destAbs
      if made then
        match archive with
        | none => pure .error
        | some entries => extractEntries destAbs entries
      else pure .error

end LibUpdate
