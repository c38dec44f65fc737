import IdlGen.Proofs.Except
import IdlGen.Proofs.Sink
import IdlGen.Workspace.FileSystem

/-!
# What file operations do to files

Where a path leads depends on the directories alone, so writing files leads no path astray
(`LeadsTo.of_same`). To write a file is to put its bytes at the place its path leads to, and reading a
path gives the bytes at its place. Making directories takes no place that is taken, and leaves every file
as it is.
-/

namespace IdlGen.FileSystem

/-- The bytes of the file at a place, if there is one. -/
def bytes? (fs : FileSystem) (place : List String) : Option (List UInt8) :=
  match fs.get? place with
  | some (.file bytes) => some bytes
  | _ => none

/-- The same directories are there. -/
def SameDirectories (fs fs' : FileSystem) : Prop :=
  ∀ place, fs.get? place = some .directory ↔ fs'.get? place = some .directory

/-- A path leads to a place where no directory is, and which can thus be that of a file. -/
structure LeadsTo (fs : FileSystem) (path : String) (place : List String) : Prop where
  located : ∃ directory name, fs.locatePath path = .ok (.named directory name) ∧
    place = directory ++ [name] ∧ ¬ Path.nameLimit < name.utf8ByteSize
  noSlash : Path.endsInSlash path = false
  free : fs.get? place ≠ some .directory

variable {fs fs' fs'' : FileSystem} {path other : String} {place away : List String} {bytes : List UInt8}

/-! ### Places -/

theorem get?_of_above (h : isAbove place = true) : fs.get? place = some .directory := if_pos h

theorem not_above_of_free (h : fs.get? place ≠ some .directory) : isAbove place = false := by
  rw [Bool.eq_false_iff]
  exact fun habove => h (get?_of_above habove)

theorem get?_put_self (h : isAbove place = false) (node : Node) :
    (fs.put place node).get? place = some node := by
  simp [get?, put, h]

theorem get?_put_of_ne (h : away ≠ place) (node : Node) : (fs.put place node).get? away = fs.get? away := by
  have hlookup : ∀ nodes : List (List String × Node),
      (nodes.filter fun entry => entry.1 ≠ place).lookup away = nodes.lookup away := by
    intro nodes
    induction nodes with
    | nil => rfl
    | cons entry nodes ih =>
      by_cases hplace : entry.1 = place
      · have hother : (away == entry.1) = false := by simpa [hplace] using h
        rw [List.filter_cons_of_neg (by simpa using hplace), ih, List.lookup_cons, hother]
      · rw [List.filter_cons_of_pos (by simpa using hplace), List.lookup_cons, List.lookup_cons, ih]
  have hfirst : (away == place) = false := by simpa using h
  simp only [get?, put, List.lookup_cons, hfirst, hlookup]

theorem bytes?_put_self (h : isAbove place = false) (bytes : List UInt8) :
    (fs.put place (.file bytes)).bytes? place = some bytes := by
  rw [bytes?, get?_put_self h]

theorem bytes?_put_of_ne (h : away ≠ place) (node : Node) :
    (fs.put place node).bytes? away = fs.bytes? away := by
  rw [bytes?, bytes?, get?_put_of_ne h]

/-! ### Where paths lead -/

theorem SameDirectories.trans (h : SameDirectories fs fs') (h' : SameDirectories fs' fs'') :
    SameDirectories fs fs'' := fun place => (h place).trans (h' place)

/-- A file takes no directory's place. -/
theorem sameDirectories_put (hfree : fs.get? place ≠ some .directory) (bytes : List UInt8) :
    SameDirectories fs (fs.put place (.file bytes)) := by
  intro other
  by_cases h : other = place
  · subst other
    rw [get?_put_self (not_above_of_free hfree)]
    simpa using hfree
  · rw [get?_put_of_ne h]

theorem find_eq_ok_iff {directory : List String} {name : String} {found : Option Node} :
    fs.find directory name = .ok found ↔
      ¬ Path.nameLimit < name.utf8ByteSize ∧ fs.get? (directory ++ [name]) = found := by
  rw [find]
  split <;> simp_all

/-- A name leads on only into a directory. -/
theorem walk_name_iff {start reached : List String} {c : String} {rest : List String} (hdot : c ≠ ".")
    (hdots : c ≠ "..") : fs.walk start (c :: rest) = .ok reached ↔
      fs.find start c = .ok (some .directory) ∧ fs.walk (start ++ [c]) rest = .ok reached := by
  rw [walk, if_neg hdot, if_neg hdots]
  split <;> simp_all

theorem SameDirectories.walk (h : SameDirectories fs fs') {components : List String}
    {start reached : List String}
    (hwalk : fs.walk start components = .ok reached) : fs'.walk start components = .ok reached := by
  induction components generalizing start with
  | nil => exact hwalk
  | cons c rest ih =>
    by_cases hdot : c = "."
    · rw [FileSystem.walk, if_pos hdot] at hwalk ⊢
      exact ih hwalk
    by_cases hdots : c = ".."
    · rw [FileSystem.walk, if_neg hdot, if_pos hdots] at hwalk ⊢
      exact ih hwalk
    rw [walk_name_iff hdot hdots, find_eq_ok_iff] at hwalk ⊢
    obtain ⟨⟨hshort, hdirectory⟩, hrest⟩ := hwalk
    exact ⟨⟨hshort, (h _).1 hdirectory⟩, ih hrest⟩

theorem SameDirectories.locatePath (h : SameDirectories fs fs') {target : Target}
    (hlocate : fs.locatePath path = .ok target) : fs'.locatePath path = .ok target := by
  unfold FileSystem.locatePath locate at hlocate ⊢
  split at hlocate
  · cases hlocate
  · rename_i hnonempty
    rw [if_neg hnonempty]
    obtain ⟨checked, hcheck, hlocate⟩ := bind_eq_ok.1 hlocate
    refine bind_eq_ok.2 ⟨checked, hcheck, ?_⟩
    cases hlast : (Path.components path).getLast? with
    | none => rwa [hlast] at hlocate
    | some last =>
      rw [hlast] at hlocate
      obtain ⟨directory, hwalk, hend⟩ := bind_eq_ok.1 hlocate
      exact bind_eq_ok.2 ⟨directory, h.walk hwalk, hend⟩

theorem LeadsTo.of_same (h : fs.LeadsTo path place) (hsame : SameDirectories fs fs') :
    fs'.LeadsTo path place := by
  obtain ⟨⟨directory, name, hlocate, hplace, hshort⟩, hslash, hfree⟩ := h
  exact ⟨⟨directory, name, hsame.locatePath hlocate, hplace, hshort⟩, hslash, mt (hsame place).2 hfree⟩

/-- Paths that do not meet in one file lead to different places. -/
theorem LeadsTo.ne_of_not_sameFile (h : fs.LeadsTo path place) (h' : fs.LeadsTo other away)
    (hother : fs.sameFile path other = false) : place ≠ away := by
  obtain ⟨⟨directory, name, hlocate, rfl, -⟩, -, -⟩ := h
  obtain ⟨⟨directory', name', hlocate', rfl, -⟩, -, -⟩ := h'
  intro hplace
  obtain ⟨rfl, hname⟩ := List.append_inj' hplace rfl
  obtain rfl := List.singleton_inj.1 hname
  simp [sameFile, hlocate, hlocate'] at hother

/-! ### Last names -/

theorem split_of_noSlash {name : List Char} (h : '/' ∉ name) : Path.split name = [name] := by
  induction name with
  | nil => rfl
  | cons c name ih =>
    rw [List.mem_cons, not_or] at h
    rw [Path.split, if_neg (Ne.symm h.1), ih h.2]

/-- The last part of a path has whatever stands behind its last slash. -/
theorem split_append (before : List Char) {last : List Char} (h : '/' ∉ last) :
    ∃ parts front, Path.split (before ++ last) = parts ++ [front ++ last] := by
  induction before with
  | nil => exact ⟨[], [], split_of_noSlash h⟩
  | cons c before ih =>
    obtain ⟨parts, front, hsplit⟩ := ih
    rw [List.cons_append, Path.split, hsplit]
    split
    · exact ⟨[] :: parts, front, rfl⟩
    · cases parts with
      | nil => exact ⟨[], c :: front, rfl⟩
      | cons part parts => exact ⟨(c :: part) :: parts, front, rfl⟩

theorem components_getLast? {before last : List Char} (hpath : path.toList = before ++ last)
    (h : '/' ∉ last) (hlast : last ≠ []) :
    ∃ front, (Path.components path).getLast? = some (String.ofList (front ++ last)) := by
  obtain ⟨parts, front, hsplit⟩ := split_append before h
  refine ⟨front, ?_⟩
  rw [Path.components, hpath, hsplit]
  simp [List.filter_append, hlast]

theorem join_append (base more : String) :
    ∃ before, (Path.join base more).toList = before ++ more.toList := by
  rw [Path.join]
  split
  · exact ⟨[], rfl⟩
  · split
    · exact ⟨base.toList, String.toList_append⟩
    · exact ⟨(base ++ "/").toList, String.toList_append⟩

theorem getLast?_of_named {directory : List String} {name : String}
    (h : fs.locatePath path = .ok (.named directory name)) :
    (Path.components path).getLast? = some name := by
  unfold locatePath locate at h
  split at h
  · cases h
  · obtain ⟨-, -, h⟩ := bind_eq_ok.1 h
    split at h
    · cases h
    · rename_i last hlast
      obtain ⟨reached, -, h⟩ := bind_eq_ok.1 h
      rw [hlast]
      split at h <;> cases h
      rfl

/-- Paths whose last names end differently do not meet in one file. -/
theorem sameFile_of_ends {before before' last last' : List Char} (hpath : path.toList = before ++ last)
    (hother : other.toList = before' ++ last') (hslash : '/' ∉ last) (hslash' : '/' ∉ last')
    (hdiffer : ∀ front front', front ++ last ≠ front' ++ last') : fs.sameFile path other = false := by
  have hlast : last ≠ [] := by
    rintro rfl
    exact hdiffer last' [] (List.append_nil _)
  have hlast' : last' ≠ [] := by
    rintro rfl
    exact hdiffer [] last (List.append_nil _).symm
  obtain ⟨front, hname⟩ := components_getLast? hpath hslash hlast
  obtain ⟨front', hname'⟩ := components_getLast? hother hslash' hlast'
  rw [sameFile]
  split
  · rename_i directory name target hlocate hlocate'
    rw [decide_eq_false_iff_not]
    rintro rfl
    rw [getLast?_of_named hlocate] at hname
    rw [getLast?_of_named hlocate'] at hname'
    have hsame := hname.symm.trans hname'
    simp only [Option.some.injEq, String.ofList_inj] at hsame
    exact hdiffer _ _ hsame
  · rfl

/-! ### Writing and reading -/

section Looking

variable {α : Type} {look : FileSystem → Except FileError α}

theorem looking_of_ok {a : α} (h : look fs = .ok a) : looking look fs = .ok a fs := by rw [looking, h]

theorem looking_of_error {e : FileError} (h : look fs = .error e) : looking look fs = .error e fs := by
  rw [looking, h]

end Looking

/-- How a write ends, read off the lookups that it begins with. -/
theorem write_eq (path : String) (bytes : List UInt8) (fs : FileSystem) :
    write path bytes fs = match fs.locatePath path with
      | .error e => .error e fs
      | .ok .dots => .error .isDirectory fs
      | .ok (.named directory name) =>
        if Path.endsInSlash path then .error .isDirectory fs
        else match fs.find directory name with
          | .error e => .error e fs
          | .ok found =>
            if found = some .directory then .error .isDirectory fs
            else .ok () (fs.put (directory ++ [name]) (.file bytes)) := by
  cases hlocate : fs.locatePath path with
  | error e => exact bind_of_error (looking_of_error hlocate)
  | ok target =>
    rw [write, bind_of_ok (looking_of_ok hlocate)]
    cases target with
    | dots => rfl
    | named directory name =>
      dsimp only
      split
      · rfl
      · cases hfind : fs.find directory name with
        | error e => exact bind_of_error (looking_of_error hfind)
        | ok found =>
          rw [bind_of_ok (looking_of_ok hfind)]
          dsimp only
          by_cases hfound : found = some .directory
          · rw [if_pos hfound, if_pos hfound]
            rfl
          · rw [if_neg hfound, if_neg hfound]
            rfl

/-- To write a file is to put its bytes at the place that the path leads to. -/
theorem write_eq_ok_iff : write path bytes fs = .ok () fs' ↔
    ∃ place, fs.LeadsTo path place ∧ fs' = fs.put place (.file bytes) := by
  rw [write_eq]
  constructor
  · intro h
    split at h <;> try cases h
    rename_i directory name hlocate
    split at h <;> try cases h
    rename_i hslash
    split at h <;> try cases h
    rename_i found hfind
    split at h <;> try cases h
    rename_i hfree
    obtain ⟨hshort, rfl⟩ := find_eq_ok_iff.1 hfind
    exact ⟨_, ⟨⟨directory, name, hlocate, rfl, hshort⟩, by simpa using hslash, hfree⟩, rfl⟩
  · rintro ⟨place, ⟨⟨directory, name, hlocate, rfl, hshort⟩, hslash, hfree⟩, rfl⟩
    have hfind : fs.find directory name = .ok _ := find_eq_ok_iff.2 ⟨hshort, rfl⟩
    simp [hlocate, hslash, hfind, hfree]

theorem LeadsTo.contents (h : fs.LeadsTo path place) (hbytes : fs.bytes? place = some bytes) :
    fs.contents path = .ok bytes := by
  obtain ⟨⟨directory, name, hlocate, rfl, hshort⟩, hslash, -⟩ := h
  rw [bytes?] at hbytes
  split at hbytes <;> cases hbytes
  rename_i hfile
  have hfind := find_eq_ok_iff.2 ⟨hshort, hfile⟩
  simp [FileSystem.contents, hlocate, hfind, hslash, bind, Except.bind, pure, Except.pure]

theorem LeadsTo.read (h : fs.LeadsTo path place) (hbytes : fs.bytes? place = some bytes) :
    FileSystem.read path fs = .ok bytes fs := looking_of_ok (h.contents hbytes)

/-! ### Making directories -/

/-- However the operation ends, every file is as it was. -/
def KeepsFiles {α : Type} (op : FileOp α) : Prop :=
  ∀ fs place, (finalState (op fs)).bytes? place = fs.bytes? place

namespace KeepsFiles

variable {α β : Type}

theorem bind {op : FileOp α} {next : α → FileOp β} (hop : KeepsFiles op)
    (hnext : ∀ a, KeepsFiles (next a)) : KeepsFiles (op >>= next) := by
  intro fs place
  have hfirst := hop fs place
  cases hrun : op fs with
  | error e fs' =>
    rw [hrun] at hfirst
    rw [bind_of_error hrun]
    exact hfirst
  | ok a fs' =>
    rw [hrun] at hfirst
    rw [bind_of_ok hrun, hnext]
    exact hfirst

theorem orElse {op : FileOp α} {handler : FileError → FileOp α} (hop : KeepsFiles op)
    (hhandler : ∀ e, KeepsFiles (handler e)) : KeepsFiles (tryCatch op handler) := by
  intro fs place
  have hfirst := hop fs place
  change (finalState (EStateM.tryCatch op handler fs)).bytes? place = _
  rw [EStateM.tryCatch]
  cases hrun : op fs with
  | ok a fs' =>
    rw [hrun] at hfirst
    exact hfirst
  | error e fs' =>
    rw [hrun] at hfirst
    exact (hhandler e fs' place).trans hfirst

theorem looking (look : FileSystem → Except FileError α) : KeepsFiles (looking look) := by
  intro fs place
  rw [FileSystem.looking]
  split <;> rfl

theorem fail (e : FileError) : KeepsFiles (throw e : FileOp α) := fun _ _ => rfl

theorem nothing (a : α) : KeepsFiles (pure a : FileOp α) := fun _ _ => rfl

/-- A directory is only made where nothing is. -/
theorem makeDirectory (components : List String) : KeepsFiles (makeDirectory components) := by
  intro fs place
  cases hlocate : fs.locate components with
  | error e =>
    rw [FileSystem.makeDirectory, bind_of_error (looking_of_error hlocate)]
    rfl
  | ok target =>
    rw [FileSystem.makeDirectory, bind_of_ok (looking_of_ok hlocate)]
    cases target with
    | dots => rfl
    | named directory name =>
      dsimp only
      cases hfind : fs.find directory name with
      | error e =>
        rw [bind_of_error (looking_of_error hfind)]
        rfl
      | ok found =>
        rw [bind_of_ok (looking_of_ok hfind)]
        cases found with
        | some node => rfl
        | none =>
          change (fs.put (directory ++ [name]) .directory).bytes? place = fs.bytes? place
          have hmissing := (find_eq_ok_iff.1 hfind).2
          by_cases hplace : place = directory ++ [name]
          · subst hplace
            have hfree : fs.get? (directory ++ [name]) ≠ some .directory := by rw [hmissing]; nofun
            have habove := not_above_of_free hfree
            rw [bytes?, bytes?, get?_put_self habove, hmissing]
          · exact bytes?_put_of_ne hplace _

theorem ensureDirectory (components : List String) : KeepsFiles (ensureDirectory components) := by
  have hget : KeepsFiles (get : FileOp FileSystem) := fun _ _ => rfl
  refine (makeDirectory components).orElse fun e => hget.bind fun fs => ?_
  split
  · exact nothing ()
  · exact fail e

theorem makeDirectoryIn {makeParent : FileOp Unit} (hparent : KeepsFiles makeParent)
    (components : List String) : KeepsFiles (makeDirectoryIn makeParent components) := by
  refine (ensureDirectory components).orElse fun e => ?_
  split
  · exact hparent.bind fun _ => ensureDirectory components
  · exact fail e

theorem makeDirectoriesReversed (components : List String) :
    KeepsFiles (makeDirectoriesReversed components) := by
  induction components with
  | nil => exact nothing ()
  | cons last parents ih => exact makeDirectoryIn ih _

theorem makeDirectories (path : String) : KeepsFiles (makeDirectories path) :=
  (looking _).bind fun _ => makeDirectoryIn (makeDirectoriesReversed _) _

end KeepsFiles

end IdlGen.FileSystem
