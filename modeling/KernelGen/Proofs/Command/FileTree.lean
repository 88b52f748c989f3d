import KernelGen.Command.FileSystem
import KernelGen.NameTable
set_option autoImplicit false

/-!
# Command: what stays in a file tree

Commands change a tree in two ways: they make directories and they put bytes into a file.  Both
leave every file where it is: `Grows` says that a tree has become another one by such changes, and
`Grows.locate` that a path which led to a file leads to it still.  So what a path reads can only
change if the very file it leads to is written.
-/

namespace KernelGen

namespace FileTree

variable {t t' t'' : FileTree} {path : String} {bytes : ByteArray} {here segments : List String}
  {place other : List String}

/-- The tree with these bytes in the file at a place. -/
def put (t : FileTree) (place : List String) (bytes : ByteArray) : FileTree :=
  { t with files := t.files.filter (fun f => f.1 != place) ++ [(place, bytes)] }

/-- The place of the file that a path leads to. -/
def fileAt? (t : FileTree) (path : String) : Option (List String) :=
  match t.locate path with
  | .ok (.file place _) => some place
  | _ => none

/-! ## Files -/

/-- The file has the bytes, and other files keep theirs. -/
theorem lookup_put : (t.put place bytes).files.lookup other =
    if other = place then some bytes else t.files.lookup other := by
  rw [put, List.lookup_append, NameTable.lookup_filter_ne, NameTable.lookup_entry]
  by_cases h : other = place <;> simp [h]

theorem read_eq_ok :
    t.read path = .ok bytes ↔ ∃ place, t.locate path = .ok (.file place bytes) := by
  unfold read
  cases h : t.locate path with
  | error e => simp [bind, Except.bind]
  | ok there => cases there <;> simp [bind, Except.bind, pure, Except.pure]

/-! ## Places -/

/-- Where a path can lead that is not one of a directory: to a file, or to where one can be
made. -/
def Place.file? : Place → Option (List String)
  | .directory _ => none
  | .file place _ => some place
  | .vacant place => some place

theorem lookup_of_walk (h : t.walk here segments = .ok (.file place bytes)) :
    t.files.lookup place = some bytes := by
  fun_induction walk t here segments with
  | case2 here more ih => exact ih h
  | case4 here s more _ _ there _ ih => exact ih h
  | case5 here s more _ _ there _ bytes' hbytes hmore =>
    injection h with h
    injection h with hthere hbytes'
    rw [← hthere, ← hbytes']
    exact hbytes
  | _ => cases h

theorem contains_of_walk {found : Place} (h : t.walk here segments = .ok found)
    (hplace : found.file? = some place) : t.directories.contains place = false := by
  fun_induction walk t here segments with
  | case1 => cases h; cases hplace
  | case2 here more ih => exact ih h
  | case4 here s more _ _ there _ ih => exact ih h
  | case5 here s more _ _ there hnot =>
    injection h with h
    rw [← h] at hplace
    rw [← Option.some.inj hplace]
    exact Bool.eq_false_iff.2 hnot
  | case7 here s more _ _ there hnot =>
    injection h with h
    rw [← h] at hplace
    rw [← Option.some.inj hplace]
    exact Bool.eq_false_iff.2 hnot
  | _ => cases h

/-! ## Trees that grow -/

/-- The tree has become another one by making directories and by putting bytes into files. -/
structure Grows (t t' : FileTree) : Prop where
  /-- Directories stay. -/
  directories : ∀ s, t.directories.contains s = true → t'.directories.contains s = true
  /-- Files stay, and no directory is made in their place. -/
  files : ∀ s, (t.files.lookup s).isSome = true → (t'.files.lookup s).isSome = true ∧
    (t.directories.contains s = false → t'.directories.contains s = false)
  /-- Relative paths start where they did. -/
  workingDirectory : t'.workingDirectory = t.workingDirectory

theorem Grows.refl (t : FileTree) : Grows t t :=
  ⟨fun _ h => h, fun _ h => ⟨h, fun h => h⟩, rfl⟩

theorem Grows.trans (h : Grows t t') (h' : Grows t' t'') : Grows t t'' where
  directories s hs := h'.directories s (h.directories s hs)
  files s hs := by
    obtain ⟨hfile, hnot⟩ := h.files s hs
    obtain ⟨hfile', hnot'⟩ := h'.files s hfile
    exact ⟨hfile', fun hs => hnot' (hnot hs)⟩
  workingDirectory := h'.workingDirectory.trans h.workingDirectory

theorem Grows.start (h : Grows t t') (path : String) : t'.start path = t.start path := by
  unfold FileTree.start
  rw [h.workingDirectory]

theorem Grows.isDirectory (h : Grows t t') (hplace : t.isDirectory place = true) :
    t'.isDirectory place = true := by
  rcases Bool.or_eq_true_iff.1 hplace with hroot | hmade
  · exact Bool.or_eq_true_iff.2 (.inl hroot)
  · exact Bool.or_eq_true_iff.2 (.inr (h.directories place hmade))

theorem walk_last {s : String} (hs : s ≠ "..") (hlong : ¬ Path.isTooLongSegment s = true)
    (hnot : t.directories.contains (here ++ [s]) = false)
    (hbytes : t.files.lookup (here ++ [s]) = some bytes) :
    t.walk here [s] = .ok (.file (here ++ [s]) bytes) := by
  rw [walk, if_neg hs, if_neg hlong]
  simp only [hnot, hbytes, Bool.false_eq_true, if_false, List.isEmpty_nil, if_true]

/-- A walk that led to a place leads there still, if there is a file. -/
theorem Grows.walk {found : Place} (hgrows : Grows t t') (h : t.walk here segments = .ok found)
    (hplace : found.file? = some place) (hnot : t'.directories.contains place = false)
    (hbytes : t'.files.lookup place = some bytes) :
    t'.walk here segments = .ok (.file place bytes) := by
  fun_induction FileTree.walk t here segments with
  | case1 => cases h; cases hplace
  | case2 here more ih =>
    rw [FileTree.walk, if_pos rfl]
    exact ih h
  | case4 here s more hs hlong there hdir ih =>
    have hdir' : t'.directories.contains (here ++ [s]) = true := hgrows.directories _ hdir
    rw [FileTree.walk, if_neg hs, if_neg hlong]
    simp only [hdir', if_true]
    exact ih h
  | case5 here s more hs hlong there _ _ _ hmore =>
    injection h with h
    rw [← h] at hplace
    obtain rfl : there = place := Option.some.inj hplace
    rw [List.isEmpty_iff.1 hmore]
    exact walk_last hs hlong hnot hbytes
  | case7 here s more hs hlong there _ _ hmore =>
    injection h with h
    rw [← h] at hplace
    obtain rfl : there = place := Option.some.inj hplace
    rw [List.isEmpty_iff.1 hmore]
    exact walk_last hs hlong hnot hbytes
  | _ => cases h

/-! ## Paths -/

/-- A path is followed by walking along its segments from where it starts.  One that can only be
of a directory leads to nothing else. -/
theorem locate_eq_ok {found : Place} :
    t.locate path = .ok found ↔ pathFault? path = none ∧
      (path.isEmpty || !t.isDirectory (t.start path)) = false ∧
      (found.file?.isSome = true → Path.asksDirectory path = false) ∧
      t.walk (t.start path) (Path.segments path) = .ok found := by
  unfold locate
  cases pathFault? path with
  | some e => simp
  | none =>
    cases hstart : (path.isEmpty || !t.isDirectory (t.start path)) with
    | true => simp
    | false =>
      cases hwalk : t.walk (t.start path) (Path.segments path) with
      | error e => simp [bind, Except.bind]
      | ok there =>
        cases there with
        | directory s =>
          simp only [bind, Except.bind, pure, Except.pure]
          constructor
          · rintro ⟨⟩
            exact ⟨trivial, trivial, fun h => absurd h Bool.false_ne_true, rfl⟩
          · rintro ⟨-, -, -, h⟩
            exact h
        | file s b =>
          cases Path.asksDirectory path <;> cases found <;>
            simp [bind, Except.bind, pure, Except.pure, throw, throwThe, MonadExceptOf.throw,
              Place.file?]
        | vacant s =>
          cases Path.asksDirectory path <;> cases found <;>
            simp [bind, Except.bind, pure, Except.pure, throw, throwThe, MonadExceptOf.throw,
              Place.file?]

theorem fileAt?_eq_some :
    t.fileAt? path = some place ↔ ∃ bytes, t.locate path = .ok (.file place bytes) := by
  unfold fileAt?
  split
  · rename_i s b h
    rw [h]
    simp
  · rename_i h
    constructor
    · intro he
      cases he
    · rintro ⟨bytes, hbytes⟩
      exact absurd hbytes (h place bytes)

theorem lookup_of_locate (h : t.locate path = .ok (.file place bytes)) :
    t.files.lookup place = some bytes :=
  lookup_of_walk (locate_eq_ok.1 h).2.2.2

/-- A path that can be followed from where it starts can be followed still. -/
theorem Grows.starts (hgrows : Grows t t')
    (h : (path.isEmpty || !t.isDirectory (t.start path)) = false) :
    (path.isEmpty || !t'.isDirectory (t'.start path)) = false := by
  rw [Bool.or_eq_false_iff, Bool.not_eq_false'] at h ⊢
  rw [hgrows.start]
  exact ⟨h.1, hgrows.isDirectory h.2⟩

/-- A path that led to a place leads there still, if there is a file. -/
theorem Grows.locate {found : Place} (hgrows : Grows t t') (h : t.locate path = .ok found)
    (hplace : found.file? = some place) (hnot : t'.directories.contains place = false)
    (hbytes : t'.files.lookup place = some bytes) :
    t'.locate path = .ok (.file place bytes) := by
  obtain ⟨hfault, hstart, hend, hwalk⟩ := locate_eq_ok.1 h
  refine locate_eq_ok.2 ⟨hfault, hgrows.starts hstart, fun _ => hend ?_, ?_⟩
  · rw [hplace]
    rfl
  · rw [hgrows.start]
    exact hgrows.walk hwalk hplace hnot hbytes

/-- A path that led to a file leads to the same file still. -/
theorem Grows.locate_file (hgrows : Grows t t') (h : t.locate path = .ok (.file place bytes)) :
    ∃ bytes', t'.locate path = .ok (.file place bytes') ∧
      t'.files.lookup place = some bytes' := by
  obtain ⟨-, -, -, hwalk⟩ := locate_eq_ok.1 h
  have hfile : (t.files.lookup place).isSome = true := by
    rw [lookup_of_walk hwalk]
    rfl
  obtain ⟨hfile', hnot⟩ := hgrows.files place hfile
  obtain ⟨bytes', hbytes'⟩ := Option.isSome_iff_exists.1 hfile'
  exact ⟨bytes', hgrows.locate h rfl (hnot (contains_of_walk hwalk rfl)) hbytes', hbytes'⟩

theorem fileAt?_of_read (h : t.read path = .ok bytes) : ∃ place, t.fileAt? path = some place := by
  obtain ⟨place, hplace⟩ := read_eq_ok.1 h
  exact ⟨place, fileAt?_eq_some.2 ⟨bytes, hplace⟩⟩

theorem Grows.fileAt? (hgrows : Grows t t') (h : t.fileAt? path = some place) :
    t'.fileAt? path = some place := by
  obtain ⟨bytes, hbytes⟩ := fileAt?_eq_some.1 h
  obtain ⟨bytes', hbytes', -⟩ := hgrows.locate_file hbytes
  exact fileAt?_eq_some.2 ⟨bytes', hbytes'⟩

/-! ## Making directories -/

theorem grows_directory (h : ¬ (t.files.lookup place).isSome = true) :
    Grows t { t with directories := t.directories ++ [place] } where
  directories s hs := by
    simp only [List.contains_eq_mem, List.mem_append, decide_eq_true_eq] at hs ⊢
    exact .inl hs
  files s hs := by
    have hne : s ≠ place := by
      rintro rfl
      exact h hs
    refine ⟨hs, fun hnot => ?_⟩
    simp only [List.contains_eq_mem, List.mem_append, List.mem_singleton,
      decide_eq_false_iff_not, not_or] at hnot ⊢
    exact ⟨hnot, hne⟩
  workingDirectory := rfl

theorem createAlong_changes (t : FileTree) (here segments : List String) :
    (t.createAlong here segments).2.files = t.files ∧ Grows t (t.createAlong here segments).2 := by
  fun_induction createAlong t here segments with
  | case2 t here more ih => exact ih
  | case4 t here s more _ _ there _ ih => exact ih
  | case6 t here s more _ _ there _ hfile ih => exact ⟨ih.1, (grows_directory hfile).trans ih.2⟩
  | _ => exact ⟨rfl, Grows.refl _⟩

/-- Making directories leaves the files as they are. -/
theorem createDirectories_changes (t : FileTree) (path : String) :
    (t.createDirectories path).2.files = t.files ∧ Grows t (t.createDirectories path).2 := by
  unfold createDirectories
  cases pathFault? path with
  | some e => exact ⟨rfl, Grows.refl t⟩
  | none =>
    simp only
    split
    · exact ⟨rfl, Grows.refl t⟩
    split
    · exact ⟨rfl, Grows.refl t⟩
    · exact createAlong_changes t (t.start path) (Path.segments path)

/-! ## Writing -/

/-- Bytes are put into the file that the path leads to, or where it can be made. -/
theorem write_eq_ok (h : (t.write path bytes).1 = .ok ()) :
    ∃ found place, t.locate path = .ok found ∧ found.file? = some place ∧
      (t.write path bytes).2 = t.put place bytes := by
  unfold write at h ⊢
  cases hfound : t.locate path with
  | error e => rw [hfound] at h; cases h
  | ok found =>
    cases found with
    | directory s => rw [hfound] at h; cases h
    | file s b => exact ⟨_, s, rfl, rfl, rfl⟩
    | vacant s => exact ⟨_, s, rfl, rfl, rfl⟩

theorem write_of_locate {found : Place} (h : t.locate path = .ok found)
    (hplace : found.file? = some place) : t.write path bytes = (.ok (), t.put place bytes) := by
  unfold write
  rw [h]
  cases found with
  | directory s => cases hplace
  | file s b =>
    cases hplace
    rfl
  | vacant s =>
    cases hplace
    rfl

/-- Writing that fails changes nothing. -/
theorem write_eq_error {e : IoFault} (h : (t.write path bytes).1 = .error e) :
    (t.write path bytes).2 = t := by
  unfold write at h ⊢
  cases hfound : t.locate path with
  | error e => rfl
  | ok found =>
    rw [hfound] at h
    cases found with
    | directory s => rfl
    | file s b => cases h
    | vacant s => cases h

theorem grows_put : Grows t (t.put place bytes) where
  directories _ h := h
  files s hs := by
    refine ⟨?_, fun h => h⟩
    rw [lookup_put]
    split
    · rfl
    · exact hs
  workingDirectory := rfl

/-- The tree has become another one by putting bytes into the file that a path leads to.
Directories may have been made, and all other files are as they were. -/
structure Receives (t : FileTree) (path : String) (bytes : ByteArray) (t' : FileTree) : Prop where
  grows : Grows t t'
  file : ∃ place, t'.locate path = .ok (.file place bytes) ∧
    ∀ other ≠ place, t'.files.lookup other = t.files.lookup other

/-- What was put into the file is what the path reads. -/
theorem Receives.read (h : t.Receives path bytes t') : t'.read path = .ok bytes := by
  obtain ⟨place, hplace, -⟩ := h.file
  exact read_eq_ok.2 ⟨place, hplace⟩

theorem receives_write (h : (t.write path bytes).1 = .ok ()) :
    t.Receives path bytes (t.write path bytes).2 := by
  obtain ⟨found, place, hfound, hplace, hput⟩ := write_eq_ok h
  rw [hput]
  have hnot : t.directories.contains place = false :=
    contains_of_walk (locate_eq_ok.1 hfound).2.2.2 hplace
  refine ⟨grows_put, place, grows_put.locate hfound hplace hnot ?_, fun other hother => ?_⟩
  · rw [lookup_put, if_pos rfl]
  · rw [lookup_put, if_neg hother]

/-- What another path reads is as it was, unless it leads to that file. -/
theorem Receives.read_of_read {other : String} {bytes' : ByteArray} (h : t.Receives path bytes t')
    (hread : t.read other = .ok bytes') : t'.read other = .ok bytes' ∨
      t'.fileAt? path = t'.fileAt? other ∧ t'.read other = .ok bytes := by
  obtain ⟨place, hplace⟩ := read_eq_ok.1 hread
  obtain ⟨present, hpresent, hlookup⟩ := h.grows.locate_file hplace
  obtain ⟨written, hwritten, hother⟩ := h.file
  by_cases hne : place = written
  · subst hne
    rw [lookup_of_locate hwritten] at hlookup
    rw [← Option.some.inj hlookup] at hpresent
    refine .inr ⟨?_, read_eq_ok.2 ⟨place, hpresent⟩⟩
    rw [fileAt?_eq_some.2 ⟨_, hwritten⟩, fileAt?_eq_some.2 ⟨_, hpresent⟩]
  · rw [hother place hne, lookup_of_locate hplace] at hlookup
    rw [← Option.some.inj hlookup] at hpresent
    exact .inl (read_eq_ok.2 ⟨place, hpresent⟩)

/-- Directories that are made first change nothing else. -/
theorem Receives.after (h : t'.Receives path bytes t'') (hgrows : Grows t t')
    (hfiles : t'.files = t.files) : t.Receives path bytes t'' := by
  obtain ⟨place, hplace, hother⟩ := h.file
  exact ⟨hgrows.trans h.grows, place, hplace, fun other hne => by rw [hother other hne, hfiles]⟩

end FileTree

end KernelGen
