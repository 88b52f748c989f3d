import KernelGen.Proofs.Command.FileTree
set_option autoImplicit false

/-!
# Command: paths, and where they lead

A file has many paths: relative ones, absolute ones, and ones that go up before they come down.
A path is followed one segment after the other, so a path behind a directory leads where it leads
from there (`FileTree.locate_join`).  A double dot leads no further up than to the root
(`FileTree.walk_up`), and the working directory is only where relative paths start
(`FileTree.locate_of_isAbsolute`).  What a command does to a file depends on the place that a path
leads to and not on the path: two paths to one file are the same to it.
-/

namespace KernelGen

namespace Path

variable {directory path : String}

theorem pieces_ne_nil (cs : List Char) : pieces cs ≠ [] := by
  cases cs with
  | nil => exact List.cons_ne_nil _ _
  | cons c cs =>
    rw [pieces]
    split
    · exact List.cons_ne_nil _ _
    · split <;> exact List.cons_ne_nil _ _

theorem pieces_append_slash (front behind : List Char) :
    pieces (front ++ '/' :: behind) = pieces front ++ pieces behind := by
  induction front with
  | nil =>
    rw [List.nil_append]
    rfl
  | cons c front ih =>
    rw [List.cons_append, pieces, pieces, ih]
    by_cases hc : c = '/'
    · rw [if_pos hc, if_pos hc, List.cons_append]
    · obtain ⟨p, ps, hpieces⟩ := List.exists_cons_of_ne_nil (pieces_ne_nil front)
      rw [if_neg hc, if_neg hc, hpieces]
      rfl

/-- Between a directory and the path behind it there is one slash; the directory may have brought
it. -/
theorem exists_join (hdir : directory.isEmpty = false) (hpath : isAbsolute path = false) :
    ∃ front, (join directory path).toList = front ++ '/' :: path.toList ∧
      (directory.toList = front ∨ directory.toList = front ++ ['/']) := by
  unfold join
  rw [hpath, hdir]
  by_cases hslash : directory.toList.getLast? = some '/'
  · obtain ⟨front, hfront⟩ := List.getLast?_eq_some_iff.1 hslash
    refine ⟨front, ?_, .inr hfront⟩
    simp [hfront]
  · refine ⟨directory.toList, ?_, .inl rfl⟩
    simp [hslash, String.toList_append]

theorem segments_join (hdir : directory.isEmpty = false) (hpath : isAbsolute path = false) :
    segments (join directory path) = segments directory ++ segments path := by
  obtain ⟨front, hjoin, hfront⟩ := exists_join hdir hpath
  have hdirectory : (pieces directory.toList).filter (fun p => !isIdle p) =
      (pieces front).filter fun p => !isIdle p := by
    rcases hfront with hfront | hfront
    · rw [hfront]
    · rw [hfront, pieces_append_slash, List.filter_append]
      exact List.append_nil _
  unfold segments
  rw [hjoin, pieces_append_slash, List.filter_append, List.map_append, hdirectory]

theorem asksDirectory_join (hdir : directory.isEmpty = false) (hpath : isAbsolute path = false) :
    asksDirectory (join directory path) = asksDirectory path := by
  obtain ⟨front, hjoin, -⟩ := exists_join hdir hpath
  have hlast : (pieces front ++ pieces path.toList).getLast? = (pieces path.toList).getLast? := by
    rw [List.getLast?_append, List.getLast?_eq_some_getLast (pieces_ne_nil path.toList)]
    rfl
  unfold asksDirectory
  rw [hjoin, pieces_append_slash, hlast]

theorem isAbsolute_join (hdir : directory.isEmpty = false) (hpath : isAbsolute path = false) :
    isAbsolute (join directory path) = isAbsolute directory := by
  obtain ⟨front, hjoin, hfront⟩ := exists_join hdir hpath
  unfold isAbsolute
  rw [hjoin]
  cases front with
  | nil =>
    rcases hfront with hfront | hfront
    · rw [String.toList_eq_nil_iff.1 hfront] at hdir
      cases hdir
    · rw [hfront]
      rfl
  | cons c front =>
    rcases hfront with hfront | hfront <;>
    · rw [hfront]
      rfl

theorem join_empty (path : String) : join "" path = path := by
  unfold join
  exact if_pos (Bool.or_eq_true_iff.2 (.inr rfl))

theorem isEmpty_join (hdir : directory.isEmpty = false) (hpath : isAbsolute path = false) :
    (join directory path).isEmpty = false := by
  obtain ⟨front, hjoin, -⟩ := exists_join hdir hpath
  rw [String.isEmpty_eq_false_iff]
  rintro hempty
  rw [hempty] at hjoin
  exact absurd hjoin (by simp)

end Path

namespace FileTree

variable {t : FileTree} {directory path : String} {here there place first rest : List String}
  {found : Place}

/-- A walk goes on from the directory that the first part of it leads to. -/
theorem walk_append (h : t.walk here first = .ok (.directory there)) :
    t.walk here (first ++ rest) = t.walk there rest := by
  fun_induction walk t here first with
  | case1 here =>
    cases h
    rfl
  | case2 here more ih =>
    rw [List.cons_append, walk, if_pos rfl]
    exact ih h
  | case4 here s more hs hlong there hdir ih =>
    rw [List.cons_append, walk, if_neg hs, if_neg hlong]
    simp only [there, hdir, if_true]
    exact ih h
  | _ => cases h

/-- Each double dot goes up by one directory, and at the root it stays there. -/
theorem walk_up (t : FileTree) (here rest : List String) (n : Nat) :
    t.walk here (List.replicate n ".." ++ rest) = t.walk (here.take (here.length - n)) rest := by
  induction n generalizing here with
  | zero => rw [List.replicate_zero, List.nil_append, Nat.sub_zero, List.take_length]
  | succ n ih =>
    have hcount : min (here.length - 1 - n) (here.length - 1) = here.length - (n + 1) := by omega
    rw [List.replicate_succ, List.cons_append, walk, if_pos rfl, ih, List.length_dropLast,
      List.dropLast_eq_take, List.take_take, hcount]

/-- A path behind a directory leads where it leads from there. -/
theorem locate_join (hdir : t.locate directory = .ok (.directory there))
    (hpath : Path.isAbsolute path = false)
    (hfault : pathFault? (Path.join directory path) = none) :
    t.locate (Path.join directory path) = .ok found ↔
      (found.file?.isSome = true → Path.asksDirectory path = false) ∧
      t.walk there (Path.segments path) = .ok found := by
  obtain ⟨-, hstart, -, hwalk⟩ := locate_eq_ok.1 hdir
  obtain ⟨hne, hplace⟩ := Bool.or_eq_false_iff.1 hstart
  have hsame : t.start (Path.join directory path) = t.start directory := by
    rw [start, Path.isAbsolute_join hne hpath]
    rfl
  rw [locate_eq_ok, hsame, hplace, Path.isEmpty_join hne hpath, Path.asksDirectory_join hne hpath,
    Path.segments_join hne hpath, walk_append hwalk]
  exact ⟨fun h => h.2.2, fun h => ⟨hfault, rfl, h⟩⟩

/-- A relative path and the same path behind the working directory lead to one file. -/
theorem fileAt?_join (hdir : t.locate directory = .ok (.directory t.workingDirectory))
    (hpath : Path.isAbsolute path = false)
    (hfault : pathFault? (Path.join directory path) = none)
    (h : t.fileAt? path = some place) :
    t.fileAt? (Path.join directory path) = some place := by
  obtain ⟨bytes, hbytes⟩ := fileAt?_eq_some.1 h
  obtain ⟨-, -, hends, hwalk⟩ := locate_eq_ok.1 hbytes
  have hstart : t.start path = t.workingDirectory := by
    rw [start, hpath]
    rfl
  rw [hstart] at hwalk
  exact fileAt?_eq_some.2 ⟨bytes, (locate_join hdir hpath hfault).2 ⟨hends, hwalk⟩⟩

theorem walk_workingDirectory (t : FileTree) (other here segments : List String) :
    { t with workingDirectory := other }.walk here segments = t.walk here segments := by
  induction segments generalizing here with
  | nil => rfl
  | cons s more ih => simp only [walk, ih]

/-- An absolute path leads to the same place, whatever the working directory is. -/
theorem locate_of_isAbsolute (hpath : Path.isAbsolute path = true) (other : List String) :
    { t with workingDirectory := other }.locate path = t.locate path := by
  have hstart : ∀ t : FileTree, t.start path = [] := fun t => by rw [start, if_pos hpath]
  unfold locate
  rw [hstart, hstart, walk_workingDirectory]
  rfl

end FileTree

end KernelGen
