import KernelGen.Proofs.Command.Job
set_option autoImplicit false

/-!
# Command: the jobs of a manifest

The jobs of a batch share one tree.  When they are written, each runs on what the ones before it
have left: `Writing.InTurn` is a list of writings, each with the tree it was made of, and
`Writing.InTurn.read_of_read` says what such a list does to a file.  When they are checked, all of
them run on one tree.
-/

namespace KernelGen

open KernelGen.Action FileTree

section

variable {t t' : FileTree} {job : Job} {made made' : Generated}

/-! ## What a job makes -/

theorem Job.Makes.unique (h : job.Makes t made) (h' : job.Makes t made') : made' = made :=
  Except.ok.inj ((make_eq_ok.2 h').symm.trans (make_eq_ok.2 h))

/-- What a job makes depends on nothing but the two files it reads. -/
theorem Job.Makes.congr (h : job.Makes t made)
    (hdeclarations : t'.read job.declarations = t.read job.declarations)
    (hmappings : t'.read job.mappings = t.read job.mappings) : job.Makes t' made := by
  unfold Job.Makes
  rw [hdeclarations, hmappings]
  exact h

end

/-! ## Jobs in turn -/

/-- The jobs of a manifest, with their paths relative to the directory it lies in. -/
def Manifest.jobsAt (manifest : Manifest) (path : String) : List Job :=
  manifest.jobs.map (Job.inDirectory ((Path.parent? path).getD ""))

/-- A job that was written, with the tree it was done on and what it made of it. -/
structure Writing where
  job : Job
  before : FileTree
  made : Generated

/-- The tree that a writing leaves. -/
def Writing.after (w : Writing) : FileTree :=
  (w.job.run false : TreeAction Unit).tree w.before

/-- Writings one after the other, each on the tree that the one before it leaves. -/
inductive Writing.InTurn : FileTree → List Writing → FileTree → Prop
  | nil (t : FileTree) : InTurn t [] t
  | cons {t t' : FileTree} {w : Writing} {ws : List Writing} (hbefore : w.before = t)
      (hmade : w.job.Makes t w.made) (hreceives : t.Receives w.job.out w.made.text.toUTF8 w.after)
      (h : InTurn w.after ws t') : InTurn t (w :: ws) t'

variable {t t' : FileTree} {path directory : String} {job : Job} {jobs : List Job}
  {w : Writing} {ws : List Writing} {check : Bool} {index : Nat}

theorem runJobs_cons : (runJobs directory check index (job :: jobs) : TreeAction Unit) =
    (((job.inDirectory directory).run check).within (.manifestEntry index job.out) >>= fun _ =>
      runJobs directory check (index + 1) jobs) := rfl

theorem runJobs_cons_of_ok {u : Unit}
    (h : ((job.inDirectory directory).run check : TreeAction Unit).result t = .ok u) :
    (runJobs directory check index (job :: jobs) : TreeAction Unit).result t =
        (runJobs directory check (index + 1) jobs : TreeAction Unit).result
          (((job.inDirectory directory).run check : TreeAction Unit).tree t) ∧
      (runJobs directory check index (job :: jobs) : TreeAction Unit).tree t =
        (runJobs directory check (index + 1) jobs : TreeAction Unit).tree
          (((job.inDirectory directory).run check : TreeAction Unit).tree t) := by
  have hjob := (result_within_eq_ok (c := .manifestEntry index job.out)).2 h
  rw [runJobs_cons, result_bind, tree_bind_of_ok hjob, hjob, tree_within]
  exact ⟨rfl, rfl⟩

/-- Jobs that all succeed are written in turn. -/
theorem runJobs_write_succeeds
    (h : (runJobs directory false index jobs : TreeAction Unit).SucceedsOn t) :
    ∃ ws : List Writing, ws.map (·.job) = jobs.map (Job.inDirectory directory) ∧
      Writing.InTurn t ws ((runJobs directory false index jobs : TreeAction Unit).tree t) := by
  induction jobs generalizing t index with
  | nil => exact ⟨[], rfl, .nil t⟩
  | cons job jobs ih =>
    obtain ⟨u, hu⟩ := h
    rw [runJobs_cons] at hu
    obtain ⟨u', hjob, hmore⟩ := result_bind_eq_ok.1 hu
    rw [result_within_eq_ok] at hjob
    rw [tree_within] at hmore
    obtain ⟨made, hmade, hreceives⟩ := run_write_succeeds ⟨u', hjob⟩
    obtain ⟨ws, hws, hturn⟩ := ih ⟨u, hmore⟩
    rw [(runJobs_cons_of_ok hjob).2]
    refine ⟨⟨job.inDirectory directory, t, made⟩ :: ws, ?_, .cons rfl hmade hreceives hturn⟩
    rw [List.map_cons, List.map_cons, hws]

/-- Jobs are checked on one tree. -/
theorem onlyReads_runJobs_check :
    (runJobs directory true index jobs : TreeAction Unit).OnlyReads := by
  induction jobs generalizing index with
  | nil => exact .pure ()
  | cons job jobs ih =>
    exact ((onlyReads_run_check (job.inDirectory directory)).within _).bind fun _ => ih

theorem runJobs_check_succeeds :
    (runJobs directory true index jobs : TreeAction Unit).SucceedsOn t ↔
      ∀ job ∈ jobs.map (Job.inDirectory directory),
        (job.run true : TreeAction Unit).SucceedsOn t := by
  induction jobs generalizing index with
  | nil => simp [SucceedsOn, runJobs]
  | cons job jobs ih =>
    rw [List.map_cons, List.forall_mem_cons, ← @ih (index + 1)]
    unfold SucceedsOn
    rw [runJobs_cons]
    simp only [((onlyReads_run_check (job.inDirectory directory)).within _).result_bind_eq_ok,
      result_within_eq_ok]
    constructor
    · rintro ⟨u, u', hjob, hjobs⟩
      exact ⟨⟨u', hjob⟩, u, hjobs⟩
    · rintro ⟨⟨u', hjob⟩, u, hjobs⟩
      exact ⟨u, u', hjob, hjobs⟩

/-! ## What stays -/

theorem Writing.InTurn.grows (h : Writing.InTurn t ws t') : Grows t t' := by
  induction h with
  | nil t => exact .refl t
  | cons _ _ hreceives _ ih => exact hreceives.grows.trans ih

/-- What a path reads at the end is what it read at the start, or what one of the jobs put into
the file that it leads to. -/
theorem Writing.InTurn.read_of_read {bytes : ByteArray} (h : Writing.InTurn t ws t')
    (hread : t.read path = .ok bytes) : t'.read path = .ok bytes ∨
      ∃ w ∈ ws, t'.fileAt? w.job.out = t'.fileAt? path ∧
        t'.read path = .ok w.made.text.toUTF8 := by
  induction h generalizing bytes with
  | nil t => exact .inl hread
  | @cons t t' w ws _ _ hreceives hturn ih =>
    have hlater : ∀ {bytes}, (∃ w ∈ ws, t'.fileAt? w.job.out = t'.fileAt? path ∧
        t'.read path = .ok w.made.text.toUTF8) → t'.read path = .ok bytes ∨
          ∃ w' ∈ w :: ws, t'.fileAt? w'.job.out = t'.fileAt? path ∧
            t'.read path = .ok w'.made.text.toUTF8 := by
      rintro bytes ⟨w', hw', hfile, hw'read⟩
      exact .inr ⟨w', List.mem_cons_of_mem _ hw', hfile, hw'read⟩
    rcases hreceives.read_of_read hread with hread | ⟨hfile, hread⟩
    · rcases ih hread with hkept | hwritten
      · exact .inl hkept
      · exact hlater hwritten
    · rcases ih hread with hkept | hwritten
      · obtain ⟨place, hplace⟩ := fileAt?_of_read hread
        refine .inr ⟨w, List.mem_cons_self, ?_, hkept⟩
        rw [hturn.grows.fileAt? hplace, hturn.grows.fileAt? (hfile.trans hplace)]
      · exact hlater hwritten

/-- What a path reads stays, if whatever is put into the file it leads to is the same again. -/
theorem Writing.InTurn.read {bytes : ByteArray} (h : Writing.InTurn t ws t')
    (hread : t.read path = .ok bytes)
    (hsame : ∀ w ∈ ws, t'.fileAt? w.job.out = t'.fileAt? path → w.made.text.toUTF8 = bytes) :
    t'.read path = .ok bytes := by
  rcases h.read_of_read hread with hkept | ⟨w, hw, hfile, hwritten⟩
  · exact hkept
  · rw [hwritten, hsame w hw hfile]

/-- The writings from one of them on. -/
theorem Writing.InTurn.from_mem (h : Writing.InTurn t ws t') (hw : w ∈ ws) :
    ∃ ws', ws' ⊆ ws ∧ Writing.InTurn w.before ws' t' := by
  induction h with
  | nil t => cases hw
  | @cons t t' first ws hbefore hmade hreceives hturn ih =>
    rcases List.mem_cons.1 hw with rfl | hw
    · rw [hbefore]
      exact ⟨w :: ws, List.Subset.refl _, .cons hbefore hmade hreceives hturn⟩
    · obtain ⟨ws', hws', hturn'⟩ := ih hw
      exact ⟨ws', fun w' hw' => List.mem_cons_of_mem _ (hws' hw'), hturn'⟩

/-! ## Manifests -/

/-- A path leads to a manifest of the right version. -/
def FileTree.Lists (t : FileTree) (path : String) (manifest : Manifest) : Prop :=
  ∃ bytes, t.read path = .ok bytes ∧ (Json.parseBytes bytes >>= Manifest.ofJson) = .ok manifest ∧
    Text.trim manifest.version = manifestVersion

/-- Reads a manifest from its bytes. -/
def parseManifest (path : String) (bytes : ByteArray) : TreeAction Manifest :=
  (match Json.parseBytes bytes >>= Manifest.ofJson with
    | .ok manifest => pure manifest
    | .error fault => Action.fail (.json fault)).within (.parseManifest path)

theorem onlyReads_parseManifest (bytes : ByteArray) : (parseManifest path bytes).OnlyReads := by
  unfold parseManifest
  refine OnlyReads.within ?_ _
  split
  · exact .pure _
  · exact .ofOutcome _

theorem result_parseManifest {bytes : ByteArray} {manifest : Manifest} :
    (parseManifest path bytes).result t = .ok manifest ↔
      (Json.parseBytes bytes >>= Manifest.ofJson) = .ok manifest := by
  unfold parseManifest
  rw [result_within_eq_ok]
  cases Json.parseBytes bytes >>= Manifest.ofJson with
  | ok manifest' => simp
  | error fault => simp [Action.fail, Outcome.fail]

/-- Runs the jobs of a manifest, unless its version is another one. -/
def runManifest (path : String) (check : Bool) (manifest : Manifest) : TreeAction Unit := do
  if Text.trim manifest.version ≠ manifestVersion then
    Action.fail (.manifestVersion manifestVersion manifest.version)
  runJobs ((Path.parent? path).getD "") check 0 manifest.jobs

theorem runBatch_eq : (runBatch path check : TreeAction Unit) =
    ((Action.ofFileSystem (FileSystem.read path)).within (.readManifest path) >>= fun bytes =>
      parseManifest path bytes >>= runManifest path check) := rfl

theorem runManifest_of_version {manifest : Manifest}
    (h : Text.trim manifest.version = manifestVersion) : runManifest path check manifest =
      runJobs ((Path.parent? path).getD "") check 0 manifest.jobs := by
  unfold runManifest
  rw [if_neg (Classical.not_not.2 h)]

/-- The jobs of a manifest are run on the tree that it was read from. -/
theorem runBatch_of_lists {manifest : Manifest} (h : t.Lists path manifest) :
    (runBatch path check : TreeAction Unit).result t =
      (runJobs ((Path.parent? path).getD "") check 0 manifest.jobs : TreeAction Unit).result t ∧
    (runBatch path check : TreeAction Unit).tree t =
      (runJobs ((Path.parent? path).getD "") check 0 manifest.jobs : TreeAction Unit).tree t := by
  obtain ⟨bytes, hbytes, hjson, hversion⟩ := h
  have hread := (OnlyReads.read path).within (.readManifest path)
  obtain ⟨hresult, htree⟩ := hread.bind_of_ok
    (f := fun bytes => parseManifest path bytes >>= runManifest path check)
    (result_within_eq_ok.2 (result_read_eq_ok.2 hbytes))
  obtain ⟨hresult', htree'⟩ := (onlyReads_parseManifest bytes).bind_of_ok
    (f := runManifest path check) (result_parseManifest.2 hjson)
  rw [runBatch_eq, hresult, htree, hresult', htree', runManifest_of_version hversion]
  exact ⟨rfl, rfl⟩

theorem lists_of_runBatch (h : (runBatch path check : TreeAction Unit).SucceedsOn t) :
    ∃ manifest, t.Lists path manifest := by
  obtain ⟨u, hu⟩ := h
  rw [runBatch_eq, ((OnlyReads.read path).within _).result_bind_eq_ok] at hu
  obtain ⟨bytes, hbytes, hu⟩ := hu
  obtain ⟨manifest, hmanifest, hu⟩ := (onlyReads_parseManifest bytes).result_bind_eq_ok.1 hu
  refine ⟨manifest, bytes, result_read_eq_ok.1 (result_within_eq_ok.1 hbytes),
    result_parseManifest.1 hmanifest, ?_⟩
  refine Classical.byContradiction fun hversion => ?_
  unfold runManifest at hu
  rw [if_pos hversion] at hu
  cases hu

theorem FileTree.Lists.unique {manifest manifest' : Manifest} (h : t.Lists path manifest)
    (h' : t'.Lists path manifest') (hread : t'.read path = t.read path) :
    manifest' = manifest := by
  obtain ⟨bytes, hbytes, hjson, -⟩ := h
  obtain ⟨bytes', hbytes', hjson', -⟩ := h'
  rw [hread, hbytes] at hbytes'
  cases hbytes'
  exact Except.ok.inj (hjson'.symm.trans hjson)

theorem runBatch_succeeds {manifest : Manifest} (h : t.Lists path manifest) :
    (runBatch path check : TreeAction Unit).SucceedsOn t ↔
      (runJobs ((Path.parent? path).getD "") check 0 manifest.jobs :
        TreeAction Unit).SucceedsOn t := by
  unfold SucceedsOn
  rw [(runBatch_of_lists h).1]

theorem onlyReads_runBatch_check (path : String) :
    (runBatch path true : TreeAction Unit).OnlyReads := by
  rw [runBatch_eq]
  refine ((OnlyReads.read path).within _).bind fun bytes =>
    (onlyReads_parseManifest bytes).bind fun manifest => ?_
  unfold runManifest
  split
  · exact (OnlyReads.ofOutcome _).bind fun _ => onlyReads_runJobs_check
  · exact onlyReads_runJobs_check

end KernelGen
