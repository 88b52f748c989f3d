import KernelGen.Proofs.Command.Action
import KernelGen.Proofs.Command.FileTree
set_option autoImplicit false

/-!
# Command: jobs, written and checked

What a job makes depends on two files and on nothing else (`Job.Makes`), and making it changes
nothing.  Behind that the two modes part: a check compares the text with the output file, and
writing puts it there.  So the two agree on what is made and on when it is made, a check changes
nothing at all, and a job that is written changes nothing before its text is complete and then no
file but its output file.
-/

namespace KernelGen

open KernelGen.Action

variable {t t' : FileTree} {path text : String} {job : Job} {made : Generated}
  {e : CommandFailure}

/-! ## Texts of files -/

theorem fromUTF8?_eq_some {bytes : ByteArray} :
    String.fromUTF8? bytes = some text ↔ bytes = text.toUTF8 := by
  unfold String.fromUTF8?
  constructor
  · intro h
    split at h
    · cases h
      rfl
    · cases h
  · rintro rfl
    exact dif_pos text.isValidUTF8

theorem result_read_eq_ok {bytes : ByteArray} :
    (ofFileSystem (FileSystem.read path) : TreeAction ByteArray).result t =
      .ok bytes ↔ t.read path = .ok bytes := by
  show (t.read path).mapError _ = _ ↔ _
  cases t.read path <;> simp [Except.mapError]

theorem onlyReads_readText (path : String) : (readText path : TreeAction String).OnlyReads := by
  unfold readText
  refine (OnlyReads.read path).bind fun bytes => ?_
  split
  · exact .pure _
  · exact .ofOutcome _

theorem result_readText_eq_ok : (readText path : TreeAction String).result t = .ok text ↔
    t.read path = .ok text.toUTF8 := by
  unfold readText
  simp only [result_bind_eq_ok, result_read_eq_ok]
  constructor
  · rintro ⟨bytes, hbytes, h⟩
    split at h
    · rename_i text' htext'
      cases h
      rw [hbytes, fromUTF8?_eq_some.1 htext']
    · cases h
  · intro h
    refine ⟨text.toUTF8, h, ?_⟩
    rw [fromUTF8?_eq_some.2 rfl]
    rfl

/-! ## Making -/

/-- A job makes something of a tree: its header and its mapping document can be read, and the
generator of the document, with the prefix of the job, succeeds on the header. -/
def Job.Makes (job : Job) (t : FileTree) (made : Generated) : Prop :=
  ∃ (header : String) (bytes : ByteArray) (file : MappingFile) (generator : Generator),
    t.read job.declarations = .ok header.toUTF8 ∧ t.read job.mappings = .ok bytes ∧
    MappingFile.ofBytes bytes = .ok file ∧ Generator.ofFile file = .ok generator ∧
    ((generator.withPrefix job.functionNamePrefix?).run header job.declarations).result = .ok made

/-- The failure arose when the output file was to be written. -/
def CommandFailure.isInOutput (e : CommandFailure) : Bool :=
  match e.contexts.head? with
  | some (.createOutputDirectory _) | some (.writeOutput _) => true
  | _ => false

theorem onlyReads_make (job : Job) : (job.make : TreeAction Generated).OnlyReads := by
  unfold Job.make
  refine ((onlyReads_readText _).within _).bind fun header => ?_
  refine ((OnlyReads.read _).within _).bind fun bytes => ?_
  refine ((OnlyReads.ofOutcome _).within _).bind fun file => ?_
  refine ((OnlyReads.ofOutcome _).within _).bind fun generator => ?_
  refine ((OnlyReads.ofOutcome _).within _).bind fun made => ?_
  exact (OnlyReads.ofOutcome _).bind fun _ => .pure made

theorem make_eq_ok :
    (job.make : TreeAction Generated).result t = .ok made ↔ job.Makes t made := by
  have hheader := (onlyReads_readText job.declarations).within (.readDeclarations job.declarations)
  have hbytes := (OnlyReads.read job.mappings).within (.readMappings job.mappings)
  unfold Job.make
  rw [hheader.result_bind_eq_ok]
  simp only [hbytes.result_bind_eq_ok, result_bind_eq_ok, result_within_eq_ok, tree_within,
    result_readText_eq_ok, result_read_eq_ok, result_ofExcept_eq_ok, result_mapError_eq_ok]
  constructor
  · rintro ⟨header, hheader, bytes, hbytes, file, hfile, generator, hgenerator, made', hmade, -, -,
      hsame⟩
    cases hsame
    exact ⟨header, bytes, file, generator, hheader, hbytes, hfile, hgenerator, hmade⟩
  · rintro ⟨header, bytes, file, generator, hheader, hbytes, hfile, hgenerator, hmade⟩
    exact ⟨header, hheader, bytes, hbytes, file, hfile, generator, hgenerator, made, hmade, (), rfl,
      rfl⟩

/-- A job that makes nothing fails before anything is written. -/
theorem isInOutput_of_make
    (h : (job.make : TreeAction Generated).result t = .error e) :
    e.isInOutput = false := by
  have hwithin : ∀ {α : Type} {x : TreeAction α} {t : FileTree} {c : CommandContext},
      (CommandFailure.mk e.cause [c]).isInOutput = false →
      (x.within c).result t = .error e → e.isInOutput = false := by
    intro α x t c hc h
    obtain ⟨e', -, rfl⟩ := result_within_eq_error.1 h
    exact hc
  unfold Job.make at h
  rcases result_bind_eq_error.1 h with h | ⟨header, -, h⟩
  · exact hwithin rfl h
  rcases result_bind_eq_error.1 h with h | ⟨bytes, -, h⟩
  · exact hwithin rfl h
  rcases result_bind_eq_error.1 h with h | ⟨file, -, h⟩
  · exact hwithin rfl h
  rcases result_bind_eq_error.1 h with h | ⟨generator, -, h⟩
  · exact hwithin rfl h
  rcases result_bind_eq_error.1 h with h | ⟨made, -, h⟩
  · exact hwithin rfl h
  · cases h

/-! ## Checking -/

theorem onlyReads_checkOutput (path text : String) :
    (checkOutput path text : TreeAction Unit).OnlyReads := by
  unfold checkOutput
  refine ((onlyReads_readText _).within _).bind fun present => ?_
  split
  · exact .ofOutcome _
  · exact .pure _

theorem checkOutput_eq_ok : (checkOutput path text : TreeAction Unit).SucceedsOn t ↔
    t.read path = .ok text.toUTF8 := by
  unfold checkOutput SucceedsOn
  rw [← result_readText_eq_ok]
  simp only [((onlyReads_readText path).within _).result_bind_eq_ok, result_within_eq_ok]
  constructor
  · rintro ⟨_, present, hpresent, h⟩
    split at h
    · cases h
    · rename_i hsame
      rw [hpresent, Classical.not_not.1 hsame]
  · intro h
    exact ⟨(), text, h, by rw [if_neg (Classical.not_not.2 rfl)]; rfl⟩

theorem onlyReads_run_check (job : Job) : (job.run true : TreeAction Unit).OnlyReads := by
  unfold Job.run
  exact (onlyReads_make job).bind fun made => onlyReads_checkOutput job.out made.text

/-- A check succeeds exactly when the output file holds what the job makes. -/
theorem run_check_succeeds : (job.run true : TreeAction Unit).SucceedsOn t ↔
    ∃ made, job.Makes t made ∧ t.read job.out = .ok made.text.toUTF8 := by
  unfold Job.run SucceedsOn
  simp only [(onlyReads_make job).result_bind_eq_ok, make_eq_ok, if_true]
  constructor
  · rintro ⟨_, made, hmade, h⟩
    exact ⟨made, hmade, checkOutput_eq_ok.1 ⟨_, h⟩⟩
  · rintro ⟨made, hmade, h⟩
    obtain ⟨u, hu⟩ := checkOutput_eq_ok.2 h
    exact ⟨u, made, hmade, hu⟩

/-! ## Writing -/

/-- Makes the directory of an output file, and those it lies in. -/
def makeDirectory (path : String) : TreeAction Unit :=
  (Action.ofFileSystem (FileSystem.createDirectories path)).within (.createOutputDirectory path)

theorem tree_makeDirectory (path : String) (t : FileTree) :
    (makeDirectory path).tree t = (t.createDirectories path).2 := rfl

theorem makeDirectory_cases (path : String) (t : FileTree) :
    (makeDirectory path).result t = .ok () ∨
      ∃ e, (makeDirectory path).result t = .error e ∧ e.isInOutput = true := by
  have hresult : (makeDirectory path).result t =
      ((t.createDirectories path).1.mapError fun e => ⟨.io e, []⟩).mapError
        (CommandFailure.within (.createOutputDirectory path)) := rfl
  rw [hresult]
  cases (t.createDirectories path).1 with
  | ok u => exact .inl rfl
  | error e => exact .inr ⟨_, rfl, rfl⟩

/-- Puts a text into an output file. -/
def putOutput (path text : String) : TreeAction Unit :=
  (Action.ofFileSystem (FileSystem.write path text.toUTF8)).within (.writeOutput path)

theorem putOutput_cases (path text : String) (t : FileTree) :
    ((putOutput path text).result t = .ok () ∧
      t.Receives path text.toUTF8 ((putOutput path text).tree t)) ∨
    ((putOutput path text).tree t = t ∧
      ∃ e, (putOutput path text).result t = .error e ∧ e.isInOutput = true) := by
  have hresult : (putOutput path text).result t =
      ((t.write path text.toUTF8).1.mapError fun e => ⟨.io e, []⟩).mapError
        (CommandFailure.within (.writeOutput path)) := rfl
  have htree : (putOutput path text).tree t = (t.write path text.toUTF8).2 := rfl
  cases hwrite : (t.write path text.toUTF8).1 with
  | ok u =>
    rw [hwrite] at hresult
    exact .inl ⟨hresult, htree ▸ FileTree.receives_write hwrite⟩
  | error e =>
    rw [hwrite] at hresult
    exact .inr ⟨htree.trans (FileTree.write_eq_error hwrite), _, hresult, rfl⟩

theorem writeOutput_of_none (h : Path.parent? path = none) :
    (writeOutput path text : TreeAction Unit) = putOutput path text := by
  unfold writeOutput
  rw [h]
  rfl

theorem writeOutput_of_some {directory : String} (h : Path.parent? path = some directory) :
    (writeOutput path text : TreeAction Unit) =
      makeDirectory directory >>= fun _ => putOutput path text := by
  unfold writeOutput
  rw [h]
  rfl

/-- A text is put into its output file, or that fails and no file has changed. -/
theorem writeOutput_cases (path text : String) (t : FileTree) :
    ((writeOutput path text : TreeAction Unit).result t = .ok () ∧
      t.Receives path text.toUTF8 ((writeOutput path text : TreeAction Unit).tree t)) ∨
    ((writeOutput path text : TreeAction Unit).tree t).files = t.files ∧
      ∃ e, (writeOutput path text : TreeAction Unit).result t = .error e ∧ e.isInOutput = true := by
  cases hparent : Path.parent? path with
  | none =>
    rw [writeOutput_of_none hparent]
    rcases putOutput_cases path text t with hdone | ⟨htree, herror⟩
    · exact .inl hdone
    · exact .inr ⟨congrArg FileTree.files htree, herror⟩
  | some directory =>
    obtain ⟨hfiles, hgrows⟩ := FileTree.createDirectories_changes t directory
    rw [writeOutput_of_some hparent]
    rcases makeDirectory_cases directory t with hdirectory | ⟨e, hdirectory, he⟩
    · rw [tree_bind_of_ok hdirectory, tree_makeDirectory]
      simp only [result_bind, hdirectory, tree_makeDirectory]
      rcases putOutput_cases path text (t.createDirectories directory).2 with
        ⟨hresult, hreceives⟩ | ⟨htree, herror⟩
      · exact .inl ⟨hresult, hreceives.after hgrows hfiles⟩
      · exact .inr ⟨(congrArg FileTree.files htree).trans hfiles, herror⟩
    · rw [tree_bind_of_error hdirectory, tree_makeDirectory]
      exact .inr ⟨hfiles, e, result_bind_eq_error.2 (.inl hdirectory), he⟩

/-- A job that makes nothing fails, and the tree is as it was. -/
theorem run_write_of_not_makes (h : ∀ made, ¬ job.Makes t made) :
    (job.run false : TreeAction Unit).tree t = t ∧
      ∃ e, (job.run false : TreeAction Unit).result t = .error e ∧ e.isInOutput = false := by
  unfold Job.run
  cases hmake : (job.make : TreeAction Generated).result t with
  | ok made => exact absurd (make_eq_ok.1 hmake) (h made)
  | error e =>
    rw [tree_bind_of_error hmake, onlyReads_make job t]
    exact ⟨rfl, e, result_bind_eq_error.2 (.inl hmake), isInOutput_of_make hmake⟩

/-- What a job does once it has made something is to put it into its output file. -/
theorem run_write_eq (h : job.Makes t made) :
    (job.run false : TreeAction Unit).result t =
        (writeOutput job.out made.text : TreeAction Unit).result t ∧
      (job.run false : TreeAction Unit).tree t =
        (writeOutput job.out made.text : TreeAction Unit).tree t := by
  unfold Job.run
  exact (onlyReads_make job).bind_of_ok (make_eq_ok.2 h)

/-- What a job makes is put into its output file, or that fails and no file has changed. -/
theorem run_write_of_makes (h : job.Makes t made) :
    ((job.run false : TreeAction Unit).result t = .ok () ∧
      t.Receives job.out made.text.toUTF8 ((job.run false : TreeAction Unit).tree t)) ∨
    ((job.run false : TreeAction Unit).tree t).files = t.files ∧
      ∃ e, (job.run false : TreeAction Unit).result t = .error e ∧ e.isInOutput = true := by
  obtain ⟨hresult, htree⟩ := run_write_eq h
  rw [hresult, htree]
  exact writeOutput_cases job.out made.text t

/-- What a job that was written has made is in its output file. -/
theorem run_write_succeeds (h : (job.run false : TreeAction Unit).SucceedsOn t) :
    ∃ made, job.Makes t made ∧
      t.Receives job.out made.text.toUTF8 ((job.run false : TreeAction Unit).tree t) := by
  obtain ⟨u, hu⟩ := h
  by_cases hmakes : ∃ made, job.Makes t made
  · obtain ⟨made, hmade⟩ := hmakes
    rcases run_write_of_makes hmade with ⟨-, hreceives⟩ | ⟨-, e, he, -⟩
    · exact ⟨made, hmade, hreceives⟩
    · rw [hu] at he
      cases he
  · obtain ⟨-, e, he, -⟩ := run_write_of_not_makes fun made hmade => hmakes ⟨made, hmade⟩
    rw [hu] at he
    cases he

/-! ## The command -/

/-- A command on file trees. -/
def Command.onTree (c : Command) : TreeAction String := c.run

theorem onTree_generate (job : Job) (check : Bool) :
    (Command.generate job check).onTree = (job.run check >>= fun _ => pure "") := rfl

/-- **One job, checked and written.**  A check leaves the tree as it is, and succeeds exactly when
the job makes something of the tree and the output file holds the text of it.  Writing fails
before anything is written, and leaves the tree as it is, exactly when the job makes nothing of
it.  When the job makes something, its text is put into the output file, directories for it may
be made, and all other files are as they were; or this fails, and all files are as they were. -/
theorem generate_checks_and_writes (job : Job) (t : FileTree) :
    (Command.generate job true).onTree.tree t = t ∧
    ((Command.generate job true).onTree.SucceedsOn t ↔
      ∃ made, job.Makes t made ∧ t.read job.out = .ok made.text.toUTF8) ∧
    ((∀ made, ¬ job.Makes t made) →
      (Command.generate job false).onTree.tree t = t ∧
      ∃ e, (Command.generate job false).onTree.result t = .error e ∧ e.isInOutput = false) ∧
    (∀ made, job.Makes t made →
      ((Command.generate job false).onTree.SucceedsOn t ∧
        t.Receives job.out made.text.toUTF8 ((Command.generate job false).onTree.tree t)) ∨
      (((Command.generate job false).onTree.tree t).files = t.files ∧
        ∃ e, (Command.generate job false).onTree.result t = .error e ∧ e.isInOutput = true)) := by
  simp only [onTree_generate, tree_bind_pure, succeedsOn_bind_pure, result_bind_pure_eq_error]
  refine ⟨onlyReads_run_check job t, run_check_succeeds, run_write_of_not_makes,
    fun made hmade => ?_⟩
  rcases run_write_of_makes hmade with ⟨hok, hreceives⟩ | hfailed
  · exact .inl ⟨⟨(), hok⟩, hreceives⟩
  · exact .inr hfailed

end KernelGen
