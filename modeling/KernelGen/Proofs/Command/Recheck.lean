import KernelGen.Proofs.Command.Batch
import KernelGen.Proofs.Command.Paths
import KernelGen.Proofs.Generator.Success
import KernelGen.Proofs.Kernel.SourceFileText
import KernelGen.Proofs.Metadata.Annotation
set_option autoImplicit false

/-!
# Command: batches, checked after they were written

A check reads everything from the tree that the writings leave.  A generated text starts with a
banner that no JSON document has, so a check cannot succeed once such a text stands where the
manifest or the mappings of a job were.  If these and the headers are there still, the jobs make
the same again, and what a check finds is what was written, unless a later job has put another
text into the same file.
-/

namespace KernelGen

open KernelGen.Action FileTree

variable {t t' : FileTree} {path : String} {job : Job} {jobs : List Job} {w : Writing}
  {ws : List Writing}

/-! ## Generated texts are no documents -/

/-- What starts with the banner is not JSON. -/
theorem parse_banner (rest : String) :
    Json.parse (SourceFile.banner ++ rest) = .error .malformed := by
  have hchars : (SourceFile.banner ++ rest).toList =
      '/' :: (SourceFile.banner.toList.tail ++ rest.toList) := by
    rw [String.toList_append]
    rfl
  have hsymbols : Json.symbols (SourceFile.banner ++ rest).toList = none := by
    rw [hchars, Json.symbols]
    rfl
  rw [Json.parse, hsymbols]

/-- A run makes the text of a source file. -/
theorem exists_sourceFile {g : Generator} {header origin : String} {made : Generated}
    (h : (g.run header origin).result = .ok made) : ∃ s : SourceFile, made.text = s.text := by
  unfold Generator.run at h
  split at h
  · cases h
  split at h
  · cases h
  · obtain ⟨ks, left, -, -, rfl⟩ := Generator.runOn_eq_ok.1 h
    exact ⟨_, rfl⟩

/-- What a job makes is not JSON. -/
theorem Job.Makes.parseBytes {made : Generated} (h : job.Makes t made) :
    Json.parseBytes made.text.toUTF8 = .error .malformed := by
  obtain ⟨header, bytes, file, generator, -, -, -, -, hmade⟩ := h
  obtain ⟨s, hs⟩ := exists_sourceFile hmade
  obtain ⟨rest, hrest⟩ := s.exists_text
  rw [Json.parseBytes_toUTF8, hs, hrest, parse_banner]

/-! ## Checks after writings -/

/-- The header that a job read when it was written is there still. -/
def Writing.HeaderStays (w : Writing) (t : FileTree) : Prop :=
  t.read w.job.declarations = w.before.read w.job.declarations

/-- The mappings that a job read when it was written are there still. -/
def Writing.MappingsStay (w : Writing) (t : FileTree) : Prop :=
  t.read w.job.mappings = w.before.read w.job.mappings

/-- What a job wrote is there still. -/
def Writing.OutputStays (w : Writing) (t : FileTree) : Prop :=
  t.read w.job.out = .ok w.made.text.toUTF8

theorem Writing.InTurn.makes (h : Writing.InTurn t ws t') (hw : w ∈ ws) :
    w.job.Makes w.before w.made := by
  induction h with
  | nil t => cases hw
  | cons hbefore hmade _ _ ih =>
    rcases List.mem_cons.1 hw with rfl | hw
    · rw [hbefore]
      exact hmade
    · exact ih hw

/-- A job whose inputs stay makes the same again. -/
theorem Writing.InTurn.makes_last (h : Writing.InTurn t ws t') (hw : w ∈ ws)
    (hheader : w.HeaderStays t') (hmappings : w.MappingsStay t') : w.job.Makes t' w.made :=
  (h.makes hw).congr hheader hmappings

/-- A document that can be read at the end is the one that was there at the start. -/
theorem Writing.InTurn.read_document {bytes : ByteArray} (h : Writing.InTurn t ws t')
    (hread : t.read path = .ok bytes)
    (hjson : ∀ bytes, t'.read path = .ok bytes → Json.parseBytes bytes ≠ .error .malformed) :
    t'.read path = t.read path := by
  rcases h.read_of_read hread with hkept | ⟨w, hw, -, hwritten⟩
  · rw [hkept, hread]
  · exact absurd (h.makes hw).parseBytes (hjson _ hwritten)

/-- The mappings of a job that makes something at the end have stayed. -/
theorem Writing.InTurn.mappings_stay_of_makes {made : Generated} (h : Writing.InTurn t ws t')
    (hw : w ∈ ws) (hmakes : w.job.Makes t' made) : w.MappingsStay t' := by
  obtain ⟨ws', -, hturn⟩ := h.from_mem hw
  obtain ⟨-, bytes, -, -, -, hbytes, -⟩ := h.makes hw
  obtain ⟨-, bytes', file, -, -, hbytes', hfile, -⟩ := hmakes
  refine hturn.read_document hbytes fun other hother hjson => ?_
  rw [hbytes'] at hother
  cases hother
  rw [MappingFile.ofBytes, hjson] at hfile
  cases hfile

/-- If the headers of all jobs stay, the jobs check exactly when their mappings and their outputs
stay too. -/
theorem Writing.InTurn.check_succeeds (h : Writing.InTurn t ws t')
    (hheaders : ∀ w ∈ ws, w.HeaderStays t') :
    (∀ job ∈ ws.map (·.job), (job.run true : TreeAction Unit).SucceedsOn t') ↔
      ∀ w ∈ ws, w.MappingsStay t' ∧ w.OutputStays t' := by
  rw [List.forall_mem_map]
  refine forall₂_congr fun w hw => ?_
  rw [run_check_succeeds]
  constructor
  · rintro ⟨made, hmade, hout⟩
    have hmappings := h.mappings_stay_of_makes hw hmade
    rw [(h.makes_last hw (hheaders w hw) hmappings).unique hmade] at hout
    exact ⟨hmappings, hout⟩
  · rintro ⟨hmappings, hout⟩
    exact ⟨w.made, h.makes_last hw (hheaders w hw) hmappings, hout⟩

/-- A manifest that can be read at the end is the one that was there at the start. -/
theorem Writing.InTurn.manifest_stays {manifest manifest' : Manifest} (h : Writing.InTurn t ws t')
    (hlists : t.Lists path manifest) (hlists' : t'.Lists path manifest') :
    t'.read path = t.read path := by
  obtain ⟨bytes, hbytes, -⟩ := hlists
  obtain ⟨bytes', hbytes', hjson, -⟩ := hlists'
  refine h.read_document hbytes fun other hother hfault => ?_
  rw [hbytes'] at hother
  cases hother
  rw [hfault] at hjson
  cases hjson

/-- A check of the batch runs the jobs that were written, if the manifest has stayed. -/
theorem Writing.InTurn.runBatch_check_succeeds {manifest : Manifest} (h : Writing.InTurn t ws t')
    (hlists : t.Lists path manifest) (hjobs : ws.map (·.job) = manifest.jobsAt path) :
    (runBatch path true : TreeAction Unit).SucceedsOn t' ↔
      t'.read path = t.read path ∧
      ∀ job ∈ ws.map (·.job), (job.run true : TreeAction Unit).SucceedsOn t' := by
  have hkept : t'.read path = t.read path →
      ((runBatch path true : TreeAction Unit).SucceedsOn t' ↔
        ∀ job ∈ ws.map (·.job), (job.run true : TreeAction Unit).SucceedsOn t') := by
    intro hread
    obtain ⟨bytes, hbytes, hmore⟩ := hlists
    have hlists' : t'.Lists path manifest := ⟨bytes, hread.trans hbytes, hmore⟩
    rw [runBatch_succeeds hlists', runJobs_check_succeeds, hjobs, Manifest.jobsAt]
  constructor
  · intro hcheck
    obtain ⟨manifest', hlists'⟩ := lists_of_runBatch hcheck
    have hread := h.manifest_stays hlists hlists'
    exact ⟨hread, (hkept hread).1 hcheck⟩
  · rintro ⟨hread, hall⟩
    exact (hkept hread).2 hall

/-! ## Files apart -/

/-- The job does not write to a file that the other one reads. -/
def Job.Spares (t : FileTree) (job other : Job) : Prop :=
  t.fileAt? job.out ≠ t.fileAt? other.declarations ∧ t.fileAt? job.out ≠ t.fileAt? other.mappings

/-- The jobs write the same, if they write to the same file. -/
def Job.WriteAlike (t : FileTree) (job other : Job) : Prop :=
  t.fileAt? job.out = t.fileAt? other.out → { job with out := other.out } = other

/-- No job writes to the manifest or to an input of its own or of an earlier job, and jobs that
write to the same file differ in nothing but the path of it. -/
structure FilesApart (t : FileTree) (path : String) (jobs : List Job) : Prop where
  manifest : ∀ job ∈ jobs, t.fileAt? job.out ≠ t.fileAt? path
  own : ∀ job ∈ jobs, job.Spares t job
  earlier : jobs.Pairwise fun job later => later.Spares t job
  outputs : jobs.Pairwise fun job later => job.WriteAlike t later

theorem FilesApart.tail (h : FilesApart t path (job :: jobs)) : FilesApart t path jobs where
  manifest other hother := h.manifest other (List.mem_cons_of_mem _ hother)
  own other hother := h.own other (List.mem_cons_of_mem _ hother)
  earlier := h.earlier.tail
  outputs := h.outputs.tail

/-- What is read stays, if nothing is put into the file. -/
theorem Writing.InTurn.read_of_ne {bytes : ByteArray} (h : Writing.InTurn t ws t')
    (hread : t.read path = .ok bytes)
    (hne : ∀ job ∈ ws.map (·.job), t'.fileAt? job.out ≠ t'.fileAt? path) :
    t'.read path = .ok bytes :=
  h.read hread fun w hw hsame => absurd hsame (hne w.job (List.mem_map_of_mem hw))

theorem Writing.InTurn.inputs_stay (h : Writing.InTurn t ws t')
    (hapart : FilesApart t' path (ws.map (·.job))) :
    ∀ w ∈ ws, w.HeaderStays t' ∧ w.MappingsStay t' := by
  induction h with
  | nil t => simp
  | @cons t t' w ws hbefore hmade hreceives hturn ih =>
    have hturn' := Writing.InTurn.cons hbefore hmade hreceives hturn
    intro other hother
    rcases List.mem_cons.1 hother with rfl | hother
    · have hspares : ∀ job ∈ other.job :: ws.map (·.job), job.Spares t' other.job := by
        rw [List.forall_mem_cons]
        exact ⟨hapart.own _ List.mem_cons_self, (List.pairwise_cons.1 hapart.earlier).1⟩
      obtain ⟨header, bytes, -, -, hheader, hbytes, -⟩ := hmade
      rw [Writing.HeaderStays, Writing.MappingsStay, hbefore, hheader, hbytes]
      exact ⟨hturn'.read_of_ne hheader fun job hjob => (hspares job hjob).1,
        hturn'.read_of_ne hbytes fun job hjob => (hspares job hjob).2⟩
    · exact ih hapart.tail other hother

theorem Writing.InTurn.outputs_stay (h : Writing.InTurn t ws t')
    (hapart : FilesApart t' path (ws.map (·.job))) : ∀ w ∈ ws, w.OutputStays t' := by
  induction h with
  | nil t => simp
  | @cons t t' w ws hbefore hmade hreceives hturn ih =>
    have hturn' := Writing.InTurn.cons hbefore hmade hreceives hturn
    -- All jobs make at the end what they made in their turn, so jobs that are alike agree.
    have hmakes : ∀ w' ∈ w :: ws, w'.job.Makes t' w'.made := by
      intro w' hw'
      obtain ⟨hheader, hmappings⟩ := hturn'.inputs_stay hapart w' hw'
      exact hturn'.makes_last hw' hheader hmappings
    intro other hother
    rcases List.mem_cons.1 hother with rfl | hother
    · refine hturn.read hreceives.read fun later hlater hsame => ?_
      have halike := (List.pairwise_cons.1 hapart.outputs).1 later.job (List.mem_map_of_mem hlater)
      have hlast := hmakes later (List.mem_cons_of_mem _ hlater)
      rw [← halike hsame.symm] at hlast
      rw [(hmakes other List.mem_cons_self).unique hlast]
    · exact ih hapart.tail other hother

/-! ## The command -/

theorem onTree_batch (path : String) (check : Bool) :
    (Command.batch path check).onTree = (runBatch path check >>= fun _ => pure "") := rfl

/-- **A batch that was written, checked.**  The check changes nothing.  It can only succeed if the
manifest, and the mappings that each job read when it was written, are there still at the end: a
text that a job puts in their place is no document.  If the headers are there still, too, it
succeeds exactly when besides the text that each job wrote is there still.  All this is so when no
job writes to the manifest, or to an input of its own or of an earlier job, and jobs that write to
one file have the same inputs and the same prefix. -/
theorem batch_checks (path : String) (t t' : FileTree)
    (hok : (Command.batch path false).onTree.SucceedsOn t)
    (htree : (Command.batch path false).onTree.tree t = t') :
    (Command.batch path true).onTree.tree t' = t' ∧
    ∃ (manifest : Manifest) (ws : List Writing),
      t.Lists path manifest ∧ ws.map (·.job) = manifest.jobsAt path ∧ Writing.InTurn t ws t' ∧
      ((Command.batch path true).onTree.SucceedsOn t' →
        t'.read path = t.read path ∧ ∀ w ∈ ws, w.MappingsStay t') ∧
      ((∀ w ∈ ws, w.HeaderStays t') →
        ((Command.batch path true).onTree.SucceedsOn t' ↔
          t'.read path = t.read path ∧ ∀ w ∈ ws, w.MappingsStay t' ∧ w.OutputStays t')) ∧
      (FilesApart t' path (manifest.jobsAt path) →
        (Command.batch path true).onTree.SucceedsOn t') := by
  simp only [onTree_batch, tree_bind_pure, succeedsOn_bind_pure] at hok htree ⊢
  obtain ⟨manifest, hlists⟩ := lists_of_runBatch hok
  rw [runBatch_succeeds hlists] at hok
  rw [(runBatch_of_lists hlists).2] at htree
  obtain ⟨ws, hjobs, hturn⟩ := runJobs_write_succeeds hok
  rw [htree] at hturn
  have hbatch := hturn.runBatch_check_succeeds hlists hjobs
  have hcheck : (∀ w ∈ ws, w.HeaderStays t') →
      ((runBatch path true : TreeAction Unit).SucceedsOn t' ↔
        t'.read path = t.read path ∧ ∀ w ∈ ws, w.MappingsStay t' ∧ w.OutputStays t') := by
    intro hheaders
    rw [hbatch, hturn.check_succeeds hheaders]
  refine ⟨onlyReads_runBatch_check path t', manifest, ws, hlists, hjobs, hturn, ?_, hcheck, ?_⟩
  · intro hok'
    obtain ⟨hread, hall⟩ := hbatch.1 hok'
    refine ⟨hread, fun w hw => ?_⟩
    obtain ⟨made, hmade, -⟩ := run_check_succeeds.1 (hall w.job (List.mem_map_of_mem hw))
    exact hturn.mappings_stay_of_makes hw hmade
  · intro hapart
    rw [Manifest.jobsAt, ← hjobs] at hapart
    obtain ⟨bytes, hbytes, -⟩ := hlists
    have hread : t'.read path = t.read path := by
      rw [hbytes]
      exact hturn.read_of_ne hbytes hapart.manifest
    have hinputs := hturn.inputs_stay hapart
    have houtputs := hturn.outputs_stay hapart
    exact (hcheck fun w hw => (hinputs w hw).1).2
      ⟨hread, fun w hw => ⟨(hinputs w hw).2, houtputs w hw⟩⟩

/-! ## Batches of two jobs -/

theorem Job.inDirectory_empty (job : Job) : job.inDirectory "" = job := by
  rw [Job.inDirectory, Path.join_empty, Path.join_empty, Path.join_empty]

/-- Whatever is written to the path is put into the file at a place. -/
def PutsAt (out : String) (place : List String) (t : FileTree) : Prop :=
  ∀ text, (writeOutput out text : TreeAction Unit).result t = .ok () ∧
    (writeOutput out text : TreeAction Unit).tree t = t.put place text.toUTF8

theorem putsAt_of_locate {out directory : String} {place : List String} {found : FileTree.Place}
    (hparent : Path.parent? out = some directory)
    (hdirectory : t.createDirectories directory = (.ok (), t))
    (hfound : t.locate out = .ok found) (hplace : found.file? = some place) :
    PutsAt out place t := by
  intro text
  have hmake : (makeDirectory directory).result t = .ok () := by
    show ((t.createDirectories directory).1.mapError _).mapError _ = _
    rw [hdirectory]
    rfl
  have hput : (putOutput out text).result t = .ok () := by
    show ((t.write out text.toUTF8).1.mapError _).mapError _ = _
    rw [write_of_locate hfound hplace]
    rfl
  have htree : (putOutput out text).tree t = t.put place text.toUTF8 := by
    show (t.write out text.toUTF8).2 = _
    rw [write_of_locate hfound hplace]
  rw [writeOutput_of_some hparent, tree_bind_of_ok hmake, result_bind, hmake, tree_makeDirectory,
    hdirectory]
  exact ⟨hput, htree⟩

/-- A batch of two jobs is written, if both make something and both output files can be written. -/
theorem batch_of_two {first second : Job} {made made' : Generated} {place place' : List String}
    {directory : String} (hdirectory : (Path.parent? path).getD "" = directory)
    (hlists : t.Lists path ⟨manifestVersion, [first, second]⟩)
    (hmakes : (first.inDirectory directory).Makes t made)
    (hputs : PutsAt (first.inDirectory directory).out place t)
    (hmakes' : (second.inDirectory directory).Makes (t.put place made.text.toUTF8) made')
    (hputs' : PutsAt (second.inDirectory directory).out place' (t.put place made.text.toUTF8)) :
    (Command.batch path false).onTree.SucceedsOn t ∧
      (Command.batch path false).onTree.tree t =
        (t.put place made.text.toUTF8).put place' made'.text.toUTF8 := by
  have hfirst := run_write_eq hmakes
  rw [(hputs _).1, (hputs _).2] at hfirst
  have hsecond := run_write_eq hmakes'
  rw [(hputs' _).1, (hputs' _).2] at hsecond
  simp only [onTree_batch, tree_bind_pure, succeedsOn_bind_pure]
  rw [runBatch_succeeds hlists, (runBatch_of_lists hlists).2, hdirectory]
  unfold SucceedsOn
  rw [(runJobs_cons_of_ok hfirst.1).1, (runJobs_cons_of_ok hfirst.1).2, hfirst.2,
    (runJobs_cons_of_ok hsecond.1).1, (runJobs_cons_of_ok hsecond.1).2, hsecond.2]
  exact ⟨⟨(), rfl⟩, rfl⟩

/-! ## Two jobs with the same inputs -/

/-- The metadata of the one declaration of the header. -/
def pairMetadata : Metadata := ⟨"f() -> int", true, false⟩

/-- The header that both jobs read. -/
def pairHeader : String := "void f();" ++ " // " ++ pairMetadata.write

/-- The mapping document that both jobs read. -/
def pairMappings : Json :=
  .object [("schema_version", .string mappingsVersion),
    ("ops", .object [("f", .string signatureOnlyKeyword)])]

/-- The jobs: the second one has a prefix, and an output file of its own or not. -/
def pairJobs (out : String) : List Job :=
  [⟨"f.h", "f.json", "f.cpp", none⟩, ⟨"f.h", "f.json", out, some "ort_"⟩]

/-- The manifest of the jobs. -/
def pairManifest (out : String) : Json :=
  let inputs := [("decls", .string "f.h"), ("mappings", .string "f.json")]
  .object [("schema_version", .string manifestVersion), ("entries", .array
    [.object (inputs ++ [("out", .string "f.cpp")]),
      .object (inputs ++ [("out", .string out), ("prefix", .string "ort_")])])]

/-- The files before the batch is written, in the working directory. -/
def pairTree (out : String) : FileTree where
  directories := [["w"]]
  files := [(["w", "m.json"], (pairManifest out).write.toUTF8),
    (["w", "f.json"], pairMappings.write.toUTF8), (["w", "f.h"], pairHeader.toUTF8)]
  workingDirectory := ["w"]

theorem lists_pairManifest {out : String}
    (h : t.read path = .ok (pairManifest out).write.toUTF8) :
    t.Lists path ⟨manifestVersion, pairJobs out⟩ := by
  have hparse : Json.parse (pairManifest out).write = .ok (pairManifest out) := by
    refine Json.parse_write ?_ (by cbv)
    simp [pairManifest, Json.symbolsOf, Json.symbolsOfMembers, Json.symbolsOfItems]
  have hform : Manifest.ofJson (pairManifest out) = .ok ⟨manifestVersion, pairJobs out⟩ := by cbv
  refine ⟨_, h, ?_, by cbv⟩
  rw [Json.parseBytes_toUTF8, hparse]
  exact hform

/-- The declaration of the header. -/
def pairDeclaration : Host.Declaration := plainDeclaration.commented pairMetadata.write

theorem declarations_pairHeader : Host.declarations pairHeader = .ok [pairDeclaration] := by
  have hcommented :=
    Host.declarations_commented declarations_plain rfl pairMetadata.spelledBy_write.oneLine
  rw [pairHeader, pairDeclaration]
  exact hcommented

theorem ofComments_pairDeclaration :
    MetadataTable.ofComments [pairDeclaration] = .ok ⟨[(0, pairMetadata)]⟩ := by
  refine MetadataTable.ofComments_eq_ok.2 ⟨[some pairMetadata], .cons ?_ .nil, rfl⟩
  rw [pairDeclaration, Host.Declaration.comment?_commented]
  exact .some (Metadata.ofText_of_spelledBy pairMetadata.spelledBy_write)

/-- The generator of the mapping document, with a prefix. -/
def pairGenerator (functionNamePrefix? : Option String) : Generator :=
  ⟨NameTable.empty.insert "f" .signatureOnly, { Options.standard with functionNamePrefix? }⟩

theorem ofBytes_pairMappings : ∃ file, MappingFile.ofBytes pairMappings.write.toUTF8 = .ok file ∧
    Generator.ofFile file = .ok (pairGenerator none) := by
  have hparse : Json.parse pairMappings.write = .ok pairMappings := by
    refine Json.parse_write ?_ (by cbv)
    simp [pairMappings, Json.symbolsOf, Json.symbolsOfMembers]
  have hform : MappingFile.ofJson pairMappings = .ok ⟨mappingsVersion, none,
      NameTable.empty.insert "f" (.keyword signatureOnlyKeyword)⟩ := by cbv
  refine ⟨⟨mappingsVersion, none, NameTable.empty.insert "f" (.keyword signatureOnlyKeyword)⟩,
    ?_, by cbv⟩
  rw [MappingFile.ofBytes, Json.parseBytes_toUTF8, hparse]
  simp only [bind, Except.bind, hform]
  cbv

/-- The function that is written under a name. -/
def pairFunction (name : String) : KernelFunction :=
  ⟨⟨{ pairDeclaration with name }, pairMetadata, ⟨["f"], none, [], .value ⟨.int, none, []⟩⟩, []⟩,
    none⟩

/-- What a job makes. -/
def pairMade (functionNamePrefix? : Option String) : Generated :=
  ⟨(SourceFile.mk (pairGenerator functionNamePrefix?).options (Digest.sha256Hex pairHeader.toUTF8)
    [pairFunction (functionNamePrefix?.getD "" ++ "f")]).text, ["f"]⟩

theorem linksTo_pairDeclaration (functionNamePrefix? : Option String) :
    Generator.LinksTo (pairGenerator functionNamePrefix?).options (pairDeclaration, pairMetadata)
      (pairFunction (functionNamePrefix?.getD "" ++ "f")).linked := by
  have hname : Generator.renamed (pairGenerator functionNamePrefix?).options pairDeclaration =
      { pairDeclaration with name := functionNamePrefix?.getD "" ++ "f" } := by
    cases functionNamePrefix? <;> rfl
  rw [Generator.LinksTo, hname]
  cbv

theorem run_pairHeader (functionNamePrefix? : Option String) (origin : String) :
    ((pairGenerator functionNamePrefix?).run pairHeader origin).result =
      .ok (pairMade functionNamePrefix?) := by
  have hclaims : ∀ name, Generator.claims (pairGenerator functionNamePrefix?).mappings
      [(pairFunction name).linked] = [((pairFunction name).linked, .signatureOnly)] := by
    intro name
    cbv
  have hempty : ∀ name, ((pairGenerator functionNamePrefix?).mappings.eraseMany
      ([(pairFunction name).linked].map LinkedFunction.operator)).isEmpty = true := by
    intro name
    cbv
  have hlink : List.Forall₂ (Generator.LinksTo (pairGenerator functionNamePrefix?).options)
      (Generator.annotated ⟨[(0, pairMetadata)]⟩ 0 [pairDeclaration]) _ :=
    .cons (linksTo_pairDeclaration functionNamePrefix?) .nil
  have hwrite : List.Forall₂ Generator.WrittenAs
      (Generator.claims (pairGenerator functionNamePrefix?).mappings
        [(pairFunction (functionNamePrefix?.getD "" ++ "f")).linked])
      [pairFunction (functionNamePrefix?.getD "" ++ "f")] := by
    rw [hclaims]
    exact .cons rfl .nil
  rw [Generator.run, declarations_pairHeader]
  simp only [ofComments_pairDeclaration]
  rw [Generator.result_runOn hlink hwrite, if_pos (hempty _)]
  rfl

theorem pairMade_ne : (pairMade none).text ≠ (pairMade (some "ort_")).text := by
  intro h
  have hprelude : SourceFile.preludeText (pairGenerator none).options =
      SourceFile.preludeText (pairGenerator (some "ort_")).options := rfl
  simp only [pairMade, SourceFile.text_eq, hprelude, String.append_assoc,
    String.append_right_inj] at h
  exact absurd h (of_decide_eq_false (by cbv))

theorem makes_pair {functionNamePrefix? : Option String}
    (hheader : t.read job.declarations = .ok pairHeader.toUTF8)
    (hmappings : t.read job.mappings = .ok pairMappings.write.toUTF8)
    (hname : job.functionNamePrefix? = functionNamePrefix?) :
    job.Makes t (pairMade functionNamePrefix?) := by
  obtain ⟨file, hfile, hgenerator⟩ := ofBytes_pairMappings
  refine ⟨_, _, file, _, hheader, hmappings, hfile, hgenerator, ?_⟩
  have hgiven : (pairGenerator none).withPrefix functionNamePrefix? =
      pairGenerator functionNamePrefix? := by
    cases functionNamePrefix? <;> rfl
  rw [hname, hgiven]
  exact run_pairHeader functionNamePrefix? job.declarations

/-- The tree after the first job. -/
def pairBetween (out : String) : FileTree :=
  (pairTree out).put ["w", "f.cpp"] (pairMade none).text.toUTF8

/-- The tree after both jobs, the second of which wrote to a place. -/
def pairAfter (out : String) (place : List String) : FileTree :=
  (pairBetween out).put place (pairMade (some "ort_")).text.toUTF8

/-- The batch is written, and the second job puts its text into the file at a place. -/
theorem batch_pairTree {out : String} {place : List String}
    (hputs : PutsAt out place (pairBetween out)) :
    (Command.batch "m.json" false).onTree.SucceedsOn (pairTree out) ∧
      (Command.batch "m.json" false).onTree.tree (pairTree out) = pairAfter out place := by
  have hdirectory : (Path.parent? "m.json").getD "" = "" := rfl
  have hheader : (pairBetween out).read "f.h" = .ok pairHeader.toUTF8 := rfl
  have hmappings : (pairBetween out).read "f.json" = .ok pairMappings.write.toUTF8 := rfl
  refine batch_of_two hdirectory (lists_pairManifest rfl) ?_ ?_ ?_ ?_ <;>
    rw [Job.inDirectory_empty]
  · exact makes_pair rfl rfl rfl
  · exact putsAt_of_locate rfl rfl rfl rfl
  · exact makes_pair hheader hmappings rfl
  · exact hputs

/-- A check of the batch checks the first job. -/
theorem makes_of_check {out : String}
    (hread : t.read "m.json" = .ok (pairManifest out).write.toUTF8)
    (hcheck : (runBatch "m.json" true : TreeAction Unit).SucceedsOn t) :
    ∃ made, (Job.mk "f.h" "f.json" "f.cpp" none).Makes t made ∧
      t.read "f.cpp" = .ok made.text.toUTF8 := by
  rw [runBatch_succeeds (lists_pairManifest hread), runJobs_check_succeeds] at hcheck
  exact run_check_succeeds.1 (hcheck _ List.mem_cons_self)

/-- What the second job makes is no JSON. -/
theorem parseBytes_pairMade :
    Json.parseBytes (pairMade (some "ort_")).text.toUTF8 = .error .malformed :=
  have hmakes : (Job.mk "f.h" "f.json" "f.cpp" (some "ort_")).Makes (pairTree "f.cpp")
      (pairMade (some "ort_")) := makes_pair rfl rfl rfl
  hmakes.parseBytes

theorem not_check_of_output {out : String}
    (hread : t.read "m.json" = .ok (pairManifest out).write.toUTF8)
    (hheader : t.read "f.h" = .ok pairHeader.toUTF8)
    (hmappings : t.read "f.json" = .ok pairMappings.write.toUTF8)
    (hout : t.read "f.cpp" = .ok (pairMade (some "ort_")).text.toUTF8) :
    ¬ (runBatch "m.json" true : TreeAction Unit).SucceedsOn t := by
  intro hcheck
  obtain ⟨made, hmade, hchecked⟩ := makes_of_check hread hcheck
  rw [(makes_pair hheader hmappings rfl).unique hmade, hout] at hchecked
  exact pairMade_ne (String.toByteArray_inj.1 (Except.ok.inj hchecked).symm)

theorem not_check_of_mappings {out : String}
    (hread : t.read "m.json" = .ok (pairManifest out).write.toUTF8)
    (hmappings : t.read "f.json" = .ok (pairMade (some "ort_")).text.toUTF8) :
    ¬ (runBatch "m.json" true : TreeAction Unit).SucceedsOn t := by
  intro hcheck
  obtain ⟨made, ⟨-, bytes, file, -, -, hbytes, hfile, -⟩, -⟩ := makes_of_check hread hcheck
  rw [hmappings] at hbytes
  cases hbytes
  rw [MappingFile.ofBytes, parseBytes_pairMade] at hfile
  cases hfile

theorem not_check_of_manifest
    (hread : t.read "m.json" = .ok (pairMade (some "ort_")).text.toUTF8) :
    ¬ (runBatch "m.json" true : TreeAction Unit).SucceedsOn t := by
  intro hcheck
  obtain ⟨manifest, bytes, hbytes, hform, -⟩ := lists_of_runBatch hcheck
  rw [hread] at hbytes
  cases hbytes
  rw [parseBytes_pairMade] at hform
  cases hform

/-- The batch does not check, when it does not on what the second job leaves. -/
theorem not_check_pairTree {out : String} {place : List String}
    (hputs : PutsAt out place (pairBetween out))
    (hcheck : ¬ (runBatch "m.json" true : TreeAction Unit).SucceedsOn (pairAfter out place)) :
    (Command.batch "m.json" false).onTree.SucceedsOn (pairTree out) ∧
    ¬ (Command.batch "m.json" true).onTree.SucceedsOn
      ((Command.batch "m.json" false).onTree.tree (pairTree out)) := by
  obtain ⟨hok, hafter⟩ := batch_pairTree hputs
  refine ⟨hok, ?_⟩
  rw [hafter, onTree_batch, succeedsOn_bind_pure]
  exact hcheck

/-- **What is overwritten does not check.**  Two jobs that differ in their prefix are written, and
both succeed.  Whether the second one writes to the output file of the first, by the same path or
by an absolute one, to the mappings that both read or to the manifest, a check of the tree that
they leave fails. -/
theorem overwritten_fails_check :
    ((Command.batch "m.json" false).onTree.SucceedsOn (pairTree "f.cpp") ∧
      ¬ (Command.batch "m.json" true).onTree.SucceedsOn
        ((Command.batch "m.json" false).onTree.tree (pairTree "f.cpp"))) ∧
    ((Command.batch "m.json" false).onTree.SucceedsOn (pairTree "/w/f.cpp") ∧
      ¬ (Command.batch "m.json" true).onTree.SucceedsOn
        ((Command.batch "m.json" false).onTree.tree (pairTree "/w/f.cpp"))) ∧
    ((Command.batch "m.json" false).onTree.SucceedsOn (pairTree "f.json") ∧
      ¬ (Command.batch "m.json" true).onTree.SucceedsOn
        ((Command.batch "m.json" false).onTree.tree (pairTree "f.json"))) ∧
    ((Command.batch "m.json" false).onTree.SucceedsOn (pairTree "m.json") ∧
      ¬ (Command.batch "m.json" true).onTree.SucceedsOn
        ((Command.batch "m.json" false).onTree.tree (pairTree "m.json"))) := by
  have hout : PutsAt "f.cpp" ["w", "f.cpp"] (pairBetween "f.cpp") :=
    putsAt_of_locate rfl rfl rfl rfl
  have habsolute : PutsAt "/w/f.cpp" ["w", "f.cpp"] (pairBetween "/w/f.cpp") :=
    putsAt_of_locate rfl rfl rfl rfl
  have hmappings : PutsAt "f.json" ["w", "f.json"] (pairBetween "f.json") :=
    putsAt_of_locate rfl rfl rfl rfl
  have hmanifest : PutsAt "m.json" ["w", "m.json"] (pairBetween "m.json") :=
    putsAt_of_locate rfl rfl rfl rfl
  exact ⟨not_check_pairTree hout (not_check_of_output rfl rfl rfl rfl),
    not_check_pairTree habsolute (not_check_of_output rfl rfl rfl rfl),
    not_check_pairTree hmappings (not_check_of_mappings rfl rfl),
    not_check_pairTree hmanifest (not_check_of_manifest rfl)⟩

/-- The batch checks, when the second job has an output file of its own.  The manifest is given by
an absolute path, and so are the files of its jobs. -/
theorem batch_checks_apart :
    (Command.batch "/w/m.json" false).onTree.SucceedsOn (pairTree "g.cpp") ∧
    (Command.batch "/w/m.json" true).onTree.SucceedsOn
      ((Command.batch "/w/m.json" false).onTree.tree (pairTree "g.cpp")) := by
  obtain ⟨hok, hafter⟩ : (Command.batch "/w/m.json" false).onTree.SucceedsOn (pairTree "g.cpp") ∧
      (Command.batch "/w/m.json" false).onTree.tree (pairTree "g.cpp") =
        pairAfter "g.cpp" ["w", "g.cpp"] :=
    batch_of_two rfl (lists_pairManifest rfl) (makes_pair rfl rfl rfl)
      (putsAt_of_locate rfl rfl rfl rfl) (makes_pair rfl rfl rfl)
      (putsAt_of_locate rfl rfl rfl rfl)
  obtain ⟨-, manifest, ws, hlists, -, -, -, -, happly⟩ :=
    batch_checks "/w/m.json" (pairTree "g.cpp") (pairAfter "g.cpp" ["w", "g.cpp"]) hok hafter
  have hmanifest : manifest = ⟨manifestVersion, pairJobs "g.cpp"⟩ :=
    (lists_pairManifest (t := pairTree "g.cpp") rfl).unique hlists rfl
  have hjobs : manifest.jobsAt "/w/m.json" =
      [⟨"/w/f.h", "/w/f.json", "/w/f.cpp", none⟩,
        ⟨"/w/f.h", "/w/f.json", "/w/g.cpp", some "ort_"⟩] := by
    rw [hmanifest]
    rfl
  rw [hjobs] at happly
  rw [hafter]
  have hout : (pairAfter "g.cpp" ["w", "g.cpp"]).fileAt? "/w/f.cpp" = some ["w", "f.cpp"] := rfl
  have hout' : (pairAfter "g.cpp" ["w", "g.cpp"]).fileAt? "/w/g.cpp" = some ["w", "g.cpp"] := rfl
  have hheader : (pairAfter "g.cpp" ["w", "g.cpp"]).fileAt? "/w/f.h" = some ["w", "f.h"] := rfl
  have hmappings : (pairAfter "g.cpp" ["w", "g.cpp"]).fileAt? "/w/f.json" =
      some ["w", "f.json"] := rfl
  have hpath : (pairAfter "g.cpp" ["w", "g.cpp"]).fileAt? "/w/m.json" = some ["w", "m.json"] := rfl
  refine ⟨hok, happly ⟨?_, ?_, ?_, ?_⟩⟩
  · simp [hout, hout', hpath]
  · simp [Job.Spares, hout, hout', hheader, hmappings]
  · simp [Job.Spares, hout', hheader, hmappings]
  · simp [Job.WriteAlike, hout, hout']

end KernelGen
