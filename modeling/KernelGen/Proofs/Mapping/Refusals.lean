import KernelGen.Proofs.Mapping.Written
set_option autoImplicit false

/-!
# Mapping: documents that are refused

A record of a mapping document has no other members than those of its form, and attributes have
different names.  It does not matter how deep inside a document that is not so: where a value may
take several forms, a record that is spoiled has none of them.
-/

namespace KernelGen

/-! ## Where documents are spoiled -/

/-- What a document holds at a place. -/
inductive Place where
  | file
  | options
  | op
  /-- an input, or the value of an attribute -/
  | value
  deriving DecidableEq, Repr

/-- At the place, or somewhere inside, there is a record with a member that its form does not have,
or there are attributes with a name twice. -/
inductive Spoiled : Place → Json → Prop where
  | file {ms : List (String × Json)} {name : String} {j : Json} : (name, j) ∈ ms →
      name ∉ fileMembers → Spoiled .file (.object ms)
  | options {ms : List (String × Json)} {name : String} {j : Json} : (name, j) ∈ ms →
      name ∉ optionMembers → Spoiled .options (.object ms)
  | op {ms : List (String × Json)} {op : Json} {name : String} {j : Json} : ("op", op) ∈ ms →
      (name, j) ∈ ms → name ∉ opMembers → Spoiled .op (.object ms)
  | literal {ms : List (String × Json)} {text : Json} {name : String} {j : Json} :
      ("literal", text) ∈ ms → (name, j) ∈ ms → name ≠ "literal" → Spoiled .value (.object ms)
  | repeated {ms as : List (String × Json)} : ("attributes", .object as) ∈ ms →
      ¬ (as.map Prod.fst).Nodup → Spoiled .op (.object ms)
  | input {ms : List (String × Json)} {items : List Json} {j : Json} :
      ("inputs", .array items) ∈ ms → j ∈ items → Spoiled .value j → Spoiled .op (.object ms)
  | attributeValue {ms as : List (String × Json)} {name : String} {j : Json} :
      ("attributes", .object as) ∈ ms → (name, j) ∈ as → Spoiled .value j →
        Spoiled .op (.object ms)
  | upstream {j : Json} : Spoiled .op j → Spoiled .value j
  | entry {ms es : List (String × Json)} {name : String} {j : Json} : ("ops", .object es) ∈ ms →
      (name, j) ∈ es → Spoiled .op j → Spoiled .file (.object ms)
  | fileOptions {ms : List (String × Json)} {j : Json} : ("options", j) ∈ ms →
      Spoiled .options j → Spoiled .file (.object ms)

/-- What is spoiled is an object. -/
theorem Spoiled.exists_object {place : Place} {j : Json} (h : Spoiled place j) :
    ∃ ms, j = .object ms := by
  induction h with
  | upstream _ ih => exact ih
  | _ => exact ⟨_, rfl⟩

theorem Spoiled.ne_null {place : Place} {j : Json} (h : Spoiled place j) : j ≠ .null := by
  obtain ⟨ms, rfl⟩ := h.exists_object
  exact Json.noConfusion

/-- An op that is spoiled is no literal. -/
theorem Spoiled.not_literal {j : Json} (h : Spoiled .op j) (text : String) :
    literalOfJson j ≠ .ok text := by
  cases h with
  | op hop _ _ => exact literalOfJson_ne_ok hop (by decide) text
  | repeated hattributes _ => exact literalOfJson_ne_ok hattributes (by decide) text
  | input hinputs _ _ => exact literalOfJson_ne_ok hinputs (by decide) text
  | attributeValue hattributes _ _ => exact literalOfJson_ne_ok hattributes (by decide) text

/-! ## What an object that is read has inside -/

theorem exists_of_mem_forall₂ {α β : Type} {r : α → β → Prop} {as : List α} {bs : List β}
    (h : List.Forall₂ r as bs) {a : α} (ha : a ∈ as) : ∃ b, r a b := by
  induction h with
  | nil => cases ha
  | cons hab _ ih =>
    rcases List.mem_cons.1 ha with rfl | ha
    · exact ⟨_, hab⟩
    · exact ih ha

section Objects

variable {ms : List (String × Json)}

/-- The members of an op that is read are those of the form, and what is inside is read too. -/
theorem opOfJson_object {depth : Nat} {e : OpExpr} (h : opOfJson depth (.object ms) = .ok e) :
    ∃ k, (∀ m ∈ ms, m.1 ∈ opMembers) ∧
      (∀ items, ("inputs", .array items) ∈ ms →
        ∀ j ∈ items, ∃ v, valueOfJson (opOfJson k) j = .ok v) ∧
      ∀ as, ("attributes", .object as) ∈ ms → (as.map Prod.fst).Nodup ∧
        ∀ m ∈ as, ∃ v?, Json.asOption (valueOfJson (opOfJson k)) m.2 = .ok v? := by
  cases depth with
  | zero => cases h
  | succ k =>
    obtain ⟨n⟩ := e
    obtain ⟨op, outputs, inputs, attributes, domain, hmembers, -, -, hinputs, hattributes, -⟩ :=
      opOfJson_eq_ok.1 h
    obtain ⟨hknown, hnodup, hslots⟩ := Json.members_object_eq_ok.1 hmembers
    obtain ⟨-, -, rfl, rfl, -⟩ : op = ms.lookup "op" ∧ outputs = ms.lookup "outputs" ∧
        inputs = ms.lookup "inputs" ∧ attributes = ms.lookup "attributes" ∧
        domain = ms.lookup "domain" := by
      simpa [opMembers] using hslots
    refine ⟨k, hknown, fun items hitems j hj => ?_, fun as has => ?_⟩
    · rw [(Json.lookup_eq_some_iff hnodup).2 hitems] at hinputs
      exact exists_of_mem_forall₂ (asList_array_eq_ok.1 hinputs) hj
    · rw [(Json.lookup_eq_some_iff hnodup).2 has] at hattributes
      obtain ⟨hnames, hvalues⟩ := attributesOfJson_eq_ok.1 hattributes
      refine ⟨hnames, fun m hm => ?_⟩
      obtain ⟨a, -, ha⟩ := exists_of_mem_forall₂ hvalues hm
      exact ⟨a.2, ha⟩

/-- The members of a document that is read are those of the form, and what is inside is read too. -/
theorem MappingFile.ofJson_object {f : MappingFile} (h : MappingFile.ofJson (.object ms) = .ok f) :
    (∀ m ∈ ms, m.1 ∈ fileMembers) ∧
      (∀ j, ("options", j) ∈ ms → Json.asOption Options.ofJson j = .ok f.options?) ∧
      ∀ es, ("ops", .object es) ∈ ms → ∀ m ∈ es, ∃ entry, OpEntry.ofJson m.2 = .ok entry := by
  obtain ⟨version, options, operators, hmembers, -, hoptions, hoperators⟩ :=
    MappingFile.ofJson_eq_ok.1 h
  obtain ⟨hknown, hnodup, hslots⟩ := Json.members_object_eq_ok.1 hmembers
  obtain ⟨-, rfl, rfl⟩ : version = ms.lookup "schema_version" ∧ options = ms.lookup "options" ∧
      operators = ms.lookup "ops" := by
    simpa [fileMembers] using hslots
  refine ⟨hknown, fun j hj => ?_, fun es hes m hm => ?_⟩
  · rw [(Json.lookup_eq_some_iff hnodup).2 hj] at hoptions
    exact hoptions
  · rw [(Json.lookup_eq_some_iff hnodup).2 hes] at hoperators
    obtain ⟨entries, hentries, -⟩ := operatorsOfJson_eq_ok.1 hoperators
    obtain ⟨e, -, he⟩ := exists_of_mem_forall₂ hentries hm
    exact ⟨e.2, he⟩

end Objects

/-! ## Nothing that is spoiled is read -/

theorem map_eq_ok {ε α β : Type} {x : Except ε α} {f : α → β} {b : β} :
    x.map f = .ok b ↔ ∃ a, x = .ok a ∧ f a = b := by
  cases x <;> simp [Except.map]

theorem exists_of_asOption {α : Type} {read : Json → Except Json.Fault α} {j : Json}
    {a? : Option α} (hj : j ≠ .null) (h : Json.asOption read j = .ok a?) : ∃ a, read j = .ok a := by
  rw [Json.asOption_of_ne_null hj] at h
  obtain ⟨a, ha, -⟩ := map_eq_ok.1 h
  exact ⟨a, ha⟩

theorem exists_op_of_value {op : Json → Except Json.Fault OpExpr} {ms : List (String × Json)}
    {v : Value OpExpr} (hliteral : ∀ text, literalOfJson (.object ms) ≠ .ok text)
    (h : valueOfJson op (.object ms) = .ok v) : ∃ e, op (.object ms) = .ok e := by
  rw [valueOfJson_object hliteral] at h
  obtain ⟨e, he, -⟩ := map_eq_ok.1 h
  exact ⟨e, he⟩

/-- What is asked for at the place cannot be read. -/
def Refused : Place → Json → Prop
  | .file, j => ∀ f, MappingFile.ofJson j ≠ .ok f
  | .options, j => ∀ o, Options.ofJson j ≠ .ok o
  | .op, j => ∀ depth e, opOfJson depth j ≠ .ok e
  | .value, j => ∀ depth v, valueOfJson (opOfJson depth) j ≠ .ok v

theorem Spoiled.refused {place : Place} {j : Json} (h : Spoiled place j) : Refused place j := by
  induction h with
  | file hj hname =>
    intro f hread
    exact hname ((MappingFile.ofJson_object hread).1 _ hj)
  | options hj hname =>
    intro o hread
    obtain ⟨_, _, _, _, _, _, _, hmembers, -⟩ := Options.ofJson_eq_ok.1 hread
    exact hname ((Json.members_object_eq_ok.1 hmembers).1 _ hj)
  | op hop hj hname =>
    intro depth e hread
    obtain ⟨k, hknown, -⟩ := opOfJson_object hread
    exact hname (hknown _ hj)
  | literal htext hj hname =>
    intro depth v hread
    obtain ⟨e, hop⟩ := exists_op_of_value (literalOfJson_ne_ok hj hname) hread
    obtain ⟨k, hknown, -⟩ := opOfJson_object hop
    have hno : "literal" ∉ opMembers := by decide
    exact hno (hknown _ htext)
  | repeated has htwice =>
    intro depth e hread
    obtain ⟨k, -, -, hattributes⟩ := opOfJson_object hread
    exact htwice (hattributes _ has).1
  | input hitems hj _ ih =>
    intro depth e hread
    obtain ⟨k, -, hinputs, -⟩ := opOfJson_object hread
    obtain ⟨v, hv⟩ := hinputs _ hitems _ hj
    exact ih k v hv
  | attributeValue has hj hvalue ih =>
    intro depth e hread
    obtain ⟨k, -, -, hattributes⟩ := opOfJson_object hread
    obtain ⟨v?, hv⟩ := (hattributes _ has).2 _ hj
    obtain ⟨v, hv⟩ := exists_of_asOption hvalue.ne_null hv
    exact ih k v hv
  | upstream hop ih =>
    intro depth v hread
    obtain ⟨ms, rfl⟩ := hop.exists_object
    obtain ⟨e, he⟩ := exists_op_of_value hop.not_literal hread
    exact ih depth e he
  | entry hes hj hop ih =>
    intro f hread
    obtain ⟨-, -, hentries⟩ := MappingFile.ofJson_object hread
    obtain ⟨entry, hentry⟩ := hentries _ hes _ hj
    obtain ⟨ms, rfl⟩ := hop.exists_object
    obtain ⟨e, he, -⟩ := map_eq_ok.1 hentry
    exact ih _ e he
  | fileOptions hj hoptions ih =>
    intro f hread
    obtain ⟨-, hread', -⟩ := MappingFile.ofJson_object hread
    obtain ⟨o, ho⟩ := exists_of_asOption hoptions.ne_null (hread' _ hj)
    exact ih o ho

/-! ## Documents as bytes -/

/-- What a text that spells a value is read as: what the value is the form of, if it does not nest
too deeply. -/
theorem MappingFile.ofBytes_spells {j : Json} {text : String} (h : Json.Spells j text) :
    MappingFile.ofBytes text.toUTF8 =
      if j.depth ≤ Json.nestingLimit then
        match MappingFile.ofJson j with
        | .error fault => .error (.mappingForm fault)
        | .ok f =>
          if Text.trim f.version = mappingsVersion then .ok f
          else .error (.mappingVersion mappingsVersion f.version)
      else .error (.mappingForm .nestedTooDeeply) := by
  rw [MappingFile.ofBytes, Json.parseBytes_toUTF8, Json.parse_spells h]
  by_cases hdepth : j.depth ≤ Json.nestingLimit
  · rw [if_pos hdepth, if_pos hdepth]
    rfl
  · rw [if_neg hdepth, if_neg hdepth]
    rfl

/-- **Mapping documents.**  Whatever text spells a document that was written for `f`, it is read as
`f`, unless it nests too deeply or states another version.  A text that spells a document which is
spoiled at any place is refused for its form. -/
theorem MappingFile.ofBytes_written (j : Json) (text : String) (h : Json.Spells j text) :
    (∀ f : MappingFile, f.Written j →
      MappingFile.ofBytes text.toUTF8 =
        if j.depth ≤ Json.nestingLimit then
          if Text.trim f.version = mappingsVersion then .ok f
          else .error (.mappingVersion mappingsVersion f.version)
        else .error (.mappingForm .nestedTooDeeply)) ∧
    (Spoiled .file j → ∃ c, MappingFile.ofBytes text.toUTF8 = .error c ∧
      c.code = .invalidMappingFile ∧ ∃ fault, c = .mappingForm fault) := by
  rw [MappingFile.ofBytes_spells h]
  refine ⟨fun f hwritten => ?_, fun hspoiled => ?_⟩
  · split
    · rename_i hdepth
      rw [MappingFile.ofJson_of_written hwritten hdepth]
    · rfl
  · split
    · cases hread : MappingFile.ofJson j with
      | error fault => exact ⟨_, rfl, rfl, fault, rfl⟩
      | ok f => exact absurd hread (hspoiled.refused f)
    · exact ⟨_, rfl, rfl, _, rfl⟩

/-! ## A document and a spoiled one -/

/-- An op on the output of another one, with an attribute that has no value. -/
def gatedAdd : OpExpr :=
  .op ⟨"Add", 1, [.param "self", .output (.op ⟨"Neg", 1, [.param "other"], [], none⟩)],
    [("alpha", some (.literal "1")), ("beta", none)], none⟩

/-- A document with an expression and a prototype. -/
def addFile : MappingFile where
  version := mappingsVersion
  options? := none
  operators := ⟨[("add", .expression gatedAdd), ("relu", .keyword signatureOnlyKeyword)],
    List.pairwise_pair.2 (by decide)⟩

/-- The document with the members of its records in reverse order, and defaults left out. -/
def addJson : Json :=
  .object [("ops", .object
      [("relu", .string signatureOnlyKeyword),
       ("add", .object
         [("attributes", .object
            [("alpha", .object [("literal", .string "1")]), ("beta", .null)]),
          ("inputs", .array [.string "self",
            .object [("inputs", .array [.string "other"]), ("op", .string "Neg")]]),
          ("op", .string "Add")])]),
    ("schema_version", .string mappingsVersion)]

/-- A document in which the op of an input has an attribute twice. -/
def spoiledJson : Json :=
  .object [("schema_version", .string mappingsVersion),
    ("ops", .object [("add", .object
      [("op", .string "Add"), ("inputs", .array
        [.object [("op", .string "Neg"),
          ("attributes", .object [("alpha", .null), ("alpha", .null)])]])])])]

theorem written_addJson : addFile.Written addJson := by
  have hneg : (OpExpr.op ⟨"Neg", 1, [.param "other"], [], none⟩).Written
      (.object [("inputs", .array [.string "other"]), ("op", .string "Neg")]) :=
    ⟨none, some _, none, none, ⟨_, rfl, .swap _ _ _⟩, rfl, ⟨_, rfl, _, _, rfl, rfl, rfl⟩, rfl, rfl⟩
  have hadd : gatedAdd.Written
      (.object [("attributes", .object
          [("alpha", .object [("literal", .string "1")]), ("beta", .null)]),
        ("inputs", .array [.string "self",
          .object [("inputs", .array [.string "other"]), ("op", .string "Neg")]]),
        ("op", .string "Add")]) :=
    ⟨none, some _, some _, none, ⟨_, rfl, (List.reverse_perm _).symm⟩, rfl,
      ⟨_, rfl, _, _, rfl, rfl, _, _, rfl, hneg, rfl⟩,
      ⟨_, rfl, by decide, _, _, rfl, ⟨_, rfl, .refl _⟩, _, rfl, rfl⟩, rfl⟩
  exact ⟨none, _, _, ⟨_, rfl, .swap _ _ _⟩, rfl, .swap _ _ _,
    .cons ⟨rfl, rfl⟩ (.cons ⟨rfl, hadd⟩ .nil)⟩

theorem spoiled_spoiledJson : Spoiled .file spoiledJson := by
  have hneg : Spoiled .op (.object [("op", .string "Neg"),
      ("attributes", .object [("alpha", .null), ("alpha", .null)])]) :=
    .repeated (List.mem_cons_of_mem _ List.mem_cons_self) (by decide)
  have hadd : Spoiled .op (.object [("op", .string "Add"), ("inputs", .array
      [.object [("op", .string "Neg"),
        ("attributes", .object [("alpha", .null), ("alpha", .null)])]])]) :=
    .input (List.mem_cons_of_mem _ List.mem_cons_self) List.mem_cons_self (.upstream hneg)
  exact .entry (List.mem_cons_of_mem _ List.mem_cons_self) List.mem_cons_self hadd

theorem MappingFile.ofBytes_written_add :
    Json.Spells addJson addJson.write ∧ addFile.Written addJson ∧
    MappingFile.ofBytes addJson.write.toUTF8 = .ok addFile ∧
    Json.Spells spoiledJson spoiledJson.write ∧ Spoiled .file spoiledJson ∧
    ∃ c, MappingFile.ofBytes spoiledJson.write.toUTF8 = .error c ∧
      c.code = .invalidMappingFile ∧ ∃ fault, c = .mappingForm fault := by
  have hspells : Json.Spells addJson addJson.write := by
    refine Json.spells_write ?_
    simp [addJson, Json.symbolsOf, Json.symbolsOfMembers, Json.symbolsOfItems]
  have hspells' : Json.Spells spoiledJson spoiledJson.write := by
    refine Json.spells_write ?_
    simp [spoiledJson, Json.symbolsOf, Json.symbolsOfMembers, Json.symbolsOfItems]
  have hdepth : addJson.depth ≤ Json.nestingLimit := by cbv
  have hversion : Text.trim addFile.version = mappingsVersion := by cbv
  have hread := (MappingFile.ofBytes_written addJson _ hspells).1 addFile written_addJson
  rw [if_pos hdepth, if_pos hversion] at hread
  exact ⟨hspells, written_addJson, hread, hspells', spoiled_spoiledJson,
    (MappingFile.ofBytes_written spoiledJson _ hspells').2 spoiled_spoiledJson⟩

end KernelGen
