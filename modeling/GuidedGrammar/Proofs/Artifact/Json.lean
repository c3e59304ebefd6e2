import GuidedGrammar.Proofs.Json.Decode

/-!
# Reading compiled grammars back

Every set of compiled grammars is read back from its text in either form
(`Artifact.parse?_written`), whatever its nodes and entries are, whether or not anything refers to
what it says, and whichever optional fields have a value. The temperatures have to be finite, since
others are written as null.

For each record the fields it is written from are listed with their values (`NodeKind.fields`,
`Props.fields`, `Grammar.fields`, `Artifact.fields`). The names in the list are those that the
reader asks for, and from the values it makes the record.
-/

namespace GuidedGrammar

open Json (ofBinary32 ofUInt32 ofList ofMembers present toUInt32? toBinary32? isStorable)

/-! ### Temperatures -/

/-- A number is read back from its numeral. The digits of a numeral are chosen so that rounding
them once gives the number; the reader rounds to 64 bits before it rounds to 32. -/
def Binary32.ReadsBack (x : Binary32) : Prop :=
  ∀ n ∈ x.toNumeral? .singleData, n.toBinary32? = some x

instance (x : Binary32) : Decidable x.ReadsBack :=
  inferInstanceAs (Decidable (∀ n ∈ x.toNumeral? .singleData, n.toBinary32? = some x))

/-- Finite numbers have a numeral. -/
theorem Binary.exists_toNumeral? {f : BinaryFormat} {x : Binary f} (style : NumeralStyle)
    (hfinite : x.isFinite = true) : ∃ n, x.toNumeral? style = some n := by
  rw [toNumeral?, if_pos hfinite]
  split <;> exact ⟨_, rfl⟩

theorem Binary32.ReadsBack.toBinary32? {x : Binary32} (h : x.ReadsBack)
    (hfinite : x.isFinite = true) : (ofBinary32 x).toBinary32? = some x := by
  obtain ⟨n, hn⟩ := Binary.exists_toNumeral? .singleData hfinite
  rw [ofBinary32, Json.ofBinary, hn]
  exact h n hn

theorem Json.isStorable_of_toBinary32? {v : Json} {x : Binary32} (h : v.toBinary32? = some x)
    (depth : Nat) : isStorable depth v = true := by
  cases v with
  | number n => exact isStorable_number depth (Numeral.isSome_toBinary64?_of_toBinary32? h)
  | null | bool _ | text _ | array _ | object _ => cases h

/-! ### Regexes -/

namespace Regex

theorem repetitionOfJson?_eq (part min : UInt32) (max : Option UInt32) :
    repetitionOfJson? (.array [ofUInt32 part, ofUInt32 min, max.elim .null ofUInt32]) =
      some (repetition part min max) := by
  have hmax : Json.optional toUInt32? (some (max.elim .null ofUInt32)) = some max :=
    Json.optional_elim_null (fun n _ => Json.toUInt32?_ofUInt32 n) rfl
  simp [repetitionOfJson?, hmax]

/-- An entry is read back. -/
theorem ofJson?_toJson (r : Regex UInt32) : ofJson? r.toJson = some r := by
  cases r with
  | repetition part min max => exact repetitionOfJson?_eq part min max
  | emptyText | nothing => rfl
  | intersection _ | union _ | concatenation _ | lookahead _ | complement _ | pattern _ | literal _
  | byteLiteral _ | byte _ | byteSet _ => simp [ofJson?, toJson]

theorem isStorable_toJson (r : Regex UInt32) (depth : Nat) :
    isStorable (depth + 2) r.toJson = true := by
  cases r with
  | repetition part min max =>
    refine Json.isStorable_ofVariant "Repeat" ?_
    -- an open end is written as null, a closed one as a word
    have hmax : isStorable depth (max.elim .null ofUInt32) = true := by
      cases max with
      | none => cases depth <;> rfl
      | some n => exact Json.isStorable_ofUInt32 depth n
    simp [isStorable, hmax]
  | emptyText | nothing => rfl
  | intersection ids | union ids | concatenation ids | byteSet ids =>
    exact Json.isStorable_ofVariant _ (Json.isStorable_ofUInt32s ids)
  | lookahead part | complement part =>
    exact Json.isStorable_ofVariant _ (Json.isStorable_ofUInt32 _ part)
  | pattern s | literal s => exact Json.isStorable_ofVariant _ (Json.isStorable_ofString _ s)
  | byteLiteral bytes => exact Json.isStorable_ofVariant _ (Json.isStorable_ofUInt8s bytes)
  | byte b => exact Json.isStorable_ofVariant _ (Json.isStorable_ofUInt8 _ b)

end Regex

namespace Artifact

theorem RegexRef.ofJson?_toJson (r : RegexRef UInt32) : ofJson? r.toJson = some r := by
  cases r with
  | entry i =>
    show (ofUInt32 i).toUInt32?.map entry = some (entry i)
    rw [Json.toUInt32?_ofUInt32, Option.map_some]
  | source s => rfl

theorem RegexRef.isStorable_toJson (r : RegexRef UInt32) (depth : Nat) :
    isStorable depth r.toJson = true := by
  cases r with
  | entry i => exact Json.isStorable_ofUInt32 depth i
  | source s => exact Json.isStorable_ofString depth s

/-! ### Nodes -/

/-- The temperature of a kind of node. -/
def NodeKind.temperature? {ι : Type} : NodeKind ι → Option Binary32
  | generation _ _ _ _ temperature => temperature
  | lexeme _ _ temperature => temperature
  | grammar _ temperature _ => temperature
  | literal _ | choice _ | sequence _ => none

/-- **The fields that a kind of node is written from.** -/
def NodeKind.fields : NodeKind UInt32 → List (String × Option Json)
  | literal text => [("literal", some (.ofString text))]
  | generation body stop stopCaptureName lazy temperature =>
    [("body_rx", some body.toJson), ("stop_rx", some stop.toJson),
      ("stop_capture_name", stopCaptureName.map .ofString), ("lazy", lazy.map .bool),
      ("temperature", temperature.map ofBinary32)]
  | lexeme regex contextual temperature =>
    [("rx", some regex.toJson), ("contextual", contextual.map .bool),
      ("temperature", temperature.map ofBinary32)]
  | grammar position temperature maxTokens =>
    [("grammar", some (ofUInt32 position)), ("temperature", temperature.map ofBinary32),
      ("max_tokens_grm", maxTokens.map ofUInt32)]
  | choice alternatives => [("among", some (ofList ofUInt32 alternatives))]
  | sequence elements => [("sequence", some (ofList ofUInt32 elements))]

/-- The fields that properties are written from. -/
def Props.fields (p : Props) : List (String × Option Json) :=
  [("max_tokens", p.maxTokens.map ofUInt32), ("name", p.name.map .ofString),
    ("capture_name", p.captureName.map .ofString)]

theorem NodeKind.members_eq (k : NodeKind UInt32) : k.members = present k.fields := by
  cases k <;> simp [members, fields]

theorem Props.members_eq (p : Props) : p.members = present p.fields := by
  simp [members, fields]

theorem NodeKind.fieldNames?_name (k : NodeKind UInt32) :
    fieldNames? k.name = some (k.fields.map Prod.fst) := by
  cases k <;> rfl

/-- No two fields of a node have one name. -/
theorem nodup_fieldNames (k : NodeKind UInt32) (p : Props) :
    ((k.fields ++ p.fields).map Prod.fst).Nodup := by
  cases k <;> simp [NodeKind.fields, Props.fields]

theorem NodeKind.ofFields?_fields {k : NodeKind UInt32}
    (h : ∀ x ∈ k.temperature?, (ofBinary32 x).toBinary32? = some x) :
    ofFields? k.name (k.fields.map Prod.snd) = some k := by
  have htemperature : Json.optional toBinary32? (k.temperature?.map ofBinary32) =
      some k.temperature? := Json.optional_map h rfl
  cases k <;> simp only [temperature?] at htemperature <;>
    simp [name, fields, ofFields?, Json.required, RegexRef.ofJson?_toJson, htemperature]

theorem Props.ofFields?_fields (p : Props) : ofFields? (p.fields.map Prod.snd) = some p := by
  simp [fields, ofFields?]

/-- The payload of a node can be set aside, two containers deep. -/
theorem isStorable_payload {k : NodeKind UInt32}
    (h : ∀ x ∈ k.temperature?, (ofBinary32 x).toBinary32? = some x) (p : Props) (depth : Nat) :
    isStorable (depth + 2) (ofMembers (present (k.fields ++ p.fields))) = true := by
  -- a temperature is the only part of a payload whose writing needs a hypothesis
  have htemperature : ∀ x ∈ k.temperature?, isStorable (depth + 1) (ofBinary32 x) = true :=
    fun x hx => Json.isStorable_of_toBinary32? (h x hx) _
  have hkind : Json.StorableFields (depth + 1) k.fields := by
    cases k with
    | literal text => simp [NodeKind.fields]
    | generation | lexeme | grammar =>
      simpa [NodeKind.fields, RegexRef.isStorable_toJson, NodeKind.temperature?] using htemperature
    | choice ids | sequence ids => simp [NodeKind.fields]
  have hprops : Json.StorableFields (depth + 1) p.fields := by
    simp [Props.fields]
  exact Json.isStorable_present (hkind.append hprops)

/-- A node is read back. -/
theorem Node.ofJson?_toJson {n : Node UInt32}
    (h : ∀ x ∈ n.kind.temperature?, (ofBinary32 x).toBinary32? = some x) :
    ofJson? n.toJson = some n := by
  have hmembers : ofMembers (n.kind.members ++ n.props.members) =
      ofMembers (present (n.kind.fields ++ n.props.fields)) := by
    rw [NodeKind.members_eq, Props.members_eq, Json.present_append]
  have hstorable : isStorable (nestingLimit - payloadDepth)
      (ofMembers (present (n.kind.fields ++ n.props.fields))) = true :=
    isStorable_payload h n.props 120
  -- both lists are read out of one object, so their names must not clash
  have hnodup := nodup_fieldNames n.kind n.props
  have hkind := Json.objectFields?_present hnodup fun f hf => List.mem_append_left _ hf
  have hprops : (ofMembers (present (n.kind.fields ++ n.props.fields))).objectFields? Props.names =
      some (n.props.fields.map Prod.snd) :=
    Json.objectFields?_present hnodup fun f hf => List.mem_append_right _ hf
  rw [toJson, hmembers, ofJson?, Json.variant?_ofVariant]
  simp [NodeKind.fieldNames?_name, hstorable, hkind, hprops, NodeKind.ofFields?_fields h,
    Props.ofFields?_fields]

theorem Node.isStorable_toJson {n : Node UInt32}
    (h : ∀ x ∈ n.kind.temperature?, (ofBinary32 x).toBinary32? = some x) (depth : Nat) :
    isStorable (depth + 3) n.toJson = true := by
  rw [toJson, NodeKind.members_eq, Props.members_eq, ← Json.present_append]
  exact Json.isStorable_ofVariant _ (isStorable_payload h n.props depth)

/-! ### Grammars -/

/-- The fields that a grammar is written from. -/
def Grammar.fields (g : Grammar UInt32) : List (String × Option Json) :=
  [("nodes", some (ofList Node.toJson g.nodes)), ("greedy_lexer", some (.bool g.greedyLexer)),
    ("greedy_skip_rx", g.skip.map RegexRef.toJson), ("contextual", g.contextual.map .bool),
    ("rx_nodes", some (ofList Regex.toJson g.regexes))]

/-- The fields that an artifact is written from. -/
def fields (t : Artifact UInt32) : List (String × Option Json) :=
  [("grammars", some (ofList Grammar.toJson t.grammars)), ("max_tokens", t.maxTokens.map ofUInt32),
    ("test_trace", if t.testTrace then some (.bool true) else none)]

theorem Grammar.toJson_eq (g : Grammar UInt32) : g.toJson = ofMembers (present g.fields) := by
  simp [toJson, fields]

theorem toJson_eq (t : Artifact UInt32) : t.toJson = ofMembers (present t.fields) := by
  cases h : t.testTrace <;> simp [toJson, fields, h, Json.optionalMember]

/-- The temperatures of a grammar. -/
def Grammar.temperatures {ι : Type} (g : Grammar ι) : List Binary32 :=
  g.nodes.filterMap fun n => n.kind.temperature?

/-- The temperatures of an artifact. -/
def temperatures {ι : Type} (t : Artifact ι) : List Binary32 :=
  t.grammars.flatMap Grammar.temperatures

section Temperatures

variable {ι : Type} {x : Binary32}

theorem Grammar.mem_temperatures {g : Grammar ι} {n : Node ι} (hn : n ∈ g.nodes)
    (hx : x ∈ n.kind.temperature?) : x ∈ g.temperatures :=
  List.mem_filterMap.2 ⟨n, hn, hx⟩

theorem mem_temperatures {t : Artifact ι} {g : Grammar ι} (hg : g ∈ t.grammars)
    (hx : x ∈ g.temperatures) : x ∈ t.temperatures :=
  List.mem_flatMap.2 ⟨g, hg, hx⟩

end Temperatures

/-- A grammar is read back. -/
theorem Grammar.ofJson?_toJson {g : Grammar UInt32}
    (h : ∀ x ∈ g.temperatures, (ofBinary32 x).toBinary32? = some x) :
    ofJson? g.toJson = some g := by
  have hnodup : (g.fields.map Prod.fst).Nodup := by
    show ["nodes", "greedy_lexer", "greedy_skip_rx", "contextual", "rx_nodes"].Nodup
    decide
  have hfields : g.toJson.recordFields?
      ["nodes", "greedy_lexer", "greedy_skip_rx", "contextual", "rx_nodes"] =
      some (g.fields.map Prod.snd) := by
    rw [toJson_eq]
    exact Json.recordFields?_present hnodup
  have hnodes : Json.toList? Node.ofJson? (ofList Node.toJson g.nodes) = some g.nodes :=
    Json.toList?_ofList fun n hn => Node.ofJson?_toJson fun x hx => h x (mem_temperatures hn hx)
  have hskip : Json.optional RegexRef.ofJson? (g.skip.map RegexRef.toJson) = some g.skip :=
    Json.optional_map (fun r _ => RegexRef.ofJson?_toJson r) rfl
  have hregexes : Json.toList? Regex.ofJson? (ofList Regex.toJson g.regexes) = some g.regexes :=
    Json.toList?_ofList fun r _ => r.ofJson?_toJson
  rw [ofJson?, hfields]
  simp [fields, Json.required, hnodes, hskip, hregexes]

theorem Grammar.isStorable_toJson {g : Grammar UInt32}
    (h : ∀ x ∈ g.temperatures, (ofBinary32 x).toBinary32? = some x) (depth : Nat) :
    isStorable (depth + 5) g.toJson = true := by
  have hnodes : isStorable (depth + 4) (ofList Node.toJson g.nodes) = true :=
    Json.isStorable_ofList fun n hn =>
      Node.isStorable_toJson (fun x hx => h x (mem_temperatures hn hx)) depth
  have hregexes : isStorable (depth + 4) (ofList Regex.toJson g.regexes) = true :=
    Json.isStorable_ofList fun r _ => r.isStorable_toJson (depth + 1)
  rw [toJson_eq]
  refine Json.isStorable_present ?_
  simp [fields, hnodes, hregexes, RegexRef.isStorable_toJson]

/-! ### Artifacts -/

/-- An artifact is read back from its written form. -/
theorem ofJson?_toJson {t : Artifact UInt32}
    (h : ∀ x ∈ t.temperatures, (ofBinary32 x).toBinary32? = some x) :
    ofJson? t.toJson = some t := by
  have hnodup : (t.fields.map Prod.fst).Nodup := by
    show ["grammars", "max_tokens", "test_trace"].Nodup
    decide
  have hfields : t.toJson.recordFields? ["grammars", "max_tokens", "test_trace"] =
      some (t.fields.map Prod.snd) := by
    rw [toJson_eq]
    exact Json.recordFields?_present hnodup
  have hgrammars : Json.toList? Grammar.ofJson? (ofList Grammar.toJson t.grammars) =
      some t.grammars :=
    Json.toList?_ofList fun g hg => Grammar.ofJson?_toJson fun x hx => h x (mem_temperatures hg hx)
  -- the mark is left out when it is not set, and read as not set when it is missing
  have htrace : Json.defaulted false Json.toBool?
      (if t.testTrace then some (.bool true) else none) = some t.testTrace := by
    cases t.testTrace <;> rfl
  rw [ofJson?, hfields]
  simp [fields, Json.required, hgrammars, htrace]

theorem isStorable_toJson {t : Artifact UInt32}
    (h : ∀ x ∈ t.temperatures, (ofBinary32 x).toBinary32? = some x) (depth : Nat) :
    isStorable (depth + 7) t.toJson = true := by
  have hgrammars : isStorable (depth + 6) (ofList Grammar.toJson t.grammars) = true :=
    Json.isStorable_ofList fun g hg =>
      Grammar.isStorable_toJson (fun x hx => h x (mem_temperatures hg hx)) depth
  rw [toJson_eq]
  refine Json.isStorable_present ?_
  cases htrace : t.testTrace <;> simp [fields, hgrammars, htrace]

/-- **Compiled grammars survive being written and read**, in either form. If the temperatures are
finite and read back from their numerals, both texts are read as what was written; so a text that is
read as it means the same as either of them. -/
theorem parse?_written {t : Artifact UInt32} (hfinite : ∀ x ∈ t.temperatures, x.isFinite = true)
    (hreads : ∀ x ∈ t.temperatures, x.ReadsBack) :
    parse? t.render = some t ∧ parse? t.renderIndented = some t ∧
      ∀ s, parse? s = some t → parse? t.render = parse? s ∧ parse? t.renderIndented = parse? s := by
  have htemperatures : ∀ x ∈ t.temperatures, (ofBinary32 x).toBinary32? = some x :=
    fun x hx => (hreads x hx).toBinary32? (hfinite x hx)
  have hprintable : t.toJson.Printable :=
    Json.printable_of_isStorable (isStorable_toJson htemperatures 0)
  have hcompact : parse? t.render = some t := by
    rw [parse?, render, hprintable.parse?_render, Option.bind_some, ofJson?_toJson htemperatures]
  have hindented : parse? t.renderIndented = some t := by
    rw [parse?, renderIndented, hprintable.parse?_renderIndented, Option.bind_some,
      ofJson?_toJson htemperatures]
  exact ⟨hcompact, hindented, fun s hs => ⟨hcompact.trans hs.symm, hindented.trans hs.symm⟩⟩

/-- A generation with the temperature `0.7` beside a grammar that is not there. -/
theorem parse?_written_seven_tenths :
    let generation : Node UInt32 :=
      ⟨.generation (.entry 0) (.source "\n") none (some true) (some ⟨0x3f333333#32⟩),
        { maxTokens := some 16 }⟩
    let t : Artifact UInt32 :=
      ⟨[⟨[⟨.sequence [1, 2], {}⟩, generation, ⟨.grammar 7 none (some 3), {}⟩], true,
        some (.source " "), none, [.repetition 1 0 none, .byteLiteral [0, 255]]⟩], none, true⟩
    t.temperatures = [⟨0x3f333333#32⟩] ∧ parse? t.render = some t ∧
      parse? t.renderIndented = some t := by
  intro generation t
  have hfinite : ∀ x ∈ t.temperatures, x.isFinite = true := by decide +kernel
  have hreads : ∀ x ∈ t.temperatures, x.ReadsBack := by decide +kernel
  obtain ⟨hcompact, hindented, -⟩ := parse?_written hfinite hreads
  exact ⟨rfl, hcompact, hindented⟩

end Artifact

end GuidedGrammar
