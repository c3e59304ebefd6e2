import GuidedGrammar.Proofs.Artifact.Json
import GuidedGrammar.Proofs.Engine.Collecting

/-!
# Reading events back

Every event is read back from its text, and from what is left of its text when members with default
values are left out (`Event.parse?_abridged`). Which members have a default is for the kind of the
event to say, and a member may be left out where it shows exactly that value; in the counters of the
engine, counters may be left out in turn (`Event.Abridges`). The log probability has to be finite,
since others are written as null.

A reader looks up the fields that it asks for. What it finds in an abridged object is the written
value or nothing (`Json.LeavesOut.value?`), and where it finds nothing, the default that it takes is
the value that was left out (`Json.LeavesOut.defaulted`).
-/

namespace GuidedGrammar

open Json (ofBinary64 ofUInt32 ofUInt64 ofMembers toUInt32? toUInt64? toBinary64? isStorable member?
  required defaulted)

/-! ### Numbers -/

/-- A number is read back from its numeral. Digits beyond a word are dropped in reading, and the
product with the power of ten is rounded, so this is not so for all numbers. -/
def Binary64.ReadsBack (x : Binary64) : Prop :=
  ∀ n ∈ x.toNumeral? .doubleData, n.toBinary64? = some x

instance (x : Binary64) : Decidable x.ReadsBack :=
  inferInstanceAs (Decidable (∀ n ∈ x.toNumeral? .doubleData, n.toBinary64? = some x))

theorem Binary64.ReadsBack.toBinary64? {x : Binary64} (h : x.ReadsBack)
    (hfinite : x.isFinite = true) : (ofBinary64 x).toBinary64? = some x := by
  obtain ⟨n, hn⟩ := Binary.exists_toNumeral? .doubleData hfinite
  rw [ofBinary64, Json.ofBinary, hn]
  exact h n hn

namespace Json

theorem toBinary64?_zero : (ofBinary64 .zero).toBinary64? = some .zero := by
  decide +kernel

@[simp]
theorem toUInt64?_ofUInt64 (n : UInt64) : (ofUInt64 n).toUInt64? = some n := by
  rw [ofUInt64, toUInt64?, toNatBelow?_ofNat n.toNat_lt, Option.map_some]
  simp

@[simp]
theorem isStorable_ofUInt64 (depth : Nat) (n : UInt64) : isStorable depth (ofUInt64 n) = true :=
  isStorable_ofNat depth n.toNat_lt

theorem isStorable_of_toBinary64? {v : Json} {x : Binary64} (h : v.toBinary64? = some x)
    (depth : Nat) : isStorable depth v = true := by
  cases v with
  | number n => exact isStorable_number depth (Option.isSome_of_mem h)
  | null | bool _ | text _ | array _ | object _ => cases h

/-! ### Members -/

section Members

variable {members : Named Json} {name : String}

theorem present_map_some (members : Named Json) :
    present (members.map fun m => (m.1, some m.2)) = members := by
  induction members with
  | nil => rfl
  | cons m members ih => rw [List.map_cons, present_cons_some, ih]

/-- A member is looked up by its name, if no name is repeated. -/
theorem member?_eq_value? (h : (members.map Prod.fst).Nodup) (name : String) :
    member? (members.map fun m => (some m.1, m.2)) name = some (members.value? name) := by
  have hnames : (members.map fun m => (m.1, some m.2)).map Prod.fst = members.map Prod.fst :=
    List.map_map
  -- no name occurs twice, so the last member of a name is also its first
  cases hvalue : members.value? name with
  | some v =>
    obtain ⟨before, after, hsplit, -⟩ := List.lookup_eq_some_iff.1 hvalue
    have hmem : (name, some v) ∈ members.map fun m => (m.1, some m.2) :=
      List.mem_map.2 ⟨(name, v), hsplit ▸ List.mem_append_right _ (List.mem_cons_self ..), rfl⟩
    have hfound := member?_present (hnames ▸ h) hmem
    rwa [present_map_some] at hfound
  | none =>
    have hnot : name ∉ (members.map fun m => (m.1, some m.2)).map Prod.fst := by
      rw [hnames]
      intro hmem
      obtain ⟨m, hm, rfl⟩ := List.mem_map.1 hmem
      rw [Named.value?_of_mem h hm] at hvalue
      cases hvalue
    have hmissing := member?_present_of_not_mem hnot
    rwa [present_map_some] at hmissing

/-- The fields of a record that is written as an object whose names are not repeated. -/
theorem recordFields?_eq_values (h : (members.map Prod.fst).Nodup) (names : List String) :
    (ofMembers members).recordFields? names = some (names.map members.value?) := by
  have hnamed : (ofMembers members).hasNamedMembers = true := by
    simp [ofMembers_eq, hasNamedMembers]
  have hmembers : (names.map id).mapM (member? (members.map fun m => (some m.1, m.2))) =
      some (names.map members.value?) :=
    mapM_map_eq_some fun name _ => member?_eq_value? h name
  rw [List.map_id] at hmembers
  rw [ofMembers_eq] at hnamed ⊢
  simp only [recordFields?, objectFields?, hnamed, if_true, hmembers]

/-- Members whose values can be set aside make an object that can be set aside. -/
theorem isStorable_ofMembers {depth : Nat} (h : ∀ m ∈ members, isStorable depth m.2 = true) :
    isStorable (depth + 1) (ofMembers members) = true := by
  simpa [ofMembers_eq, isStorable] using h

/-- The members with values that depend on their names. -/
theorem value?_map (change : String → Json → Json) (members : Named Json) (name : String) :
    Named.value? (members.map fun m => (m.1, change m.1 m.2)) name =
      (members.value? name).map (change name) := by
  unfold Named.value?
  induction members with
  | nil => rfl
  | cons m members ih =>
    rw [List.map_cons, List.lookup_cons, List.lookup_cons, ih]
    by_cases h : name = m.1
    · rw [h, beq_self_eq_true]
      rfl
    · rw [beq_eq_false_iff_ne.2 h]

end Members

/-- What is left of members when some that are among the default ones are left out. -/
structure LeavesOut (defaults members rest : Named Json) : Prop where
  sublist : rest.Sublist members
  default : ∀ m ∈ members, m ∈ rest ∨ m ∈ defaults

namespace LeavesOut

variable {defaults members rest : Named Json} {name : String} {v : Json}

/-- Nothing needs to be left out. -/
theorem refl (defaults members : Named Json) : LeavesOut defaults members members :=
  ⟨.refl members, fun _ hm => Or.inl hm⟩

theorem nodup (h : LeavesOut defaults members rest) (hnodup : (members.map Prod.fst).Nodup) :
    (rest.map Prod.fst).Nodup :=
  hnodup.sublist (h.sublist.map Prod.fst)

/-- **What is found of a member**: its value, or nothing if the value is the default one. -/
theorem value? (h : LeavesOut defaults members rest) (hnodup : (members.map Prod.fst).Nodup)
    (hv : (name, v) ∈ members) :
    rest.value? name = some v ∨ rest.value? name = none ∧ (name, v) ∈ defaults := by
  rcases h.default _ hv with hrest | hdefault
  · exact Or.inl (Named.value?_of_mem (h.nodup hnodup) hrest)
  · cases hfound : rest.value? name with
    | none => exact Or.inr ⟨rfl, hdefault⟩
    | some w =>
      -- the members have one value of this name
      obtain ⟨before, after, hsplit, -⟩ := List.lookup_eq_some_iff.1 hfound
      have hw : (name, w) ∈ members :=
        h.sublist.subset (hsplit ▸ List.mem_append_right _ (List.mem_cons_self ..))
      have hsame := Named.value?_of_mem hnodup hw
      rw [Named.value?_of_mem hnodup hv] at hsame
      exact Or.inl hsame.symm

/-- A member without a default is found. -/
theorem value?_of_not_mem (h : LeavesOut defaults members rest)
    (hnodup : (members.map Prod.fst).Nodup) (hv : (name, v) ∈ members)
    (hname : name ∉ defaults.map Prod.fst) : rest.value? name = some v :=
  (h.value? hnodup hv).resolve_right fun hdefault => hname (List.mem_map_of_mem hdefault.2)

/-- **A field with a default is read back**, whether or not it is left out. -/
theorem defaulted (h : LeavesOut defaults members rest) (hnodup : (members.map Prod.fst).Nodup)
    {α : Type} {read : Json → Option α} {x default : α} (hv : (name, v) ∈ members)
    (hread : read v = some x) (hdefault : ∀ w, (name, w) ∈ defaults → read w = some default) :
    Json.defaulted default read (rest.value? name) = some x := by
  rcases h.value? hnodup hv with hfound | ⟨hfound, hmem⟩
  · rw [hfound]
    exact hread
  · -- the value that is left out is read as the default
    have hsame := hdefault v hmem
    rw [hread] at hsame
    rw [hfound, Option.some.inj hsame]
    rfl

end LeavesOut

end Json

open Json (LeavesOut)

/-! ### Counters -/

namespace Stats

/-- The members of the counters. -/
def members (s : Stats) : Named Json :=
  [("runtime_us", ofUInt64 s.runtimeMicroseconds), ("rows", ofUInt64 s.rows),
    ("definitive_bytes", ofUInt64 s.definitiveBytes), ("lexer_ops", ofUInt64 s.lexerOps),
    ("all_items", ofUInt64 s.allItems), ("hidden_bytes", ofUInt64 s.hiddenBytes)]

/-- The members of counters that have not counted anything. -/
def defaults : Named Json :=
  ({} : Stats).members

theorem toJson_eq (s : Stats) : s.toJson = ofMembers s.members :=
  rfl

theorem nodup_names (s : Stats) : (s.members.map Prod.fst).Nodup := by
  show ["runtime_us", "rows", "definitive_bytes", "lexer_ops", "all_items", "hidden_bytes"].Nodup
  decide

/-- Counters are read back, whichever of those that are zero are left out. -/
theorem ofJson?_of_leavesOut {s : Stats} {rest : Named Json}
    (h : LeavesOut defaults s.members rest) : ofJson? (ofMembers rest) = some s := by
  have hnodup := s.nodup_names
  -- a counter is there as it was written, or it was zero
  have hcounter : ∀ name n, (name, ofUInt64 n) ∈ s.members →
      defaulted 0 toUInt64? (rest.value? name) = some n := by
    intro name n hmem
    refine h.defaulted hnodup hmem (Json.toUInt64?_ofUInt64 n) fun w hw => ?_
    have hzero : w = ofUInt64 0 := by
      simp only [defaults, members, List.mem_cons, Prod.mk.injEq, List.not_mem_nil, or_false] at hw
      rcases hw with ⟨-, hw⟩ | ⟨-, hw⟩ | ⟨-, hw⟩ | ⟨-, hw⟩ | ⟨-, hw⟩ | ⟨-, hw⟩ <;> exact hw
    rw [hzero, Json.toUInt64?_ofUInt64]
  rw [ofJson?, Json.recordFields?_eq_values (h.nodup hnodup)]
  simp [hcounter "runtime_us" s.runtimeMicroseconds (by simp [members]),
    hcounter "rows" s.rows (by simp [members]),
    hcounter "definitive_bytes" s.definitiveBytes (by simp [members]),
    hcounter "lexer_ops" s.lexerOps (by simp [members]),
    hcounter "all_items" s.allItems (by simp [members]),
    hcounter "hidden_bytes" s.hiddenBytes (by simp [members])]

theorem ofJson?_toJson (s : Stats) : ofJson? s.toJson = some s :=
  ofJson?_of_leavesOut (.refl _ _)

theorem isStorable_members (s : Stats) (depth : Nat) :
    ∀ m ∈ s.members, isStorable depth m.2 = true := by
  simp [members]

end Stats

/-! ### Events -/

namespace Event

/-- The log probability of an event that has one. -/
def logProb? : Event → Option Binary64
  | capture e => some e.logProb
  | finalText _ => none
  | text e => some e.logProb

/-- All members of an event. -/
def written (e : Event) : Named Json :=
  (kindMember, .ofString e.kindName) :: e.members

/-- The members that an event may lack, with the values they then have. -/
def defaults : Event → Named Json
  | capture _ => []
  | finalText _ => [("hex", .ofString ""), ("str", .ofString "")]
  | text _ =>
    [("log_prob", ofBinary64 .zero), ("num_tokens", ofUInt32 0), ("is_generated", .bool false),
      ("stats", ({} : Stats).toJson)]

/-- The counters of an event. -/
def counters : Event → Named Json
  | capture _ | finalText _ => []
  | text e => e.stats.members

/-- Members with other counters in the one that holds them. -/
def withCounters (members counters : Named Json) : Named Json :=
  members.map fun m => (m.1, if m.1 = "stats" then ofMembers counters else m.2)

/-- **What is left of the written form of an event** when some members that have their default value
are left out, and of the counters, if they are kept, some that are zero. -/
def Abridges (e : Event) (v : Json) : Prop :=
  ∃ rest counters, LeavesOut e.defaults e.written rest ∧
    LeavesOut Stats.defaults e.counters counters ∧
    v = ofMembers (withCounters rest counters)

theorem toJson_eq (e : Event) : e.toJson = ofMembers e.written :=
  rfl

theorem nodup_names (e : Event) : (e.written.map Prod.fst).Nodup := by
  cases e with
  | capture e =>
    show ["object", "name", "hex", "str", "log_prob"].Nodup
    decide
  | finalText e =>
    show ["object", "hex", "str"].Nodup
    decide
  | text e =>
    show ["object", "hex", "str", "log_prob", "num_tokens", "is_generated", "stats"].Nodup
    decide

/-- Putting its own counters into an event changes nothing. -/
theorem withCounters_counters (e : Event) : withCounters e.written e.counters = e.written := by
  cases e <;> rfl

/-- Nothing needs to be left out. -/
theorem abridges_toJson (e : Event) : e.Abridges e.toJson :=
  ⟨e.written, e.counters, .refl _ _, .refl _ _, by rw [withCounters_counters, toJson_eq]⟩

/-! ### Reading -/

section Reading

variable {e : Event} {rest counters : Named Json} {v : Json}

theorem isStorable_written (h : ∀ x ∈ e.logProb?, (ofBinary64 x).toBinary64? = some x)
    (depth : Nat) : ∀ m ∈ e.written, isStorable (depth + 1) m.2 = true := by
  have hlogProb : ∀ x ∈ e.logProb?, isStorable (depth + 1) (ofBinary64 x) = true :=
    fun x hx => Json.isStorable_of_toBinary64? (h x hx) _
  cases e with
  | capture e => simpa [written, members, CaptureEvent.members, logProb?] using hlogProb
  | finalText e => simp [written, members, FinalTextEvent.members]
  | text e =>
    have hstats : isStorable (depth + 1) e.stats.toJson = true :=
      Json.isStorable_ofMembers (e.stats.isStorable_members depth)
    simpa [written, members, TextEvent.members, logProb?, hstats] using hlogProb

/-- What is left of an event can be set aside, two containers deep. -/
theorem Abridges.isStorable (h : ∀ x ∈ e.logProb?, (ofBinary64 x).toBinary64? = some x)
    (hv : e.Abridges v) (depth : Nat) : isStorable (depth + 2) v = true := by
  obtain ⟨rest, counters, hrest, hcounters, rfl⟩ := hv
  -- only a text has counters, and what was left out of them does not nest deeper
  have hstats : Json.isStorable (depth + 1) (ofMembers counters) = true := by
    refine Json.isStorable_ofMembers fun m hm => ?_
    have hmem := hcounters.sublist.subset hm
    cases e with
    | capture _ | finalText _ => exact absurd hmem List.not_mem_nil
    | text e => exact e.stats.isStorable_members depth m hmem
  refine Json.isStorable_ofMembers (List.forall_mem_map.2 fun m hm => ?_)
  show Json.isStorable (depth + 1) (if m.1 = "stats" then ofMembers counters else m.2) = true
  split
  · exact hstats
  · exact isStorable_written h depth m (hrest.sublist.subset hm)

theorem value?_withCounters {name : String} (hname : name ≠ "stats") :
    (withCounters rest counters).value? name = rest.value? name := by
  have hsame : ∀ o : Option Json,
      o.map (fun v => if name = "stats" then ofMembers counters else v) = o := fun o => by
    simp [hname]
  exact (Json.value?_map (fun name v => if name = "stats" then ofMembers counters else v) rest
    name).trans (hsame _)

theorem value?_withCounters_stats :
    (withCounters rest counters).value? "stats" =
      (rest.value? "stats").map fun _ => ofMembers counters :=
  Json.value?_map (fun name v => if name = "stats" then ofMembers counters else v) rest "stats"

/-- What is left repeats no name. -/
theorem nodup_withCounters (counters : Named Json) (h : LeavesOut e.defaults e.written rest) :
    ((withCounters rest counters).map Prod.fst).Nodup := by
  rw [withCounters, List.map_map]
  exact h.nodup e.nodup_names

/-- A capture is read back. -/
theorem ofJson?_capture {e : CaptureEvent} (h : (ofBinary64 e.logProb).toBinary64? = some e.logProb)
    (hrest : LeavesOut (capture e).defaults (capture e).written rest) :
    CaptureEvent.ofJson? (ofMembers (withCounters rest counters)) =
      some e := by
  have hfield : ∀ name v, (name, v) ∈ e.members → rest.value? name = some v := fun name v hv =>
    hrest.value?_of_not_mem (capture e).nodup_names (List.mem_cons_of_mem _ hv) List.not_mem_nil
  have hname := hfield "name" (.ofString e.name) (by simp [CaptureEvent.members])
  have hhex := hfield "hex" (.ofString e.hex) (by simp [CaptureEvent.members])
  have hstr := hfield "str" (.ofString e.str) (by simp [CaptureEvent.members])
  have hlogProb := hfield "log_prob" (ofBinary64 e.logProb) (by simp [CaptureEvent.members])
  rw [CaptureEvent.ofJson?, Json.recordFields?_eq_values (nodup_withCounters counters hrest)]
  simp [value?_withCounters, required, hname, hhex, hstr, hlogProb, h]

/-- The end of the output is read back, whichever of its empty texts are left out. -/
theorem ofJson?_finalText {e : FinalTextEvent}
    (hrest : LeavesOut (finalText e).defaults (finalText e).written rest) :
    FinalTextEvent.ofJson? (ofMembers (withCounters rest counters)) =
      some e := by
  have hfield : ∀ name s, (name, Json.ofString s) ∈ e.members →
      defaulted "" Json.toString? (rest.value? name) = some s := by
    intro name s hs
    refine hrest.defaulted (finalText e).nodup_names (List.mem_cons_of_mem _ hs) rfl fun w hw => ?_
    have hempty : w = .ofString "" := by
      simp only [defaults, List.mem_cons, Prod.mk.injEq, List.not_mem_nil, or_false] at hw
      rcases hw with ⟨-, hw⟩ | ⟨-, hw⟩ <;> exact hw
    rw [hempty]
    rfl
  have hhex := hfield "hex" e.hex (by simp [FinalTextEvent.members])
  have hstr := hfield "str" e.str (by simp [FinalTextEvent.members])
  rw [FinalTextEvent.ofJson?, Json.recordFields?_eq_values (nodup_withCounters counters hrest)]
  simp [value?_withCounters, hhex, hstr]

/-- The counters of an addition to the output, which may be left out if all are zero. -/
theorem defaulted_stats {e : TextEvent} (hrest : LeavesOut (text e).defaults (text e).written rest)
    (hcounters : LeavesOut Stats.defaults e.stats.members counters) :
    defaulted {} Stats.ofJson? ((withCounters rest counters).value? "stats") = some e.stats := by
  have hmem : ("stats", e.stats.toJson) ∈ (text e).written := by
    simp [written, members, TextEvent.members]
  rw [value?_withCounters_stats]
  rcases hrest.value? (text e).nodup_names hmem with hfound | ⟨hfound, hdefault⟩
  · rw [hfound]
    exact Stats.ofJson?_of_leavesOut hcounters
  · -- counters that are left out whole were the default ones
    have hempty : e.stats.toJson = ({} : Stats).toJson := by simpa [defaults] using hdefault
    have hsame := e.stats.ofJson?_toJson
    rw [hempty, Stats.ofJson?_toJson] at hsame
    rw [hfound]
    exact hsame

/-- An addition to the output is read back, whichever of its members that have their default
value are left out. -/
theorem ofJson?_text {e : TextEvent} (h : (ofBinary64 e.logProb).toBinary64? = some e.logProb)
    (hrest : LeavesOut (text e).defaults (text e).written rest)
    (hcounters : LeavesOut Stats.defaults e.stats.members counters) :
    TextEvent.ofJson? (ofMembers (withCounters rest counters)) =
      some e := by
  have hnodup := (text e).nodup_names
  -- the bytes and the text have no default, so they are always written
  have hhex : rest.value? "hex" = some (.ofString e.hex) :=
    hrest.value?_of_not_mem hnodup (by simp [written, members, TextEvent.members])
      (by simp [defaults])
  have hstr : rest.value? "str" = some (.ofString e.str) :=
    hrest.value?_of_not_mem hnodup (by simp [written, members, TextEvent.members])
      (by simp [defaults])
  have hlogProb : defaulted .zero toBinary64? (rest.value? "log_prob") = some e.logProb := by
    refine hrest.defaulted hnodup (by simp [written, members, TextEvent.members]) h fun w hw => ?_
    have hzero : w = ofBinary64 .zero := by simpa [defaults] using hw
    rw [hzero, Json.toBinary64?_zero]
  have htokens : defaulted 0 toUInt32? (rest.value? "num_tokens") = some e.tokenCount := by
    refine hrest.defaulted (v := ofUInt32 e.tokenCount) hnodup
      (by simp [written, members, TextEvent.members]) (Json.toUInt32?_ofUInt32 _) fun w hw => ?_
    have hzero : w = ofUInt32 0 := by simpa [defaults] using hw
    rw [hzero, Json.toUInt32?_ofUInt32]
  have hgenerated : defaulted false Json.toBool? (rest.value? "is_generated") =
      some e.isGenerated := by
    refine hrest.defaulted (v := .bool e.isGenerated) hnodup
      (by simp [written, members, TextEvent.members]) rfl fun w hw => ?_
    have hfalse : w = .bool false := by simpa [defaults] using hw
    rw [hfalse]
    rfl
  have hstats := defaulted_stats hrest hcounters
  rw [TextEvent.ofJson?, Json.recordFields?_eq_values (nodup_withCounters counters hrest)]
  simp [value?_withCounters, required, hhex, hstr, hlogProb, htokens, hgenerated, hstats]

/-- What is left of an event is read as the event. -/
theorem ofJson?_of_abridges (h : ∀ x ∈ e.logProb?, (ofBinary64 x).toBinary64? = some x)
    (hv : e.Abridges v) : ofJson? v = some e := by
  have hstorable : v.isStorable Artifact.nestingLimit = true := hv.isStorable h 125
  obtain ⟨rest, counters, hrest, hcounters, rfl⟩ := hv
  -- the kind has no default either, so it is there to be dispatched on
  have hkind : (withCounters rest counters).value? kindMember =
      some (.ofString e.kindName) := by
    rw [value?_withCounters (by decide)]
    refine hrest.value?_of_not_mem e.nodup_names (List.mem_cons_self ..) ?_
    cases e <;> simp [defaults, kindMember]
  have hfields : kindAndFields? (ofMembers (withCounters rest counters)) =
      some (e.kindName, ofMembers (withCounters rest counters)) := by
    have hmember := Json.member?_eq_value? (nodup_withCounters counters hrest) kindMember
    rw [Json.ofMembers_eq]
    simp [kindAndFields?, hmember, hkind, required]
  rw [ofJson?, hstorable, hfields]
  cases e with
  | capture e => simp [kindName, ofJson?_capture (h _ rfl) hrest]
  | finalText e => simp [kindName, ofJson?_finalText hrest]
  | text e => simp [kindName, ofJson?_text (h _ rfl) hrest hcounters]

end Reading

/-- **Events survive being written and read**, also where members that have their default value, and
counters that are zero, are left out of what is written. The log probability has to be finite and to
read back from its numeral. -/
theorem parse?_abridged {e : Event} (hfinite : ∀ x ∈ e.logProb?, x.isFinite = true)
    (hreads : ∀ x ∈ e.logProb?, x.ReadsBack) :
    parse? e.render = some e ∧ ∀ v, e.Abridges v → parse? v.render = some e := by
  have hlogProb : ∀ x ∈ e.logProb?, (ofBinary64 x).toBinary64? = some x :=
    fun x hx => (hreads x hx).toBinary64? (hfinite x hx)
  have habridged : ∀ v, e.Abridges v → parse? v.render = some e := by
    intro v hv
    have hprintable : v.Printable := Json.printable_of_isStorable (hv.isStorable hlogProb 0)
    rw [parse?, hprintable.parse?_render, Option.bind_some, ofJson?_of_abridges hlogProb hv]
  exact ⟨habridged _ e.abridges_toJson, habridged⟩

/-- An addition to the output whose largest counter is kept, while the other counters and what it
says about how the bytes were chosen are left out. -/
theorem parse?_abridged_rows :
    let half : Binary64 := ⟨0xbfe0000000000000#64⟩
    let e : Event := .text
      { hex := "e2", str := "\ufffd", logProb := half, tokenCount := 4294967295
        stats := { rows := 18446744073709551615 } }
    let v : Json := ofMembers
      [("object", .ofString "text"), ("hex", .ofString "e2"), ("str", .ofString "\ufffd"),
        ("log_prob", ofBinary64 half), ("num_tokens", ofUInt32 4294967295),
        ("stats", ofMembers [("rows", ofUInt64 18446744073709551615)])]
    half.isFinite = true ∧ half.ReadsBack ∧ e.Abridges v ∧ parse? e.render = some e ∧
      parse? v.render = some e := by
  intro half e v
  have hfinite : ∀ x ∈ e.logProb?, x.isFinite = true := by decide +kernel
  have hreads : ∀ x ∈ e.logProb?, x.ReadsBack := by decide +kernel
  have hmembers : LeavesOut e.defaults e.written (e.written.eraseIdx 5) := by
    refine ⟨List.eraseIdx_sublist .., ?_⟩
    simp [e, written, members, TextEvent.members, defaults]
  have hcounters : LeavesOut Stats.defaults e.counters [("rows", ofUInt64 18446744073709551615)] := by
    refine ⟨by simp [e, counters, Stats.members], ?_⟩
    simp [e, counters, Stats.members, Stats.defaults]
  have habridges : e.Abridges v := ⟨_, _, hmembers, hcounters, rfl⟩
  obtain ⟨hwhole, habridged⟩ := parse?_abridged hfinite hreads
  exact ⟨hfinite half rfl, hreads half rfl, habridges, hwhole, habridged v habridges⟩

end Event

end GuidedGrammar
