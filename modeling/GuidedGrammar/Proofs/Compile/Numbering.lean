import GuidedGrammar.Proofs.Compile.Closed
import GuidedGrammar.Proofs.Compile.References
import GuidedGrammar.Proofs.Regex.Listing

/-!
# Canonical numbering

The positions that compiling gives out are those of plain recursive walks (`Arena.Numbered`). In a
grammar, nodes are listed in the order in which the walk down from the start visits them for the
first time, and regexes in the order in which walks through their trees complete them for the first
time, the trees being those of the nodes in order and of what the grammar skips. Grammars are listed
in the order in which they are encountered while they are processed one after the other.

Compiling numbers canonically (`Arena.compile_numbered`), and only one list of grammars is numbered
so (`Arena.Numbered.unique`).
-/

namespace GuidedGrammar

/-! ### The numbering -/

open Classical in
/-- Trees in the order of their first completion by walks through the given trees, one after the
other, each of which completes the parts of a tree from left to right and then the tree. -/
noncomputable def Regex.Tree.firstCompletions (trees : List Regex.Tree) : List Regex.Tree :=
  (trees.flatMap postorder).eraseDups

namespace Arena

/-- A compiled grammar that is numbered canonically. Its nodes stand for those of the grammar in the
order of their first visit. Its entries list the trees of the regexes of these nodes, and of what
the grammar skips, in the order of their first completion. -/
inductive NumberedGrammar (a : Arena) (keys : List NodeId) (key : NodeId) :
    Artifact.Grammar Nat → Prop
  | intro {start : NodeId} {skip : Option RegexId} {ids : List NodeId} {trees : List Regex.Tree}
    {nodes : List (Artifact.Node Nat)} {ref : Option (Artifact.RegexRef Nat)}
    {entries : List (Regex Nat)}
    (hkey : a.GrammarAt key start skip) (hids : a.VisitsInOrder key ids)
    (hnodes : List.Forall₂ (a.TranslatesNode entries.toArray keys ids) ids nodes)
    (htrees : List.Forall₂ a.regexes.Unfolds (ids.flatMap a.inlineRegexes ++ skip.toList) trees)
    (hentries : RegexStore.Lists entries.toArray (Regex.Tree.firstCompletions trees))
    (hskip : a.TranslatesSkip entries.toArray skip ref) :
    NumberedGrammar a keys key ⟨nodes, false, ref, some false, entries⟩

/-- **Compiled grammars that are numbered canonically.** They are those of the nodes that have been
encountered from the root when all of them have been processed. -/
inductive Numbered (a : Arena) (root : NodeId) : List (Artifact.Grammar Nat) → Prop
  | intro {keys : List NodeId} {grammars : List (Artifact.Grammar Nat)}
    (hkeys : Encounters a.RefersInOrder root keys.length keys)
    (hgrammars : List.Forall₂ (a.NumberedGrammar keys) keys grammars) : Numbered a root grammars

end Arena

/-! ### First completions -/

namespace RegexTable

open Regex.Tree (addNew addNew_of_mem addNew_of_not_mem addSubtrees firstCompletions)

variable {store : RegexStore} {t : RegexTable} {trees : List Regex.Tree}

open Classical in
/-- Adding new trees one after the other keeps first occurrences. -/
theorem foldl_addNew {ss : List Regex.Tree} (h : trees.Nodup) :
    ss.foldl addNew trees = (trees ++ ss).eraseDups := by
  induction ss generalizing trees with
  | nil => rw [List.foldl_nil, List.append_nil, eraseDups_of_nodup h]
  | cons s ss ih =>
    rw [List.foldl_cons]
    by_cases hs : s ∈ trees
    · rw [addNew_of_mem hs, ih h, eraseDups_append_cons_of_mem hs]
    · have hnodup : (trees ++ [s]).Nodup :=
        List.nodup_append.2 ⟨h, List.pairwise_singleton _ s, fun x hx y hy hxy =>
          hs (List.mem_singleton.1 hy ▸ hxy ▸ hx)⟩
      rw [addNew_of_not_mem hs, ih hnodup, List.append_assoc, List.singleton_append]

theorem foldl_addSubtrees (ts : List Regex.Tree) :
    ts.foldl addSubtrees [] = firstCompletions ts := by
  have hflat : ts.foldl addSubtrees [] = (ts.flatMap Regex.Tree.postorder).foldl addNew [] := by
    rw [List.foldl_flatMap]
    rfl
  rw [hflat, foldl_addNew List.nodup_nil, List.nil_append, firstCompletions]

/-- Adding regexes that have trees, one after the other. -/
theorem Holds.addAll {roots : List RegexId} {ts : List Regex.Tree} (h : Holds store t trees)
    (hroots : List.Forall₂ store.Unfolds roots ts) :
    Holds store (t.addAll store roots).2 (ts.foldl addSubtrees trees) := by
  induction hroots generalizing t trees with
  | nil => exact h
  | @cons root tree roots ts hroot _ ih =>
    obtain ⟨i, t', hadd, ht', -⟩ := h.add hroot
    have hall := ih ht'
    have hrest : (t.addAll store (root :: roots)).2 = (t'.addAll store roots).2 := by
      simp only [RegexTable.addAll, hadd]
    rwa [hrest]

/-- An empty table to which regexes were added lists what is below them in the order of first
completion. -/
theorem lists_addAll_empty {roots : List RegexId} {ts : List Regex.Tree}
    (hroots : List.Forall₂ store.Unfolds roots ts) :
    RegexStore.Lists ((∅ : RegexTable).addAll store roots).2.entries (firstCompletions ts) := by
  rw [← foldl_addSubtrees]
  exact ((holds_empty store).addAll hroots).lists

end RegexTable

/-! ### Compiling numbers canonically -/

namespace Arena

variable {a : Arena} {key root : NodeId} {keys : List NodeId}

/-- The regexes of a grammar that is translated have trees. -/
theorem TranslatesGrammar.exists_trees {g : Artifact.Grammar Nat}
    (h : a.TranslatesGrammar keys key g) :
    ∃ trees, List.Forall₂ a.regexes.Unfolds (a.grammarRegexes key) trees := by
  have hall : ∀ r ∈ a.grammarRegexes key, ∃ t, a.regexes.Unfolds r t := by
    intro r hr
    obtain ⟨ref, -, t, ht, -⟩ := h.exists_entry r hr
    exact ⟨t, ht⟩
  choose! below hbelow using hall
  exact ⟨(a.grammarRegexes key).map below,
    List.forall₂_map_right_iff.2 (List.forall₂_same.2 hbelow)⟩

/-- A compiled grammar is numbered canonically. -/
theorem Ordered.numberedGrammar (ha : a.Ordered) {g : Artifact.Grammar Nat}
    (h : a.WritesGrammar keys key g) : a.NumberedGrammar keys key g := by
  obtain ⟨trees, htrees⟩ := h.translatesGrammar.exists_trees
  have hlists := RegexTable.lists_addAll_empty htrees
  rw [← h.entries_eq] at hlists
  cases h with
  | intro hstart hnodes hskip =>
    exact .intro (grammarAt_of_start hstart) (ha.visitsInOrder hstart) hnodes htrees hlists hskip

/-- What is compiled from a well-formed arena is numbered canonically. -/
theorem WellFormed.numbered (ha : a.WellFormed) {options : CompileOptions} {t : Artifact Nat}
    (h : a.compile options root = .ok t) : a.Numbered root t.grammars := by
  have hgrammars := (forall₂_of_compile h).1
  refine .intro (ha.ordered.encounters fun key hkey => ?_)
    (hgrammars.imp fun _ _ => ha.ordered.numberedGrammar)
  obtain ⟨g, -, hwrites⟩ := exists_mem_of_forall₂ hgrammars hkey
  cases hwrites with
  | intro hstart => exact ⟨_, hstart⟩

end Arena

/-! ### There is one canonical numbering -/

open Classical in
theorem nodup_firstCompletions (trees : List Regex.Tree) :
    (Regex.Tree.firstCompletions trees).Nodup :=
  nodup_eraseDups _

/-- What a table lists without repetition, it has no two entries for. -/
theorem RegexStore.Lists.distinct {entries : RegexStore} {trees : List Regex.Tree}
    (h : entries.Lists trees) (hnodup : trees.Nodup) (i j : RegexId) (r : Regex RegexId)
    (hi : entries[i]? = some r) (hj : entries[j]? = some r) : i = j := by
  have hlt : i < trees.length := h.length_eq ▸ (Array.getElem?_eq_some_iff.1 hi).1
  have hget : trees[i]? = some trees[i] := List.getElem?_eq_getElem hlt
  have hunfolds := h.unfolds i _ hget
  generalize trees[i] = s at hget hunfolds
  cases hunfolds with
  | node hid hbelow =>
    obtain rfl := Option.some.inj (hi.symm.trans hid)
    have hget' := h.getElem?_iff.2 (.node hj hbelow)
    exact (List.getElem?_inj hlt hnodup).1 (hget.trans hget'.symm)

section Unique

variable {store entries : RegexStore} {keys ids : List NodeId} {id : NodeId}

/-- No position stands for two places of a list without repetition. -/
theorem rightUnique_positions (hids : ids.Nodup) :
    Relator.RightUnique fun (x : NodeId) (i : Nat) => ids[i]? = some x :=
  fun _ _ _ hi hj =>
    (List.getElem?_inj (List.getElem?_eq_some_iff.1 hi).1 hids).1 (hi.trans hj.symm)

variable (hdistinct : ∀ (i j : RegexId) (r : Regex RegexId), entries[i]? = some r →
  entries[j]? = some r → i = j)

include hdistinct

theorem Artifact.RegexRef.StandsFor.unique {ref ref' : Artifact.RegexRef Nat}
    (h : ref.StandsFor store entries id) (h' : ref'.StandsFor store entries id) : ref = ref' := by
  cases h with
  | entry hsame =>
    cases h' with
    | entry hsame' => rw [hsame.place_unique hdistinct hsame']

theorem Stop.Translates.unique {stop : Stop} {ref ref' : Artifact.RegexRef Nat}
    (h : stop.Translates store entries ref) (h' : stop.Translates store entries ref') :
    ref = ref' := by
  cases h with
  | unset =>
    cases h' with
    | unset => rfl
    | set hstop => cases hstop
  | set hstop href =>
    cases h' with
    | unset => cases hstop
    | set hstop' href' =>
      obtain rfl := Option.some.inj (hstop.symm.trans hstop')
      exact href.unique hdistinct href'

theorem NodeKind.Translates.unique (hkeys : keys.Nodup) (hids : ids.Nodup) {kind : NodeKind}
    {compiled compiled' : Artifact.NodeKind Nat}
    (h : kind.Translates store entries keys ids id compiled)
    (h' : kind.Translates store entries keys ids id compiled') : compiled = compiled' := by
  -- one case for each kind, since the kind is the same on both sides
  cases h with
  | literal text =>
    cases h'
    rfl
  | generation hbody hstop =>
    cases h' with
    | generation hbody' hstop' =>
      rw [hbody.unique hdistinct hbody', hstop.unique hdistinct hstop']
  | lexeme hregex =>
    cases h' with
    | lexeme hregex' => rw [hregex.unique hdistinct hregex']
  | nested hi =>
    cases h' with
    | nested hi' => rw [rightUnique_positions hkeys hi hi']
  | choice hpositions =>
    cases h' with
    | choice hpositions' =>
      rw [(rightUnique_positions hids).forall₂ hpositions hpositions']
  | sequence hpositions =>
    cases h' with
    | sequence hpositions' =>
      rw [(rightUnique_positions hids).forall₂ hpositions hpositions']

theorem Arena.TranslatesNode.unique {a : Arena} (hkeys : keys.Nodup) (hids : ids.Nodup)
    {compiled compiled' : Artifact.Node Nat} (h : a.TranslatesNode entries keys ids id compiled)
    (h' : a.TranslatesNode entries keys ids id compiled') : compiled = compiled' := by
  cases h with
  | intro hid hkind =>
    cases h' with
    | intro hid' hkind' =>
      obtain rfl := Option.some.inj (hid.symm.trans hid')
      rw [hkind.unique hdistinct hkeys hids hkind']

theorem Arena.translatesSkip_unique {a : Arena} {skip : Option RegexId}
    {ref ref' : Option (Artifact.RegexRef Nat)} (h : a.TranslatesSkip entries skip ref)
    (h' : a.TranslatesSkip entries skip ref') : ref = ref' := by
  cases h with
  | none =>
    cases h'
    rfl
  | some href =>
    cases h' with
    | some href' => rw [href.unique hdistinct href']

end Unique

namespace Arena

variable {a : Arena} {key root : NodeId} {keys : List NodeId}

/-- **One grammar is numbered canonically.** -/
theorem NumberedGrammar.unique (hkeys : keys.Nodup) {g g' : Artifact.Grammar Nat}
    (h : a.NumberedGrammar keys key g) (h' : a.NumberedGrammar keys key g') : g = g' := by
  cases h with
  | intro hkey hids hnodes htrees hentries hskip =>
    cases h' with
    | intro hkey' hids' hnodes' htrees' hentries' hskip' =>
      obtain rfl := hids.unique hids'
      obtain rfl := (skip_of_grammarAt hkey).symm.trans (skip_of_grammarAt hkey')
      have hunfolds : Relator.RightUnique a.regexes.Unfolds := fun _ _ _ ht ht' => ht.unique ht'
      obtain rfl := hunfolds.forall₂ htrees htrees'
      -- the trees determine the entries, and these the references to them
      have hdistinct := hentries.distinct (nodup_firstCompletions _)
      obtain rfl := List.toArray_inj (hentries.eq hentries' hdistinct)
      have htranslates : Relator.RightUnique (a.TranslatesNode _ keys _) :=
        fun _ _ _ hnode hnode' => hnode.unique hdistinct hkeys hids.nodup hnode'
      obtain rfl := htranslates.forall₂ hnodes hnodes'
      obtain rfl := translatesSkip_unique hdistinct hskip hskip'
      rfl

/-- **One list of grammars is numbered canonically.** -/
theorem Numbered.unique {grammars grammars' : List (Artifact.Grammar Nat)}
    (h : a.Numbered root grammars) (h' : a.Numbered root grammars') : grammars = grammars' := by
  cases h with
  | intro hkeys hgrammars =>
    cases h' with
    | intro hkeys' hgrammars' =>
      have hrefers : ∀ x ys ys', a.RefersInOrder x ys → a.RefersInOrder x ys' → ys = ys' :=
        fun _ _ _ hys hys' => hys.unique hys'
      obtain rfl := hkeys.unique_of_length hrefers hkeys'
      have hunique : Relator.RightUnique (a.NumberedGrammar _) :=
        fun _ _ _ hg hg' => hg.unique hkeys.nodup hg'
      exact hunique.forall₂ hgrammars hgrammars'

/-- **Numbering is canonical.** What is compiled is numbered as plain recursive walks visit nodes,
complete regexes and encounter grammars, and nothing else is. -/
theorem compile_numbered (calls : List Call) (options : CompileOptions) (root : NodeId)
    (t : Artifact Nat) (h : (ofCalls calls).compile options root = .ok t) :
    (ofCalls calls).Numbered root t.grammars ∧
      ∀ grammars, (ofCalls calls).Numbered root grammars → grammars = t.grammars := by
  have hnumbered := (consistent_ofCalls calls).toWellFormed.numbered h
  exact ⟨hnumbered, fun grammars hgrammars => hgrammars.unique hnumbered⟩

/-- A choice that is met twice. The lexeme in it is the start of a grammar of its own as well; what
that grammar skips is a part of the lexeme's regex. -/
theorem compile_numbered_shared :
    (ofCalls [.pattern "b", .pattern "a", .concatenation [1, 0, 1], .lexeme (.regex 2) none none,
        .nested (.node 0) (some 0), .choice [.node 1, .node 0, .text "x"],
        .sequence [.node 3, .text "y", .node 3]]).Numbered 5
      [⟨[⟨.sequence [1, 5, 1], {}⟩, ⟨.choice [2, 3, 4], {}⟩, ⟨.grammar 1 none none, {}⟩,
          ⟨.lexeme (.entry 2) none none, {}⟩, ⟨.literal "x", {}⟩, ⟨.literal "y", {}⟩], false, none,
          some false, [.pattern "a", .pattern "b", .concatenation [0, 1, 0]]⟩,
        ⟨[⟨.lexeme (.entry 2) none none, {}⟩], false, some (.entry 1), some false,
          [.pattern "a", .pattern "b", .concatenation [0, 1, 0]]⟩] := by
  have hcompile : (ofCalls [.pattern "b", .pattern "a", .concatenation [1, 0, 1],
        .lexeme (.regex 2) none none, .nested (.node 0) (some 0),
        .choice [.node 1, .node 0, .text "x"],
        .sequence [.node 3, .text "y", .node 3]]).compile {} 5 =
      .ok ⟨[⟨[⟨.sequence [1, 5, 1], {}⟩, ⟨.choice [2, 3, 4], {}⟩, ⟨.grammar 1 none none, {}⟩,
          ⟨.lexeme (.entry 2) none none, {}⟩, ⟨.literal "x", {}⟩, ⟨.literal "y", {}⟩], false, none,
          some false, [.pattern "a", .pattern "b", .concatenation [0, 1, 0]]⟩,
        ⟨[⟨.lexeme (.entry 2) none none, {}⟩], false, some (.entry 1), some false,
          [.pattern "a", .pattern "b", .concatenation [0, 1, 0]]⟩], none, false⟩ := by
    rw [compile_eq_compileInOrder]
    cbv
  exact (compile_numbered _ {} 5 _ hcompile).1

end Arena

end GuidedGrammar
