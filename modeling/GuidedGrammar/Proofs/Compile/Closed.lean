import GuidedGrammar.Proofs.Compile.Faithful
import GuidedGrammar.Proofs.Compile.Order
import GuidedGrammar.Proofs.Grammar.Construction
import GuidedGrammar.Proofs.Regex.Outcome

/-!
# Closed grammars

A root is closed if every nested grammar that it reaches has been given its start and every regex
that it refers to is sound (`Arena.ClosedFrom`). By default, those are exactly the roots that can be
compiled, whatever regexes an arena is given.

Success implies closedness because compiling is faithful: what is written has trees
(`Arena.closedFrom_of_compile`). For the converse, writing is followed step by step. The nodes that
are written are always found; what is left to fail are regexes that are not sound (`Compile.Ends`).
-/

namespace GuidedGrammar

/-! ### What was written is sound -/

section Sound

variable {store entries : RegexStore} {id : RegexId} {ref : Artifact.RegexRef Nat}

theorem RegexStore.SameTree.sound {i : RegexId} (h : store.SameTree id entries i) :
    store.Sound id := by
  obtain ⟨tree, htree, -⟩ := h
  exact htree.sound

theorem Artifact.RegexRef.StandsFor.sound (h : ref.StandsFor store entries id) :
    store.Sound id := by
  cases h with
  | entry hsame => exact hsame.sound

theorem Stop.Translates.sound {stop : Stop} (h : stop.Translates store entries ref)
    (hid : stop.regex? = some id) : store.Sound id := by
  cases h with
  | unset => cases hid
  | set hstop hregex =>
    obtain rfl := Option.some.inj (hstop.symm.trans hid)
    exact hregex.sound

/-- What a node refers to has trees once the node is written. What a nested grammar skips is
written with its own nodes. -/
theorem NodeKind.Translates.sound {keys nodes : List NodeId} {x : NodeId} {kind : NodeKind}
    {compiled : Artifact.NodeKind Nat} (h : kind.Translates store entries keys nodes x compiled)
    (hplain : ∀ start skip, kind ≠ .nested start skip) :
    ∀ r ∈ kind.regexes, store.Sound r := by
  intro r hr
  cases h with
  | generation hbody hstop =>
    rcases List.mem_cons.1 hr with rfl | hr
    · exact hbody.sound
    · exact hstop.sound (Option.mem_toList.1 hr)
  | lexeme hregex =>
    obtain rfl := List.mem_singleton.1 hr
    exact hregex.sound
  | nested => exact absurd rfl (hplain _ _)
  | literal | choice | sequence => exact absurd hr List.not_mem_nil

end Sound

namespace Arena

/-! ### What is demanded of a root -/

/-- The arena with other regexes in place of its own. -/
def withRegexes (a : Arena) (store : RegexStore) : Arena :=
  { a with regexes := store }

/-- Whether the id is that of a nested grammar that has not been given its start. -/
def IsUndefined (a : Arena) (id : NodeId) : Prop :=
  ∃ skip, a.kind? id = some (.nested none skip)

/-- The regexes that a root refers to: those of the nodes that it reaches, starts of nested
grammars included. -/
def Refers (a : Arena) (root : NodeId) (r : RegexId) : Prop :=
  ∃ x kind, (a.graph Node.children).Reaches root x ∧ a.kind? x = some kind ∧ r ∈ kind.regexes

/-- **A root from which everything is given.** -/
structure ClosedFrom (a : Arena) (root : NodeId) : Prop where
  known : ∃ n, a.node? root = some n
  defined : ∀ x, (a.graph Node.children).Reaches root x → ¬ a.IsUndefined x
  sound : ∀ r, a.Refers root r → a.regexes.Sound r

/-- The first nested grammar without a start, in the order in which grammars are encountered. It
is the next one to process when all those before it have been. -/
def FirstUndefined (a : Arena) (root key : NodeId) : Prop :=
  ∃ i found, Encounters a.RefersInOrder root i found ∧ found[i]? = some key ∧ a.IsUndefined key

variable {a : Arena} {root key : NodeId} {options : CompileOptions} {t : Artifact Nat}

theorem grammarStart?_eq_none_iff : a.grammarStart? key = none ↔ a.IsUndefined key := by
  constructor
  · intro h
    unfold grammarStart? at h
    split at h
    · rename_i start skip hkind
      exact ⟨skip, by rw [kind?, hkind, h]⟩
    · cases h
  · rintro ⟨skip, hkey⟩
    rw [grammarStart?, show (a.node? key).map Node.kind = _ from hkey]

theorem isNested_of_isUndefined {x : NodeId} (h : a.IsUndefined x) : a.isNested x = true := by
  obtain ⟨skip, hkind⟩ := h
  exact isNested_iff.2 ⟨none, skip, hkind⟩

/-! ### What can be compiled is closed -/

/-- The grammars of a root that can be compiled are translated. -/
theorem exists_translatesGrammar (h : a.compile options root = .ok t)
    (hkey : key ∈ a.grammarOrder root) :
    ∃ grammar, a.TranslatesGrammar (a.grammarOrder root) key grammar := by
  obtain ⟨grammar, -, hgrammar⟩ := exists_mem_of_forall₂ (forall₂_of_compile h).1 hkey
  exact ⟨grammar, hgrammar.translatesGrammar⟩

/-- The nodes of a grammar that is translated are translated, and so is what it skips. -/
theorem TranslatesGrammar.nodes {keys : List NodeId} {grammar : Artifact.Grammar Nat}
    (h : a.TranslatesGrammar keys key grammar) :
    (∀ x ∈ a.grammarNodes key, ∃ entries ids compiled,
        a.TranslatesNode entries keys ids x compiled) ∧
      ∀ start skip, a.kind? key = some (.nested start skip) →
        start ≠ none ∧ ∀ r ∈ skip.toList, a.regexes.Sound r := by
  cases h with
  | intro hkey hnodup hhead hids hnodes hskip =>
    refine ⟨fun x hx => ?_, fun start skip hkind => ?_⟩
    · have hmem := (hids x).2 ((mem_grammarNodes (start_of_grammarAt hkey) x).1 hx)
      obtain ⟨compiled, -, hcompiled⟩ := exists_mem_of_forall₂ hnodes hmem
      exact ⟨_, _, compiled, hcompiled⟩
    · cases hkey with
      | plain hplain =>
        rw [isNested_iff.2 ⟨_, _, hkind⟩] at hplain
        cases hplain
      | nested hkey =>
        obtain ⟨rfl, rfl⟩ := NodeKind.nested.inj (Option.some.inj (hkind.symm.trans hkey))
        refine ⟨Option.some_ne_none _, fun r hr => ?_⟩
        cases hskip with
        | none => exact absurd hr List.not_mem_nil
        | some href =>
          obtain rfl := List.mem_singleton.1 hr
          exact href.sound

theorem exists_node?_of_compile (h : a.compile options root = .ok t) :
    ∃ n, a.node? root = some n := by
  rw [compile_eq_compileInOrder, compileInOrder] at h
  split at h
  · cases h
  · rename_i n hn
    exact ⟨n, hn⟩

/-- What a root that can be compiled reaches is there. -/
theorem exists_node?_of_reaches (h : a.compile options root = .ok t) {x : NodeId}
    (hx : (a.graph Node.children).Reaches root x) : ∃ n, a.node? x = some n := by
  rcases exists_grammar_of_reaches hx with rfl | ⟨key, hkey, hmem⟩
  · exact exists_node?_of_compile h
  · obtain ⟨grammar, hgrammar⟩ := exists_translatesGrammar h hkey
    obtain ⟨_, _, _, hnode⟩ := hgrammar.nodes.1 x hmem
    cases hnode with
    | intro hid => exact ⟨_, hid⟩

/-- **What can be compiled is closed.** -/
theorem closedFrom_of_compile (h : a.compile options root = .ok t) : a.ClosedFrom root where
  known := exists_node?_of_compile h
  defined x hx hundefined := by
    have hkey := mem_grammarOrder.2 (Or.inr ⟨isNested_of_isUndefined hundefined, hx⟩)
    obtain ⟨grammar, hgrammar⟩ := exists_translatesGrammar h hkey
    obtain ⟨skip, hkind⟩ := hundefined
    exact (hgrammar.nodes.2 none skip hkind).1 rfl
  sound r hr := by
    obtain ⟨x, kind, hx, hkind, hr⟩ := hr
    cases hnested : a.isNested x with
    | true =>
      -- a nested grammar is written with its own nodes
      have hkey := mem_grammarOrder.2 (Or.inr ⟨hnested, hx⟩)
      obtain ⟨grammar, hgrammar⟩ := exists_translatesGrammar h hkey
      obtain ⟨start, skip, hkind'⟩ := isNested_iff.1 hnested
      obtain rfl := Option.some.inj (hkind'.symm.trans hkind)
      exact (hgrammar.nodes.2 start skip hkind').2 r hr
    | false =>
      obtain ⟨key, hkey, hmem⟩ := exists_grammar_of_plain hnested hx
      obtain ⟨grammar, hgrammar⟩ := exists_translatesGrammar h hkey
      obtain ⟨_, _, _, hnode⟩ := hgrammar.nodes.1 x hmem
      cases hnode with
      | @intro n _ hid htranslates =>
        obtain ⟨n', hn', rfl⟩ := kind?_eq_some.1 hkind
        obtain rfl := Option.some.inj (hid.symm.trans hn')
        refine htranslates.sound (fun start skip heq => ?_) r hr
        rw [isNested_iff.2 ⟨start, skip, by rw [hkind, heq]⟩] at hnested
        cases hnested

end Arena

/-! ### Arenas without loose ends -/

namespace Arena

variable {a : Arena} {root key : NodeId}

/-- Whether all nodes lead to nodes. -/
def Linked (a : Arena) : Prop :=
  ∀ x y, (a.graph Node.children).Edge x y → ∃ n, a.node? y = some n

theorem WellFormed.linked (ha : a.WellFormed) : a.Linked := by
  intro x y hxy
  obtain ⟨n, hn, hy⟩ := edge_graph_iff.1 hxy
  apply exists_node?_of_lt
  -- a nested node may refer to a later start, every other node refers to earlier ones
  cases hnested : n.isNested with
  | false =>
    have hlt := (ha.node x n hn).inlineChildren_lt y (n.mem_inlineChildren hnested hy)
    exact Nat.lt_trans hlt (node?_eq_some_lt hn)
  | true =>
    rw [← isNested_eq hn] at hnested
    obtain ⟨start, skip, hkind⟩ := isNested_iff.1 hnested
    have hkind := kind_of_kind? hn hkind
    rw [Node.children, hkind, Option.mem_toList] at hy
    exact (ha.node x n hn).start_lt y skip (hy ▸ hkind)

theorem Linked.withRegexes (ha : a.Linked) (store : RegexStore) : (a.withRegexes store).Linked :=
  ha

theorem Ordered.withRegexes (ha : a.Ordered) (store : RegexStore) :
    (a.withRegexes store).Ordered :=
  ha

/-- What a node reaches is there. -/
theorem Linked.exists_node? (ha : a.Linked) (hroot : ∃ n, a.node? root = some n) {x : NodeId}
    (hx : (a.graph Node.children).Reaches root x) : ∃ n, a.node? x = some n := by
  induction hx with
  | refl => exact hroot
  | tail _ hedge => exact ha _ _ hedge

end Arena

/-! ### What is closed can be compiled -/

namespace Compile

open RegexTable (Holds)

variable {α β : Type} {a : Arena} {root key : NodeId} {options : CompileOptions} {s : State}

/-- An error that a regex causes: the root refers to a regex that is not sound, and the error is
not one of those that cannot arise. -/
structure RegexFailure (a : Arena) (root : NodeId) (e : Error) : Prop where
  reason : ∃ r, a.Refers root r ∧ ¬ a.regexes.Sound r
  reachable : ∀ what, e ≠ .unreachable what

/-- **How a step of writing ends**: with a table that holds trees, or with an error that a regex
causes. -/
def Ends (a : Arena) (root : NodeId) : Except Error (α × State) → Prop :=
  Except.Ensures (fun p => ∃ trees, Holds a.regexes p.2.table trees) (RegexFailure a root)

/-! ### Steps of writing -/

section Steps

variable (hs : ∃ trees, Holds a.regexes s.table trees)

include hs

/-- Writing a regex fails only if it is not sound. -/
theorem ends_writeRegex {r : RegexId} (hr : a.Refers root r) :
    Ends a root (writeRegex a.regexes r s) := by
  obtain ⟨trees, hs⟩ := hs
  cases hadd : s.table.add a.regexes r with
  | mk result table =>
    cases result with
    | ok i =>
      have hrun : writeRegex a.regexes r s = .ok (i, ⟨table, s.count⟩) := by
        rw [writeRegex, hadd]
      obtain ⟨tree, htree⟩ := (hs.exists_add_iff_sound.1 ⟨i, by rw [hadd]⟩).exists_unfolds
      obtain ⟨j, table', hadd', htable, -⟩ := hs.add htree
      obtain ⟨-, rfl⟩ := Prod.mk.inj (hadd.symm.trans hadd')
      rw [hrun]
      exact ⟨_, htable⟩
    | error e =>
      have hrun : writeRegex a.regexes r s = .error e := by
        rw [writeRegex, hadd]
      rw [hrun]
      refine ⟨⟨r, hr, fun hsound => ?_⟩, fun what he => ?_⟩
      · -- a table accepts every sound regex, so the one refused is not sound
        obtain ⟨i, hi⟩ := hs.exists_add_iff_sound.2 hsound
        rw [hadd] at hi
        cases hi
      · refine RegexTable.add_ne_unreachable s.table a.regexes r what ?_
        rw [hadd, he]

theorem ends_writeStop (hpolicy : options.stopPolicy = .endOfOutput) (id : NodeId)
    {g : Generation} (hg : ∀ r ∈ g.stop.regex?.toList, a.Refers root r) :
    Ends a root (writeStop options a id g s) := by
  unfold writeStop
  rw [hpolicy]
  cases hregex : g.stop.regex? with
  | none => exact hs
  | some r =>
    have hr : a.Refers root r := hg r (by rw [hregex]; exact List.mem_singleton_self r)
    exact (ends_writeRegex hs hr).bindState fun _ _ ht => ht

/-- Writing what a node becomes. -/
theorem ends_writeKind (hpolicy : options.stopPolicy = .endOfOutput) (keys ids : List NodeId)
    (id : NodeId) {kind : NodeKind} (hrefers : ∀ r ∈ kind.regexes, a.Refers root r) :
    Ends a root (writeKind options a keys ids id kind s) := by
  cases kind with
  | generation g =>
    obtain ⟨hbody, hstop⟩ := List.forall_mem_cons.1 hrefers
    exact (ends_writeRegex hs hbody).bindState fun _ t ht =>
      Except.Ensures.bindState (ends_writeStop ht hpolicy id hstop) fun _ _ hu => hu
  | lexeme l =>
    exact (ends_writeRegex hs (hrefers l.regex (List.mem_singleton_self _))).bindState
      fun _ _ ht => ht
  | literal | nested | choice | sequence => exact hs

/-- Writing a node that the root reaches. -/
theorem ends_writeNode (ha : a.Linked) (hroot : ∃ n, a.node? root = some n)
    (hpolicy : options.stopPolicy = .endOfOutput) (hlimit : options.nodeLimit = none)
    (keys ids : List NodeId) {x : NodeId} (hx : (a.graph Node.children).Reaches root x) :
    Ends a root (writeNode options a keys ids x s) := by
  obtain ⟨n, hn⟩ := ha.exists_node? hroot hx
  have hrefers : ∀ r ∈ n.kind.regexes, a.Refers root r := fun r hr =>
    ⟨x, n.kind, hx, Arena.kind?_eq_some.2 ⟨n, hn, rfl⟩, hr⟩
  -- nothing is counted without a limit
  have hcount : Ends a root (countNode options.nodeLimit s) := by
    rw [hlimit]
    exact hs
  unfold writeNode
  rw [hn]
  exact hcount.bindState fun _ t ht =>
    Except.Ensures.bindState (ends_writeKind ht hpolicy keys ids x hrefers) fun _ _ hu => hu

theorem ends_writeSkip {skip : Option RegexId} (hskip : ∀ r ∈ skip.toList, a.Refers root r) :
    Ends a root (writeSkip a skip s) := by
  cases skip with
  | none => exact hs
  | some skip =>
    exact (ends_writeRegex hs (hskip skip (List.mem_singleton_self skip))).bindState
      fun _ _ ht => ht

end Steps

/-! ### Grammars -/

/-- What a grammar of the root skips the root refers to. -/
theorem refers_of_grammarSkip? (hkey : key ∈ a.grammarOrder root) :
    ∀ r ∈ (a.grammarSkip? key).toList, a.Refers root r := by
  intro r hr
  unfold Arena.grammarSkip? at hr
  split at hr
  · rename_i start skip hkind
    exact ⟨key, _, Arena.reaches_of_mem_grammarOrder hkey, hkind, hr⟩
  · exact absurd hr List.not_mem_nil

section Grammars

variable (ha : a.Linked) (hroot : ∃ n, a.node? root = some n)
  (hpolicy : options.stopPolicy = .endOfOutput) (hlimit : options.nodeLimit = none)

include ha hroot hpolicy hlimit

/-- How writing a grammar ends: it had a start, or the error is that it has none, or one that a
regex causes. -/
theorem ends_writeGrammar (keys : List NodeId) (hkey : key ∈ a.grammarOrder root) (count : Nat) :
    Except.Ensures (fun _ => ∃ start, a.grammarStart? key = some start)
      (fun e => RegexFailure a root e ∨ a.IsUndefined key ∧ e = .undefinedGrammar key)
      (writeGrammar options a keys key count) := by
  unfold writeGrammar
  cases hstart : a.grammarStart? key with
  | none => exact .inr ⟨Arena.grammarStart?_eq_none_iff.1 hstart, rfl⟩
  | some start =>
    -- all the nodes of the grammar are reached from the root, and so are their regexes
    have hreaches : ∀ x ∈ a.grammarNodes key, (a.graph Node.children).Reaches root x := fun x hx =>
      (Arena.reaches_of_mem_grammarOrder hkey).trans (Arena.reaches_of_mem_grammarNodes hx)
    have hnodes : Ends a root ((a.grammarNodes key).mapM
        (writeNode options a keys (a.grammarNodes key)) ⟨.empty, count⟩) :=
      Except.Ensures.mapM
        (J := fun _ (p : List (Artifact.Node Nat) × State) =>
          ∃ trees, Holds a.regexes p.2.table trees)
        (fun _ x hx _ _ ht => ends_writeNode ht ha hroot hpolicy hlimit keys _ (hreaches x hx))
        ⟨[], RegexTable.holds_empty _⟩
    refine Except.Ensures.bind (hnodes.impError fun _ => .inl) fun p hp => ?_
    have hskip := ends_writeSkip hp (refers_of_grammarSkip? hkey)
    exact Except.Ensures.bind (hskip.impError fun _ => .inl) fun _ _ => ⟨start, rfl⟩

/-- Why writing grammars fails: because of a regex, or at the first grammar without a start. -/
theorem failure_of_mapM_writeGrammar (keys : List NodeId) {rest : List NodeId}
    (hrest : ∀ k ∈ rest, k ∈ a.grammarOrder root) {count : Nat} {e : Error}
    (h : rest.mapM (writeGrammar options a keys) count = .error e) :
    RegexFailure a root e ∨ ∃ before key after, rest = before ++ key :: after ∧
      (∀ k ∈ before, ∃ start, a.grammarStart? k = some start) ∧ a.IsUndefined key ∧
      e = .undefinedGrammar key := by
  induction rest generalizing count with
  | nil => cases h
  | cons key rest ih =>
    have hends := ends_writeGrammar ha hroot hpolicy hlimit keys (hrest key (List.mem_cons_self ..))
      count
    cases hgrammar : writeGrammar options a keys key count with
    | error e' =>
      rw [Except.mapM_cons_of_error rest hgrammar] at h
      obtain rfl := Except.error.inj h
      rw [hgrammar] at hends
      refine hends.imp_right ?_
      rintro ⟨hundefined, rfl⟩
      exact ⟨[], key, rest, rfl, fun k hk => absurd hk List.not_mem_nil, hundefined, rfl⟩
    | ok p =>
      rw [hgrammar] at hends
      rw [Except.mapM_cons_of_ok rest hgrammar, Except.bind_ok_eq_error_iff] at h
      refine (ih (fun k hk => hrest k (List.mem_cons_of_mem _ hk)) h).imp_right ?_
      rintro ⟨before, key', after, rfl, hbefore, hundefined, rfl⟩
      -- a grammar that was written has a start
      exact ⟨key :: before, key', after, rfl, List.forall_mem_cons.2 ⟨hends, hbefore⟩, hundefined,
        rfl⟩

end Grammars

end Compile

namespace Arena

variable {a : Arena} {root : NodeId} {options : CompileOptions} {e : Error}

/-- Why compiling fails, if a stop may be missing and the number of nodes is not limited. -/
theorem failure_of_compile (ha : a.Linked) (horder : a.Ordered)
    (hpolicy : options.stopPolicy = .endOfOutput) (hlimit : options.nodeLimit = none)
    (h : a.compile options root = .error e) :
    a.node? root = none ∧ e = .malformed .root (.unknownNode root) ∨
      Compile.RegexFailure a root e ∨
      ∃ key, a.FirstUndefined root key ∧ e = .undefinedGrammar key := by
  rw [compile_eq_compileInOrder, compileInOrder] at h
  cases hn : a.node? root with
  | none =>
    rw [hn] at h
    exact .inl ⟨rfl, (Except.error.inj h).symm⟩
  | some n =>
    rw [hn] at h
    refine .inr ?_
    cases hrun : (a.grammarOrder root).mapM
        (Compile.writeGrammar options a (a.grammarOrder root)) 0 with
    | ok p =>
      simp only [hrun] at h
      cases h
    | error e' =>
      simp only [hrun] at h
      obtain rfl := Except.error.inj h
      refine (Compile.failure_of_mapM_writeGrammar ha ⟨n, hn⟩ hpolicy hlimit _ (fun k hk => hk)
        hrun).imp_right ?_
      -- the grammars before the one that failed have been written, so they are defined
      rintro ⟨before, key, after, hkeys, hbefore, hundefined, rfl⟩
      obtain ⟨more, hencounters, hnext⟩ := horder.exists_encounters hkeys hbefore
      refine ⟨key, ⟨before.length, before ++ more, hencounters, ?_, hundefined⟩, rfl⟩
      rw [List.getElem?_append_right (Nat.le_refl _), Nat.sub_self, ← List.head?_eq_getElem?, hnext,
        List.head?_cons]

theorem FirstUndefined.isUndefined {key : NodeId} (h : a.FirstUndefined root key) :
    a.IsUndefined key := by
  obtain ⟨_, _, -, -, hkey⟩ := h
  exact hkey

theorem FirstUndefined.reaches {key : NodeId} (h : a.FirstUndefined root key) :
    (a.graph Node.children).Reaches root key := by
  obtain ⟨i, found, hfound, hkey, -⟩ := h
  exact reaches_of_encounters hfound key (List.mem_of_getElem? hkey)

/-- What is processed has a start, so nothing comes after a first undefined grammar. -/
theorem FirstUndefined.not_processed {i j : Nat} {key : NodeId} {found found' : List NodeId}
    (h : Encounters a.RefersInOrder root i found) (hkey : found[i]? = some key)
    (hundefined : a.IsUndefined key) (h' : Encounters a.RefersInOrder root j found') : j ≤ i := by
  refine Nat.le_of_not_lt fun hij => ?_
  obtain ⟨found'', x, ys, h'', hx, hys⟩ := h'.exists_processed hij
  obtain rfl := h''.unique (fun _ _ _ hys hys' => hys.unique hys') h
  obtain rfl := Option.some.inj (hkey.symm.trans hx)
  obtain ⟨start, hstart⟩ := hys.exists_start
  rw [grammarStart?_eq_none_iff.2 hundefined] at hstart
  cases hstart

/-- There is at most one first undefined grammar. -/
theorem FirstUndefined.unique {key key' : NodeId} (h : a.FirstUndefined root key)
    (h' : a.FirstUndefined root key') : key = key' := by
  obtain ⟨i, found, hfound, hkey, hundefined⟩ := h
  obtain ⟨j, found', hfound', hkey', hundefined'⟩ := h'
  obtain rfl : i = j := Nat.le_antisymm (not_processed hfound' hkey' hundefined' hfound)
    (not_processed hfound hkey hundefined hfound')
  obtain rfl := hfound.unique (fun _ _ _ hys hys' => hys.unique hys') hfound'
  exact Option.some.inj (hkey.symm.trans hkey')

/-- An undefined grammar that is reached keeps a root from being compiled. -/
theorem compile_ne_ok_of_isUndefined {x : NodeId}
    (hx : (a.graph Node.children).Reaches root x) (hundefined : a.IsUndefined x)
    (t : Artifact Nat) : a.compile options root ≠ .ok t :=
  fun h => (closedFrom_of_compile h).defined x hx hundefined

/-- A root from which an undefined grammar is reached is there. -/
theorem exists_node?_of_isUndefined {x : NodeId} (hx : (a.graph Node.children).Reaches root x)
    (hundefined : a.IsUndefined x) : ∃ n, a.node? root = some n := by
  obtain ⟨skip, hkind⟩ := hundefined
  obtain ⟨n, hn, -⟩ := kind?_eq_some.1 hkind
  by_cases hroot : root < a.nodes.size
  · exact exists_node?_of_lt hroot
  · -- what is not there reaches only itself
    obtain rfl := Digraph.Reaches.eq_of_le (g := a.graph Node.children) (Nat.not_lt.1 hroot) hx
    exact ⟨n, hn⟩

/-- Closed roots can be compiled, if a stop may be missing and the number of nodes is not
limited. -/
theorem ClosedFrom.exists_compile (h : a.ClosedFrom root) (ha : a.Linked) (horder : a.Ordered)
    (hpolicy : options.stopPolicy = .endOfOutput) (hlimit : options.nodeLimit = none) :
    ∃ t, a.compile options root = .ok t := by
  cases hcompile : a.compile options root with
  | ok t => exact ⟨t, rfl⟩
  | error e =>
    -- each reason for a failure is excluded by one condition of being closed
    exfalso
    rcases failure_of_compile ha horder hpolicy hlimit hcompile with
      ⟨hnone, -⟩ | hfailure | ⟨key, hkey, -⟩
    · obtain ⟨n, hn⟩ := h.known
      rw [hn] at hnone
      cases hnone
    · obtain ⟨r, hr, hunsound⟩ := hfailure.reason
      exact hunsound (h.sound r hr)
    · exact h.defined key hkey.reaches hkey.isUndefined

/-- No regex is at fault in a well-formed arena. -/
theorem WellFormed.not_regexFailure (ha : a.WellFormed) (e : Error) :
    ¬ Compile.RegexFailure a root e := by
  intro hfailure
  obtain ⟨r, ⟨x, kind, -, hkind, hr⟩, hunsound⟩ := hfailure.reason
  obtain ⟨n, hn, rfl⟩ := kind?_eq_some.1 hkind
  have hlt : r < a.regexes.size := (ha.node x n hn).regexes_lt r hr
  exact hunsound (RegexStore.sound_iff_exists_unfolds.2
    (RegexStore.exists_unfolds_of_parts_lt (fun id r hr => (ha.regex id r hr).parts_lt) hlt))

/-- Why compiling a well-formed arena fails. -/
theorem WellFormed.compile_eq_error_iff (ha : a.WellFormed)
    (hpolicy : options.stopPolicy = .endOfOutput) (hlimit : options.nodeLimit = none) :
    a.compile options root = .error e ↔
      a.node? root = none ∧ e = .malformed .root (.unknownNode root) ∨
      ∃ key, a.FirstUndefined root key ∧ e = .undefinedGrammar key := by
  have hfailure : ∀ e, a.compile options root = .error e →
      a.node? root = none ∧ e = .malformed .root (.unknownNode root) ∨
        ∃ key, a.FirstUndefined root key ∧ e = .undefinedGrammar key := fun e he =>
    (failure_of_compile ha.linked ha.ordered hpolicy hlimit he).imp_right fun h =>
      h.resolve_left (ha.not_regexFailure e)
  refine ⟨hfailure e, ?_⟩
  rintro (⟨hnone, rfl⟩ | ⟨key, hkey, rfl⟩)
  · rw [compile_eq_compileInOrder, compileInOrder, hnone]
  · -- an undefined grammar is a reason to fail, and the first one is unique
    cases hcompile : a.compile options root with
    | ok t => exact absurd hcompile (compile_ne_ok_of_isUndefined hkey.reaches hkey.isUndefined t)
    | error e' =>
      rcases hfailure e' hcompile with ⟨hnone, -⟩ | ⟨key', hkey', rfl⟩
      · obtain ⟨n, hn⟩ := exists_node?_of_isUndefined hkey.reaches hkey.isUndefined
        rw [hn] at hnone
        cases hnone
      · rw [hkey.unique hkey']

/-- **Closed roots are those that can be compiled**, and compiling never ends in a state that cannot
arise. Where no regex has been replaced, it fails for an unknown root, and else at the first grammar
without a start. -/
theorem compile_ok_iff_closedFrom (calls : List Call) (store : RegexStore) (root : NodeId) :
    ((∃ t, ((ofCalls calls).withRegexes store).compile {} root = .ok t) ↔
        ((ofCalls calls).withRegexes store).ClosedFrom root) ∧
      (∀ what, ((ofCalls calls).withRegexes store).compile {} root ≠ .error (.unreachable what)) ∧
      ∀ e, (ofCalls calls).compile {} root = .error e ↔
        (ofCalls calls).node? root = none ∧ e = .malformed .root (.unknownNode root) ∨
        ∃ key, (ofCalls calls).FirstUndefined root key ∧ e = .undefinedGrammar key := by
  have hwell : (ofCalls calls).WellFormed := (consistent_ofCalls calls).toWellFormed
  have hlinked := hwell.linked.withRegexes store
  have horder := hwell.ordered.withRegexes store
  refine ⟨⟨fun ⟨t, ht⟩ => closedFrom_of_compile ht,
      fun h => h.exists_compile hlinked horder rfl rfl⟩,
    fun what h => ?_, fun e => hwell.compile_eq_error_iff rfl rfl⟩
  rcases failure_of_compile hlinked horder rfl rfl h with ⟨-, he⟩ | hfailure | ⟨key, -, he⟩
  · cases he
  · exact hfailure.reachable what rfl
  · cases he

end Arena

end GuidedGrammar
