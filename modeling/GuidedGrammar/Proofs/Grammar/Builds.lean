import GuidedGrammar.Proofs.Grammar.Steps
import GuidedGrammar.Proofs.Regex.Sharing

/-!
# Building takes steps

What the functions do that build regexes, terminals and choices: whatever their arguments are, and
whether they succeed or fail, they take steps (`Builder.Builds`). There is one lemma for each of
them, which also says what is known of its result. A caller is put together from the lemmas of
what it calls by `builds_bind`.
-/

namespace GuidedGrammar.Builder

open Arena

variable {α β : Type} {a : Arena}

/-- **What a computation does to an arena**: it takes steps, also when it fails, and `Q` holds of
what it returns and the arena after it. -/
def Builds (a : Arena) (m : Builder α) (Q : α → Arena → Prop) : Prop :=
  match m a with
  | .ok r b => Steps a b ∧ Q r b
  | .error _ b => Steps a b

/-! ### Composition -/

theorem builds_pure {r : α} {Q : α → Arena → Prop} (h : Q r a) : Builds a (pure r) Q :=
  ⟨Relation.ReflTransGen.refl, h⟩

theorem builds_throw {e : Error} {Q : α → Arena → Prop} : Builds a (throw e) Q :=
  Relation.ReflTransGen.refl

theorem builds_get : Builds a (get : Builder Arena) fun r b => r = a ∧ b = a :=
  ⟨Relation.ReflTransGen.refl, rfl, rfl⟩

theorem run_bind_of_ok {m : Builder α} {f : α → Builder β} {r : α} {b : Arena}
    (h : m a = .ok r b) : (m >>= f) a = f r b := by
  show EStateM.bind m f a = _
  rw [EStateM.bind, h]

theorem run_bind_of_error {m : Builder α} {f : α → Builder β} {e : Error} {b : Arena}
    (h : m a = .error e b) : (m >>= f) a = .error e b := by
  show EStateM.bind m f a = _
  rw [EStateM.bind, h]

theorem run_get_bind (f : Arena → Builder β) (a : Arena) :
    ((get : Builder Arena) >>= f) a = f a a :=
  rfl

/-- **One computation after the other.** -/
theorem builds_bind {m : Builder α} {f : α → Builder β} {Q : α → Arena → Prop}
    {R : β → Arena → Prop} (hm : Builds a m Q)
    (hf : ∀ r b, Steps a b → Q r b → Builds b (f r) R) : Builds a (m >>= f) R := by
  unfold Builds at hm
  cases hrun : m a with
  | error e b =>
    -- `f` is not reached
    rw [hrun] at hm
    rw [Builds, run_bind_of_error hrun]
    exact hm
  | ok r b =>
    rw [hrun] at hm
    have h := hf r b hm.1 hm.2
    unfold Builds at h ⊢
    rw [run_bind_of_ok hrun]
    cases hrun' : f r b with
    | error e c =>
      rw [hrun'] at h
      exact hm.1.trans h
    | ok r' c =>
      rw [hrun'] at h
      exact ⟨hm.1.trans h.1, h.2⟩

theorem Builds.mono {m : Builder α} {Q R : α → Arena → Prop} (hm : Builds a m Q)
    (h : ∀ r b, Q r b → R r b) : Builds a m R := by
  unfold Builds at hm ⊢
  split at hm
  · exact ⟨hm.1, h _ _ hm.2⟩
  · exact hm

/-- What is known of the result includes how it was reached. -/
theorem Builds.with_steps {m : Builder α} {Q : α → Arena → Prop} (hm : Builds a m Q) :
    Builds a m fun r b => Steps a b ∧ Q r b := by
  unfold Builds at hm ⊢
  split at hm
  · exact ⟨hm.1, hm⟩
  · exact hm

theorem builds_map {m : Builder α} {Q : α → Arena → Prop} (hm : Builds a m Q) (f : α → β) :
    Builds a (f <$> m) fun _ _ => True := by
  have hmap : f <$> m = m >>= fun r => pure (f r) := map_eq_pure_bind f m
  rw [hmap]
  exact builds_bind hm fun _ _ _ _ => builds_pure trivial

/-- What a computation returns is known from how it builds. -/
theorem Builds.of_ok {m : Builder α} {Q : α → Arena → Prop} (h : Builds a m Q) {r : α} {b : Arena}
    (hrun : m a = .ok r b) : Steps a b ∧ Q r b := by
  unfold Builds at h
  rw [hrun] at h
  exact h

/-! ### Undoing -/

theorem undoingNodes_of_ok {m : Builder α} {r : α} {b : Arena} (h : m a = .ok r b) :
    undoingNodes m a = .ok r b := by
  show EStateM.tryCatch m _ a = _
  rw [EStateM.tryCatch, h]

theorem undoingNodes_of_error {m : Builder α} {e : Error} {b : Arena} (h : m a = .error e b) :
    undoingNodes m a = .error e { b with nodes := b.nodes.take a.nodes.size } := by
  show EStateM.tryCatch m _ a = _
  rw [EStateM.tryCatch, h]
  rfl

/-- A computation that adds nothing but nodes when it fails, with these dropped again. -/
theorem builds_undoingNodes {m : Builder α} {Q : α → Arena → Prop} (hm : Builds a m Q)
    (herror : ∀ e b, m a = .error e b → { b with nodes := b.nodes.take a.nodes.size } = a) :
    Builds a (undoingNodes m) Q := by
  unfold Builds at hm ⊢
  cases hrun : m a with
  | ok r b =>
    rw [hrun] at hm
    rw [undoingNodes_of_ok hrun]
    exact hm
  | error e b =>
    rw [undoingNodes_of_error hrun]
    show Steps a { b with nodes := b.nodes.take a.nodes.size }
    rw [herror e b hrun]
    exact Relation.ReflTransGen.refl

/-! ### Adding and checking -/

theorem builds_addRegex {r : Regex RegexId} (hr : r.WellFormedAt a.regexes.size) :
    Builds a (addRegex r) fun id b => id = a.regexes.size ∧ b = a.withRegex r :=
  ⟨Relation.ReflTransGen.single (.regex hr), rfl, rfl⟩

theorem builds_addNode {n : Node} (hn : n.WellFormedAt a a.nodes.size) (hsettled : n.Settled a) :
    Builds a (addNode n) fun id b => id < b.nodes.size := by
  refine ⟨Relation.ReflTransGen.single (.node hn hsettled), ?_⟩
  show a.nodes.size < (a.nodes.push n).size
  rw [Array.size_push]
  exact Nat.lt_succ_self _

theorem builds_needNode (operation : Operation) (id : NodeId) :
    Builds a (needNode operation id) fun n b => b = a ∧ a.node? id = some n := by
  unfold needNode
  refine builds_bind builds_get ?_
  rintro _ _ - ⟨rfl, rfl⟩
  split
  · rename_i n hn
    exact builds_pure ⟨rfl, hn⟩
  · exact builds_throw

theorem builds_needRegex (operation : Operation) (id : RegexId) :
    Builds a (needRegex operation id) fun _ b => b = a ∧ id < a.regexes.size := by
  show Builds a (if a.regexes.size ≤ id then _ else pure ()) _
  by_cases hid : a.regexes.size ≤ id
  · rw [if_pos hid]
    exact builds_throw
  · rw [if_neg hid]
    exact builds_pure ⟨rfl, Nat.lt_of_not_le hid⟩

theorem builds_needRegexes (operation : Operation) (ids : List RegexId) :
    Builds a (ids.forM (needRegex operation)) fun _ b =>
      b = a ∧ ∀ id ∈ ids, id < a.regexes.size := by
  induction ids with
  | nil => exact builds_pure ⟨rfl, fun _ h => absurd h List.not_mem_nil⟩
  | cons id ids ih =>
    refine builds_bind (builds_needRegex operation id) ?_
    rintro _ _ - ⟨rfl, hid⟩
    refine ih.mono ?_
    rintro _ _ ⟨rfl, hids⟩
    exact ⟨rfl, List.forall_mem_cons.2 ⟨hid, hids⟩⟩

/-- A regex that passes the check is there. -/
theorem lt_size_of_check {store : RegexStore} {id : RegexId} (h : store.check id = .ok ()) :
    id < store.size := by
  rw [RegexStore.check] at h
  cases hadd : ((∅ : RegexTable).add store id).1 with
  | error e =>
    rw [show RegexTable.empty = (∅ : RegexTable) from rfl, hadd] at h
    cases h
  | ok i =>
    obtain ⟨t, ht, -⟩ := RegexTable.sameTree_of_add (fun _ _ _ _ => trivial) trivial
      (RegexTable.represents_empty store fun _ => True) hadd
    exact ht.lt_size

theorem builds_checkRegex (id : RegexId) :
    Builds a (checkRegex id) fun _ b => b = a ∧ id < a.regexes.size := by
  unfold checkRegex
  refine builds_bind builds_get ?_
  rintro _ _ - ⟨rfl, rfl⟩
  split
  · rename_i hcheck
    exact builds_pure ⟨rfl, lt_size_of_check hcheck⟩
  · exact builds_throw

/-! ### Regexes -/

/-- A regex that is neither a set of bytes nor a repetition has nothing but its parts to check. -/
theorem builds_addRegex_of_parts {r : Regex RegexId} (hparts : ∀ p ∈ r.parts, p < a.regexes.size)
    (hset : ∀ words, r ≠ .byteSet words) (hrep : ∀ part min max, r ≠ .repetition part min max) :
    Builds a (addRegex r) fun id b => id = a.regexes.size ∧ b = a.withRegex r :=
  builds_addRegex
    ⟨hparts, fun part min max h => absurd h (hrep part min (some max)),
      fun words h => absurd h (hset words)⟩

/-- The same for a regex without parts. -/
theorem builds_addRegex_of_leaf {r : Regex RegexId} (hparts : r.parts = [])
    (hset : ∀ words, r ≠ .byteSet words) :
    Builds a (addRegex r) fun id b => id = a.regexes.size ∧ b = a.withRegex r := by
  refine builds_addRegex_of_parts (fun p hp => ?_) hset fun part min max h => ?_
  · rw [hparts] at hp
    exact absurd hp List.not_mem_nil
  · rw [h] at hparts
    cases hparts

theorem builds_regexLiteral (text : String) : Builds a (regexLiteral text) fun id b =>
    id = a.regexes.size ∧ b = a.withRegex (.literal text) :=
  builds_addRegex_of_leaf (r := .literal text) rfl fun _ h => nomatch h

theorem builds_pattern (source : String) : Builds a (pattern source) fun _ _ => True :=
  (builds_addRegex_of_leaf (r := .pattern source) rfl fun _ h => nomatch h).mono
    fun _ _ _ => trivial

theorem builds_regexItem (x : RegexItem) : Builds a (regexItem x) fun _ _ => True := by
  cases x with
  | regex id => exact builds_pure trivial
  | source s => exact builds_pattern s

theorem builds_byteSet (bytes : List UInt8) : Builds a (byteSet bytes) fun _ _ => True := by
  have hwell : (Regex.byteSet (Regex.byteSetWords bytes)).WellFormedAt a.regexes.size := by
    refine ⟨fun p hp => absurd hp List.not_mem_nil, fun _ _ _ h => (nomatch h), fun words h => ?_⟩
    obtain rfl := Regex.byteSet.inj h
    rw [Regex.byteSetWords, List.length_map, List.length_range]
  exact (builds_addRegex hwell).mono fun _ _ _ => trivial

/-- Regexes that combine any number of parts. -/
theorem builds_combination (operation : Operation) {parts : List RegexId} {r : Regex RegexId}
    (hparts : r.parts = parts) (hset : ∀ words, r ≠ .byteSet words)
    (hrep : ∀ part min max, r ≠ .repetition part min max) :
    Builds a (do
      parts.forM (needRegex operation)
      addRegex r) fun _ _ => True := by
  refine builds_bind (builds_needRegexes operation parts) ?_
  rintro _ _ - ⟨rfl, hlt⟩
  exact (builds_addRegex_of_parts (hparts ▸ hlt) hset hrep).mono fun _ _ _ => trivial

/-- Regexes of one part. -/
theorem builds_modification (operation : Operation) {part : RegexId} {r : Regex RegexId}
    (hparts : r.parts = [part]) (hset : ∀ words, r ≠ .byteSet words)
    (hrep : ∀ part min max, r ≠ .repetition part min max) :
    Builds a (do
      needRegex operation part
      addRegex r) fun _ _ => True := by
  refine builds_bind (builds_needRegex operation part) ?_
  rintro _ _ - ⟨rfl, hlt⟩
  refine (builds_addRegex_of_parts (fun p hp => ?_) hset hrep).mono fun _ _ _ => trivial
  rw [hparts] at hp
  exact List.mem_singleton.1 hp ▸ hlt

theorem builds_repetition (part : RegexId) (min : UInt32) (max : Option UInt32) :
    Builds a (repetition part min max) fun _ _ => True := by
  refine builds_bind (builds_needRegex .repetition part) ?_
  rintro _ b - ⟨rfl, hlt⟩
  cases hreversed : max.filter (· < min) with
  | some max => exact builds_throw
  | none =>
    refine (builds_addRegex (r := .repetition part min max) ⟨fun p hp => ?_, ?_, fun _ h =>
      nomatch h⟩).mono
      fun _ _ _ => trivial
    · exact List.mem_singleton.1 hp ▸ hlt
    · intro part' min' max' h
      obtain ⟨-, rfl, rfl⟩ := Regex.repetition.inj h
      -- bounds the wrong way round were refused
      have hle := Option.filter_eq_none_iff.1 hreversed max' rfl
      rw [decide_eq_true_eq] at hle
      exact UInt32.not_lt.1 hle

/-! ### Terminals -/

theorem builds_literal (text : String) :
    Builds a (literal text) fun id b => id < b.nodes.size :=
  builds_addNode
    { inlineChildren_lt := fun _ h => absurd h List.not_mem_nil
      start_lt := fun _ _ h => nomatch h
      regexes_lt := fun _ h => absurd h List.not_mem_nil
      inferred := fun _ _ _ _ h => nomatch h
      nullable_eq := rfl }
    (.of_ne_sequence fun _ h => nomatch h)

theorem builds_item (x : Item) : Builds a (item x) fun id b => id < b.nodes.size := by
  cases x with
  | text s => exact builds_literal s
  | node id =>
    refine builds_bind (builds_needNode .grammar id) ?_
    rintro n _ - ⟨rfl, hn⟩
    exact builds_pure (node?_eq_some_lt hn)

theorem builds_items (xs : List Item) :
    Builds a (items xs) fun ids b => ∀ id ∈ ids, id < b.nodes.size := by
  unfold items
  induction xs generalizing a with
  | nil => exact builds_pure fun _ h => absurd h List.not_mem_nil
  | cons x xs ih =>
    rw [List.mapM_cons]
    refine builds_bind (builds_item x) fun id b _ hid => ?_
    refine builds_bind ih fun ids c hbc hids => ?_
    exact builds_pure (List.forall_mem_cons.2 ⟨hbc.grows.lt_size hid, hids⟩)

theorem builds_generationName (options : GenerationOptions) :
    Builds a (generationName options) fun _ _ => True := by
  unfold generationName
  split
  · exact builds_pure trivial
  · exact builds_throw
  · exact builds_pure trivial

/-- The stop that a generation is built with is not an inferred one. -/
theorem builds_generationStop (x : Option StopItem) : Builds a (generationStop x) fun stop _ =>
    ∀ c regex source, stop ≠ .inferred c regex source := by
  unfold generationStop
  split
  · exact builds_pure fun _ _ _ h => nomatch h
  · split
    · exact builds_pure fun _ _ _ h => nomatch h
    · exact builds_bind (builds_regexLiteral _) fun _ _ _ _ =>
        builds_pure fun _ _ _ h => nomatch h
  · exact builds_bind (builds_regexItem _) fun _ _ _ _ =>
      builds_pure fun _ _ _ h => nomatch h

/-- A regex that may be missing is checked before something else is done. -/
theorem builds_checkRegex? {regex : Option RegexId} {m : Builder α} {Q : α → Arena → Prop}
    (hm : (∀ r ∈ regex.toList, r < a.regexes.size) → Builds a m Q) :
    Builds a (match regex with
      | some regex => checkRegex regex >>= fun _ => m
      | none => m) Q := by
  cases regex with
  | none => exact hm fun _ h => absurd h List.not_mem_nil
  | some regex =>
    refine builds_bind (builds_checkRegex regex) ?_
    rintro _ _ - ⟨rfl, hlt⟩
    exact hm (List.forall_mem_singleton.2 hlt)

theorem builds_generation (options : GenerationOptions) :
    Builds a (generation options) fun id b => id < b.nodes.size := by
  refine builds_bind (builds_generationName options) fun name a₁ _ _ => ?_
  refine builds_bind (builds_regexItem _) fun body a₂ _ _ => ?_
  refine builds_bind (builds_checkRegex body) ?_
  rintro _ _ - ⟨rfl, hbody⟩
  refine builds_bind (builds_generationStop options.stop) fun stop a₃ hgrows hstop => ?_
  refine builds_checkRegex? fun hregex => ?_
  refine builds_addNode ⟨fun _ h => absurd h List.not_mem_nil, fun _ _ h => (nomatch h), ?_, ?_,
    rfl⟩ (.of_ne_sequence fun _ h => nomatch h)
  · exact List.forall_mem_cons.2 ⟨hgrows.grows.regex_lt_size hbody, hregex⟩
  · intro g c regex source hg hinferred
    obtain rfl := NodeKind.generation.inj hg
    exact absurd hinferred (hstop c regex source)

theorem builds_lexeme (x : RegexItem) (contextual : Option Bool) (temperature : Option Binary32) :
    Builds a (lexeme x contextual temperature) fun id b => id < b.nodes.size := by
  refine builds_bind (builds_regexItem x) fun regex b _ _ => ?_
  refine builds_bind (builds_checkRegex regex) ?_
  rintro _ _ - ⟨rfl, hregex⟩
  exact builds_addNode
    { inlineChildren_lt := fun _ h => absurd h List.not_mem_nil
      start_lt := fun _ _ h => nomatch h
      regexes_lt := List.forall_mem_singleton.2 hregex
      inferred := fun _ _ _ _ h => nomatch h
      nullable_eq := rfl }
    (.of_ne_sequence fun _ h => nomatch h)

theorem builds_keyword (text : String) :
    Builds a (keyword text) fun id b => id < b.nodes.size :=
  builds_bind (builds_regexLiteral text) fun _ _ _ _ => builds_lexeme _ _ _

theorem builds_choice (alternatives : List Item) :
    Builds a (choice alternatives) fun id b => id < b.nodes.size := by
  refine builds_bind (builds_items alternatives) fun ids b _ hids => ?_
  exact builds_addNode
    { inlineChildren_lt := hids
      start_lt := fun _ _ h => nomatch h
      regexes_lt := fun _ h => absurd h List.not_mem_nil
      inferred := fun _ _ _ _ h => nomatch h
      nullable_eq := rfl }
    (.of_ne_sequence fun _ h => nomatch h)

end GuidedGrammar.Builder
