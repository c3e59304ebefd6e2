import GuidedGrammar.Proofs.Grammar.Derivation
import GuidedGrammar.Proofs.Regex.Tree

/-!
# Growing arenas

An arena grows when nodes and regexes are added behind those it has. The nodes it has stay as they
are, except that a nested grammar can be given its start and a generation an inferred stop, each
once (`Node.Becomes`). What a node derives, and whether it can match the empty text, never
changes (`Derives.grow`, `Derives.shrink`).
-/

namespace GuidedGrammar

/-- **What may become of a node** when its arena grows. -/
inductive Node.Becomes : Node → Node → Prop
  | same (n : Node) : Becomes n n
  | start {props : Props} {nullable : Bool} {skip : Option RegexId} (start : NodeId) :
    Becomes ⟨.nested none skip, props, nullable⟩ ⟨.nested (some start) skip, props, nullable⟩
  | stop {props : Props} {nullable : Bool} {g : Generation} (hg : g.stop = .unset) (c : Char)
    (regex : RegexId) (source : NodeId) :
    Becomes ⟨.generation g, props, nullable⟩
      ⟨.generation { g with stop := .inferred c regex source }, props, nullable⟩

namespace Node.Becomes

variable {n n' n'' : Node}

theorem trans (h : n.Becomes n') (h' : n'.Becomes n'') : n.Becomes n'' := by
  cases h with
  | same => exact h'
  | start s =>
    cases h' with
    | same => exact .start s
  | stop hg c regex source =>
    cases h' with
    | same => exact .stop hg c regex source
    | stop hg' => cases hg'

theorem nullable_eq (h : n.Becomes n') : n'.nullable = n.nullable := by
  cases h <;> rfl

theorem isTerminal_eq (h : n.Becomes n') : n'.isTerminal = n.isTerminal := by
  cases h <;> rfl

theorem literal?_eq (h : n.Becomes n') : n'.literal? = n.literal? := by
  cases h <;> rfl

/-- A generation stays as it is, unless its stop was not set. -/
theorem generation (h : n.Becomes n') {g' : Generation} (hg' : n'.generation? = some g') :
    ∃ g, n.generation? = some g ∧ (g' = g ∨ g.stop = .unset) := by
  cases h with
  | same => exact ⟨g', hg', Or.inl rfl⟩
  | start => cases hg'
  | @stop _ _ g hg => exact ⟨g, rfl, Or.inr hg⟩

/-- A stop that has been inferred stays. -/
theorem inferred (h : n.Becomes n') {g : Generation} (hg : n.generation? = some g)
    (hstop : g.stop ≠ .unset) : n'.generation? = some g := by
  cases h with
  | same => exact hg
  | start => cases hg
  | stop hunset =>
    obtain rfl := Option.some.inj hg
    exact absurd hunset hstop

end Node.Becomes

namespace Arena

/-- An arena grown from another one. -/
structure Grows (a b : Arena) : Prop where
  regexes : a.regexes.Extends b.regexes
  nodes : ∀ (id : NodeId) (n : Node), a.node? id = some n →
    ∃ n', b.node? id = some n' ∧ n.Becomes n'

/-- Everything that a node refers to within its grammar comes before it. -/
def Ordered (a : Arena) : Prop :=
  ∀ (id : NodeId) (n : Node), a.node? id = some n → ∀ x ∈ n.inlineChildren, x < id

namespace Grows

variable {a b c : Arena}

theorem refl (a : Arena) : Grows a a :=
  ⟨RegexStore.Extends.refl _, fun _ n hn => ⟨n, hn, .same n⟩⟩

theorem trans (h : Grows a b) (h' : Grows b c) : Grows a c := by
  refine ⟨h.regexes.trans h'.regexes, fun id n hn => ?_⟩
  obtain ⟨n', hn', hbecomes⟩ := h.nodes id n hn
  obtain ⟨n'', hn'', hbecomes'⟩ := h'.nodes id n' hn'
  exact ⟨n'', hn'', hbecomes.trans hbecomes'⟩

/-- Nodes stay in the arena. -/
theorem lt_size (h : Grows a b) {id : NodeId} (hid : id < a.nodes.size) :
    id < b.nodes.size := by
  obtain ⟨n, hn⟩ := exists_node?_of_lt hid
  obtain ⟨n', hn', -⟩ := h.nodes id n hn
  exact node?_eq_some_lt hn'

/-- Regexes stay in the arena. -/
theorem regex_lt_size (h : Grows a b) {id : RegexId} (hid : id < a.regexes.size) :
    id < b.regexes.size :=
  (Array.getElem?_eq_some_iff.1 (h.regexes id _ (Array.getElem?_eq_getElem hid))).1

theorem literal?_eq (h : Grows a b) {id : NodeId} (hid : id < a.nodes.size) :
    b.literal? id = a.literal? id := by
  obtain ⟨n, hn⟩ := exists_node?_of_lt hid
  obtain ⟨n', hn', hbecomes⟩ := h.nodes id n hn
  rw [literal?, literal?, hn, hn', Option.bind_some, Option.bind_some, hbecomes.literal?_eq]

theorem isNullable_eq (h : Grows a b) {id : NodeId} (hid : id < a.nodes.size) :
    b.isNullable id = a.isNullable id := by
  obtain ⟨n, hn⟩ := exists_node?_of_lt hid
  obtain ⟨n', hn', hbecomes⟩ := h.nodes id n hn
  rw [isNullable, isNullable, hn, hn', Option.any_some, Option.any_some, hbecomes.nullable_eq]

theorem all_isNullable_eq (h : Grows a b) {xs : List NodeId}
    (hxs : ∀ x ∈ xs, x < a.nodes.size) : xs.all b.isNullable = xs.all a.isNullable := by
  rw [Bool.eq_iff_iff, List.all_eq_true, List.all_eq_true]
  exact forall₂_congr fun x hx => by rw [h.isNullable_eq (hxs x hx)]

theorem isTerminal_eq (h : Grows a b) {id : NodeId} (hid : id < a.nodes.size) :
    b.isTerminal id = a.isTerminal id := by
  obtain ⟨n, hn⟩ := exists_node?_of_lt hid
  obtain ⟨n', hn', hbecomes⟩ := h.nodes id n hn
  rw [isTerminal, isTerminal, hn, hn', Option.any_some, Option.any_some, hbecomes.isTerminal_eq]

theorem kind?_choice_iff (h : Grows a b) {id : NodeId} (hid : id < a.nodes.size)
    {xs : List NodeId} : b.kind? id = some (.choice xs) ↔ a.kind? id = some (.choice xs) := by
  obtain ⟨n, hn⟩ := exists_node?_of_lt hid
  obtain ⟨n', hn', hbecomes⟩ := h.nodes id n hn
  rw [kind?, kind?, hn, hn']
  cases hbecomes <;> simp

theorem kind?_sequence_iff (h : Grows a b) {id : NodeId} (hid : id < a.nodes.size)
    {xs : List NodeId} :
    b.kind? id = some (.sequence xs) ↔ a.kind? id = some (.sequence xs) := by
  obtain ⟨n, hn⟩ := exists_node?_of_lt hid
  obtain ⟨n', hn', hbecomes⟩ := h.nodes id n hn
  rw [kind?, kind?, hn, hn']
  cases hbecomes <;> simp

/-- A generation that was there stays as it is, unless its stop was not set. -/
theorem generation? (h : Grows a b) {id : NodeId} (hid : id < a.nodes.size) {g' : Generation}
    (hg' : b.generation? id = some g') :
    ∃ g, a.generation? id = some g ∧ (g' = g ∨ g.stop = .unset) := by
  obtain ⟨n, hn⟩ := exists_node?_of_lt hid
  obtain ⟨n', hn', hbecomes⟩ := h.nodes id n hn
  rw [Arena.generation?, hn', Option.bind_some] at hg'
  rw [Arena.generation?, hn, Option.bind_some]
  exact hbecomes.generation hg'

/-- A stop that is set stays. -/
theorem generation?_of_stop_ne (h : Grows a b) {id : NodeId} {g : Generation}
    (hg : a.generation? id = some g) (hstop : g.stop ≠ .unset) : b.generation? id = some g := by
  obtain ⟨n, hn, hgen⟩ := Option.bind_eq_some_iff.1 hg
  obtain ⟨n', hn', hbecomes⟩ := h.nodes id n hn
  rw [Arena.generation?, hn', Option.bind_some]
  exact hbecomes.inferred hgen hstop

end Grows

/-! ### Derivations are kept -/

section Derivations

variable {a b : Arena}

mutual

/-- What a node derives it derives for good. -/
theorem Derives.grow (h : Grows a b) {id : NodeId} {ts : List NodeId} (hd : a.Derives id ts) :
    b.Derives id ts := by
  have hid := hd.lt_size
  match hd with
  | .terminal hterm => exact .terminal ((h.isTerminal_eq hid).trans hterm)
  | .choice hkind hx hts => exact .choice ((h.kind?_choice_iff hid).2 hkind) hx (hts.grow h)
  | .sequence hkind hts => exact .sequence ((h.kind?_sequence_iff hid).2 hkind) (hts.grow h)

theorem DerivesAll.grow (h : Grows a b) {xs ts : List NodeId} (hd : a.DerivesAll xs ts) :
    b.DerivesAll xs ts := by
  match hd with
  | .nil => exact .nil
  | .cons hx hrest => exact .cons (hx.grow h) (hrest.grow h)

end

/-- What a node that was there refers to within its grammar was there, too. -/
theorem Ordered.lt_size (ha : a.Ordered) {id x : NodeId} {n : Node} (hn : a.node? id = some n)
    (hx : x ∈ n.inlineChildren) : x < a.nodes.size :=
  Nat.lt_trans (ha id n hn x hx) (node?_eq_some_lt hn)

theorem Ordered.lt_size_of_choice (ha : a.Ordered) {id x : NodeId} {alternatives : List NodeId}
    (hid : a.kind? id = some (.choice alternatives)) (hx : x ∈ alternatives) :
    x < a.nodes.size := by
  obtain ⟨n, hn, hkind⟩ := kind?_eq_some.1 hid
  exact ha.lt_size hn (by simpa only [Node.inlineChildren, hkind] using hx)

theorem Ordered.lt_size_of_sequence (ha : a.Ordered) {id x : NodeId} {elements : List NodeId}
    (hid : a.kind? id = some (.sequence elements)) (hx : x ∈ elements) :
    x < a.nodes.size := by
  obtain ⟨n, hn, hkind⟩ := kind?_eq_some.1 hid
  exact ha.lt_size hn (by simpa only [Node.inlineChildren, hkind] using hx)

mutual

/-- What a node that was there derives it derived before. -/
theorem Derives.shrink (ha : a.Ordered) (h : Grows a b) {id : NodeId} {ts : List NodeId}
    (hid : id < a.nodes.size) (hd : b.Derives id ts) : a.Derives id ts := by
  match hd with
  | .terminal hterm => exact .terminal ((h.isTerminal_eq hid).symm.trans hterm)
  | .choice hkind hx hts =>
    -- references within a grammar lead backwards, so the alternative was there, too
    have hkind' := (h.kind?_choice_iff hid).1 hkind
    exact .choice hkind' hx (hts.shrink ha h (ha.lt_size_of_choice hkind' hx))
  | .sequence hkind hts =>
    have hkind' := (h.kind?_sequence_iff hid).1 hkind
    exact .sequence hkind' (hts.shrink ha h fun x hx => ha.lt_size_of_sequence hkind' hx)

theorem DerivesAll.shrink (ha : a.Ordered) (h : Grows a b) {xs ts : List NodeId}
    (hxs : ∀ x ∈ xs, x < a.nodes.size) (hd : b.DerivesAll xs ts) : a.DerivesAll xs ts := by
  match hd with
  | .nil => exact .nil
  | .cons hx hrest =>
    exact .cons (hx.shrink ha h (hxs _ (List.mem_cons_self ..)))
      (hrest.shrink ha h fun x hx => hxs x (List.mem_cons_of_mem _ hx))

end

/-- The terminals of a derivation are nodes of the arena. -/
theorem DerivesAll.mem_lt_size {xs ts : List NodeId} (h : a.DerivesAll xs ts) {t : NodeId}
    (ht : t ∈ ts) : t < a.nodes.size :=
  lt_size_of_isTerminal (h.isTerminal ht)

theorem CanEnd.lt_size {x t : NodeId} (h : a.CanEnd x t) : t < a.nodes.size := by
  obtain ⟨ts, es, hd, -⟩ := h
  exact (DerivesAll.singleton.2 hd).mem_lt_size
    (List.mem_append_right _ (List.mem_cons_self ..))

/-- Lists of nodes that were there consist of empty literals now if they did before. -/
theorem AllEmpty.iff_of_grows (h : Grows a b) {es : List NodeId}
    (hes : ∀ e ∈ es, e < a.nodes.size) : b.AllEmpty es ↔ a.AllEmpty es :=
  forall₂_congr fun e he => by rw [h.literal?_eq (hes e he)]

/-- **What a node can end with** does not change. -/
theorem CanEnd.shrink (ha : a.Ordered) (h : Grows a b) {x t : NodeId} (hx : x < a.nodes.size)
    (hend : b.CanEnd x t) : a.CanEnd x t := by
  obtain ⟨ts, es, hd, hes⟩ := hend
  have hd' := hd.shrink ha h hx
  refine ⟨ts, es, hd', (AllEmpty.iff_of_grows h fun e he => ?_).1 hes⟩
  exact (DerivesAll.singleton.2 hd').mem_lt_size
    (List.mem_append_right _ (List.mem_cons_of_mem _ he))

/-- **What a sequence can start with** does not change. -/
theorem CanStart.shrink (ha : a.Ordered) (h : Grows a b) {xs : List NodeId} {t : NodeId}
    (hxs : ∀ x ∈ xs, x < a.nodes.size) (hstart : b.CanStart xs t) : a.CanStart xs t := by
  obtain ⟨es, ts, hd, hes, ht⟩ := hstart
  have hd' := hd.shrink ha h hxs
  have hlt : t < a.nodes.size :=
    hd'.mem_lt_size (List.mem_append_right _ (List.mem_cons_self ..))
  refine ⟨es, ts, hd', (AllEmpty.iff_of_grows h fun e he => ?_).1 hes, ?_⟩
  · exact hd'.mem_lt_size (List.mem_append_left _ he)
  · rwa [h.literal?_eq hlt] at ht

end Derivations

end Arena

end GuidedGrammar
