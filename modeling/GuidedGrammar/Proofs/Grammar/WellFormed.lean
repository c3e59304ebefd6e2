import Mathlib.Data.List.Chain
import GuidedGrammar.Grammar.Builder
import GuidedGrammar.Proofs.Grammar.Growth

/-!
# Well-formed arenas

In a well-formed arena every reference leads to something that is there, and within a grammar to
something that came before; inferred stops have the literal and the regex they were read from and
written to; and the nullable flag of a node follows from those of the nodes below it.

Consequently every cycle passes through a reference to another grammar
(`WellFormed.exists_isNested_of_cycle`), and a node from which empty literals alone can be
derived has its flag set (`WellFormed.isNullable_of_derives`).
-/

namespace GuidedGrammar

/-! ### What is demanded of regexes and nodes -/

/-- A regex that may stand at a place of a store. -/
structure Regex.WellFormedAt (id : RegexId) (r : Regex RegexId) : Prop where
  /-- Its parts come before it. -/
  parts_lt : ∀ p ∈ r.parts, p < id
  /-- A repetition does not demand more matches than it allows. -/
  bounds : ∀ (part : RegexId) (min max : UInt32), r = .repetition part min (some max) → min ≤ max
  /-- A set of bytes has eight words. -/
  words : ∀ (words : List UInt32), r = .byteSet words → words.length = 8

/-- The regexes that a node refers to. -/
def NodeKind.regexes : NodeKind → List RegexId
  | generation g => g.body :: g.stop.regex?.toList
  | lexeme l => [l.regex]
  | nested _ skip => skip.toList
  | literal _ | choice _ | sequence _ => []

namespace Arena

/-- Whether the id is that of a literal that starts with a character. -/
def StartsWith (a : Arena) (id : NodeId) (c : Char) : Prop :=
  ∃ text, a.literal? id = some text ∧ text.toList.head? = some c

/-- Whether a node of this kind matches the empty text, as the flags of the nodes below it have
it. -/
def matchesEmpty (a : Arena) : NodeKind → Bool
  | .literal text => text.isEmpty
  | .generation _ | .lexeme _ | .nested .. => false
  | .choice alternatives => alternatives.any a.isNullable
  | .sequence elements => elements.all a.isNullable

end Arena

/-- A node that may stand at a place of an arena. -/
structure Node.WellFormedAt (a : Arena) (id : NodeId) (n : Node) : Prop where
  /-- What it refers to within its grammar comes before it. -/
  inlineChildren_lt : ∀ x ∈ n.inlineChildren, x < id
  /-- The start of a nested grammar is there. -/
  start_lt : ∀ (start : NodeId) (skip : Option RegexId), n.kind = .nested (some start) skip →
    start < a.nodes.size
  /-- The regexes it refers to are there. -/
  regexes_lt : ∀ r ∈ n.kind.regexes, r < a.regexes.size
  /-- An inferred stop is the regex of its character, read from a literal that starts with it. -/
  inferred : ∀ (g : Generation) (c : Char) (regex : RegexId) (source : NodeId),
    n.kind = .generation g → g.stop = .inferred c regex source →
      a.regexes[regex]? = some (.literal (String.singleton c)) ∧ a.StartsWith source c
  /-- The nullable flag follows from the nodes below. -/
  nullable_eq : n.nullable = a.matchesEmpty n.kind

/-- An arena in which everything fits together. -/
structure Arena.WellFormed (a : Arena) : Prop where
  regex : ∀ (id : RegexId) (r : Regex RegexId), a.regexes[id]? = some r → r.WellFormedAt id
  node : ∀ (id : NodeId) (n : Node), a.node? id = some n → n.WellFormedAt a id

namespace Arena

variable {a b : Arena}

theorem Grows.startsWith (h : Grows a b) {id : NodeId} {c : Char} (hid : a.StartsWith id c) :
    b.StartsWith id c := by
  obtain ⟨text, htext, hc⟩ := hid
  obtain ⟨n, hn, -⟩ := Option.bind_eq_some_iff.1 htext
  exact ⟨text, (h.literal?_eq (node?_eq_some_lt hn)).trans htext, hc⟩

/-- Flags of nodes that were there give the same answer later. -/
theorem Grows.matchesEmpty_eq (h : Grows a b) {n : Node}
    (hn : ∀ x ∈ n.inlineChildren, x < a.nodes.size) :
    b.matchesEmpty n.kind = a.matchesEmpty n.kind := by
  unfold Node.inlineChildren at hn
  unfold matchesEmpty
  split <;> rename_i hkind <;> try rfl
  · rw [hkind] at hn
    rw [Bool.eq_iff_iff, List.any_eq_true, List.any_eq_true]
    exact exists_congr fun x => and_congr_right fun hx => by rw [h.isNullable_eq (hn x hx)]
  · rw [hkind] at hn
    exact h.all_isNullable_eq hn

end Arena

namespace Node.WellFormedAt

variable {a b : Arena} {id : NodeId} {n : Node}

/-- What an arena demands of its nodes remains fulfilled when it grows. -/
theorem grow (hn : n.WellFormedAt a id) (hid : id ≤ a.nodes.size) (h : a.Grows b) :
    n.WellFormedAt b id where
  inlineChildren_lt := hn.inlineChildren_lt
  start_lt start skip hkind := h.lt_size (hn.start_lt start skip hkind)
  regexes_lt r hr := h.regex_lt_size (hn.regexes_lt r hr)
  inferred g c regex source hkind hstop := by
    obtain ⟨hregex, hsource⟩ := hn.inferred g c regex source hkind hstop
    exact ⟨h.regexes _ _ hregex, h.startsWith hsource⟩
  nullable_eq := by
    rw [hn.nullable_eq]
    exact (h.matchesEmpty_eq fun x hx =>
      Nat.lt_of_lt_of_le (hn.inlineChildren_lt x hx) hid).symm

end Node.WellFormedAt

namespace Arena

variable {a b : Arena}

theorem WellFormed.ordered (ha : a.WellFormed) : a.Ordered :=
  fun id n hn => (ha.node id n hn).inlineChildren_lt

theorem wellFormed_empty : (∅ : Arena).WellFormed where
  regex id r h := absurd h (by rw [show (∅ : Arena).regexes = #[] from rfl]; simp)
  node id n h := absurd h (by rw [node?, show (∅ : Arena).nodes = #[] from rfl]; simp)

/-! ### Cycles -/

/-- An edge to a node directly below, the start of a nested grammar included. -/
def Leads (a : Arena) (x y : NodeId) : Prop :=
  ∃ n, a.node? x = some n ∧ y ∈ n.children

/-- An edge from anything but a nested grammar leads to a node that came before. -/
theorem WellFormed.lt_of_leads (ha : a.WellFormed) {x y : NodeId} (h : a.Leads x y)
    (hx : a.isNested x = false) : y < x := by
  obtain ⟨n, hn, hy⟩ := h
  exact ha.ordered x n hn y (n.mem_inlineChildren ((isNested_eq hn).symm.trans hx) hy)

/-- **Every cycle passes through a nested grammar.** A cycle is given by the nodes that follow its
first node `x`, the last of which is `x` again. -/
theorem WellFormed.exists_isNested_of_cycle (ha : a.WellFormed) {x : NodeId} {walk : List NodeId}
    (hwalk : List.IsChain a.Leads (x :: walk)) (hlast : walk.getLast? = some x) :
    ∃ y ∈ walk, a.isNested y = true := by
  by_contra hnone
  -- otherwise the first node, which is also the last one, comes before itself
  have hplain : ∀ y ∈ walk, a.isNested y = false :=
    fun y hy => Bool.eq_false_iff.2 fun h => hnone ⟨y, hy, h⟩
  have hx : a.isNested x = false := hplain x (List.mem_of_getLast? hlast)
  -- without nested grammars on the way, every step leads to a smaller id
  have hdescend : ∀ (walk : List NodeId) (u : NodeId), List.IsChain a.Leads (u :: walk) →
      a.isNested u = false → (∀ y ∈ walk, a.isNested y = false) → ∀ y ∈ walk, y < u := by
    intro walk
    induction walk with
    | nil => exact fun u _ _ _ y hy => absurd hy List.not_mem_nil
    | cons v walk ih =>
      intro u hchain hu hplain y hy
      obtain ⟨huv, hchain⟩ := List.isChain_cons_cons.1 hchain
      have hvu : v < u := ha.lt_of_leads huv hu
      rcases List.mem_cons.1 hy with rfl | hy
      · exact hvu
      · exact Nat.lt_trans (ih v hchain (hplain v (List.mem_cons_self ..))
          (fun z hz => hplain z (List.mem_cons_of_mem _ hz)) y hy) hvu
  exact Nat.lt_irrefl x (hdescend walk x hwalk hx hplain x (List.mem_of_getLast? hlast))

/-! ### The nullable flag -/

theorem WellFormed.isNullable_eq (ha : a.WellFormed) {id : NodeId} {kind : NodeKind}
    (hid : a.kind? id = some kind) : a.isNullable id = a.matchesEmpty kind := by
  obtain ⟨n, hn, rfl⟩ := kind?_eq_some.1 hid
  rw [isNullable, hn, Option.any_some, (ha.node id n hn).nullable_eq]

mutual

/-- **What derives nothing but empty literals is marked as nullable.** -/
theorem WellFormed.isNullable_of_derives (ha : a.WellFormed) {id : NodeId} {ts : List NodeId}
    (h : a.Derives id ts) (hts : a.AllEmpty ts) : a.isNullable id = true := by
  match h with
  | .terminal _ =>
    have hid := literal?_eq_some.1 (hts id (List.mem_singleton_self id))
    rw [ha.isNullable_eq hid]
    rfl
  | .choice hid hx hd =>
    rw [ha.isNullable_eq hid]
    exact List.any_eq_true.2 ⟨_, hx, ha.isNullable_of_derives hd hts⟩
  | .sequence hid hd =>
    rw [ha.isNullable_eq hid]
    exact ha.all_isNullable_of_derivesAll hd hts

theorem WellFormed.all_isNullable_of_derivesAll (ha : a.WellFormed) {xs ts : List NodeId}
    (h : a.DerivesAll xs ts) (hts : a.AllEmpty ts) : xs.all a.isNullable = true := by
  match h with
  | .nil => rfl
  | .cons hx hrest =>
    rw [List.all_cons, Bool.and_eq_true]
    exact ⟨ha.isNullable_of_derives hx fun t ht => hts t (List.mem_append_left _ ht),
      ha.all_isNullable_of_derivesAll hrest fun t ht => hts t (List.mem_append_right _ ht)⟩

end

end Arena

end GuidedGrammar
