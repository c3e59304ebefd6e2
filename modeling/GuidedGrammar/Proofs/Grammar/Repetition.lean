import Mathlib.Computability.Language
import GuidedGrammar.Proofs.Grammar.Frame
import GuidedGrammar.Proofs.Grammar.FrontierOrder

/-!
# Repetitions denote repetition

A repetition of an item is a nested grammar that refers to itself: its start is a choice between
what comes first and a sequence of the nested grammar and the item. Derivations that stop at nested
grammars do not see the loop, so here a reference to a nested grammar derives what its start
derives, and a placeholder without a start derives nothing (`Arena.Expands`). The lists of terminals
that a node derives are its language (`Arena.language`).

The loop is closed through a placeholder, and a sequence is built before the placeholder has its
start. Nothing can go wrong on the way, as a nested grammar has no generation that waits for a stop,
and no more than the nodes of the loop is added (`Builder.loop_run`). The language of the loop is
the least one that its two rules allow (`Arena.Loops.language_eq`). Put together, repetitions can be
built of every known item, change nothing that was there, and have the language that their names
promise (`Builder.repetitions_denote`).
-/

namespace GuidedGrammar

open scoped Computability

namespace Arena

variable {a b : Arena}

/-! ### Derivations through nested grammars -/

mutual

/-- **What a node derives when nested grammars are entered.** -/
inductive Expands (a : Arena) : NodeId → List NodeId → Prop
  | terminal {id : NodeId} (hid : a.isTerminal id = true) (hplain : a.isNested id = false) :
    Expands a id [id]
  | nested {id start : NodeId} {skip : Option RegexId} {ts : List NodeId}
    (hid : a.kind? id = some (.nested (some start) skip)) (hts : Expands a start ts) :
    Expands a id ts
  | choice {id x : NodeId} {alternatives ts : List NodeId}
    (hid : a.kind? id = some (.choice alternatives)) (hx : x ∈ alternatives)
    (hts : Expands a x ts) : Expands a id ts
  | sequence {id : NodeId} {elements ts : List NodeId}
    (hid : a.kind? id = some (.sequence elements)) (hts : ExpandsAll a elements ts) :
    Expands a id ts

/-- What nodes derive one after the other when nested grammars are entered. -/
inductive ExpandsAll (a : Arena) : List NodeId → List NodeId → Prop
  | nil : ExpandsAll a [] []
  | cons {x : NodeId} {rest ts us : List NodeId} (hx : Expands a x ts)
    (hrest : ExpandsAll a rest us) : ExpandsAll a (x :: rest) (ts ++ us)

end

/-- **The language of a node**: all that it derives when nested grammars are entered. -/
def language (a : Arena) (id : NodeId) : Language NodeId :=
  {ts | a.Expands id ts}

theorem mem_language {id : NodeId} {ts : List NodeId} : ts ∈ a.language id ↔ a.Expands id ts :=
  Iff.rfl

theorem ExpandsAll.singleton {x : NodeId} {ts : List NodeId} (h : a.ExpandsAll [x] ts) :
    a.Expands x ts := by
  cases h with
  | cons hx hrest =>
    cases hrest
    rwa [List.append_nil]

/-- A literal derives itself and nothing else. -/
theorem language_of_literal {id : NodeId} {text : String} (h : a.kind? id = some (.literal text)) :
    a.language id = {[id]} := by
  obtain ⟨n, hn, hkind⟩ := kind?_eq_some.1 h
  refine Language.ext fun ts => ⟨fun hts => ?_, ?_⟩
  · cases mem_language.1 hts with
    | terminal => rfl
    | nested hid | choice hid | sequence hid => cases h.symm.trans hid
  · rintro rfl
    refine .terminal (isTerminal_iff.2 ⟨n, hn, by rw [Node.isTerminal, hkind]⟩) ?_
    rw [isNested_eq hn, Node.isNested, hkind]

/-! ### Languages of nodes that stay -/

namespace Extends

theorem node?_eq (h : a.Extends b) {id : NodeId} (hid : id < a.nodes.size) :
    b.node? id = a.node? id := by
  obtain ⟨n, hn⟩ := exists_node?_of_lt hid
  rw [hn, h.nodes id n hn]

theorem kind?_eq (h : a.Extends b) {id : NodeId} (hid : id < a.nodes.size) :
    b.kind? id = a.kind? id := by
  rw [kind?, kind?, h.node?_eq hid]

theorem isTerminal_eq (h : a.Extends b) {id : NodeId} (hid : id < a.nodes.size) :
    b.isTerminal id = a.isTerminal id := by
  rw [isTerminal, isTerminal, h.node?_eq hid]

theorem isNested_eq (h : a.Extends b) {id : NodeId} (hid : id < a.nodes.size) :
    b.isNested id = a.isNested id := by
  rw [isNested, isNested, h.node?_eq hid]

end Extends

/-- The start of a nested grammar is there. -/
theorem WellFormed.start_lt_size (ha : a.WellFormed) {id start : NodeId} {skip : Option RegexId}
    (hid : a.kind? id = some (.nested (some start) skip)) : start < a.nodes.size := by
  obtain ⟨n, hn, hkind⟩ := kind?_eq_some.1 hid
  exact (ha.node id n hn).start_lt start skip hkind

mutual

/-- What a node derives it derives as long as all nodes stay. -/
theorem Expands.extend (ha : a.WellFormed) (h : a.Extends b) {id : NodeId} {ts : List NodeId}
    (hid : id < a.nodes.size) (hd : a.Expands id ts) : b.Expands id ts := by
  match hd with
  | .terminal hterm hplain =>
    exact .terminal ((h.isTerminal_eq hid).trans hterm) ((h.isNested_eq hid).trans hplain)
  | .nested hkind hts =>
    exact .nested ((h.kind?_eq hid).trans hkind) (hts.extend ha h (ha.start_lt_size hkind))
  | .choice hkind hx hts =>
    exact .choice ((h.kind?_eq hid).trans hkind) hx
      (hts.extend ha h (ha.ordered.lt_size_of_choice hkind hx))
  | .sequence hkind hts =>
    exact .sequence ((h.kind?_eq hid).trans hkind)
      (hts.extend ha h fun x hx => ha.ordered.lt_size_of_sequence hkind hx)

theorem ExpandsAll.extend (ha : a.WellFormed) (h : a.Extends b) {xs ts : List NodeId}
    (hxs : ∀ x ∈ xs, x < a.nodes.size) (hd : a.ExpandsAll xs ts) : b.ExpandsAll xs ts := by
  match hd with
  | .nil => exact .nil
  | .cons hx hrest =>
    exact .cons (hx.extend ha h (hxs _ (List.mem_cons_self ..)))
      (hrest.extend ha h fun x hx => hxs x (List.mem_cons_of_mem _ hx))

end

mutual

/-- What a node that was there derives it derived before, if all nodes have stayed. -/
theorem Expands.restrict (ha : a.WellFormed) (h : a.Extends b) {id : NodeId} {ts : List NodeId}
    (hid : id < a.nodes.size) (hd : b.Expands id ts) : a.Expands id ts := by
  match hd with
  | .terminal hterm hplain =>
    exact .terminal ((h.isTerminal_eq hid).symm.trans hterm) ((h.isNested_eq hid).symm.trans hplain)
  | .nested hkind hts =>
    have hkind' := (h.kind?_eq hid).symm.trans hkind
    exact .nested hkind' (hts.restrict ha h (ha.start_lt_size hkind'))
  | .choice hkind hx hts =>
    have hkind' := (h.kind?_eq hid).symm.trans hkind
    exact .choice hkind' hx (hts.restrict ha h (ha.ordered.lt_size_of_choice hkind' hx))
  | .sequence hkind hts =>
    have hkind' := (h.kind?_eq hid).symm.trans hkind
    exact .sequence hkind' (hts.restrict ha h fun x hx => ha.ordered.lt_size_of_sequence hkind' hx)

theorem ExpandsAll.restrict (ha : a.WellFormed) (h : a.Extends b) {xs ts : List NodeId}
    (hxs : ∀ x ∈ xs, x < a.nodes.size) (hd : b.ExpandsAll xs ts) : a.ExpandsAll xs ts := by
  match hd with
  | .nil => exact .nil
  | .cons hx hrest =>
    exact .cons (hx.restrict ha h (hxs _ (List.mem_cons_self ..)))
      (hrest.restrict ha h fun x hx => hxs x (List.mem_cons_of_mem _ hx))

end

/-- **Languages stay** when nodes are only added. -/
theorem WellFormed.language_eq (ha : a.WellFormed) (h : a.Extends b) {id : NodeId}
    (hid : id < a.nodes.size) : b.language id = a.language id :=
  Language.ext fun _ => ⟨fun hts => hts.restrict ha h hid, fun hts => hts.extend ha h hid⟩

/-! ### The language of a loop -/

/-- A loop that is closed through the nested grammar `repeated`: its start is a choice between
`first` and a sequence of the nested grammar and `once`. -/
structure Loops (a : Arena) (repeated more body first once : NodeId) : Prop where
  nested : a.kind? repeated = some (.nested (some body) none)
  sequence : a.kind? more = some (.sequence [repeated, once])
  choice : a.kind? body = some (.choice [first, more])

/-- The rules of a loop allow to begin with what comes first. -/
theorem Loops.first_le {repeated more body first once : NodeId}
    (h : a.Loops repeated more body first once) :
    a.language first ≤ a.language repeated := by
  intro ts hts
  exact .nested h.nested (.choice h.choice (List.mem_cons_self ..) hts)

/-- The rules of a loop allow to go on with the item. -/
theorem Loops.mul_once_le {repeated more body first once : NodeId}
    (h : a.Loops repeated more body first once) :
    a.language repeated * a.language once ≤ a.language repeated := by
  intro ts hts
  obtain ⟨us, hus, vs, hvs, rfl⟩ := Language.mem_mul.1 hts
  have hall : a.ExpandsAll [repeated, once] (us ++ (vs ++ [])) := .cons hus (.cons hvs .nil)
  rw [List.append_nil] at hall
  exact .nested h.nested (.choice h.choice (List.mem_cons_of_mem _ (List.mem_singleton_self more))
    (.sequence h.sequence hall))

/-- The nodes of a loop are no terminals but for the nested grammar, which is entered. -/
theorem Loops.not_terminal {repeated more body first once id : NodeId}
    (h : a.Loops repeated more body first once) (hid : id = repeated ∨ id = more ∨ id = body)
    (hterm : a.isTerminal id = true) : a.isNested id = true := by
  rcases hid with rfl | rfl | rfl
  · exact isNested_iff.2 ⟨_, _, h.nested⟩
  · exact absurd h.sequence (kind?_of_isTerminal hterm).2
  · exact absurd h.choice (kind?_of_isTerminal hterm).1

mutual

/-- Nothing else is derived by the nodes of a loop than what comes first, followed by items. -/
theorem Expands.mem_of_loops {repeated more body first once id : NodeId} {ts : List NodeId}
    (h : a.Loops repeated more body first once) (hd : a.Expands id ts)
    (hid : id = repeated ∨ id = more ∨ id = body) :
    ts ∈ a.language first * (a.language once)∗ := by
  match hd with
  | .terminal hterm hplain =>
    rw [h.not_terminal hid hterm] at hplain
    cases hplain
  | .nested hkind hts =>
    -- of the nodes of the loop, only one is a nested grammar, and it leads to the choice
    rcases hid with hid | hid | hid <;> rw [hid] at hkind
    · obtain ⟨hstart, -⟩ := NodeKind.nested.inj (Option.some.inj (hkind.symm.trans h.nested))
      exact hts.mem_of_loops h (Or.inr (Or.inr (Option.some.inj hstart)))
    · cases hkind.symm.trans h.sequence
    · cases hkind.symm.trans h.choice
  | .choice hkind hx hts =>
    rcases hid with hid | hid | hid <;> rw [hid] at hkind
    · cases hkind.symm.trans h.nested
    · cases hkind.symm.trans h.sequence
    · rw [NodeKind.choice.inj (Option.some.inj (hkind.symm.trans h.choice))] at hx
      rcases List.mem_cons.1 hx with hx | hx
      · -- the loop is left
        rw [hx] at hts
        have hnone := Language.append_mem_mul hts (Language.nil_mem_kstar (a.language once))
        rwa [List.append_nil] at hnone
      · exact hts.mem_of_loops h (Or.inr (Or.inl (List.mem_singleton.1 hx)))
  | .sequence hkind hts =>
    rcases hid with hid | hid | hid <;> rw [hid] at hkind
    · cases hkind.symm.trans h.nested
    · exact hts.mem_of_loops h
        (NodeKind.sequence.inj (Option.some.inj (hkind.symm.trans h.sequence)))
    · cases hkind.symm.trans h.choice

theorem ExpandsAll.mem_of_loops {repeated more body first once : NodeId} {xs ts : List NodeId}
    (h : a.Loops repeated more body first once) (hd : a.ExpandsAll xs ts)
    (hxs : xs = [repeated, once]) : ts ∈ a.language first * (a.language once)∗ := by
  match hd with
  | .nil => cases hxs
  | .cons hx hrest =>
    obtain ⟨hhead, htail⟩ := List.cons.inj hxs
    rw [htail] at hrest
    have honce := mem_language.2 hrest.singleton
    have hmore := Language.append_mem_mul (hx.mem_of_loops h (Or.inl hhead)) honce
    rw [mul_assoc] at hmore
    exact mul_le_mul_right kstar_mul_le_kstar (a.language first) hmore

end

/-- **The language of a loop** is what comes first, followed by any number of items. -/
theorem Loops.language_eq {repeated more body first once : NodeId}
    (h : a.Loops repeated more body first once) :
    a.language repeated = a.language first * (a.language once)∗ :=
  le_antisymm (fun _ hts => hts.mem_of_loops h (Or.inl rfl)) (mul_kstar_le h.first_le h.mul_once_le)

/-! ### Building a loop -/

/-- The arena with a choice. -/
def withChoice (a : Arena) (alternatives : List NodeId) : Arena :=
  a.withNode ⟨.choice alternatives, {}, alternatives.any a.isNullable⟩

/-- The arena with a placeholder. -/
def withPlaceholder (a : Arena) : Arena :=
  a.withNode ⟨.nested none none, {}, false⟩

/-- The arena with a loop: the nested grammar, the sequence and the choice, in this order. -/
def withLoop (a : Arena) (first once : NodeId) : Arena :=
  ((a.withPlaceholder.withSequence [a.nodes.size, once] []).withChoice
    [first, a.nodes.size + 1]).change a.nodes.size (Builder.withStart (a.nodes.size + 2))

theorem size_withPlaceholder (a : Arena) : a.withPlaceholder.nodes.size = a.nodes.size + 1 :=
  size_withNode a _

theorem size_withSequence (a : Arena) (ids : List NodeId) :
    (a.withSequence ids []).nodes.size = a.nodes.size + 1 :=
  size_withNode a _

theorem node?_withPlaceholder (a : Arena) :
    a.withPlaceholder.node? a.nodes.size = some ⟨.nested none none, {}, false⟩ := by
  rw [withPlaceholder, node?_withNode, if_pos rfl]

theorem extends_withChoice (a : Arena) (alternatives : List NodeId) :
    a.Extends (a.withChoice alternatives) :=
  .withNode a _

theorem extends_withSequence (a : Arena) (ids : List NodeId) : a.Extends (a.withSequence ids []) :=
  .withNode a _

theorem extends_withLoop (a : Arena) (first once : NodeId) : a.Extends (a.withLoop first once) := by
  have hadd := ((Extends.withNode a ⟨.nested none none, {}, false⟩).trans
    (extends_withSequence a.withPlaceholder [a.nodes.size, once])).trans
    (extends_withChoice _ [first, a.nodes.size + 1])
  refine ⟨hadd.regexes, fun x n hn => ?_⟩
  -- the placeholder, which is given its start, is new itself
  rw [withLoop, node?_change, if_neg (Nat.ne_of_gt (node?_eq_some_lt hn))]
  exact hadd.nodes x n hn

theorem kind?_withLoop_of_ne {first once : NodeId} {x : NodeId} (hx : a.nodes.size ≠ x) :
    (a.withLoop first once).kind? x = ((a.withPlaceholder.withSequence [a.nodes.size, once]
      []).withChoice [first, a.nodes.size + 1]).kind? x := by
  rw [kind?, withLoop, node?_change, if_neg hx, ← kind?]

theorem loops_withLoop (a : Arena) (first once : NodeId) : (a.withLoop first once).Loops
    a.nodes.size (a.nodes.size + 1) (a.nodes.size + 2) first once where
  nested := by
    -- the sequence and the choice come behind the placeholder and leave it as it is
    have hadd := (extends_withSequence a.withPlaceholder [a.nodes.size, once]).trans
      (extends_withChoice _ [first, a.nodes.size + 1])
    rw [kind?, withLoop, node?_change, if_pos rfl, hadd.nodes _ _ (node?_withPlaceholder a)]
    rfl
  sequence := by
    have hsequence := kind?_withSequence a.withPlaceholder [a.nodes.size, once] []
    rw [size_withPlaceholder] at hsequence
    rw [kind?_withLoop_of_ne (Nat.succ_ne_self _).symm,
      (extends_withChoice _ _).kind?_eq (lt_size_of_kind? hsequence), hsequence]
  choice := by
    rw [kind?_withLoop_of_ne (Nat.ne_of_lt (Nat.lt_add_of_pos_right Nat.zero_lt_two)), kind?,
      withChoice, node?_withNode, if_pos (by rw [size_withSequence, size_withPlaceholder]),
      Option.map_some]

end Arena

namespace Builder

open Arena

variable {a : Arena}

/-- A sequence of a nested grammar and another node is built without setting a stop. -/
theorem sequence_run_of_isNested {x y : NodeId} (hx : a.isNested x = true)
    (hlt : ∀ z ∈ [x, y], z < a.nodes.size) :
    sequence [.node x, .node y] a = .ok a.nodes.size (a.withSequence [x, y] []) := by
  have hinfer : a.inferStops [x, y] = .ok [] := by
    show [(x, [y])].foldlM a.chooseAtBoundary [] = _
    rw [List.foldlM_cons, chooseAtBoundary, pending_of_isNested hx]
    rfl
  exact sequence_run (items_run_of_lt hlt) hinfer

/-- A choice between known nodes is built. -/
theorem choice_run_of_lt {xs : List NodeId} (hxs : ∀ x ∈ xs, x < a.nodes.size) :
    choice (xs.map .node) a = .ok a.nodes.size (a.withChoice xs) := by
  refine (run_bind_of_ok (items_run_of_lt hxs)).trans ?_
  rfl

/-- A placeholder is given a known node as its start. -/
theorem define_run_of_lt {id start : NodeId} {skip : Option RegexId}
    (hid : a.kind? id = some (.nested none skip)) (hstart : start < a.nodes.size) :
    define id (.node start) a = .ok () (a.change id (withStart start)) := by
  obtain ⟨n, hn, hkind⟩ := kind?_eq_some.1 hid
  obtain ⟨m, hm⟩ := exists_node?_of_lt hstart
  have hitem : item (.node start) a = .ok start a := run_bind_of_ok (needNode_of_some hm)
  unfold define
  rw [run_bind_of_ok hitem, run_bind_of_ok (needNode_of_some hn), hkind]
  rfl

/-- **Closing a loop succeeds** for known nodes, and adds the nodes of the loop. -/
theorem loop_run {first once : NodeId} (hfirst : first < a.nodes.size)
    (honce : once < a.nodes.size) : (do
      let repeated ← placeholder
      let more ← sequence [.node repeated, .node once]
      let body ← choice [.node first, .node more]
      define repeated (.node body)
      return repeated) a = .ok a.nodes.size (a.withLoop first once) := by
  -- no generation comes last in a nested grammar, so the sequence has no stop to infer
  have hnested : a.withPlaceholder.isNested a.nodes.size = true := by
    rw [isNested, node?_withPlaceholder, Option.any_some, Node.isNested]
  have hsequence : ∀ z ∈ [a.nodes.size, once], z < a.withPlaceholder.nodes.size := by
    rw [size_withPlaceholder]
    exact List.forall_mem_cons.2 ⟨Nat.lt_succ_self _,
      List.forall_mem_singleton.2 (Nat.lt_succ_of_lt honce)⟩
  have hchoice : ∀ z ∈ [first, a.withPlaceholder.nodes.size],
      z < (a.withPlaceholder.withSequence [a.nodes.size, once] []).nodes.size := by
    rw [size_withSequence, size_withPlaceholder]
    exact List.forall_mem_cons.2 ⟨Nat.lt_succ_of_lt (Nat.lt_succ_of_lt hfirst),
      List.forall_mem_singleton.2 (Nat.lt_succ_self _)⟩
  have hadd := (extends_withSequence a.withPlaceholder [a.nodes.size, once]).trans
    (extends_withChoice _ [first, a.withPlaceholder.nodes.size])
  have hplaceholder := hadd.nodes _ _ (node?_withPlaceholder a)
  have hdefine := define_run_of_lt (kind?_eq_some.2 ⟨_, hplaceholder, rfl⟩)
    (Nat.lt_of_lt_of_eq (Nat.lt_succ_self _) (size_withNode _ _).symm)
  rw [run_bind_of_ok (placeholder_run a), ← withPlaceholder,
    run_bind_of_ok (sequence_run_of_isNested hnested hsequence),
    run_bind_of_ok (m := choice [.node first, .node a.withPlaceholder.nodes.size])
      (choice_run_of_lt hchoice), run_bind_of_ok hdefine]
  rw [size_withSequence, size_withPlaceholder]
  rfl

end Builder

/-! ### Repetitions -/

/-- Whether an item is text or a known node. -/
def Item.Known (a : Arena) : Item → Prop
  | .node id => id < a.nodes.size
  | .text _ => True

/-- The node that an item stands for when `a` has become `b`: a node for itself, and text for a
new literal. -/
inductive Item.StandsFor (a b : Arena) : Item → NodeId → Prop
  | node {id : NodeId} (hid : id < a.nodes.size) : StandsFor a b (.node id) id
  | text {s : String} {id : NodeId} (hnew : a.nodes.size ≤ id)
    (hid : b.kind? id = some (.literal s)) : StandsFor a b (.text s) id

/-- Whether all regexes, nodes and languages are kept. -/
structure Arena.Keeps (a b : Arena) : Prop where
  regexes : b.regexes = a.regexes
  nodes : ∀ id n, a.node? id = some n → b.node? id = some n
  languages : ∀ id < a.nodes.size, b.language id = a.language id

namespace Builder

open Arena

variable {a b : Arena}

/-- What an item stands for it stands for as long as nodes are only added. -/
theorem standsFor_of_extends {c : Arena} {x : Item} {id : NodeId} (h : x.StandsFor a b id)
    (hbc : b.Extends c) : x.StandsFor a c id := by
  cases h with
  | node hid => exact .node hid
  | text hnew hid => exact .text hnew ((hbc.kind?_eq (lt_size_of_kind? hid)).trans hid)

theorem literal_run (text : String) (a : Arena) :
    literal text a = .ok a.nodes.size (a.withNode ⟨.literal text, {}, text.isEmpty⟩) :=
  rfl

theorem kind?_withNode_self (a : Arena) (n : Node) :
    (a.withNode n).kind? a.nodes.size = some n.kind := by
  rw [kind?, node?_withNode, if_pos rfl, Option.map_some]

/-- An item of text or of a known node is built without touching anything else. -/
theorem exists_item_run {x : Item} (hx : x.Known a) : ∃ once b, item x a = .ok once b ∧
    once < b.nodes.size ∧ a.Extends b ∧ b.regexes = a.regexes ∧ x.StandsFor a b once := by
  cases x with
  | node id =>
    obtain ⟨n, hn⟩ := exists_node?_of_lt hx
    exact ⟨id, a, run_bind_of_ok (needNode_of_some hn), hx, .refl a, rfl, .node hx⟩
  | text s =>
    refine ⟨a.nodes.size, _, literal_run s a, ?_, .withNode a _, rfl, ?_⟩
    · rw [size_withNode]
      exact Nat.lt_succ_self _
    · exact .text (Nat.le_refl _) (kind?_withNode_self a _)

/-- What is added to a well-formed arena without a regex keeps it all. -/
theorem keeps_of_extends (ha : a.WellFormed) (h : a.Extends b) (hregexes : b.regexes = a.regexes) :
    a.Keeps b :=
  ⟨hregexes, h.nodes, fun _ hid => ha.language_eq h hid⟩

/-- **Repetitions denote repetition.** For text and for every known node, both repetitions can be
built; they keep all nodes and regexes, and what the nodes derive. One or more repetitions derive
one or more derivations of the item, one after the other. Any number of repetitions derive the empty
literal and then any number of derivations of the item. -/
theorem repetitions_denote (calls : List Call) (x : Item) (hx : x.Known (ofCalls calls)) :
    (∃ repeated b once, oneOrMore x (ofCalls calls) = .ok repeated b ∧ (ofCalls calls).Keeps b ∧
      x.StandsFor (ofCalls calls) b once ∧
      b.language repeated = b.language once * (b.language once)∗) ∧
    ∃ repeated b once empty, zeroOrMore x (ofCalls calls) = .ok repeated b ∧
      (ofCalls calls).Keeps b ∧ x.StandsFor (ofCalls calls) b once ∧ b.literal? empty = some "" ∧
      b.language repeated = {[empty]} * (b.language once)∗ := by
  have ha := (consistent_ofCalls calls).toWellFormed
  obtain ⟨once, b, hitem, honce, hadd, hregexes, hstands⟩ := exists_item_run hx
  constructor
  · -- one or more: the loop begins with the item itself
    have hloop := extends_withLoop b once once
    exact ⟨_, _, once, (run_bind_of_ok hitem).trans (loop_run honce honce),
      keeps_of_extends ha (hadd.trans hloop) hregexes, standsFor_of_extends hstands hloop,
      (loops_withLoop b once once).language_eq⟩
  · -- the loop begins with the empty literal, which is added after the item
    have hempty := Extends.withNode b ⟨.literal "", {}, true⟩
    have hlt : ∀ z ≤ b.nodes.size, z < (b.withNode ⟨.literal "", {}, true⟩).nodes.size := by
      rw [size_withNode]
      exact fun z hz => Nat.lt_succ_of_le hz
    have hloop := extends_withLoop (b.withNode ⟨.literal "", {}, true⟩) b.nodes.size once
    have hliteral := kind?_withNode_self b ⟨.literal "", {}, true⟩
    rw [← hloop.kind?_eq (hlt _ (Nat.le_refl _))] at hliteral
    refine ⟨_, _, once, b.nodes.size, (run_bind_of_ok hitem).trans
      ((run_bind_of_ok (literal_run "" b)).trans
        (loop_run (hlt _ (Nat.le_refl _)) (hlt _ (Nat.le_of_lt honce)))),
      keeps_of_extends ha ((hadd.trans hempty).trans hloop) hregexes,
      standsFor_of_extends hstands (hempty.trans hloop), literal?_eq_some.2 hliteral, ?_⟩
    rw [← language_of_literal hliteral]
    exact (loops_withLoop _ _ _).language_eq

/-- Two letters are one or more letters, and after the empty literal any number of them. -/
theorem repetitions_denote_letters :
    (∃ repeated b, oneOrMore (.node 0) (ofCalls [.literal "a"]) = .ok repeated b ∧
      b.Expands repeated [0, 0]) ∧
    ∃ repeated b empty, zeroOrMore (.node 0) (ofCalls [.literal "a"]) = .ok repeated b ∧
      b.literal? empty = some "" ∧ b.Expands repeated [empty, 0, 0] := by
  have hkind : (ofCalls [.literal "a"]).kind? 0 = some (.literal "a") := by cbv
  obtain ⟨n, hn, -⟩ := kind?_eq_some.1 hkind
  have hletter : ∀ b : Arena, (ofCalls [.literal "a"]).Keeps b → [0] ∈ b.language 0 := by
    intro b hkeeps
    rw [hkeeps.languages 0 (node?_eq_some_lt hn), language_of_literal hkind]
    exact Set.mem_singleton _
  have hletters : ∀ b : Arena, (ofCalls [.literal "a"]).Keeps b → [0, 0] ∈ (b.language 0)∗ :=
    fun b hkeeps => Language.join_mem_kstar (L := [[0], [0]]) (by simp [hletter b hkeeps])
  obtain ⟨⟨r, b, once, hrun, hkeeps, hstands, hone⟩, r', b', once', empty, hrun', hkeeps', hstands',
    hempty, hzero⟩ := repetitions_denote [.literal "a"] (.node 0) (node?_eq_some_lt hn)
  cases hstands
  cases hstands'
  refine ⟨⟨r, b, hrun, mem_language.1 ?_⟩, r', b', empty, hrun', hempty, mem_language.1 ?_⟩
  · rw [hone]
    have hone' : [0] ∈ (b.language 0)∗ :=
      Language.join_mem_kstar (L := [[0]]) (by simp [hletter b hkeeps])
    exact Language.append_mem_mul (hletter b hkeeps) hone'
  · rw [hzero]
    exact Language.append_mem_mul (Set.mem_singleton [empty]) (hletters b' hkeeps')

end Builder

end GuidedGrammar
