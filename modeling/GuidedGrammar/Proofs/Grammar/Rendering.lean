import GuidedGrammar.Grammar.Printer
import GuidedGrammar.Proofs.Graph.Arrivals
import GuidedGrammar.Proofs.Grammar.Derivation
import GuidedGrammar.Proofs.Regex.Rendering

/-!
# Renderings of nodes

A shortened rendering is cut from the full one: both write the same pieces, and the one that has a
limit stops at the first piece that does not fit (`Arena.isCut_renderWithin`).

What is added to an arena does not show in the renderings of what was there. A generation without a
stop is rendered alike wherever its regex is (`Arena.cite_congr`), since it has nothing else below
it.
-/

namespace GuidedGrammar

namespace Arena

/-! ### Shortened renderings -/

theorem renderWithin_eq_truncate (a : Arena) (limit : Nat) (root : NodeId) :
    a.renderWithin limit root = Text.truncate limit (a.render root) := by
  rw [renderWithin, render, Text.writeWithin_eq_truncate _ _ (Nat.zero_le limit),
    String.empty_append]

/-- **Shortened renderings are cut from full ones**: a rendering is kept if it has no more bytes
than allowed, and else the longest beginning of it that fits and ends between two characters,
followed by an ellipsis. -/
theorem isCut_renderWithin (a : Arena) (limit : Nat) (root : NodeId) :
    Text.IsCut limit (a.render root) (a.renderWithin limit root) := by
  rw [renderWithin_eq_truncate]
  exact Text.isCut_truncate limit (a.render root)

end Arena

/-! ### Generations -/

/-- Writing pieces of text depends on their texts alone. -/
theorem Text.writeWithin_congr {α : Type} {limit : Nat} {f f' : α → String} {pieces : List α}
    (h : ∀ p ∈ pieces, f' p = f p) (written : String) :
    writeWithin limit f' written pieces = writeWithin limit f written pieces := by
  induction pieces generalizing written with
  | nil => rfl
  | cons p ps ih =>
    rw [writeWithin, writeWithin, h p (List.mem_cons_self ..),
      ih fun q hq => h q (List.mem_cons_of_mem _ hq)]

namespace Arena

variable {a b : Arena} {x : NodeId} {n : Node}

/-- From a node without anything below it one arrives at nothing else. -/
theorem arrivals_of_leaf (hn : a.node? x = some n) (hleaf : n.children = []) :
    a.arrivals x = (∅ : Std.TreeMap NodeId Nat).insert x 1 :=
  Digraph.arrivals_of_leaf ((successors_graph hn).trans hleaf)

/-- Pieces are written in order. -/
theorem print_pieces (a : Arena) (arrivals : Std.TreeMap NodeId Nat) (ps : List Piece)
    (seen : Std.TreeSet NodeId) (done : Array Piece) :
    (a.print arrivals (ps.map .piece) seen done).toList = done.toList ++ ps := by
  induction ps generalizing done with
  | nil => rw [List.map_nil, print, List.append_nil]
  | cons p ps ih => rw [List.map_cons, print, ih, Array.toList_push, List.append_assoc]; rfl

/-- The properties of a node are shown as fixed text. -/
theorem exists_propsTasks (n : Node) :
    ∃ ts : List String, n.propsTasks = (ts.map Piece.text).map Node.PrintTask.piece := by
  have helim : ∀ {α : Type} (o : Option α) (f : α → String), ∃ ts : List String,
      (o.elim [] fun y => [Node.write (f y)]) = (ts.map Piece.text).map Node.PrintTask.piece := by
    intro α o f
    cases o with
    | none => exact ⟨[], rfl⟩
    | some y => exact ⟨[f y], rfl⟩
  obtain ⟨ts, hts⟩ := helim n.props.maxTokens fun count => " maxTokens:" ++ toString count.toNat
  obtain ⟨us, hus⟩ := helim n.temperature? fun temperature => " temp:" ++ temperature.display
  obtain ⟨vs, hvs⟩ := helim n.props.captureName fun name => " name:" ++ Text.quote name
  refine ⟨ts ++ us ++ vs, ?_⟩
  rw [Node.propsTasks, hts, hus, hvs]
  simp only [List.map_append]

/-- The tasks that show a generation without a stop: its heading, its regex, and fixed text. -/
theorem exists_printTasks {g : Generation} (hkind : n.kind = .generation g)
    (hstop : g.stop.regex? = none) : ∃ ts : List String, ∀ heading : Piece, n.printTasks heading =
      (heading :: .text "gen(regex:" :: .regex g.body :: ts.map Piece.text).map .piece := by
  obtain ⟨ts, hts⟩ := exists_propsTasks n
  refine ⟨ts ++ [")"], fun heading => ?_⟩
  rw [Node.printTasks, hkind]
  simp only [hstop, Option.elim_none, List.nil_append, hts, List.map_cons, List.map_append]
  rfl

/-- The pieces of a generation without a stop, wherever it is. -/
theorem exists_pieces {g : Generation} (hkind : n.kind = .generation g)
    (hstop : g.stop.regex? = none) : ∃ ts : List String, ∀ a : Arena, a.node? x = some n →
      a.pieces x = .heading x (1 < (a.arrivals x).getD x 0) :: .text "gen(regex:" ::
        .regex g.body :: ts.map Piece.text := by
  obtain ⟨ts, hts⟩ := exists_printTasks hkind hstop
  refine ⟨ts, fun a hn => ?_⟩
  have hlt : x < a.nodes.size := node?_eq_some_lt hn
  have hget : a.nodes[x] = n := (Array.getElem?_eq_some_iff.1 hn).2
  have hnew : x ∉ (∅ : Std.TreeSet Nat) := Std.TreeSet.not_mem_emptyc
  rw [pieces, print, if_neg hnew, dif_pos hlt, hget]
  dsimp only
  rw [hts, List.append_nil, print_pieces]
  rfl

/-- **A generation without a stop is cited alike** where its regex is rendered alike. -/
theorem cite_congr {g : Generation} (hn : a.node? x = some n) (hn' : b.node? x = some n)
    (hkind : n.kind = .generation g) (hstop : g.stop.regex? = none)
    (hbody : Regex.render b.regexes g.body = Regex.render a.regexes g.body) :
    b.cite x = a.cite x := by
  obtain ⟨ts, hpieces⟩ := exists_pieces (x := x) hkind hstop
  have hleaf : n.children = [] := by rw [Node.children, hkind]
  have harrivals : b.arrivals x = a.arrivals x :=
    (arrivals_of_leaf hn' hleaf).trans (arrivals_of_leaf hn hleaf).symm
  have hsame : b.pieces x = a.pieces x := by rw [hpieces a hn, hpieces b hn', harrivals]
  rw [cite, cite, renderWithin, renderWithin, hsame, Text.writeWithin_congr]
  -- only the regex among the pieces depends on the arena
  intro p hp
  rw [hpieces a hn] at hp
  rcases List.mem_cons.1 hp with rfl | hp
  · cases decide (1 < (a.arrivals x).getD x 0) <;> rfl
  rcases List.mem_cons.1 hp with rfl | hp
  · rfl
  rcases List.mem_cons.1 hp with rfl | hp
  · exact hbody
  · obtain ⟨t, -, rfl⟩ := List.mem_map.1 hp
    rfl

end Arena

end GuidedGrammar
