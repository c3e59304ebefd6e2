import GuidedGrammar.Proofs.Grammar.Construction

/-!
# What follows a generation

A generation whose stop was inferred ends where the text that follows starts. The question is
whether the stop agrees with everything that can follow the generation in a derivation, and not
only with what its own sequence puts after it.

Two terminals that follow each other in a derivation, up to empty literals, meet at a boundary of
one sequence below the node (`MeetsAt`, `derives_iff_exists_meetsAt`). So what can follow is settled
boundary by boundary. All boundaries count, those of sequences that were added later than the one
that inferred the stop included, except the boundaries that inference leaves alone because the
right side may match the empty text.
-/

namespace GuidedGrammar.Arena

variable {a : Arena}

/-- **Where two terminals of a derivation meet.** The node `id` derives
`ts ++ g :: (es ++ u :: us)`, where `es` are empty literals; `g` is derived from `x` and `u` from
`rest`, which are what stands before and after a boundary of a sequence. -/
inductive MeetsAt (a : Arena) (x : NodeId) (rest : List NodeId) (g u : NodeId) :
    NodeId → List NodeId → List NodeId → List NodeId → Prop
  | here {id : NodeId} {before bs ts es fs us : List NodeId}
    (hid : a.kind? id = some (.sequence (before ++ x :: rest))) (hbefore : a.DerivesAll before bs)
    (hx : a.Derives x (ts ++ g :: es)) (hes : a.AllEmpty es)
    (hrest : a.DerivesAll rest (fs ++ u :: us)) (hfs : a.AllEmpty fs) :
    MeetsAt a x rest g u id (bs ++ ts) (es ++ fs) us
  | choice {id y : NodeId} {alternatives ts es us : List NodeId}
    (hid : a.kind? id = some (.choice alternatives)) (hy : y ∈ alternatives)
    (h : MeetsAt a x rest g u y ts es us) : MeetsAt a x rest g u id ts es us
  | sequence {id y : NodeId} {before after bs cs ts es us : List NodeId}
    (hid : a.kind? id = some (.sequence (before ++ y :: after)))
    (hbefore : a.DerivesAll before bs) (h : MeetsAt a x rest g u y ts es us)
    (hafter : a.DerivesAll after cs) : MeetsAt a x rest g u id (bs ++ ts) es (us ++ cs)

variable {x g u id : NodeId} {rest ts es us : List NodeId}

/-- Terminals that meet follow each other in a derivation. -/
theorem MeetsAt.derives (h : a.MeetsAt x rest g u id ts es us) :
    a.Derives id (ts ++ g :: (es ++ u :: us)) := by
  induction h with
  | @here id before bs ts es fs us hid hbefore hx hes hrest hfs =>
    have happend := hbefore.append (.cons hx hrest)
    refine .sequence hid ?_
    simpa only [List.append_assoc, List.cons_append] using happend
  | choice hid hy _ ih => exact .choice hid hy ih
  | @sequence id y before after bs cs ts es us hid hbefore _ hafter ih =>
    have happend := hbefore.append (.cons ih hafter)
    refine .sequence hid ?_
    simpa only [List.append_assoc, List.cons_append] using happend

theorem MeetsAt.allEmpty (h : a.MeetsAt x rest g u id ts es us) : a.AllEmpty es := by
  induction h with
  | here _ _ _ hes _ hfs => exact hes.append hfs
  | choice _ _ _ ih => exact ih
  | sequence _ _ _ _ ih => exact ih

mutual

/-- Terminals that follow each other meet at a boundary. -/
theorem Derives.exists_meetsAt {id : NodeId} {ts us ds : List NodeId} (h : a.Derives id ds)
    (hds : ds = ts ++ g :: (es ++ u :: us)) (hes : a.AllEmpty es) :
    ∃ x rest, a.MeetsAt x rest g u id ts es us := by
  match h with
  | .terminal _ =>
    have hlength := congrArg List.length hds
    simp only [List.length_cons, List.length_append, List.length_nil] at hlength
    omega
  | .choice hid hy hd =>
    obtain ⟨x, rest, hmeets⟩ := hd.exists_meetsAt hds hes
    exact ⟨x, rest, .choice hid hy hmeets⟩
  | .sequence hid hd => exact hd.exists_meetsAt [] [] hds hes hid .nil

/-- The same for the last elements of a sequence: `xs` are those after `before`. -/
theorem DerivesAll.exists_meetsAt {id : NodeId} {ts us xs ds : List NodeId}
    (before bs : List NodeId) (h : a.DerivesAll xs ds)
    (hds : ds = ts ++ g :: (es ++ u :: us)) (hes : a.AllEmpty es)
    (hid : a.kind? id = some (.sequence (before ++ xs))) (hbefore : a.DerivesAll before bs) :
    ∃ x rest, a.MeetsAt x rest g u id (bs ++ ts) es us := by
  match h with
  | .nil => cases ts <;> cases hds
  | @DerivesAll.cons _ x rest xts rts hx hrest =>
    rcases append_eq_append_cons hds with ⟨ts', hts, hrts⟩ | ⟨xts', hxts, hcut⟩
    · -- both are derived from the elements after `x`
      have hid' : a.kind? id = some (.sequence ((before ++ [x]) ++ rest)) := by
        rw [List.append_assoc]
        exact hid
      have hbefore' := hbefore.append (DerivesAll.singleton.2 hx)
      have hmeets := hrest.exists_meetsAt _ _ hrts hes hid' hbefore'
      rw [List.append_assoc, ← hts] at hmeets
      exact hmeets
    · rcases append_eq_append_cons hcut.symm with ⟨fs, hes', hrts⟩ | ⟨xus, hxus, hus⟩
      · -- `g` is derived from `x`, and `u` from the elements after it
        rw [hxts] at hx
        rw [hrts] at hrest
        rw [hes'] at hes ⊢
        refine ⟨x, rest, .here hid hbefore hx ?_ hrest ?_⟩
        · exact fun e he => hes e (List.mem_append_left _ he)
        · exact fun e he => hes e (List.mem_append_right _ he)
      · -- both are derived from `x`
        rw [hxus] at hxts
        obtain ⟨x', rest', hmeets⟩ := hx.exists_meetsAt hxts hes
        rw [hus]
        exact ⟨x', rest', .sequence hid hbefore hmeets hrest⟩

end

/-- **To follow is to meet**: a terminal follows another one in a derivation, up to empty literals,
if and only if the two meet at a boundary. -/
theorem derives_iff_exists_meetsAt :
    a.Derives id (ts ++ g :: (es ++ u :: us)) ∧ a.AllEmpty es ↔
      ∃ x rest, a.MeetsAt x rest g u id ts es us := by
  constructor
  · rintro ⟨hd, hes⟩
    exact hd.exists_meetsAt rfl hes
  · rintro ⟨x, rest, hmeets⟩
    exact ⟨hmeets.derives, hmeets.allEmpty⟩

/-- Where an inferred stop agrees with what follows: at every boundary whose right side has to
match something. -/
theorem MeetsAt.startsWith (ha : a.Consistent) (h : a.MeetsAt x rest g u id ts es us)
    (hsolid : rest.all a.isNullable = false) {gen : Generation} {c : Char} {regex : RegexId}
    {source : NodeId} (hg : a.generation? g = some gen)
    (hstop : gen.stop = .inferred c regex source) (hu : a.literal? u ≠ some "") :
    a.StartsWith u c := by
  induction h with
  | choice _ _ _ ih => exact ih
  | sequence _ _ _ _ ih => exact ih
  | @here id before bs ts es fs us hid _ hx hes hrest hfs =>
    obtain ⟨n, hn, hkind⟩ := kind?_eq_some.1 hid
    have hsettled : a.Settled x rest := ha.settled id n hn before rest x hkind hsolid
    have hfits := hsettled g u gen hg ⟨ts, es, hx, hes⟩ ⟨fs, us, hrest, hfs, hu⟩
    rw [hstop] at hfits
    exact hfits

/-- **What follows a generation with an inferred stop.** If in a derivation of any node the
generation is followed by a terminal, up to empty literals, the two meet at a boundary of a
sequence, and unless all that the sequence has after that boundary may match the empty text, the
terminal is a literal that starts with the character of the stop. -/
theorem follower_of_inferred (calls : List Call) {j g u : NodeId} {ts es us : List NodeId}
    {gen : Generation} {c : Char} {regex : RegexId} {source : NodeId}
    (hg : (ofCalls calls).generation? g = some gen) (hstop : gen.stop = .inferred c regex source)
    (hd : (ofCalls calls).Derives j (ts ++ g :: (es ++ u :: us)))
    (hes : (ofCalls calls).AllEmpty es) (hu : (ofCalls calls).literal? u ≠ some "") :
    ∃ x rest, (ofCalls calls).MeetsAt x rest g u j ts es us ∧
      (rest.all (ofCalls calls).isNullable = true ∨ (ofCalls calls).StartsWith u c) := by
  obtain ⟨x, rest, hmeets⟩ := derives_iff_exists_meetsAt.1 ⟨hd, hes⟩
  refine ⟨x, rest, hmeets, ?_⟩
  by_cases hnullable : rest.all (ofCalls calls).isNullable = true
  · exact Or.inl hnullable
  · exact Or.inr (hmeets.startsWith (consistent_ofCalls calls) (Bool.eq_false_iff.2 hnullable)
      hg hstop hu)

/-- A generation and a full stop after it. -/
theorem follower_of_inferred_period :
    ∃ x rest,
      (ofCalls [.generation {}, .sequence [.node 0, .text "."]]).MeetsAt x rest 0 1 2 [] [] [] ∧
      (rest.all (ofCalls [.generation {}, .sequence [.node 0, .text "."]]).isNullable = true ∨
        (ofCalls [.generation {}, .sequence [.node 0, .text "."]]).StartsWith 1 '.') := by
  have hgeneration : (ofCalls [.generation {}, .sequence [.node 0, .text "."]]).generation? 0 =
      some ⟨0, .inferred '.' 1 1, none, none, none⟩ := by cbv
  have hliteral : (ofCalls [.generation {}, .sequence [.node 0, .text "."]]).literal? 1 =
      some "." := by cbv
  have hderives : (ofCalls [.generation {}, .sequence [.node 0, .text "."]]).Derives 2 [0, 1] :=
    .sequence (by cbv) (.cons (.terminal (by cbv)) (.cons (.terminal (by cbv)) .nil))
  exact follower_of_inferred _ hgeneration rfl hderives
    (fun _ h => absurd h List.not_mem_nil) (by rw [hliteral]; decide)

/-- **Without the exception the statement is false.** A generation stops at the full stop that
follows it in its first sequence. The second sequence, which puts a choice between nothing and
another letter after it, is added all the same. -/
theorem not_startsWith_of_nullable_rest :
    ¬ ∀ (calls : List Call) (elements : List Item) (j : NodeId) (a : Arena),
      Builder.sequence elements (ofCalls calls) = .ok j a →
      ∀ (g u : NodeId) (gen : Generation) (c : Char) (regex : RegexId) (source : NodeId)
        (ts es us : List NodeId), a.generation? g = some gen →
      gen.stop = .inferred c regex source → a.Derives j (ts ++ g :: (es ++ u :: us)) →
      a.AllEmpty es → a.literal? u ≠ some "" → a.StartsWith u c := by
  intro h
  -- the choice may be empty, so no boundary infers from it, and the join succeeds
  have hjoin : Builder.sequence [.node 0, .node 5] (ofCalls [.generation {},
        .sequence [.node 0, .text "."], .choice [.text "", .text "b"]]) =
      .ok 6 (ofCalls [.generation {}, .sequence [.node 0, .text "."],
        .choice [.text "", .text "b"], .sequence [.node 0, .node 5]]) := by cbv
  have hstop : (ofCalls [.generation {}, .sequence [.node 0, .text "."],
      .choice [.text "", .text "b"], .sequence [.node 0, .node 5]]).generation? 0 =
      some ⟨0, .inferred '.' 1 1, none, none, none⟩ := by cbv
  have hliteral : (ofCalls [.generation {}, .sequence [.node 0, .text "."],
      .choice [.text "", .text "b"], .sequence [.node 0, .node 5]]).literal? 4 =
      some "b" := by cbv
  have hchoice : (ofCalls [.generation {}, .sequence [.node 0, .text "."],
      .choice [.text "", .text "b"], .sequence [.node 0, .node 5]]).kind? 5 =
      some (.choice [3, 4]) := by cbv
  have hb : 4 ∈ [3, 4] := by decide
  -- yet the choice can also begin with a character that is not the stop
  have hderives : (ofCalls [.generation {}, .sequence [.node 0, .text "."],
      .choice [.text "", .text "b"], .sequence [.node 0, .node 5]]).Derives 6 [0, 4] :=
    .sequence (by cbv) (.cons (.terminal (by cbv))
      (.cons (.choice hchoice hb (.terminal (by cbv))) .nil))
  obtain ⟨text, htext, hstarts⟩ := h _ _ _ _ hjoin 0 4 _ '.' 1 1 [] [] [] hstop rfl hderives
    (fun _ h => absurd h List.not_mem_nil) (by rw [hliteral]; decide)
  obtain rfl := Option.some.inj (hliteral.symm.trans htext)
  revert hstarts
  decide

end GuidedGrammar.Arena
