import GuidedGrammar.Proofs.Compile.Properties
import GuidedGrammar.Proofs.Grammar.Sequence

/-!
# The policy for missing stops

A generation without a stop is compiled to one that stops at the end of the output, or it is an
error. The two policies differ in nothing else (`Arena.compile_stopPolicy`): they give the same
result if it has no generation that stops at the end of the output. If there is one, it stands for a
generation without a stop, and the stricter policy blames such a generation.

Compiling under both policies takes the same steps up to the first generation without a stop. That
one policy is stricter than the other (`Except.Stricter`), where what is bad is to stop at the end
of the output, is said of every step of writing, from a stop up to all grammars.
-/

namespace GuidedGrammar

namespace Artifact

variable {ι : Type}

/-- A generation that stops at the end of the output. -/
def Node.IsOpen (n : Node ι) : Prop :=
  n.stop? = some .endOfOutput

theorem RegexRef.entry_ne_endOfOutput {i : ι} : entry i ≠ endOfOutput := by
  intro h
  cases h

theorem Node.not_isOpen {n : Node ι} (h : n.stop? = none) : ¬ n.IsOpen := by
  rw [IsOpen, h]
  exact (Option.some_ne_none _).symm

def Grammar.HasOpen (g : Grammar ι) : Prop :=
  ∃ n ∈ g.nodes, n.IsOpen

/-- Whether anything stops at the end of the output. -/
def HasOpen (t : Artifact ι) : Prop :=
  ∃ g ∈ t.grammars, g.HasOpen

end Artifact

/-- A generation without a stop that a root reaches. -/
def Arena.ReachesUnset (a : Arena) (root x : NodeId) : Prop :=
  (a.graph Node.children).Reaches root x ∧ a.LacksStop x

namespace Compile

variable {a : Arena} {root : NodeId}

/-- The errors that blame a generation without a stop. -/
def BlamesUnset (a : Arena) (root : NodeId) (e : Error) : Prop :=
  ∃ x, a.ReachesUnset root x ∧ e = .unresolvedStop (a.cite x)

section Nodes

variable (options : CompileOptions) {id : NodeId}

/-- The policy is looked at here: a stop that is not set is the end of the output, or an error. -/
theorem stricter_writeStop_stopPolicy (hid : (a.graph Node.children).Reaches root id)
    {g : Generation}
    (hg : a.generation? id = some g) (s : State) :
    Except.Stricter (fun p => p.1 = .endOfOutput) (BlamesUnset a root)
      (writeStop { options with stopPolicy := .endOfOutput } a id g s)
      (writeStop { options with stopPolicy := .error } a id g s) := by
  unfold writeStop
  cases hstop : g.stop with
  | unset => exact .stopped rfl ⟨id, ⟨hid, g, hg, hstop⟩, rfl⟩
  | explicit regex | inferred _ regex =>
    refine .refl fun p hp => ?_
    have hentry : Except.Ensures (fun p => ¬ p.1 = Artifact.RegexRef.endOfOutput) (fun _ => True)
        ((writeRegex a.regexes regex >>= fun i => pure (.entry i) : Writer _) s) :=
      (leaves_writeRegex regex s).bindState fun _ _ _ => Artifact.RegexRef.entry_ne_endOfOutput
    exact hentry.of_eq_ok hp

/-- Writing what a node becomes. -/
theorem stricter_writeKind_stopPolicy (keys ids : List NodeId)
    (hid : (a.graph Node.children).Reaches root id)
    {n : Node} (hn : a.node? id = some n) (s : State) :
    Except.Stricter (fun p => Artifact.Node.IsOpen ⟨p.1, {}⟩) (BlamesUnset a root)
      (writeKind { options with stopPolicy := .endOfOutput } a keys ids id n.kind s)
      (writeKind { options with stopPolicy := .error } a keys ids id n.kind s) := by
  cases hkind : n.kind with
  | generation g =>
    have hg : a.generation? id = some g :=
      Arena.generation?_eq_some.2 (Arena.kind?_eq_some.2 ⟨n, hn, hkind⟩)
    -- the body is written before the stop, and needs none
    refine Except.Stricter.bindState (B := fun _ => False) (.refl fun _ _ => not_false)
      (fun body t _ => ?_) fun _ _ _ h => h.elim
    exact (stricter_writeStop_stopPolicy options hid hg t).bindStateSame
      fun stop u => Option.some_inj
  | lexeme l =>
    refine .refl fun p hp => ?_
    have hlexeme : Except.Ensures (fun p => ¬ Artifact.Node.IsOpen ⟨p.1, {}⟩) (fun _ => True)
        (writeLexeme a l s) :=
      (leaves_writeRegex l.regex s).bindState fun _ _ _ => Artifact.Node.not_isOpen rfl
    exact hlexeme.of_eq_ok hp
  | literal | nested | choice | sequence => exact .ok (Artifact.Node.not_isOpen rfl)

/-- Writing a node. -/
theorem stricter_writeNode_stopPolicy (keys ids : List NodeId)
    (hid : (a.graph Node.children).Reaches root id)
    (s : State) :
    Except.Stricter (fun p => p.1.IsOpen) (BlamesUnset a root)
      (writeNode { options with stopPolicy := .endOfOutput } a keys ids id s)
      (writeNode { options with stopPolicy := .error } a keys ids id s) := by
  unfold writeNode
  cases hn : a.node? id with
  | none => exact .error _
  | some n =>
    refine Except.Stricter.bindState (B := fun _ => False) (.refl fun _ _ => not_false)
      (fun _ t _ => ?_) fun _ _ _ h => h.elim
    exact (stricter_writeKind_stopPolicy options keys ids hid hn t).bindStateSame
      fun kind u => Iff.rfl

/-! ### Grammars -/

/-- Writing a grammar. What it skips needs no stop. -/
theorem stricter_writeGrammar_stopPolicy (keys : List NodeId) {key : NodeId}
    (hkey : (a.graph Node.children).Reaches root key) (count : Nat) :
    Except.Stricter (fun p => p.1.HasOpen) (BlamesUnset a root)
      (writeGrammar { options with stopPolicy := .endOfOutput } a keys key count)
      (writeGrammar { options with stopPolicy := .error } a keys key count) := by
  unfold writeGrammar
  cases a.grammarStart? key with
  | none => exact .error _
  | some start =>
    refine Except.Stricter.bindSame
      (B := fun p : List (Artifact.Node Nat) × State => ∃ n ∈ p.1, n.IsOpen) ?_ fun p => ?_
    · exact .mapM_exists fun x hx t => stricter_writeNode_stopPolicy options keys _
        (hkey.trans (Arena.reaches_of_mem_grammarNodes hx)) t
    · exact (leaves_writeSkip (a.grammarSkip? key) p.2).bind fun _ _ => Iff.rfl

end Nodes

end Compile

/-- A stop becomes the end of the output only if it is not set. -/
theorem Stop.Translates.eq_endOfOutput_iff {store entries : RegexStore} {stop : Stop}
    {ref : Artifact.RegexRef Nat} (h : stop.Translates store entries ref) :
    ref = .endOfOutput ↔ stop = .unset := by
  cases h with
  | unset => exact iff_of_true rfl rfl
  | set hstop href =>
    cases href
    refine iff_of_false Artifact.RegexRef.entry_ne_endOfOutput ?_
    rintro rfl
    cases hstop

namespace Arena

variable {a : Arena} {root : NodeId} {options : CompileOptions} {t : Artifact Nat}

/-- A compiled node stops at the end of the output if it stands for a generation without a
stop. -/
theorem TranslatesNode.isOpen_iff {entries : RegexStore} {keys ids : List NodeId} {x : NodeId}
    {compiled : Artifact.Node Nat} (h : a.TranslatesNode entries keys ids x compiled) :
    compiled.IsOpen ↔ a.LacksStop x := by
  cases h with
  | @intro n kind hx hkind =>
    have hlacks : a.LacksStop x ↔ ∃ g, n.kind = .generation g ∧ g.stop = .unset := by
      simp only [LacksStop, generation?_eq_some, kind?_eq_some, hx, Option.some.injEq,
        exists_eq_left']
    rw [hlacks]
    generalize n.kind = nodeKind at hkind
    cases hkind with
    | generation hbody hstop =>
      -- only a stop that is not set is written as the end of the output
      simp only [NodeKind.generation.injEq, exists_eq_left', ← hstop.eq_endOfOutput_iff]
      exact Option.some_inj
    | literal | lexeme | nested | choice | sequence =>
      refine iff_of_false (Artifact.Node.not_isOpen rfl) ?_
      rintro ⟨g, hg, -⟩
      cases hg

/-- What stops at the end of the output stands for a generation without a stop, and the other way
round, in every grammar. -/
theorem forall₂_isOpen_of_compile (h : a.compile options root = .ok t) :
    List.Forall₂ (fun key (g : Artifact.Grammar Nat) =>
      List.Forall₂ (fun x compiled => compiled.IsOpen ↔ a.ReachesUnset root x) (a.grammarNodes key)
        g.nodes) (a.grammarOrder root) t.grammars := by
  have hgrammars := (List.forall₂_and_left _ _).2
    ⟨fun _ => reaches_of_mem_grammarOrder, forall₂_grammarNodes_of_compile h⟩
  refine hgrammars.imp fun key g hg => ?_
  obtain ⟨hkey, entries, hnodes⟩ := hg
  have hnodes := (List.forall₂_and_left _ _).2
    ⟨fun x hx => hkey.trans (reaches_of_mem_grammarNodes hx), hnodes⟩
  refine hnodes.imp fun x compiled hx => ?_
  rw [hx.2.isOpen_iff, ReachesUnset, and_iff_right hx.1]

/-- A generation is no nested grammar, so one of the grammars has it among its nodes. -/
theorem ReachesUnset.exists_grammar {x : NodeId} (h : a.ReachesUnset root x) :
    ∃ key ∈ a.grammarOrder root, x ∈ a.grammarNodes key := by
  obtain ⟨hx, g, hg, -⟩ := h
  refine exists_grammar_of_plain (Bool.eq_false_iff.2 fun hnested => ?_) hx
  obtain ⟨start, skip, hkind⟩ := isNested_iff.1 hnested
  cases hkind.symm.trans (generation?_eq_some.1 hg)

/-- Compiling under the stricter policy is stricter: what stops at the end of the output is bad. -/
theorem stricter_compile_stopPolicy (a : Arena) (options : CompileOptions) (root : NodeId) :
    Except.Stricter Artifact.HasOpen (Compile.BlamesUnset a root)
      (a.compile { options with stopPolicy := .endOfOutput } root)
      (a.compile { options with stopPolicy := .error } root) := by
  rw [compile_eq_compileInOrder, compile_eq_compileInOrder]
  unfold compileInOrder
  cases a.node? root with
  | none => exact .error _
  | some n =>
    refine Except.Stricter.bindSame
      (B := fun p : List (Artifact.Grammar Nat) × Nat => ∃ g ∈ p.1, g.HasOpen) ?_ fun p => Iff.rfl
    exact .mapM_exists fun key hkey count => Compile.stricter_writeGrammar_stopPolicy options _
      (reaches_of_mem_grammarOrder hkey) count

/-- **The policies differ only on generations without a stop.** The stricter policy gives the
results of the other one in which nothing stops at the end of the output. In place of any other
result it blames a generation without a stop that the root reaches, and it may do so in place of an
error; apart from that the errors are the same. What stops at the end of the output are the nodes
that stand for generations without a stop, in every grammar, and all of these that the root reaches
are there. -/
theorem compile_stopPolicy (a : Arena) (options : CompileOptions) (root : NodeId) :
    (∀ t, a.compile { options with stopPolicy := .error } root = .ok t ↔
      a.compile { options with stopPolicy := .endOfOutput } root = .ok t ∧ ¬ t.HasOpen) ∧
    (∀ t, a.compile { options with stopPolicy := .endOfOutput } root = .ok t → t.HasOpen →
      ∃ x, a.ReachesUnset root x ∧ a.compile { options with stopPolicy := .error } root =
        .error (.unresolvedStop (a.cite x))) ∧
    (∀ e, a.compile { options with stopPolicy := .endOfOutput } root = .error e →
      a.compile { options with stopPolicy := .error } root = .error e ∨
        ∃ x, a.ReachesUnset root x ∧ a.compile { options with stopPolicy := .error } root =
          .error (.unresolvedStop (a.cite x))) ∧
    ∀ t, a.compile { options with stopPolicy := .endOfOutput } root = .ok t →
      List.Forall₂ (fun key (g : Artifact.Grammar Nat) =>
        List.Forall₂ (fun x compiled => compiled.IsOpen ↔ a.ReachesUnset root x)
          (a.grammarNodes key) g.nodes) (a.grammarOrder root) t.grammars ∧
      ∀ x, a.ReachesUnset root x → ∃ key ∈ a.grammarOrder root, x ∈ a.grammarNodes key := by
  have hstricter := a.stricter_compile_stopPolicy options root
  refine ⟨hstricter.ok_iff, fun t ht hopen => ?_, fun e he => ?_, fun t ht => ?_⟩
  · rw [ht] at hstricter
    obtain ⟨_, ⟨x, hx, rfl⟩, hblamed⟩ := hstricter.of_ok.2 hopen
    exact ⟨x, hx, hblamed⟩
  · rw [he] at hstricter
    refine hstricter.of_error.imp_right ?_
    rintro ⟨_, ⟨x, hx, rfl⟩, hblamed⟩
    exact ⟨x, hx, hblamed⟩
  · exact ⟨forall₂_isOpen_of_compile ht, fun x hx => hx.exists_grammar⟩

/-- A generation without a stop in a nested grammar is blamed, after one with a stop was written. -/
theorem compile_stopPolicy_nested :
    let a := ofCalls [.generation {}, .nested (.node 0) none,
      .generation { stop := some (.text ".") }, .sequence [.node 2, .node 1]]
    ∃ t, a.compile {} 3 = .ok t ∧ t.HasOpen ∧
      a.compile { stopPolicy := .error } 3 = .error (.unresolvedStop (a.cite 0)) := by
  intro a
  obtain ⟨t, hcompile, hopen⟩ : ∃ t, (ofCalls [.generation {}, .nested (.node 0) none,
      .generation { stop := some (.text ".") }, .sequence [.node 2, .node 1]]).compile {} 3 = .ok t ∧
        t.HasOpen := by
    rw [compile_eq_compileInOrder]
    refine ⟨_, by cbv, ?_⟩
    exact ⟨_, List.mem_cons_of_mem _ (List.mem_cons_self ..), _, List.mem_cons_self .., rfl⟩
  refine ⟨t, hcompile, hopen, ?_⟩
  obtain ⟨x, ⟨-, hlacks⟩, herror⟩ := (compile_stopPolicy a {} 3).2.1 t hcompile hopen
  have hnodes : a = ⟨#[⟨.generation ⟨0, .unset, none, none, none⟩, {}, false⟩,
      ⟨.nested (some 0) none, {}, false⟩, ⟨.generation ⟨1, .explicit 2, none, none, none⟩, {}, false⟩,
      ⟨.sequence [2, 1], {}, false⟩], #[.pattern ".*", .pattern ".*", .literal "."]⟩ := by
    show ofCalls _ = _
    cbv
  -- the other generation has a stop
  have hx : x = 0 := by
    rw [hnodes, lacksStop_iff] at hlacks
    rcases x with _ | _ | _ | _ | x
    · rfl
    all_goals cases hlacks
  rw [herror, hx]

end Arena

end GuidedGrammar
