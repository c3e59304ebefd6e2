import GuidedGrammar.Proofs.Compile.Faithful

/-!
# The limit on nodes

Nodes are counted over all grammars, and the limit is looked at where a node is counted and nowhere
else. So compiling with a limit takes the same steps as compiling without one, up to the node that
is one too many: it gives the same result if that has no more nodes than allowed, and otherwise it
ends with an error that names the limit (`Arena.compile_nodeLimit`).

That is to say that compiling with a limit is stricter (`Except.Stricter`), where what is bad is to
have counted too many nodes. Nothing ever counts backwards, so what is bad stays so. At the end the
number that was counted is the number of nodes in the result.
-/

namespace GuidedGrammar

namespace Compile

variable {α : Type} {limit : Nat}

/-- More nodes have been counted than allowed. -/
def Beyond (limit : Nat) (p : α × State) : Prop :=
  limit < p.2.count

/-- The limit is looked at here: one node more than allowed is one too many. -/
theorem stricter_countNode_nodeLimit (s : State) :
    Except.Stricter (Beyond limit) (· = .nodeLimitExceeded limit) (countNode none s)
      (countNode (some limit) s) := by
  have hfree : countNode none s = .ok ((), { s with count := s.count + 1 }) := rfl
  rw [hfree]
  simp only [countNode, Option.filter_some, decide_eq_true_eq]
  by_cases hlimit : limit < s.count + 1
  · rw [if_pos hlimit]
    exact .stopped hlimit rfl
  · rw [if_neg hlimit]
    exact .ok hlimit

section Nodes

variable {a : Arena} {keys ids : List NodeId} (options : CompileOptions)

/-- Writing a node. Only counting it depends on the limit. -/
theorem stricter_writeNode_nodeLimit {id : NodeId} (hkey : a.isNested id = true → id ∈ keys)
    (hparts : ∀ x, (a.graph Node.inlineChildren).Edge id x → x ∈ ids) (s : State) :
    Except.Stricter (Beyond limit) (· = .nodeLimitExceeded limit)
      (writeNode { options with nodeLimit := none } a keys ids id s)
      (writeNode { options with nodeLimit := some limit } a keys ids id s) := by
  unfold writeNode
  cases hn : a.node? id with
  | none => exact .error _
  | some n =>
    rw [Arena.isNested_eq hn] at hkey
    -- the limit is read by the count alone
    have hsame : ∀ l, writeKind { options with nodeLimit := l } a keys ids id n.kind =
        writeKind options a keys ids id n.kind := fun _ => rfl
    simp only [hsame]
    refine (stricter_countNode_nodeLimit s).bindStateSame fun _ t => ?_
    -- what is written after the count leaves it as it is
    have hkind := leaves_writeKind a options hkey
      (fun x hx => hparts x (Arena.edge_graph_iff.2 ⟨n, hn, hx⟩)) t
    exact hkind.bindState fun kind u hu => iff_of_eq (congrArg (limit < ·) hu.count_eq)

/-- Writing the nodes of a grammar. -/
theorem stricter_mapM_writeNode_nodeLimit
    (hkeys : ∀ x ∈ ids, a.isNested x = true → x ∈ keys)
    (hparts : ∀ x ∈ ids, ∀ y, (a.graph Node.inlineChildren).Edge x y → y ∈ ids) {s : State}
    (hs : s.count ≤ limit) :
    Except.Stricter (Beyond limit) (· = .nodeLimitExceeded limit)
      (ids.mapM (writeNode { options with nodeLimit := none } a keys ids) s)
      (ids.mapM (writeNode { options with nodeLimit := some limit } a keys ids) s) := by
  refine Except.Stricter.mapM (B := Beyond limit)
    (fun x hx _ t _ => stricter_writeNode_nodeLimit options (hkeys x hx) (hparts x hx) t)
    (fun x hx nodes t q hbeyond hq => ?_) (Nat.not_lt.2 hs)
  have hcount := ((leaves_writeNode (hkeys x hx) (hparts x hx) t).of_eq_ok hq).count_eq
  exact Nat.lt_of_lt_of_le hbeyond (Nat.le_of_add_right_le hcount.ge)

/-- Writing a grammar, when no more nodes than allowed have been counted before. -/
theorem stricter_writeGrammar_nodeLimit {key : NodeId}
    (hkeys : ∀ x ∈ a.grammarNodes key, a.isNested x = true → x ∈ keys) {count : Nat}
    (hcount : count ≤ limit) :
    Except.Stricter (fun p => limit < p.2) (· = .nodeLimitExceeded limit)
      (writeGrammar { options with nodeLimit := none } a keys key count)
      (writeGrammar { options with nodeLimit := some limit } a keys key count) := by
  unfold writeGrammar
  cases hstart : a.grammarStart? key with
  | none => exact .error _
  | some start =>
    have hparts : ∀ x ∈ a.grammarNodes key, ∀ y, (a.graph Node.inlineChildren).Edge x y →
        y ∈ a.grammarNodes key := fun x hx y hxy =>
      (Arena.mem_grammarNodes hstart y).2 (((Arena.mem_grammarNodes hstart x).1 hx).tail hxy)
    refine (stricter_mapM_writeNode_nodeLimit options hkeys hparts hcount).bindSame fun p => ?_
    refine (leaves_writeSkip (a.grammarSkip? key) p.2).bind fun q hq => ?_
    exact iff_of_eq (congrArg (limit < ·) hq.count_eq)

end Nodes

end Compile

namespace Arena

open Compile (nodeCount)

variable (a : Arena) (options : CompileOptions) (root : NodeId) (limit : Nat)

theorem stricter_mapM_writeGrammar_nodeLimit :
    Except.Stricter (fun p => limit < nodeCount p.1) (· = .nodeLimitExceeded limit)
      ((a.grammarOrder root).mapM
        (Compile.writeGrammar { options with nodeLimit := none } a (a.grammarOrder root)) 0)
      ((a.grammarOrder root).mapM
        (Compile.writeGrammar { options with nodeLimit := some limit } a (a.grammarOrder root))
        0) := by
  have hkeys : ∀ key ∈ a.grammarOrder root, ∀ x ∈ a.grammarNodes key, a.isNested x = true →
      x ∈ a.grammarOrder root := fun key hkey x => mem_grammarOrder_of_mem_grammarNodes hkey
  have hcounted := Except.Stricter.mapM (s := 0)
    (B := fun p : List (Artifact.Grammar Nat) × Nat => limit < p.2)
    (fun key hkey _ count hcount =>
      Compile.stricter_writeGrammar_nodeLimit options (hkeys key hkey) (Nat.le_of_not_lt hcount))
    (fun key hkey _ count p hcount hp => ?_) (Nat.not_lt_zero limit)
  · -- what has been counted is the nodes of what was written
    refine hcounted.congr fun p hp => ?_
    rw [((ensures_mapM_writeGrammar a _ root).of_eq_ok hp).2]
  · have hcount' := ((Compile.ensures_writeGrammar (hkeys key hkey) count).of_eq_ok hp).2
    exact Nat.lt_of_lt_of_le hcount (Nat.le_of_add_right_le hcount'.ge)

/-- Compiling with a limit is stricter: too many nodes are bad. -/
theorem stricter_compile_nodeLimit :
    Except.Stricter (fun t : Artifact Nat => limit < nodeCount t.grammars)
      (· = .nodeLimitExceeded limit) (a.compile { options with nodeLimit := none } root)
      (a.compile { options with nodeLimit := some limit } root) := by
  rw [compile_eq_compileInOrder, compile_eq_compileInOrder]
  unfold compileInOrder
  cases a.node? root with
  | none => exact .error _
  | some n =>
    exact (a.stricter_mapM_writeGrammar_nodeLimit options root limit).bindSame fun p => Iff.rfl

/-- **The limit on nodes only cuts.** Where compiling without a limit succeeds, compiling with one
gives the same result if its grammars have no more nodes than allowed, all together, and else the
error that names the limit. Where compiling without a limit fails, compiling with one fails with the
same error, or with the one that names the limit. -/
theorem compile_nodeLimit :
    (∀ t, a.compile { options with nodeLimit := none } root = .ok t →
      (nodeCount t.grammars ≤ limit →
        a.compile { options with nodeLimit := some limit } root = .ok t) ∧
      (limit < nodeCount t.grammars →
        a.compile { options with nodeLimit := some limit } root =
          .error (.nodeLimitExceeded limit))) ∧
    ∀ e, a.compile { options with nodeLimit := none } root = .error e →
      a.compile { options with nodeLimit := some limit } root = .error e ∨
        a.compile { options with nodeLimit := some limit } root =
          .error (.nodeLimitExceeded limit) := by
  have hstricter := a.stricter_compile_nodeLimit options root limit
  refine ⟨fun t ht => ?_, fun e he => ?_⟩
  · rw [ht] at hstricter
    refine ⟨fun hle => hstricter.of_ok.1 (Nat.not_lt.2 hle), fun hlt => ?_⟩
    obtain ⟨_, rfl, hlimit⟩ := hstricter.of_ok.2 hlt
    exact hlimit
  · rw [he] at hstricter
    refine hstricter.of_error.imp_right ?_
    rintro ⟨_, rfl, hlimit⟩
    exact hlimit

/-- Three nodes in a grammar, and one of them once more in another one, make four nodes. -/
theorem compile_nodeLimit_nested :
    ∃ t, (ofCalls [.literal "a", .nested (.node 0) none, .sequence [.node 0, .node 1]]).compile
        { nodeLimit := some 4 } 2 = .ok t ∧ t.grammars.length = 2 ∧
      (ofCalls [.literal "a", .nested (.node 0) none, .sequence [.node 0, .node 1]]).compile
        { nodeLimit := some 3 } 2 = .error (.nodeLimitExceeded 3) := by
  -- the nested grammar is an entry of its own, so `a` and the reference are both counted
  obtain ⟨t, ht, hlength, hcount⟩ : ∃ t, (ofCalls [.literal "a", .nested (.node 0) none,
      .sequence [.node 0, .node 1]]).compile { nodeLimit := none } 2 = .ok t ∧
        t.grammars.length = 2 ∧ nodeCount t.grammars = 4 := by
    rw [compile_eq_compileInOrder]
    exact ⟨_, by cbv, by cbv, by cbv⟩
  refine ⟨t, ((compile_nodeLimit _ {} 2 4).1 t ht).1 ?_, hlength,
    ((compile_nodeLimit _ {} 2 3).1 t ht).2 ?_⟩
  · rw [hcount]
  · rw [hcount]
    decide

end Arena

end GuidedGrammar
