import GuidedGrammar.Proofs.Compile.InOrder
import GuidedGrammar.Proofs.Data.Except
import GuidedGrammar.Proofs.Graph.Order

/-!
# Compiling writes in order

The serializer learns the layout while it writes: it gives positions to nodes when it enters them,
fills the slots of choices and sequences when all parts have been entered, and registers grammars
when it meets them. What it writes is what is written from the layout that is known beforehand, and
it fails with the same error (`Arena.compile_eq_compileInOrder`). In particular, none of its own
checks fails.

In the middle of a grammar (`Compile.Entered`) the nodes entered so far are the beginning of a
depth-first walk, whose pending vertices are the parts that the frames on the stack have left
(`Compile.Stacked`). Entering a node takes the step of writing it in order (`Compile.agrees_enter`);
closing a frame takes none, because the positions of the parts are those of the layout.
-/

namespace GuidedGrammar

namespace Compile

/-! ### Places -/

/-- A map that keeps the places of a list. -/
def Numbers (positions : Std.TreeMap Nat Nat) (xs : List Nat) : Prop :=
  ∀ x i : Nat, positions[x]? = some i ↔ xs[i]? = some x

theorem numbers_nil : Numbers ∅ [] := fun x i => by
  rw [Std.TreeMap.getElem?_emptyc, List.getElem?_nil]
  exact iff_of_false (Option.some_ne_none i).symm (Option.some_ne_none x).symm

namespace Numbers

variable {positions : Std.TreeMap Nat Nat} {xs : List Nat} {x i : Nat}

theorem nodup (h : Numbers positions xs) : xs.Nodup := by
  rw [List.nodup_iff_injective_getElem]
  intro i j hij
  replace hij : xs[i.1] = xs[j.1] := hij
  have hi := (h _ _).2 (List.getElem?_eq_getElem i.isLt)
  have hj := (h _ _).2 (List.getElem?_eq_getElem j.isLt)
  rw [hij, hj] at hi
  exact Fin.ext (Option.some.inj hi).symm

theorem idxOf_eq (h : Numbers positions xs) (hx : positions[x]? = some i) :
    x ∈ xs ∧ xs.idxOf x = i := by
  obtain ⟨hi, rfl⟩ := List.getElem?_eq_some_iff.1 ((h x i).1 hx)
  exact ⟨List.getElem_mem hi, h.nodup.idxOf_getElem i hi⟩

theorem not_mem (h : Numbers positions xs) (hx : positions[x]? = none) : x ∉ xs := by
  intro hmem
  obtain ⟨i, hi⟩ := List.mem_iff_getElem?.1 hmem
  rw [(h x i).2 hi] at hx
  cases hx

/-- Something new is put at the end. -/
theorem insert (h : Numbers positions xs) (hx : x ∉ xs) :
    Numbers (positions.insert x xs.length) (xs ++ [x]) := by
  intro y i
  simp only [Std.TreeMap.getElem?_insert, Std.LawfulEqCmp.compare_eq_iff_eq]
  by_cases hy : x = y
  · subst hy
    rw [if_pos rfl]
    constructor
    · intro hi
      obtain rfl := Option.some.inj hi
      exact List.getElem?_concat_length
    · intro hi
      rcases Nat.lt_or_ge i xs.length with hlt | hle
      · rw [List.getElem?_append_left hlt] at hi
        exact absurd (List.mem_of_getElem? hi) hx
      · have hlast := (List.getElem?_eq_some_iff.1 hi).1
        rw [List.length_append, List.length_singleton] at hlast
        rw [Nat.le_antisymm hle (Nat.le_of_lt_succ hlast)]
  · rw [if_neg hy, h y i]
    rcases Nat.lt_or_ge i xs.length with hlt | hle
    · rw [List.getElem?_append_left hlt]
    · rw [List.getElem?_append_right hle, List.getElem?_eq_none hle]
      refine iff_of_false (Option.some_ne_none y).symm fun hlast => hy ?_
      exact List.mem_singleton.1 (List.mem_of_getElem? hlast) ▸ rfl

end Numbers

/-! ### Registered grammars -/

/-- The grammars that have been registered, in order. -/
structure Register.Lists (r : Register) (keys : List NodeId) : Prop where
  keys_eq : r.keys.toList = keys
  numbers : Numbers r.positions keys

namespace Register

variable {r : Register} {keys : List NodeId} {key : NodeId}

theorem lists_empty : Register.empty.Lists [] :=
  ⟨rfl, numbers_nil⟩

/-- Registering a grammar puts it at the end unless it has been registered before. -/
theorem Lists.add (h : r.Lists keys) (key : NodeId) :
    (r.add key).2.Lists (keys ++ [key]).eraseDups ∧
      (r.add key).1 = (keys ++ [key]).eraseDups.idxOf key := by
  have hkeys : keys.eraseDups = keys := eraseDups_of_nodup h.numbers.nodup
  unfold Register.add
  split
  · -- the key has been registered before
    rename_i i hi
    obtain ⟨hmem, hidx⟩ := h.numbers.idxOf_eq hi
    rw [eraseDups_append_of_subset (List.forall_mem_singleton.2 hmem), hkeys]
    exact ⟨h, hidx.symm⟩
  · -- the key is new, so its number is the count of the keys
    rename_i hnone
    have hnew := h.numbers.not_mem hnone
    have hsize : r.keys.size = keys.length := by rw [← Array.length_toList, h.keys_eq]
    rw [eraseDups_concat_of_not_mem hnew, hkeys]
    refine ⟨⟨?_, ?_⟩, ?_⟩
    · show (r.keys.push key).toList = _
      rw [Array.toList_push, h.keys_eq]
    · show Numbers (r.positions.insert key r.keys.size) _
      rw [hsize]
      exact h.numbers.insert hnew
    · show r.keys.size = _
      rw [hsize, List.idxOf_append_of_notMem hnew, List.idxOf_cons_self, Nat.add_zero]

end Register

/-! ### Slots -/

/-- The slots for nodes, where those at some positions are still to be filled. -/
def slotsFor (waiting : List Nat) (nodes : List (Artifact.Node Nat)) :
    List (Option (Artifact.Node Nat)) :=
  nodes.mapIdx fun i node => if i ∈ waiting then none else some node

section Slots

variable {waiting : List Nat} {nodes : List (Artifact.Node Nat)} {node : Artifact.Node Nat}

theorem slotsFor_nil (nodes : List (Artifact.Node Nat)) : slotsFor [] nodes = nodes.map some := by
  simp [slotsFor, List.mapIdx_eq_iff]

theorem slotsFor_concat (h : ∀ i ∈ waiting, i < nodes.length) :
    slotsFor waiting (nodes ++ [node]) = slotsFor waiting nodes ++ [some node] := by
  have hnew : nodes.length ∉ waiting := fun hmem => Nat.lt_irrefl _ (h _ hmem)
  rw [slotsFor, List.mapIdx_append, List.mapIdx_singleton, Nat.zero_add, if_neg hnew]
  rfl

/-- A slot that is reserved is left empty. -/
theorem slotsFor_reserve (nodes : List (Artifact.Node Nat)) (node : Artifact.Node Nat) :
    slotsFor (nodes.length :: waiting) (nodes ++ [node]) = slotsFor waiting nodes ++ [none] := by
  rw [slotsFor, List.mapIdx_append, List.mapIdx_singleton, Nat.zero_add,
    if_pos (List.mem_cons_self ..)]
  refine congrArg (· ++ [none]) (List.mapIdx_eq_mapIdx_iff.2 fun i hi => ?_)
  simp only [List.mem_cons, Nat.ne_of_lt hi, false_or]

theorem set_slotsFor {i : Nat} (hi : i ∉ waiting) (hnode : nodes[i]? = some node) :
    (slotsFor (i :: waiting) nodes).set i (some node) = slotsFor waiting nodes := by
  apply List.ext_getElem?
  intro j
  rw [slotsFor, slotsFor, List.getElem?_set, List.length_mapIdx, List.getElem?_mapIdx,
    List.getElem?_mapIdx]
  by_cases hij : i = j
  · subst hij
    rw [if_pos rfl, if_pos (List.getElem?_eq_some_iff.1 hnode).1, hnode, Option.map_some,
      if_neg hi]
  · simp only [if_neg hij, List.mem_cons, Ne.symm hij, false_or]

end Slots

/-! ### Entering a node -/

section Enter

variable {options : CompileOptions} {a : Arena} {keys ids : List NodeId} {id : NodeId} {n : Node}
  {register : Register} {state : State} {positions : Std.TreeMap NodeId Nat}
  {slots : Array (Option (Artifact.Node Nat))}

/-- The grammars that are registered when a node has been entered. -/
def registerNested (a : Arena) (register : Register) (id : NodeId) : Register :=
  if a.isNested id then (register.add id).2 else register

/-- What has become of a node that was entered for the first time, where `node` and `state` are what
is left behind by writing it in order: its slot is filled, or a frame is opened for it, which will
fill the slot as soon as its parts have their positions. -/
inductive Enters (a : Arena) (ids : List NodeId) (s : Scope) (id : NodeId)
    (node : Artifact.Node Nat) (state : State) : Entry × Scope → Prop
  | filled (hparts : (a.graph Node.inlineChildren).successors id = []) :
    Enters a ids s id node state (.done s.slots.size, ⟨registerNested a s.register id, state,
      s.ids.insert id s.slots.size, s.slots.push (some node)⟩)
  | opened {n : Node} (hn : a.node? id = some n)
    (hnode : node = closedNode n (n.inlineChildren.map ids.idxOf)) :
    Enters a ids s id node state (.opened ⟨n, s.slots.size, n.inlineChildren, #[]⟩,
      ⟨registerNested a s.register id, state, s.ids.insert id s.slots.size, s.slots.push none⟩)

theorem fill_reserved (node : Artifact.Node Nat) :
    Scope.fill ⟨register, state, positions, slots.push none⟩ slots.size node =
      ⟨register, state, positions, slots.push (some node)⟩ := by
  have hslots : (slots.push none).setIfInBounds slots.size (some node) =
      slots.push (some node) := by
    apply Array.ext'
    rw [Array.toList_setIfInBounds, Array.toList_push, Array.toList_push, ← Array.length_toList,
      List.set_append_right _ _ (Nat.le_refl _), Nat.sub_self]
    rfl
  exact congrArg (Scope.mk register state positions) hslots

/-- What concerns the regexes and the count only leaves the rest as it is. -/
theorem agrees_write {α : Type} (s : Scope) (m : Writer α) :
    Except.Agrees (fun p q => p = (q.1, { s with state := q.2 })) (fun e e' => e' = e) (s.write m)
      (m s.state) := by
  obtain ⟨register, state, positions, slots⟩ := s
  simp only [Scope.write]
  cases m state with
  | error e => exact .error rfl
  | ok q => exact .ok rfl

theorem agrees_fillBy (n : Node) (m : Writer (Artifact.NodeKind Nat)) :
    Except.Agrees (fun p q => p = (.done slots.size,
        ⟨register, q.2, positions, slots.push (some (compiledNode n q.1))⟩)) (fun e e' => e' = e)
      (fillBy ⟨register, state, positions, slots.push none⟩ slots.size n m) (m state) := by
  have hwrite := agrees_write ⟨register, state, positions, slots.push none⟩ m
  unfold fillBy
  rcases hwrite.cases with ⟨_, q, hrun, hrun', rfl⟩ | ⟨e, _, hrun, hrun', rfl⟩
  · rw [hrun, hrun']
    refine .ok ?_
    rw [fill_reserved]
  · rw [hrun, hrun']
    exact .error rfl

/-- Beginning a node that has been given a position writes what stands for it. -/
theorem agrees_begin (s : Scope) (counted : State) (hn : a.node? id = some n)
    (hkey : a.isNested id = true → (s.register.add id).1 = keys.idxOf id) :
    Except.Agrees (fun p q => Enters a ids s id (compiledNode n q.1) q.2 p) (fun e e' => e' = e)
      (begin options a id n s.slots.size
        ⟨s.register, counted, s.ids.insert id s.slots.size, s.slots.push none⟩)
      (writeKind options a keys ids id n.kind counted) := by
  have hparts : (a.graph Node.inlineChildren).successors id = n.inlineChildren :=
    Arena.successors_graph hn
  have hplain : n.isNested = false → registerNested a s.register id = s.register := fun h => by
    rw [registerNested, Arena.isNested_eq hn, h, if_neg Bool.false_ne_true]
  -- a node without parts fills the slot reserved for it at once
  have hleaf : ∀ m : Writer (Artifact.NodeKind Nat), n.isNested = false → n.inlineChildren = [] →
      Except.Agrees (fun p q => Enters a ids s id (compiledNode n q.1) q.2 p) (fun e e' => e' = e)
        (fillBy ⟨s.register, counted, s.ids.insert id s.slots.size, s.slots.push none⟩ s.slots.size
          n m) (m counted) := by
    intro m hnested hnone
    refine (agrees_fillBy n m).imp fun p q hp => ?_
    have hfilled : Enters a ids s id (compiledNode n q.1) q.2 _ := .filled (hparts.trans hnone)
    rw [hplain hnested] at hfilled
    rwa [hp]
  -- a node with parts leaves its slot reserved and opens a frame
  have hframe : ∀ xs kind, n.isNested = false → n.inlineChildren = xs →
      compiledNode n kind = closedNode n (xs.map ids.idxOf) →
      Enters a ids s id (compiledNode n kind) counted (.opened ⟨n, s.slots.size, xs, #[]⟩,
        ⟨s.register, counted, s.ids.insert id s.slots.size, s.slots.push none⟩) := by
    rintro _ kind hnested rfl hclosed
    have hopened : Enters a ids s id (compiledNode n kind) counted _ := .opened hn hclosed
    rwa [hplain hnested] at hopened
  obtain ⟨kind, props, nullable⟩ := n
  cases kind with
  | literal text => exact hleaf (pure (.literal text)) rfl rfl
  | generation g => exact hleaf (writeGeneration options a id g) rfl rfl
  | lexeme l => exact hleaf (writeLexeme a l) rfl rfl
  | nested start skip =>
    -- a nested node has no parts here, but it registers its grammar
    have hnested : a.isNested id = true := Arena.isNested_eq hn
    have hfilled : Enters a ids s id (compiledNode ⟨.nested start skip, props, nullable⟩
      (.grammar (s.register.add id).1 none none)) counted _ := .filled hparts
    rw [registerNested, if_pos hnested, ← fill_reserved] at hfilled
    refine .ok ?_
    rwa [← hkey hnested]
  | choice xs => exact .ok (hframe xs (.choice (xs.map ids.idxOf)) rfl rfl rfl)
  | sequence xs => exact .ok (hframe xs (.sequence (xs.map ids.idxOf)) rfl rfl rfl)

/-- **Entering a node for the first time** takes the step of writing it in order. -/
theorem agrees_enter {s : Scope} (hid : s.ids[id]? = none)
    (hkey : a.isNested id = true → (s.register.add id).1 = keys.idxOf id) :
    Except.Agrees (fun p q => Enters a ids s id q.1 q.2 p) (fun e e' => e' = e)
      (enter options a s id) (writeNode options a keys ids id s.state) := by
  unfold enter writeNode
  simp only [hid]
  cases hn : a.node? id with
  | none => exact .error rfl
  | some n =>
    refine (agrees_write s (countNode options.nodeLimit)).bind fun p q hp => ?_
    obtain rfl := hp
    have hbegin : Except.Agrees _ _ _ (writeKind options a keys ids id n.kind q.2) :=
      agrees_begin s q.2 hn hkey
    exact hbegin.bindRight fun p r henters => .ok henters

end Enter

/-! ### The stack -/

/-- **The frames on a stack.** They are at positions below `bound`, the innermost one at the
highest. Each has entered some of its parts, and holds their positions; the next part, if there is
one, is what the frame above it is for (`hole`), and the others are pending. Among the nodes, there
is what the frame will be closed to. -/
inductive Stacked (ids : List NodeId) (nodes : List (Artifact.Node Nat)) :
    Nat → Option NodeId → List Frame → Prop
  | nil (bound : Nat) (hole : Option NodeId) : Stacked ids nodes bound hole []
  | cons {bound position : Nat} {hole : Option NodeId} {id : NodeId} {n : Node}
    (entered : List NodeId) {pending : List NodeId} {done : Array Nat} {below : List Frame}
    (hlt : position < bound) (hid : ids.idxOf id = position)
    (hparts : n.inlineChildren = entered ++ hole.toList ++ pending)
    (hdone : done.toList = entered.map ids.idxOf)
    (hnode : nodes[position]? = some (closedNode n (n.inlineChildren.map ids.idxOf)))
    (hbelow : Stacked ids nodes position (some id) below) :
    Stacked ids nodes bound hole (⟨n, position, pending, done⟩ :: below)

/-- **In the middle of a grammar.** The nodes `found` have been entered, and `nodes` is what they
become when the slots that are still waiting have been filled. -/
structure Entered (a : Arena) (registered found : List NodeId) (nodes : List (Artifact.Node Nat))
    (waiting : List Nat) (s : Scope) : Prop where
  register : s.register.Lists (registered ++ found.filter a.isNested).eraseDups
  numbers : Numbers s.ids found
  length_eq : nodes.length = found.length
  slots : s.slots.toList = slotsFor waiting nodes

section Stack

variable {options : CompileOptions} {a : Arena} {registered keys ids found rest : List NodeId}
  {nodes : List (Artifact.Node Nat)} {node : Artifact.Node Nat} {waiting : List Nat}
  {s s' : Scope} {state : State} {id : NodeId} {bound : Nat} {hole : Option NodeId}
  {stack : List Frame}

theorem Stacked.mono (h : Stacked ids nodes bound hole stack) {bound' : Nat}
    (hbound : bound ≤ bound') (node : Artifact.Node Nat) :
    Stacked ids (nodes ++ [node]) bound' hole stack := by
  induction h generalizing bound' with
  | nil => exact .nil _ _
  | cons entered hlt hid hparts hdone hnode _ ih =>
    refine .cons entered (Nat.lt_of_lt_of_le hlt hbound) hid hparts hdone ?_ (ih (Nat.le_refl _))
    rw [List.getElem?_append_left (List.getElem?_eq_some_iff.1 hnode).1, hnode]

theorem Stacked.lt_bound (h : Stacked ids nodes bound hole stack) :
    ∀ i ∈ stack.map Frame.position, i < bound := by
  induction h with
  | nil => exact fun i hi => absurd hi List.not_mem_nil
  | cons _ hlt _ _ _ _ _ ih =>
    exact List.forall_mem_cons.2 ⟨hlt, fun i hi => Nat.lt_trans (ih i hi) hlt⟩

theorem Entered.size_slots (h : Entered a registered found nodes waiting s) :
    s.slots.size = nodes.length := by
  rw [← Array.length_toList, h.slots, slotsFor, List.length_mapIdx]

theorem Entered.lists_registerNested (h : Entered a registered found nodes waiting s)
    (id : NodeId) :
    (registerNested a s.register id).Lists
      (registered ++ (found ++ [id]).filter a.isNested).eraseDups := by
  rw [registerNested, List.filter_append]
  -- only a nested node changes the register
  cases hnested : a.isNested id with
  | false =>
    have hnone : [id].filter a.isNested = [] := List.filter_eq_nil_iff.2 fun x hx => by
      rw [List.mem_singleton.1 hx, hnested]
      exact Bool.false_ne_true
    rw [hnone, List.append_nil, if_neg Bool.false_ne_true]
    exact h.register
  | true =>
    have hsome : [id].filter a.isNested = [id] := List.filter_eq_self.2 fun x hx => by
      rw [List.mem_singleton.1 hx, hnested]
    have hadd := (h.register.add id).1
    rw [eraseDups_eraseDups_append, List.append_assoc] at hadd
    rwa [hsome, if_pos rfl]

/-- A nested grammar is registered at its place among all grammars. -/
theorem Entered.position_eq (h : Entered a registered found nodes waiting s)
    (hkeys : (registered ++ ids.filter a.isNested).eraseDups <+: keys)
    (hids : found ++ [id] <+: ids)
    (hnested : a.isNested id = true) : (s.register.add id).1 = keys.idxOf id := by
  have hsome : (found ++ [id]).filter a.isNested = found.filter a.isNested ++ [id] := by
    rw [List.filter_append]
    simp [hnested]
  have hplace := (h.register.add id).2
  rw [eraseDups_eraseDups_append, List.append_assoc, ← hsome] at hplace
  -- numbers are given in order, so what is registered later does not move this one
  have hbegins : (registered ++ (found ++ [id]).filter a.isNested).eraseDups <+: keys := by
    obtain ⟨more, rfl⟩ := hids
    rw [List.filter_append, ← List.append_assoc] at hkeys
    exact (prefix_eraseDups_append _ _).trans hkeys
  rw [hplace, idxOf_of_prefix hbegins]
  rw [List.mem_eraseDups, hsome]
  exact List.mem_append_right _ (List.mem_append_right _ (List.mem_singleton_self id))

/-- What has become of the grammar when a node has been entered for the first time, and what is left
behind by writing the node in order. The node is one more of those that have been entered. Either it
has no parts, or a frame is opened for it and its slot is one more that waits. -/
inductive Proceeds (a : Arena) (registered ids found : List NodeId)
    (nodes : List (Artifact.Node Nat)) (waiting : List Nat) (id : NodeId) :
    Entry × Scope → Artifact.Node Nat × State → Prop
  | leaf {node : Artifact.Node Nat} {s : Scope}
    (hleaf : (a.graph Node.inlineChildren).successors id = [])
    (hentered : Entered a registered (found ++ [id]) (nodes ++ [node]) waiting s) :
    Proceeds a registered ids found nodes waiting id (.done nodes.length, s) (node, s.state)
  | parent {n : Node} {s : Scope} (hn : a.node? id = some n)
    (hentered : Entered a registered (found ++ [id])
      (nodes ++ [closedNode n (n.inlineChildren.map ids.idxOf)]) (nodes.length :: waiting) s) :
    Proceeds a registered ids found nodes waiting id
      (.opened ⟨n, nodes.length, n.inlineChildren, #[]⟩, s)
      (closedNode n (n.inlineChildren.map ids.idxOf), s.state)

theorem Entered.proceeds (h : Entered a registered found nodes waiting s) (hid : id ∉ found)
    (hwaiting : ∀ i ∈ waiting, i < nodes.length) {p : Entry × Scope}
    (henters : Enters a ids s id node state p) :
    Proceeds a registered ids found nodes waiting id p (node, state) := by
  -- the next slot is the next number, since each node found has one slot
  have hnumbers : Numbers (s.ids.insert id s.slots.size) (found ++ [id]) := by
    rw [h.size_slots, h.length_eq]
    exact h.numbers.insert hid
  have hlength : (nodes ++ [node]).length = (found ++ [id]).length := by
    rw [List.length_append, List.length_append, h.length_eq, List.length_singleton,
      List.length_singleton]
  cases henters with
  | filled hparts =>
    have hentered : Entered a registered (found ++ [id]) (nodes ++ [node]) waiting
        ⟨registerNested a s.register id, state, s.ids.insert id s.slots.size,
          s.slots.push (some node)⟩ := by
      refine ⟨h.lists_registerNested id, hnumbers, hlength, ?_⟩
      rw [Array.toList_push, h.slots, slotsFor_concat hwaiting]
    rw [h.size_slots] at hentered ⊢
    exact .leaf hparts hentered
  | opened hn hnode =>
    have hentered : Entered a registered (found ++ [id]) (nodes ++ [node]) (nodes.length :: waiting)
        ⟨registerNested a s.register id, state, s.ids.insert id s.slots.size,
          s.slots.push none⟩ := by
      refine ⟨h.lists_registerNested id, hnumbers, hlength, ?_⟩
      rw [Array.toList_push, h.slots, slotsFor_reserve]
    rw [h.size_slots] at hentered ⊢
    subst hnode
    exact .parent hn hentered

/-- **Entering a node for the first time** in the middle of a grammar. The node comes next in the
order of the nodes. -/
theorem Entered.agrees_enter (h : Entered a registered found nodes waiting s)
    (hkeys : (registered ++ ids.filter a.isNested).eraseDups <+: keys)
    (hwaiting : ∀ i ∈ waiting, i < nodes.length) (hid : s.ids[id]? = none)
    (hids : found ++ [id] <+: ids) :
    Except.Agrees (Proceeds a registered ids found nodes waiting id) (fun e e' => e' = e)
      (enter options a s id) (writeNode options a keys ids id s.state) :=
  (Compile.agrees_enter hid (h.position_eq hkeys hids)).imp
    fun _ _ => h.proceeds (h.numbers.not_mem hid) hwaiting

/-- A grammar all of whose nodes have been written. Its start is at `base`. -/
structure Finished (a : Arena) (registered ids : List NodeId) (nodes : List (Artifact.Node Nat))
    (base : Nat) (p : Nat × Scope) (q : List (Artifact.Node Nat) × State) : Prop where
  position : p.1 = base
  state : p.2.state = q.2
  entered : Entered a registered ids (nodes ++ q.1) [] p.2

theorem agrees_mapM_cons {base : Nat} {x : Except Error (Nat × Scope)} {begun : State}
    (hnode : writeNode options a keys ids id begun = .ok (node, state))
    (h : Except.Agrees (Finished a registered ids (nodes ++ [node]) base) (fun e e' => e' = e) x
      (rest.mapM (writeNode options a keys ids) state)) :
    Except.Agrees (Finished a registered ids nodes base) (fun e e' => e' = e) x
      ((id :: rest).mapM (writeNode options a keys ids) begun) := by
  rw [Except.mapM_cons_of_ok rest hnode]
  refine h.bindRight fun p q hp => .ok ⟨hp.position, hp.state, ?_⟩
  have hall := hp.entered
  rwa [List.append_assoc] at hall

section Frames

variable {n : Node} {position child : Nat} {pending : List NodeId} {done : Array Nat}
  {below : List Frame}

/-- A frame has the position of its next part. -/
theorem Stacked.advance
    (h : Stacked ids nodes bound none (⟨n, position, child :: pending, done⟩ :: below)) {i : Nat}
    (hi : ids.idxOf child = i) :
    Stacked ids nodes bound none (⟨n, position, pending, done.push i⟩ :: below) := by
  cases h with
  | cons entered hlt hid hparts hdone hnode hbelow =>
    refine .cons (entered ++ [child]) hlt hid ?_ ?_ hnode hbelow
    · rw [hparts]
      simp
    · rw [Array.toList_push, hdone, List.map_append, List.map_singleton, hi]

/-- A frame waits for its next part, for which another frame is opened. -/
theorem Stacked.open
    (h : Stacked ids nodes bound none (⟨n, position, child :: pending, done⟩ :: below)) :
    Stacked ids nodes bound (some child) (⟨n, position, pending, done⟩ :: below) := by
  cases h with
  | cons entered hlt hid hparts hdone hnode hbelow =>
    refine .cons entered hlt hid ?_ hdone hnode hbelow
    rw [hparts]
    simp

/-- A frame that has no parts left is closed, and the frame below it goes on. -/
theorem Stacked.close {outer : Node} {i : Nat} {done' : Array Nat}
    (h : Stacked ids nodes bound none
      (⟨n, position, [], done⟩ :: ⟨outer, i, pending, done'⟩ :: below)) :
    Stacked ids nodes bound none (⟨outer, i, pending, done'.push position⟩ :: below) := by
  cases h with
  | @cons _ _ _ id _ _ _ _ _ hlt hid _ _ _ hbelow =>
    cases hbelow with
    | cons entered hlt' hid' hparts hdone hnode hbelow =>
      refine .cons (entered ++ [id]) (Nat.lt_trans hlt' hlt) hid' ?_ ?_ hnode hbelow
      · rw [hparts]
        simp
      · rw [Array.toList_push, hdone, List.map_append, List.map_singleton, hid]

/-- Closing a frame fills its slot with what stands for its node. -/
theorem Entered.close
    (h : Entered a registered found nodes (position :: below.map Frame.position) s)
    (hstack : Stacked ids nodes bound none (⟨n, position, [], done⟩ :: below)) :
    Entered a registered found nodes (below.map Frame.position)
      (Compile.close s ⟨n, position, [], done⟩) where
  register := h.register
  numbers := h.numbers
  length_eq := h.length_eq
  slots := by
    cases hstack with
    | cons _ _ _ hparts hdone hnode hbelow =>
      have hparts : n.inlineChildren.map ids.idxOf = done.toList := by
        rw [hparts, hdone]
        simp
      -- a frame is open once, so no other frame waits for this slot
      have hnew : position ∉ below.map Frame.position := fun hmem =>
        Nat.lt_irrefl _ (hbelow.lt_bound _ hmem)
      rw [hparts] at hnode
      show (s.slots.setIfInBounds position _).toList = _
      rw [Array.toList_setIfInBounds, h.slots, set_slotsFor hnew hnode]

end Frames

theorem enter_of_some {i : Nat} (h : s.ids[id]? = some i) :
    enter options a s id = .ok (.done i, s) := by
  simp only [enter, h]

/-- A node that is entered for the first time is next in order. -/
theorem exists_rest_of_walks {pending : List NodeId}
    (hwalk : (a.graph Node.inlineChildren).Walks (fun new rest => new ++ rest) (id :: pending) found
      ids)
    (hrest : ids = found ++ rest) (hid : id ∉ found) :
    (a.graph Node.inlineChildren).Walks (fun new rest => new ++ rest)
        ((a.graph Node.inlineChildren).successors id ++ pending) (found ++ [id]) ids ∧
      ids.idxOf id = found.length ∧ ∃ rest', rest = id :: rest' ∧ ids = found ++ [id] ++ rest' := by
  have hnext := hwalk.of_not_mem hid
  obtain ⟨rest', hids⟩ := hnext.prefix_all
  -- `id` is new, so it is the next node of the walk
  rw [hrest, List.append_assoc, List.append_cancel_left_eq] at hids
  refine ⟨hnext, ?_, rest', hids.symm, by rw [hrest, ← hids, List.append_assoc]⟩
  rw [hrest, ← hids, List.idxOf_append_of_notMem hid, List.singleton_append, List.idxOf_cons_self,
    Nat.add_zero]

/-- Writing the parts of the frames on the stack takes the steps of writing the rest of the nodes
in order. -/
theorem agrees_serialize {base : Nat}
    (hkeys : (registered ++ ids.filter a.isNested).eraseDups <+: keys)
    (hentered : Entered a registered found nodes (stack.map Frame.position) s)
    (hstack : Stacked ids nodes nodes.length none stack)
    (hwalk : (a.graph Node.inlineChildren).Walks (fun new rest => new ++ rest)
      (stack.flatMap Frame.pending) found ids)
    (hrest : ids = found ++ rest) (hbase : (stack.map Frame.position).getLast? = some base) :
    Except.Agrees (Finished a registered ids nodes base) (fun e e' => e' = e)
      (serialize options a stack s) (rest.mapM (writeNode options a keys ids) s.state) := by
  induction stack, s using serialize.induct options a generalizing found nodes rest with
  | case1 s => cases hbase
  | case2 s n position child pending done below e hentry =>
    rw [serialize_of_error hentry]
    cases hid : s.ids[child]? with
    | some i =>
      rw [enter_of_some hid] at hentry
      cases hentry
    | none =>
      obtain ⟨hnext, -, rest', rfl, -⟩ :=
        exists_rest_of_walks hwalk hrest (hentered.numbers.not_mem hid)
      have henter : Except.Agrees _ _ (enter options a s child) _ :=
        hentered.agrees_enter hkeys hstack.lt_bound hid hnext.prefix_all
      rw [hentry] at henter
      obtain ⟨_, hnode, rfl⟩ := henter.of_error
      rw [Except.mapM_cons_of_error rest' hnode]
      exact .error rfl
  | case3 s n position child pending done below j s₁ hentry ih =>
    rw [serialize_of_done hentry]
    cases hid : s.ids[child]? with
    | some i =>
      -- the part has its position already
      rw [enter_of_some hid] at hentry
      obtain ⟨hdone, rfl⟩ := Prod.mk.inj (Except.ok.inj hentry)
      obtain rfl := Entry.done.inj hdone
      obtain ⟨hmem, hidx⟩ := hentered.numbers.idxOf_eq hid
      rw [← idxOf_of_prefix (hrest ▸ List.prefix_append found rest) hmem] at hidx
      exact ih hentered (hstack.advance hidx) (hwalk.of_mem hmem) hrest hbase
    | none =>
      obtain ⟨hnext, hidx, rest', rfl, hrest'⟩ :=
        exists_rest_of_walks hwalk hrest (hentered.numbers.not_mem hid)
      have henter : Except.Agrees _ _ (enter options a s child) _ :=
        hentered.agrees_enter hkeys hstack.lt_bound hid hnext.prefix_all
      rw [hentry] at henter
      obtain ⟨⟨node, state⟩, hnode, hproceeds⟩ := henter.of_ok
      cases hproceeds with
      | leaf hleaf hentered' =>
        rw [hleaf, List.nil_append] at hnext
        rw [← hentered.length_eq] at hidx
        refine agrees_mapM_cons hnode (ih hentered' ?_ hnext hrest' hbase)
        exact (hstack.advance hidx).mono (by rw [List.length_append]; omega) node
  | case4 s n position child pending done below inner s₁ hentry ih =>
    rw [serialize_of_opened hentry]
    cases hid : s.ids[child]? with
    | some i =>
      rw [enter_of_some hid] at hentry
      cases (Prod.mk.inj (Except.ok.inj hentry)).1
    | none =>
      obtain ⟨hnext, hidx, rest', rfl, hrest'⟩ :=
        exists_rest_of_walks hwalk hrest (hentered.numbers.not_mem hid)
      have henter : Except.Agrees _ _ (enter options a s child) _ :=
        hentered.agrees_enter hkeys hstack.lt_bound hid hnext.prefix_all
      rw [hentry] at henter
      obtain ⟨⟨node, state⟩, hnode, hproceeds⟩ := henter.of_ok
      cases hproceeds with
      | @parent m _ hm hentered' =>
        rw [Arena.successors_graph hm] at hnext
        rw [← hentered.length_eq] at hidx
        have hopen : Stacked ids (nodes ++ [_]) nodes.length (some child) _ :=
          hstack.open.mono (Nat.le_refl _) (closedNode m (m.inlineChildren.map ids.idxOf))
        refine agrees_mapM_cons hnode (ih hentered' ?_ hnext hrest' hbase)
        exact .cons [] (by rw [List.length_append]; exact Nat.lt_succ_self _) hidx rfl rfl
          List.getElem?_concat_length hopen
  | case5 s n position done =>
    replace hwalk :
        (a.graph Node.inlineChildren).Walks (fun new rest => new ++ rest) [] found ids :=
      hwalk
    cases hwalk
    obtain rfl : rest = [] := List.self_eq_append_right.1 hrest
    obtain rfl := Option.some.inj hbase
    rw [serialize, List.mapM_nil]
    refine .ok ⟨rfl, rfl, ?_⟩
    rw [List.append_nil]
    exact Entered.close hentered hstack
  | case6 s n position done =>
    rename_i s₁ outer j pending done' below ih
    have hclosed := Entered.close hentered hstack
    rw [serialize]
    exact ih hclosed hstack.close hwalk hrest hbase

end Stack

/-! ### Grammars -/

section Grammars

variable {options : CompileOptions} {a : Arena} {registered keys ids : List NodeId}
  {register : Register}

/-- Writing the nodes of a grammar takes the steps of writing them in order. -/
theorem agrees_serializeNode {start : NodeId} (hregister : register.Lists registered)
    (hkeys : (registered ++ ids.filter a.isNested).eraseDups <+: keys)
    (hwalk : (a.graph Node.inlineChildren).Walks (fun new rest => new ++ rest) [start] [] ids)
    (state : State) :
    Except.Agrees (Finished a registered ids [] 0) (fun e e' => e' = e)
      (serializeNode options a start ⟨register, state, ∅, #[]⟩)
      (ids.mapM (writeNode options a keys ids) state) := by
  have hentered : Entered a registered [] [] [] ⟨register, state, ∅, #[]⟩ := by
    refine ⟨?_, numbers_nil, rfl, rfl⟩
    rw [List.filter_nil, List.append_nil, eraseDups_of_nodup hregister.numbers.nodup]
    exact hregister
  obtain ⟨hnext, hidx, rest, hids, hrest⟩ :=
    exists_rest_of_walks hwalk (List.nil_append ids).symm List.not_mem_nil
  have henter : Except.Agrees (Proceeds a registered ids [] [] [] start) (fun e e' => e' = e)
      (enter options a ⟨register, state, ∅, #[]⟩ start)
      (writeNode options a keys ids start state) :=
    hentered.agrees_enter hkeys (fun i hi => absurd hi List.not_mem_nil) Std.TreeMap.getElem?_emptyc
      hnext.prefix_all
  have hall : (ids.mapM (writeNode options a keys ids)) state =
      (start :: rest).mapM (writeNode options a keys ids) state := by rw [← hids]
  rw [hall]
  unfold serializeNode
  rcases henter.cases with ⟨⟨entry, s⟩, ⟨node, state'⟩, hentry, hnode, hproceeds⟩ |
    ⟨e, _, hentry, hnode, rfl⟩
  · rw [hentry]
    refine agrees_mapM_cons hnode ?_
    cases hproceeds with
    | leaf hleaf hentered' =>
      -- the start is all there is
      rw [hleaf] at hnext
      cases hnext
      obtain rfl : rest = [] := (List.cons.inj hids).2.symm
      rw [List.mapM_nil]
      exact .ok ⟨rfl, rfl, hentered'⟩
    | parent hn hentered' =>
      rw [Arena.successors_graph hn] at hnext
      refine agrees_serialize hkeys hentered' ?_ ?_ hrest rfl
      · exact .cons [] Nat.one_pos hidx rfl rfl rfl (.nil _ _)
      · exact hnext
  · rw [hentry, Except.mapM_cons_of_error rest hnode]
    exact .error rfl

theorem filled_eq_ok {slots : Array (Option (Artifact.Node Nat))} {nodes : List (Artifact.Node Nat)}
    (h : slots.toList = nodes.map some) : filled slots = .ok nodes := by
  rw [filled, h]
  clear h
  induction nodes with
  | nil => rfl
  | cons node nodes ih =>
    rw [List.map_cons, List.mapM_cons, ih]
    rfl

/-- Writing a grammar takes the steps of writing it in order, and registers the nested grammars
among its nodes. -/
theorem agrees_serializeGrammar {key : NodeId} (hregister : register.Lists registered)
    (hkeys : (registered ++ (a.grammarNodes key).filter a.isNested).eraseDups <+: keys)
    (count : Nat) :
    Except.Agrees (fun p q => p.1 = q.1 ∧ p.2.2 = q.2 ∧
        p.2.1.Lists (registered ++ (a.grammarNodes key).filter a.isNested).eraseDups)
      (fun e e' => e' = e) (serializeGrammar options a register count key)
      (writeGrammar options a keys key count) := by
  unfold serializeGrammar writeGrammar
  cases hstart : a.grammarStart? key with
  | none => exact .error rfl
  | some start =>
    dsimp only
    -- the nodes of the grammar are those of the walk from its start
    have hwalk : (a.graph Node.inlineChildren).Walks (fun new rest => new ++ rest) [start] []
        (a.grammarNodes key) := by
      rw [Arena.grammarNodes, hstart]
      exact Digraph.walks_depthFirst
    have hnodes : Except.Agrees (Finished a registered (a.grammarNodes key) [] 0)
        (fun e e' => e' = e)
        (serializeNode options a start ⟨register, ⟨.empty, count⟩, ∅, #[]⟩) _ :=
      agrees_serializeNode hregister hkeys hwalk ⟨.empty, count⟩
    rcases hnodes.cases with
      ⟨⟨_, s⟩, ⟨nodes, _⟩, hrun, hrun', rfl, rfl, hentered⟩ | ⟨e, _, hrun, hrun', rfl⟩
    · rw [hrun, hrun']
      refine (agrees_write s (writeSkip a (a.grammarSkip? key))).bind fun p q hp => ?_
      obtain rfl := hp
      -- no frame is open at the end, so every slot is filled
      have hslots : s.slots.toList = nodes.map some := by
        rw [hentered.slots, List.nil_append, slotsFor_nil]
      dsimp only
      rw [filled_eq_ok hslots]
      exact .ok ⟨rfl, rfl, hentered.register⟩
    · rw [hrun, hrun']
      exact .error rfl

theorem serializeGrammars_of_none {index count : Nat} {done : Array (Artifact.Grammar Nat)}
    (h : register.keys[index]? = none) :
    serializeGrammars options a index register count done = .ok done.toList := by
  rw [serializeGrammars]
  split <;> simp_all

theorem serializeGrammars_of_some {index count : Nat} {key : NodeId}
    {done : Array (Artifact.Grammar Nat)} (h : register.keys[index]? = some key) :
    serializeGrammars options a index register count done =
      serializeGrammar options a register count key >>= fun p =>
        serializeGrammars options a (index + 1) p.2.1 p.2.2 (done.push p.1) := by
  rw [serializeGrammars]
  split
  · simp_all
  · rename_i key' hkey
    obtain rfl := Option.some.inj (h.symm.trans hkey)
    split <;> simp_all [bind, Except.bind]

/-- Writing the registered grammars takes the steps of writing them in order. -/
theorem agrees_serializeGrammars {pending found all rest : List NodeId} {count : Nat}
    {done : Array (Artifact.Grammar Nat)}
    (hwalk : a.grammarGraph.Walks (fun new rest => rest ++ new) pending found all)
    (hnodup : found.Nodup) (hregister : register.Lists (found ++ pending).eraseDups)
    (hrest : all = found ++ rest) :
    Except.Agrees (fun grammars q => grammars = done.toList ++ q.1) (fun e e' => e' = e)
      (serializeGrammars options a found.length register count done)
      (rest.mapM (writeGrammar options a all) count) := by
  induction hwalk generalizing register count done rest with
  | nil found =>
    obtain rfl : rest = [] := List.self_eq_append_right.1 hrest
    -- all the keys have been processed, and none has been added since
    have hend : register.keys[found.length]? = none := by
      rw [← Array.getElem?_toList, hregister.keys_eq, List.append_nil, eraseDups_of_nodup hnodup,
        List.getElem?_eq_none (Nat.le_refl _)]
    rw [serializeGrammars_of_none hend, List.mapM_nil]
    exact .ok (List.append_nil _).symm
  | old hv _ ih =>
    rw [eraseDups_append_cons_of_mem hv] at hregister
    exact ih hnodup hregister hrest
  | @new v pending found all hv hwalk ih =>
    obtain ⟨more, hmore⟩ := exists_eraseDups_append_cons pending hnodup hv
    have hnext : register.keys[found.length]? = some v := by
      rw [← Array.getElem?_toList, hregister.keys_eq, hmore,
        List.getElem?_append_right (Nat.le_refl _), Nat.sub_self]
      rfl
    have hsplit : (found ++ [v]) ++ (pending ++ (a.grammarNodes v).filter a.isNested) =
        (found ++ v :: pending) ++ (a.grammarNodes v).filter a.isNested := by
      simp only [List.append_assoc, List.cons_append, List.nil_append]
    -- what this grammar registers is the next part of the order of all grammars
    have hkeys := hwalk.prefix_eraseDups (nodup_concat hnodup hv)
    rw [Arena.successors_grammarGraph, hsplit, ← eraseDups_eraseDups_append] at hkeys
    obtain ⟨rest', hall⟩ := hwalk.prefix_all
    obtain rfl : v :: rest' = rest := by
      rwa [hrest, List.append_assoc, List.append_cancel_left_eq] at hall
    have hgrammar : Except.Agrees _ _ (serializeGrammar options a register count v) _ :=
      agrees_serializeGrammar hregister hkeys count
    rw [serializeGrammars_of_some hnext, List.mapM_cons]
    refine hgrammar.bind fun p q hp => ?_
    obtain ⟨grammar, register', count'⟩ := p
    obtain ⟨rfl, rfl, hregister'⟩ := hp
    rw [eraseDups_eraseDups_append, ← hsplit, ← Arena.successors_grammarGraph] at hregister'
    have hlength : (found ++ [v]).length = found.length + 1 := by
      rw [List.length_append, List.length_singleton]
    have hgo : Except.Agrees _ _ (serializeGrammars options a _ register' q.2 (done.push q.1)) _ :=
      ih (nodup_concat hnodup hv) hregister' hall.symm
    rw [hlength] at hgo
    refine hgo.bindRight fun gs q' hgs => .ok ?_
    rw [hgs, Array.toList_push, List.append_assoc, List.singleton_append]

end Grammars

end Compile

/-- **Compiling writes in order.** What is learned on the way is what the layout says, and no check
of the serializer fails. -/
theorem Arena.compile_eq_compileInOrder (a : Arena) (options : CompileOptions) (root : NodeId) :
    a.compile options root = a.compileInOrder options root := by
  unfold compile compileInOrder
  cases hroot : a.node? root with
  | none => rfl
  | some n =>
    have hregister := Compile.Register.lists_empty.add root
    generalize Compile.Register.empty.add root = p at hregister
    obtain ⟨i, register⟩ := p
    obtain ⟨hlists, hzero⟩ := hregister
    -- the root is the first key, so the start of the artifact is its first grammar
    obtain rfl : i = 0 := hzero.trans (by rw [List.nil_append, eraseDups_of_nodup
      (List.pairwise_singleton _ root), List.idxOf_cons_self])
    have hgrammars : Except.Agrees _ _ (Compile.serializeGrammars options a 0 register 0 #[]) _ :=
      Compile.agrees_serializeGrammars Digraph.walks_breadthFirst List.nodup_nil hlists
        (List.nil_append (a.grammarOrder root)).symm
    refine (Except.Agrees.eq (hgrammars.bind fun grammars q hq => .ok ?_)).symm
    rw [hq]
    rfl

end GuidedGrammar
