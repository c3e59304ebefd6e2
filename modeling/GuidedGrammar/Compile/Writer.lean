import GuidedGrammar.Compile.Steps
import GuidedGrammar.Graph.Unseen

/-!
# Compiling grammars

Compiling writes a root and all nested grammars that it reaches, each with its own list of nodes
and its own table of regexes. A nested grammar is registered when the first reference to it is
written, and registered grammars are written one after the other until none is left; so the list of
registered grammars grows while it is gone through.

Within a grammar a node is given its position when it is entered, before the nodes directly below
it. The slot of a choice or a sequence stays empty until these have positions; meanwhile there is a
frame for it on a stack, so the depth of a grammar is not limited by the call stack.

Every node is entered at most once in a grammar, and every grammar is registered at most once.
That is why both loops end.
-/

namespace GuidedGrammar

namespace Arena

/-- The node at which the grammar of a node starts: the start of a nested grammar, if it has been
given one, or else the node itself. -/
def grammarStart? (a : Arena) (key : NodeId) : Option NodeId :=
  match (a.node? key).map Node.kind with
  | some (.nested start _) => start
  | _ => some key

/-- What is ignored between the lexemes of the grammar of a node. -/
def grammarSkip? (a : Arena) (key : NodeId) : Option RegexId :=
  match (a.node? key).map Node.kind with
  | some (.nested _ skip) => skip
  | _ => none

end Arena

namespace Compile

open GuidedGrammar.Graph (unvalued unvalued_insert_lt)

/-! ### Registered grammars -/

/-- **The grammars that have been registered**, each once. The place of a key is the position of its
grammar. -/
structure Register where
  keys : Array NodeId
  /-- The place of every key. -/
  positions : Std.TreeMap NodeId Nat

namespace Register

/-- No grammar has been registered. -/
def empty : Register :=
  ⟨#[], ∅⟩

/-- The position of a grammar, which is registered last if it has not been registered before. -/
def add (r : Register) (key : NodeId) : Nat × Register :=
  match r.positions[key]? with
  | some i => (i, r)
  | none =>
    let ⟨keys, positions⟩ := r
    (keys.size, ⟨keys.push key, positions.insert key keys.size⟩)

/-- What registering grammars below a bound does to the number of those that are left: it gets
smaller by as many as are registered. -/
structure Grows (bound : Nat) (r r' : Register) : Prop where
  unvalued_le : unvalued bound r'.positions ≤ unvalued bound r.positions
  total_le : unvalued bound r'.positions + r'.keys.size ≤
    unvalued bound r.positions + r.keys.size

theorem Grows.refl (bound : Nat) (r : Register) : Grows bound r r :=
  ⟨Nat.le_refl _, Nat.le_refl _⟩

theorem Grows.trans {bound : Nat} {r r' r'' : Register} (h : Grows bound r r')
    (h' : Grows bound r' r'') : Grows bound r r'' :=
  ⟨Nat.le_trans h'.unvalued_le h.unvalued_le, Nat.le_trans h'.total_le h.total_le⟩

theorem grows_add {bound key : Nat} (r : Register) (hkey : key < bound) :
    Grows bound r (r.add key).2 := by
  unfold add
  split
  · exact .refl bound r
  · rename_i hnone
    have hlt := unvalued_insert_lt r.keys.size hkey hnone
    refine ⟨Nat.le_of_lt hlt, ?_⟩
    show unvalued bound (r.positions.insert key r.keys.size) + (r.keys.push key).size ≤ _
    rw [Array.size_push]
    omega

end Register

/-! ### The nodes of a grammar -/

/-- **A grammar that is being written.** -/
structure Scope where
  /-- The grammars registered so far. -/
  register : Register
  /-- The regexes of this grammar, and the nodes counted so far. -/
  state : State
  /-- The positions of the nodes that have been entered. -/
  ids : Std.TreeMap NodeId Nat
  /-- The nodes. A slot is empty as long as nodes below have no positions. -/
  slots : Array (Option (Artifact.Node Nat))

namespace Scope

/-- Registers a grammar. -/
def add (s : Scope) (key : NodeId) : Nat × Scope :=
  let ⟨register, state, ids, slots⟩ := s
  let (i, register) := register.add key
  (i, ⟨register, state, ids, slots⟩)

/-- Takes a step that concerns the regexes and the count only. -/
def write {α : Type} (s : Scope) (m : Writer α) : Except Error (α × Scope) :=
  let ⟨register, state, ids, slots⟩ := s
  match m state with
  | .error e => .error e
  | .ok (r, state) => .ok (r, ⟨register, state, ids, slots⟩)

/-- Gives a node the next position. Its slot is empty. -/
def reserve (s : Scope) (id : NodeId) : Nat × Scope :=
  let ⟨register, state, ids, slots⟩ := s
  (slots.size, ⟨register, state, ids.insert id slots.size, slots.push none⟩)

/-- Fills a slot. -/
def fill (s : Scope) (position : Nat) (node : Artifact.Node Nat) : Scope :=
  let ⟨register, state, ids, slots⟩ := s
  ⟨register, state, ids, slots.setIfInBounds position (some node)⟩

end Scope

/-- **A choice or a sequence whose parts are being written.** -/
structure Frame where
  node : Node
  /-- Its position. -/
  position : Nat
  /-- The parts that have not been entered. -/
  pending : List NodeId
  /-- The positions of the parts that have been written. -/
  done : Array Nat

/-- **What is left to do for a node** that has been entered. -/
inductive Entry where
  /-- Nothing; the node has this position. -/
  | done (position : Nat)
  /-- Its parts have to be written. -/
  | opened (frame : Frame)

/-- Fills the slot of a node with what a step writes. -/
def fillBy (s : Scope) (position : Nat) (n : Node) (m : Writer (Artifact.NodeKind Nat)) :
    Except Error (Entry × Scope) := do
  let (kind, s) ← s.write m
  return (.done position, s.fill position (compiledNode n kind))

/-- **Begins to write a node** that has been given its position. The slot is filled at once, unless
the node is a choice or a sequence. -/
def begin (options : CompileOptions) (a : Arena) (id : NodeId) (n : Node) (position : Nat)
    (s : Scope) : Except Error (Entry × Scope) :=
  match n.kind with
  | .choice parts => .ok (.opened ⟨n, position, parts, #[]⟩, s)
  | .sequence parts => .ok (.opened ⟨n, position, parts, #[]⟩, s)
  | .literal text => .ok (.done position, s.fill position (compiledNode n (.literal text)))
  | .generation g => fillBy s position n (writeGeneration options a id g)
  | .lexeme l => fillBy s position n (writeLexeme a l)
  | .nested .. =>
    let (i, s) := s.add id
    .ok (.done position, s.fill position (compiledNode n (.grammar i none none)))

/-- **Enters a node.** If it has been entered before, it keeps its position. Otherwise it is
counted, given the next position and begun. -/
def enter (options : CompileOptions) (a : Arena) (s : Scope) (id : NodeId) :
    Except Error (Entry × Scope) :=
  match s.ids[id]? with
  | some position => .ok (.done position, s)
  | none =>
    match a.node? id with
    | none => .error (.malformed .grammar (.unknownNode id))
    | some n => do
      let ((), s) ← s.write (countNode options.nodeLimit)
      let (position, s) := s.reserve id
      begin options a id n position s

/-- A choice or a sequence whose parts have these positions. -/
def closedNode (n : Node) (parts : List Nat) : Artifact.Node Nat :=
  compiledNode n
    (match n.kind with
      | .choice _ => .choice parts
      | _ => .sequence parts)

/-- Fills the slot of a choice or a sequence when all of its parts have positions. -/
def close (s : Scope) (frame : Frame) : Scope :=
  s.fill frame.position (closedNode frame.node frame.done.toList)

/-! ### The stack -/

section Loop

variable {options : CompileOptions} {a : Arena} {s s' : Scope}

/-- A step that concerns the regexes and the count only. -/
theorem Scope.of_write {α : Type} {m : Writer α} {r : α} (h : s.write m = .ok (r, s')) :
    s'.register = s.register ∧ s'.ids = s.ids := by
  obtain ⟨register, state, ids, slots⟩ := s
  simp only [Scope.write] at h
  split at h
  · cases h
  · obtain ⟨-, rfl⟩ := Prod.mk.inj (Except.ok.inj h)
    exact ⟨rfl, rfl⟩

theorem of_fillBy {position : Nat} {n : Node} {m : Writer (Artifact.NodeKind Nat)} {entry : Entry}
    (h : fillBy s position n m = .ok (entry, s')) :
    s.register.Grows a.nodes.size s'.register ∧ s'.ids = s.ids := by
  unfold fillBy at h
  cases hwrite : s.write m with
  | error e =>
    rw [hwrite] at h
    cases h
  | ok p =>
    rw [hwrite] at h
    obtain ⟨-, rfl⟩ := Prod.mk.inj (Except.ok.inj h)
    obtain ⟨hregister, hids⟩ := Scope.of_write hwrite
    exact ⟨hregister ▸ .refl _ _, hids⟩

/-- Only nested grammars are registered. -/
theorem of_begin {id : NodeId} {n : Node} {position : Nat} {entry : Entry}
    (hid : id < a.nodes.size) (h : begin options a id n position s = .ok (entry, s')) :
    s.register.Grows a.nodes.size s'.register ∧ s'.ids = s.ids := by
  unfold begin at h
  split at h
  · obtain ⟨-, rfl⟩ := Prod.mk.inj (Except.ok.inj h)
    exact ⟨.refl _ _, rfl⟩
  · obtain ⟨-, rfl⟩ := Prod.mk.inj (Except.ok.inj h)
    exact ⟨.refl _ _, rfl⟩
  · obtain ⟨-, rfl⟩ := Prod.mk.inj (Except.ok.inj h)
    exact ⟨.refl _ _, rfl⟩
  · exact of_fillBy h
  · exact of_fillBy h
  · obtain ⟨-, rfl⟩ := Prod.mk.inj (Except.ok.inj h)
    exact ⟨Register.grows_add s.register hid, rfl⟩

/-- **What entering a node does to positions**: either it had one, or it is given one. -/
theorem of_enter {id : NodeId} {entry : Entry} (h : enter options a s id = .ok (entry, s')) :
    s.register.Grows a.nodes.size s'.register ∧
      ((∃ i, entry = .done i) ∧ s'.ids = s.ids ∨
        unvalued a.nodes.size s'.ids < unvalued a.nodes.size s.ids) := by
  unfold enter at h
  split at h
  · obtain ⟨rfl, rfl⟩ := Prod.mk.inj (Except.ok.inj h)
    exact ⟨.refl _ _, .inl ⟨⟨_, rfl⟩, rfl⟩⟩
  · rename_i hnone
    split at h
    · cases h
    · rename_i n hn
      have hid : id < a.nodes.size := (Array.getElem?_eq_some_iff.1 hn).1
      cases hcount : s.write (countNode options.nodeLimit) with
      | error e =>
        rw [hcount] at h
        cases h
      | ok p =>
        rw [hcount] at h
        -- counting gives no positions, and beginning a node none but its own
        obtain ⟨hregister, hids⟩ := Scope.of_write hcount
        obtain ⟨hgrows, hids'⟩ := of_begin hid h
        refine ⟨hregister ▸ hgrows, .inr ?_⟩
        rw [hids', ← hids]
        rw [← hids] at hnone
        exact unvalued_insert_lt p.2.slots.size hid hnone

end Loop

/-- **Writes the parts of the frames on the stack**, those of the innermost frame first, and then
these frames. Returns the position of the outermost one. -/
def serialize (options : CompileOptions) (a : Arena) (stack : List Frame) (s : Scope) :
    Except Error (Nat × Scope) :=
  match stack with
  | [] => .error (.unreachable "serialization stack emptied early")
  | ⟨node, position, child :: pending, done⟩ :: below =>
    match _hentry : enter options a s child with
    | .error e => .error e
    | .ok (.done i, s) => serialize options a (⟨node, position, pending, done.push i⟩ :: below) s
    | .ok (.opened inner, s) =>
      serialize options a (inner :: ⟨node, position, pending, done⟩ :: below) s
  | ⟨node, position, [], done⟩ :: below =>
    -- all parts have positions, and so has the node for the frame below
    let s := close s ⟨node, position, [], done⟩
    match below with
    | [] => .ok (position, s)
    | ⟨node, outer, pending, done⟩ :: below =>
      serialize options a (⟨node, outer, pending, done.push position⟩ :: below) s
termination_by (unvalued a.nodes.size s.ids, (stack.flatMap Frame.pending).length + stack.length)
decreasing_by
  · -- the part had a position and is no longer pending, or it has been given one
    rcases (of_enter _hentry).2 with ⟨-, hids⟩ | hlt
    · rw [hids]
      refine Prod.Lex.right _ ?_
      simp only [List.flatMap_cons, List.length_append, List.length_cons]
      omega
    · exact Prod.Lex.left _ _ hlt
  · -- a part that has to be written had no position
    rcases (of_enter _hentry).2 with ⟨⟨i, hentry⟩, -⟩ | hlt
    · cases hentry
    · exact Prod.Lex.left _ _ hlt
  · -- a frame is closed
    refine Prod.Lex.right _ ?_
    simp only [List.flatMap_cons, List.length_append, List.length_cons, List.length_nil]
    omega

/-- **Writes a node and everything below it** in the same grammar, and returns its position. -/
def serializeNode (options : CompileOptions) (a : Arena) (id : NodeId) (s : Scope) :
    Except Error (Nat × Scope) :=
  match enter options a s id with
  | .error e => .error e
  | .ok (.done position, s) => .ok (position, s)
  | .ok (.opened frame, s) => serialize options a [frame] s

section Loop

variable {options : CompileOptions} {a : Arena} {s s' : Scope}

variable {node : Node} {position child : Nat} {pending : List NodeId} {done : Array Nat}
  {below : List Frame}

theorem serialize_of_error {e : Error} (h : enter options a s child = .error e) :
    serialize options a (⟨node, position, child :: pending, done⟩ :: below) s = .error e := by
  rw [serialize]
  split <;> simp_all

theorem serialize_of_done {i : Nat} (h : enter options a s child = .ok (.done i, s')) :
    serialize options a (⟨node, position, child :: pending, done⟩ :: below) s =
      serialize options a (⟨node, position, pending, done.push i⟩ :: below) s' := by
  rw [serialize]
  split <;> simp_all

theorem serialize_of_opened {inner : Frame}
    (h : enter options a s child = .ok (.opened inner, s')) :
    serialize options a (⟨node, position, child :: pending, done⟩ :: below) s =
      serialize options a (inner :: ⟨node, position, pending, done⟩ :: below) s' := by
  rw [serialize]
  split <;> simp_all

theorem grows_of_serialize {stack : List Frame}
    (h : serialize options a stack s = .ok (position, s')) :
    s.register.Grows a.nodes.size s'.register := by
  induction stack, s using serialize.induct options a with
  | case1 s =>
    rw [serialize] at h
    cases h
  | case2 s node i child pending done below e hentry =>
    rw [serialize_of_error hentry] at h
    cases h
  | case3 s node i child pending done below j s₁ hentry ih =>
    rw [serialize_of_done hentry] at h
    exact (of_enter hentry).1.trans (ih h)
  | case4 s node i child pending done below inner s₁ hentry ih =>
    rw [serialize_of_opened hentry] at h
    exact (of_enter hentry).1.trans (ih h)
  | case5 s node i done =>
    rw [serialize] at h
    obtain ⟨-, rfl⟩ := Prod.mk.inj (Except.ok.inj h)
    exact .refl _ _
  | case6 s node i done s₁ outer j pending done' below ih =>
    rw [serialize] at h
    exact ih h

theorem grows_of_serializeNode {id : NodeId} {position : Nat}
    (h : serializeNode options a id s = .ok (position, s')) :
    s.register.Grows a.nodes.size s'.register := by
  unfold serializeNode at h
  split at h
  · cases h
  · rename_i hentry
    obtain ⟨rfl, rfl⟩ := Prod.mk.inj (Except.ok.inj h)
    exact (of_enter hentry).1
  · rename_i hentry
    exact (of_enter hentry).1.trans (grows_of_serialize h)

end Loop

/-! ### Grammars -/

/-- The nodes of a grammar, all of whose slots have to be filled. -/
def filled (slots : Array (Option (Artifact.Node Nat))) : Except Error (List (Artifact.Node Nat)) :=
  slots.toList.mapM fun
    | some node => .ok node
    | none => .error (.unreachable "grammar node slot never filled")

/-- **Writes a registered grammar.** -/
def serializeGrammar (options : CompileOptions) (a : Arena) (register : Register) (count : Nat)
    (key : NodeId) : Except Error (Artifact.Grammar Nat × Register × Nat) :=
  match a.grammarStart? key with
  | none => .error (.undefinedGrammar key)
  | some start =>
    match serializeNode options a start ⟨register, ⟨.empty, count⟩, ∅, #[]⟩ with
    | .error e => .error e
    | .ok (_ + 1, _) => .error (.unreachable "grammar start is not node 0")
    | .ok (0, s) => do
      let (skip, s) ← s.write (writeSkip a (a.grammarSkip? key))
      let nodes ← filled s.slots
      return (⟨nodes, false, skip, some false, s.state.table.entries.toList⟩, s.register,
        s.state.count)

/-- Only nested grammars are registered while a grammar is written. -/
theorem grows_of_serializeGrammar {options : CompileOptions} {a : Arena}
    {register register' : Register} {count count' : Nat} {key : NodeId}
    {grammar : Artifact.Grammar Nat}
    (h : serializeGrammar options a register count key = .ok (grammar, register', count')) :
    register.Grows a.nodes.size register' := by
  unfold serializeGrammar at h
  split at h
  · cases h
  · rename_i start hstart
    split at h
    · cases h
    · cases h
    · rename_i s hnodes
      refine (grows_of_serializeNode hnodes).trans ?_
      -- the skip is a regex, so no grammar is registered for it
      cases hwrite : s.write (writeSkip a (a.grammarSkip? key)) with
      | error e =>
        rw [hwrite] at h
        cases h
      | ok p =>
        rw [hwrite] at h
        cases hfilled : filled p.2.slots with
        | error e =>
          simp only [bind, Except.bind, hfilled] at h
          cases h
        | ok nodes =>
          simp only [bind, Except.bind, hfilled] at h
          obtain ⟨-, hrest⟩ := Prod.mk.inj (Except.ok.inj h)
          obtain ⟨rfl, -⟩ := Prod.mk.inj hrest
          exact (Scope.of_write hwrite).1 ▸ .refl _ _

/-- **Writes the registered grammars** from one of them on. More may be registered meanwhile. -/
def serializeGrammars (options : CompileOptions) (a : Arena) (index : Nat) (register : Register)
    (count : Nat) (done : Array (Artifact.Grammar Nat)) :
    Except Error (List (Artifact.Grammar Nat)) :=
  match _hkey : register.keys[index]? with
  | none => .ok done.toList
  | some key =>
    match _hgrammar : serializeGrammar options a register count key with
    | .error e => .error e
    | .ok (grammar, register, count) =>
      serializeGrammars options a (index + 1) register count (done.push grammar)
termination_by unvalued a.nodes.size register.positions + (register.keys.size - index)
decreasing_by
  have hgrows := grows_of_serializeGrammar _hgrammar
  have hle := hgrows.unvalued_le
  have htotal := hgrows.total_le
  have hlt := (Array.getElem?_eq_some_iff.1 _hkey).1
  omega

end Compile

namespace Arena

/-- **Compiles the grammar of a node and all grammars it reaches.** The grammar of a nested grammar
is that grammar itself; any other node is the start of a grammar of its own. -/
def compile (a : Arena) (options : CompileOptions) (root : NodeId) :
    Except Error (Artifact Nat) :=
  match a.node? root with
  | none => .error (.malformed .root (.unknownNode root))
  | some _ =>
    match Compile.Register.empty.add root with
    | (_ + 1, _) => .error (.unreachable "entry grammar is not grammar 0")
    | (0, register) => do
      let grammars ← Compile.serializeGrammars options a 0 register 0 #[]
      return ⟨grammars, options.maxTokens, options.testTrace⟩

/-- **Compiles to the written form**, whose positions are 32-bit words. -/
def emit (a : Arena) (options : CompileOptions) (root : NodeId) :
    Except Error (Artifact UInt32) :=
  (a.compile options root).map Artifact.narrow

end Arena

end GuidedGrammar
