import Std.Data.TreeMap
import GuidedGrammar.Error
import GuidedGrammar.Graph.Unseen
import GuidedGrammar.Regex.Order
import GuidedGrammar.Regex.Printer

/-!
# Regex tables

A table lists the regexes of one grammar, each once: an entry refers to its parts by their
positions in the table, and regexes of equal structure share one entry, whichever ids they have.
A regex is added after its parts, the parts in order.

Adding walks down from a regex with its own list of tasks, so deep regexes cannot exhaust the
call stack. While the parts of a regex are being added it is marked as in progress; meeting such
a mark again means that the regex reaches itself, and is reported. A failed addition leaves its
marks and finished entries behind.
-/

namespace GuidedGrammar

/-- **What a table knows about a regex.** -/
inductive RegexTable.Slot where
  /-- Its parts are being added. -/
  | inProgress
  /-- It has the entry at this position. -/
  | done (entry : Nat)
deriving DecidableEq, Repr

/-- **A table of regexes.** -/
structure RegexTable where
  /-- What is known about the regexes met so far. -/
  slots : Std.TreeMap RegexId RegexTable.Slot
  /-- The position of every entry. -/
  positions : Std.TreeMap (Regex Nat) Nat
  /-- The entries. -/
  entries : Array (Regex Nat)

namespace RegexTable

/-- The table without entries. -/
def empty : RegexTable :=
  ⟨∅, ∅, #[]⟩

instance : EmptyCollection RegexTable := ⟨empty⟩

instance : Inhabited RegexTable := ⟨empty⟩

/-- **Adds an entry**, unless there is an equal one, and returns its position. -/
def intern (t : RegexTable) (entry : Regex Nat) : Nat × RegexTable :=
  match t.positions[entry]? with
  | some i => (i, t)
  | none =>
    let ⟨slots, positions, entries⟩ := t
    (entries.size, ⟨slots, positions.insert entry entries.size, entries.push entry⟩)

/-- The position of the entry that a regex has been given, if it has one. -/
def entry? (t : RegexTable) (id : RegexId) : Option Nat :=
  match t.slots[id]? with
  | some (.done i) => some i
  | _ => none

/-- Notes what is known about a regex. -/
def setSlot (t : RegexTable) (id : RegexId) (slot : Slot) : RegexTable :=
  let ⟨slots, positions, entries⟩ := t
  ⟨slots.insert id slot, positions, entries⟩

/-- Whether the parts of a regex are being added. -/
def isInProgress (t : RegexTable) (id : RegexId) : Bool :=
  t.slots[id]? == some .inProgress

/-- How many regexes of a store of the given size the table has not met. -/
def unmet (size : Nat) (t : RegexTable) : Nat :=
  (List.range size).countP fun id => !t.slots.contains id

theorem slots_intern (t : RegexTable) (entry : Regex Nat) : (t.intern entry).2.slots = t.slots := by
  unfold intern
  split <;> rfl

theorem unmet_intern (size : Nat) (t : RegexTable) (entry : Regex Nat) :
    unmet size (t.intern entry).2 = unmet size t := by
  simp only [unmet, slots_intern]

theorem unmet_setSlot_le (size : Nat) (t : RegexTable) (id : RegexId) (slot : Slot) :
    unmet size (t.setSlot id slot) ≤ unmet size t :=
  Graph.unvalued_insert_le size t.slots id slot

theorem unmet_setSlot_lt {size : Nat} {t : RegexTable} {id : RegexId} (slot : Slot)
    (hid : id < size) (hslot : t.slots[id]? = none) :
    unmet size (t.setSlot id slot) < unmet size t :=
  Graph.unvalued_insert_lt slot hid hslot

/-- **A step of adding regexes.** -/
inductive Task where
  /-- Add the parts of a regex, then the regex. -/
  | visit (id : RegexId)
  /-- Add a regex whose parts have been added. -/
  | finish (id : RegexId)
deriving Repr

/-- The error for an id that names no regex. -/
def unknownRegex (id : RegexId) : Error :=
  .malformed .regex (.unknownRegex id)

/-- The error for a regex that reaches itself. -/
def circular (store : RegexStore) (id : RegexId) : Error :=
  .circularRegex ⟨id, Regex.render store id⟩

/-- **Carries out the tasks in order**, up to the first error. When a regex is visited, a part that
is in progress is an error, the last such part being reported, and the parts that have not been
met are visited before the regex is finished. -/
def run (store : RegexStore) (tasks : List Task) (t : RegexTable) : Except Error Unit × RegexTable :=
  match tasks with
  | [] => (.ok (), t)
  | .finish id :: rest =>
    match store[id]? with
    | none => (.error (unknownRegex id), t)
    | some regex =>
      match regex.mapParts? t.entry? with
      | none => (.error (.unreachable "regex child serialized out of order"), t)
      | some entry =>
        let added := t.intern entry
        run store rest (added.2.setSlot id (.done added.1))
  | .visit id :: rest =>
    if hid : id < store.size then
      match _hslot : t.slots[id]? with
      | some (.done _) => run store rest t
      | some .inProgress => (.error (circular store id), t)
      | none =>
        let parts := store[id].parts
        let marked := t.setSlot id .inProgress
        match parts.reverse.find? marked.isInProgress with
        | some part => (.error (circular store part), marked)
        | none =>
          let unvisited := parts.filter fun part => !marked.slots.contains part
          run store (unvisited.map .visit ++ .finish id :: rest) marked
    else (.error (unknownRegex id), t)
termination_by (t.unmet store.size, tasks.length)
decreasing_by
  · have hle := unmet_setSlot_le store.size added.2 id (.done added.1)
    rw [unmet_intern] at hle
    rcases Nat.lt_or_eq_of_le hle with h | h
    · exact Prod.Lex.left _ _ h
    · rw [h]
      exact Prod.Lex.right _ (Nat.lt_succ_self _)
  · exact Prod.Lex.right _ (Nat.lt_succ_self _)
  · exact Prod.Lex.left _ _ (unmet_setSlot_lt _ hid _hslot)

/-- **Adds a regex and everything below it**, and returns the position of its entry. -/
def add (t : RegexTable) (store : RegexStore) (root : RegexId) : Except Error Nat × RegexTable :=
  match run store [.visit root] t with
  | (.error e, t) => (.error e, t)
  | (.ok (), t) =>
    match t.entry? root with
    | some i => (.ok i, t)
    | none => (.error (.unreachable "regex root left unserialized"), t)

/-- The entries with their references in 32-bit words. A reference that has no place there wraps
around. -/
def narrowEntries (t : RegexTable) : List (Regex UInt32) :=
  t.entries.toList.map (Regex.map Nat.toUInt32)

end RegexTable

namespace RegexStore

/-- **Checks a regex**: it and everything below it has to exist, and no regex may reach itself. -/
def check (store : RegexStore) (id : RegexId) : Except Error Unit :=
  (RegexTable.empty.add store id).1.map fun _ => ()

end RegexStore

end GuidedGrammar
