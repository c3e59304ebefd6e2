import GuidedGrammar.Json.Basic
import GuidedGrammar.Text.Quoted

/-!
# Writing JSON

A value is written either without any blank or with one item or member to a line. The two forms
differ only in the blanks around the punctuation, which a layout gives.
-/

namespace GuidedGrammar.Json

/-- **The blanks of a written form.** -/
structure Layout where
  /-- What is written before an item at the given depth, and before the bracket that closes a
  container at the given depth. -/
  lineStart : Nat → List Char
  /-- What is written between the name and the value of a member. -/
  colon : List Char

namespace Layout

/-- No blank at all. -/
def compact : Layout :=
  ⟨fun _ => [], [':']⟩

/-- One item or member to a line, indented by two spaces for each level. -/
def indented : Layout :=
  ⟨fun depth => '\n' :: List.replicate (2 * depth) ' ', [':', ' ']⟩

end Layout

/-- The characters of a text. A text that no string holds has no written form; it is written as
an empty one. -/
def renderText (s : JsonText) : List Char :=
  Text.quoteChars (s.getD "").toList

/-- The written items of a container at the given depth, between its brackets. -/
def enclose (layout : Layout) (depth : Nat) (opening closing : Char) (items : List (List Char)) :
    List Char :=
  if items.isEmpty then [opening, closing]
  else
    opening :: (layout.lineStart (depth + 1) ++
      (List.intercalate (',' :: layout.lineStart (depth + 1)) items ++
        (layout.lineStart depth ++ [closing])))

/-- **The characters of a value** that stands at the given depth. -/
def renderAt (layout : Layout) (depth : Nat) (value : Json) : List Char :=
  match value with
  | .null => ['n', 'u', 'l', 'l']
  | .bool true => ['t', 'r', 'u', 'e']
  | .bool false => ['f', 'a', 'l', 's', 'e']
  | .number x => x.render
  | .text s => renderText s
  | .array items => enclose layout depth '[' ']' (items.map fun v => renderAt layout (depth + 1) v)
  | .object members =>
    enclose layout depth '\x7b' '\x7d' (members.map fun m =>
      renderText m.1 ++ layout.colon ++ renderAt layout (depth + 1) m.2)
termination_by value
decreasing_by
  · have := List.sizeOf_lt_of_mem ‹v ∈ items›
    simp only [Json.array.sizeOf_spec]
    omega
  · have hm := List.sizeOf_lt_of_mem ‹m ∈ members›
    obtain ⟨name, value⟩ := m
    simp only [Prod.mk.sizeOf_spec, Json.object.sizeOf_spec] at hm ⊢
    omega

/-- **The compact text of a value.** -/
def render (v : Json) : String :=
  String.ofList (v.renderAt .compact 0)

/-- **The indented text of a value.** -/
def renderIndented (v : Json) : String :=
  String.ofList (v.renderAt .indented 0)

end GuidedGrammar.Json
