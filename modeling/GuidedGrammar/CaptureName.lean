/-!
# Names of captures

Matched text is reported under a name. A name that starts with the list mark stands for a list:
every match is appended under the rest of the name.
-/

namespace GuidedGrammar.CaptureName

/-- What the name of a list starts with. -/
def listMark : String := "__LIST_APPEND:"

/-- **The name under which matches are appended** to the list called `name`. -/
def ofList (name : String) : String :=
  listMark ++ name

/-- The list that a capture name stands for, if it stands for one. -/
def list? (name : String) : Option String :=
  (listMark.toList.isPrefixOf? name.toList).map String.ofList

end GuidedGrammar.CaptureName
