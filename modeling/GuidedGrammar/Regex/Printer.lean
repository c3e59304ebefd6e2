import GuidedGrammar.Regex.Basic
import GuidedGrammar.Text.ByteEscape
import GuidedGrammar.Text.Cut
import GuidedGrammar.Text.Quoted

/-!
# Regexes as readable text

A regex is shown with everything below it on one line, cut to a fixed number of bytes. Texts are
quoted, pattern source stands between slashes, and the combining forms show their parts. Every
combining form writes something before it shows its parts, so even a regex that reaches itself
has a finite rendering: the printer shows no more regexes as soon as the text is long enough to be
cut. What it still writes after that, such as closing parentheses, is cut off.
-/

namespace GuidedGrammar.Regex

/-- How many bytes of a rendering are kept. -/
def renderLimit : Nat := 1024

/-- **A step of the printer**: show a regex, or write a text. -/
inductive PrintTask where
  | regex (id : RegexId)
  | text (s : String)
deriving Repr

/-- The tasks that show the parts with `separator` between them. -/
def listTasks (separator : String) (parts : List RegexId) : List PrintTask :=
  (parts.map .regex).intersperse (.text separator)

/-- The text that ends a repetition. -/
def boundsText (min : UInt32) (max : Option UInt32) : String :=
  ")\x7b" ++ toString min.toNat ++ "," ++ (max.elim "" fun m => toString m.toNat) ++ "\x7d"

/-- **The form of a regex**: the text it starts with, and the tasks for the rest. -/
def form : Regex RegexId → String × List PrintTask
  | literal text => (Text.quote text, [])
  | pattern source => ("/", [.text source, .text "/"])
  | byteLiteral bytes => ("b\"", [.text (Text.escapeBytes bytes), .text "\""])
  | byte b => ("b'", [.text (Text.escapeByte b), .text "'"])
  | byteSet words => ("byteset(", [.text (toString (byteSetSize words)), .text ")"])
  | union parts => ("(", listTasks " | " parts ++ [.text ")"])
  | intersection parts => ("(", listTasks " & " parts ++ [.text ")"])
  | concatenation parts => ("(", listTasks " " parts ++ [.text ")"])
  | complement part => ("~", [.regex part])
  | lookahead part => ("lookahead(", [.regex part, .text ")"])
  | repetition part min max => ("(", [.regex part, .text (boundsText min max)])
  | emptyText => ("\"\"", [])
  | nothing => ("nomatch", [])

/-- Every form starts with a text of at least one byte. -/
theorem form_start_pos (r : Regex RegexId) : 0 < r.form.1.utf8ByteSize := by
  cases r
  case literal text =>
    have : 0 < (String.singleton '"').utf8ByteSize := by decide
    simp only [form, Text.quote, Text.quoteChars, String.ofList_cons, String.utf8ByteSize_append]
    omega
  all_goals simp only [form]; decide

/-- Carries out the tasks in order and writes behind `written`. Once more than the limit is written,
regexes are passed over, and only the texts around them are written. A regex that the store does not
hold is shown as unknown. -/
def printTasks (store : RegexStore) (tasks : List PrintTask) (written : String) : String :=
  match tasks with
  | [] => written
  | .text s :: rest => printTasks store rest (written ++ s)
  | .regex id :: rest =>
    if renderLimit < written.utf8ByteSize then printTasks store rest written
    else
      match store[id]? with
      | none => printTasks store rest (written ++ "<unknown rx#" ++ toString id ++ ">")
      | some r => printTasks store (r.form.2 ++ rest) (written ++ r.form.1)
termination_by (renderLimit + 1 - written.utf8ByteSize, tasks.length)
decreasing_by
  · simp only [String.utf8ByteSize_append, List.length_cons]
    rcases Nat.lt_or_eq_of_le (Nat.sub_le_sub_left (Nat.le_add_right _ _) (renderLimit + 1))
      with h | h
    · exact Prod.Lex.left _ _ h
    · rw [h]
      exact Prod.Lex.right _ (Nat.lt_succ_self _)
  · exact Prod.Lex.right _ (Nat.lt_succ_self _)
  · apply Prod.Lex.left
    simp only [String.utf8ByteSize_append]
    have : 0 < "<unknown rx#".utf8ByteSize := by decide
    omega
  · apply Prod.Lex.left
    have := form_start_pos r
    simp only [String.utf8ByteSize_append]
    omega

/-- **The rendering of a regex**, cut to the limit. -/
def render (store : RegexStore) (id : RegexId) : String :=
  Text.truncate renderLimit (printTasks store [.regex id] "")

end GuidedGrammar.Regex
