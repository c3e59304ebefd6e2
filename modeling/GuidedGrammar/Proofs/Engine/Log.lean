import Mathlib.Data.List.Basic
import GuidedGrammar.Proofs.Data.Except
import GuidedGrammar.Proofs.Engine.Collecting

/-!
# Logs in pieces

The engine's log arrives in pieces. Where a piece ends with a line feed the next one starts a new
line, whatever comes before or after it, so a log may be cut after any line feed
(`Text.lines_append`, `Transcript.handleLog_append`).

A line is added as a whole or not at all. The lines that cannot be added are those that are marked
as events and do not hold one (`Transcript.handleLine_eq_error_iff`), and the first of them ends the
piece: the lines before it have been added, and those after it have not
(`Transcript.handleLog_stops_cleanly`).
-/

namespace GuidedGrammar

/-! ### Lines -/

namespace Text

/-- Nothing is carried across a line feed. -/
theorem linesFrom_append (reversed cs ds : List Char) :
    linesFrom reversed (cs ++ '\n' :: ds) =
      linesFrom reversed (cs ++ ['\n']) ++ linesFrom [] ds := by
  induction cs generalizing reversed with
  | nil =>
    have hend : linesFrom [] [] = [] := rfl
    rw [List.nil_append, List.nil_append, linesFrom, linesFrom, if_pos rfl, if_pos rfl, hend,
      List.singleton_append]
  | cons c cs ih =>
    simp only [List.cons_append, linesFrom]
    split
    · rw [ih, List.cons_append]
    · exact ih (c :: reversed)

/-- **The lines of a text that is cut after a line feed.** -/
theorem lines_append (a b : String) : lines (a ++ "\n" ++ b) = lines (a ++ "\n") ++ lines b := by
  have hfeed : "\n".toList = ['\n'] := rfl
  rw [lines, lines, lines, String.toList_append, String.toList_append, hfeed, List.append_assoc]
  exact linesFrom_append [] a.toList b.toList

/-- A carriage return belongs to the end of its line only if a line feed follows. -/
example : lines "a\r\nb\r" = ["a", "b\r"] := by decide

end Text

namespace Transcript

variable {t t' : Transcript} {line log : String} {e : OutputError}

/-! ### Failures -/

/-- A line that cannot be added: it is marked as an event and does not hold one. -/
def IsMalformed (line : String) : Prop :=
  ∃ json, line = eventMark ++ json ∧ Event.parse? json = none

/-- **How a line fails**: without a trace. -/
theorem handleLine_eq_error_iff :
    (handleLine line).run t = .error e t' ↔ IsMalformed line ∧ e = .malformedEvent ∧ t' = t := by
  rw [handleLine]
  cases hline : Text.after? eventMark line with
  | none =>
    -- without the mark the line is kept or dropped, and never fails
    have hnot : ¬ IsMalformed line := by
      rintro ⟨json, hjson, -⟩
      exact Option.some_ne_none json ((Text.after?_eq_some_iff.2 hjson).symm.trans hline)
    refine iff_of_false (fun h => ?_) fun h => hnot h.1
    simp only at h
    split at h
    · cases h
    · cases h
  | some json =>
    obtain rfl := Text.after?_eq_some_iff.1 hline
    -- after the mark the line is malformed just when what follows is not an event
    have hmalformed : IsMalformed (eventMark ++ json) ↔ Event.parse? json = none := by
      refine ⟨?_, fun h => ⟨json, rfl, h⟩⟩
      rintro ⟨json', hjson, h⟩
      rw [Text.after?_eq_some_iff.2 hjson] at hline
      rw [← Option.some.inj hline]
      exact h
    rw [hmalformed]
    dsimp only
    cases Event.parse? json with
    | none =>
      refine ⟨fun h => ?_, ?_⟩
      · obtain ⟨rfl, rfl⟩ := EStateM.Result.error.inj h
        exact ⟨rfl, rfl, rfl⟩
      · rintro ⟨-, rfl, rfl⟩
        rfl
    | some event => exact iff_of_false (fun h => nomatch h) fun h => nomatch h.1

/-- How a log fails: at its first malformed line, with the lines before it added. -/
theorem handleLog_eq_error_iff :
    (handleLog log).run t = .error e t' ↔
      ∃ before line after, Text.lines log = before ++ line :: after ∧ IsMalformed line ∧
        e = .malformedEvent ∧ (before.forM handleLine).run t = .ok () t' := by
  rw [handleLog, EStateM.forM_eq_error_iff]
  constructor
  · rintro ⟨before, line, after, t₁, hlines, hbefore, hline⟩
    obtain ⟨hmalformed, rfl, rfl⟩ := handleLine_eq_error_iff.1 hline
    exact ⟨before, line, after, hlines, hmalformed, rfl, hbefore⟩
  · rintro ⟨before, line, after, hlines, hmalformed, he, hbefore⟩
    exact ⟨before, line, after, t', hlines, hbefore,
      handleLine_eq_error_iff.2 ⟨hmalformed, he, rfl⟩⟩

/-! ### Pieces of a log -/

/-- **A log may be cut after any line feed.** -/
theorem handleLog_append (a b : String) :
    handleLog (a ++ "\n" ++ b) = handleLog (a ++ "\n") >>= fun _ => handleLog b := by
  rw [handleLog, handleLog, handleLog, Text.lines_append]
  exact List.forM_append

/-- A log may be cut after any line feeds, and so may arrive in any number of pieces. -/
theorem handleLog_pieces (pieces : List String) (last : String) :
    handleLog (String.join (pieces.map (· ++ "\n")) ++ last) =
      (pieces.forM fun piece => handleLog (piece ++ "\n")) >>= fun _ => handleLog last := by
  induction pieces with
  | nil => rfl
  | cons piece pieces ih =>
    show _ = (handleLog (piece ++ "\n") >>= fun _ =>
      pieces.forM fun piece => handleLog (piece ++ "\n")) >>= fun _ => handleLog last
    rw [List.map_cons, String.join_cons, String.append_assoc, handleLog_append, ih, bind_assoc]

/-- **Logs are handled piece by piece and fail cleanly.** A log that is cut after a line feed is
handled as its two pieces are, the second one only if the first one has not failed. A line that
fails leaves the transcript as it was, and fails because it is marked as an event and does not hold
one. A log fails at its first such line: exactly the lines before it are added. -/
theorem handleLog_stops_cleanly (t : Transcript) :
    (∀ a b : String, (handleLog (a ++ "\n" ++ b)).run t =
      (handleLog (a ++ "\n") >>= fun _ => handleLog b).run t) ∧
    (∀ line e t', (handleLine line).run t = .error e t' ↔
      (∃ json, line = eventMark ++ json ∧ Event.parse? json = none) ∧
        e = .malformedEvent ∧ t' = t) ∧
    ∀ log e t', (handleLog log).run t = .error e t' ↔
      ∃ before line after, Text.lines log = before ++ line :: after ∧
        (∃ json, line = eventMark ++ json ∧ Event.parse? json = none) ∧
        e = .malformedEvent ∧ (before.forM handleLine).run t = .ok () t' :=
  ⟨fun a b => by rw [handleLog_append], fun _ _ _ => handleLine_eq_error_iff,
    fun _ _ _ => handleLog_eq_error_iff⟩

end Transcript

end GuidedGrammar
