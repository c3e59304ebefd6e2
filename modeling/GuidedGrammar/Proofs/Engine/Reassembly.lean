import Mathlib
import GuidedGrammar.Proofs.Engine.Collecting
import GuidedGrammar.Proofs.Text.Hex
import GuidedGrammar.Proofs.Text.Utf8

/-!
# Reassembling the output

The engine adds bytes to the output in chunks, which need not end where a character ends, and shows
each chunk in hexadecimal. The additions arrive among captures and other reports, one by one or in
the lines of a log. Whatever they arrive among, and wherever the output is cut, the transcript puts
the chunks together again (`Transcript.handle_reassembles`).

Deliveries are described by the events that they carry (`Delivery.Carries`). An action adds what it
carries to everything that has been collected before (`Transcript.Adds`), and a sequence of actions
adds it in sequence.
-/

namespace GuidedGrammar

open Text (ShowsHex HexFault HexError)

/-! ### Deliveries -/

/-- The events of a line of the log. A warning has none, nor has any other line that is not
marked as an event. -/
inductive LineCarries : String → List Event → Prop where
  | event {json : String} {e : Event} (h : Event.parse? json = some e) :
    LineCarries (Transcript.eventMark ++ json) [e]
  | other {line : String} (h : ∀ json, line ≠ Transcript.eventMark ++ json) : LineCarries line []

theorem lineCarries_of_after?_eq_none {line : String}
    (h : Text.after? Transcript.eventMark line = none) : LineCarries line [] :=
  .other fun _ hline => Option.ne_none_iff_exists'.2 ⟨_, Text.after?_eq_some_iff.2 hline⟩ h

/-- What the engine delivers: an event, or a piece of its log. -/
inductive Delivery where
  | event (e : Event)
  | log (piece : String)

namespace Delivery

/-- **The events of a delivery.** -/
inductive Carries : Delivery → List Event → Prop where
  | event (e : Event) : Carries (event e) [e]
  | log {piece : String} {ess : List (List Event)}
    (h : List.Forall₂ LineCarries (Text.lines piece) ess) : Carries (log piece) ess.flatten

/-- Hands a delivery to the transcript. -/
def handle : Delivery → EStateM OutputError Transcript Unit
  | event e => modify (·.handle e)
  | log piece => Transcript.handleLog piece

end Delivery

namespace Transcript

/-! ### Adding events -/

/-- **An action adds events** to what has been collected before. -/
def Adds (action : EStateM OutputError Transcript Unit) (es : List Event) : Prop :=
  ∀ before t, Collects before t →
    ∃ t', action.run t = .ok () t' ∧ Collects (before ++ es) t'

theorem Collects.warn {es : List Event} {t : Transcript} (h : Collects es t)
    (warnings : Array String) : Collects es { t with warnings := warnings } :=
  ⟨h.captures, h.names, h.lists, h.text, h.isDone⟩

theorem adds_nil : Adds (pure ()) [] := fun before t h =>
  ⟨t, rfl, (List.append_nil before).symm ▸ h⟩

theorem adds_warning (change : Array String → Array String) :
    Adds (modify fun t => { t with warnings := change t.warnings }) [] := fun before _ h =>
  ⟨_, rfl, (List.append_nil before).symm ▸ h.warn _⟩

theorem adds_event (e : Event) : Adds (modify (·.handle e)) [e] := fun _ _ h =>
  ⟨_, rfl, h.handle e⟩

theorem adds_bind {first second : EStateM OutputError Transcript Unit} {es es' : List Event}
    (hfirst : Adds first es) (hsecond : Adds second es') :
    Adds (first >>= fun _ => second) (es ++ es') := by
  intro before t ht
  obtain ⟨t₁, hrun, ht₁⟩ := hfirst before t ht
  obtain ⟨t₂, hrest, ht₂⟩ := hsecond _ t₁ ht₁
  refine ⟨t₂, ?_, List.append_assoc before es es' ▸ ht₂⟩
  rw [EStateM.run_bind, hrun]
  exact hrest

/-- Actions in sequence add their events in sequence. -/
theorem adds_forM {α : Type} {action : α → EStateM OutputError Transcript Unit}
    {carries : α → List Event → Prop} (haction : ∀ x es, carries x es → Adds (action x) es)
    {xs : List α} {ess : List (List Event)} (h : List.Forall₂ carries xs ess) :
    Adds (xs.forM action) ess.flatten := by
  induction h with
  | nil => exact adds_nil
  | cons hx _ ih => exact adds_bind (haction _ _ hx) ih

variable {es : List Event}

theorem adds_handleLine {line : String} (h : LineCarries line es) : Adds (handleLine line) es := by
  cases h with
  | @event json e h =>
    have hjson : Text.after? eventMark (eventMark ++ json) = some json :=
      Text.after?_eq_some_iff.2 rfl
    rw [handleLine, hjson]
    simp only [h]
    exact adds_event e
  | other h =>
    have hjson : Text.after? eventMark line = none :=
      Option.eq_none_iff_forall_ne_some.2 fun json hjson => h json (Text.after?_eq_some_iff.1 hjson)
    rw [handleLine, hjson]
    simp only
    split
    · exact adds_warning (·.push line)
    · exact adds_nil

theorem adds_delivery {d : Delivery} (h : d.Carries es) : Adds d.handle es := by
  cases h with
  | event e => exact adds_event e
  | log h => exact adds_forM (fun _ _ h => adds_handleLine h) h

/-! ### Bytes -/

theorem bytesOf_of_showsHex {hex : String} {bytes : List UInt8} (h : ShowsHex hex bytes) :
    bytesOf hex = .ok bytes := by
  rw [bytesOf, Text.decodeHex_eq_ok_iff.2 h]
  rfl

theorem bytesOf_of_hexFault {hex : String} {err : HexError} (h : HexFault hex err) :
    bytesOf hex = .error (.malformedHex err) := by
  rw [bytesOf, Text.decodeHex_eq_error_iff.2 h]
  rfl

/-- The first fault of additions to the output. -/
def FirstFault (texts : List TextEvent) (err : HexError) : Prop :=
  ∃ before e after, texts = before ++ e :: after ∧
    (∀ e' ∈ before, ∃ chunk, ShowsHex e'.hex chunk) ∧ HexFault e.hex err

variable {texts : List TextEvent}

theorem exists_firstFault (h : ∃ e ∈ texts, ¬∃ chunk, ShowsHex e.hex chunk) :
    ∃ err, FirstFault texts err := by
  induction texts with
  | nil => exact absurd h (by simp)
  | cons e texts ih =>
    by_cases he : ∃ chunk, ShowsHex e.hex chunk
    · obtain ⟨e', hmem, he'⟩ := h
      have hrest : e' ∈ texts := (List.mem_cons.1 hmem).resolve_left fun heq => he' (heq ▸ he)
      obtain ⟨err, before, e₁, after, rfl, hbefore, hfault⟩ := ih ⟨e', hrest, he'⟩
      exact ⟨err, e :: before, e₁, after, rfl, List.forall_mem_cons.2 ⟨he, hbefore⟩, hfault⟩
    · obtain ⟨err, hfault⟩ := Text.exists_hexFault he
      exact ⟨err, [], e, texts, rfl, fun _ h => absurd h List.not_mem_nil, hfault⟩

theorem mapM_bytesOf_of_showsHex {chunks : List (List UInt8)}
    (h : List.Forall₂ (fun e chunk => ShowsHex e.hex chunk) texts chunks) :
    (texts.mapM fun e => bytesOf e.hex) = .ok chunks := by
  induction h with
  | nil => rfl
  | cons he _ ih =>
    rw [List.mapM_cons, bytesOf_of_showsHex he, ih]
    rfl

theorem mapM_bytesOf_of_firstFault {err : HexError} (h : FirstFault texts err) :
    (texts.mapM fun e => bytesOf e.hex) = .error (.malformedHex err) := by
  obtain ⟨before, e, after, rfl, hbefore, hfault⟩ := h
  induction before with
  | nil =>
    rw [List.nil_append, List.mapM_cons, bytesOf_of_hexFault hfault]
    rfl
  | cons e' before ih =>
    obtain ⟨⟨chunk, he'⟩, hbefore⟩ := List.forall_mem_cons.1 hbefore
    rw [List.cons_append, List.mapM_cons, bytesOf_of_showsHex he', ih hbefore]
    rfl

/-! ### The output -/

/-- A transcript puts additions to the output together, wherever the output is cut. -/
structure Reassembles (texts : List TextEvent) (t : Transcript) : Prop where
  /-- The bytes are those of all chunks. -/
  bytes : ∀ bytes chunks, List.flatten chunks = bytes →
    List.Forall₂ (fun e chunk => ShowsHex e.hex chunk) texts chunks → t.textBytes = .ok bytes
  /-- A text that they are the bytes of is the output. -/
  string : ∀ s chunks, List.flatten chunks = Text.utf8Bytes s →
    List.Forall₂ (fun e chunk => ShowsHex e.hex chunk) texts chunks → t.textString = .ok s
  /-- Where some chunk is not shown, the first fault is reported. -/
  fault : (∃ e ∈ texts, ¬∃ chunk, ShowsHex e.hex chunk) →
    ∃ err, FirstFault texts err ∧ t.textBytes = .error (.malformedHex err) ∧
      t.textString = .error (.malformedHex err)

theorem reassembles {t : Transcript} (h : t.text.toList = texts) : Reassembles texts t where
  bytes bytes chunks hbytes hchunks := by
    rw [textBytes, h, mapM_bytesOf_of_showsHex hchunks, ← hbytes]
    rfl
  string s chunks hs hchunks := by
    have hread : Text.decodeUtf8 chunks.flatten = s := by rw [hs, Text.decodeUtf8_utf8Bytes]
    rw [textString, textBytes, h, mapM_bytesOf_of_showsHex hchunks, ← hread]
    rfl
  fault hfault := by
    obtain ⟨err, herr⟩ := exists_firstFault hfault
    refine ⟨err, herr, ?_, ?_⟩
    · rw [textBytes, h, mapM_bytesOf_of_firstFault herr]
      rfl
    · rw [textString, textBytes, h, mapM_bytesOf_of_firstFault herr]
      rfl

/-- **The output is put together whatever its chunks arrive among.** -/
theorem handle_reassembles (ds : List Delivery) (ess : List (List Event))
    (h : List.Forall₂ Delivery.Carries ds ess) :
    ∃ t, (ds.forM Delivery.handle).run {} = .ok () t ∧
      Reassembles (Event.texts ess.flatten) t := by
  obtain ⟨t, hrun, ht⟩ := adds_forM (fun _ _ h => adds_delivery h) h [] {} collects_nil
  exact ⟨t, hrun, reassembles ht.text⟩

/-- The output is cut inside the euro sign. The first chunk stands in a log between a warning and
another line, and a capture whose bytes are not shown arrives before the second chunk. -/
theorem handle_reassembles_euro :
    let first : TextEvent := { hex := "41E2", str := "A" }
    let second : TextEvent := { hex := "82aC", str := "" }
    let json := "\x7b\"object\":\"text\",\"hex\":\"41E2\",\"str\":\"A\"\x7d"
    let log := "Warning: slow\n" ++ eventMark ++ json ++ "\nchatter"
    let ds : List Delivery :=
      [.log log, .event (.capture ⟨"sign", "zz", "", .zero⟩), .event (.text second),
        .event (.finalText {})]
    Event.parse? json = some (.text first) ∧
      ∃ t, (ds.forM Delivery.handle).run {} = .ok () t ∧
        t.textBytes = .ok [0x41, 0xe2, 0x82, 0xac] ∧ t.textString = .ok "A\u20ac" := by
  intro first second json log ds
  have hjson : Event.parse? json = some (.text first) := by cbv
  have hlines : Text.lines log = ["Warning: slow", eventMark ++ json, "chatter"] := by decide
  have hcarries : List.Forall₂ LineCarries (Text.lines log) [[], [.text first], []] := by
    rw [hlines]
    exact .cons (lineCarries_of_after?_eq_none (by decide))
      (.cons (.event hjson) (.cons (lineCarries_of_after?_eq_none (by decide)) .nil))
  obtain ⟨t, hrun, ht⟩ := handle_reassembles ds _
    (.cons (.log hcarries) (.cons (.event _) (.cons (.event _) (.cons (.event _) .nil))))
  have hchunks : List.Forall₂ (fun e chunk => ShowsHex (TextEvent.hex e) chunk) [first, second]
      [[0x41, 0xe2], [0x82, 0xac]] :=
    .cons (by decide) (.cons (by decide) .nil)
  exact ⟨hjson, t, hrun, ht.bytes _ _ rfl hchunks, ht.string _ _ (by decide) hchunks⟩

end Transcript

end GuidedGrammar
