import Mathlib.Data.List.Basic
import Mathlib.Data.List.Induction
import GuidedGrammar.Engine.Transcript
import GuidedGrammar.Proofs.Graph.Order

/-!
# What a transcript collects

A transcript is determined by the stream of events that it has been given, in a way that can be said
without it (`Transcript.Reports`): by the captures of each name, the additions to the output and the
end of the output, each in order of arrival. How captures of different names, additions and the end
are interleaved makes no difference to what is reported, apart from the order in which names are
listed (`Transcript.ofEvents_reports`).

One event is added to what has been collected before (`Transcript.Collects.handle`), and so are all
events of a stream (`Transcript.collects_ofEvents`).
-/

namespace GuidedGrammar

/-! ### Marked texts -/

/-- What follows a beginning. -/
theorem Text.after?_eq_some_iff {start s rest : String} :
    after? start s = some rest ↔ s = start ++ rest := by
  rw [after?, Option.map_eq_some_iff]
  constructor
  · rintro ⟨cs, hcs, rfl⟩
    rw [List.isPrefixOf?_eq_some_iff_append_eq] at hcs
    rw [← String.toList_inj, String.toList_append, String.toList_ofList, hcs]
  · rintro rfl
    refine ⟨rest.toList, ?_, String.ofList_toList⟩
    rw [List.isPrefixOf?_eq_some_iff_append_eq, String.toList_append]

namespace CaptureName

/-- The names that stand for lists. -/
theorem list?_eq_some_iff {name list : String} : list? name = some list ↔ name = ofList list :=
  Text.after?_eq_some_iff

theorem list?_ofList (list : String) : list? (ofList list) = some list :=
  list?_eq_some_iff.2 rfl

theorem ofList_inj {list list' : String} : ofList list = ofList list' ↔ list = list' := by
  refine ⟨fun h => ?_, congrArg ofList⟩
  have hlist := list?_ofList list
  rw [h, list?_ofList] at hlist
  exact (Option.some.inj hlist).symm

end CaptureName

/-! ### Values by name -/

namespace Named

variable {α : Type} {xs : Named α} {name : String} {change : Option α → α}

/-- The values after a change. -/
theorem value?_update (xs : Named α) (name : String) (change : Option α → α) (other : String) :
    value? (xs.update name change) other =
      if other = name then some (change (xs.value? name)) else xs.value? other := by
  induction xs with
  | nil =>
    by_cases h : other = name
    · simp [update, value?, h]
    · simp [update, value?, h, List.lookup_cons, beq_eq_false_iff_ne.2 h]
  | cons x xs ih =>
    obtain ⟨first, x⟩ := x
    unfold value? at ih ⊢
    -- the first entry is the one changed, or it is passed over
    by_cases hfirst : first = name
    · subst hfirst
      by_cases h : other = first
      · simp [update, h]
      · simp [update, h, List.lookup_cons, beq_eq_false_iff_ne.2 h]
    · have hfirst' : (name == first) = false := beq_eq_false_iff_ne.2 (Ne.symm hfirst)
      rw [update, if_neg hfirst, List.lookup_cons, ih, List.lookup_cons, List.lookup_cons, hfirst']
      by_cases h : other = first
      · subst h
        simp [hfirst]
      · simp [beq_eq_false_iff_ne.2 h]

/-- The names after a change: a new name is the last one. -/
theorem names_update (xs : Named α) (name : String) (change : Option α → α) :
    (xs.update name change).map Prod.fst =
      if name ∈ xs.map Prod.fst then xs.map Prod.fst else xs.map Prod.fst ++ [name] := by
  induction xs with
  | nil => simp [update]
  | cons x xs ih =>
    obtain ⟨first, x⟩ := x
    by_cases hfirst : first = name
    · simp [update, hfirst]
    · have hmem : name ∈ first :: xs.map Prod.fst ↔ name ∈ xs.map Prod.fst := by
        simp [Ne.symm hfirst]
      rw [update, if_neg hfirst, List.map_cons, ih, List.map_cons]
      by_cases h : name ∈ xs.map Prod.fst
      · rw [if_pos h, if_pos (hmem.2 h)]
      · rw [if_neg h, if_neg fun h' => h (hmem.1 h'), List.cons_append]

/-- Where no name is listed twice, what is listed under a name is its value. -/
theorem value?_of_mem (hnodup : (xs.map Prod.fst).Nodup) {x : α} (h : (name, x) ∈ xs) :
    xs.value? name = some x := by
  induction xs with
  | nil => exact absurd h List.not_mem_nil
  | cons y xs ih =>
    obtain ⟨hy, hnodup⟩ := List.nodup_cons.1 hnodup
    rw [value?, List.lookup_cons]
    rcases List.mem_cons.1 h with rfl | h
    · rw [beq_self_eq_true]
    · have hne : (name == y.1) = false :=
        beq_eq_false_iff_ne.2 fun heq => hy (heq ▸ List.mem_map_of_mem h)
      rw [hne]
      exact ih hnodup h

end Named

/-! ### Streams of events -/

namespace Event

/-- The capture that an event is. -/
def capture? : Event → Option CaptureEvent
  | capture e => some e
  | finalText _ | text _ => none

/-- The addition to the output that an event is. -/
def text? : Event → Option TextEvent
  | text e => some e
  | capture _ | finalText _ => none

/-- The captures of a stream, in order of arrival. -/
def captures (es : List Event) : List CaptureEvent :=
  es.filterMap capture?

/-- The captures of exactly this name, in order of arrival. -/
def capturesOf (name : String) (es : List Event) : List CaptureEvent :=
  (captures es).filter (·.name == name)

/-- The additions to the output, in order of arrival. -/
def texts (es : List Event) : List TextEvent :=
  es.filterMap text?

/-- Whether the end of the output has been reported. -/
def IsFinished (es : List Event) : Prop :=
  ∃ e, finalText e ∈ es

/-- The last capture of a name, unless it is the name of a list. -/
def lastCapture? (name : String) (es : List Event) : Option CaptureEvent :=
  match CaptureName.list? name with
  | some _ => none
  | none => (capturesOf name es).getLast?

/-- The names of captures that are not names of lists, in order of arrival and with repetitions. -/
def plainNames (es : List Event) : List String :=
  ((captures es).map (·.name)).filter fun name => (CaptureName.list? name).isNone

/-- The captures of a list, if there are any, in order of arrival. -/
def listed? (list : String) (es : List Event) : Option (List CaptureEvent) :=
  match capturesOf (CaptureName.ofList list) es with
  | [] => none
  | e :: rest => some (e :: rest)

/-- Streams that differ in how they are interleaved at most: the captures of each name, the
additions to the output, and whether the output is complete. -/
structure Interleaves (es es' : List Event) : Prop where
  captures : ∀ name, capturesOf name es = capturesOf name es'
  texts : texts es = texts es'
  isFinished : IsFinished es ↔ IsFinished es'

theorem capturesOf_append (name : String) (es es' : List Event) :
    capturesOf name (es ++ es') = capturesOf name es ++ capturesOf name es' := by
  rw [capturesOf, captures, List.filterMap_append, List.filter_append]
  rfl

theorem texts_append (es es' : List Event) : texts (es ++ es') = texts es ++ texts es' :=
  List.filterMap_append

theorem plainNames_append (es es' : List Event) :
    plainNames (es ++ es') = plainNames es ++ plainNames es' := by
  rw [plainNames, captures, List.filterMap_append, List.map_append, List.filter_append]
  rfl

theorem capturesOf_capture (name : String) (e : CaptureEvent) :
    capturesOf name [capture e] = if e.name = name then [e] else [] := by
  by_cases h : e.name = name
  · simp [capturesOf, captures, capture?, h]
  · simp [capturesOf, captures, capture?, h]

theorem isFinished_append (es es' : List Event) :
    IsFinished (es ++ es') ↔ IsFinished es ∨ IsFinished es' := by
  simp only [IsFinished, List.mem_append, exists_or]

theorem texts_concat_capture (es : List Event) (e : CaptureEvent) :
    texts (es ++ [capture e]) = texts es := by
  rw [texts_append]
  exact List.append_nil _

theorem isFinished_concat_capture (es : List Event) (e : CaptureEvent) :
    IsFinished (es ++ [capture e]) ↔ IsFinished es := by
  rw [isFinished_append]
  simp [IsFinished]

end Event

/-! ### Collecting -/

namespace Transcript

open Event (capturesOf lastCapture? plainNames listed? texts IsFinished Interleaves)

/-- The transcript of a stream of events. -/
def ofEvents (es : List Event) : Transcript :=
  es.foldl handle {}

/-- What a transcript holds when it has been given a stream of events. -/
structure Collects (es : List Event) (t : Transcript) : Prop where
  captures : ∀ name, t.captures.value? name = lastCapture? name es
  names : t.captures.map Prod.fst = (plainNames es).eraseDups
  lists : ∀ list, t.listCaptures.value? list = listed? list es
  text : t.text.toList = texts es
  isDone : t.isDone = true ↔ IsFinished es

variable {es : List Event} {t : Transcript}

theorem collects_nil : Collects [] {} where
  captures name := by
    rw [lastCapture?]
    split <;> rfl
  names := List.eraseDups_nil.symm
  lists _ := rfl
  text := rfl
  isDone := iff_of_false Bool.false_ne_true fun ⟨_, h⟩ => absurd h List.not_mem_nil

theorem lastCapture?_concat_capture (name : String) (e : CaptureEvent) :
    lastCapture? name (es ++ [.capture e]) =
      if e.name = name ∧ CaptureName.list? name = none then some e else lastCapture? name es := by
  rw [lastCapture?, lastCapture?, Event.capturesOf_append, Event.capturesOf_capture]
  rcases hlist : CaptureName.list? name with _ | list
  · by_cases h : e.name = name <;> simp [h]
  · simp

theorem listed?_concat_capture (list : String) (e : CaptureEvent) :
    listed? list (es ++ [.capture e]) =
      if e.name = CaptureName.ofList list then some ((listed? list es).getD [] ++ [e])
      else listed? list es := by
  rw [listed?, listed?, Event.capturesOf_append, Event.capturesOf_capture]
  by_cases h : e.name = CaptureName.ofList list
  · rcases capturesOf (CaptureName.ofList list) es with _ | ⟨first, rest⟩ <;> simp [h]
  · simp [h]

/-- A capture under a plain name takes the place of the earlier one. -/
theorem Collects.handle_plain (h : Collects es t) {e : CaptureEvent}
    (hname : CaptureName.list? e.name = none) :
    Collects (es ++ [.capture e]) { t with captures := t.captures.update e.name fun _ => e } where
  captures name := by
    rw [Named.value?_update, lastCapture?_concat_capture, h.captures]
    by_cases heq : name = e.name
    · subst heq
      rw [if_pos rfl, if_pos ⟨rfl, hname⟩]
    · rw [if_neg heq, if_neg fun h => heq h.1.symm]
  names := by
    -- a plain capture adds its own name, at the end and only if it is new
    have hnew : plainNames [.capture e] = [e.name] := by
      simp [plainNames, Event.captures, Event.capture?, hname]
    rw [Named.names_update, Event.plainNames_append, hnew, h.names]
    by_cases hmem : e.name ∈ plainNames es
    · rw [if_pos (List.mem_eraseDups.2 hmem),
        eraseDups_append_of_subset fun name hin => List.mem_singleton.1 hin ▸ hmem]
    · rw [if_neg (hmem <| List.mem_eraseDups.1 ·), eraseDups_concat_of_not_mem hmem]
  lists list := by
    -- a plain name is not the name of a list
    have hne : e.name ≠ CaptureName.ofList list := by
      rw [Ne, ← CaptureName.list?_eq_some_iff, hname]
      exact nofun
    rw [listed?_concat_capture, if_neg hne, h.lists]
  text := by rw [Event.texts_concat_capture, h.text]
  isDone := by rw [Event.isFinished_concat_capture, h.isDone]

/-- A capture under the name of a list is appended to the list. -/
theorem Collects.handle_list (h : Collects es t) {e : CaptureEvent} {list : String}
    (hname : CaptureName.list? e.name = some list) :
    Collects (es ++ [.capture e])
      { t with listCaptures := t.listCaptures.update list fun es => es.getD [] ++ [e] } where
  captures name := by
    -- a capture for a list is the last capture of no plain name
    have hne : ¬(e.name = name ∧ CaptureName.list? name = none) := by
      rintro ⟨rfl, h⟩
      rw [hname] at h
      exact nomatch h
    rw [lastCapture?_concat_capture, if_neg hne, h.captures]
  names := by
    have hnew : plainNames [.capture e] = [] := by
      simp [plainNames, Event.captures, Event.capture?, hname]
    rw [Event.plainNames_append, hnew, List.append_nil, h.names]
  lists other := by
    have hlist := CaptureName.list?_eq_some_iff.1 hname
    rw [Named.value?_update, listed?_concat_capture, hlist, h.lists, h.lists]
    simp only [CaptureName.ofList_inj]
    by_cases heq : other = list
    · rw [if_pos heq, if_pos heq.symm, heq]
    · rw [if_neg heq, if_neg (Ne.symm heq)]
  text := by rw [Event.texts_concat_capture, h.text]
  isDone := by rw [Event.isFinished_concat_capture, h.isDone]

/-- What is collected under names is left alone by an event that is no capture. -/
theorem Collects.handle_other (h : Collects es t) {e : Event} {t' : Transcript}
    (he : e.capture? = none) (hcaptures : t'.captures = t.captures)
    (hlists : t'.listCaptures = t.listCaptures) (htext : t'.text.toList = texts (es ++ [e]))
    (hdone : t'.isDone = true ↔ IsFinished (es ++ [e])) : Collects (es ++ [e]) t' := by
  have hnil : Event.captures [e] = [] := by simp [Event.captures, he]
  have hof : ∀ name, capturesOf name (es ++ [e]) = capturesOf name es := fun name => by
    have hnone : capturesOf name [e] = [] := by rw [capturesOf, hnil, List.filter_nil]
    rw [Event.capturesOf_append, hnone, List.append_nil]
  refine ⟨fun name => ?_, ?_, fun list => ?_, htext, hdone⟩
  · rw [hcaptures, h.captures, lastCapture?, lastCapture?, hof]
  · rw [hcaptures, h.names, Event.plainNames_append]
    simp [plainNames, hnil]
  · rw [hlists, h.lists, listed?, listed?, hof]

/-- **An event is added** to what has been collected. -/
theorem Collects.handle (h : Collects es t) (e : Event) : Collects (es ++ [e]) (t.handle e) := by
  cases e with
  | capture e =>
    rw [Transcript.handle]
    cases hname : CaptureName.list? e.name with
    | none => exact h.handle_plain hname
    | some list => exact h.handle_list hname
  | finalText e =>
    refine h.handle_other rfl rfl rfl ?_ ?_
    · rw [Event.texts_append, ← h.text]
      exact (List.append_nil _).symm
    · rw [Event.isFinished_append]
      exact iff_of_true rfl (Or.inr ⟨e, List.mem_singleton_self _⟩)
  | text e =>
    refine h.handle_other rfl rfl rfl ?_ ?_
    · rw [Event.texts_append, ← h.text]
      exact Array.toList_push
    · rw [Event.isFinished_append, ← h.isDone]
      simp [IsFinished, Transcript.handle]

/-- **Everything is collected.** -/
theorem collects_ofEvents (es : List Event) : Collects es (ofEvents es) := by
  induction es using List.reverseRecOn with
  | nil => exact collects_nil
  | append_singleton es e ih =>
    rw [ofEvents, List.foldl_append]
    exact ih.handle e

/-! ### Reporting -/

/-- **What a transcript reports of a stream of events.** -/
structure Reports (es : List Event) (t : Transcript) : Prop where
  /-- The text of a name is that of its last capture. -/
  capture : ∀ name, t.capture? name = (lastCapture? name es).map (·.str)
  /-- So are its bytes, which may fail to be given. -/
  captureBytes : ∀ name, t.captureBytes? name =
    (lastCapture? name es).elim (.ok none) fun e => (bytesOf e.hex).map some
  /-- Plain names are listed once each, in the order in which they first arrived. -/
  names : t.captures.map Prod.fst = (plainNames es).eraseDups
  /-- Each of them is listed with its last capture. -/
  values : ∀ name e, (name, e) ∈ t.captures → (capturesOf name es).getLast? = some e
  /-- The texts of a list are those of all its captures. -/
  listCapture : ∀ list, t.listCapture? list =
    if capturesOf (CaptureName.ofList list) es = [] then none
    else some ((capturesOf (CaptureName.ofList list) es).map (·.str))
  text : t.text.toList = texts es
  isDone : t.isDone = true ↔ IsFinished es

/-- Transcripts with the same results, the order of names apart. -/
structure Agrees (t t' : Transcript) : Prop where
  capture : ∀ name, t.capture? name = t'.capture? name
  captureBytes : ∀ name, t.captureBytes? name = t'.captureBytes? name
  listCapture : ∀ list, t.listCapture? list = t'.listCapture? list
  text : t.text = t'.text
  textBytes : t.textBytes = t'.textBytes
  textString : t.textString = t'.textString
  isDone : t.isDone = t'.isDone

theorem Collects.reports (h : Collects es t) : Reports es t where
  capture name := by rw [capture?, h.captures]
  captureBytes name := by
    rw [captureBytes?, h.captures]
    cases lastCapture? name es <;> rfl
  names := h.names
  values name e he := by
    have hnodup : (t.captures.map Prod.fst).Nodup := h.names ▸ nodup_eraseDups _
    have hlast := h.captures name
    rw [Named.value?_of_mem hnodup he, lastCapture?] at hlast
    split at hlast
    · exact nomatch hlast
    · exact hlast.symm
  listCapture list := by
    rw [listCapture?, h.lists, listed?]
    cases capturesOf (CaptureName.ofList list) es <;> simp
  text := h.text
  isDone := h.isDone

theorem Reports.agrees {es' : List Event} {t' : Transcript} (h : Reports es t) (h' : Reports es' t')
    (hes : Interleaves es es') : Agrees t t' := by
  -- whatever is reported depends on the captures of one name, on the texts, or on the end
  have hlast : ∀ name, lastCapture? name es = lastCapture? name es' := fun name => by
    rw [lastCapture?, lastCapture?, hes.captures]
  have htext : t.text = t'.text := by
    rw [← Array.toList_inj, h.text, h'.text, hes.texts]
  have hbytes : t.textBytes = t'.textBytes := by rw [textBytes, textBytes, htext]
  exact {
    capture := fun name => by rw [h.capture, h'.capture, hlast]
    captureBytes := fun name => by rw [h.captureBytes, h'.captureBytes, hlast]
    listCapture := fun list => by rw [h.listCapture, h'.listCapture, hes.captures]
    text := htext
    textBytes := hbytes
    textString := by rw [textString, textString, hbytes]
    isDone := by rw [Bool.eq_iff_iff, h.isDone, h'.isDone, hes.isFinished] }

/-- **A transcript reports the stream that it has been given**, whatever its events are, and however
they are interleaved. -/
theorem ofEvents_reports (es : List Event) :
    Reports es (ofEvents es) ∧
      ∀ es', Interleaves es es' → Agrees (ofEvents es) (ofEvents es') :=
  ⟨(collects_ofEvents es).reports, fun es' hes =>
    (collects_ofEvents es).reports.agrees (collects_ofEvents es').reports hes⟩

/-- Two captures of a name, a capture of the list of this name and an addition to the output, with
the list's capture and the addition first or last. -/
theorem ofEvents_agrees_moved :
    let first : Event := .capture ⟨"age", "3132", "12", .zero⟩
    let second : Event := .capture ⟨"age", "3133", "13", .zero⟩
    let listed : Event := .capture ⟨"__LIST_APPEND:age", "3134", "14", .zero⟩
    let added : Event := .text { hex := "21", str := "!" }
    Interleaves [first, second, listed, added] [listed, added, first, second] ∧
      Agrees (ofEvents [first, second, listed, added]) (ofEvents [listed, added, first, second]) ∧
      (ofEvents [first, second, listed, added]).capture? "age" = some "13" := by
  intro first second listed added
  have hes : Interleaves [first, second, listed, added] [listed, added, first, second] := {
    captures := fun name => by
      by_cases hname : name = "age"
      · subst hname
        rfl
      · simp [capturesOf, Event.captures, Event.capture?, List.filterMap_cons, List.filter_cons,
          first, second, listed, added, Ne.symm hname]
    texts := rfl
    isFinished := by simp [IsFinished, first, second, listed, added] }
  exact ⟨hes, (ofEvents_reports _).2 _ hes, rfl⟩

end Transcript

end GuidedGrammar
