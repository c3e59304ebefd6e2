import Mathlib
import GuidedGrammar.Proofs.Regex.Sound
import GuidedGrammar.Proofs.Text.Cut

/-!
# Renderings of regexes

The printer of regexes stops showing regexes once it has written more than is kept, and goes on with
the texts around them. So its result is never long, even for a regex that reaches itself; and where
nothing circular is below a regex, it is cut from the rendering that shows everything
(`Regex.render_isCut`).

The full rendering is given by rules (`Regex.Shows`) that know of no limit. There is one unless a
regex shows itself, since each part reaches fewer regexes than what it is part of. The printer and
the rules agree on whatever is kept, which follows the recursion of the printer: what it leaves out
stands behind too many bytes already (`Regex.truncate_printTasks`).

What is added to a store does not show in the renderings of what was there (`Regex.render_congr`).
-/

namespace GuidedGrammar.Regex

variable {store : RegexStore} {id : RegexId} {tasks rest : List PrintTask} {full text after : String}

/-! ### Full renderings -/

/-- **The text that tasks write** if nothing limits it. -/
inductive Shows (store : RegexStore) : List PrintTask → String → Prop
  | nil : Shows store [] ""
  | text (s : String) {rest : List PrintTask} {after : String} (h : Shows store rest after) :
    Shows store (.text s :: rest) (s ++ after)
  | unknown {id : RegexId} {rest : List PrintTask} {after : String} (hid : store[id]? = none)
    (h : Shows store rest after) :
    Shows store (.regex id :: rest) ("<unknown rx#" ++ toString id ++ ">" ++ after)
  | regex {id : RegexId} {r : Regex RegexId} {rest : List PrintTask} {below after : String}
    (hid : store[id]? = some r) (hbelow : Shows store r.form.2 below) (h : Shows store rest after) :
    Shows store (.regex id :: rest) (r.form.1 ++ below ++ after)

namespace Shows

theorem append (h : Shows store tasks text) (h' : Shows store rest after) :
    Shows store (tasks ++ rest) (text ++ after) := by
  induction h with
  | nil =>
    rw [String.empty_append]
    exact h'
  | text s _ ih =>
    rw [String.append_assoc]
    exact .text s ih
  | unknown hid _ ih =>
    simpa only [String.append_assoc, List.cons_append] using Shows.unknown hid ih
  | regex hid hbelow _ _ ih =>
    simpa only [String.append_assoc, List.cons_append] using Shows.regex hid hbelow ih

/-- There is at most one full rendering. -/
theorem unique (h : Shows store tasks text) {text' : String} (h' : Shows store tasks text') :
    text = text' := by
  induction h generalizing text' with
  | nil =>
    cases h'
    rfl
  | text s _ ih =>
    cases h' with
    | text _ h' => rw [ih h']
  | unknown hid _ ih =>
    cases h' with
    | unknown _ h' => rw [ih h']
    | regex hid' => cases hid.symm.trans hid'
  | regex hid _ _ ihbelow ih =>
    cases h' with
    | unknown hid' => cases hid.symm.trans hid'
    | regex hid' hbelow' h' =>
      obtain rfl := Option.some.inj (hid.symm.trans hid')
      rw [ihbelow hbelow', ih h']

/-- What a regex writes comes before what the tasks after it write. -/
theorem exists_after (h : Shows store (.regex id :: rest) full) :
    ∃ text after, full = text ++ after ∧ Shows store rest after := by
  cases h with
  | unknown _ h => exact ⟨_, _, rfl, h⟩
  | regex _ _ h => exact ⟨_, _, rfl, h⟩

end Shows

/-- Tasks have a full rendering if the regexes among them do. -/
theorem exists_shows_of_regexes
    (h : ∀ p, PrintTask.regex p ∈ tasks → ∃ text, Shows store [.regex p] text) :
    ∃ text, Shows store tasks text := by
  induction tasks with
  | nil => exact ⟨_, .nil⟩
  | cons task rest ih =>
    obtain ⟨after, hafter⟩ := ih fun p hp => h p (List.mem_cons_of_mem _ hp)
    cases task with
    | text s => exact ⟨_, .text s hafter⟩
    | regex p =>
      obtain ⟨text, htext⟩ := h p (List.mem_cons_self ..)
      exact ⟨_, htext.append hafter⟩

/-- The regexes that the form of a regex shows are its parts. -/
theorem mem_parts_of_form {r : Regex RegexId} {p : RegexId} (h : PrintTask.regex p ∈ r.form.2) :
    p ∈ r.parts := by
  -- unions, intersections and concatenations print their parts in one way
  have hlist : ∀ (separator : String) (parts : List RegexId),
      PrintTask.regex p ∈ listTasks separator parts ++ [.text ")"] → p ∈ parts := by
    intro separator parts h
    rcases List.mem_append.1 h with h | h
    · rcases mem_of_mem_intersperse h with h | h
      · cases h
      · obtain ⟨q, hq, heq⟩ := List.mem_map.1 h
        obtain rfl := PrintTask.regex.inj heq
        exact hq
    · cases List.mem_singleton.1 h
  cases r with
  | union parts => exact hlist " | " parts h
  | intersection parts => exact hlist " & " parts h
  | concatenation parts => exact hlist " " parts h
  | complement q | lookahead q | repetition q min max => simpa [form, parts] using h
  | literal | byteLiteral | byte | byteSet | pattern | emptyText | nothing => simp [form] at h

/-- A regex below which nothing is circular has a full rendering, whether or not everything below
it is there. The induction is on how many regexes it reaches. -/
theorem exists_shows (h : ∀ p, store.Reaches id p → ¬ Relation.TransGen store.Leads p p) :
    ∃ text, Shows store [.regex id] text := by
  induction hn : {q | q < store.size ∧ store.Reaches id q}.ncard using Nat.strong_induction_on
    generalizing id with
  | h n ih =>
    cases hid : store[id]? with
    | none => exact ⟨_, .unknown hid .nil⟩
    | some r =>
      have hparts : ∀ p, PrintTask.regex p ∈ r.form.2 → ∃ text, Shows store [.regex p] text := by
        intro p hp
        have hlead : store.Leads id p := ⟨r, hid, mem_parts_of_form hp⟩
        have hlt := RegexStore.ncard_lt_of_leads (h id .refl) hlead
        exact ih _ (hn ▸ hlt) (fun q hq => h q (.head hlead hq)) rfl
      obtain ⟨below, hbelow⟩ := exists_shows_of_regexes hparts
      exact ⟨_, .regex hid hbelow .nil⟩

/-! ### The printer -/

/-- **What the printer writes is cut like the full rendering.** -/
theorem truncate_printTasks (h : Shows store tasks full) (written : String) :
    Text.truncate renderLimit (printTasks store tasks written) =
      Text.truncate renderLimit (written ++ full) := by
  induction tasks, written using printTasks.induct store generalizing full with
  | case1 written =>
    cases h
    rw [printTasks, String.append_empty]
  | case2 written s rest ih =>
    cases h with
    | text _ h => rw [printTasks, ih h, String.append_assoc]
  | case3 written id rest hlimit ih =>
    -- the regex is passed over, but whatever it shows is cut off as well
    obtain ⟨text, after, rfl, hafter⟩ := h.exists_after
    rw [printTasks, if_pos hlimit, ih hafter, Text.truncate_append_of_lt hlimit,
      Text.truncate_append_of_lt hlimit]
  | case4 written id rest hlimit hid ih =>
    rw [printTasks, if_neg hlimit]
    simp only [hid]
    cases h with
    | unknown _ h => rw [ih h]; simp only [String.append_assoc]
    | regex hid' => cases hid.symm.trans hid'
  | case5 written id rest hlimit r hid ih =>
    rw [printTasks, if_neg hlimit]
    simp only [hid]
    cases h with
    | unknown hid' => cases hid.symm.trans hid'
    | regex hid' hbelow h =>
      obtain rfl := Option.some.inj (hid.symm.trans hid')
      rw [ih (hbelow.append h)]
      simp only [String.append_assoc]

theorem isCut_render (h : Shows store [.regex id] full) :
    Text.IsCut renderLimit full (render store id) := by
  rw [render, truncate_printTasks h, String.empty_append]
  exact Text.isCut_truncate renderLimit full

/-- **Renderings are short, and exact where nothing is circular.** Whatever a regex reaches, its
rendering has at most 1024 bytes and an ellipsis. If nothing that it reaches reaches itself, it has
a full rendering, and only one; its rendering is that one if this has at most 1024 bytes, and else
the longest beginning of it with at most 1024 bytes, followed by an ellipsis. -/
theorem render_isCut (store : RegexStore) (id : RegexId) :
    (render store id).utf8ByteSize ≤ 1024 + 3 ∧
      ((∀ p, store.Reaches id p → ¬ Relation.TransGen store.Leads p p) →
        ∃ full, (∀ text, Shows store [.regex id] text ↔ text = full) ∧
          Text.IsCut 1024 full (render store id)) := by
  refine ⟨(Text.isCut_truncate renderLimit _).size_le, fun h => ?_⟩
  obtain ⟨full, hfull⟩ := exists_shows h
  refine ⟨full, fun text => ⟨fun htext => htext.unique hfull, ?_⟩, isCut_render hfull⟩
  rintro rfl
  exact hfull

/-- A pattern that is shown twice, with a regex between that the store does not hold. -/
theorem render_shared :
    let store : RegexStore := #[.pattern "x", .concatenation [0, 7, 0]]
    (∀ p, store.Reaches 1 p → ¬ Relation.TransGen store.Leads p p) ∧
      render store 1 = "(/x/ <unknown rx#7> /x/)" := by
  intro store
  have hleads : ∀ p q, store.Leads p q → p = 1 ∧ q ≠ 1 := by
    rintro p q ⟨r, hr, hq⟩
    have hp : p < 2 := (Array.getElem?_eq_some_iff.1 hr).1
    interval_cases p
    · obtain rfl : Regex.pattern "x" = r := Option.some.inj hr
      exact absurd hq List.not_mem_nil
    · obtain rfl : Regex.concatenation [0, 7, 0] = r := Option.some.inj hr
      have hq : q ∈ [0, 7, 0] := hq
      simp only [List.mem_cons, List.not_mem_nil, or_false] at hq
      rcases hq with rfl | rfl | rfl <;> decide
  have hacyclic : ∀ p, store.Reaches 1 p → ¬ Relation.TransGen store.Leads p p := by
    intro p _ hp
    -- the first step of a cycle starts at `1`, and its last step does not end there
    obtain ⟨q, hfirst, -⟩ := Relation.TransGen.head'_iff.1 hp
    obtain ⟨q', -, hlast⟩ := Relation.TransGen.tail'_iff.1 hp
    exact (hleads _ _ hlast).2 (hleads _ _ hfirst).1
  refine ⟨hacyclic, ?_⟩
  obtain ⟨full, hfull, hcut⟩ := (render_isCut store 1).2 hacyclic
  have hpattern : Shows store [.text "x", .text "/"] "x/" := .text "x" (.text "/" .nil)
  have hparts : Shows store (Regex.concatenation [0, 7, 0]).form.2 _ :=
    .regex rfl hpattern (.text " " (.unknown rfl (.text " " (.regex rfl hpattern (.text ")" .nil)))))
  obtain rfl := (hfull _).1 (.regex rfl hparts .nil)
  exact (hcut.eq_of_le (by decide)).trans (by decide)

/-! ### Other stores -/

/-- Showing regexes below which everything is there depends on nothing else. -/
theorem printTasks_congr {store store' : RegexStore} (hext : store.Extends store')
    (hparts : ∀ (id : RegexId) (r : Regex RegexId), store[id]? = some r →
      ∀ p ∈ r.parts, p < store.size) (tasks : List PrintTask) (written : String)
    (htasks : ∀ id, PrintTask.regex id ∈ tasks → id < store.size) :
    printTasks store' tasks written = printTasks store tasks written := by
  induction tasks, written using printTasks.induct store with
  | case1 written => rw [printTasks, printTasks]
  | case2 written s rest ih =>
    rw [printTasks, printTasks]
    exact ih fun id h => htasks id (List.mem_cons_of_mem _ h)
  | case3 written id rest hlimit ih =>
    rw [printTasks, printTasks, if_pos hlimit, if_pos hlimit]
    exact ih fun id' h => htasks id' (List.mem_cons_of_mem _ h)
  | case4 written id rest hlimit hid ih =>
    -- every regex printed is in the smaller store
    have hlt : id < store.size := htasks id (List.mem_cons_self ..)
    rw [Array.getElem?_eq_getElem hlt] at hid
    cases hid
  | case5 written id rest hlimit r hid ih =>
    rw [printTasks, printTasks, if_neg hlimit, if_neg hlimit]
    simp only [hid, hext id r hid]
    refine ih fun id' h => ?_
    rcases List.mem_append.1 h with h | h
    · exact hparts id r hid id' (mem_parts_of_form h)
    · exact htasks id' (List.mem_cons_of_mem _ h)

/-- **The rendering of a regex** below which everything is there. -/
theorem render_congr {store store' : RegexStore} (hext : store.Extends store')
    (hparts : ∀ (id : RegexId) (r : Regex RegexId), store[id]? = some r →
      ∀ p ∈ r.parts, p < store.size) {id : RegexId} (hid : id < store.size) :
    render store' id = render store id := by
  rw [render, render, printTasks_congr hext hparts]
  intro id' h
  rwa [PrintTask.regex.inj (List.mem_singleton.1 h)]

end GuidedGrammar.Regex
