import GuidedGrammar.Proofs.Data.List
import GuidedGrammar.Proofs.Json.Token

/-!
# Reading values back

A value whose texts are strings is read back from what is written for it, in either layout
(`Json.Printable.parse?_render`, `Json.Printable.parse?_renderIndented`). Two facts meet in its
tokens (`Json.tokens`): what is written lexes as them, since the layouts differ in blanks only
(`Json.Printable.lexes`), and the reader makes the value of them, whatever containers are open
around it (`Json.completes`).
-/

namespace GuidedGrammar.Json

open Token

/-! ### The tokens of a value -/

/-- **The tokens of a value.** -/
def tokens (value : Json) : List Token :=
  match value with
  | .null => [.null]
  | .bool b => [.bool b]
  | .number x => [.number x]
  | .text s => [.text s]
  | .array items =>
    .openBracket :: (List.intercalate [.comma] (items.map fun v => tokens v) ++ [.closeBracket])
  | .object members =>
    .openBrace :: (List.intercalate [.comma]
      (members.map fun m => .text m.1 :: .colon :: tokens m.2) ++ [.closeBrace])
termination_by value
decreasing_by
  · have := List.sizeOf_lt_of_mem ‹v ∈ items›
    simp only [Json.array.sizeOf_spec]
    omega
  · have hm := List.sizeOf_lt_of_mem ‹m ∈ members›
    obtain ⟨name, value⟩ := m
    simp only [Prod.mk.sizeOf_spec, Json.object.sizeOf_spec] at hm ⊢
    omega

/-- No value starts with a bracket that closes. -/
theorem exists_tokens_eq_cons (v : Json) :
    ∃ t ts, v.tokens = t :: ts ∧ t ≠ .closeBracket := by
  cases v <;> exact ⟨_, _, by rw [tokens], by simp⟩

/-! ### Values of tokens -/

/-- A value is completed when its tokens have been read. -/
def Completes (v : Json) : Prop :=
  ∀ stack rest, ofTokens? stack none (v.tokens ++ rest) = ofTokens? stack (some v) rest

/-- The other items of an array, after `v`. -/
theorem ofTokens?_items {vs : List Json} (h : ∀ v ∈ vs, v.Completes) (v : Json) (done : List Json)
    (stack : List Frame) (rest : List Token) :
    ofTokens? (.items done :: stack) (some v)
        ((vs.map tokens).flatMap ([.comma] ++ ·) ++ .closeBracket :: rest) =
      ofTokens? stack (some (.array (done.reverse ++ v :: vs))) rest := by
  induction vs generalizing v done with
  | nil =>
    rw [List.map_nil, List.flatMap_nil, List.nil_append, ofTokens?, List.reverse_cons]
  | cons w vs ih =>
    have ih := ih (fun u hu => h u (List.mem_cons_of_mem _ hu)) w (v :: done)
    rw [List.map_cons, List.flatMap_cons, List.append_assoc, List.append_assoc,
      List.singleton_append, ofTokens?, h w List.mem_cons_self, ih, List.reverse_cons,
      List.append_assoc]
    rfl

/-- The other members of an object, after the one called `name`. -/
theorem ofTokens?_members {ms : List (JsonText × Json)} (h : ∀ m ∈ ms, m.2.Completes)
    (name : JsonText) (v : Json) (done : List (JsonText × Json)) (stack : List Frame)
    (rest : List Token) :
    ofTokens? (.members done name :: stack) (some v)
        ((ms.map fun m => .text m.1 :: .colon :: m.2.tokens).flatMap ([.comma] ++ ·) ++
          .closeBrace :: rest) =
      ofTokens? stack (some (.object (done.reverse ++ (name, v) :: ms))) rest := by
  induction ms generalizing name v done with
  | nil =>
    rw [List.map_nil, List.flatMap_nil, List.nil_append, ofTokens?, List.reverse_cons]
  | cons m ms ih =>
    have ih := ih (fun u hu => h u (List.mem_cons_of_mem _ hu)) m.1 m.2 ((name, v) :: done)
    rw [List.map_cons, List.flatMap_cons, List.append_assoc, List.append_assoc,
      List.singleton_append, List.cons_append, List.cons_append, ofTokens?, h m List.mem_cons_self,
      ih, List.reverse_cons, List.append_assoc]
    rfl

/-- **The reader makes a value of its tokens**, whatever is open around it. -/
theorem completes (v : Json) : v.Completes := by
  induction v using tokens.induct with
  | case1 => exact fun stack rest => by rw [tokens, List.singleton_append, ofTokens?]
  | case2 b => exact fun stack rest => by rw [tokens, List.singleton_append, ofTokens?]
  | case3 x => exact fun stack rest => by rw [tokens, List.singleton_append, ofTokens?]
  | case4 s => exact fun stack rest => by rw [tokens, List.singleton_append, ofTokens?]
  | case5 items ih =>
    intro stack rest
    cases items with
    | nil =>
      rw [tokens]
      show ofTokens? stack none (.openBracket :: .closeBracket :: rest) = _
      rw [ofTokens?]
    | cons v vs =>
      -- the first item does not begin with the closing bracket
      obtain ⟨t, ts, hv, ht⟩ := exists_tokens_eq_cons v
      have hitems := ofTokens?_items (fun u hu => ih u (List.mem_cons_of_mem _ hu)) v [] stack rest
      rw [tokens, List.map_cons, intercalate_cons, List.cons_append, List.append_assoc,
        List.append_assoc, ofTokens?, ih v List.mem_cons_self]
      · exact hitems
      · intro tail htail
        rw [hv] at htail
        exact ht (List.cons.inj htail).1
  | case6 members ih =>
    intro stack rest
    cases members with
    | nil =>
      rw [tokens]
      show ofTokens? stack none (.openBrace :: .closeBrace :: rest) = _
      rw [ofTokens?]
    | cons m ms =>
      have hmembers := ofTokens?_members (fun u hu => ih u (List.mem_cons_of_mem _ hu)) m.1 m.2 []
        stack rest
      rw [tokens, List.map_cons, intercalate_cons, List.cons_append, List.append_assoc,
        List.append_assoc, List.cons_append, List.cons_append, ofTokens?, ih m List.mem_cons_self]
      exact hmembers

/-! ### Written values -/

/-- A value whose texts and names are strings. -/
inductive Printable : Json → Prop where
  | null : Printable .null
  | bool (b : Bool) : Printable (.bool b)
  | number (x : Numeral) : Printable (.number x)
  | text (s : String) : Printable (.text (some s))
  | array {items : List Json} (h : ∀ v ∈ items, Printable v) : Printable (.array items)
  | object {members : List (JsonText × Json)} (hnames : ∀ m ∈ members, m.1.isSome = true)
      (h : ∀ m ∈ members, Printable m.2) : Printable (.object members)

/-- A layout of blanks around the punctuation. -/
structure Layout.Blank (layout : Layout) : Prop where
  lineStart : ∀ depth, ∀ c ∈ layout.lineStart depth, isBlank c = true
  colon : ∃ blanks, layout.colon = ':' :: blanks ∧ ∀ c ∈ blanks, isBlank c = true

theorem Layout.blank_compact : Layout.compact.Blank where
  lineStart _ _ hc := nomatch hc
  colon := ⟨[], rfl, fun _ hc => nomatch hc⟩

theorem Layout.blank_indented : Layout.indented.Blank where
  lineStart depth c hc := by
    rcases List.mem_cons.1 hc with rfl | hc
    · rfl
    · rw [List.eq_of_mem_replicate hc]
      rfl
  colon := ⟨[' '], rfl, by simp [isBlank]⟩

section Enclose

variable {α : Type} {written : α → List Char} {ts : α → List Token} {cs blanks : List Char}

theorem avoids_separated (xs : List α) (h : Avoids continuesNumeral cs) :
    Avoids continuesNumeral ((xs.map written).flatMap ((',' :: blanks) ++ ·) ++ cs) := by
  cases xs with
  | nil => exact h
  | cons x xs => exact avoids_cons.2 rfl

/-- Items with separators in front lex in front of what lexes. -/
theorem lexes_separated (hblanks : ∀ c ∈ blanks, isBlank c = true) {xs : List α}
    (h : ∀ x ∈ xs, Lexes (written x) (ts x)) {closing : List Token} (hcs : Lexes cs closing)
    (havoids : Avoids continuesNumeral cs) :
    Lexes ((xs.map written).flatMap ((',' :: blanks) ++ ·) ++ cs)
      ((xs.map ts).flatMap ([.comma] ++ ·) ++ closing) := by
  induction xs with
  | nil => exact hcs
  | cons x xs ih =>
    have hrest := ih fun y hy => h y (List.mem_cons_of_mem _ hy)
    have hx := (h x List.mem_cons_self).append hrest (avoids_separated xs havoids)
    have hstep := Lexes.mark mark_comma (hx.blanks hblanks)
    simpa only [List.map_cons, List.flatMap_cons, List.append_assoc, List.cons_append,
      List.nil_append] using hstep

/-- A container lexes if its items do. -/
theorem lexes_enclose {layout : Layout} (hlayout : layout.Blank) (depth : Nat)
    {opening closing : Char} {t t' : Token} (hopening : Mark opening t) (hclosing : Mark closing t')
    {xs : List α} (h : ∀ x ∈ xs, Lexes (written x) (ts x)) :
    Lexes (enclose layout depth opening closing (xs.map written))
      (t :: (List.intercalate [.comma] (xs.map ts) ++ [t'])) := by
  have hclose : Lexes (layout.lineStart depth ++ [closing]) [t'] :=
    (Lexes.nil.mark hclosing).blanks (hlayout.lineStart depth)
  -- what closes the list does not continue a numeral before it
  have havoids : Avoids continuesNumeral (layout.lineStart depth ++ [closing]) :=
    (avoids_blanks (hlayout.lineStart depth)).append (avoids_cons.2 hclosing.continuesNumeral)
  cases xs with
  | nil => exact (Lexes.nil.mark hclosing).mark hopening
  | cons x xs =>
    have hrest := lexes_separated (hlayout.lineStart (depth + 1))
      (fun y hy => h y (List.mem_cons_of_mem _ hy)) hclose havoids
    have hitems := (h x List.mem_cons_self).append hrest (avoids_separated xs havoids)
    have hall := (hitems.blanks (hlayout.lineStart (depth + 1))).mark hopening
    simpa only [enclose, List.map_cons, List.isEmpty_cons, Bool.false_eq_true, if_false,
      intercalate_cons, List.append_assoc] using hall

end Enclose

/-- The name of a member, up to its value. -/
theorem lexes_name {layout : Layout} (hlayout : layout.Blank) {name : JsonText}
    (hname : name.isSome = true) {cs : List Char} {ts : List Token} (h : Lexes cs ts) :
    Lexes (renderText name ++ layout.colon ++ cs) (.text name :: .colon :: ts) := by
  obtain ⟨s, rfl⟩ := Option.isSome_iff_exists.1 hname
  obtain ⟨blanks, hcolon, hblanks⟩ := hlayout.colon
  have htext := Lexes.text s.toList
  rw [String.ofList_toList] at htext
  have hvalue := (h.blanks hblanks).mark mark_colon
  rw [hcolon, List.append_assoc]
  exact htext.append hvalue (avoids_cons.2 rfl)

/-- **What is written for a value lexes as its tokens.** -/
theorem Printable.lexes {layout : Layout} (hlayout : layout.Blank) {v : Json} (h : v.Printable)
    (depth : Nat) : Lexes (v.renderAt layout depth) v.tokens := by
  induction h generalizing depth with
  | null => rw [renderAt, tokens]; exact Lexes.null
  | bool b =>
    cases b with
    | false => rw [renderAt, tokens]; exact Lexes.bool_false
    | true => rw [renderAt, tokens]; exact Lexes.bool_true
  | number x => rw [renderAt, tokens]; exact Lexes.number x
  | text s =>
    have htext := Lexes.text s.toList
    rw [String.ofList_toList] at htext
    rw [renderAt, tokens]
    exact htext
  | array h ih =>
    rw [renderAt, tokens]
    exact lexes_enclose hlayout depth mark_openBracket mark_closeBracket
      fun v hv => ih v hv (depth + 1)
  | object hnames h ih =>
    rw [renderAt, tokens]
    exact lexes_enclose hlayout depth mark_openBrace mark_closeBrace
      fun m hm => lexes_name hlayout (hnames m hm) (ih m hm (depth + 1))

/-- A value is read back from what is written for it in a layout of blanks. -/
theorem Printable.parse?_renderAt {layout : Layout} (hlayout : layout.Blank) {v : Json}
    (h : v.Printable) : parse? (String.ofList (v.renderAt layout 0)) = some v := by
  have hscan := h.lexes hlayout 0 [] [] avoids_nil
  rw [List.append_nil, List.append_nil, scan_nil, List.reverse_reverse] at hscan
  have hread := completes v [] []
  rw [List.append_nil, ofTokens?] at hread
  rw [parse?, String.toList_ofList, hscan, Option.bind_some, hread]

theorem Printable.parse?_render {v : Json} (h : v.Printable) : parse? v.render = some v :=
  h.parse?_renderAt Layout.blank_compact

theorem Printable.parse?_renderIndented {v : Json} (h : v.Printable) :
    parse? v.renderIndented = some v :=
  h.parse?_renderAt Layout.blank_indented

end GuidedGrammar.Json
