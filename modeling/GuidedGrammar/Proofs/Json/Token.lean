import GuidedGrammar.Json.Reader
import GuidedGrammar.Json.Printer

/-!
# Reading tokens back

What is written for a numeral or a text is read as that numeral or that text
(`Token.takeNumeral_render`, `Token.takeText_escape`), whatever follows a text, and provided that
what follows a numeral does not continue it. `Token.Lexes` puts tokens together: written characters
lex as tokens if the scan takes the ones for the others in front of every rest.
-/

namespace GuidedGrammar

/-! ### Digits -/

theorem Digit.ofChar?_toChar (d : Digit) : Digit.ofChar? d.toChar = some d := by
  revert d
  decide

theorem Digit.toChar_ne_minus (d : Digit) : d.toChar ≠ '-' := by
  revert d
  decide

namespace Digits

theorem ofNat_ne_nil (n : Nat) : ofNat n ≠ [] := by
  rw [ofNat]
  split <;> simp

/-- Only zero has a zero in front. -/
theorem eq_nil_of_ofNat_eq_cons {n : Nat} {ds : List Digit} (h : ofNat n = .zero :: ds) :
    ds = [] := by
  induction n using Nat.strongRecOn generalizing ds with
  | _ n ih =>
    rw [ofNat] at h
    split at h
    · exact (List.cons.inj h).2.symm
    · next hn =>
      -- the quotient begins with zero too, so by induction it is zero
      obtain ⟨front, hfront⟩ : ∃ front, ofNat (n / 10) = .zero :: front := by
        rcases hq : ofNat (n / 10) with _ | ⟨d, front⟩
        · exact absurd hq (ofNat_ne_nil _)
        · rw [hq, List.cons_append, List.cons.injEq] at h
          exact ⟨front, by rw [h.1]⟩
      have hnil : front = [] := ih _ (Nat.div_lt_self (by omega) (by decide)) hfront
      have hquotient : n / 10 = 0 := by
        rw [← toNat_ofNat (n / 10), hfront, hnil]
        rfl
      omega

end Digits

namespace Json.Token

/-! ### What comes next -/

/-- No character of a kind comes next. -/
def Avoids (kind : Char → Bool) (cs : List Char) : Prop :=
  ∀ c ∈ cs.head?, kind c = false

section Avoids

variable {kind other : Char → Bool} {c : Char} {cs rest : List Char}

theorem avoids_nil : Avoids kind [] := by
  simp [Avoids]

theorem avoids_cons : Avoids kind (c :: cs) ↔ kind c = false := by
  simp [Avoids]

theorem Avoids.append (h : Avoids kind cs) (hrest : Avoids kind rest) :
    Avoids kind (cs ++ rest) := by
  cases cs with
  | nil => exact hrest
  | cons c cs => exact avoids_cons.2 (avoids_cons.1 h)

theorem Avoids.mono (h : Avoids kind cs) (himp : ∀ c, other c = true → kind c = true) :
    Avoids other cs := by
  intro c hc
  have hkind : kind c = false := h c hc
  exact Bool.eq_false_iff.2 fun hother => absurd (himp c hother) (by simp [hkind])

end Avoids

/-! ### Numerals -/

/-- Whether a character shows a digit. -/
def isDigit (c : Char) : Bool :=
  (Digit.ofChar? c).isSome

/-- Whether a numeral can go on with the character. -/
def continuesNumeral (c : Char) : Bool :=
  isDigit c || c = '.' || c = 'e' || c = 'E'

theorem takeDigits_eq_nil {cs : List Char} (h : Avoids isDigit cs) : takeDigits cs = ([], cs) := by
  cases cs with
  | nil => rfl
  | cons c cs =>
    have hc : Digit.ofChar? c = none := by simpa [isDigit] using avoids_cons.1 h
    rw [takeDigits, hc]

theorem takeDigits_append (ds : List Digit) {rest : List Char} (h : Avoids isDigit rest) :
    takeDigits (ds.map Digit.toChar ++ rest) = (ds, rest) := by
  induction ds with
  | nil => exact takeDigits_eq_nil h
  | cons d ds ih =>
    rw [List.map_cons, List.cons_append, takeDigits, Digit.ofChar?_toChar, ih]

theorem takeWhole_append (n : Nat) {rest : List Char} (h : Avoids isDigit rest) :
    takeWhole ((Digits.ofNat n).map Digit.toChar ++ rest) = some (n, rest) := by
  have htoNat := Digits.toNat_ofNat n
  rw [takeWhole, takeDigits_append _ h]
  rcases hds : Digits.ofNat n with _ | ⟨d, _ | ⟨d', ds⟩⟩
  · exact absurd hds (Digits.ofNat_ne_nil n)
  · have hd : d.val = n := by simpa [hds, Digits.toNat] using htoNat
    simp only [hd]
  · have hd : d ≠ .zero := by
      rintro rfl
      exact List.cons_ne_nil _ _ (Digits.eq_nil_of_ofNat_eq_cons hds)
    rw [hds] at htoNat
    simp only [hd, if_false, htoNat]

/-- The characters of a fraction, with the point. -/
def fractionChars (ds : List Digit) : List Char :=
  if ds.isEmpty then [] else '.' :: ds.map Digit.toChar

/-- The characters of an exponent, if there is one. -/
def exponentChars (exponent : Option Int) : List Char :=
  exponent.elim [] Numeral.renderExponent

theorem render_append (x : Numeral) (rest : List Char) :
    x.render ++ rest = (if x.negative then ['-'] else []) ++
      ((Digits.ofNat x.whole).map Digit.toChar ++
        (fractionChars x.fraction ++ (exponentChars x.exponent ++ rest))) := by
  obtain ⟨negative, whole, fraction, exponent⟩ := x
  cases exponent <;> simp [Numeral.render, fractionChars, exponentChars]

theorem takeFraction_append (ds : List Digit) {rest : List Char} (h : Avoids isDigit rest)
    (hpoint : Avoids (· = '.') rest) :
    takeFraction (fractionChars ds ++ rest) = some (ds, rest) := by
  cases ds with
  | nil =>
    show takeFraction rest = some ([], rest)
    unfold takeFraction
    split
    · exact absurd (avoids_cons.1 hpoint) (by decide)
    · rfl
  | cons d ds =>
    show takeFraction ('.' :: ((d :: ds).map Digit.toChar ++ rest)) = some (d :: ds, rest)
    rw [takeFraction, takeDigits_append _ h]

theorem takeExponent_eq_none {rest : List Char} (h : Avoids continuesNumeral rest) :
    takeExponent rest = some (none, rest) := by
  unfold takeExponent
  split
  · exact absurd (avoids_cons.1 h) (by decide)
  · exact absurd (avoids_cons.1 h) (by decide)
  · rfl

theorem takeExponentDigits_append (e : Int) {rest : List Char} (h : Avoids isDigit rest) :
    takeExponentDigits
        ((if e < 0 then '-' else '+') :: ((Digits.ofNat e.natAbs).map Digit.toChar ++ rest)) =
      some (some e, rest) := by
  have hsign : takeSign
      ((if e < 0 then '-' else '+') :: ((Digits.ofNat e.natAbs).map Digit.toChar ++ rest)) =
      (decide (e < 0), (Digits.ofNat e.natAbs).map Digit.toChar ++ rest) := by
    by_cases he : e < 0 <;> simp [he, takeSign]
  have hvalue : (if decide (e < 0) then -(e.natAbs : Int) else e.natAbs) = e := by
    by_cases he : e < 0
    · simp only [he, decide_true, if_true]
      omega
    · simp only [he, decide_false, Bool.false_eq_true, if_false]
      omega
  rw [takeExponentDigits, hsign]
  simp only
  rw [takeDigits_append _ h]
  split
  · next heq => exact absurd (Prod.mk.inj heq).1 (Digits.ofNat_ne_nil e.natAbs)
  · next heq => rw [← (Prod.mk.inj heq).1, ← (Prod.mk.inj heq).2, Digits.toNat_ofNat, hvalue]

theorem takeExponent_append (exponent : Option Int) {rest : List Char}
    (h : Avoids continuesNumeral rest) :
    takeExponent (exponentChars exponent ++ rest) = some (exponent, rest) := by
  cases exponent with
  | none => exact takeExponent_eq_none h
  | some e => exact takeExponentDigits_append e (h.mono fun c hc => by simp [continuesNumeral, hc])

/-- **A numeral is read back** in front of what does not continue it. -/
theorem takeNumeral_render (x : Numeral) {rest : List Char} (h : Avoids continuesNumeral rest) :
    takeNumeral (x.render ++ rest) = some (x, rest) := by
  -- no part of a numeral begins with what continues the part before it
  have hdigit : Avoids isDigit rest := h.mono fun c hc => by simp [continuesNumeral, hc]
  have hpoint : Avoids (· = '.') rest := h.mono fun c hc => by simp_all [continuesNumeral]
  have hexponent : ∀ kind, kind 'e' = false → Avoids kind (exponentChars x.exponent) := by
    intro kind hkind
    cases x.exponent with
    | none => exact avoids_nil
    | some e => exact avoids_cons.2 hkind
  have hfraction : Avoids isDigit (fractionChars x.fraction) := by
    cases x.fraction with
    | nil => exact avoids_nil
    | cons d ds => exact avoids_cons.2 (by decide)
  have hrest : Avoids isDigit (exponentChars x.exponent ++ rest) :=
    (hexponent _ (by decide)).append hdigit
  have hwhole := takeWhole_append x.whole (hfraction.append hrest)
  have hfraction := takeFraction_append x.fraction hrest
    ((hexponent _ (by decide)).append hpoint)
  have hexponent := takeExponent_append x.exponent h
  rw [render_append]
  obtain ⟨negative, whole, fraction, exponent⟩ := x
  cases negative with
  | true => simp [takeNumeral, hwhole, hfraction, hexponent]
  | false =>
    obtain ⟨d, ds, hds⟩ := List.exists_cons_of_ne_nil (Digits.ofNat_ne_nil whole)
    simp only [hds, List.map_cons, List.cons_append] at hwhole ⊢
    simp [takeNumeral, Digit.toChar_ne_minus, hwhole, hfraction, hexponent]

/-- The characters that a token other than a numeral starts with. -/
def otherStarts : List Char :=
  ['[', ']', '\x7b', '\x7d', ',', ':', 'n', 't', 'f', '"']

theorem take?_eq_number {c : Char} {cs rest : List Char} {x : Numeral} (hc : c ∉ otherStarts)
    (h : takeNumeral (c :: cs) = some (x, rest)) : take? (c :: cs) = some (.number x, rest) := by
  unfold take?
  split
  case h_11 => simp [h]
  all_goals
    next heq =>
      rw [(List.cons.inj heq).1] at hc
      exact absurd hc (by decide)

theorem exists_render_eq_cons (x : Numeral) :
    ∃ c cs, x.render = c :: cs ∧ isBlank c = false ∧ c ∉ otherStarts := by
  have hdigit : ∀ d : Digit, isBlank d.toChar = false ∧ d.toChar ∉ otherStarts := by decide
  obtain ⟨d, ds, hds⟩ := List.exists_cons_of_ne_nil (Digits.ofNat_ne_nil x.whole)
  have hrender := render_append x []
  rw [List.append_nil, hds] at hrender
  cases hnegative : x.negative with
  | true => exact ⟨_, _, by rw [hrender, hnegative]; rfl, by decide, by decide⟩
  | false => exact ⟨_, _, by rw [hrender, hnegative]; rfl, hdigit d⟩

/-! ### Quoted texts -/

/-- A piece stands for a character whatever the pieces before it are. -/
def Piece.StandsFor (p : Piece) (c : Char) : Prop :=
  ∀ done ps, joinPieces done (p :: ps) = joinPieces (c :: done) ps

theorem Piece.standsFor_char (c : Char) : (Piece.char c).StandsFor c :=
  fun _ _ => rfl

theorem Piece.standsFor_unit {c : Char} (h : c.toNat < 0x20) :
    (Piece.unit c.toNat).StandsFor c := by
  intro done ps
  have htrail : isTrail c.toNat = false := by
    simp only [isTrail, Bool.and_eq_false_iff, decide_eq_false_iff_not]
    omega
  have hlead : isLead c.toNat = false := by
    simp only [isLead, Bool.and_eq_false_iff, decide_eq_false_iff_not]
    omega
  rw [joinPieces.eq_def]
  simp only [htrail, hlead, Bool.false_eq_true, if_false, Char.ofNat_toNat]

/-- The four digits of a control character name it. -/
theorem hexUnit?_control {n : Nat} (h : n < 0x20) :
    hexUnit? '0' '0' (Nat.digitChar (n / 16)) (Nat.digitChar (n % 16)) = some n := by
  revert n
  decide

/-- An escaped character is read as one piece, which stands for the character. -/
theorem exists_piece (c : Char) :
    ∃ p : Piece, p.StandsFor c ∧
      ∀ done rest, takePieces done (Text.escape c ++ rest) = takePieces (p :: done) rest := by
  by_cases hletter : c ∈ ['"', '\\', '\n', '\r', '\t', '\x08', '\x0c']
  · refine ⟨.char c, Piece.standsFor_char c, fun done rest => ?_⟩
    simp only [List.mem_cons, List.not_mem_nil, or_false] at hletter
    rcases hletter with rfl | rfl | rfl | rfl | rfl | rfl | rfl <;> rfl
  · simp only [List.mem_cons, List.not_mem_nil, or_false, not_or] at hletter
    obtain ⟨hquote, hbackslash, hn, hr, ht, hb, hf⟩ := hletter
    -- a control character is written by its code, any other one as it is
    by_cases hcontrol : c.toNat < 0x20
    · refine ⟨.unit c.toNat, Piece.standsFor_unit hcontrol, fun done rest => ?_⟩
      simp only [Text.escape, hquote, hbackslash, hn, hr, ht, hb, hf, hcontrol, if_false, if_true,
        List.cons_append, List.nil_append]
      rw [takePieces, hexUnit?_control hcontrol]
    · refine ⟨.char c, Piece.standsFor_char c, fun done rest => ?_⟩
      simp only [Text.escape, hquote, hbackslash, hn, hr, ht, hb, hf, hcontrol, if_false,
        List.cons_append, List.nil_append]
      rw [takePieces]
      · simp only [hcontrol, if_false]
      · exact fun h => hquote h
      · exact fun _ _ _ _ _ h _ => hbackslash h
      · exact fun _ _ h _ => hbackslash h

/-- The pieces of escaped characters stand for the characters. -/
theorem exists_pieces (cs : List Char) :
    ∃ ps : List Piece, (∀ done qs, joinPieces done (ps ++ qs) = joinPieces (cs ++ done) qs) ∧
      ∀ done rest,
        takePieces done (cs.flatMap Text.escape ++ rest) = takePieces (ps ++ done) rest := by
  induction cs with
  | nil => exact ⟨[], fun _ _ => rfl, fun _ _ => rfl⟩
  | cons c cs ih =>
    obtain ⟨p, hp, htake⟩ := exists_piece c
    obtain ⟨ps, hps, htakes⟩ := ih
    refine ⟨ps ++ [p], fun done qs => ?_, fun done rest => ?_⟩
    · rw [List.append_assoc, hps]
      exact hp (cs ++ done) qs
    · rw [List.flatMap_cons, List.append_assoc, htake, htakes, List.append_assoc]
      rfl

/-- **A text is read back** from its escaped form. -/
theorem takeText_escape (cs rest : List Char) :
    takeText (cs.flatMap Text.escape ++ '"' :: rest) = some (some (String.ofList cs), rest) := by
  obtain ⟨ps, hjoin, htake⟩ := exists_pieces cs
  have hpieces : takePieces [] (cs.flatMap Text.escape ++ '"' :: rest) = some (ps, rest) := by
    rw [htake, takePieces, List.append_nil]
  have htext : joinPieces [] ps = some cs := by
    simpa [joinPieces] using hjoin [] []
  simp [takeText, hpieces, htext]

/-! ### Sequences of tokens -/

section Scan

variable {done : List Token} {c : Char} {cs rest : List Char} {t : Token}

theorem scan_nil (done : List Token) : scan done [] = some done.reverse := by
  rw [scan]
  rfl

theorem scan_blank (h : isBlank c = true) : scan done (c :: cs) = scan done cs := by
  rw [scan, List.dropWhile_cons, h, if_pos rfl, scan]

theorem scan_take (hc : isBlank c = false) (h : take? (c :: cs) = some (t, rest)) :
    scan done (c :: cs) = scan (t :: done) rest := by
  have hdrop : (c :: cs).dropWhile isBlank = c :: cs := by
    rw [List.dropWhile_cons, hc]
    rfl
  rw [scan]
  split
  · next hnil => simp [hdrop] at hnil
  · next heq =>
    rw [hdrop, List.cons.injEq] at heq
    obtain ⟨rfl, rfl⟩ := heq
    split
    · next hnone => simp [h] at hnone
    · next hsome =>
      rw [h, Option.some.injEq, Prod.mk.injEq] at hsome
      rw [hsome.1, hsome.2]

end Scan

/-- **Characters lex as tokens**: in front of what does not continue a numeral, the scan takes the
tokens for the characters. -/
def Lexes (cs : List Char) (ts : List Token) : Prop :=
  ∀ done rest, Avoids continuesNumeral rest →
    scan done (cs ++ rest) = scan (ts.reverse ++ done) rest

/-- A mark is a character that is a token by itself. -/
structure Mark (c : Char) (t : Token) : Prop where
  isBlank : isBlank c = false
  continuesNumeral : continuesNumeral c = false
  take? : ∀ cs, take? (c :: cs) = some (t, cs)

theorem mark_openBracket : Mark '[' .openBracket := ⟨rfl, rfl, fun _ => rfl⟩

theorem mark_closeBracket : Mark ']' .closeBracket := ⟨rfl, rfl, fun _ => rfl⟩

theorem mark_openBrace : Mark '\x7b' .openBrace := ⟨rfl, rfl, fun _ => rfl⟩

theorem mark_closeBrace : Mark '\x7d' .closeBrace := ⟨rfl, rfl, fun _ => rfl⟩

theorem mark_comma : Mark ',' .comma := ⟨rfl, rfl, fun _ => rfl⟩

theorem mark_colon : Mark ':' .colon := ⟨rfl, rfl, fun _ => rfl⟩

theorem continuesNumeral_of_isBlank {c : Char} (h : isBlank c = true) :
    continuesNumeral c = false := by
  simp only [isBlank, Bool.or_eq_true, decide_eq_true_eq] at h
  rcases h with ((rfl | rfl) | rfl) | rfl <;> rfl

theorem avoids_blanks {blanks : List Char} (h : ∀ c ∈ blanks, isBlank c = true) :
    Avoids continuesNumeral blanks :=
  fun c hc => continuesNumeral_of_isBlank (h c (List.mem_of_mem_head? hc))

namespace Lexes

variable {cs cs' : List Char} {ts ts' : List Token}

theorem nil : Lexes [] [] :=
  fun _ _ _ => rfl

/-- What lexes may be put in front of what does not continue a numeral. -/
theorem append (h : Lexes cs ts) (h' : Lexes cs' ts') (hend : Avoids continuesNumeral cs') :
    Lexes (cs ++ cs') (ts ++ ts') := by
  intro done rest hrest
  rw [List.append_assoc, h _ _ (hend.append hrest), h' _ _ hrest, List.reverse_append,
    List.append_assoc]

theorem mark {c : Char} {t : Token} (hc : Mark c t) (h : Lexes cs ts) :
    Lexes (c :: cs) (t :: ts) := by
  intro done rest hrest
  rw [List.cons_append, scan_take hc.isBlank (hc.take? _), h _ _ hrest]
  simp

theorem blanks {bs : List Char} (hbs : ∀ c ∈ bs, isBlank c = true) (h : Lexes cs ts) :
    Lexes (bs ++ cs) ts := by
  induction bs with
  | nil => exact h
  | cons b bs ih =>
    intro done rest hrest
    rw [List.cons_append, List.cons_append, scan_blank (hbs b List.mem_cons_self)]
    exact ih (fun c hc => hbs c (List.mem_cons_of_mem _ hc)) done rest hrest

theorem text (cs : List Char) : Lexes (Text.quoteChars cs) [.text (some (String.ofList cs))] := by
  intro done rest _
  have htake : take? ('"' :: (cs.flatMap Text.escape ++ '"' :: rest)) =
      some (.text (some (String.ofList cs)), rest) := by
    rw [take?, takeText_escape]
    rfl
  show scan done (('"' :: (cs.flatMap Text.escape ++ ['"'])) ++ rest) = _
  rw [List.cons_append, List.append_assoc]
  exact scan_take rfl htake

theorem number (x : Numeral) : Lexes x.render [.number x] := by
  intro done rest hrest
  obtain ⟨c, cs, hrender, hblank, hother⟩ := exists_render_eq_cons x
  have htake := takeNumeral_render x hrest
  rw [hrender, List.cons_append] at htake ⊢
  exact scan_take hblank (take?_eq_number hother htake)

theorem null : Lexes ['n', 'u', 'l', 'l'] [.null] :=
  fun _ _ _ => scan_take rfl rfl

theorem bool_true : Lexes ['t', 'r', 'u', 'e'] [.bool true] :=
  fun _ _ _ => scan_take rfl rfl

theorem bool_false : Lexes ['f', 'a', 'l', 's', 'e'] [.bool false] :=
  fun _ _ _ => scan_take rfl rfl

end Lexes

end Json.Token

end GuidedGrammar
