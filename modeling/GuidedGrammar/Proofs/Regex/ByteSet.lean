import Mathlib
import GuidedGrammar.Proofs.Grammar.Frame
import GuidedGrammar.Proofs.Regex.Circularity
import GuidedGrammar.Proofs.Regex.Rendering

/-!
# Sets of bytes

A set of bytes is written as eight words, one bit for each byte. Each word is put together from a
list of bytes, in which a byte may occur at any place and any number of times; what is left of that
list is which bytes occur (`Regex.testBit_byteSetWord_iff_mem`, `Regex.byteSetWords_eq_iff`). So
sets of the same bytes share an entry of a table, and a rendering counts the bytes that occur
(`Builder.byteSet_canonical`).
-/

namespace GuidedGrammar

/-- A character has at most four bytes. -/
theorem Text.size_le_length (s : String) : s.utf8ByteSize ≤ 4 * s.length := by
  rw [← String.ofList_toList (s := s), String.length_ofList]
  induction s.toList with
  | nil => simp
  | cons c cs ih =>
    have := c.utf8Size_le_four
    rw [Text.size_ofList_cons, List.length_cons]
    omega

namespace Regex

variable {bytes bytes' : List UInt8} {index i : Nat}

/-! ### Words -/

/-- Setting a bit of a word. -/
theorem testBit_setBit (word : UInt32) {k : Nat} (hk : k < 32) (i : Nat) :
    (word ||| (1 : UInt32) <<< k.toUInt32).toNat.testBit i = true ↔
      word.toNat.testBit i = true ∨ k = i := by
  have hshift : ((1 : UInt32) <<< k.toUInt32).toNat = 2 ^ k := by
    have hk' : k.toUInt32.toNat = k := by
      rw [Nat.toUInt32_eq, UInt32.toNat_ofNat_of_lt']
      exact Nat.lt_trans hk (by decide)
    rw [UInt32.toNat_shiftLeft, hk', Nat.mod_eq_of_lt hk, UInt32.toNat_one, Nat.one_shiftLeft]
    exact Nat.mod_eq_of_lt (Nat.pow_lt_pow_right (by decide) hk)
  rw [UInt32.toNat_or, Nat.testBit_or, hshift, Nat.testBit_two_pow, Bool.or_eq_true,
    decide_eq_true_iff]

/-- The bits of a word are those of the bytes that occur among the 32 bytes of the word. -/
theorem testBit_byteSetWord :
    (byteSetWord index bytes).toNat.testBit i = true ↔
      ∃ b ∈ bytes, b.toNat / 32 = index ∧ b.toNat % 32 = i := by
  -- by induction on the bytes, for any word to begin with
  have hfold : ∀ word : UInt32, (bytes.foldl (fun (word : UInt32) b =>
      if b.toNat / 32 = index then word ||| (1 : UInt32) <<< (b.toNat % 32).toUInt32 else word)
        word).toNat.testBit i = true ↔
      word.toNat.testBit i = true ∨ ∃ b ∈ bytes, b.toNat / 32 = index ∧ b.toNat % 32 = i := by
    intro word
    induction bytes generalizing word with
    | nil => simp
    | cons b bytes ih =>
      rw [List.foldl_cons, ih]
      by_cases hindex : b.toNat / 32 = index
      · rw [if_pos hindex, testBit_setBit word (Nat.mod_lt _ (by decide))]
        simp [hindex, or_assoc]
      · rw [if_neg hindex]
        simp [hindex]
  have hzero : ¬ (0 : UInt32).toNat.testBit i = true := by simp
  exact (hfold 0).trans (or_iff_right hzero)

/-- The word of a byte. -/
theorem getElem?_byteSetWords (bytes : List UInt8) (b : UInt8) :
    (byteSetWords bytes)[b.toNat / 32]? = some (byteSetWord (b.toNat / 32) bytes) := by
  have hb : b.toNat / 32 < 8 := Nat.div_lt_of_lt_mul b.toNat_lt
  rw [byteSetWords, List.getElem?_map, List.getElem?_range hb]
  rfl

theorem length_byteSetWords (bytes : List UInt8) : (byteSetWords bytes).length = 8 := by
  rw [byteSetWords, List.length_map, List.length_range]

/-- **The bit of a byte** says whether the byte occurs. -/
theorem testBit_byteSetWord_iff_mem (b : UInt8) :
    (byteSetWord (b.toNat / 32) bytes).toNat.testBit (b.toNat % 32) = true ↔ b ∈ bytes := by
  rw [testBit_byteSetWord]
  refine ⟨?_, fun hb => ⟨b, hb, rfl, rfl⟩⟩
  rintro ⟨b', hb', hdiv, hmod⟩
  have hsame : b' = b := by
    rw [← UInt8.toNat_inj]
    omega
  exact hsame ▸ hb'

/-- **The words tell which bytes occur**, and nothing else. -/
theorem byteSetWords_eq_iff :
    byteSetWords bytes = byteSetWords bytes' ↔ ∀ b, b ∈ bytes ↔ b ∈ bytes' := by
  constructor
  · intro h b
    have hword := getElem?_byteSetWords bytes b
    rw [h, getElem?_byteSetWords, Option.some.injEq] at hword
    rw [← testBit_byteSetWord_iff_mem, ← hword, testBit_byteSetWord_iff_mem]
  · intro h
    have hword : ∀ index, byteSetWord index bytes = byteSetWord index bytes' := by
      intro index
      rw [← UInt32.toNat_inj]
      refine Nat.eq_of_testBit_eq fun i => ?_
      rw [Bool.eq_iff_iff, testBit_byteSetWord, testBit_byteSetWord]
      simp only [h]
    rw [byteSetWords, byteSetWords, List.map_congr_left fun index _ => hword index]

/-! ### Counting -/

theorem countBits_eq_card (word : UInt32) :
    countBits word = ((Finset.range 32).filter fun i => word.toNat.testBit i = true).card := by
  rw [countBits, ← Nat.count_eq_card_filter_range, Nat.count]
  simp

/-- A word has a bit for each of its bytes that occurs. -/
theorem countBits_byteSetWord (index : Nat) (bytes : List UInt8) :
    countBits (byteSetWord index bytes) =
      (bytes.toFinset.filter fun b => b.toNat / 32 = index).card := by
  rw [countBits_eq_card]
  symm
  refine Finset.card_nbij (fun b : UInt8 => b.toNat % 32) ?_ ?_ ?_
  · intro b hb
    obtain ⟨hb, hindex⟩ := Finset.mem_filter.1 hb
    refine Finset.mem_filter.2 ⟨Finset.mem_range.2 (Nat.mod_lt _ (by decide)), ?_⟩
    exact testBit_byteSetWord.2 ⟨b, List.mem_toFinset.1 hb, hindex, rfl⟩
  · -- bytes of one word differ in their bit
    intro b hb b' hb' hmod
    have hindex := (Finset.mem_filter.1 hb).2
    have hindex' := (Finset.mem_filter.1 hb').2
    rw [← UInt8.toNat_inj]
    dsimp only at hmod
    omega
  · intro i hi
    obtain ⟨b, hb, hindex, hmod⟩ := testBit_byteSetWord.1 (Finset.mem_filter.1 hi).2
    exact ⟨b, Finset.mem_filter.2 ⟨List.mem_toFinset.2 hb, hindex⟩, hmod⟩

/-- A set has as many bytes as occur. -/
theorem byteSetSize_byteSetWords (bytes : List UInt8) :
    byteSetSize (byteSetWords bytes) = bytes.toFinset.card := by
  have hwords : Set.MapsTo (fun b : UInt8 => b.toNat / 32) bytes.toFinset (Finset.range 8) := by
    intro b _
    exact Finset.mem_coe.2 (Finset.mem_range.2 (Nat.div_lt_of_lt_mul b.toNat_lt))
  rw [Finset.card_eq_sum_card_fiberwise hwords]
  simp [← countBits_byteSetWord, byteSetSize, byteSetWords, Finset.sum_range_succ, List.range_succ]

/-! ### Entries and renderings -/

variable {store : RegexStore} {id id' : RegexId}

/-- The tree of a set of bytes has nothing below it. -/
theorem unfolds_byteSet_iff {words : List UInt32} {t : Tree}
    (hid : store[id]? = some (.byteSet words)) :
    store.Unfolds id t ↔ t = .node (.byteSet words) := by
  have htree : store.Unfolds id (.node ((byteSet words).map fun _ => Tree.node .nothing)) :=
    .node hid fun p hp => absurd hp List.not_mem_nil
  exact ⟨fun h => h.unique htree, fun h => h ▸ htree⟩

/-- Sets of the same bytes share an entry, and other sets do not. -/
theorem position_eq_iff (hid : store[id]? = some (.byteSet (byteSetWords bytes)))
    (hid' : store[id']? = some (.byteSet (byteSetWords bytes'))) {roots : List RegexId} {i j : Nat}
    (hi : (id, .ok i) ∈ ((∅ : RegexTable).addAll store roots).1)
    (hj : (id', .ok j) ∈ ((∅ : RegexTable).addAll store roots).1) :
    i = j ↔ ∀ b, b ∈ bytes ↔ b ∈ bytes' := by
  obtain ⟨hall, -, hsame⟩ :=
    RegexTable.represents_addAll roots (RegexTable.represents_empty store _)
  obtain ⟨t, ht, hentry⟩ := hsame id i hi
  obtain ⟨t', ht', hentry'⟩ := hsame id' j hj
  -- a byte set has no parts, so its tree is the entry itself
  obtain rfl := (unfolds_byteSet_iff hid).1 ht
  obtain rfl := (unfolds_byteSet_iff hid').1 ht'
  rw [← byteSetWords_eq_iff]
  constructor
  · rintro rfl
    exact byteSet.inj (Tree.node.inj (hentry.unique hentry'))
  · intro h
    rw [h] at hentry
    exact hentry.place_unique hall.position_unique hentry'

/-- The rendering of a set counts the bytes that occur. -/
theorem render_byteSet (hid : store[id]? = some (.byteSet (byteSetWords bytes))) :
    render store id = "byteset(" ++ toString bytes.toFinset.card ++ ")" := by
  have hshows : Shows store [.regex id] ("byteset(" ++ toString bytes.toFinset.card ++ ")") := by
    have h := Shows.regex hid
      (.text (toString (byteSetSize (byteSetWords bytes))) (.text ")" .nil)) .nil
    rw [byteSetSize_byteSetWords] at h
    simpa only [form, String.append_assoc, String.append_empty] using h
  refine (isCut_render hshows).eq_of_le ?_
  -- there are 256 bytes, so the count has at most three digits
  have hcard : bytes.toFinset.card ≤ (Finset.range 256).card :=
    Finset.card_le_card_of_injOn UInt8.toNat
      (fun b _ => Finset.mem_coe.2 (Finset.mem_range.2 b.toNat_lt))
      fun _ _ _ _ h => UInt8.toNat_inj.1 h
  rw [Finset.card_range] at hcard
  have hdigits : (toString bytes.toFinset.card).length ≤ 3 :=
    Nat.repr_length _ 3 (by decide) (Nat.lt_of_le_of_lt hcard (by decide))
  have hsize := Text.size_le_length (toString bytes.toFinset.card)
  have hstart : "byteset(".utf8ByteSize = 8 := by decide
  have hend : ")".utf8ByteSize = 1 := by decide
  rw [String.utf8ByteSize_append, String.utf8ByteSize_append, hstart, hend, renderLimit]
  omega

/-- A regex that is the set of the given bytes. -/
structure IsByteSet (store : RegexStore) (id : RegexId) (bytes : List UInt8) : Prop where
  /-- Its eight words say of each byte whether it occurs. -/
  words : ∃ words, store[id]? = some (.byteSet words) ∧ words.length = 8 ∧
    ∀ b : UInt8, ∃ word, words[b.toNat / 32]? = some word ∧
      (word.toNat.testBit (b.toNat % 32) = true ↔ b ∈ bytes)
  /-- Its rendering counts the bytes that occur. -/
  rendering : render store id = "byteset(" ++ toString bytes.toFinset.card ++ ")"
  /-- It can be added to a table before and after any other regexes. -/
  accepted : ∀ roots, id ∈ roots → ∃ i, (id, .ok i) ∈ ((∅ : RegexTable).addAll store roots).1

theorem isByteSet (hid : store[id]? = some (.byteSet (byteSetWords bytes))) :
    IsByteSet store id bytes where
  words := ⟨_, hid, length_byteSetWords bytes, fun b =>
    ⟨_, getElem?_byteSetWords bytes b, testBit_byteSetWord_iff_mem b⟩⟩
  rendering := render_byteSet hid
  accepted _ hmem :=
    (RegexTable.unspoiled_empty store).exists_mem_addAll
      ((unfolds_byteSet_iff hid).2 rfl).sound hmem

/-- Two sets are the same regex if they have the same bytes. -/
theorem getElem?_eq_iff (hid : store[id]? = some (.byteSet (byteSetWords bytes)))
    (hid' : store[id']? = some (.byteSet (byteSetWords bytes'))) :
    store[id]? = store[id']? ↔ ∀ b, b ∈ bytes ↔ b ∈ bytes' := by
  rw [hid, hid', Option.some.injEq, byteSet.injEq, byteSetWords_eq_iff]

end Regex

namespace Builder

/-- A set of bytes is always built. -/
theorem exists_byteSet_run (a : Arena) (bytes : List UInt8) :
    ∃ id b, byteSet bytes a = .ok id b ∧ Arena.Steps a b ∧
      b.regexes[id]? = some (.byteSet (Regex.byteSetWords bytes)) := by
  refine ⟨_, _, rfl, ((builds_byteSet bytes).of_ok rfl).1, ?_⟩
  exact Array.getElem?_push_size

/-- **Sets of bytes are canonical.** Wherever two sets of bytes are built, each has eight words, in
which bit `b % 32` of word `b / 32` is set if and only if the byte `b` is in its list; its rendering
counts the bytes in the list, each once; and it can be added to a table. The two are the same regex
if and only if their lists have the same bytes, in whatever order and however often, and in a table
to which both have been added, among any other regexes of their arena, they have the same position
if and only if that is so. -/
theorem byteSet_canonical (before between after : List Call) (bytes bytes' : List UInt8) :
    ∃ id a id' b, byteSet bytes (Arena.ofCalls before) = .ok id a ∧
      byteSet bytes' (between.foldl Call.after a) = .ok id' b ∧
      let store := (after.foldl Call.after b).regexes
      Regex.IsByteSet store id bytes ∧ Regex.IsByteSet store id' bytes' ∧
        (store[id]? = store[id']? ↔ ∀ x, x ∈ bytes ↔ x ∈ bytes') ∧
        ∀ roots i j, (id, .ok i) ∈ ((∅ : RegexTable).addAll store roots).1 →
          (id', .ok j) ∈ ((∅ : RegexTable).addAll store roots).1 →
          (i = j ↔ ∀ x, x ∈ bytes ↔ x ∈ bytes') := by
  have hbefore := Arena.consistent_ofCalls before
  obtain ⟨id, a, hrun, hsteps, hid⟩ := exists_byteSet_run (Arena.ofCalls before) bytes
  have ha := hsteps.consistent hbefore
  have hbetween := Arena.steps_foldl_after ha between
  obtain ⟨id', b, hrun', hsteps', hid'⟩ := exists_byteSet_run (between.foldl Call.after a) bytes'
  have hb := hsteps'.consistent (hbetween.consistent ha)
  have hafter := Arena.steps_foldl_after hb after
  -- both regexes are still there after all calls
  have hall : Arena.Steps a (after.foldl Call.after b) := (hbetween.trans hsteps').trans hafter
  have hkept := hall.grows.regexes id _ hid
  have hkept' := hafter.grows.regexes id' _ hid'
  exact ⟨id, a, id', b, hrun, hrun', Regex.isByteSet hkept, Regex.isByteSet hkept',
    Regex.getElem?_eq_iff hkept hkept', fun _ _ _ => Regex.position_eq_iff hkept hkept'⟩

end Builder

end GuidedGrammar
