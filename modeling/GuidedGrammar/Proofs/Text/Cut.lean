import GuidedGrammar.Text.Cut

/-!
# What is left of a text that is cut

A text that is cut to a number of bytes is itself if it fits, and else its longest beginning that
fits, followed by an ellipsis (`Text.isCut_truncate`). Beginnings end between two characters, so
they may have fewer bytes than allowed.

Where a text is put together from pieces, two things do not matter for the result: how it is divided
(`Text.writeWithin_eq_truncate`), and whatever comes behind more bytes than are kept
(`Text.truncate_append_of_lt`).
-/

namespace GuidedGrammar.Text

variable {limit : Nat} {s t kept : String}

/-! ### Beginnings -/

/-- The longest beginning of a text that fits into a number of bytes, among those that end between
two characters. -/
structure IsLongestBeginning (limit : Nat) (s kept : String) : Prop where
  beginning : ∃ rest, s = kept ++ rest
  size_le : kept.utf8ByteSize ≤ limit
  longest : ∀ p rest, s = p ++ rest → p.utf8ByteSize ≤ limit → p.utf8ByteSize ≤ kept.utf8ByteSize

/-- What a text becomes when it is cut: itself if it fits, and else its longest beginning that
fits, with an ellipsis behind it. -/
inductive IsCut (limit : Nat) (s : String) : String → Prop
  | whole (h : s.utf8ByteSize ≤ limit) : IsCut limit s s
  | shortened {kept : String} (h : limit < s.utf8ByteSize) (hkept : IsLongestBeginning limit s kept) :
    IsCut limit s (kept ++ "...")

/-- A text that fits is not changed. -/
theorem IsCut.eq_of_le (h : IsCut limit s t) (hs : s.utf8ByteSize ≤ limit) : t = s := by
  cases h with
  | whole => rfl
  | shortened hlt => omega

/-- How long a text is after it was cut: the ellipsis has three bytes. -/
theorem IsCut.size_le (h : IsCut limit s t) : t.utf8ByteSize ≤ limit + 3 := by
  cases h with
  | whole h => omega
  | shortened h hkept =>
    have hellipsis : "...".utf8ByteSize = 3 := by decide
    have := hkept.size_le
    rw [String.utf8ByteSize_append]
    omega

/-! ### Taking bytes -/

theorem size_ofList_cons (c : Char) (cs : List Char) :
    (String.ofList (c :: cs)).utf8ByteSize = c.utf8Size + (String.ofList cs).utf8ByteSize := by
  rw [String.ofList_cons, String.utf8ByteSize_append, String.utf8ByteSize_singleton]

theorem takeBytesFrom_eq (taken : String) (room : Nat) (cs : List Char) :
    takeBytesFrom taken room cs = taken ++ takeBytesFrom "" room cs := by
  induction cs generalizing taken room with
  | nil => simp [takeBytesFrom]
  | cons c cs ih =>
    unfold takeBytesFrom
    split
    · rw [ih (taken.push c), ih ("".push c), ← String.append_assoc]
      simp
    · simp

/-- Taking bytes character by character. -/
theorem takeBytes_cons (limit : Nat) (c : Char) (cs : List Char) :
    takeBytes limit (String.ofList (c :: cs)) =
      if c.utf8Size ≤ limit then
        String.singleton c ++ takeBytes (limit - c.utf8Size) (String.ofList cs)
      else "" := by
  rw [takeBytes, takeBytes, String.toList_ofList, String.toList_ofList, takeBytesFrom,
    takeBytesFrom_eq]
  rfl

/-- A beginning that fits is taken. -/
theorem takeBytes_append_of_le (s : String) (hs : s.utf8ByteSize ≤ limit) (t : String) :
    takeBytes limit (s ++ t) = s ++ takeBytes (limit - s.utf8ByteSize) t := by
  obtain ⟨cs, rfl⟩ : ∃ cs, s = String.ofList cs := ⟨s.toList, String.ofList_toList.symm⟩
  obtain ⟨ds, rfl⟩ : ∃ ds, t = String.ofList ds := ⟨t.toList, String.ofList_toList.symm⟩
  induction cs generalizing limit with
  | nil => simp
  | cons c cs ih =>
    rw [size_ofList_cons] at hs
    have hc : c.utf8Size ≤ limit := by omega
    have hrest := @ih (limit - c.utf8Size) (by omega)
    rw [← String.ofList_append, List.cons_append, takeBytes_cons, if_pos hc, String.ofList_append,
      hrest, size_ofList_cons, Nat.sub_sub, String.ofList_cons, String.append_assoc]

/-- Behind a beginning that does not fit, nothing is taken. -/
theorem takeBytes_append_of_lt (s : String) (hs : limit < s.utf8ByteSize) (t : String) :
    takeBytes limit (s ++ t) = takeBytes limit s := by
  obtain ⟨cs, rfl⟩ : ∃ cs, s = String.ofList cs := ⟨s.toList, String.ofList_toList.symm⟩
  obtain ⟨ds, rfl⟩ : ∃ ds, t = String.ofList ds := ⟨t.toList, String.ofList_toList.symm⟩
  induction cs generalizing limit with
  | nil => exact absurd hs (Nat.not_lt_zero limit)
  | cons c cs ih =>
    rw [size_ofList_cons] at hs
    rw [← String.ofList_append, List.cons_append, takeBytes_cons, takeBytes_cons]
    by_cases hc : c.utf8Size ≤ limit
    · rw [if_pos hc, if_pos hc, String.ofList_append, ih (by omega)]
    · rw [if_neg hc, if_neg hc]

/-- What is taken is the longest beginning that fits. -/
theorem isLongestBeginning_takeBytes (limit : Nat) (s : String) :
    IsLongestBeginning limit s (takeBytes limit s) := by
  obtain ⟨cs, rfl⟩ : ∃ cs, s = String.ofList cs := ⟨s.toList, String.ofList_toList.symm⟩
  induction cs generalizing limit with
  | nil => exact ⟨⟨"", rfl⟩, Nat.zero_le limit, fun p rest h _ => by simp_all⟩
  | cons c cs ih =>
    rw [takeBytes_cons]
    -- a beginning is empty, or `c` comes first in it
    have hbeginning : ∀ p rest, String.ofList (c :: cs) = p ++ rest → p = "" ∨
        ∃ q, p = String.singleton c ++ q ∧ String.ofList cs = q ++ rest := by
      intro p rest h
      rw [String.ext_iff, String.toList_append, String.toList_ofList] at h
      rcases List.cons_eq_append_iff.1 h with ⟨hp, -⟩ | ⟨ds, hp, hcs⟩
      · exact .inl (String.toList_inj.1 hp)
      · refine .inr ⟨String.ofList ds, String.toList_inj.1 ?_, String.toList_inj.1 ?_⟩
        · simpa using hp
        · simpa using hcs
    by_cases hc : c.utf8Size ≤ limit
    · obtain ⟨⟨rest, hrest⟩, hsize, hlongest⟩ := ih (limit - c.utf8Size)
      rw [if_pos hc]
      refine ⟨⟨rest, ?_⟩, ?_, fun p rest' hp hsize' => ?_⟩
      · rw [String.append_assoc, ← hrest, String.ofList_cons]
      · rw [String.utf8ByteSize_append, String.utf8ByteSize_singleton]
        omega
      · rcases hbeginning p rest' hp with rfl | ⟨q, rfl, hq⟩
        · exact Nat.zero_le _
        · rw [String.utf8ByteSize_append, String.utf8ByteSize_singleton] at hsize' ⊢
          rw [String.utf8ByteSize_append, String.utf8ByteSize_singleton]
          have := hlongest q rest' hq (by omega)
          omega
    · rw [if_neg hc]
      refine ⟨⟨_, String.empty_append.symm⟩, Nat.zero_le limit, fun p rest hp hsize => ?_⟩
      rcases hbeginning p rest hp with rfl | ⟨q, rfl, -⟩
      · exact Nat.le_refl _
      · rw [String.utf8ByteSize_append, String.utf8ByteSize_singleton] at hsize
        omega

/-! ### Cutting -/

/-- **Cutting a text.** -/
theorem isCut_truncate (limit : Nat) (s : String) : IsCut limit s (truncate limit s) := by
  unfold truncate
  split
  · rename_i h
    exact .whole h
  · rename_i h
    exact .shortened (Nat.lt_of_not_le h) (isLongestBeginning_takeBytes limit s)

/-- **Whatever comes behind too many bytes is cut off.** -/
theorem truncate_append_of_lt (hs : limit < s.utf8ByteSize) (t : String) :
    truncate limit (s ++ t) = takeBytes limit s ++ ellipsis := by
  have hlt : ¬ (s ++ t).utf8ByteSize ≤ limit := by
    rw [String.utf8ByteSize_append]
    omega
  rw [truncate, if_neg hlt, takeBytes_append_of_lt s hs]

/-- **Writing pieces within a limit** cuts the text that they make up, however it is divided. -/
theorem writeWithin_eq_truncate {α : Type} (toText : α → String) (pieces : List α) {written : String}
    (h : written.utf8ByteSize ≤ limit) : writeWithin limit toText written pieces =
      truncate limit (written ++ String.join (pieces.map toText)) := by
  induction pieces generalizing written with
  | nil => simp [writeWithin, truncate, h]
  | cons piece rest ih =>
    rw [writeWithin, List.map_cons, String.join_cons, ← String.append_assoc]
    by_cases hfits : written.utf8ByteSize + (toText piece).utf8ByteSize ≤ limit
    · rw [if_pos hfits]
      apply ih
      rwa [String.utf8ByteSize_append]
    · rw [if_neg hfits, truncate_append_of_lt, takeBytes_append_of_le _ h]
      rw [String.utf8ByteSize_append]
      omega

end GuidedGrammar.Text
