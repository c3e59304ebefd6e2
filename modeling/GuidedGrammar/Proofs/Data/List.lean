import Mathlib.Data.List.Forall2
import Mathlib.Data.List.Induction
import Mathlib.Data.List.Nodup
import Mathlib.Data.List.Perm.Subperm

/-!
# Lists

General facts about lists: first occurrences, cuts, members that correspond, and what is separated
by something. None of them knows of grammars.
-/

namespace GuidedGrammar

/-! ### First occurrences -/

theorem nodup_concat {α : Type} {xs : List α} {x : α} (hxs : xs.Nodup) (h : x ∉ xs) :
    (xs ++ [x]).Nodup :=
  List.concat_eq_append ▸ hxs.concat h

section EraseDups

variable {α : Type} [BEq α] [LawfulBEq α] {xs ys : List α} {x : α}

/-- Nothing new follows. -/
theorem eraseDups_append_of_subset (h : ∀ y ∈ ys, y ∈ xs) :
    (xs ++ ys).eraseDups = xs.eraseDups := by
  have hnone : ys.removeAll xs = [] := by
    rw [List.removeAll, List.filter_eq_nil_iff]
    intro y hy
    simp [h y hy]
  rw [List.eraseDups_append, hnone, List.eraseDups_nil, List.append_nil]

/-- Something new follows. -/
theorem eraseDups_concat_of_not_mem (h : x ∉ xs) : (xs ++ [x]).eraseDups = xs.eraseDups ++ [x] := by
  have hnew : [x].removeAll xs = [x] := by
    rw [List.removeAll, List.filter_eq_self]
    intro y hy
    simp [List.mem_singleton.1 hy, h]
  rw [List.eraseDups_append, hnew, List.eraseDups_cons, List.filter_nil, List.eraseDups_nil]

theorem nodup_eraseDups (xs : List α) : xs.eraseDups.Nodup := by
  induction xs using List.reverseRecOn with
  | nil => exact List.nodup_nil
  | append_singleton xs x ih =>
    by_cases hx : x ∈ xs
    · rw [eraseDups_append_of_subset fun y hy => List.mem_singleton.1 hy ▸ hx]
      exact ih
    · rw [eraseDups_concat_of_not_mem hx]
      exact nodup_concat ih fun hmem => hx (List.mem_eraseDups.1 hmem)

theorem eraseDups_of_nodup (h : xs.Nodup) : xs.eraseDups = xs := by
  induction xs using List.reverseRecOn with
  | nil => exact List.eraseDups_nil
  | append_singleton xs x ih =>
    obtain ⟨hxs, -, hne⟩ := List.nodup_append.1 h
    have hx : x ∉ xs := fun hx => hne x hx x (List.mem_singleton_self x) rfl
    rw [eraseDups_concat_of_not_mem hx, ih hxs]

/-- Only which members come before matters. -/
theorem eraseDups_eraseDups_append (xs ys : List α) :
    (xs.eraseDups ++ ys).eraseDups = (xs ++ ys).eraseDups := by
  have hmem : ys.removeAll xs.eraseDups = ys.removeAll xs := by
    rw [List.removeAll, List.removeAll]
    refine List.filter_congr fun y _ => ?_
    rw [Bool.eq_iff_iff]
    simp only [Bool.not_eq_true', ← Bool.not_eq_true, List.elem_eq_mem, decide_eq_true_eq,
      List.mem_eraseDups]
  rw [List.eraseDups_append, List.eraseDups_append, hmem,
    eraseDups_of_nodup (nodup_eraseDups xs)]

/-- A member that has occurred does not count. -/
theorem eraseDups_append_cons_of_mem (h : x ∈ xs) :
    (xs ++ x :: ys).eraseDups = (xs ++ ys).eraseDups := by
  have hx : ∀ y ∈ [x], y ∈ xs := fun y hy => List.mem_singleton.1 hy ▸ h
  rw [← List.singleton_append, ← List.append_assoc, ← eraseDups_eraseDups_append,
    eraseDups_append_of_subset hx, eraseDups_eraseDups_append]

/-- First occurrences stay where they are when something follows. -/
theorem prefix_eraseDups_append (xs ys : List α) : xs.eraseDups <+: (xs ++ ys).eraseDups := by
  rw [List.eraseDups_append]
  exact List.prefix_append _ _

/-- A member that has not occurred comes next. -/
theorem exists_eraseDups_append_cons (ys : List α) (hxs : xs.Nodup) (h : x ∉ xs) :
    ∃ zs, (xs ++ x :: ys).eraseDups = xs ++ x :: zs := by
  obtain ⟨zs, hzs⟩ := prefix_eraseDups_append (xs ++ [x]) ys
  rw [List.append_assoc, List.singleton_append, eraseDups_concat_of_not_mem h,
    eraseDups_of_nodup hxs, List.append_assoc] at hzs
  exact ⟨zs, hzs.symm⟩

/-- First occurrences of the members that are kept are those among the first occurrences. -/
theorem filter_eraseDups (p : α → Bool) (xs : List α) :
    xs.eraseDups.filter p = (xs.filter p).eraseDups := by
  induction xs using List.reverseRecOn with
  | nil => rfl
  | append_singleton xs x ih =>
    have hmem : p x = true → (x ∈ xs.filter p ↔ x ∈ xs) := fun hp => by
      rw [List.mem_filter, and_iff_left hp]
    -- by induction from the right: a repeated element falls away on both sides
    by_cases hx : x ∈ xs
    · rw [eraseDups_append_of_subset (List.forall_mem_singleton.2 hx), ih, List.filter_append]
      refine (eraseDups_append_of_subset fun y hy => ?_).symm
      obtain ⟨hy, hp⟩ := List.mem_filter.1 hy
      obtain rfl := List.mem_singleton.1 hy
      exact (hmem hp).2 hx
    · rw [eraseDups_concat_of_not_mem hx, List.filter_append, ih, List.filter_append]
      cases hp : p x with
      | false => simp [hp]
      | true =>
        -- a new element stays, and it is new among the kept ones too
        have hnew : x ∉ xs.filter p := fun h => hx ((hmem hp).1 h)
        have hkept : [x].filter p = [x] := by simp [hp]
        rw [hkept, eraseDups_concat_of_not_mem hnew]

end EraseDups

/-! ### Beginnings and cuts -/

/-- What a list begins with keeps its positions when something follows. -/
theorem idxOf_of_prefix {α : Type} [BEq α] [LawfulBEq α] {xs ys : List α} {x : α} (h : xs <+: ys)
    (hx : x ∈ xs) : ys.idxOf x = xs.idxOf x := by
  obtain ⟨zs, rfl⟩ := h
  exact List.idxOf_append_of_mem hx

theorem map_eq_self {α : Type} {f : α → α} {xs : List α} (h : ∀ x ∈ xs, f x = x) :
    xs.map f = xs :=
  (List.map_congr_left h).trans (List.map_id' xs)

/-- Different numbers below a bound are no more than that bound. -/
theorem length_le_of_nodup {xs : List Nat} {n : Nat} (h : xs.Nodup) (hlt : ∀ x ∈ xs, x < n) :
    xs.length ≤ n := by
  have hsubset : xs ⊆ List.range n := fun x hx => List.mem_range.2 (hlt x hx)
  have hle := (h.subperm hsubset).length_le
  rwa [List.length_range] at hle

/-- Members keep their places under new names, if no name is given twice. -/
theorem idxOf_map {α β : Type} [BEq α] [LawfulBEq α] [BEq β] [LawfulBEq β] {P : α → Prop}
    {f : α → β} (hf : ∀ x y, P x → P y → f x = f y → x = y) {xs : List α} (hxs : ∀ x ∈ xs, P x)
    {x : α} (hx : P x) : (xs.map f).idxOf (f x) = xs.idxOf x := by
  induction xs with
  | nil => rfl
  | cons y xs ih =>
    have hname : (f y == f x) = (y == x) := by
      rw [Bool.eq_iff_iff, beq_iff_eq, beq_iff_eq]
      exact ⟨hf y x (hxs y (List.mem_cons_self ..)) hx, congrArg f⟩
    rw [List.map_cons, List.idxOf_cons, List.idxOf_cons, hname,
      ih fun z hz => hxs z (List.mem_cons_of_mem _ hz)]

/-- A list that is cut in two, and one of its elements: the element is after the cut or before
it. -/
theorem append_eq_append_cons {α : Type} {xs ys zs ws : List α} {c : α}
    (h : xs ++ ys = zs ++ c :: ws) :
    (∃ zs', zs = xs ++ zs' ∧ ys = zs' ++ c :: ws) ∨
      ∃ xs', xs = zs ++ c :: xs' ∧ ws = xs' ++ ys := by
  rcases List.append_eq_append_iff.1 h with hafter | ⟨bs, rfl, hbs⟩
  · exact Or.inl hafter
  · rcases List.cons_eq_append_iff.1 hbs with ⟨rfl, rfl⟩ | ⟨xs', rfl, rfl⟩
    · exact Or.inl ⟨[], by simp⟩
    · exact Or.inr ⟨xs', rfl, rfl⟩

/-! ### Members that correspond -/

section Correspond

variable {α β γ : Type} {R : α → β → Prop} {xs : List α} {ys : List β} {i : Nat}

/-- What corresponds to a member stands at the same position. -/
theorem exists_right_of_forall₂ (h : List.Forall₂ R xs ys) {x : α} (hx : xs[i]? = some x) :
    ∃ y, ys[i]? = some y ∧ R x y := by
  obtain ⟨hi, rfl⟩ := List.getElem?_eq_some_iff.1 hx
  have hi' : i < ys.length := h.length_eq ▸ hi
  exact ⟨ys[i], List.getElem?_eq_getElem hi', h.get hi hi'⟩

theorem exists_left_of_forall₂ (h : List.Forall₂ R xs ys) {y : β} (hy : ys[i]? = some y) :
    ∃ x, xs[i]? = some x ∧ R x y :=
  exists_right_of_forall₂ h.flip hy

/-- Something corresponds to every member. -/
theorem exists_mem_of_forall₂ (h : List.Forall₂ R xs ys) {x : α} (hx : x ∈ xs) :
    ∃ y ∈ ys, R x y := by
  obtain ⟨i, hi⟩ := List.mem_iff_getElem?.1 hx
  obtain ⟨y, hy, hxy⟩ := exists_right_of_forall₂ h hi
  exact ⟨y, List.mem_of_getElem? hy, hxy⟩

/-- Lists are equal if their images are and equal images come from equal members. -/
theorem eq_of_map_eq_map {f h : α → β} {xs ys : List α}
    (hinj : ∀ x ∈ xs, ∀ y ∈ ys, f x = h y → x = y) (heq : xs.map f = ys.map h) : xs = ys := by
  induction xs generalizing ys with
  | nil =>
    cases ys with
    | nil => rfl
    | cons y ys => cases heq
  | cons x xs ih =>
    cases ys with
    | nil => cases heq
    | cons y ys =>
      obtain ⟨hhead, htail⟩ := List.cons.inj heq
      rw [hinj x (List.mem_cons_self ..) y (List.mem_cons_self ..) hhead,
        ih (fun x hx y hy => hinj x (List.mem_cons_of_mem _ hx) y (List.mem_cons_of_mem _ hy))
          htail]

/-- All members of a list have counterparts. -/
theorem exists_mapM {f : α → Option β} (h : ∀ x ∈ xs, (f x).isSome = true) :
    ∃ ys, xs.mapM f = some ys := by
  induction xs with
  | nil => exact ⟨[], rfl⟩
  | cons x xs ih =>
    obtain ⟨y, hy⟩ := Option.isSome_iff_exists.1 (h x (List.mem_cons_self ..))
    obtain ⟨ys, hys⟩ := ih fun x hx => h x (List.mem_cons_of_mem _ hx)
    exact ⟨y :: ys, by simp [List.mapM_cons, hy, hys]⟩

/-- All members of a list have counterparts exactly where a list of counterparts is returned. -/
theorem mapM_eq_some {f : α → Option β} (h : xs.mapM f = some ys) (fallback : β) :
    (∀ x ∈ xs, f x = some ((f x).getD fallback)) ∧ ys = xs.map fun x => (f x).getD fallback := by
  induction xs generalizing ys with
  | nil => exact ⟨fun x hx => absurd hx List.not_mem_nil, (Option.some.inj h).symm⟩
  | cons x xs ih =>
    simp only [List.mapM_cons, Option.bind_eq_bind, Option.bind_eq_some_iff, Option.pure_def,
      Option.some.injEq] at h
    obtain ⟨y, hy, ys, hxs, rfl⟩ := h
    obtain ⟨hmem, rfl⟩ := ih hxs
    refine ⟨?_, by rw [List.map_cons, hy, Option.getD_some]⟩
    intro x' hx'
    rcases List.mem_cons.1 hx' with rfl | hx'
    · rw [hy, Option.getD_some]
    · exact hmem x' hx'

/-- The images of a list have counterparts if each of them has one. -/
theorem mapM_map_eq_some {f : α → β} {g : β → Option γ} {r : α → γ}
    (h : ∀ x ∈ xs, g (f x) = some (r x)) : (xs.map f).mapM g = some (xs.map r) := by
  induction xs with
  | nil => rfl
  | cons x xs ih =>
    have ih := ih fun y hy => h y (List.mem_cons_of_mem _ hy)
    rw [List.map_cons, List.mapM_cons, h x List.mem_cons_self, ih]
    rfl

end Correspond

/-! ### Separated items -/

theorem mem_of_mem_intersperse {α : Type} {s x : α} {xs : List α} (h : x ∈ xs.intersperse s) :
    x = s ∨ x ∈ xs := by
  induction xs with
  | nil => exact absurd h List.not_mem_nil
  | cons y ys ih =>
    cases ys with
    | nil => exact Or.inr h
    | cons z zs =>
      rw [List.intersperse_cons_cons, List.mem_cons, List.mem_cons] at h
      rcases h with rfl | rfl | h
      · exact Or.inr (List.mem_cons_self ..)
      · exact Or.inl rfl
      · exact (ih h).imp_right (List.mem_cons_of_mem _)

/-- Separated items are the first one, and the others with the separator in front. -/
theorem intercalate_cons {α : Type} (sep x : List α) (xs : List (List α)) :
    List.intercalate sep (x :: xs) = x ++ xs.flatMap (sep ++ ·) := by
  induction xs generalizing x with
  | nil => simp [List.intercalate]
  | cons y ys ih =>
    have hstep : List.intercalate sep (x :: y :: ys) =
        x ++ (sep ++ List.intercalate sep (y :: ys)) := by
      simp [List.intercalate, List.intersperse]
    rw [hstep, ih, List.flatMap_cons, List.append_assoc]

end GuidedGrammar
