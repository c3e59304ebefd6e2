import Mathlib.Logic.Basic

/-!
# Results and errors

A computation ends with a value or with an error, and it may carry a state. Whatever is said of a
computation, or of two of them side by side, is said of their ends; what remains is to carry it
along when one computation follows another, and when one is run for every member of a list. Both are
done here once, for two ends and three relations between them (`Except.Related`): one between
values, one for a value that the other side has lost to an error, and one between errors.

What else is said of ends is that relation with something put in for the three:

* `Except.Ensures`: what holds of the value, or else of the error;
* `Except.Agrees`: values that correspond, or errors that correspond;
* `Except.Stricter`: a computation, and one that does the same but stops where a value is bad.
-/

/-! ### Values mapped and actions run -/

namespace Except

section Map

variable {ε α β : Type} {f : α → β} {x : Except ε α}

theorem map_eq_ok_iff {b : β} : x.map f = .ok b ↔ ∃ a, x = .ok a ∧ f a = b := by
  cases x <;> simp [Except.map]

theorem map_eq_error_iff {e : ε} : x.map f = .error e ↔ x = .error e := by
  cases x <;> simp [Except.map]

theorem bind_ok_eq_error_iff {e : ε} : (x >>= fun a => .ok (f a)) = .error e ↔ x = .error e := by
  cases x <;> simp [bind, Except.bind]

end Map

end Except

namespace EStateM

/-- How a sequence of actions fails: one of them does, after all those before it have succeeded, and
those after it are left out. -/
theorem forM_eq_error_iff {ε σ α : Type} {action : α → EStateM ε σ Unit} {xs : List α} {s s' : σ}
    {e : ε} :
    (xs.forM action).run s = .error e s' ↔
      ∃ before x after s₁, xs = before ++ x :: after ∧
        (before.forM action).run s = .ok () s₁ ∧ (action x).run s₁ = .error e s' := by
  induction xs generalizing s with
  | nil =>
    refine iff_of_false (fun h => nomatch h) ?_
    rintro ⟨before, x, after, s₁, hxs, -⟩
    exact absurd hxs.symm (List.append_ne_nil_of_right_ne_nil _ (List.cons_ne_nil x after))
  | cons x xs ih =>
    show (action x >>= fun _ => xs.forM action).run s = .error e s' ↔ _
    rw [EStateM.run_bind]
    constructor
    · intro h
      cases hx : (action x).run s with
      | error e₁ s₁ =>
        rw [hx] at h
        exact ⟨[], x, xs, s, rfl, rfl, hx.trans h⟩
      | ok u s₁ =>
        rw [hx] at h
        -- the first action succeeds, so it stands before the one that fails
        obtain ⟨before, y, after, s₂, rfl, hbefore, hy⟩ := ih.1 h
        refine ⟨x :: before, y, after, s₂, rfl, ?_, hy⟩
        show (action x >>= fun _ => before.forM action).run s = .ok () s₂
        rw [EStateM.run_bind, hx]
        exact hbefore
    · rintro ⟨before, y, after, s₂, hxs, hbefore, hy⟩
      cases before with
      | nil =>
        obtain ⟨rfl, rfl⟩ := List.cons.inj hxs
        obtain rfl : s = s₂ := (EStateM.Result.ok.inj hbefore).2
        rw [hy]
      | cons z before =>
        obtain ⟨rfl, rfl⟩ := List.cons.inj hxs
        replace hbefore : (action x >>= fun _ => before.forM action).run s = .ok () s₂ := hbefore
        rw [EStateM.run_bind] at hbefore
        cases hx : (action x).run s with
        | error e₁ s₁ =>
          rw [hx] at hbefore
          cases hbefore
        | ok u s₁ =>
          rw [hx] at hbefore
          exact ih.2 ⟨before, y, after, s₂, rfl, hbefore, hy⟩

end EStateM

namespace Except

variable {ε ε' α β γ δ σ σ' : Type}

/-! ### Members of a list -/

section MapM

variable {f : α → StateT σ (Except ε) β} {x : α} {s : σ}

theorem mapM_cons_of_ok {y : β} {t : σ} (xs : List α) (h : f x s = .ok (y, t)) :
    (x :: xs).mapM f s = xs.mapM f t >>= fun p => .ok (y :: p.1, p.2) := by
  rw [List.mapM_cons]
  show f x s >>= _ = _
  rw [h]
  rfl

theorem mapM_cons_of_error {e : ε} (xs : List α) (h : f x s = .error e) :
    (x :: xs).mapM f s = .error e := by
  rw [List.mapM_cons]
  show f x s >>= _ = _
  rw [h]
  rfl

end MapM

/-! ### Two ends -/

/-- **Two ends compared.** `R` relates values. Where only the first end is a value, `L` relates it
to the error that it was lost to. `E` relates errors. -/
inductive Related (R : α → β → Prop) (L : α → ε' → Prop) (E : ε → ε' → Prop) :
    Except ε α → Except ε' β → Prop
  | ok {r : α} {r' : β} (h : R r r') : Related R L E (.ok r) (.ok r')
  | lost {r : α} {e' : ε'} (h : L r e') : Related R L E (.ok r) (.error e')
  | error {e : ε} {e' : ε'} (h : E e e') : Related R L E (.error e) (.error e')

namespace Related

variable {R : α → β → Prop} {L : α → ε' → Prop} {E : ε → ε' → Prop} {S : γ → δ → Prop}
  {M : γ → ε' → Prop}

theorem imp {R' : α → β → Prop} {L' : α → ε' → Prop} {x : Except ε α} {x' : Except ε' β}
    (h : Related R L E x x') (hR : ∀ r r', R r r' → R' r r') (hL : ∀ r e', L r e' → L' r e') :
    Related R' L' E x x' := by
  cases h with
  | ok h => exact .ok (hR _ _ h)
  | lost h => exact .lost (hL _ _ h)
  | error h => exact .error h

/-- One computation after another, on both sides. After a loss there is only the first side. -/
theorem bind {x : Except ε α} {x' : Except ε' β} {f : α → Except ε γ} {f' : β → Except ε' δ}
    (h : Related R L E x x') (hf : ∀ r r', R r r' → Related S M E (f r) (f' r'))
    (hlost : ∀ r e', L r e' → Related S M E (f r) (.error e')) :
    Related S M E (x >>= f) (x' >>= f') := by
  cases h with
  | ok h => exact hf _ _ h
  | lost h => exact hlost _ _ h
  | error h => exact .error h

/-- The same for computations with a state. -/
theorem bindState {R : α × σ → β × σ' → Prop} {L : α × σ → ε' → Prop} {S : γ × σ → δ × σ' → Prop}
    {M : γ × σ → ε' → Prop} {m : StateT σ (Except ε) α} {m' : StateT σ' (Except ε') β}
    {f : α → StateT σ (Except ε) γ} {f' : β → StateT σ' (Except ε') δ} {s : σ} {s' : σ'}
    (h : Related R L E (m s) (m' s'))
    (hf : ∀ r t r' t', R (r, t) (r', t') → Related S M E (f r t) (f' r' t'))
    (hlost : ∀ r t e', L (r, t) e' → Related S M E (f r t) (.error e')) :
    Related S M E ((m >>= f) s) ((m' >>= f') s') :=
  h.bind (fun p p' hp => hf p.1 p.2 p'.1 p'.2 hp) fun p e' hp => hlost p.1 p.2 e' hp

/-- After a loss there is only the first side. -/
theorem bindState_of_lost {L : α × σ → ε' → Prop} {S : γ × σ → δ → Prop} {M : γ × σ → ε' → Prop}
    {m : StateT σ (Except ε) α} {f : α → StateT σ (Except ε) γ} {s : σ} {e' : ε'}
    (h : Related (fun _ (_ : β) => False) L E (m s) (.error e'))
    (hlost : ∀ r t e', L (r, t) e' → Related S M E (f r t) (.error e')) :
    Related S M E ((m >>= f) s) (.error e') := by
  have hend : Related S M E (m s >>= fun p => f p.1 p.2) (.error e' >>= fun _ : β => .error e') :=
    h.bind (fun _ _ h => h.elim) fun p e' hp => hlost p.1 p.2 e' hp
  exact hend

section MapM

/-! `J` relates the results for the members that have been gone through, with the states; `K` is
what is left of it after a loss. -/

variable {J : List α → List β × σ → List γ × σ' → Prop} {K : List α → List β × σ → ε' → Prop}
  {f : α → StateT σ (Except ε) β} {f' : α → StateT σ' (Except ε') γ} {xs : List α}

theorem mapM_of_lost
    (hlost : ∀ done, ∀ x ∈ xs, ∀ ys s e', K done (ys, s) e' →
      Related (fun _ (_ : γ × σ') => False) (fun q e' => K (done ++ [x]) (ys ++ [q.1], q.2) e') E
        (f x s) (.error e'))
    (done : List α) (ys : List β) (s : σ) (e' : ε') (h : K done (ys, s) e') :
    Related (fun _ (_ : List γ × σ') => False) (fun q e' => K (done ++ xs) (ys ++ q.1, q.2) e') E
      (xs.mapM f s) (.error e') := by
  induction xs generalizing done ys s e' with
  | nil =>
    rw [List.mapM_nil, List.append_nil]
    refine .lost ?_
    rwa [List.append_nil]
  | cons x xs ih =>
    have hrest := ih fun d z hz => hlost d z (List.mem_cons_of_mem _ hz)
    rw [List.mapM_cons]
    refine bindState_of_lost (hlost done x (List.mem_cons_self ..) ys s e' h) fun y t e' hy => ?_
    refine bindState_of_lost (hrest _ _ t e' hy) fun zs u e' hzs => .lost ?_
    rwa [List.append_assoc, List.append_assoc] at hzs

theorem mapM_append
    (hstep : ∀ done, ∀ x ∈ xs, ∀ ys s ys' s', J done (ys, s) (ys', s') →
      Related (fun q q' => J (done ++ [x]) (ys ++ [q.1], q.2) (ys' ++ [q'.1], q'.2))
        (fun q e' => K (done ++ [x]) (ys ++ [q.1], q.2) e') E (f x s) (f' x s'))
    (hlost : ∀ done, ∀ x ∈ xs, ∀ ys s e', K done (ys, s) e' →
      Related (fun _ (_ : γ × σ') => False) (fun q e' => K (done ++ [x]) (ys ++ [q.1], q.2) e') E
        (f x s) (.error e'))
    (done : List α) (ys : List β) (s : σ) (ys' : List γ) (s' : σ') (h : J done (ys, s) (ys', s')) :
    Related (fun q q' => J (done ++ xs) (ys ++ q.1, q.2) (ys' ++ q'.1, q'.2))
      (fun q e' => K (done ++ xs) (ys ++ q.1, q.2) e') E (xs.mapM f s) (xs.mapM f' s') := by
  induction xs generalizing done ys s ys' s' with
  | nil =>
    rw [List.mapM_nil, List.mapM_nil, List.append_nil]
    refine .ok ?_
    rwa [List.append_nil, List.append_nil]
  | cons x xs ih =>
    have hrest := ih (fun d z hz => hstep d z (List.mem_cons_of_mem _ hz))
      fun d z hz => hlost d z (List.mem_cons_of_mem _ hz)
    have hgone := mapM_of_lost fun d z hz => hlost d z (List.mem_cons_of_mem _ hz)
    rw [List.mapM_cons, List.mapM_cons]
    refine (hstep done x (List.mem_cons_self ..) ys s ys' s' h).bindState
      (fun y t y' t' hy => ?_) fun y t e' hy => ?_
    · refine (hrest _ _ t _ t' hy).bindState (fun zs u zs' u' hzs => .ok ?_)
        fun zs u e' hzs => .lost ?_
      · rwa [List.append_assoc, List.append_assoc, List.append_assoc] at hzs
      · rwa [List.append_assoc, List.append_assoc] at hzs
    · -- `x` was lost, and so is what follows
      refine bindState_of_lost (hgone _ _ t e' hy) fun zs u e' hzs => .lost ?_
      rwa [List.append_assoc, List.append_assoc] at hzs

/-- One computation for every member of a list, on both sides. -/
theorem mapM
    (hstep : ∀ done, ∀ x ∈ xs, ∀ ys s ys' s', J done (ys, s) (ys', s') →
      Related (fun q q' => J (done ++ [x]) (ys ++ [q.1], q.2) (ys' ++ [q'.1], q'.2))
        (fun q e' => K (done ++ [x]) (ys ++ [q.1], q.2) e') E (f x s) (f' x s'))
    (hlost : ∀ done, ∀ x ∈ xs, ∀ ys s e', K done (ys, s) e' →
      Related (fun _ (_ : γ × σ') => False) (fun q e' => K (done ++ [x]) (ys ++ [q.1], q.2) e') E
        (f x s) (.error e'))
    {s : σ} {s' : σ'} (h : J [] ([], s) ([], s')) :
    Related (J xs) (K xs) E (xs.mapM f s) (xs.mapM f' s') :=
  mapM_append hstep hlost [] [] s [] s' h

end MapM

end Related

/-! ### One end -/

/-- **What holds of an end**: `Q` of the value, or `F` of the error. -/
def Ensures (Q : α → Prop) (F : ε → Prop) : Except ε α → Prop
  | ok r => Q r
  | error e => F e

theorem ensures_iff_related {Q : α → Prop} {F : ε → Prop} {x : Except ε α} :
    Ensures Q F x ↔ Related (fun r r' => Q r ∧ r = r') (fun _ _ => False) (fun e _ => F e) x x := by
  constructor
  · intro h
    cases x with
    | ok r => exact .ok ⟨h, rfl⟩
    | error e => exact .error h
  · intro h
    cases h with
    | ok h => exact h.1
    | error h => exact h

namespace Ensures

variable {Q : α → Prop} {F : ε → Prop} {S : β → Prop}

theorem of_eq_ok {x : Except ε α} {r : α} (h : Ensures Q F x) (hx : x = .ok r) : Q r := by
  rw [hx] at h
  exact h

theorem imp {Q' : α → Prop} {x : Except ε α} (h : Ensures Q F x) (hQ : ∀ r, Q r → Q' r) :
    Ensures Q' F x := by
  cases x with
  | ok r => exact hQ r h
  | error e => exact h

theorem impError {F' : ε → Prop} {x : Except ε α} (h : Ensures Q F x) (hF : ∀ e, F e → F' e) :
    Ensures Q F' x := by
  cases x with
  | ok r => exact h
  | error e => exact hF e h

/-- One computation after another. -/
theorem bind {x : Except ε α} {f : α → Except ε β} (h : Ensures Q F x)
    (hf : ∀ r, Q r → Ensures S F (f r)) : Ensures S F (x >>= f) := by
  cases x with
  | ok r => exact hf r h
  | error e => exact h

/-- The same for computations with a state. -/
theorem bindState {Q : α × σ → Prop} {S : β × σ → Prop} {m : StateT σ (Except ε) α}
    {f : α → StateT σ (Except ε) β} {s : σ} (h : Ensures Q F (m s))
    (hf : ∀ r t, Q (r, t) → Ensures S F (f r t)) : Ensures S F ((m >>= f) s) :=
  h.bind fun p hp => hf p.1 p.2 hp

/-- One computation for every member of a list. -/
theorem mapM {J : List α → List β × σ → Prop} {f : α → StateT σ (Except ε) β} {xs : List α}
    (hstep : ∀ done, ∀ x ∈ xs, ∀ ys s, J done (ys, s) →
      Ensures (fun q => J (done ++ [x]) (ys ++ [q.1], q.2)) F (f x s))
    {s : σ} (h : J [] ([], s)) : Ensures (J xs) F (xs.mapM f s) := by
  refine ensures_iff_related.2 (Related.mapM (J := fun done p p' => J done p ∧ p = p')
    (K := fun _ _ _ => False) ?_ (fun _ _ _ _ _ _ h => h.elim) ⟨h, rfl⟩)
  rintro done x hx ys s ys' s' ⟨hp, heq⟩
  obtain ⟨rfl, rfl⟩ := Prod.mk.inj heq
  refine (ensures_iff_related.1 (hstep done x hx ys s hp)).imp (fun q q' hq => ?_) fun _ _ h => h
  obtain ⟨hq, rfl⟩ := hq
  exact ⟨hq, rfl⟩

end Ensures

/-! ### Ends that correspond -/

/-- **Ends that correspond**: values that `R` relates, or errors that `E` relates. -/
def Agrees (R : α → β → Prop) (E : ε → ε' → Prop) : Except ε α → Except ε' β → Prop :=
  Related R (fun _ _ => False) E

namespace Agrees

variable {R : α → β → Prop} {E : ε → ε' → Prop} {S : γ → δ → Prop} {x : Except ε α}
  {x' : Except ε' β}

theorem ok {r : α} {r' : β} (h : R r r') : Agrees R E (.ok r) (.ok r') :=
  Related.ok h

theorem error {e : ε} {e' : ε'} (h : E e e') : Agrees R E (.error e) (.error e') :=
  Related.error h

theorem cases (h : Agrees R E x x') : (∃ r r', x = .ok r ∧ x' = .ok r' ∧ R r r') ∨
    ∃ e e', x = .error e ∧ x' = .error e' ∧ E e e' := by
  unfold Agrees at h
  cases h with
  | ok h => exact .inl ⟨_, _, rfl, rfl, h⟩
  | lost h => exact h.elim
  | error h => exact .inr ⟨_, _, rfl, rfl, h⟩

theorem of_ok {r : α} (h : Agrees R E (.ok r) x') : ∃ r', x' = .ok r' ∧ R r r' := by
  unfold Agrees at h
  cases h with
  | ok h => exact ⟨_, rfl, h⟩
  | lost h => exact h.elim

theorem of_error {e : ε} (h : Agrees R E (.error e) x') : ∃ e', x' = .error e' ∧ E e e' := by
  unfold Agrees at h
  cases h with
  | error h => exact ⟨_, rfl, h⟩

theorem imp {R' : α → β → Prop} (h : Agrees R E x x') (hR : ∀ r r', R r r' → R' r r') :
    Agrees R' E x x' :=
  Related.imp h hR fun _ _ h => h

/-- One computation after another. -/
theorem bind {f : α → Except ε γ} {f' : β → Except ε' δ} (h : Agrees R E x x')
    (hf : ∀ r r', R r r' → Agrees S E (f r) (f' r')) : Agrees S E (x >>= f) (x' >>= f') :=
  Related.bind h hf fun _ _ h => h.elim

/-- The same where only the second side goes on. -/
theorem bindRight {S : α → δ → Prop} {f' : β → Except ε' δ} (h : Agrees R E x x')
    (hf : ∀ r r', R r r' → Agrees S E (.ok r : Except ε α) (f' r')) :
    Agrees S E x (x' >>= f') := by
  rcases h.cases with ⟨r, r', rfl, rfl, hr⟩ | ⟨e, e', rfl, rfl, he⟩
  · exact hf r r' hr
  · exact .error he

/-- The same for computations with a state. -/
theorem bindState {R : α × σ → β × σ' → Prop} {S : γ × σ → δ × σ' → Prop}
    {m : StateT σ (Except ε) α} {m' : StateT σ' (Except ε') β} {f : α → StateT σ (Except ε) γ}
    {f' : β → StateT σ' (Except ε') δ} {s : σ} {s' : σ'} (h : Agrees R E (m s) (m' s'))
    (hf : ∀ r t r' t', R (r, t) (r', t') → Agrees S E (f r t) (f' r' t')) :
    Agrees S E ((m >>= f) s) ((m' >>= f') s') :=
  Related.bindState h hf fun _ _ _ h => h.elim

/-- One computation for every member of a list. -/
theorem mapM {J : List α → List β × σ → List γ × σ' → Prop} {f : α → StateT σ (Except ε) β}
    {f' : α → StateT σ' (Except ε') γ} {xs : List α}
    (hstep : ∀ done, ∀ x ∈ xs, ∀ ys s ys' s', J done (ys, s) (ys', s') →
      Agrees (fun q q' => J (done ++ [x]) (ys ++ [q.1], q.2) (ys' ++ [q'.1], q'.2)) E (f x s)
        (f' x s'))
    {s : σ} {s' : σ'} (h : J [] ([], s) ([], s')) :
    Agrees (J xs) E (xs.mapM f s) (xs.mapM f' s') :=
  Related.mapM (K := fun _ _ _ => False) hstep (fun _ _ _ _ _ _ h => h.elim) h

/-- Ends that are equal throughout. -/
theorem eq {x' : Except ε α} (h : Agrees (fun r r' => r' = r) (fun e e' => e' = e) x x') :
    x' = x := by
  rcases h.cases with ⟨r, _, rfl, rfl, rfl⟩ | ⟨e, _, rfl, rfl, rfl⟩
  · rfl
  · rfl

end Agrees

/-! ### B values -/

/-- **A computation, and one that does the same but stops where a value is bad**, which `B` says. It
stops with one of the errors that `Stops` holds of. It may stop where the first one ends with an
error, too, for that may have had a bad value before. -/
def Stricter (B : α → Prop) (Stops : ε → Prop) : Except ε α → Except ε α → Prop :=
  Related (fun r r' => r' = r ∧ ¬ B r) (fun r e' => B r ∧ Stops e')
    (fun e e' => e' = e ∨ Stops e')

namespace Stricter

variable {B : α → Prop} {C : β → Prop} {Stops : ε → Prop} {x x' : Except ε α} {r : α} {e : ε}

theorem ok (h : ¬ B r) : Stricter B Stops (.ok r) (.ok r) :=
  Related.ok ⟨rfl, h⟩

theorem stopped (h : B r) (he : Stops e) : Stricter B Stops (.ok r) (.error e) :=
  Related.lost ⟨h, he⟩

theorem error (e : ε) : Stricter B Stops (.error e) (.error e) :=
  Related.error (.inl rfl)

theorem of_ok (h : Stricter B Stops (.ok r) x') :
    (¬ B r → x' = .ok r) ∧ (B r → ∃ e, Stops e ∧ x' = .error e) := by
  unfold Stricter at h
  cases h with
  | ok h =>
    obtain ⟨rfl, hr⟩ := h
    exact ⟨fun _ => rfl, fun h => absurd h hr⟩
  | lost h => exact ⟨fun hr => absurd h.1 hr, fun _ => ⟨_, h.2, rfl⟩⟩

theorem of_error (h : Stricter B Stops (.error e) x') :
    x' = .error e ∨ ∃ e', Stops e' ∧ x' = .error e' := by
  unfold Stricter at h
  cases h with
  | error h =>
    rcases h with rfl | he
    · exact .inl rfl
    · exact .inr ⟨_, he, rfl⟩

theorem ok_iff (h : Stricter B Stops x x') (r : α) : x' = .ok r ↔ x = .ok r ∧ ¬ B r := by
  constructor
  · rintro rfl
    unfold Stricter at h
    cases h with
    | ok h =>
      obtain ⟨rfl, hr⟩ := h
      exact ⟨rfl, hr⟩
  · rintro ⟨rfl, hr⟩
    exact h.of_ok.1 hr

/-- A computation that never has a bad value is as strict as itself. -/
theorem refl (h : ∀ r, x = .ok r → ¬ B r) : Stricter B Stops x x := by
  cases x with
  | ok r => exact .ok (h r rfl)
  | error e => exact .error e

/-- What is bad matters only for the value that there is. -/
theorem congr {B₁ : α → Prop} (h : Stricter B Stops x x')
    (hbad : ∀ r, x = .ok r → (B₁ r ↔ B r)) : Stricter B₁ Stops x x' := by
  unfold Stricter at h
  cases h with
  | ok h =>
    obtain ⟨rfl, hr⟩ := h
    exact .ok (mt (hbad _ rfl).1 hr)
  | lost h => exact .stopped ((hbad _ rfl).2 h.1) h.2
  | error h => exact Related.error h

/-- After a bad value the stricter side has stopped. -/
theorem lost {S : β → γ → Prop} {y : Except ε β} (he : Stops e) (h : ∀ r, y = .ok r → C r) :
    Related S (fun r e' => C r ∧ Stops e') (fun e e' => e' = e ∨ Stops e') y
      (.error e : Except ε γ) := by
  cases y with
  | ok r => exact Related.lost ⟨h r rfl, he⟩
  | error e' => exact Related.error (.inr he)

/-- One computation after another, where a bad value makes what follows bad. -/
theorem bind {f f' : α → Except ε β} (h : Stricter B Stops x x')
    (hf : ∀ r, ¬ B r → Stricter C Stops (f r) (f' r))
    (hbad : ∀ r r', B r → f r = .ok r' → C r') : Stricter C Stops (x >>= f) (x' >>= f') := by
  refine Related.bind h ?_ fun r e he => lost he.2 fun r' => hbad r r' he.1
  rintro _ r ⟨rfl, hr⟩
  exact hf r hr

/-- What follows is the same on both sides, and bad if what came before was. -/
theorem bindSame {f : α → Except ε β} (h : Stricter B Stops x x')
    (hf : ∀ r, Ensures (fun r' => C r' ↔ B r) (fun _ => True) (f r)) :
    Stricter C Stops (x >>= f) (x' >>= f) :=
  h.bind (fun r hr => refl fun _ hr' => mt ((hf r).of_eq_ok hr').1 hr)
    fun r _ hr hr' => ((hf r).of_eq_ok hr').2 hr

/-- The same for computations with a state. -/
theorem bindState {B : α × σ → Prop} {C : β × σ → Prop} {m m' : StateT σ (Except ε) α}
    {f f' : α → StateT σ (Except ε) β} {s : σ} (h : Stricter B Stops (m s) (m' s))
    (hf : ∀ r t, ¬ B (r, t) → Stricter C Stops (f r t) (f' r t))
    (hbad : ∀ r t p, B (r, t) → f r t = .ok p → C p) :
    Stricter C Stops ((m >>= f) s) ((m' >>= f') s) :=
  h.bind (fun p hp => hf p.1 p.2 hp) fun p p' hp h => hbad p.1 p.2 p' hp h

theorem bindStateSame {B : α × σ → Prop} {C : β × σ → Prop} {m m' : StateT σ (Except ε) α}
    {f : α → StateT σ (Except ε) β} {s : σ} (h : Stricter B Stops (m s) (m' s))
    (hf : ∀ r t, Ensures (fun p => C p ↔ B (r, t)) (fun _ => True) (f r t)) :
    Stricter C Stops ((m >>= f) s) ((m' >>= f) s) :=
  h.bindSame fun p => hf p.1 p.2

/-- One computation for every member of a list, where bad values stay bad when others follow. -/
theorem mapM {B : List β × σ → Prop} {f f' : α → StateT σ (Except ε) β} {xs : List α}
    (hstep : ∀ x ∈ xs, ∀ ys s, ¬ B (ys, s) →
      Stricter (fun q => B (ys ++ [q.1], q.2)) Stops (f x s) (f' x s))
    (hbad : ∀ x ∈ xs, ∀ ys s q, B (ys, s) → f x s = .ok q → B (ys ++ [q.1], q.2))
    {s : σ} (h : ¬ B ([], s)) : Stricter B Stops (xs.mapM f s) (xs.mapM f' s) := by
  refine Related.mapM (J := fun _ p p' => p' = p ∧ ¬ B p) (K := fun _ p e' => B p ∧ Stops e')
    ?_ (fun _ x hx ys s e he => lost he.2 fun q => hbad x hx ys s q he.1) ⟨rfl, h⟩
  rintro _ x hx ys s ys' s' ⟨heq, hp⟩
  obtain ⟨rfl, rfl⟩ := Prod.mk.inj heq
  refine Related.imp (hstep x hx _ _ hp) (fun q q' hq => ?_) fun _ _ h => h
  obtain ⟨rfl, hq⟩ := hq
  exact ⟨rfl, hq⟩

/-- The same where a list is bad if one of its members is. -/
theorem mapM_exists {f f' : α → StateT σ (Except ε) β} {xs : List α}
    (h : ∀ x ∈ xs, ∀ s, Stricter (fun q => C q.1) Stops (f x s) (f' x s)) {s : σ} :
    Stricter (fun p => ∃ y ∈ p.1, C y) Stops (xs.mapM f s) (xs.mapM f' s) := by
  refine mapM (fun x hx ys t hys => (h x hx t).congr fun q _ => ?_) (fun x hx ys t q hys _ => ?_)
    fun ⟨y, hy, _⟩ => absurd hy List.not_mem_nil
  · constructor
    · -- nothing wanted is among the earlier results, so it is the one just added
      rintro ⟨y, hy, hbad⟩
      rcases List.mem_append.1 hy with hy | hy
      · exact absurd ⟨y, hy, hbad⟩ hys
      · exact List.mem_singleton.1 hy ▸ hbad
    · exact fun hbad => ⟨q.1, List.mem_append_right _ (List.mem_singleton_self _), hbad⟩
  · obtain ⟨y, hy, hbad⟩ := hys
    exact ⟨y, List.mem_append_left _ hy, hbad⟩

end Stricter

end Except
