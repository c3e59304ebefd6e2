import GuidedGrammar.Artifact.Json
import GuidedGrammar.Proofs.Binary.Range
import GuidedGrammar.Proofs.Json.Value

/-!
# Typed reading of what is written

What the written forms of single values, lists and records are read as. A record is written as the
members of its fields that have a value (`Json.present`), and if no two fields have one name, each
field is read back with its value or without (`Json.objectFields?_present`).
-/

namespace GuidedGrammar

namespace Json

/-! ### Single values -/

theorem toNatBelow?_ofNat {n bound : Nat} (h : n < bound) :
    (ofNat n).toNatBelow? bound = some n := by
  have htoNat : (Numeral.ofNat n).toNat? = some n := rfl
  rw [ofNat, toNatBelow?, htoNat]
  simp [h]

@[simp]
theorem toUInt32?_ofUInt32 (n : UInt32) : (ofUInt32 n).toUInt32? = some n := by
  rw [ofUInt32, toUInt32?, toNatBelow?_ofNat n.toNat_lt, Option.map_some]
  simp

@[simp]
theorem toUInt8?_ofUInt8 (n : UInt8) : (ofUInt8 n).toUInt8? = some n := by
  rw [ofUInt8, toUInt8?, toNatBelow?_ofNat n.toNat_lt, Option.map_some]
  simp

@[simp]
theorem toString?_ofString (s : String) : (ofString s).toString? = some s :=
  rfl

@[simp]
theorem toBool?_bool (b : Bool) : (Json.bool b).toBool? = some b :=
  rfl

/-- A list is read back if its items are. -/
theorem toList?_ofList {α : Type} {write : α → Json} {read : Json → Option α} {xs : List α}
    (h : ∀ x ∈ xs, read (write x) = some x) : toList? read (ofList write xs) = some xs := by
  have hitems : (xs.map write).mapM read = some (xs.map id) := mapM_map_eq_some h
  rwa [List.map_id] at hitems

@[simp]
theorem toList?_ofUInt32 (ns : List UInt32) : toList? toUInt32? (ofList ofUInt32 ns) = some ns :=
  toList?_ofList fun n _ => toUInt32?_ofUInt32 n

@[simp]
theorem toList?_ofUInt8 (ns : List UInt8) : toList? toUInt8? (ofList ofUInt8 ns) = some ns :=
  toList?_ofList fun n _ => toUInt8?_ofUInt8 n

/-- A value that may be missing is read back, since null is not the written form of one. -/
theorem optional_map {α : Type} {write : α → Json} {read : Json → Option α} {x : Option α}
    (h : ∀ a ∈ x, read (write a) = some a) (hnull : read .null = none) :
    optional read (x.map write) = some x := by
  cases x with
  | none => rfl
  | some a =>
    have ha : read (write a) = some a := h a rfl
    rw [Option.map_some]
    unfold optional
    split
    · next heq => cases heq
    · next heq =>
      rw [Option.some.inj heq, hnull] at ha
      cases ha
    · next heq => rw [← Option.some.inj heq, ha, Option.map_some]

@[simp]
theorem optional_map_bool (x : Option Bool) : optional toBool? (x.map .bool) = some x :=
  optional_map (fun b _ => toBool?_bool b) rfl

@[simp]
theorem optional_map_ofString (x : Option String) : optional toString? (x.map ofString) = some x :=
  optional_map (fun s _ => toString?_ofString s) rfl

@[simp]
theorem optional_map_ofUInt32 (x : Option UInt32) : optional toUInt32? (x.map ofUInt32) = some x :=
  optional_map (fun n _ => toUInt32?_ofUInt32 n) rfl

/-- The same for a value that is written as null if it is missing. -/
theorem optional_elim_null {α : Type} {write : α → Json} {read : Json → Option α} {x : Option α}
    (h : ∀ a ∈ x, read (write a) = some a) (hnull : read .null = none) :
    optional read (some (x.elim .null write)) = some x := by
  cases x with
  | none => rfl
  | some a => exact optional_map h hnull

/-! ### Members -/

theorem ofMembers_eq (members : List (String × Json)) :
    ofMembers members = .object (members.map fun m => (some m.1, m.2)) :=
  rfl

@[simp]
theorem variant?_ofVariant (name : String) (payload : Json) :
    (ofVariant name payload).variant? = some (name, payload) :=
  rfl

section Member

variable {m : JsonText × Json} {members : List (JsonText × Json)} {name : String}

theorem member?_cons_of_ne (h : m.1 ≠ some name) :
    member? (m :: members) name = member? members name := by
  simp [member?, h]

theorem member?_cons_self (v : Json) (h : member? members name = some none) :
    member? ((some name, v) :: members) name = some (some v) := by
  have hnone : members.filter (fun m => m.1 == some name) = [] := by
    unfold member? at h
    split at h
    · assumption
    · cases h
    · cases h
  simp [member?, hnone]

end Member

/-- **The members of the fields that have a value.** -/
def present (fields : List (String × Option Json)) : List (String × Json) :=
  fields.filterMap fun f => f.2.map fun v => (f.1, v)

section Present

variable {fields : List (String × Option Json)} {name : String}

@[simp]
theorem present_nil : present [] = [] :=
  rfl

@[simp]
theorem present_cons_none : present ((name, none) :: fields) = present fields :=
  rfl

@[simp]
theorem present_cons_some (v : Json) :
    present ((name, some v) :: fields) = (name, v) :: present fields :=
  rfl

@[simp]
theorem present_cons_map {α : Type} (write : α → Json) (x : Option α) :
    present ((name, x.map write) :: fields) = optionalMember name write x ++ present fields := by
  cases x <;> rfl

theorem present_append (fields fields' : List (String × Option Json)) :
    present (fields ++ fields') = present fields ++ present fields' :=
  List.filterMap_append

theorem member?_present_of_not_mem (h : name ∉ fields.map Prod.fst) :
    member? ((present fields).map fun m => (some m.1, m.2)) name = some none := by
  induction fields with
  | nil => rfl
  | cons f fields ih =>
    obtain ⟨other, value⟩ := f
    rw [List.map_cons, List.mem_cons, not_or] at h
    cases value with
    | none => exact ih h.2
    | some v =>
      have hne : some other ≠ some name := fun heq => h.1 (Option.some.inj heq).symm
      rw [present_cons_some, List.map_cons, member?_cons_of_ne hne]
      exact ih h.2

/-- A field is found with its value, or not if it has none. -/
theorem member?_present (h : (fields.map Prod.fst).Nodup) {f : String × Option Json}
    (hf : f ∈ fields) :
    member? ((present fields).map fun m => (some m.1, m.2)) f.1 = some f.2 := by
  induction fields with
  | nil => exact nomatch hf
  | cons g fields ih =>
    rw [List.map_cons, List.nodup_cons] at h
    rcases List.mem_cons.1 hf with rfl | htail
    · obtain ⟨name, value⟩ := f
      -- no later member has this name, so a member left out is found nowhere
      have hrest := member?_present_of_not_mem h.1
      cases value with
      | none => exact hrest
      | some v => exact member?_cons_self v hrest
    · obtain ⟨other, value⟩ := g
      cases value with
      | none => exact ih h.2 htail
      | some v =>
        have hmem : f.1 ∈ fields.map Prod.fst := List.mem_map_of_mem htail
        have hne : some other ≠ some f.1 := fun heq => h.1 (Option.some.inj heq ▸ hmem)
        rw [present_cons_some, List.map_cons, member?_cons_of_ne hne]
        exact ih h.2 htail

/-- **The fields of a written object are read back**, all of them or some. -/
theorem objectFields?_present {read : List (String × Option Json)}
    (h : (fields.map Prod.fst).Nodup) (hread : ∀ f ∈ read, f ∈ fields) :
    (ofMembers (present fields)).objectFields? (read.map Prod.fst) =
      some (read.map Prod.snd) := by
  have hnamed : (ofMembers (present fields)).hasNamedMembers = true := by
    simp [ofMembers_eq, hasNamedMembers]
  have hmembers : (read.map Prod.fst).mapM
      (member? ((present fields).map fun m => (some m.1, m.2))) = some (read.map Prod.snd) :=
    mapM_map_eq_some fun f hf => member?_present h (hread f hf)
  rw [ofMembers_eq] at hnamed ⊢
  simp only [objectFields?, hnamed, if_true, hmembers]

theorem recordFields?_present (h : (fields.map Prod.fst).Nodup) :
    (ofMembers (present fields)).recordFields? (fields.map Prod.fst) =
      some (fields.map Prod.snd) :=
  objectFields?_present h fun _ hf => hf

end Present

/-! ### Values that can be set aside -/

/-- What can be set aside can be written. -/
theorem printable_of_isStorable {depth : Nat} {v : Json} (h : isStorable depth v = true) :
    v.Printable := by
  induction v using tokens.induct generalizing depth with
  | case1 => exact .null
  | case2 b => exact .bool b
  | case3 x => exact .number x
  | case4 s =>
    rw [isStorable] at h
    obtain ⟨s, rfl⟩ := Option.isSome_iff_exists.1 h
    exact .text s
  | case5 items ih =>
    cases depth with
    | zero => cases h
    | succ depth => exact .array fun v hv => ih v hv (List.all_eq_true.1 h v hv)
  | case6 members ih =>
    cases depth with
    | zero => cases h
    | succ depth =>
      have hmember : ∀ m ∈ members, m.1.isSome = true ∧ isStorable depth m.2 = true :=
        fun m hm => (Bool.and_eq_true _ _).mp (List.all_eq_true.1 h m hm)
      exact .object (fun m hm => (hmember m hm).1) fun m hm => ih m hm (hmember m hm).2

section Storable

variable (depth : Nat)

@[simp]
theorem isStorable_bool (b : Bool) : isStorable depth (.bool b) = true := by
  cases depth <;> rfl

@[simp]
theorem isStorable_ofString (s : String) : isStorable depth (ofString s) = true := by
  cases depth <;> rfl

theorem isStorable_number {x : Numeral} (h : x.toBinary64?.isSome = true) :
    isStorable depth (.number x) = true := by
  cases depth <;> exact h

theorem isStorable_ofNat {n : Nat} (h : n < Numeral.wordLimit) :
    isStorable depth (ofNat n) = true :=
  isStorable_number depth (Numeral.isSome_toBinary64? (decide_eq_true h))

@[simp]
theorem isStorable_ofUInt32 (n : UInt32) : isStorable depth (ofUInt32 n) = true :=
  isStorable_ofNat depth (Nat.lt_trans n.toNat_lt (by decide))

@[simp]
theorem isStorable_ofUInt8 (n : UInt8) : isStorable depth (ofUInt8 n) = true :=
  isStorable_ofNat depth (Nat.lt_trans n.toNat_lt (by decide))

variable {depth}

theorem isStorable_ofList {α : Type} {write : α → Json} {xs : List α}
    (h : ∀ x ∈ xs, isStorable depth (write x) = true) :
    isStorable (depth + 1) (ofList write xs) = true := by
  simpa [ofList, isStorable] using h

@[simp]
theorem isStorable_ofUInt32s (ns : List UInt32) :
    isStorable (depth + 1) (ofList ofUInt32 ns) = true :=
  isStorable_ofList fun n _ => isStorable_ofUInt32 depth n

@[simp]
theorem isStorable_ofUInt8s (ns : List UInt8) :
    isStorable (depth + 1) (ofList ofUInt8 ns) = true :=
  isStorable_ofList fun n _ => isStorable_ofUInt8 depth n

/-- The values of the fields can be set aside. -/
def StorableFields (depth : Nat) (fields : List (String × Option Json)) : Prop :=
  ∀ f ∈ fields, ∀ v ∈ f.2, isStorable depth v = true

@[simp]
theorem storableFields_nil : StorableFields depth [] := by
  simp [StorableFields]

@[simp]
theorem storableFields_cons_none {name : String} {fields : List (String × Option Json)} :
    StorableFields depth ((name, none) :: fields) ↔ StorableFields depth fields := by
  simp [StorableFields]

@[simp]
theorem storableFields_cons_some {name : String} {v : Json} {fields : List (String × Option Json)} :
    StorableFields depth ((name, some v) :: fields) ↔
      isStorable depth v = true ∧ StorableFields depth fields := by
  simp [StorableFields]

@[simp]
theorem storableFields_cons_map {α : Type} {name : String} {write : α → Json} {x : Option α}
    {fields : List (String × Option Json)} :
    StorableFields depth ((name, x.map write) :: fields) ↔
      (∀ a ∈ x, isStorable depth (write a) = true) ∧ StorableFields depth fields := by
  cases x <;> simp [StorableFields]

theorem StorableFields.append {fields fields' : List (String × Option Json)}
    (h : StorableFields depth fields) (h' : StorableFields depth fields') :
    StorableFields depth (fields ++ fields') :=
  fun f hf => (List.mem_append.1 hf).elim (h f) (h' f)

theorem isStorable_present {fields : List (String × Option Json)}
    (h : StorableFields depth fields) :
    isStorable (depth + 1) (ofMembers (present fields)) = true := by
  have hmembers : ∀ m ∈ present fields, isStorable depth m.2 = true := by
    intro m hm
    obtain ⟨f, hf, hvalue⟩ := List.mem_filterMap.1 hm
    obtain ⟨v, hv, rfl⟩ := Option.map_eq_some_iff.1 hvalue
    exact h f hf v hv
  simpa [ofMembers_eq, isStorable] using hmembers

theorem isStorable_ofVariant (name : String) {payload : Json}
    (h : isStorable depth payload = true) :
    isStorable (depth + 1) (ofVariant name payload) = true := by
  simpa [ofVariant, ofMembers_eq, isStorable] using h

end Storable

end Json

end GuidedGrammar
