import GuidedGrammar.Binary.Reading
import GuidedGrammar.Json.Basic

/-!
# Typed reading of JSON values

Functions that read a JSON value as a value of a type, or refuse it. Integers are read from
numerals without point and exponent, floating-point numbers from any numeral. A record with named
fields is read from an object, where unknown members are ignored and a known one may stand only
once, or from the array of its fields in order, where fields at the end may be missing. What a
missing field means is for the field to say: it is required, optional or has a default.

A value that is set aside before its type is known must be *storable*: its texts are strings, its
numbers are finite, and it nests no deeper than a bound.
-/

namespace GuidedGrammar.Json

/-! ### Single values -/

def toBool? : Json → Option Bool
  | .bool b => some b
  | _ => none

def toString? : Json → Option String
  | .text s => s
  | _ => none

/-- The natural number below `bound` that the value shows. -/
def toNatBelow? (bound : Nat) : Json → Option Nat
  | .number x => x.toNat?.filter (· < bound)
  | _ => none

def toUInt8? (v : Json) : Option UInt8 :=
  (v.toNatBelow? UInt8.size).map Nat.toUInt8

def toUInt32? (v : Json) : Option UInt32 :=
  (v.toNatBelow? UInt32.size).map Nat.toUInt32

def toUInt64? (v : Json) : Option UInt64 :=
  (v.toNatBelow? UInt64.size).map Nat.toUInt64

def toBinary32? : Json → Option Binary32
  | .number x => x.toBinary32?
  | _ => none

def toBinary64? : Json → Option Binary64
  | .number x => x.toBinary64?
  | _ => none

/-- The items of an array, each read by `item`. -/
def toList? {α : Type} (item : Json → Option α) : Json → Option (List α)
  | .array items => items.mapM item
  | _ => none

/-! ### Records -/

/-- The value of the member called `name`, if there is one; nothing if there are several. -/
def member? (members : List (JsonText × Json)) (name : String) : Option (Option Json) :=
  match members.filter fun m => m.1 == some name with
  | [] => some none
  | [m] => some (some m.2)
  | _ => none

/-- Whether a value is an object whose members have strings as names. -/
def hasNamedMembers : Json → Bool
  | .object members => members.all (·.1.isSome)
  | _ => false

/-- **The named fields of an object**, in the order of the names. The members must have strings as
names, and no known member may be repeated. -/
def objectFields? (names : List String) (v : Json) : Option (List (Option Json)) :=
  match v with
  | .object members => if v.hasNamedMembers then names.mapM (member? members) else none
  | _ => none

/-- **The named fields of a record**, given as an object or as the array of its fields. -/
def recordFields? (names : List String) (v : Json) : Option (List (Option Json)) :=
  match v with
  | .array items =>
    if items.length ≤ names.length then
      some (items.map some ++ List.replicate (names.length - items.length) none)
    else none
  | v => v.objectFields? names

/-- A field that has to be there. -/
def required {α : Type} (read : Json → Option α) : Option Json → Option α
  | none => none
  | some v => read v

/-- A field that may be missing or null. -/
def optional {α : Type} (read : Json → Option α) : Option Json → Option (Option α)
  | none => some none
  | some .null => some none
  | some v => (read v).map some

/-- A field that may be missing, with the value it then has. -/
def defaulted {α : Type} (default : α) (read : Json → Option α) : Option Json → Option α
  | none => some default
  | some v => read v

/-- The one member of an object that has exactly one, as a name and a value. -/
def variant? : Json → Option (String × Json)
  | .object [(some name, v)] => some (name, v)
  | _ => none

/-! ### Setting values aside -/

/-- **Whether a value can be set aside** with at most `depth` containers inside one another. -/
def isStorable : Nat → Json → Bool
  | _, .null => true
  | _, .bool _ => true
  | _, .number x => x.toBinary64?.isSome
  | _, .text s => s.isSome
  | 0, .array _ => false
  | 0, .object _ => false
  | depth + 1, .array items => items.all (isStorable depth)
  | depth + 1, .object members => members.all fun m => m.1.isSome && isStorable depth m.2

end GuidedGrammar.Json
