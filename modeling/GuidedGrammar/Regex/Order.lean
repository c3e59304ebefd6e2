import Std.Data.TreeMap
import GuidedGrammar.Regex.Basic

/-!
# An order on table entries

Entries of a regex table are looked up by their structure. To keep them in a search tree, each is
given a key: a list of numbers that starts with the kind of the regex and goes on with what it
holds. Entries are ordered as their keys are, and equal keys belong to equal entries
(`key_injective`), so the order tells any two entries apart.
-/

namespace GuidedGrammar.Regex

/-- The numbers of the characters of a text. -/
def charNumbers (text : String) : List Nat :=
  text.toList.map Char.toNat

theorem charNumbers_injective {s t : String} (h : charNumbers s = charNumbers t) : s = t :=
  String.toList_injective ((List.map_inj_right fun _ _ h => Char.toNat_inj.1 h).1 h)

/-- The numbers of bytes. -/
def byteNumbers (bytes : List UInt8) : List Nat :=
  bytes.map UInt8.toNat

theorem byteNumbers_injective {xs ys : List UInt8} (h : byteNumbers xs = byteNumbers ys) :
    xs = ys :=
  (List.map_inj_right fun _ _ h => UInt8.toNat_inj.1 h).1 h

/-- The numbers of words. -/
def wordNumbers (words : List UInt32) : List Nat :=
  words.map UInt32.toNat

theorem wordNumbers_injective {xs ys : List UInt32} (h : wordNumbers xs = wordNumbers ys) :
    xs = ys :=
  (List.map_inj_right fun _ _ h => UInt32.toNat_inj.1 h).1 h

/-- **The key of an entry.** -/
def key : Regex Nat → List Nat
  | literal text => 0 :: charNumbers text
  | byteLiteral bytes => 1 :: byteNumbers bytes
  | byte b => [2, b.toNat]
  | byteSet words => 3 :: wordNumbers words
  | pattern source => 4 :: charNumbers source
  | union ps => 5 :: ps
  | intersection ps => 6 :: ps
  | concatenation ps => 7 :: ps
  | complement p => [8, p]
  | lookahead p => [9, p]
  | repetition p min max => 10 :: p :: min.toNat :: wordNumbers max.toList
  | emptyText => [11]
  | nothing => [12]

/-- **Equal keys belong to equal entries.** -/
theorem key_injective {r s : Regex Nat} (h : r.key = s.key) : r = s := by
  cases r <;> cases s <;> try (simp [key] at h; done)
  case literal.literal => exact congrArg literal (charNumbers_injective (List.cons.inj h).2)
  case byteLiteral.byteLiteral =>
    exact congrArg byteLiteral (byteNumbers_injective (List.cons.inj h).2)
  case byteSet.byteSet => exact congrArg byteSet (wordNumbers_injective (List.cons.inj h).2)
  case pattern.pattern => exact congrArg pattern (charNumbers_injective (List.cons.inj h).2)
  case repetition.repetition p min max q min' max' =>
    obtain ⟨hp, hmin, hmax⟩ :
        p = q ∧ min.toNat = min'.toNat ∧ wordNumbers max.toList = wordNumbers max'.toList := by
      simpa only [key, List.cons.injEq, true_and] using h
    have hmax : max = max' := by
      simpa only [Option.head?_toList] using congrArg List.head? (wordNumbers_injective hmax)
    rw [hp, UInt32.toNat_inj.1 hmin, hmax]
  all_goals simp_all [key, UInt8.toNat_inj]

instance : Ord (Regex Nat) where
  compare := compareOn key

instance : Std.TransOrd (Regex Nat) :=
  inferInstanceAs (Std.TransCmp (compareOn key))

instance : Std.LawfulEqOrd (Regex Nat) where
  eq_of_compare h := key_injective (Std.LawfulEqOrd.eq_of_compare h)

end GuidedGrammar.Regex
