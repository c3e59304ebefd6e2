/-!
# Powers of two and of ten

The powers that binary and decimal positions stand for, as natural numbers.
-/

namespace GuidedGrammar

/-- Two to the power of `k`. -/
def twoTo (k : Nat) : Nat :=
  Nat.pow 2 k

/-- Ten to the power of `k`. -/
def tenTo (k : Nat) : Nat :=
  Nat.pow 10 k

end GuidedGrammar
