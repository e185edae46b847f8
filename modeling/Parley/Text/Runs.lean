/-! # Runs of code points

A class of characters that no short rule describes is a list of runs, first and last code point of
each, in ascending order. -/

namespace Parley

/-- The character lies in one of the runs. -/
def isInRuns (runs : List (Nat × Nat)) (c : Char) : Bool :=
  runs.any fun (first, last) => first ≤ c.toNat && c.toNat ≤ last

theorem isInRuns_iff {runs : List (Nat × Nat)} {c : Char} :
    isInRuns runs c = true ↔ ∃ run ∈ runs, run.1 ≤ c.toNat ∧ c.toNat ≤ run.2 := by
  simp [isInRuns]

end Parley
