import Std.Data.HashMap

/-!
Chains of references: where one arrives that follows a map from keys to keys.
-/

namespace Unravel.Chain

variable {κ : Type} [DecidableEq κ] [Hashable κ]

/-- Follows a map for at most `limit` steps. A key that was visited before ends the way. -/
def follow (next : Std.HashMap κ κ) : Nat → List κ → κ → κ
  | 0, _, current => current
  | limit + 1, visited, current =>
    match next[current]? with
    | none => current
    | some target =>
      if current ∈ visited then current else follow next limit (current :: visited) target

/-- The end of the chain that starts at a key: the first that has no successor, or the first
that the chain visits twice. Every step but the last visits a new key of the map, so a step for
each key and one more are enough. -/
def last (next : Std.HashMap κ κ) (start : κ) : κ := follow next (next.size + 1) [] start

theorem last_eq_self {next : Std.HashMap κ κ} {start : κ} (h : next[start]? = none) :
    last next start = start := by
  simp [last, follow, h]

end Unravel.Chain
