/-!
# Settings

The limit on nested calls, and how often garbage is collected.
-/

namespace Lox

/-- Settings of an interpreter. -/
structure Settings where
  /-- How many calls may be in progress at once. -/
  maxCallDepth : Nat := 1024
  /-- How many allocations at least lie between two collections. -/
  gcThreshold : Nat := 1024
  /-- How many allocations lie between two collections for each object that survives the first. -/
  gcGrowthFactor : Nat := 2
  gcThreshold_pos : 0 < gcThreshold := by decide
  gcGrowthFactor_pos : 0 < gcGrowthFactor := by decide

namespace Settings

/-- Change the limit on nested calls. -/
def withMaxCallDepth (s : Settings) (n : Nat) : Settings := { s with maxCallDepth := n }

/-- Change the least number of allocations between two collections, which is one at least. -/
def withGcThreshold (s : Settings) (n : Nat) : Settings :=
  { s with gcThreshold := max n 1, gcThreshold_pos := by omega }

/-- Change the number of allocations for each survivor, which is one at least. -/
def withGcGrowthFactor (s : Settings) (n : Nat) : Settings :=
  { s with gcGrowthFactor := max n 1, gcGrowthFactor_pos := by omega }

end Settings

end Lox
