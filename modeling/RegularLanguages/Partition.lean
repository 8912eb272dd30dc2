import Std.Data.ExtTreeSet

/-!
# Partitions

A partition groups elements into classes. Nothing forces the classes to be disjoint or different;
two partitions count as equal when they have as many classes and each class of the first is one of
the second.
-/

namespace RegularLanguages

/-- A list of classes of elements. -/
structure Partition (α : Type) [Ord α] where
  classes : List (Std.ExtTreeSet α)

namespace Partition

variable {α : Type} [Ord α] [Std.TransOrd α] [Std.LawfulEqOrd α]

/-- The partition into the given groups, leaving out those that are empty. -/
def ofGroups (groups : List (List α)) : Partition α :=
  ⟨(groups.map fun g => Std.ExtTreeSet.ofList g).filter fun c => !c.isEmpty⟩

/-- The number of classes. -/
def size (p : Partition α) : Nat := p.classes.length

/-- The position of the first class that holds the element. -/
def classOf? (p : Partition α) (x : α) : Option Nat :=
  p.classes.findIdx? fun c => c.contains x

/-- As many classes, and every class of the first among those of the second. -/
instance : BEq (Partition α) :=
  ⟨fun p q => p.size == q.size && p.classes.all fun c => decide (c ∈ q.classes)⟩

end Partition

end RegularLanguages
