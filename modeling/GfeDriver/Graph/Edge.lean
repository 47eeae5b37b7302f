import Mathlib.Tactic

/-!
# Edges

Vertex identifiers are the 64-bit unsigned integers of the source, read as natural numbers:
no operation of the modelled code does arithmetic on an identifier unless it says so with an
explicit `% 2 ^ 64`. Weights stay a parameter `W`; the kernels that add or compare them
instantiate it with exact rationals.

## Main definitions

* `Edge`, `WeightedEdge W`: an edge, without and with its weight
-/

namespace GfeDriver

/-- `graph::Edge`: a pair `<source, destination>`. -/
structure Edge where
  source : ℕ
  destination : ℕ
  deriving DecidableEq, Repr

/-- `graph::WeightedEdge`: a tuple `<source, destination, weight>`. -/
structure WeightedEdge (W : Type) where
  source : ℕ
  destination : ℕ
  weight : W
  deriving DecidableEq, Repr

namespace WeightedEdge

variable {W : Type}

/-- `WeightedEdge::edge`: the edge without its weight. -/
def edge (e : WeightedEdge W) : Edge := ⟨e.source, e.destination⟩

end WeightedEdge

end GfeDriver
