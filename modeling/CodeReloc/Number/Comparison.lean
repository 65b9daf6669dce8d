set_option autoImplicit false

/-!
# Comparisons of doubles

The comparisons that code may ask for. They are those of the number format: both zeros are equal,
and what is no number is unequal to everything and in no order.
-/

namespace CodeReloc

/-- A comparison of two doubles. -/
inductive Comparison where
  | eq
  | eqStrict
  | ne
  | lt
  | gt
  | lte
  | gte
  deriving DecidableEq, Repr

/-- All comparisons. -/
def Comparison.all : List Comparison := [eq, eqStrict, ne, lt, gt, lte, gte]

/-- The identifier of a comparison. -/
def Comparison.label : Comparison → String
  | eq => "Eq"
  | eqStrict => "EqStrict"
  | ne => "Ne"
  | lt => "Lt"
  | gt => "Gt"
  | lte => "Lte"
  | gte => "Gte"

/-- Whether a comparison holds. On numbers the two kinds of equality are the same. -/
def Comparison.holds (c : Comparison) (x y : Float) : Bool :=
  match c with
  | eq => x == y
  | eqStrict => x == y
  | ne => x != y
  | lt => x < y
  | gt => y < x
  | lte => x ≤ y
  | gte => y ≤ x

end CodeReloc
