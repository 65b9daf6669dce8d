set_option autoImplicit false

/-!
# Counters

A counter is a named 32-bit number that code adds to in place. It wraps around at the ends of its
range.
-/

namespace CodeReloc

/-- A named 32-bit number. -/
structure Counter where
  name : String
  value : Int32
  deriving DecidableEq, Repr

namespace Counter

/-- A counter at zero. -/
def new (name : String) : Counter := ⟨name, 0⟩

/-- Adds to the counter. -/
def increment (c : Counter) (delta : Int32) : Counter := { c with value := c.value + delta }

/-- Takes away from the counter. -/
def decrement (c : Counter) (delta : Int32) : Counter := { c with value := c.value - delta }

/-- Sets the counter back to zero. -/
def reset (c : Counter) : Counter := { c with value := 0 }

end Counter

end CodeReloc
