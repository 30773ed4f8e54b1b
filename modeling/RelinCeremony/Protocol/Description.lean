import RelinCeremony.Protocol.Engine

namespace RelinCeremony
namespace Protocol

/-!
# Descriptions

One line of text for a ring, for parameters and for an engine: a name and the
fields that determine the value.
-/

/-- A name with its fields. -/
def describeRecord (name : String) (fields : List (String × String)) : String :=
  name ++ " \x7b " ++ ", ".intercalate (fields.map fun (label, text) => label ++ ": " ++ text) ++
    " \x7d"

def describeList (values : List Nat) : String :=
  "[" ++ ", ".intercalate (values.map toString) ++ "]"

def describeFloat (x : Float) : String := Decimal.descriptive.render (.ofFloat x)

def describeRing (ring : Ring.NegacyclicRing) : String :=
  describeRecord "Context"
    [("moduli", describeList ring.moduli), ("degree", toString ring.degree)]

def Parameters.describe (par : Parameters) : String :=
  describeRecord "RkgParameters"
    [("polynomial_degree", toString par.degree), ("moduli", describeList par.moduli),
      ("sigma", describeFloat par.sampler.deviation),
      ("bit_decomposition", toString par.digitBits)]

def Engine.describe (e : Engine) : String :=
  describeRecord "RkgProtocol"
    [("moduli", describeList e.ring.moduli), ("degree", toString e.ring.degree),
      ("bit_decomposition", toString e.digitBits), ("levels", toString e.levels)]

end Protocol
end RelinCeremony
