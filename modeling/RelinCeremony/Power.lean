namespace RelinCeremony

/-!
# Powers of numbers

Powers of natural numbers and integers are those of the core library, whichever other
instances of powers are in scope.
-/

attribute [instance (20000), default_instance 20000] instPowNat

end RelinCeremony
