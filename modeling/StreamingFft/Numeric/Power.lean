/-!
Powers of numbers are those of the core library, with or without algebra in sight.
-/
attribute [instance (20000)] instPowNat
attribute [default_instance (20000)] instPowNat
