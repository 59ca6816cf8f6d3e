/-!
Powers of natural numbers are the ones of the core library in every module, whatever else a module
imports: `2 ^ n` is the same term in a definition and in a statement about it.
-/

attribute [instance (1100), default_instance 20000] instPowNat
