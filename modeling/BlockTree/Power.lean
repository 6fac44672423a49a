/-! Powers with natural exponents are those of the core library, also where a module sees
the powers of a monoid. -/

attribute [instance (high)] instPowNat
attribute [default_instance 20000] instPowNat
