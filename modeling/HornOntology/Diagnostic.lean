set_option autoImplicit false

/-! # Diagnostics

Every error of the library is a value that names its cause. Its `Diagnostic` is what a user is
shown: one sentence, a stable code, and advice. -/

namespace HornOntology

/-- What a user is told about an error. -/
structure Diagnostic where
  message : String
  code : String
  help : String
deriving DecidableEq

end HornOntology
