import CallImpact.Text.Utf8

/-!
# Errors

What can go wrong outside the decoding of documents, each with its wording.
-/

namespace CallImpact

/-- Why limits are refused. -/
inductive LimitsFault where
  /-- A limit of no references at all. -/
  | zeroReferences
  | neitherSyntax
  /-- The bytes are no text. -/
  | notUtf8 (fault : Utf8.Fault)
deriving DecidableEq

def LimitsFault.message : LimitsFault → String
  | .zeroReferences =>
    "max_references_per_function must be > 0 (omit it to disable the limit)"
  | .neitherSyntax => "config is not valid JSON or TOML"
  | .notUtf8 fault => fault.message

/-- The errors of building and querying. -/
inductive ImpactError where
  | invalidLimits (fault : LimitsFault)
  /-- A walk asked about a node and got no answer. -/
  | lookupFailed (node cause : String)
  | nodeNotFound (name : String)
  | budgetExceeded
  | cancelled
deriving DecidableEq

def ImpactError.message : ImpactError → String
  | .invalidLimits fault => "Invalid configuration: " ++ fault.message
  | .lookupFailed node cause => "Lookup failed for " ++ node ++ ": " ++ cause
  | .nodeNotFound name => "Node not found: " ++ name
  | .budgetExceeded => "Traversal budget exceeded"
  | .cancelled => "Traversal cancelled"

end CallImpact
