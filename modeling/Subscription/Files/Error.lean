/-!
The ways in which a file operation fails.
-/

namespace Subscription

inductive FileError where
  | missing
  | isDirectory
  | notDirectory
  | taken
  | notRemovable
deriving DecidableEq

end Subscription
