import Subscription.Catalog.Document
import Subscription.Files.System
import Subscription.Json.Reader

/-!
Catalogs from catalog documents.
-/

namespace Subscription.Catalog

def build (services : List Service) : Except Fault Catalog :=
  (ofServices services).mapError .duplicateService

def ofDocument (document : Json) : Except Fault Catalog :=
  match readDocument document with
  | .ok services => build services
  | .error problems => .error (.invalidCatalog (problems.map Problem.finding))

def ofText (text : String) : Except Fault Catalog :=
  match Json.parse text with
  | some document => ofDocument document
  | none => .error .malformed

def load {m : Type → Type} [Monad m] (files : FileSystem m) (path : String) :
    ExceptT Fault m Catalog := do
  let text ← ofFileResult (files.read path)
  ofText text

end Subscription.Catalog
