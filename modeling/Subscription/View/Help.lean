import Subscription.Catalog.Basic
import Subscription.Fault
import Subscription.Json.Printer
import Subscription.View.Table

/-!
The help page of a service. It is there for every service of the catalog, attached or not.
-/

namespace Subscription

structure HelpPage where
  name : Text
  available : Bool
  help : Text
deriving DecidableEq

def Catalog.helpPage (c : Catalog) (name series : Text) : Except Fault HelpPage :=
  match c.find? name with
  | some s => .ok ⟨s.name, c.isAvailable name series, s.helpText⟩
  | none => .error (.noHelp name)

namespace HelpPage

def toJson (p : HelpPage) : Json :=
  .object [("name", .string p.name), ("available", .string (View.yesOrNo p.available)),
    ("help", .string p.help)]

def text (p : HelpPage) : Text :=
  Text.intercalate "\n"
    ["Name:", p.name, "", "Available:", View.yesOrNo p.available, "", "Help:", p.help]

end HelpPage

end Subscription
