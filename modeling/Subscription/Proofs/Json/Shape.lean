import Subscription.Json.Basic

/-!
What the readers of values accept. Each of them reads one form of values and no other, and what it reads
determines the value.
-/

namespace Subscription.Json

theorem mapM_eq_some_iff {α β : Type} {read : α → Option β} {form : β → α}
    (h : ∀ a b, read a = some b ↔ a = form b) {as : List α} {bs : List β} :
    as.mapM read = some bs ↔ as = bs.map form := by
  induction as generalizing bs with
  | nil => cases bs <;> simp
  | cons a as ih =>
    simp only [List.mapM_cons, Option.bind_eq_bind, Option.bind_eq_some_iff, Option.pure_def, h, ih]
    cases bs <;> simp [eq_comm]

@[simp] theorem fields?_eq_some_iff {v : Json} {fields : List (Text × Json)} :
    v.fields? = some fields ↔ v = .object fields := by
  cases v <;> simp [fields?]

@[simp] theorem string?_eq_some_iff {v : Json} {s : Text} : v.string? = some s ↔ v = .string s := by
  cases v <;> simp [string?]

@[simp] theorem bool?_eq_some_iff {v : Json} {b : Bool} : v.bool? = some b ↔ v = .bool b := by
  cases v <;> simp [bool?]

@[simp] theorem items?_eq_some_iff {v : Json} {items : List Json} :
    v.items? = some items ↔ v = .array items := by
  cases v <;> simp [items?]

@[simp] theorem strings?_eq_some_iff {v : Json} {ss : List Text} :
    v.strings? = some ss ↔ v = .ofStrings ss := by
  have hread : ∀ v s, string? v = some s ↔ v = .string s := fun _ _ => string?_eq_some_iff
  cases v <;> simp [strings?, items?, mapM_eq_some_iff hread, ofStrings]

end Subscription.Json
