import Subscription.Number
import Subscription.Text.Part

/-!
Data values as the state, contract and configuration files hold them. The fields of an object have
an order: keys that are array indices come first, by size, and the others follow as they were first
met.
-/

namespace Subscription

inductive Json where
  | null
  | bool (value : Bool)
  | number (value : Number)
  | string (value : Text)
  | array (items : List Json)
  | object (fields : List (Text × Json))

namespace Json

def indexKey? (key : Text) : Option Nat :=
  let cs := key.toString.toList
  let n := Decimal.ofFigures cs
  if cs ≠ [] ∧ cs.all Char.isDigit ∧ Decimal.figures n = cs ∧ n < 0xFFFFFFFF then some n else none

def lookup (fields : List (Text × Json)) (key : Text) : Option Json :=
  (fields.find? (·.1 = key)).map (·.2)

/-- Puts a field whose key is the index `n` before the first field that belongs after it. -/
def putIndex (n : Nat) (key : Text) (value : Json) :
    List (Text × Json) → List (Text × Json)
  | [] => [(key, value)]
  | f :: fs =>
    match indexKey? f.1 with
    | some m => if m < n then f :: putIndex n key value fs else (key, value) :: f :: fs
    | none => (key, value) :: f :: fs

/-- Sets a field. A key that is present keeps its place and takes the new value. -/
def put (fields : List (Text × Json)) (key : Text) (value : Json) : List (Text × Json) :=
  if fields.any (·.1 = key) then
    fields.map fun f => if f.1 = key then (key, value) else f
  else match indexKey? key with
    | some n => putIndex n key value fields
    | none => fields ++ [(key, value)]

theorem find?_putIndex (n : Nat) (key : Text) (value : Json) (fields : List (Text × Json)) :
    (∀ f ∈ fields, f.1 ≠ key) →
      (putIndex n key value fields).find? (·.1 = key) = some (key, value) := by
  induction fields with
  | nil => simp [putIndex]
  | cons f fs ih =>
    intro h
    have hf : f.1 ≠ key := h f List.mem_cons_self
    have ih := ih fun g hg => h g (List.mem_cons_of_mem _ hg)
    unfold putIndex
    split
    · split
      · simpa [hf] using ih
      · simp
    · simp

/-- What was set is what is found. -/
theorem lookup_put_self (fields : List (Text × Json)) (key : Text) (value : Json) :
    lookup (put fields key value) key = some value := by
  by_cases h : fields.any (·.1 = key)
  · simp only [lookup, put, h, if_true]
    induction fields with
    | nil => simp at h
    | cons f fs ih =>
      by_cases hf : f.1 = key
      · simp [hf]
      · simp only [List.any_cons, decide_eq_false hf, Bool.false_or] at h
        simpa [hf] using ih h
  · simp only [lookup, put, h, Bool.false_eq_true, if_false]
    have hne : ∀ f ∈ fields, f.1 ≠ key := fun f hf e =>
      h (List.any_eq_true.2 ⟨f, hf, decide_eq_true e⟩)
    split
    · rw [find?_putIndex _ _ _ _ hne]
      rfl
    · have hn : fields.find? (·.1 = key) = none :=
        List.find?_eq_none.2 fun f hf => by simpa using hne f hf
      simp [List.find?_append, hn]

def ofMembers (members : List (Text × Json)) : Json :=
  .object (members.foldl (fun fields m => put fields m.1 m.2) [])

def fields? : Json → Option (List (Text × Json))
  | .object fields => some fields
  | _ => none

def get? (v : Json) (key : Text) : Option Json :=
  v.fields?.bind (lookup · key)

def string? : Json → Option Text
  | .string s => some s
  | _ => none

def filledString? (v : Json) : Option Text :=
  v.string?.filter (· ≠ "")

def bool? : Json → Option Bool
  | .bool b => some b
  | _ => none

def number? : Json → Option Number
  | .number n => some n
  | _ => none

def items? : Json → Option (List Json)
  | .array items => some items
  | _ => none

def strings? (v : Json) : Option (List Text) :=
  v.items?.bind (·.mapM string?)

def ofStrings (ss : List Text) : Json :=
  .array (ss.map .string)

def ofString? : Option Text → Json
  | some s => .string s
  | none => .null

end Json

end Subscription
