import Subscription.Json.Basic

/-!
What is left of a value once it has been written. A number that is not finite is written as null, and zero
without its sign; the members of an object take the order in which an object holds them. Where the fields
of an object are in that order, they stay as they are.
-/

namespace Subscription.Json

/-! ### Values by their parts -/

theorem sizeOf_value_lt {f : Text × Json} {fs : List (Text × Json)} (h : f ∈ fs) :
    sizeOf f.2 < 1 + sizeOf fs := by
  have hfield := List.sizeOf_lt_of_mem h
  have hvalue : sizeOf f = 1 + sizeOf f.1 + sizeOf f.2 := Prod.mk.sizeOf_spec f.1 f.2
  omega

/-- What holds of a value when it holds of its parts holds of every value. -/
@[elab_as_elim]
theorem parts_induction {P : Json → Prop} (null : P .null) (bool : ∀ b, P (.bool b))
    (number : ∀ n, P (.number n)) (string : ∀ t, P (.string t))
    (array : ∀ vs, (∀ v ∈ vs, P v) → P (.array vs))
    (object : ∀ fs, (∀ f ∈ fs, P f.2) → P (.object fs)) : ∀ v, P v
  | .null => null
  | .bool b => bool b
  | .number n => number n
  | .string t => string t
  | .array vs => array vs fun v _ => parts_induction null bool number string array object v
  | .object fs => object fs fun f hf =>
    have : sizeOf f.2 < 1 + sizeOf fs := sizeOf_value_lt hf
    parts_induction null bool number string array object f.2

/-! ### What is left of a value -/

def settledNumber : Number → Json
  | .infinite _ => .null
  | .finite d shortest =>
    if d.digits = 0 ∧ d.negative then .number 0 else .number (.finite d shortest)

mutual

def settled : Json → Json
  | .null => .null
  | .bool b => .bool b
  | .number n => settledNumber n
  | .string t => .string t
  | .array vs => .array (settledItems vs)
  | .object fs => ofMembers (settledFields fs)

def settledItems : List Json → List Json
  | [] => []
  | v :: vs => settled v :: settledItems vs

def settledFields : List (Text × Json) → List (Text × Json)
  | [] => []
  | (k, v) :: fs => (k, settled v) :: settledFields fs

end

theorem settledItems_eq_map (vs : List Json) : settledItems vs = vs.map settled := by
  induction vs with
  | nil => rw [settledItems, List.map_nil]
  | cons v vs ih => rw [settledItems, ih, List.map_cons]

theorem settledFields_eq_map (fs : List (Text × Json)) :
    settledFields fs = fs.map fun f => (f.1, f.2.settled) := by
  induction fs with
  | nil => rw [settledFields, List.map_nil]
  | cons f fs ih => rw [settledFields, ih, List.map_cons]

/-! ### Fields in order -/

section Map

variable (g : Json → Json)

/-- A change of the values that leaves the keys leaves the place of every field. -/
theorem putIndex_map (n : Nat) (key : Text) (value : Json) (fields : List (Text × Json)) :
    putIndex n key (g value) (fields.map fun f => (f.1, g f.2)) =
      (putIndex n key value fields).map fun f => (f.1, g f.2) := by
  induction fields with
  | nil => rfl
  | cons f fs ih =>
    rw [List.map_cons, putIndex, putIndex]
    rcases indexKey? f.1 with _ | m
    · rfl
    · dsimp only
      split
      · rw [ih, List.map_cons]
      · rfl

theorem put_map (key : Text) (value : Json) (fields : List (Text × Json)) :
    put (fields.map fun f => (f.1, g f.2)) key (g value) =
      (put fields key value).map fun f => (f.1, g f.2) := by
  have hany : (fields.map fun f => (f.1, g f.2)).any (·.1 = key) = fields.any (·.1 = key) := by
    rw [List.any_map]
    rfl
  rw [put, put, hany]
  split
  · rw [List.map_map, List.map_map]
    refine List.map_congr_left fun f _ => ?_
    simp only [Function.comp_apply]
    split <;> rfl
  · rcases indexKey? key with _ | n
    · simp
    · exact putIndex_map g n key value fields

theorem ofMembers_map (members : List (Text × Json)) :
    ∃ fields, ofMembers members = .object fields ∧
      ofMembers (members.map fun f => (f.1, g f.2)) =
        .object (fields.map fun f => (f.1, g f.2)) := by
  refine ⟨_, rfl, congrArg object ?_⟩
  suffices H : ∀ fields : List (Text × Json),
      (members.map fun f => (f.1, g f.2)).foldl (fun fields m => put fields m.1 m.2)
        (fields.map fun f => (f.1, g f.2)) =
      (members.foldl (fun fields m => put fields m.1 m.2) fields).map fun f => (f.1, g f.2) from H []
  induction members with
  | nil => exact fun _ => rfl
  | cons m ms ih =>
    intro fields
    rw [List.map_cons, List.foldl_cons, List.foldl_cons, ← ih, put_map]

end Map

theorem settled_object {fs : List (Text × Json)} (h : ofMembers fs = .object fs) :
    (object fs).settled = .object (fs.map fun f => (f.1, f.2.settled)) := by
  obtain ⟨fields, hfields, hmap⟩ := ofMembers_map settled fs
  obtain rfl : fs = fields := object.inj (h.symm.trans hfields)
  rw [settled, settledFields_eq_map, hmap]

end Subscription.Json
