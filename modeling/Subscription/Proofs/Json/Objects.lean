import Mathlib.Data.List.Nodup
import Subscription.Proofs.Json.ReadBack
import Subscription.Proofs.Json.Shape

/-!
Objects and lists of texts that are written as they stand: the keys of such an object are all different,
and none of them is an index.
-/

namespace Subscription.Json

theorem lookup_cons (k : Text) (v : Json) (fs : List (Text × Json)) (key : Text) :
    lookup ((k, v) :: fs) key = if k = key then some v else lookup fs key := by
  by_cases h : k = key <;> simp [lookup, h]

theorem any_key (fields : List (Text × Json)) (key : Text) :
    fields.any (·.1 = key) = decide (key ∈ fields.map (·.1)) := by
  simp only [List.any_eq, decide_eq_true_eq, List.mem_map]

theorem put_of_new {fields : List (Text × Json)} {key : Text} (value : Json)
    (hnew : key ∉ fields.map (·.1)) (hkey : indexKey? key = none) :
    put fields key value = fields ++ [(key, value)] := by
  rw [put, any_key, decide_eq_false hnew, hkey]
  rfl

/-- Fields with keys of their own, none of which is an index, stay in their order. -/
theorem ofMembers_of_nodup {fs : List (Text × Json)} (hnd : (fs.map (·.1)).Nodup)
    (hkeys : ∀ k ∈ fs.map (·.1), indexKey? k = none) : ofMembers fs = .object fs := by
  -- The fields read so far come first, and none of their keys comes again.
  suffices H : ∀ acc : List (Text × Json), ((acc ++ fs).map (·.1)).Nodup →
      fs.foldl (fun fields m => put fields m.1 m.2) acc = acc ++ fs from
    congrArg object (H [] hnd)
  induction fs with
  | nil => exact fun acc _ => (List.append_nil acc).symm
  | cons f fs ih =>
    intro acc hacc
    have hnew : f.1 ∉ acc.map (·.1) := by
      rw [List.map_append, List.map_cons] at hacc
      exact fun h => (List.nodup_append.mp hacc).2.2 _ h _ List.mem_cons_self rfl
    rw [List.foldl_cons, put_of_new f.2 hnew (hkeys f.1 List.mem_cons_self),
      ih (List.nodup_cons.mp hnd).2 (fun k hk => hkeys k (List.mem_cons_of_mem f.1 hk)) _
        (by simpa using hacc)]
    simp

theorem plain_ofStrings (ss : List Text) : Plain (ofStrings ss) := by
  refine .array fun v hv => ?_
  obtain ⟨s, -, rfl⟩ := List.mem_map.mp hv
  exact .string s

@[simp] theorem strings?_ofStrings (ss : List Text) : (ofStrings ss).strings? = some ss :=
  strings?_eq_some_iff.mpr rfl

end Subscription.Json
