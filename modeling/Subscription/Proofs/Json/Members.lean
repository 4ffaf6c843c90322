import Subscription.Proofs.Json.Objects

/-!
Objects and the members they are written with. A text may give a key several times, and keys in any order;
the object has every key once, with the value that was given last, and its keys in the order of objects.
-/

namespace Subscription.Json

variable {members fields fs gs : List (Text × Json)} {key : Text}

/-! ### Finding a field -/

theorem lookup_eq_none_iff : lookup fields key = none ↔ key ∉ fields.map (·.1) := by
  simp only [lookup, Option.map_eq_none_iff, List.find?_eq_none, decide_eq_true_eq, List.mem_map,
    not_exists, not_and]

theorem lookup_append (fs gs : List (Text × Json)) (key : Text) :
    lookup (fs ++ gs) key = (lookup fs key).or (lookup gs key) := by
  rw [lookup, List.find?_append]
  cases h : fs.find? (·.1 = key) <;> simp [lookup, h]

theorem lookup_replace (fields : List (Text × Json)) {key other : Text} (value : Json)
    (h : key ≠ other) :
    lookup (fields.map fun f => if f.1 = key then (key, value) else f) other = lookup fields other := by
  induction fields with
  | nil => rfl
  | cons f fields ih =>
    obtain ⟨k, v⟩ := f
    rw [List.map_cons, lookup_cons]
    by_cases hk : k = key
    · rw [if_pos hk, lookup_cons, if_neg h, if_neg (hk ▸ h), ih]
    · rw [if_neg hk, lookup_cons, ih]

/-! ### Setting a field -/

theorem put_of_mem (h : key ∈ fields.map (·.1)) (value : Json) :
    put fields key value = fields.map fun f => if f.1 = key then (key, value) else f := by
  rw [put, any_key, decide_eq_true h]
  rfl

theorem keys_put_of_mem (h : key ∈ fields.map (·.1)) (value : Json) :
    (put fields key value).map (·.1) = fields.map (·.1) := by
  rw [put_of_mem h, List.map_map]
  refine List.map_congr_left fun f _ => ?_
  rw [Function.comp_apply]
  split_ifs with hf
  · exact hf.symm
  · rfl

theorem put_of_index {n : Nat} (hnew : key ∉ fields.map (·.1)) (hkey : indexKey? key = some n)
    (value : Json) : put fields key value = putIndex n key value fields := by
  rw [put, any_key, decide_eq_false hnew, hkey]
  rfl

/-- The place of a new key between the fields of an object: an index comes after the smaller ones that the
object begins with, and any other key comes last. -/
def Between (key : Text) (fs gs : List (Text × Json)) : Prop :=
  match indexKey? key with
  | some n => (∀ f ∈ fs, ∃ m, indexKey? f.1 = some m ∧ m ≤ n) ∧
      ∀ g ∈ gs.head?, ∀ m, indexKey? g.1 = some m → n ≤ m
  | none => gs = []

theorem exists_putIndex {n : Nat} (hkey : indexKey? key = some n) (value : Json)
    (fields : List (Text × Json)) :
    ∃ fs gs, fields = fs ++ gs ∧ putIndex n key value fields = fs ++ (key, value) :: gs ∧
      Between key fs gs := by
  simp only [Between, hkey]
  induction fields with
  | nil => exact ⟨[], [], rfl, rfl, nofun, nofun⟩
  | cons f fields ih =>
    rw [putIndex]
    cases hf : indexKey? f.1 with
    | none => exact ⟨[], f :: fields, rfl, rfl, nofun, by simp [hf]⟩
    | some m =>
      dsimp only
      split_ifs with hm
      · obtain ⟨fs, gs, hfields, hput, hsmall, hlarge⟩ := ih
        exact ⟨f :: fs, gs, by rw [hfields]; rfl, by rw [hput]; rfl,
          List.forall_mem_cons.mpr ⟨⟨m, hf, hm.le⟩, hsmall⟩, hlarge⟩
      · refine ⟨[], f :: fields, rfl, rfl, nofun, ?_⟩
        simp only [List.head?_cons, Option.mem_some_iff]
        rintro g rfl m' hm'
        rw [hf, Option.some.injEq] at hm'
        omega

theorem exists_put (hnew : key ∉ fields.map (·.1)) (value : Json) :
    ∃ fs gs, fields = fs ++ gs ∧ put fields key value = fs ++ (key, value) :: gs ∧
      Between key fs gs := by
  cases hkey : indexKey? key with
  | some n =>
    rw [put_of_index hnew hkey]
    exact exists_putIndex hkey value fields
  | none =>
    rw [put_of_new value hnew hkey]
    exact ⟨fields, [], by simp, rfl, by simp [Between, hkey]⟩

theorem lookup_put (fields : List (Text × Json)) (key : Text) (value : Json) (other : Text) :
    lookup (put fields key value) other = if key = other then some value else lookup fields other := by
  split_ifs with h
  · rw [← h, lookup_put_self]
  · by_cases hmem : key ∈ fields.map (·.1)
    · rw [put_of_mem hmem, lookup_replace fields value h]
    · obtain ⟨fs, gs, hfields, hput, -⟩ := exists_put hmem value
      rw [hput, hfields, lookup_append, lookup_append, lookup_cons, if_neg h]

/-! ### Objects and their members -/

/-- Whether a key stands before another one in an object, when the keys were met in a certain order:
indices come first, by size, and the other keys as they were met. -/
def Precedes (met : List Text) (a b : Text) : Prop :=
  match indexKey? a, indexKey? b with
  | some m, some n => m ≤ n
  | some _, none => True
  | none, some _ => False
  | none, none => met.idxOf a < met.idxOf b

/-- The fields are those of an object with the given members. -/
structure Gathers (members fields : List (Text × Json)) : Prop where
  /-- Of several members with one key, the last counts. -/
  value : ∀ key, lookup fields key = lookup members.reverse key
  distinct : (fields.map (·.1)).Nodup
  ordered : (fields.map (·.1)).Pairwise (Precedes (members.map (·.1)))

theorem Precedes.append {met : List Text} {a b : Text} (h : Precedes met a b) (ha : a ∈ met)
    (hb : b ∈ met) (new : Text) : Precedes (met ++ [new]) a b := by
  rw [Precedes, List.idxOf_append_of_mem ha, List.idxOf_append_of_mem hb]
  exact h

namespace Gathers

theorem mem_iff (h : Gathers members fields) :
    key ∈ fields.map (·.1) ↔ key ∈ members.map (·.1) := by
  rw [← not_iff_not, ← lookup_eq_none_iff, h.value, lookup_eq_none_iff, List.map_reverse,
    List.mem_reverse]

/-- The fields before the place of a new key precede it. -/
theorem precedes_new (h : Gathers members fields) (hnew : key ∉ fields.map (·.1))
    (hbetween : Between key fs gs) {f : Text × Json} (hf : f ∈ fs) (hfields : f ∈ fields) :
    Precedes (members.map (·.1) ++ [key]) f.1 key := by
  rw [Between] at hbetween
  rw [Precedes]
  cases hkey : indexKey? key with
  | some n =>
    rw [hkey] at hbetween
    obtain ⟨m, hm, hle⟩ := hbetween.1 f hf
    rw [hm]
    exact hle
  | none =>
    cases indexKey? f.1 with
    | some m => trivial
    | none =>
      have hmet : f.1 ∈ members.map (·.1) := h.mem_iff.mp (List.mem_map_of_mem hfields)
      show List.idxOf _ _ < List.idxOf _ _
      rw [List.idxOf_append_of_mem hmet,
        List.idxOf_append_of_notMem fun hmem => hnew (h.mem_iff.mpr hmem)]
      exact Nat.lt_add_right _ (List.idxOf_lt_length_of_mem hmet)

/-- A new key precedes the fields after its place. -/
theorem new_precedes {met met' : List Text} (ordered : (gs.map (·.1)).Pairwise (Precedes met))
    (hbetween : Between key fs gs) {g : Text × Json} (hg : g ∈ gs) : Precedes met' key g.1 := by
  rw [Between] at hbetween
  rw [Precedes]
  cases hkey : indexKey? key with
  | none =>
    rw [hkey] at hbetween
    rw [hbetween] at hg
    cases hg
  | some n =>
    rw [hkey] at hbetween
    cases hm : indexKey? g.1 with
    | none => trivial
    | some m =>
      show n ≤ m
      obtain ⟨g₀, gs, rfl⟩ := List.exists_cons_of_ne_nil (List.ne_nil_of_mem hg)
      rcases List.mem_cons.mp hg with rfl | hg
      · exact hbetween.2 g rfl m hm
      · -- An index after the first of these fields is not smaller than that, which is an index, too.
        have hafter := (List.pairwise_cons.mp ordered).1 g.1 (List.mem_map_of_mem hg)
        rw [Precedes, hm] at hafter
        cases hfirst : indexKey? g₀.1 with
        | none => simp [hfirst] at hafter
        | some m₀ =>
          rw [hfirst] at hafter
          exact (hbetween.2 g₀ rfl m₀ hfirst).trans hafter

theorem nil : Gathers [] [] :=
  ⟨fun _ => rfl, .nil, .nil⟩

/-- One more member sets one field. -/
theorem put (h : Gathers members fields) (key : Text) (value : Json) :
    Gathers (members ++ [(key, value)]) (put fields key value) := by
  have hvalue (other : Text) : lookup (Json.put fields key value) other =
      lookup (members ++ [(key, value)]).reverse other := by
    rw [List.reverse_append, List.reverse_singleton, List.singleton_append, lookup_cons, lookup_put,
      h.value]
  have hmet : (members ++ [(key, value)]).map (·.1) = members.map (·.1) ++ [key] := by
    rw [List.map_append, List.map_singleton]
  have hkept : (fields.map (·.1)).Pairwise (Precedes (members.map (·.1) ++ [key])) :=
    h.ordered.imp_of_mem fun ha hb hab => hab.append (h.mem_iff.mp ha) (h.mem_iff.mp hb) key
  by_cases hmem : key ∈ fields.map (·.1)
  · have hkeys := keys_put_of_mem hmem value
    exact ⟨hvalue, hkeys ▸ h.distinct, by rw [hkeys, hmet]; exact hkept⟩
  · obtain ⟨fs, gs, rfl, hput, hbetween⟩ := exists_put hmem value
    have hkeys : (Json.put (fs ++ gs) key value).map (·.1) = fs.map (·.1) ++ key :: gs.map (·.1) := by
      rw [hput, List.map_append, List.map_cons]
    obtain ⟨hfs, hgs, hcross⟩ := List.pairwise_append.mp (List.map_append ▸ hkept)
    refine ⟨hvalue, ?_, ?_⟩
    · rw [hkeys, List.nodup_middle, ← List.map_append]
      exact List.nodup_cons.mpr ⟨hmem, h.distinct⟩
    · rw [hkeys, hmet, List.pairwise_append, List.pairwise_cons, List.forall_mem_map,
        List.forall_mem_map]
      refine ⟨hfs, ⟨fun g hg => new_precedes hgs hbetween hg, hgs⟩, fun f hf => ?_⟩
      exact List.forall_mem_cons.mpr ⟨h.precedes_new hmem hbetween hf (List.mem_append_left gs hf),
        hcross f.1 (List.mem_map_of_mem hf)⟩

theorem ofMembers (members : List (Text × Json)) :
    ∃ fields, Json.ofMembers members = .object fields ∧ Gathers members fields := by
  suffices H : ∀ before fields, Gathers before fields →
      Gathers (before ++ members) (members.foldl (fun fields m => Json.put fields m.1 m.2) fields) from
    ⟨_, rfl, H [] [] nil⟩
  induction members with
  | nil => simp
  | cons m members ih =>
    intro before fields h
    have hrest := ih _ _ (h.put m.1 m.2)
    rwa [List.append_assoc, List.singleton_append] at hrest

end Gathers

/-! ### Members in a text -/

def readObject (fuel : Nat) (cs : List Char) : Option (List (Text × Json) × List Char) :=
  match skipGaps cs with
  | '{' :: cs =>
    match skipGaps cs with
    | '}' :: cs => some ([], cs)
    | cs => readMembers fuel cs
  | _ => none

def members? (s : String) : Option (List (Text × Json)) :=
  (readObject s.toList.length s.toList).map (·.1)

theorem readAtom_ne_object (cs rest : List Char) (fields : List (Text × Json)) :
    readAtom cs ≠ some (.object fields, rest) := by
  unfold readAtom readNumber
  split
  any_goals simp

theorem readObject_of_readValue {fuel : Nat} {cs rest : List Char}
    (h : readValue (fuel + 1) cs = some (.object fields, rest)) :
    ∃ members, readObject fuel cs = some (members, rest) ∧ Json.ofMembers members = .object fields := by
  rw [readValue] at h
  rw [readObject]
  split at h
  · simp at h
  · split at h
    · simp at h
    · simp at h
  · next hcs =>
    rw [hcs]
    split at h
    · next hrest =>
      cases h
      exact ⟨[], by simp only [hrest], rfl⟩
    · next hrest =>
      obtain ⟨⟨members, cs'⟩, hread, heq⟩ := Option.map_eq_some_iff.mp h
      obtain ⟨hobject, rfl⟩ := Prod.mk.inj heq
      refine ⟨members, ?_, hobject⟩
      show (match skipGaps _ with
        | '}' :: cs => some ([], cs)
        | cs => readMembers fuel cs) = some (members, cs')
      split
      · next hclose => exact absurd hclose (hrest _)
      · exact hread
  · exact absurd h (readAtom_ne_object _ _ _)

/-- An object that is read gathers the members of the text. -/
theorem gathers_of_parse {s : String} (h : parse s = some (.object fields)) :
    ∃ members, members? s = some members ∧ Gathers members fields := by
  rw [parse] at h
  split at h
  · next v cs hread =>
    split_ifs at h with hend
    obtain rfl : v = .object fields := Option.some.inj h
    obtain ⟨members, hmembers, hobject⟩ := readObject_of_readValue hread
    obtain ⟨fields', hfields', hgathers⟩ := Gathers.ofMembers members
    obtain rfl : fields' = fields := object.inj (hfields'.symm.trans hobject)
    exact ⟨members, by rw [members?, hmembers]; rfl, hgathers⟩
  · cases h

end Subscription.Json
