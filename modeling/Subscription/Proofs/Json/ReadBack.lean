import Subscription.Proofs.Json.Numerals
import Subscription.Proofs.Json.Quote

/-!
Values read back from their written form, in either style. The gaps between the parts of a value are
skipped wherever they may stand, so both styles are read alike, and what is read is what is left of the
value. A plain value comes back as it was: one whose numbers are numerals, and whose objects all hold their
fields in order.
-/

namespace Subscription.Json

variable {style : Style} {depth fuel : Nat} {cs : List Char}

/-! ### Gaps -/

theorem skipGaps_separator (style : Style) (depth : Nat) (cs : List Char) :
    skipGaps (style.separator depth ++ cs) = skipGaps cs := by
  cases style with
  | compact => rfl
  | indented =>
    have hspaces : ∀ n, skipGaps (List.replicate n ' ' ++ cs) = skipGaps cs := by
      intro n
      induction n with
      | zero => rfl
      | succ n ih => exact ih
    exact hspaces (2 * depth)

theorem skipGaps_cons {c : Char} (hc : isGap c = false) (cs : List Char) :
    skipGaps (c :: cs) = c :: cs := by
  simp [skipGaps, hc]

theorem follows_separator (h : Follows cs) : Follows (style.separator depth ++ cs) := by
  cases style with
  | compact => exact h
  | indented => exact follows_cons (by decide) _

theorem readValue_separator (fuel : Nat) (cs : List Char) :
    readValue fuel (style.separator depth ++ cs) = readValue fuel cs := by
  cases fuel with
  | zero => simp [readValue]
  | succ fuel => rw [readValue, readValue, skipGaps_separator]

theorem readItems_separator (fuel : Nat) (cs : List Char) :
    readItems fuel (style.separator depth ++ cs) = readItems fuel cs := by
  cases fuel with
  | zero => simp [readItems]
  | succ fuel => rw [readItems, readItems, readValue_separator]

theorem readMembers_separator (fuel : Nat) (cs : List Char) :
    readMembers fuel (style.separator depth ++ cs) = readMembers fuel cs := by
  cases fuel with
  | zero => simp [readMembers]
  | succ fuel => rw [readMembers, readMembers, readKey, readKey, skipGaps_separator]

/-- A key is read together with its colon, and the value is read as if nothing stood before it. -/
theorem readKey_quote (style : Style) (k : Text) (fuel : Nat) (cs : List Char) :
    ∃ rest, readKey (quote k ++ (style.colon ++ cs)) = some (k, rest) ∧
      readValue fuel rest = readValue fuel cs := by
  obtain ⟨body, hquote, hread⟩ := readText_quote k (style.colon ++ cs)
  have hkey : ∀ rest, style.colon ++ cs = ':' :: rest →
      readKey (quote k ++ (style.colon ++ cs)) = some (k, rest) := by
    intro rest hrest
    rw [hrest] at hread
    rw [hquote, hrest, List.cons_append, readKey]
    simp only [skipGaps_cons (show isGap '"' = false by decide), hread,
      skipGaps_cons (show isGap ':' = false by decide)]
  cases style with
  | compact => exact ⟨cs, hkey cs rfl, rfl⟩
  | indented =>
    refine ⟨' ' :: cs, hkey _ rfl, ?_⟩
    cases fuel with
    | zero => simp [readValue]
    | succ fuel =>
      rw [readValue, readValue]
      rfl

/-! ### Values -/

/-- What is left of a value is read wherever its written form stands, if what stands behind it does not go
on with it. -/
def ReadsBack (style : Style) (depth : Nat) (v : Json) : Prop :=
  ∀ fuel cs, (write style depth v).length < fuel → Follows cs →
    readValue fuel (write style depth v ++ cs) = some (v.settled, cs)

theorem numeral_ne {c : Char} (hc : c = '-' ∨ c.isDigit = true) :
    ∀ a ∈ [' ', '\t', '\n', '\r', '"', '[', ']', '\x7b', '}', 'n', 't', 'f'], c ≠ a := by
  rintro a ha rfl
  have hnone : ∀ a ∈ [' ', '\t', '\n', '\r', '"', '[', ']', '\x7b', '}', 'n', 't', 'f'],
      ¬(a = '-' ∨ a.isDigit = true) := by simp
  exact hnone c ha hc

theorem isGap_numeral {c : Char} (hc : c = '-' ∨ c.isDigit = true) : isGap c = false := by
  have hne := numeral_ne hc
  simp [isGap, hne]

/-- The first character of a value is neither a blank nor a closing bracket. -/
theorem write_cons (style : Style) (depth : Nat) (v : Json) :
    ∃ c cs, write style depth v = c :: cs ∧ isGap c = false ∧ c ≠ ']' ∧ c ≠ '}' := by
  cases v with
  | null => exact ⟨_, _, by rw [write], by decide, by decide, by decide⟩
  | bool b => cases b <;> exact ⟨_, _, by rw [write], by decide, by decide, by decide⟩
  | number n =>
    cases n with
    | infinite => exact ⟨_, _, by rw [write, writeNumber], by decide, by decide, by decide⟩
    | finite d =>
      obtain ⟨c, cs, hfirst, hc⟩ := finiteText_cons d
      have hne := numeral_ne hc
      exact ⟨c, cs, by rw [write, writeNumber, hfirst], isGap_numeral hc, hne _ (by simp), hne _ (by simp)⟩
  | string t => exact ⟨_, _, by rw [write]; rfl, by decide, by decide, by decide⟩
  | array vs => cases vs <;> exact ⟨_, _, by rw [write], by decide, by decide, by decide⟩
  | object fs => rcases fs with _ | ⟨⟨k, v⟩, fs⟩ <;>
      exact ⟨_, _, by rw [write], by decide, by decide, by decide⟩

theorem readItems_write (style : Style) (depth : Nat) (vs : List Json) :
    ∀ (v : Json) (fuel : Nat) (cs : List Char), (∀ w ∈ v :: vs, ReadsBack style (depth + 1) w) →
    (write style (depth + 1) v ++ (writeItems style (depth + 1) vs ++
      (style.separator depth ++ [']']))).length < fuel →
    readItems fuel (write style (depth + 1) v ++ (writeItems style (depth + 1) vs ++
      (style.separator depth ++ (']' :: cs)))) = some (settledItems (v :: vs), cs) := by
  induction vs with
  | nil =>
    intro v fuel cs hback hfuel
    obtain ⟨fuel, rfl⟩ := Nat.exists_eq_succ_of_ne_zero (Nat.ne_zero_of_lt hfuel)
    simp only [List.length_append, List.length_cons] at hfuel
    have hfollows : Follows (style.separator depth ++ (']' :: cs)) :=
      follows_separator (follows_cons (by decide) cs)
    rw [readItems, writeItems, List.nil_append, hback v List.mem_cons_self fuel _ (by omega) hfollows]
    simp only [skipGaps_separator, skipGaps_cons (show isGap ']' = false by decide), settledItems]
  | cons w vs ih =>
    intro v fuel cs hback hfuel
    obtain ⟨fuel, rfl⟩ := Nat.exists_eq_succ_of_ne_zero (Nat.ne_zero_of_lt hfuel)
    rw [writeItems] at hfuel
    simp only [List.length_append, List.length_cons] at hfuel
    have hrest := ih w fuel cs (fun u hu => hback u (List.mem_cons_of_mem v hu))
      (by simp only [List.length_append, List.length_cons]; omega)
    rw [readItems, writeItems, List.cons_append,
      hback v List.mem_cons_self fuel _ (by omega) (follows_cons (by decide) _)]
    simp only [List.append_assoc, skipGaps_cons (show isGap ',' = false by decide),
      readItems_separator, hrest, Option.map_some, settledItems]

theorem readMembers_write (style : Style) (depth : Nat) (fs : List (Text × Json)) :
    ∀ (k : Text) (v : Json) (fuel : Nat) (cs : List Char),
    (∀ f ∈ (k, v) :: fs, ReadsBack style (depth + 1) f.2) →
    (quote k ++ (style.colon ++ (write style (depth + 1) v ++ (writeFields style (depth + 1) fs ++
      (style.separator depth ++ ['}']))))).length < fuel →
    readMembers fuel (quote k ++ (style.colon ++ (write style (depth + 1) v ++
      (writeFields style (depth + 1) fs ++ (style.separator depth ++ ('}' :: cs)))))) =
      some (settledFields ((k, v) :: fs), cs) := by
  induction fs with
  | nil =>
    intro k v fuel cs hback hfuel
    obtain ⟨fuel, rfl⟩ := Nat.exists_eq_succ_of_ne_zero (Nat.ne_zero_of_lt hfuel)
    simp only [List.length_append, List.length_cons] at hfuel
    have hv : ReadsBack style (depth + 1) v := hback (k, v) List.mem_cons_self
    obtain ⟨rest, hkey, hvalue⟩ := readKey_quote style k fuel (write style (depth + 1) v ++
      (writeFields style (depth + 1) [] ++ (style.separator depth ++ ('}' :: cs))))
    rw [writeFields, List.nil_append] at hkey hvalue
    rw [hv fuel _ (by omega) (follows_separator (follows_cons (by decide) cs))] at hvalue
    rw [readMembers, writeFields, List.nil_append, hkey]
    simp only [hvalue, skipGaps_separator, skipGaps_cons (show isGap '}' = false by decide),
      settledFields]
  | cons f fs ih =>
    intro k v fuel cs hback hfuel
    obtain ⟨fuel, rfl⟩ := Nat.exists_eq_succ_of_ne_zero (Nat.ne_zero_of_lt hfuel)
    rw [writeFields] at hfuel
    simp only [List.length_append, List.length_cons] at hfuel
    have hrest := ih f.1 f.2 fuel cs (fun g hg => hback g (List.mem_cons_of_mem _ hg))
      (by simp only [List.length_append, List.length_cons]; omega)
    have hv : ReadsBack style (depth + 1) v := hback (k, v) List.mem_cons_self
    obtain ⟨rest, hkey, hvalue⟩ := readKey_quote style k fuel (write style (depth + 1) v ++
      (writeFields style (depth + 1) (f :: fs) ++ (style.separator depth ++ ('}' :: cs))))
    rw [writeFields, List.cons_append] at hkey hvalue
    rw [hv fuel _ (by omega) (follows_cons (by decide) _)] at hvalue
    rw [readMembers, writeFields, List.cons_append, hkey]
    simp only [hvalue, List.append_assoc,
      skipGaps_cons (show isGap ',' = false by decide), readMembers_separator, hrest,
      Option.map_some, settledFields]

theorem readValue_array {c : Char} {rest : List Char} (hcs : skipGaps cs = c :: rest)
    (hc : c ≠ ']') (fuel : Nat) :
    readValue (fuel + 1) ('[' :: cs) =
      (readItems fuel (c :: rest)).map fun r => (.array r.1, r.2) := by
  rw [readValue]
  simp only [skipGaps_cons (show isGap '[' = false by decide), hcs]
  split
  · next h => exact absurd (List.head_eq_of_cons_eq h) hc
  · rfl

theorem readValue_object {c : Char} {rest : List Char} (hcs : skipGaps cs = c :: rest)
    (hc : c ≠ '}') (fuel : Nat) :
    readValue (fuel + 1) ('\x7b' :: cs) =
      (readMembers fuel (c :: rest)).map fun r => (ofMembers r.1, r.2) := by
  rw [readValue]
  simp only [skipGaps_cons (show isGap '\x7b' = false by decide), hcs]
  split
  · next h => exact absurd (List.head_eq_of_cons_eq h) hc
  · rfl

theorem readsBack_of_succ {v : Json}
    (h : ∀ fuel cs, (write style depth v).length < fuel + 1 → Follows cs →
      readValue (fuel + 1) (write style depth v ++ cs) = some (v.settled, cs)) :
    ReadsBack style depth v := by
  intro fuel cs hfuel hcs
  obtain ⟨fuel, rfl⟩ := Nat.exists_eq_succ_of_ne_zero (Nat.ne_zero_of_lt hfuel)
  exact h fuel cs hfuel hcs

theorem readValue_numeral {c : Char} (hc : c = '-' ∨ c.isDigit = true) (fuel : Nat) (cs : List Char) :
    readValue (fuel + 1) (c :: cs) = readNumber (c :: cs) := by
  have hne := numeral_ne hc
  have hatom : readAtom (c :: cs) = readNumber (c :: cs) := by
    rw [readAtom]
    all_goals exact fun _ e => absurd (List.head_eq_of_cons_eq e) (hne _ (by simp))
  rw [readValue, skipGaps_cons (isGap_numeral hc), ← hatom]
  split
  any_goals rfl
  all_goals next he => exact absurd (List.head_eq_of_cons_eq he) (hne _ (by simp))

theorem readsBack_number (style : Style) (depth : Nat) (n : Number) :
    ReadsBack style depth (.number n) := by
  refine readsBack_of_succ fun fuel cs _ hcs => ?_
  cases n with
  | infinite =>
    rw [write, readValue]
    rfl
  | finite d shortest =>
    have hread := readNumber_finiteText shortest hcs
    obtain ⟨c, rest, hfirst, hc⟩ := finiteText_cons d
    rw [write, writeNumber, settled]
    rw [hfirst, List.cons_append] at hread ⊢
    rw [readValue_numeral hc, hread]

theorem readsBack_string (style : Style) (depth : Nat) (t : Text) :
    ReadsBack style depth (.string t) := by
  refine readsBack_of_succ fun fuel cs _ _ => ?_
  obtain ⟨body, hquote, hread⟩ := readText_quote t cs
  rw [write, hquote, List.cons_append, readValue]
  simp only [skipGaps_cons (show isGap '"' = false by decide), hread, Option.map_some, settled]

theorem readsBack_array {vs : List Json} (hback : ∀ v ∈ vs, ReadsBack style (depth + 1) v) :
    ReadsBack style depth (.array vs) := by
  refine readsBack_of_succ fun fuel cs hfuel _ => ?_
  cases vs with
  | nil =>
    rw [write, readValue]
    rfl
  | cons v vs =>
    rw [write] at hfuel ⊢
    simp only [List.length_cons, List.length_append] at hfuel
    have hitems := readItems_write style depth vs v fuel cs hback
      (by simp only [List.length_cons, List.length_append]; omega)
    -- The first item keeps the reader from taking the array for an empty one.
    obtain ⟨c, rest, hfirst, hgap, hbracket, -⟩ := write_cons style (depth + 1) v
    rw [hfirst] at hitems ⊢
    simp only [List.cons_append, List.append_assoc, List.nil_append] at hitems ⊢
    rw [readValue_array ((skipGaps_separator style _ _).trans (skipGaps_cons hgap _)) hbracket,
      hitems, Option.map_some, settled]

theorem readsBack_object {fs : List (Text × Json)}
    (hback : ∀ f ∈ fs, ReadsBack style (depth + 1) f.2) : ReadsBack style depth (.object fs) := by
  refine readsBack_of_succ fun fuel cs hfuel _ => ?_
  cases fs with
  | nil =>
    rw [write, readValue]
    rfl
  | cons f fs =>
    rw [write] at hfuel ⊢
    simp only [List.length_cons, List.length_append] at hfuel
    have hmembers := readMembers_write style depth fs f.1 f.2 fuel cs hback
      (by simp only [List.length_cons, List.length_append]; omega)
    obtain ⟨body, hquote, -⟩ := readText_quote f.1 cs
    have hgap : isGap '"' = false := by decide
    rw [hquote] at hmembers ⊢
    simp only [List.cons_append, List.append_assoc, List.nil_append] at hmembers ⊢
    rw [readValue_object ((skipGaps_separator style _ _).trans (skipGaps_cons hgap _)) (by decide),
      hmembers, Option.map_some, settled]

/-- Whatever a value is, what is left of it is read. -/
theorem readsBack (style : Style) (v : Json) : ∀ depth, ReadsBack style depth v := by
  induction v using parts_induction with
  | null =>
    refine fun depth => readsBack_of_succ fun fuel cs _ _ => ?_
    rw [write, readValue]
    rfl
  | bool b =>
    refine fun depth => readsBack_of_succ fun fuel cs _ _ => ?_
    cases b <;> rw [write, readValue] <;> rfl
  | number n => exact fun depth => readsBack_number style depth n
  | string t => exact fun depth => readsBack_string style depth t
  | array vs ih => exact fun depth => readsBack_array fun v hv => ih v hv (depth + 1)
  | object fs ih => exact fun depth => readsBack_object fun f hf => ih f hf (depth + 1)

/-- What is left of a value that is written on one line is what the line is read as. -/
theorem parse_compact (v : Json) : parse v.compact = some v.settled := by
  have hread :=
    readsBack .compact v 0 ((write .compact 0 v).length + 1) [] (Nat.lt_succ_self _) follows_nil
  rw [List.append_nil] at hread
  rw [parse, compact, String.toList_ofList, hread]
  rfl

theorem parse_indented (v : Json) : parse v.indented = some v.settled := by
  have hread :=
    readsBack .indented v 0 ((write .indented 0 v).length + 1) [] (Nat.lt_succ_self _) follows_nil
  rw [List.append_nil] at hread
  rw [parse, indented, String.toList_ofList, hread]
  rfl

/-! ### Plain values -/

/-- Whether a value is written in such a way that it can be read back as it is: its numbers are numerals,
and the fields of its objects are in order. -/
inductive Plain : Json → Prop
  | null : Plain .null
  | bool (b : Bool) : Plain (.bool b)
  | number {n : Number} (numeral : IsNumeral n) : Plain (.number n)
  | string (t : Text) : Plain (.string t)
  | array {vs : List Json} (items : ∀ v ∈ vs, Plain v) : Plain (.array vs)
  | object {fs : List (Text × Json)} (values : ∀ f ∈ fs, Plain f.2)
      (members : ofMembers fs = .object fs) : Plain (.object fs)

theorem settledNumber_of_isNumeral {n : Number} (h : IsNumeral n) : settledNumber n = .number n := by
  cases n with
  | infinite => exact h.elim
  | finite d =>
    have hpositive : ¬(d.digits = 0 ∧ d.negative = true) := by
      rintro ⟨hzero, hnegative⟩
      exact Bool.false_ne_true ((h hzero).symm.trans hnegative)
    rw [settledNumber, if_neg hpositive]

theorem Plain.settled {v : Json} (h : Plain v) : v.settled = v := by
  induction h with
  | null | bool | string => rw [Json.settled]
  | number numeral => rw [Json.settled, settledNumber_of_isNumeral numeral]
  | array _ ih => rw [Json.settled, settledItems_eq_map, List.map_congr_left ih, List.map_id']
  | @object fs _ members ih =>
    have hfields : ∀ f ∈ fs, (f.1, f.2.settled) = f := fun f hf => Prod.ext rfl (ih f hf)
    rw [settled_object members, List.map_congr_left hfields, List.map_id']

theorem Plain.parse_compact {v : Json} (h : Plain v) : parse v.compact = some v := by
  rw [Json.parse_compact, h.settled]

theorem Plain.parse_indented {v : Json} (h : Plain v) : parse v.indented = some v := by
  rw [Json.parse_indented, h.settled]

end Subscription.Json
