import Mathlib.Data.List.TakeWhile
import Subscription.Host.OsRelease
import Subscription.Proofs.Files.Path

/-!
Descriptions of the operating system, read back. `Writes` says which lines write some fields: each field
has a line of its own, with its value in quotation marks or bare, and comments and blank lines may stand
anywhere. Main statement: whatever the values hold, the fields that were written are read from the lines,
and nothing else.
-/

namespace Subscription

/-! ### Blanks at the ends -/

namespace Characters

variable {c : Char} {before cs after : List Char}

theorem dropEndBlanks_append (h : ∀ c ∈ after, isBlank c = true) (cs : List Char) :
    dropEndBlanks (cs ++ after) = dropEndBlanks cs := by
  have hreverse : ∀ c ∈ after.reverse, isBlank c = true := fun c hc => h c (List.mem_reverse.mp hc)
  rw [dropEndBlanks, List.reverse_append, List.dropWhile_append_of_pos hreverse, dropEndBlanks]

theorem dropEndBlanks_eq_self (h : ∀ c ∈ cs.getLast?, isBlank c = false) : dropEndBlanks cs = cs := by
  rcases List.eq_nil_or_concat cs with rfl | ⟨ds, c, rfl⟩
  · rfl
  · have hc : isBlank c = false := h c (by simp)
    simp [dropEndBlanks, hc]

theorem dropEndBlanks_cons (h : isBlank c = false) (cs : List Char) :
    dropEndBlanks (c :: cs) = c :: dropEndBlanks cs := by
  rw [dropEndBlanks, List.reverse_cons, List.dropWhile_append]
  split
  · next hblank => simp [dropEndBlanks, h, List.isEmpty_iff.mp hblank]
  · simp [dropEndBlanks]

/-- The blanks before and after a string are gone, up to its first and last characters. -/
theorem trim_padded (hbefore : ∀ c ∈ before, isBlank c = true) (hafter : ∀ c ∈ after, isBlank c = true)
    (first : ∀ c ∈ cs.head?, isBlank c = false) (last : ∀ c ∈ cs.getLast?, isBlank c = false) :
    trim (String.ofList (before ++ (cs ++ after))) = String.ofList cs := by
  rw [trim, String.toList_ofList, List.dropWhile_append_of_pos hbefore]
  cases cs with
  | nil =>
    have hall : after.dropWhile isBlank = [] := List.dropWhile_eq_nil_iff.mpr hafter
    rw [List.nil_append, hall]
    rfl
  | cons c cs =>
    have hc : isBlank c = false := first c rfl
    rw [List.cons_append, List.dropWhile_cons_of_neg (by simp [hc]), ← List.cons_append,
      dropEndBlanks_append hafter, dropEndBlanks_eq_self last]

end Characters

namespace OsRelease

open Characters

/-! ### Lines that write fields -/

def Padding (cs : List Char) : Prop :=
  ∀ c ∈ cs, isBlank c = true ∧ c ≠ '\n'

/-- A key that can be given a value. -/
structure IsKey (key : String) : Prop where
  notEmpty : key ≠ ""
  noEquals : '=' ∉ key.toList
  noBlank : ∀ c ∈ key.toList, isBlank c = false
  noComment : key.toList.head? ≠ some '#'
  notReserved : key ≠ reservedKey

def OneLine (value : String) : Prop :=
  ∀ c ∈ value.toList, isLineEnd c = false

def IsMark (q : Char) : Prop :=
  q = '"' ∨ q = '\''

def Enclosed (cs : List Char) : Prop :=
  ∃ q inner, IsMark q ∧ cs = q :: (inner ++ [q])

/-- How a value can be written after the equals sign: between two equal marks, or bare if it has nothing to
lose that way, neither white space at its end nor a pair of marks around it. -/
inductive Spells (value : List Char) : List Char → Prop
  | quoted {q : Char} (mark : IsMark q) : Spells value (q :: (value ++ [q]))
  | bare (last : ∀ c ∈ value.getLast?, isBlank c = false) (unenclosed : ¬Enclosed value) :
      Spells value value

/-- Lines that write some fields one after the other, with white space around what is on a line, and with
blank lines and comments anywhere. -/
inductive Writes : List (List Char) → List (String × String) → Prop
  | nil : Writes [] []
  | blank {padding : List Char} {lines : List (List Char)} {fields : List (String × String)}
      (hpadding : Padding padding) (rest : Writes lines fields) : Writes (padding :: lines) fields
  | comment {padding note : List Char} {lines : List (List Char)} {fields : List (String × String)}
      (hpadding : Padding padding) (hnote : '\n' ∉ note) (rest : Writes lines fields) :
      Writes ((padding ++ '#' :: note) :: lines) fields
  | field {before written after : List Char} {key value : String} {lines : List (List Char)}
      {fields : List (String × String)} (hbefore : Padding before) (hafter : Padding after)
      (spells : Spells value.toList written) (rest : Writes lines fields) :
      Writes ((before ++ (key.toList ++ '=' :: written ++ after)) :: lines) ((key, value) :: fields)

variable {key value : String} {before after padding note written : List Char}
  {lines : List (List Char)} {fields : List (String × String)}

instance (key : String) : Decidable (IsKey key) :=
  decidable_of_iff (key ≠ "" ∧ '=' ∉ key.toList ∧ key.toList.any isBlank = false ∧
      key.toList.head? ≠ some '#' ∧ key ≠ reservedKey)
    ⟨fun h => ⟨h.1, h.2.1, by simpa using h.2.2.1, h.2.2.2.1, h.2.2.2.2⟩,
      fun h => ⟨h.notEmpty, h.noEquals, by simpa using h.noBlank, h.noComment, h.notReserved⟩⟩

instance (cs : List Char) : Decidable (Padding cs) :=
  List.decidableBAll (fun c => isBlank c = true ∧ c ≠ '\n') cs

instance (value : String) : Decidable (OneLine value) :=
  List.decidableBAll (isLineEnd · = false) value.toList

theorem Padding.blank (h : Padding padding) : ∀ c ∈ padding, isBlank c = true :=
  fun c hc => (h c hc).1

theorem Padding.newline_not_mem (h : Padding padding) : '\n' ∉ padding :=
  fun hmem => (h '\n' hmem).2 rfl

/-! ### Values -/

theorem unquote_quoted {q : Char} (mark : IsMark q) {cs : List Char}
    (h : ∀ c ∈ cs, isLineEnd c = false) : unquote (q :: (cs ++ [q])) = cs := by
  have hends : cs.any isLineEnd = false := List.any_eq_false.mpr fun c hc => by simp [h c hc]
  rcases mark with rfl | rfl
  all_goals simp [unquote, hends]

theorem unquote_of_not_enclosed {cs : List Char} (h : ¬Enclosed cs) : unquote cs = cs := by
  cases cs with
  | nil => rfl
  | cons q rest =>
    rw [unquote]
    split
    · next hmarks =>
      simp only [Bool.and_eq_true, Bool.or_eq_true, decide_eq_true_eq] at hmarks
      obtain ⟨⟨mark, hlast⟩, -⟩ := hmarks
      obtain ⟨inner, rfl⟩ := List.getLast?_eq_some_iff.mp hlast
      exact absurd ⟨q, inner, mark, rfl⟩ h
    · rfl

theorem Spells.unquote (h : Spells value.toList written) (hvalue : OneLine value) :
    unquote written = value.toList := by
  cases h with
  | quoted mark => exact unquote_quoted mark hvalue
  | bare _ hopen => exact unquote_of_not_enclosed hopen

theorem Spells.last (h : Spells value.toList written) :
    ∀ c ∈ written.getLast?, isBlank c = false := by
  cases h with
  | quoted mark =>
    intro c hc
    rw [← List.cons_append, List.getLast?_concat, Option.mem_some_iff] at hc
    subst hc
    rcases mark with rfl | rfl
    all_goals decide
  | bare last _ => exact last

theorem Spells.newline_not_mem (h : Spells value.toList written) (hvalue : OneLine value) :
    '\n' ∉ written := by
  have hnewline : '\n' ∉ value.toList := fun hmem => absurd (hvalue '\n' hmem) (by decide)
  cases h with
  | quoted mark =>
    rcases mark with rfl | rfl
    all_goals simp [hnewline]
  | bare => exact hnewline

/-! ### Lines -/

theorem entry_blank (h : Padding padding) : entry? padding = none := by
  have htrim : trim (String.ofList (padding ++ ([] ++ []))) = String.ofList [] :=
    trim_padded h.blank nofun nofun nofun
  rw [List.nil_append, List.append_nil] at htrim
  simp [htrim, entry?]

theorem entry_comment (h : Padding padding) (note : List Char) :
    entry? (padding ++ '#' :: note) = none := by
  have htrim : trim (String.ofList (padding ++ '#' :: note)) =
      String.ofList ('#' :: dropEndBlanks note) := by
    rw [trim, String.toList_ofList, List.dropWhile_append_of_pos h.blank,
      List.dropWhile_cons_of_neg (by decide), dropEndBlanks_cons (by decide)]
  simp only [htrim, entry?, String.toList_ofList, Bool.or_eq_true, decide_eq_true_eq]
  exact if_pos (.inl (.inl rfl))

theorem takeWhile_key (hkey : '=' ∉ key.toList) (cs : List Char) :
    (key.toList ++ '=' :: cs).takeWhile (· ≠ '=') = key.toList := by
  have hall : ∀ c ∈ key.toList, decide (c ≠ '=') = true := fun c hc =>
    decide_eq_true fun heq => hkey (heq ▸ hc)
  rw [List.takeWhile_append_of_pos hall, List.takeWhile_cons_of_neg (by simp), List.append_nil]

/-- The line of a field gives its key and its value. -/
theorem entry_field (hkey : IsKey key) (hvalue : OneLine value)
    (spells : Spells value.toList written) (hbefore : Padding before) (hafter : Padding after) :
    entry? (before ++ (key.toList ++ '=' :: written ++ after)) = some (key, value) := by
  obtain ⟨c, cs, hcs⟩ : ∃ c cs, key.toList = c :: cs :=
    List.exists_cons_of_ne_nil (by simp [hkey.notEmpty])
  have hhead : (key.toList ++ '=' :: written).head? = key.toList.head? := by simp [hcs]
  have first : ∀ c ∈ (key.toList ++ '=' :: written).head?, isBlank c = false := by
    rw [hhead]
    exact fun c hc => hkey.noBlank c (List.mem_of_mem_head? hc)
  have last : ∀ c ∈ (key.toList ++ '=' :: written).getLast?, isBlank c = false := by
    rw [List.getLast?_append]
    cases hwritten : written.getLast? with
    | none => simp [List.getLast?_cons, hwritten, isBlank]
    | some d => simpa [List.getLast?_cons, hwritten] using spells.last d hwritten
  have hkeyed : ¬((key.toList ++ '=' :: written).head? = some '#' ∨ key.toList = [] ∨
      key.toList = key.toList ++ '=' :: written) := by
    rw [hhead]
    simp [hkey.noComment, hkey.notEmpty]
  have hrest : (key.toList ++ '=' :: written).drop (key.toList.length + 1) = written := by simp
  simp only [trim_padded hbefore.blank hafter.blank first last, entry?, String.toList_ofList,
    takeWhile_key hkey.noEquals, Bool.or_eq_true, decide_eq_true_eq, or_assoc]
  rw [if_neg hkeyed, hrest, spells.unquote hvalue, String.ofList_toList, String.ofList_toList]

/-! ### Descriptions -/

theorem Writes.newline_not_mem (h : Writes lines fields) (keys : ∀ f ∈ fields, IsKey f.1)
    (values : ∀ f ∈ fields, OneLine f.2) : ∀ line ∈ lines, '\n' ∉ line := by
  induction h with
  | nil => exact nofun
  | blank hpadding _ ih => exact List.forall_mem_cons.mpr ⟨hpadding.newline_not_mem, ih keys values⟩
  | comment hpadding hnote _ ih =>
    exact List.forall_mem_cons.mpr ⟨by simp [hpadding.newline_not_mem, hnote], ih keys values⟩
  | field hbefore hafter spells _ ih =>
    rw [List.forall_mem_cons] at keys values
    have hkey : '\n' ∉ _ := fun hmem => absurd (keys.1.noBlank '\n' hmem) (by decide)
    have hwritten := spells.newline_not_mem values.1
    exact List.forall_mem_cons.mpr
      ⟨by simp [hbefore.newline_not_mem, hafter.newline_not_mem, hkey, hwritten], ih keys.2 values.2⟩

theorem Writes.entries (h : Writes lines fields) (keys : ∀ f ∈ fields, IsKey f.1)
    (values : ∀ f ∈ fields, OneLine f.2) : lines.filterMap entry? = fields := by
  induction h with
  | nil => rfl
  | blank hpadding _ ih => rw [List.filterMap_cons_none (entry_blank hpadding), ih keys values]
  | comment hpadding _ _ ih =>
    rw [List.filterMap_cons_none (entry_comment hpadding _), ih keys values]
  | field hbefore hafter spells _ ih =>
    rw [List.forall_mem_cons] at keys values
    rw [List.filterMap_cons_some (entry_field keys.1 values.1 spells hbefore hafter),
      ih keys.2 values.2]

/-- Values given to different keys are all kept. -/
theorem collect_eq_append (fields : List (String × String)) :
    ∀ known : List (String × String), ((known ++ fields).map (·.1)).Nodup →
      (∀ f ∈ fields, f.1 ≠ reservedKey) →
      fields.foldl (fun fields e =>
        if e.1 = reservedKey then fields else fields.filter (·.1 ≠ e.1) ++ [e]) known =
          known ++ fields := by
  induction fields with
  | nil => simp
  | cons f fields ih =>
    intro known distinct hreserved
    obtain ⟨hf, hfields⟩ := List.forall_mem_cons.mp hreserved
    have hnew : known.filter (·.1 ≠ f.1) = known := by
      refine List.filter_eq_self.mpr fun g hg => decide_eq_true ?_
      rw [List.map_append, List.map_cons] at distinct
      exact (List.nodup_append.mp distinct).2.2 g.1 (List.mem_map_of_mem hg) f.1 List.mem_cons_self
    rw [List.foldl_cons, if_neg hf, hnew, ih (known ++ [f]) (by simpa using distinct) hfields,
      List.append_assoc, List.singleton_append]

/-- Fields with keys of their own are read back from any lines that write them: these keys with these
values, whatever marks, equals signs and blanks the values hold, and no others. -/
theorem parse_writes (distinct : (fields.map (·.1)).Nodup) (keys : ∀ f ∈ fields, IsKey f.1)
    (values : ∀ f ∈ fields, OneLine f.2) (writes : Writes lines fields) :
    parse (String.ofList (['\n'].intercalate lines)) = fields := by
  have hentries : (pieces '\n' (['\n'].intercalate lines)).filterMap entry? = fields := by
    by_cases hlines : lines = []
    · subst hlines
      cases writes
      rfl
    · rw [pieces_intercalate hlines (writes.newline_not_mem keys values), writes.entries keys values]
  rw [parse, String.toList_ofList, hentries,
    collect_eq_append fields [] distinct fun f hf => (keys f hf).notReserved, List.nil_append]

theorem parse_writes_quoted :
    parse "# NAME=no\n\tNAME=\"a \"b\" = 'c' # d \" \r\n\nID='it's'\nURL=a=b\"c\t" =
      [("NAME", "a \"b\" = 'c' # d "), ("ID", "it's"), ("URL", "a=b\"c")] := by
  have unenclosed : ¬Enclosed "a=b\"c".toList := by
    rintro ⟨q, inner, rfl | rfl, h⟩
    all_goals exact absurd (List.cons.inj h).1 (by decide)
  have last : ∀ c ∈ "a=b\"c".toList.getLast?, isBlank c = false := by
    intro c hc
    obtain rfl : 'c' = c := Option.some.inj hc
    decide
  have nothing : Padding [] := nofun
  have tab : Padding ['\t'] := by decide
  have writes : Writes _ [("NAME", "a \"b\" = 'c' # d "), ("ID", "it's"), ("URL", "a=b\"c")] :=
    .comment nothing (show '\n' ∉ " NAME=no".toList by decide) <|
    .field tab (show Padding [' ', '\r'] by decide) (.quoted (.inl rfl)) <|
    .blank nothing <|
    .field nothing nothing (.quoted (.inr rfl)) <|
    .field nothing tab (.bare last unenclosed) .nil
  have hparse := parse_writes (by decide) (by decide) (by decide) writes
  exact hparse

end OsRelease

end Subscription
