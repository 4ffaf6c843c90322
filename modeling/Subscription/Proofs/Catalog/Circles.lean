import Mathlib.Data.List.Chain
import Subscription.Proofs.Catalog.Document

/-!
What is reported of the circles among services whose fields are as they should be. A circle is cut out of
the path of the search where a requirement leads back onto it; a name is on the path only once, so that a
circle is reported for each time that its last service lists the first one. Main statement: the reports
are circles, there is one whenever there is a circle, and two of them read the same exactly where a
requirement that closes one is listed twice, or names blur where one ends and the next one begins.
-/

namespace Subscription.Catalog

/-- The names of a circle: from a service over at least one other back to it, each requiring the next. -/
def IsCircle (R : Text → Text → Prop) (names : List Text) : Prop :=
  ∃ start between, names = start :: between ++ [start] ∧ between ≠ [] ∧
    (start :: between).Nodup ∧ names.IsChain R

theorem IsCircle.mono {R R' : Text → Text → Prop} {names : List Text} (h : IsCircle R names)
    (himp : ∀ a b, R a b → R' a b) : IsCircle R' names := by
  obtain ⟨start, between, hnames, hbetween, hnodup, hchain⟩ := h
  exact ⟨start, between, hnames, hbetween, hnodup, hchain.imp himp⟩

/-- Every name of a circle is followed by one that it requires. -/
theorem IsCircle.exists_next {R : Text → Text → Prop} {names : List Text} (h : IsCircle R names)
    {n : Text} (hn : n ∈ names) : ∃ m, R n m := by
  obtain ⟨start, between, rfl, _, _, hchain⟩ := h
  have hn : n ∈ start :: between := by
    rcases List.mem_append.mp hn with hn | hn
    · exact hn
    · exact List.mem_singleton.mp hn ▸ List.mem_cons_self
  obtain ⟨l₁, l₂, hsplit⟩ := List.append_of_mem hn
  rw [hsplit, List.append_assoc, List.cons_append] at hchain
  obtain ⟨m, l₃, hrest⟩ := List.exists_cons_of_ne_nil (List.append_ne_nil_of_right_ne_nil l₂
    (List.cons_ne_nil start []))
  rw [hrest, List.isChain_append_cons_cons] at hchain
  exact ⟨m, hchain.2.1⟩

def problemsOf (document : Json) : List Problem :=
  match readDocument document with
  | .ok _ => []
  | .error problems => problems

def Problem.circle? : Problem → Option (List Text)
  | .cycle names => some names
  | _ => none

/-- The circles that are reported for a document, in order. -/
def circlesOf (document : Json) : List (List Text) :=
  (problemsOf document).filterMap Problem.circle?

def circleMessage (names : List Text) : Text :=
  (Problem.cycle names).message

/-! ### The reports are circles -/

theorem eq_of_dropWhile_eq_cons {path between : List Text} {n start : Text}
    (h : path.dropWhile (· ≠ n) = start :: between) : start = n := by
  have hne : path.dropWhile (· ≠ n) ≠ [] := h ▸ List.cons_ne_nil start between
  have hhead := List.head_dropWhile_not (fun m => decide (m ≠ n)) hne
  simp only [h, List.head_cons] at hhead
  simpa using hhead

namespace Followed

variable {requirements : Text → List Text} {path ns : List Text} {s t : CycleSearch}

/-- Where nothing requires itself, a step back onto a path of distinct names closes a circle. -/
theorem circles (h : Followed requirements path ns s t) (irrefl : ∀ n, n ∉ requirements n)
    (distinct : path.Nodup) (chain : ∀ n ∈ ns, (path ++ [n]).IsChain fun a b => b ∈ requirements a)
    (hs : ∀ names ∈ s.cycles, IsCircle (fun a b => b ∈ requirements a) names) :
    ∀ names ∈ t.cycles, IsCircle (fun a b => b ∈ requirements a) names := by
  induction h with
  | done s => exact hs
  | pass _ _ ih => exact ih distinct (fun n hn => chain n (List.mem_cons_of_mem _ hn)) hs
  | @close path ns between n start s t _ back _ ih =>
    apply ih distinct fun m hm => chain m (List.mem_cons_of_mem _ hm)
    intro names hnames
    rcases List.mem_append.mp hnames with hnames | hnames
    · exact hs names hnames
    · rw [List.mem_singleton.mp hnames]
      have hstart := eq_of_dropWhile_eq_cons back
      have hsuffix : start :: between <:+ path := back ▸ List.dropWhile_suffix _
      have hchain : (start :: between ++ [n]).IsChain fun a b => b ∈ requirements a :=
        (chain n List.mem_cons_self).suffix
          ((List.suffix_append_inj_of_length_eq rfl).mpr ⟨hsuffix, rfl⟩)
      refine ⟨start, between, by rw [hstart], ?_, hsuffix.sublist.nodup distinct, hchain⟩
      rintro rfl
      simp only [List.cons_append, List.nil_append, List.isChain_cons_cons] at hchain
      exact irrefl n (hstart ▸ hchain.1)
  | @enter path ns n s t u _ fresh _ _ ihb ihr =>
    apply ihr distinct fun m hm => chain m (List.mem_cons_of_mem _ hm)
    apply ihb
    · exact List.nodup_append_comm.mp (by simpa using ⟨fresh, distinct⟩)
    · intro r hr
      rw [List.append_assoc, List.singleton_append, List.isChain_append_cons_cons]
      exact ⟨chain n List.mem_cons_self, hr, .singleton r⟩
    · exact hs

/-! ### How often a circle is reported -/

variable {front : List Text} {m z : Text}

theorem not_finished (h : Followed requirements path ns s t) {n : Text} (hn : n ∈ path)
    (hs : n ∉ s.finished) : n ∉ t.finished := by
  induction h with
  | done s => exact hs
  | pass _ _ ih => exact ih hn hs
  | close _ _ _ ih => exact ih hn hs
  | enter _ fresh _ _ ihb ihr =>
    apply ihr hn
    rw [List.mem_cons, not_or]
    exact ⟨fun e => fresh (e ▸ hn), ihb (List.mem_append_left _ hn) hs⟩

theorem not_finished_behind {n k : Text} (below : Followed requirements (path ++ [n]) ns s t)
    (fresh : n ∉ path) (hk : k ∈ path) (hs : k ∉ s.finished) : k ∉ n :: t.finished := by
  rw [List.mem_cons, not_or]
  exact ⟨fun e => fresh (e ▸ hk), below.not_finished (List.mem_append_left _ hk) hs⟩

theorem closing_eq_iff {back : List Text} {n : Text} :
    back ++ [n] = front ++ [m, z] ↔ back = front ++ [m] ∧ n = z := by
  rw [List.append_cons front]
  constructor
  · intro h
    exact (List.append_inj' h rfl).imp_right List.head_eq_of_cons_eq
  · rintro ⟨rfl, rfl⟩
    rfl

theorem mem_of_back (h : path.dropWhile (· ≠ z) = front ++ [m]) : z ∈ path ∧ m ∈ path := by
  refine ⟨?_, ?_⟩
  · by_contra hz
    rw [dropWhile_eq_nil_iff_notMem.mpr hz] at h
    simp at h
  · have hsuffix : front ++ [m] <:+ path := h ▸ List.dropWhile_suffix _
    exact hsuffix.subset (by simp)

theorem eq_of_back {n : Text} (h : (path ++ [n]).dropWhile (· ≠ z) = front ++ [m]) : n = m := by
  obtain ⟨before, hbefore⟩ : front ++ [m] <:+ path ++ [n] := h ▸ List.dropWhile_suffix _
  rw [← List.append_assoc] at hbefore
  exact (List.head_eq_of_cons_eq (List.append_inj' hbefore rfl).2).symm

theorem count_report {cycles : List (List Text)} {back : List Text} {n : Text} :
    (cycles ++ [back ++ [n]]).count (front ++ [m, z]) =
      cycles.count (front ++ [m, z]) + if back = front ++ [m] ∧ n = z then 1 else 0 := by
  simp only [List.count_append, List.count_singleton, beq_iff_eq, closing_eq_iff]

/-- A visit from a path that does not close to a circle, at a time when the last service of the circle has
been entered, does not report that circle. -/
theorem count_eq (h : Followed requirements path ns s t)
    (hopen : path.dropWhile (· ≠ z) ≠ front ++ [m]) (hknown : m ∈ s.finished ∨ m ∈ path) :
    t.cycles.count (front ++ [m, z]) = s.cycles.count (front ++ [m, z]) := by
  induction h with
  | done s => rfl
  | pass _ _ ih => exact ih hopen hknown
  | @close path ns between n start s t _ back _ ih =>
    rw [ih hopen hknown, count_report, if_neg, Nat.add_zero]
    rintro ⟨hfront, rfl⟩
    exact hopen (back.trans hfront)
  | @enter path ns n s t u hn fresh below rest ihb ihr =>
    rw [ihr hopen, ihb]
    · intro hback
      obtain rfl := eq_of_back hback
      exact hknown.elim hn fresh
    · exact hknown.imp_right (List.mem_append_left _)
    · exact hknown.imp_left fun hm => List.mem_cons_of_mem _ (below.finished_subset hm)

/-- A visit from a path that closes to a circle reports it each time that the visit comes to its start. -/
theorem count_closing (h : Followed requirements path ns s t)
    (hback : path.dropWhile (· ≠ z) = front ++ [m]) (hz : z ∉ s.finished) :
    t.cycles.count (front ++ [m, z]) = s.cycles.count (front ++ [m, z]) + ns.count z := by
  induction h with
  | done s => simp
  | @pass _ _ n _ _ hn _ ih =>
    have hne : n ≠ z := fun e => hz (e ▸ hn)
    rw [ih hback hz, List.count_cons_of_ne hne]
  | @close path ns between n start s t _ back _ ih =>
    rw [ih hback hz, count_report, List.count_cons, ← back]
    have hiff : (path.dropWhile (· ≠ n) = front ++ [m] ∧ n = z) ↔ n = z :=
      ⟨And.right, fun e => ⟨e ▸ hback, e⟩⟩
    simp only [hiff, beq_iff_eq]
    omega
  | @enter path ns n s t u hn fresh below rest ihb ihr =>
    obtain ⟨hzp, hm⟩ := mem_of_back hback
    have hopen : (path ++ [n]).dropWhile (· ≠ z) ≠ front ++ [m] :=
      fun hback => fresh (eq_of_back hback ▸ hm)
    rw [ihr hback, below.count_eq hopen (Or.inr (List.mem_append_left _ hm)), List.count_cons_of_ne]
    · rintro rfl
      exact fresh hzp
    · exact below.not_finished_behind fresh hzp hz

/-- While the last service of a circle is visited, the circle is reported not at all or each time that
the service lists its start. -/
theorem count_entered (h : Followed requirements (path ++ [m]) ns s t)
    (hpath : ∀ n ∈ path ++ [m], n ∉ s.finished) :
    t.cycles.count (front ++ [m, z]) = s.cycles.count (front ++ [m, z]) ∨
      t.cycles.count (front ++ [m, z]) = s.cycles.count (front ++ [m, z]) + ns.count z := by
  by_cases hback : (path ++ [m]).dropWhile (· ≠ z) = front ++ [m]
  · exact Or.inr (h.count_closing hback (hpath z (mem_of_back hback).1))
  · exact Or.inl (h.count_eq hback (Or.inr (by simp)))

/-- A service is entered at most once, so that a circle is reported, if at all, for each time that its
last service lists its start. -/
theorem count_fresh (h : Followed requirements path ns s t) (hm : m ∉ path)
    (hpath : ∀ n ∈ path, n ∉ s.finished) :
    t.cycles.count (front ++ [m, z]) = s.cycles.count (front ++ [m, z]) ∨
      m ∈ t.finished ∧ t.cycles.count (front ++ [m, z]) =
        s.cycles.count (front ++ [m, z]) + (requirements m).count z := by
  have hopen : ∀ {l : List Text}, m ∉ l → l.dropWhile (· ≠ z) ≠ front ++ [m] :=
    fun hl hback => hl (mem_of_back hback).2
  induction h with
  | done s => exact Or.inl rfl
  | pass _ _ ih => exact ih hm hpath
  | @close path ns between n start s t _ back _ ih =>
    have hsame := @count_report front m z s.cycles (start :: between) n
    rw [if_neg, Nat.add_zero] at hsame
    · rw [← hsame]
      exact ih hm hpath
    · rintro ⟨hfront, rfl⟩
      exact hopen hm (back.trans hfront)
  | @enter path ns n s t u hn fresh below rest ihb ihr =>
    have hbelow : ∀ k ∈ path ++ [n], k ∉ s.finished := by
      intro k hk
      rcases List.mem_append.mp hk with hk | hk
      · exact hpath k hk
      · exact List.mem_singleton.mp hk ▸ hn
    by_cases hnm : n = m
    · -- The last service itself is entered, and the rest of the visit finds it finished.
      subst hnm
      have hrest := rest.count_eq (hopen hm) (Or.inl List.mem_cons_self)
      rw [hrest]
      exact (below.count_entered hbelow).imp_right fun hcount =>
        ⟨rest.finished_subset List.mem_cons_self, hcount⟩
    · rcases ihb (by simp [hm, Ne.symm hnm]) hbelow with hsame | ⟨hfin, hcount⟩
      · rw [← hsame]
        exact ihr hm fun k hk => below.not_finished_behind fresh hk (hpath k hk)
      · have hfin' := List.mem_cons_of_mem n hfin
        have hrest := rest.count_eq (hopen hm) (Or.inl hfin')
        exact Or.inr ⟨rest.finished_subset hfin', hrest.trans hcount⟩

end Followed

/-! ### Reports that read the same -/

/-- What stands before the first blank of a list is determined by it. -/
theorem eq_of_append_blank {α : Type} {blank : α} {x y u v : List α} (hx : blank ∉ x)
    (hy : blank ∉ y) (h : x ++ blank :: u = y ++ blank :: v) : x = y ∧ u = v := by
  induction x generalizing y with
  | nil =>
    cases y with
    | nil => exact ⟨rfl, List.tail_eq_of_cons_eq h⟩
    | cons b y => exact absurd (List.head_eq_of_cons_eq h) (List.ne_of_not_mem_cons hy)
  | cons a x ih =>
    cases y with
    | nil => exact absurd (List.head_eq_of_cons_eq h).symm (List.ne_of_not_mem_cons hx)
    | cons b y =>
      obtain ⟨rfl, hrest⟩ := List.cons_eq_cons.mp h
      exact (ih (List.not_mem_of_not_mem_cons hx) (List.not_mem_of_not_mem_cons hy) hrest).imp_left
        (congrArg _)

/-- Items without a blank can be told from what they make with a separator that starts with one. -/
theorem eq_of_intercalate_eq {α : Type} {blank : α} {rest : List α} {xs ys : List (List α)}
    (hxs : xs ≠ []) (hys : ys ≠ []) (hx : ∀ x ∈ xs, blank ∉ x) (hy : ∀ y ∈ ys, blank ∉ y)
    (h : (blank :: rest).intercalate xs = (blank :: rest).intercalate ys) : xs = ys := by
  induction xs generalizing ys with
  | nil => exact absurd rfl hxs
  | cons x xs ih =>
    cases ys with
    | nil => exact absurd rfl hys
    | cons y ys =>
      rw [List.forall_mem_cons] at hx hy
      cases xs with
      | nil =>
        cases ys with
        | nil => simpa using h
        | cons y' ys =>
          refine absurd ?_ hx.1
          simp only [List.intercalate_singleton, List.intercalate_cons_cons] at h
          simp [h]
      | cons x' xs =>
        cases ys with
        | nil =>
          refine absurd ?_ hy.1
          simp only [List.intercalate_singleton, List.intercalate_cons_cons] at h
          simp [← h]
        | cons y' ys =>
          simp only [List.intercalate_cons_cons, List.append_assoc, List.cons_append] at h
          obtain ⟨rfl, hrest⟩ := eq_of_append_blank hx.1 hy.1 h
          rw [ih (by simp) (by simp) hx.2 hy.2 (List.append_cancel_left hrest)]

/-- Circles of names without a blank read differently. -/
theorem eq_of_circleMessage_eq {xs ys : List Text} (hxs : xs ≠ []) (hys : ys ≠ [])
    (hx : ∀ n ∈ xs, 0x20 ∉ n.units) (hy : ∀ n ∈ ys, 0x20 ∉ n.units)
    (h : circleMessage xs = circleMessage ys) : xs = ys := by
  have hunits : (Text.intercalate " -> " xs).units = (Text.intercalate " -> " ys).units := by
    have h := congrArg Text.units h
    simp only [circleMessage, Problem.message, Text.units_append] at h
    exact List.append_cancel_left (List.append_cancel_right h)
  have hblank : (" -> " : Text).units = 0x20 :: [0x2D, 0x3E, 0x20] := by decide
  have hnames : xs.map Text.units = ys.map Text.units := by
    apply @eq_of_intercalate_eq UInt16 0x20 [0x2D, 0x3E, 0x20]
    · simpa using hxs
    · simpa using hys
    · simpa using hx
    · simpa using hy
    · rw [← hblank]
      exact hunits
  exact List.map_injective_iff.mpr (fun a b hab => by cases a; cases b; exact congrArg _ hab) hnames

/-! ### What is reported for a document -/

/-- What the reported circles have to do with the services. They are circles, there is one if and only if
a service comes back to itself by way of others, each is there as often as its last service lists its
start, and two of them read the same only where a name holds a blank. -/
structure Reported (services : List Service) (circles : List (List Text)) : Prop where
  sound : ∀ names ∈ circles, IsCircle (Requires services) names
  complete : circles ≠ [] ↔
    ∃ n, Relation.TransGen (fun a b => Requires services a b ∧ b ≠ a) n n
  times : ∀ s ∈ services, ∀ front start, front ++ [s.name, start] ∈ circles →
    circles.count (front ++ [s.name, start]) = s.requiredServices.count start
  apart : (∀ s ∈ services, 0x20 ∉ s.name.units) → ∀ xs ∈ circles, ∀ ys ∈ circles,
    circleMessage xs = circleMessage ys → xs = ys

theorem circle?_of_mem_repeatedNames {seen ns : List Text} {p : Problem}
    (h : p ∈ repeatedNames seen ns) : p.circle? = none := by
  induction ns generalizing seen with
  | nil => cases h
  | cons n ns ih =>
    unfold repeatedNames at h
    split at h
    · rcases List.mem_cons.mp h with rfl | h
      · rfl
      · exact ih h
    · exact ih h

theorem circle?_of_mem_requirementProblems {names : List Text} {s : Service} {p : Problem}
    (h : p ∈ requirementProblems names s) : p.circle? = none := by
  obtain ⟨r, _, hp⟩ := List.mem_flatMap.mp h
  split at hp
  · rw [List.mem_singleton.mp hp]
    rfl
  · split at hp
    · cases hp
    · rw [List.mem_singleton.mp hp]
      rfl

variable {services : List Service}

/-- Of the problems across the entries, the circles are those of the search. -/
theorem filterMap_crossProblems :
    (crossProblems services).filterMap Problem.circle? = cycles services := by
  have hrepeated : (repeatedNames [] (services.map (·.name))).filterMap Problem.circle? = [] :=
    List.filterMap_eq_nil_iff.mpr fun p hp => circle?_of_mem_repeatedNames hp
  have hrequired : (services.flatMap (requirementProblems (services.map (·.name)))).filterMap
      Problem.circle? = [] := by
    apply List.filterMap_eq_nil_iff.mpr
    intro p hp
    obtain ⟨s, _, hp⟩ := List.mem_flatMap.mp hp
    exact circle?_of_mem_requirementProblems hp
  have hcircles : ((cycles services).map Problem.cycle).filterMap Problem.circle? =
      cycles services := by
    rw [List.filterMap_map]
    exact List.filterMap_some
  rw [crossProblems, List.filterMap_append, List.filterMap_append, hrepeated, hrequired, hcircles]
  rfl

theorem circlesOf_eq {document : Json} {entries : List Json}
    (hentries : document.get? "services" = some (.array entries))
    (hdescribes : List.Forall₂ Describes entries services) :
    circlesOf document = cycles services := by
  have hread := (@readEntries_eq_iff entries services 0).mpr hdescribes
  have hproblems : problemsOf document = crossProblems services := by
    cases hcross : crossProblems services <;>
      simp [problemsOf, readDocument, hentries, hread, Json.items?, hcross]
  rw [circlesOf, hproblems, filterMap_crossProblems]

theorem otherRequirements_of_mem (distinct : (services.map (·.name)).Nodup) {s : Service}
    (hs : s ∈ services) :
    otherRequirements services s.name = s.requiredServices.filter (· ≠ s.name) := by
  let c : Catalog := ⟨services, distinct⟩
  have hfind : c.find? s.name = some s := find?_eq_some_iff.mpr ⟨hs, rfl⟩
  rw [← requirementsOf_of_find? hfind]
  exact otherRequirements_eq (c := c)

/-- The search reports what there is to report. -/
theorem reported_cycles (distinct : (services.map (·.name)).Nodup) :
    Reported services (cycles services) := by
  have hother : ∀ {n r : Text},
      r ∈ otherRequirements services n ↔ Requires services n r ∧ r ≠ n :=
    @mem_otherRequirements ⟨services, distinct⟩
  obtain ⟨finished, h⟩ := followed_cycles services
  have hsound : ∀ names ∈ cycles services, IsCircle (Requires services) names := by
    intro names hnames
    have hcircle := h.circles (fun n hn => (hother.mp hn).2 rfl) List.nodup_nil
      (fun n _ => .singleton n) (by simp) names hnames
    exact hcircle.mono fun a b hb => (hother.mp hb).1
  refine ⟨hsound, ?_, ?_, ?_⟩
  · have hrel : (fun a b => b ∈ otherRequirements services a) =
        fun a b => Requires services a b ∧ b ≠ a := by
      funext a b
      exact propext hother
    rw [Ne, cycles_eq_nil_iff, LeadsBelow, hrel, not_forall]
    simp only [not_not]
  · intro s hs front start hmem
    have hpos := List.count_pos_iff.mpr hmem
    have hcount : (cycles services).count (front ++ [s.name, start]) =
        (otherRequirements services s.name).count start := by
      rcases h.count_fresh (m := s.name) List.not_mem_nil (by simp) with hzero | ⟨_, hcount⟩
      · rw [hzero] at hpos
        simp at hpos
      · simpa using hcount
    rw [hcount] at hpos ⊢
    have hne : start ≠ s.name := (hother.mp (List.count_pos_iff.mp hpos)).2
    rw [otherRequirements_of_mem distinct hs, List.count_filter (by simpa using hne)]
  · intro hblank xs hxs ys hys hsame
    have hnames : ∀ names ∈ cycles services, names ≠ [] ∧ ∀ n ∈ names, 0x20 ∉ n.units := by
      intro names hnames
      have hcircle := hsound names hnames
      refine ⟨?_, fun n hn => ?_⟩
      · obtain ⟨start, between, rfl, _⟩ := hcircle
        exact List.cons_ne_nil _ _
      · obtain ⟨_, s, hs, rfl, _⟩ := hcircle.exists_next hn
        exact hblank s hs
    exact eq_of_circleMessage_eq (hnames xs hxs).1 (hnames ys hys).1 (hnames xs hxs).2
      (hnames ys hys).2 hsame

theorem IsCircle.eq_append {names : List Text} (h : IsCircle (Requires services) names) :
    ∃ s ∈ services, ∃ front start, names = front ++ [s.name, start] := by
  obtain ⟨start, between, rfl, hbetween, _, hchain⟩ := h
  obtain ⟨front, m, rfl⟩ := between.eq_nil_or_concat.resolve_left hbetween
  have hsplit : start :: front.concat m ++ [start] = (start :: front) ++ [m, start] := by simp
  rw [hsplit] at hchain ⊢
  obtain ⟨s, hs, rfl, _⟩ := (List.isChain_append_cons_cons.mp hchain).2.1
  exact ⟨s, hs, start :: front, start, rfl⟩

/-- No circle is reported twice if and only if none is closed by a requirement that is listed twice. -/
theorem Reported.nodup_iff {circles : List (List Text)} (h : Reported services circles) :
    circles.Nodup ↔ ∀ s ∈ services, ∀ front start, front ++ [s.name, start] ∈ circles →
      s.requiredServices.count start = 1 := by
  rw [List.nodup_iff_count_eq_one]
  constructor
  · intro honce s hs front start hmem
    rw [← h.times s hs front start hmem]
    exact honce _ hmem
  · intro honce names hmem
    obtain ⟨s, hs, front, start, rfl⟩ := (h.sound names hmem).eq_append
    rw [h.times s hs front start hmem]
    exact honce s hs front start hmem

/-- No report of a document whose entries can be read, and whose names differ, is repeated if and only if
no reported circle is closed by a requirement that is listed twice, and no two of them read the same. -/
theorem circle_reports_repeat_iff {document : Json} {entries : List Json}
    (hentries : document.get? "services" = some (.array entries))
    (hdescribes : List.Forall₂ Describes entries services)
    (distinct : (services.map (·.name)).Nodup) :
    Reported services (circlesOf document) ∧
    (((circlesOf document).map circleMessage).Nodup ↔
      (∀ s ∈ services, ∀ front start, front ++ [s.name, start] ∈ circlesOf document →
        s.requiredServices.count start = 1) ∧
      ∀ xs ∈ circlesOf document, ∀ ys ∈ circlesOf document,
        circleMessage xs = circleMessage ys → xs = ys) := by
  rw [circlesOf_eq hentries hdescribes]
  have h := reported_cycles distinct
  refine ⟨h, ?_⟩
  rw [← h.nodup_iff]
  constructor
  · intro hmessages
    have hnodup := List.Nodup.of_map _ hmessages
    exact ⟨hnodup, (List.nodup_map_iff_inj_on hnodup).mp hmessages⟩
  · rintro ⟨hnodup, hsame⟩
    exact (List.nodup_map_iff_inj_on hnodup).mpr hsame

def doubleDocument : Json :=
  documentOf [plainEntry "jammy" "a" ["b"], plainEntry "jammy" "b" ["a", "a"]]

def doubleServices : List Service :=
  [plainService "jammy" "a" ["b"], plainService "jammy" "b" ["a", "a"]]

theorem describes_double :
    List.Forall₂ Describes [plainEntry "jammy" "a" ["b"], plainEntry "jammy" "b" ["a", "a"]]
      doubleServices :=
  (@readEntries_eq_iff _ _ 0).mp rfl

/-- Its one circle is reported twice in the same words. -/
theorem circle_is_reported_twice :
    ¬∀ (document : Json) (entries : List Json) (services : List Service),
      document.get? "services" = some (.array entries) →
      List.Forall₂ Describes entries services → (services.map (·.name)).Nodup →
      (∀ names ∈ circlesOf document, IsCircle (Requires services) names) ∧
      (circlesOf document ≠ [] ↔
        ∃ n, Relation.TransGen (fun a b => Requires services a b ∧ b ≠ a) n n) ∧
      ((circlesOf document).map circleMessage).Nodup := by
  intro hdistinct
  have hmessages := (hdistinct doubleDocument _ _ rfl describes_double (by decide)).2.2
  have htwice : circlesOf doubleDocument = ([["a", "b", "a"], ["a", "b", "a"]] : List (List Text)) :=
    rfl
  simp [htwice] at hmessages

/-- The circle of the two services is there as often as `b` lists `a`. -/
theorem circle_reports_repeat_double :
    Reported doubleServices (circlesOf doubleDocument) ∧
    ¬((circlesOf doubleDocument).map circleMessage).Nodup := by
  have h := @circle_reports_repeat_iff doubleServices doubleDocument _ rfl describes_double
    (by decide)
  refine ⟨h.1, fun hnodup => ?_⟩
  have honce := (h.2.mp hnodup).1 (plainService "jammy" "b" ["a", "a"]) (by simp [doubleServices])
    ["a"] "a" (by decide)
  exact absurd honce (by decide)

end Subscription.Catalog
