import Mathlib.Data.List.Nodup
import Mathlib.Data.List.TakeWhile
import Subscription.Catalog.Cycle
import Subscription.Proofs.Catalog.Requirement

/-!
The search for circles, described without the bound on its depth. `Followed` says how one search
becomes another when the names of a list are visited in turn from the end of a path. Main statements:
the bound is never met, and the search reports a circle if and only if there is one.
-/

namespace Subscription.Catalog

/-- Visiting names in turn takes one search to another. A finished name is passed over, a name of the
path closes a circle, and the requirements of any other one are visited behind it. -/
inductive Followed (requirements : Text → List Text) :
    List Text → List Text → CycleSearch → CycleSearch → Prop
  | done {path : List Text} (s : CycleSearch) : Followed requirements path [] s s
  | pass {path ns : List Text} {n : Text} {s t : CycleSearch} (h : n ∈ s.finished)
      (rest : Followed requirements path ns s t) : Followed requirements path (n :: ns) s t
  | close {path ns between : List Text} {n start : Text} {s t : CycleSearch} (h : n ∉ s.finished)
      (back : path.dropWhile (· ≠ n) = start :: between)
      (rest : Followed requirements path ns
        { s with cycles := s.cycles ++ [start :: between ++ [n]] } t) :
      Followed requirements path (n :: ns) s t
  | enter {path ns : List Text} {n : Text} {s t u : CycleSearch} (h : n ∉ s.finished)
      (fresh : n ∉ path) (below : Followed requirements (path ++ [n]) (requirements n) s t)
      (rest : Followed requirements path ns { t with finished := n :: t.finished } u) :
      Followed requirements path (n :: ns) s u

theorem dropWhile_eq_nil_iff_notMem {path : List Text} {n : Text} :
    path.dropWhile (· ≠ n) = [] ↔ n ∉ path := by
  rw [List.dropWhile_eq_nil_iff]
  constructor
  · intro h hn
    simpa using h n hn
  · intro h m hm
    exact decide_eq_true fun e => h (e ▸ hm)

/-! ### The bound on the depth -/

theorem Followed.append {requirements : Text → List Text} {path ns ms : List Text}
    {s t u : CycleSearch} (h : Followed requirements path ns s t)
    (h' : Followed requirements path ms t u) : Followed requirements path (ns ++ ms) s u := by
  induction h with
  | done s => exact h'
  | pass hn _ ih => exact .pass hn (ih h')
  | close hn back _ ih => exact .close hn back (ih h')
  | enter hn fresh below _ _ ih => exact .enter hn fresh below (ih h')

theorem followed_foldl {requirements : Text → List Text} {fuel : Nat} {path ns : List Text}
    (visit : ∀ n ∈ ns, ∀ s, Followed requirements path [n] s (follow requirements fuel path n s)) :
    ∀ s, Followed requirements path ns s
      (ns.foldl (fun s n => follow requirements fuel path n s) s) := by
  induction ns with
  | nil => exact fun s => .done s
  | cons n ns ih =>
    intro s
    have hrest := ih fun m hm => visit m (List.mem_cons_of_mem _ hm)
    exact (visit n List.mem_cons_self s).append (hrest _)

/-- The depth of a search is not used up, since the names of a path are distinct. -/
theorem followed_follow {requirements : Text → List Text} {names : List Text}
    (hnames : ∀ n, requirements n ≠ [] → n ∈ names) (fuel : Nat) :
    ∀ path n s, path.Nodup → path ⊆ names → names.length < fuel + path.length →
      Followed requirements path [n] s (follow requirements fuel path n s) := by
  induction fuel with
  | zero =>
    intro path n s hnd hsub hlen
    -- A path without repeats is no longer than the catalog.
    have := (hnd.subperm hsub).length_le
    omega
  | succ fuel ih =>
    intro path n s hnd hsub hlen
    by_cases hfin : n ∈ s.finished
    · simp only [follow, hfin, if_true]
      exact .pass hfin (.done s)
    · cases hdrop : path.dropWhile (· ≠ n) with
      | cons start between =>
        simp only [follow, hfin, if_false, hdrop]
        exact .close hfin hdrop (.done _)
      | nil =>
        have hfresh := dropWhile_eq_nil_iff_notMem.mp hdrop
        simp only [follow, hfin, if_false, hdrop]
        refine .enter hfin hfresh (followed_foldl ?_ s) (.done _)
        intro r hr s
        apply ih
        · exact List.nodup_append_comm.mp (by simpa using ⟨hfresh, hnd⟩)
        · exact List.append_subset.mpr ⟨hsub, by simpa using hnames n (List.ne_nil_of_mem hr)⟩
        · simp only [List.length_append, List.length_singleton]
          omega

theorem mem_names_of_otherRequirements {services : List Service} {n : Text}
    (h : otherRequirements services n ≠ []) : n ∈ services.map (·.name) := by
  unfold otherRequirements at h
  split at h
  · next s hs =>
    have hm := List.mem_of_find?_eq_some hs
    have hn : s.name = n := by simpa using List.find?_some hs
    exact List.mem_map.mpr ⟨s, List.mem_reverse.mp hm, hn⟩
  · exact absurd rfl h

/-- The circles of a catalog are those that a visit of all its names meets, however deep it goes. -/
theorem followed_cycles (services : List Service) :
    ∃ finished, Followed (otherRequirements services) [] (services.map (·.name)) ⟨[], []⟩
      ⟨finished, cycles services⟩ := by
  have hvisit : ∀ n ∈ services.map (·.name), ∀ s, Followed (otherRequirements services) [] [n] s
      (follow (otherRequirements services) (services.length + 1) [] n s) := by
    intro n _ s
    apply followed_follow fun _ => mem_names_of_otherRequirements
    · exact List.nodup_nil
    · exact List.nil_subset _
    · simp
  have h := followed_foldl hvisit ⟨[], []⟩
  rw [List.foldl_map] at h
  exact ⟨_, h⟩

/-! ### A circle is reported whenever there is one -/

def Descending (requirements : Text → List Text) : List Text → Prop
  | [] => True
  | n :: ns => (∀ r ∈ requirements n, r ∈ ns) ∧ Descending requirements ns

namespace Descending

variable {requirements : Text → List Text} {ns : List Text}

theorem mem_of_mem (h : Descending requirements ns) {n r : Text} (hn : n ∈ ns)
    (hr : r ∈ requirements n) : r ∈ ns := by
  induction ns with
  | nil => cases hn
  | cons m ns ih =>
    rcases List.mem_cons.mp hn with rfl | hn
    · exact List.mem_cons_of_mem _ (h.1 r hr)
    · exact List.mem_cons_of_mem _ (ih h.2 hn)

theorem mem_of_transGen (h : Descending requirements ns) {n m : Text} (hn : n ∈ ns)
    (hm : LeadsBelow requirements n m) : m ∈ ns := by
  induction hm with
  | single hr => exact h.mem_of_mem hn hr
  | tail _ hr ih => exact h.mem_of_mem ih hr

theorem acyclic (h : Descending requirements ns) {n : Text} (hn : n ∈ ns) :
    ¬LeadsBelow requirements n n := by
  induction ns with
  | nil => cases hn
  | cons m ns ih =>
    intro hloop
    by_cases hm : n ∈ ns
    · exact ih h.2 hm hloop
    · have hnm : n = m := (List.mem_cons.mp hn).resolve_right hm
      -- The first step leads into the rest, and the rest is not left again.
      obtain ⟨r, hr, hback⟩ := Relation.TransGen.head'_iff.mp hloop
      have hrn : r ∈ ns := h.1 r (hnm ▸ hr)
      rcases Relation.reflTransGen_iff_eq_or_transGen.mp hback with heq | hback
      · exact hm (heq ▸ hrn)
      · exact hm (h.2.mem_of_transGen hrn hback)

end Descending

namespace Followed

variable {requirements : Text → List Text} {path ns : List Text} {s t : CycleSearch}

theorem cycles_eq_nil (h : Followed requirements path ns s t) (ht : t.cycles = []) :
    s.cycles = [] := by
  induction h with
  | done s => exact ht
  | pass _ _ ih => exact ih ht
  | close _ _ _ ih => simpa using ih ht
  | enter _ _ _ _ ihb ihr => exact ihb (ihr ht)

theorem finished_subset (h : Followed requirements path ns s t) : s.finished ⊆ t.finished := by
  induction h with
  | done s => exact List.Subset.refl _
  | pass _ _ ih => exact ih
  | close _ _ _ ih => exact ih
  | enter _ _ _ _ ihb ihr =>
    intro m hm
    exact ihr (List.mem_cons_of_mem _ (ihb hm))

/-- A search that meets no circle finishes the names that it visits, each one after all that it
requires. -/
theorem descending (h : Followed requirements path ns s t) (ht : t.cycles = [])
    (hs : Descending requirements s.finished) :
    Descending requirements t.finished ∧ ns ⊆ t.finished := by
  induction h with
  | done s => exact ⟨hs, List.nil_subset _⟩
  | pass hn rest ih =>
    obtain ⟨hd, hsub⟩ := ih ht hs
    exact ⟨hd, List.cons_subset.mpr ⟨rest.finished_subset hn, hsub⟩⟩
  | close _ _ rest _ =>
    have := rest.cycles_eq_nil ht
    simp at this
  | enter _ _ _ rest ihb ihr =>
    obtain ⟨hbelow, hall⟩ := ihb (rest.cycles_eq_nil ht) hs
    obtain ⟨hd, hsub⟩ := ihr ht ⟨hall, hbelow⟩
    exact ⟨hd, List.cons_subset.mpr ⟨rest.finished_subset List.mem_cons_self, hsub⟩⟩

/-! ### No circle is made up -/

/-- Where nothing leads back to itself, nothing that is visited below a path is on it. -/
theorem cycles_eq (h : Followed requirements path ns s t)
    (acyclic : ∀ n, ¬LeadsBelow requirements n n)
    (hpath : ∀ p ∈ path, ∀ n ∈ ns, LeadsBelow requirements p n) : t.cycles = s.cycles := by
  induction h with
  | done s => rfl
  | pass _ _ ih => exact ih fun p hp n hn => hpath p hp n (List.mem_cons_of_mem _ hn)
  | @close path ns between n start s t _ back _ _ =>
    have hn : n ∈ path := by
      by_contra hn
      rw [dropWhile_eq_nil_iff_notMem.mpr hn] at back
      cases back
    exact absurd (hpath n hn n List.mem_cons_self) (acyclic n)
  | @enter path ns n s t u _ _ _ _ ihb ihr =>
    have hbelow := ihb fun p hp r hr => by
      rcases List.mem_append.mp hp with hp | hp
      · exact .tail (hpath p hp n List.mem_cons_self) hr
      · exact .single (List.mem_singleton.mp hp ▸ hr)
    have hrest := ihr fun p hp m hm => hpath p hp m (List.mem_cons_of_mem _ hm)
    exact hrest.trans hbelow

end Followed

/-- The search reports no circle if and only if there is none. -/
theorem cycles_eq_nil_iff {services : List Service} :
    cycles services = [] ↔ ∀ n, ¬LeadsBelow (otherRequirements services) n n := by
  obtain ⟨finished, h⟩ := followed_cycles services
  constructor
  · intro hnil n hloop
    obtain ⟨hdesc, hall⟩ := h.descending hnil trivial
    obtain ⟨r, hr, _⟩ := Relation.TransGen.head'_iff.mp hloop
    have hn : n ∈ services.map (·.name) :=
      mem_names_of_otherRequirements (List.ne_nil_of_mem hr)
    exact hdesc.acyclic (hall hn) hloop
  · intro acyclic
    exact h.cycles_eq acyclic fun p hp => absurd hp List.not_mem_nil

end Subscription.Catalog
