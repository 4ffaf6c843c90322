import Subscription.Files.Path

/-!
Where paths lead. The steps of a path come apart at its slashes, and a step that is a name is the last
one of the place that a path ending in it leads to, whatever the steps before it.
-/

namespace Subscription

namespace Characters

variable {separator : Char}

theorem pieces_cons (separator c : Char) (cs : List Char) :
    pieces separator (c :: cs) =
      if c = separator then [] :: pieces separator cs
      else (pieces separator cs).modifyHead (c :: ·) := by
  rw [pieces]
  cases hp : pieces separator cs with
  | nil => exact absurd hp (pieces_ne_nil separator cs)
  | cons p ps => rfl

theorem pieces_append_separator (cs ds : List Char) :
    pieces separator (cs ++ separator :: ds) = pieces separator cs ++ pieces separator ds := by
  induction cs with
  | nil => simp [pieces]
  | cons c cs ih =>
    rw [List.cons_append, pieces_cons, pieces_cons, ih]
    split
    · rfl
    · cases hp : pieces separator cs with
      | nil => exact absurd hp (pieces_ne_nil separator cs)
      | cons p ps => rfl

theorem pieces_eq_single {cs : List Char} (h : separator ∉ cs) : pieces separator cs = [cs] := by
  induction cs with
  | nil => rfl
  | cons c cs ih =>
    simp only [List.mem_cons, not_or] at h
    rw [pieces_cons, if_neg (Ne.symm h.1), ih h.2]
    rfl

theorem not_mem_of_mem_pieces {cs piece : List Char} (h : piece ∈ pieces separator cs) :
    separator ∉ piece := by
  induction cs generalizing piece with
  | nil => simp_all [pieces]
  | cons c cs ih =>
    rw [pieces_cons] at h
    split at h
    · rcases List.mem_cons.mp h with rfl | h
      · exact List.not_mem_nil
      · exact ih h
    · next hc =>
      cases hp : pieces separator cs with
      | nil => exact absurd hp (pieces_ne_nil separator cs)
      | cons p ps =>
        rw [hp] at h ih
        rcases List.mem_cons.mp h with rfl | h
        · have hhead := ih List.mem_cons_self
          simp_all [eq_comm]
        · exact ih (List.mem_cons_of_mem p h)

theorem pieces_intercalate {ps : List (List Char)} (hne : ps ≠ [])
    (h : ∀ p ∈ ps, separator ∉ p) : pieces separator ([separator].intercalate ps) = ps := by
  induction ps with
  | nil => exact absurd rfl hne
  | cons p ps ih =>
    have hp := pieces_eq_single (h p List.mem_cons_self)
    by_cases hps : ps = []
    · rw [hps, List.intercalate_singleton, hp]
    · rw [List.intercalate_cons_of_ne_nil hps, List.append_assoc, List.singleton_append,
        pieces_append_separator, hp, ih hps fun q hq => h q (List.mem_cons_of_mem p hq)]
      rfl

end Characters

namespace Path

structure IsName (step : String) : Prop where
  noSlash : '/' ∉ step.toList
  notEmpty : step ≠ ""
  notHere : step ≠ "."
  notUp : step ≠ ".."

instance (step : String) : Decidable (IsName step) :=
  decidable_of_iff ('/' ∉ step.toList ∧ step ≠ "" ∧ step ≠ "." ∧ step ≠ "..")
    ⟨fun h => ⟨h.1, h.2.1, h.2.2.1, h.2.2.2⟩, fun h => ⟨h.noSlash, h.notEmpty, h.notHere, h.notUp⟩⟩

/-! ### Steps -/

theorem steps_append_slash (a b : String) : steps (a ++ "/" ++ b) = steps a ++ steps b := by
  have h : (a ++ "/" ++ b).toList = a.toList ++ '/' :: b.toList := by
    simp [String.toList_append]
  rw [steps, h, Characters.pieces_append_separator, List.map_append]
  rfl

theorem steps_of_noSlash {step : String} (h : '/' ∉ step.toList) : steps step = [step] := by
  rw [steps, Characters.pieces_eq_single h, List.map_singleton, String.ofList_toList]

theorem noSlash_of_mem_steps {path step : String} (h : step ∈ steps path) : '/' ∉ step.toList := by
  obtain ⟨piece, hpiece, rfl⟩ := List.mem_map.mp h
  rw [String.toList_ofList]
  exact Characters.not_mem_of_mem_pieces hpiece

theorem steps_intercalate {ss : List String} (hne : ss ≠ [])
    (h : ∀ s ∈ ss, '/' ∉ s.toList) : steps ("/".intercalate ss) = ss := by
  have hpieces : Characters.pieces '/' (['/'].intercalate (ss.map String.toList)) =
      ss.map String.toList :=
    Characters.pieces_intercalate (by simpa using hne) (List.forall_mem_map.mpr h)
  rw [steps, String.toList_intercalate]
  show (Characters.pieces '/' (['/'].intercalate (ss.map String.toList))).map String.ofList = ss
  rw [hpieces, List.map_map]
  simp [Function.comp_def]

/-! ### Following steps -/

variable {keepUp : Bool}

theorem follow_append_name {step : String} (h : IsName step) (taken ss : List String) :
    follow keepUp taken (ss ++ [step]) = follow keepUp taken ss ++ [step] := by
  fun_induction follow keepUp taken ss with
  | case1 taken => simp [follow, h.notEmpty, h.notHere, h.notUp]
  | _ => simp_all [follow]

theorem forall_mem_follow {P : String → Prop} {taken ss : List String} (_ : P "..")
    (htaken : ∀ s ∈ taken, P s) (hss : ∀ s ∈ ss, P s) : ∀ s ∈ follow keepUp taken ss, P s := by
  fun_induction follow keepUp taken ss with
  | case1 taken => simpa using htaken
  | _ => simp_all

theorem follow_of_leads {taken ss : List String} (h : ∀ s ∈ ss, s ≠ "" ∧ s ≠ "." ∧ s ≠ "..") :
    follow keepUp taken ss = taken.reverse ++ ss := by
  fun_induction follow keepUp taken ss with
  | case1 taken => simp
  | _ => simp_all

theorem follow_replicate_up (ups : Nat) (ss : List String) :
    follow false [] (List.replicate ups ".." ++ ss) = follow false [] ss := by
  induction ups with
  | zero => rfl
  | succ ups ih => simpa [List.replicate_succ, follow] using ih

/-- Steps taken once lead to the same place when they are taken again. Those back from the start, which
`keepUp` keeps, come first and have no effect there. -/
theorem follow_follow {taken : List String} (ups : Nat) (ss : List String)
    (h : ∀ s ∈ taken, s ≠ "" ∧ s ≠ "." ∧ s ≠ "..") (kept : keepUp = false → ups = 0) :
    follow false [] (follow keepUp (taken ++ List.replicate ups "..") ss) =
      follow false taken ss := by
  induction ss generalizing taken ups with
  | nil =>
    simp only [follow, List.reverse_append, List.reverse_replicate, follow_replicate_up]
    exact follow_of_leads fun s hs => h s (List.mem_reverse.mp hs)
  | cons s ss ih =>
    by_cases hskip : s = "" ∨ s = "."
    · simpa only [follow, if_pos hskip] using ih ups h kept
    · by_cases hup : s = ".."
      · cases taken with
        | nil =>
          cases keepUp with
          | false => simpa [follow, hup, kept rfl] using ih ups h kept
          | true =>
            -- Nothing is left to go back from, so one more step back stands at the start.
            have hmore : follow false [] (follow true ([] ++ List.replicate (ups + 1) "..") ss) =
                follow false [] ss := ih (ups + 1) h nofun
            cases ups <;> simpa [follow, hup, List.replicate_succ] using hmore
        | cons last earlier =>
          have hlast := (h last List.mem_cons_self).2.2
          simpa [follow, hup, hlast] using
            ih ups (fun t ht => h t (List.mem_cons_of_mem last ht)) kept
      · simp only [follow, if_neg hskip, if_neg hup]
        have htaken : ∀ t ∈ s :: taken, t ≠ "" ∧ t ≠ "." ∧ t ≠ ".." := by
          intro t ht
          rcases List.mem_cons.mp ht with rfl | ht
          · exact ⟨fun e => hskip (Or.inl e), fun e => hskip (Or.inr e), hup⟩
          · exact h t ht
        exact ih ups htaken kept

/-! ### Joined paths -/

theorem endsOpen_append_name {step : String} (h : IsName step) (path : String) :
    endsOpen (path ++ step) = false := by
  have hne : step.toList ≠ [] := fun e => h.notEmpty (String.toList_eq_nil_iff.mp e)
  rw [endsOpen, String.toList_append, List.getLast?_append, List.getLast?_eq_some_getLast hne]
  refine decide_eq_false fun e => h.noSlash ?_
  rw [Option.some_or, Option.some.injEq] at e
  exact e ▸ List.getLast_mem hne

theorem intercalate_append_single (ss : List String) (step : String) :
    ∃ front, "/".intercalate (ss ++ [step]) = front ++ step := by
  by_cases hnil : ss = []
  · exact ⟨"", by simp [hnil]⟩
  · rw [String.intercalate_append_of_ne_nil hnil (List.cons_ne_nil step []),
      String.intercalate_singleton]
    exact ⟨_, rfl⟩

theorem fromRoot_empty : fromRoot "" = [] := by decide

theorem fromRoot_slash (path : String) : fromRoot ("/" ++ path) = fromRoot path := by
  have h := steps_append_slash "" path
  rw [String.empty_append] at h
  rw [fromRoot, h, show steps "" = [""] from rfl]
  rfl

/-- The shortest form of a path leads to the same place, when the path ends in a name. -/
theorem target_normalize {path step : String} {ss : List String} (h : IsName step)
    (hsteps : steps path = ss ++ [step]) (hclosed : endsOpen path = false) :
    target (normalize path) = ⟨follow false [] ss ++ [step], false⟩ := by
  have hbody (keepUp : Bool) : steps ("/".intercalate (follow keepUp [] ss ++ [step])) =
      follow keepUp [] ss ++ [step] := by
    refine steps_intercalate (by simp) ?_
    rw [← follow_append_name h, ← hsteps]
    exact forall_mem_follow (by decide) nofun fun s hs => noSlash_of_mem_steps hs
  have hfilled (keepUp : Bool) : "/".intercalate (follow keepUp [] ss ++ [step]) ≠ "" := by
    intro e
    have hempty := hbody keepUp
    rw [e] at hempty
    have hlast : step ∈ steps "" := hempty ▸ List.mem_append_right _ (List.mem_singleton_self step)
    exact h.notEmpty (List.mem_singleton.mp hlast)
  have hroot (keepUp : Bool) : fromRoot ("/".intercalate (follow keepUp [] ss ++ [step])) =
      follow false [] ss ++ [step] := by
    have hnone : ∀ s ∈ ([] : List String), s ≠ "" ∧ s ≠ "." ∧ s ≠ ".." := nofun
    rw [fromRoot, hbody, follow_append_name h]
    exact congrArg (· ++ [step]) (follow_follow 0 ss hnone fun _ => rfl)
  have hend (keepUp : Bool) (slash : String) :
      endsOpen (slash ++ "/".intercalate (follow keepUp [] ss ++ [step])) = false := by
    obtain ⟨front, hfront⟩ := intercalate_append_single (follow keepUp [] ss) step
    rw [hfront, ← String.append_assoc]
    exact endsOpen_append_name h _
  unfold normalize
  simp only [hsteps, follow_append_name h, hclosed, if_neg (hfilled _)]
  by_cases habsolute : path.toList.head? = some '/'
  · simp only [habsolute, decide_true, Bool.not_true, if_true, if_false, Bool.false_eq_true,
      String.append_empty]
    rw [target, fromRoot_slash, hroot, hend]
  · simp only [habsolute, decide_false, Bool.not_false, if_false, Bool.false_eq_true,
      String.append_empty]
    rw [target, hend, String.empty_append, hroot]

def place (path name : String) : List String :=
  fromRoot path ++ [name]

/-- Joining a name to a path leads to what has that name below the place of the path. -/
theorem target_join {name : String} (h : IsName name) (path : String) :
    target (join [path, name]) = ⟨place path name, false⟩ := by
  rw [join]
  by_cases hpath : path = ""
  · have hclosed : endsOpen name = false := by simpa using endsOpen_append_name h ""
    have hjoined : [path, name].filter (· ≠ "") = [name] := by simp [hpath, h.notEmpty]
    have hsteps : steps name = [] ++ [name] := steps_of_noSlash h.noSlash
    rw [hjoined, hpath, String.intercalate_singleton, place, fromRoot_empty]
    exact target_normalize h hsteps hclosed
  · have hjoined : [path, name].filter (· ≠ "") = [path, name] := by simp [hpath, h.notEmpty]
    rw [hjoined]
    refine target_normalize h ?_ (endsOpen_append_name h (path ++ "/"))
    show steps (path ++ "/" ++ name) = _
    rw [steps_append_slash, steps_of_noSlash h.noSlash]

theorem fromRoot_join {name : String} (h : IsName name) (path : String) :
    fromRoot (join [path, name]) = place path name := by
  have htarget := target_join h path
  rw [target, Target.mk.injEq] at htarget
  exact htarget.1

end Path

end Subscription
