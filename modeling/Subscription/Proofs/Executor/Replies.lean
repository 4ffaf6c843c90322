import Subscription.Proofs.Executor.Growth

/-!
What a session makes of the replies of the handler. Calls are told together with the replies to them; a
reply may ask for a reboot and may come with notices. A session passes on every notice, in the order of
the calls, and puts between them only warnings of its own; it needs a reboot when one was asked for.
-/

namespace Subscription

/-! ### Replies -/

namespace Reply

def asksReboot : Reply → Bool
  | .done needsReboot _ => needsReboot
  | .failed .. | .raised _ => false

def notices (service : Text) : Reply → List Entry
  | .done _ notices => notices.map fun n => ⟨n.message, n.code, some service, .service⟩
  | .failed .. | .raised _ => []

def isDone : Reply → Bool
  | .done .. => true
  | .failed .. | .raised _ => false

def turnsDown : Reply → Bool
  | .failed .. => true
  | .done .. | .raised _ => false

end Reply

namespace Handler

variable {h : Handler} {past xs ys new : List Call}

def replies (h : Handler) : List Call → List Call → List (Call × Reply)
  | _, [] => []
  | past, call :: calls => (call, h.respond past call) :: h.replies (past ++ [call]) calls

theorem replies_append (h : Handler) (past xs ys : List Call) :
    h.replies past (xs ++ ys) = h.replies past xs ++ h.replies (past ++ xs) ys := by
  induction xs generalizing past with
  | nil => simp [replies]
  | cons call xs ih => simp [replies, ih]

def AsksReboot (h : Handler) (past new : List Call) : Prop :=
  ∃ r ∈ h.replies past new, r.2.asksReboot = true

def TurnsDown (h : Handler) (past new : List Call) : Prop :=
  ∃ r ∈ h.replies past new, r.2.turnsDown = true

def notices (h : Handler) (past new : List Call) : List Entry :=
  (h.replies past new).flatMap fun r => r.2.notices r.1.service.name

theorem not_asksReboot_nil : ¬h.AsksReboot past [] := by
  simp [AsksReboot, replies]

theorem not_turnsDown_nil : ¬h.TurnsDown past [] := by
  simp [TurnsDown, replies]

theorem asksReboot_append :
    h.AsksReboot past (xs ++ ys) ↔ h.AsksReboot past xs ∨ h.AsksReboot (past ++ xs) ys := by
  simp only [AsksReboot, replies_append, List.mem_append, or_and_right, exists_or]

theorem turnsDown_append :
    h.TurnsDown past (xs ++ ys) ↔ h.TurnsDown past xs ∨ h.TurnsDown (past ++ xs) ys := by
  simp only [TurnsDown, replies_append, List.mem_append, or_and_right, exists_or]

theorem notices_append :
    h.notices past (xs ++ ys) = h.notices past xs ++ h.notices (past ++ xs) ys := by
  rw [notices, replies_append, List.flatMap_append, notices, notices]

theorem notices_singleton (h : Handler) (past : List Call) (call : Call) :
    h.notices past [call] = (h.respond past call).notices call.service.name := by
  simp [notices, replies]

end Handler

/-! ### Warnings -/

def Entry.Own (e : Entry) : Prop :=
  e = .ofSystem .reattaching ∨
    ∃ who action title, e = .ofService who (Executor.alongMessage action title)

/-- A list that holds some notices in their order, and between them warnings of the program's own. -/
inductive Interspersed : List Entry → List Entry → Prop
  | nil : Interspersed [] []
  | own {e : Entry} {notices said : List Entry} (h : e.Own) (rest : Interspersed notices said) :
      Interspersed notices (e :: said)
  | notice (e : Entry) {notices said : List Entry} (rest : Interspersed notices said) :
      Interspersed (e :: notices) (e :: said)

namespace Interspersed

variable {notices notices' said said' : List Entry}

theorem refl : ∀ notices, Interspersed notices notices
  | [] => .nil
  | e :: notices => .notice e (refl notices)

theorem append (h : Interspersed notices said) (h' : Interspersed notices' said') :
    Interspersed (notices ++ notices') (said ++ said') := by
  induction h with
  | nil => exact h'
  | own h _ ih => exact .own h ih
  | notice e _ ih => exact .notice e ih

theorem sublist (h : Interspersed notices said) : notices.Sublist said := by
  induction h with
  | nil => exact .slnil
  | own _ _ ih => exact ih.cons _
  | notice e _ ih => exact ih.cons_cons e

theorem filter_eq (h : Interspersed notices said) {keep : Entry → Bool}
    (hkeep : ∀ e, e.Own → keep e = false) : said.filter keep = notices.filter keep := by
  induction h with
  | nil => rfl
  | own h _ ih => rw [List.filter_cons_of_neg (by simp [hkeep _ h]), ih]
  | notice e _ ih => rw [List.filter_cons, List.filter_cons, ih]

theorem append_sublist_iff (h : Interspersed notices said) {lost : List Entry}
    (hlost : ∀ e ∈ lost, ¬e.Own) : (lost ++ notices).Sublist said ↔ lost = [] := by
  refine ⟨fun hsub => ?_, fun hnil => by simpa [hnil] using h.sublist⟩
  have hkept : lost.filter (fun e => decide (e ∈ lost)) = lost :=
    List.filter_eq_self.mpr fun e he => by simpa using he
  have hfiltered := hsub.filter fun e => decide (e ∈ lost)
  rw [h.filter_eq fun e he => by simpa using fun hmem => hlost e hmem he, List.filter_append,
    hkept] at hfiltered
  have hlength := hfiltered.length_le
  rw [List.length_append] at hlength
  exact List.length_eq_zero_iff.mp (by omega)

end Interspersed

/-! ### What is heard in a session -/

/-- What a tally has become while the handler replied to some new calls. -/
structure Handler.Heard (h : Handler) (past new : List Call) (t u : Tally) : Prop where
  needsReboot : u.needsReboot = true ↔ t.needsReboot = true ∨ h.AsksReboot past new
  warnings : ∃ said, u.warnings = t.warnings ++ said ∧ Interspersed (h.notices past new) said

namespace Handler.Heard

variable {h : Handler} {past xs ys : List Call} {t u v : Tally}

theorem of_eq (hwarnings : u.warnings = t.warnings) (hreboot : u.needsReboot = t.needsReboot) :
    h.Heard past [] t u where
  needsReboot := by rw [hreboot, or_iff_left Handler.not_asksReboot_nil]
  warnings := ⟨[], by rw [hwarnings, List.append_nil], .nil⟩

theorem trans (ht : h.Heard past xs t u) (hu : h.Heard (past ++ xs) ys u v) :
    h.Heard past (xs ++ ys) t v where
  needsReboot := by rw [hu.needsReboot, ht.needsReboot, asksReboot_append, or_assoc]
  warnings := by
    obtain ⟨said, hsaid, hnotices⟩ := ht.warnings
    obtain ⟨more, hmore, hnotices'⟩ := hu.warnings
    refine ⟨said ++ more, by rw [hmore, hsaid, List.append_assoc], ?_⟩
    rw [notices_append]
    exact hnotices.append hnotices'

theorem absorb (hu : h.Heard past xs .empty u) (t : Tally) (withFailures : Bool) :
    h.Heard past xs t (t.absorb u withFailures) where
  needsReboot := by
    have hnone : Tally.empty.needsReboot = false := rfl
    simp only [Tally.absorb, Bool.or_eq_true, hu.needsReboot, hnone, Bool.false_eq_true, false_or]
  warnings := by
    obtain ⟨said, hsaid, hnotices⟩ := hu.warnings
    exact ⟨said, congrArg (t.warnings ++ ·) hsaid, hnotices⟩

end Handler.Heard

namespace Executor

variable {x : Setting} {action : ServiceAction}

def Hears (h : Handler) (p q : Progress) : Prop :=
  ∃ new, q.calls = p.calls ++ new ∧ h.Heard p.calls new p.tally q.tally

theorem cumulative_hears (h : Handler) : Cumulative (Hears h) where
  refl _ := ⟨[], (List.append_nil _).symm, .of_eq rfl rfl⟩
  trans := by
    rintro p q r ⟨new, hnew, hpq⟩ ⟨more, hmore, hqr⟩
    rw [hnew] at hmore hqr
    exact ⟨new ++ more, by rw [hmore, List.append_assoc], hpq.trans hqr⟩

/-- Nothing that a reply has to say is lost where the handler is called. -/
theorem hears_invoke (s : Service) (who : Text) : KeepsTo (Hears x.handler) (invoke x action s who) := by
  intro p
  have hone : ∀ reply, x.handler.respond p.calls (x.call action s) = reply →
      x.handler.replies p.calls [x.call action s] = [(x.call action s, reply)] := by
    rintro reply rfl
    rfl
  rw [exec_invoke]
  cases hreply : x.handler.respond p.calls (x.call action s) with
  | raised | failed =>
    refine ⟨[x.call action s], rfl, ⟨?_, [], (List.append_nil _).symm, ?_⟩⟩
    · simp [Handler.AsksReboot, hone _ hreply, Reply.asksReboot, Progress.called, Progress.refused]
    · simpa [Handler.notices, hone _ hreply, Reply.notices] using Interspersed.nil
  | done needsReboot notices =>
    refine ⟨[x.call action s], rfl, ⟨?_, _, rfl, ?_⟩⟩
    · simp [Handler.AsksReboot, hone _ hreply, Reply.asksReboot, Progress.changedBy, Tally.heed]
    · simpa [Handler.notices, hone _ hreply, Reply.notices] using Interspersed.refl _

theorem pervasive_hears : Pervasive x action (Hears x.handler) where
  toCumulative := cumulative_hears x.handler
  noted h := ⟨[], by rw [h.calls, List.append_nil], .of_eq h.warnings h.needsReboot⟩
  warned who p title :=
    ⟨[], (List.append_nil _).symm, ⟨by simp [Handler.AsksReboot, Handler.replies, Tally.addWarning],
      [_], rfl, .own (Or.inr ⟨who, action, title, rfl⟩) .nil⟩⟩
  invoked who s := hears_invoke s who

end Executor

end Subscription
