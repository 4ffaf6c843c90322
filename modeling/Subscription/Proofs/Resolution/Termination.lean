import Subscription.Proofs.Catalog.Ordering
import Subscription.Proofs.Resolution.Course
import Subscription.Proofs.Resolution.Faults

/-!
Resolutions come to an end. In a catalog that comes from a document, and with a handler that answers, a
resolution returns something from whatever state it starts, apart from a request that names nothing. None
of the bounds that are set on its loops is what ends it: names are placed in order however deep that
goes, a change never exceeds its depth, and an instance has no more rounds than were asked for.
-/

namespace Subscription

/-! ### The number of rounds -/

theorem Number.ceil_of_toInt? {n : Number} {k : Int} (h : n.toInt? = some k) :
    n.ceil = some k.toNat := by
  cases n with
  | infinite negative => cases h
  | finite d shortest =>
    by_cases hexp : d.exponent < 0
    · simp [toInt?, hexp] at h
    · simp only [toInt?, hexp, if_false, Option.some.injEq] at h
      by_cases hneg : d.negative
      · simp only [hneg, if_true] at h
        have hk : k.toNat = 0 := by omega
        simp [ceil, hneg, hk]
      · have hscaled : Decimal.scaled d.digits 1 10 d.exponent =
            (d.digits * Nat.pow 10 d.exponent.toNat, 1) := by
          rw [Decimal.scaled, if_pos (by omega)]
        have hk : k.toNat = d.digits * Nat.pow 10 d.exponent.toNat := by
          rw [← h, if_neg hneg, Int.toNat_natCast]
        simp [ceil, hneg, hscaled, hk]

namespace AutoAttach

variable {ctx : Context} {retries : Option Number} {k : Int}

theorem ceil_one : (1 : Number).ceil = some 1 := by
  decide +kernel

theorem roundCount_limit (h : (retries.getD 3).toInt? = some k) :
    roundCount (limit retries) = max 1 k.toNat := by
  have hceil := Number.ceil_of_toInt? h
  by_cases hk : k.toNat ≤ 1
  · simp only [limit, roundCount, hceil, hk, if_true, ceil_one, Option.getD_some]
    omega
  · simp only [limit, roundCount, hceil, hk, if_false, Option.getD_some]
    omega

end AutoAttach

/-! ### All resolutions -/

def Resolver.LooksUp : Resolver → Prop
  | .autoAttach _ _ contracts => ∀ token, ∃ contract, contracts token = .ok contract
  | _ => True

/-- A resolution returns something, from whatever state it starts, unless it is a request that names
nothing; that one breaks off at once. -/
theorem Resolver.returns_or_names_nothing {ctx : Context} (wf : ctx.catalog.WellFormed)
    (answers : ctx.handler.Answers) {t : Resolver} (looksUp : t.LooksUp) (past : List Call) :
    (∃ r past', exec (t.run ctx) past = (.ok r, past')) ∨
      ∃ r, t = .request r ∧ r.names = [] ∧
        exec (t.run ctx) past = (.error (.noServiceNames r.action), past) := by
  rcases hexec : exec (t.run ctx) past with ⟨f | r, past'⟩
  · rcases exec_run_error wf answers hexec with
      ⟨r, ht, hnames, rfl, rfl⟩ | ⟨opts, token, contracts, arrival, rfl, -, hfound⟩
    · exact Or.inr ⟨r, ht, hnames, rfl⟩
    · obtain ⟨contract, hcontract⟩ := looksUp token.token
      cases hfound.symm.trans hcontract
  · exact Or.inl ⟨r, past', rfl⟩

/-- A machine on another instance, with a service on record twice and another one that no catalog
knows; its handler does not manage to enable `b` at once. -/
def clutteredContext : Context where
  catalog := Catalog.pair
  handler := .scripted fun action n =>
    if action = .enable ∧ n = "b" then [.failed "no" "no"] else []
  series := "jammy"
  now := "2026-01-01T00:00:00.000Z"
  state := ⟨true, ["z"], ["b", "z", "b", "a"], some ⟨"k", "s", "2026-01-01T00:00:00.000Z", some "h"⟩⟩

theorem answers_cluttered : clutteredContext.handler.Answers := by
  dsimp only [clutteredContext]
  apply Handler.answers_scripted
  intro action n text
  split <;> simp

def Resolver.move : Resolver :=
  .autoAttach ⟨["a"], [], some 2⟩ (some ⟨"i", "t"⟩) fun _ => .ok (some ⟨"k", ["a", "b"]⟩)

end Subscription
