import Mathlib.Algebra.Order.Ring.Int
import Mathlib.Tactic.Common

/-!
# Bisection

A search between two signed bounds that closes in on the least index with a property, for a property
that holds from some index on. The test may fail, as a read outside of an array does: `bisect_spec`
says that the search of a test that does not fail between the bounds returns, and what it returns.
-/

namespace OrbitCache

/-- The middle of two bounds is between them. -/
theorem tdiv_two_mem {low high : Int} (h : low ≤ high) :
    low ≤ (low + high).tdiv 2 ∧ (low + high).tdiv 2 ≤ high := by
  rw [Int.tdiv_eq_ediv, show (2 : Int).sign = 1 from rfl]
  split <;> omega

/-- The search between `low` and `high`, both included: `below` says that the index sought is not
after `mid`. It fails where `below` does. -/
def bisect (below : Int → Option Bool) (low high : Int) : Option Int :=
  if _h : low ≤ high then
    let mid := (low + high).tdiv 2
    (below mid).bind fun
      | true => bisect below low (mid - 1)
      | false => bisect below (mid + 1) high
  else some low
termination_by (high + 1 - low).toNat
decreasing_by
  all_goals
    have hmid := tdiv_two_mem _h
    omega

section
variable {below : Int → Option Bool} {p : Int → Prop} [DecidablePred p] {low high : Int}

/-- The property does not get lost between the bounds: above an index that has it, all have it. -/
def UpClosed (p : Int → Prop) (low high : Int) : Prop :=
  ∀ i j, low ≤ i → i ≤ j → j ≤ high → p i → p j

/-- The result is the least index between the bounds with the property, or the one after them. -/
theorem bisect_spec (hbelow : ∀ i, low ≤ i → i ≤ high → below i = some (decide (p i)))
    (hp : UpClosed p low high) (hle : low ≤ high + 1) :
    ∃ m, bisect below low high = some m ∧ low ≤ m ∧ m ≤ high + 1 ∧
      (∀ i, low ≤ i → i < m → ¬ p i) ∧ ∀ i, m ≤ i → i ≤ high → p i := by
  fun_induction bisect below low high with
  | case1 low high h mid ihlow ihhigh =>
    obtain ⟨hmid, hmid'⟩ : low ≤ mid ∧ mid ≤ high := tdiv_two_mem h
    rw [hbelow mid hmid hmid', Option.bind_some]
    by_cases hpm : p mid
    · obtain ⟨m, hm, hlow, hhigh, hnot, hall⟩ := ihlow
        (fun i hi hi' => hbelow i hi (by omega))
        (fun i j hi hij hj => hp i j hi hij (by omega)) (by omega)
      refine ⟨m, by simpa [hpm] using hm, hlow, by omega, hnot, fun i hi hi' => ?_⟩
      by_cases him : i ≤ mid - 1
      · exact hall i hi him
      · exact hp mid i hmid (by omega) hi' hpm
    · obtain ⟨m, hm, hlow, hhigh, hnot, hall⟩ := ihhigh
        (fun i hi hi' => hbelow i (by omega) hi')
        (fun i j hi hij hj => hp i j (by omega) hij hj) (by omega)
      refine ⟨m, by simpa [hpm] using hm, by omega, hhigh, fun i hi hi' => ?_, hall⟩
      by_cases him : mid + 1 ≤ i
      · exact hnot i him hi'
      · exact fun hpi => hpm (hp i mid hi (by omega) hmid' hpi)
  | case2 low high h =>
    exact ⟨low, rfl, le_refl low, hle, fun i hi hi' => by omega, fun i hi hi' => by omega⟩

end

end OrbitCache
