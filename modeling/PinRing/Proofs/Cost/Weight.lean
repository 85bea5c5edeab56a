import Mathlib.Algebra.BigOperators.Group.List.Basic
import Mathlib.Tactic.Ring
import PinRing.Cost.Basic

/-! The weight of infeasible choices.  Where feasible costs are small against it, a list of costs of
least total weight has as few infeasible choices as possible, and among those the least cost. -/

namespace PinRing.Cost

/-- The number of infeasible choices. -/
def infeasibleCount (cs : List Cost) : Nat := cs.countP (!·.feasible)

/-- The sum of the feasible costs. -/
def feasibleSum (cs : List Cost) : Int := (cs.map feasibleValue).sum

variable {cs ds : List Cost}

theorem infeasibleCount_cons (c : Cost) (cs : List Cost) :
    infeasibleCount (c :: cs) = infeasibleCount cs + if c.feasible then 0 else 1 := by
  rw [infeasibleCount, List.countP_cons, infeasibleCount]
  cases c.feasible <;> rfl

theorem feasibleSum_cons (c : Cost) (cs : List Cost) :
    feasibleSum (c :: cs) = c.feasibleValue + feasibleSum cs := by
  rw [feasibleSum, List.map_cons, List.sum_cons, feasibleSum]

theorem weight_eq (c : Cost) :
    c.weight = (if c.feasible then 0 else 1) * sentinel + c.feasibleValue := by
  cases c with
  | finite v => simp [weight, feasible, feasibleValue]
  | infeasible => simp [weight, feasible, feasibleValue]

theorem sum_weight (cs : List Cost) :
    (cs.map weight).sum = infeasibleCount cs * sentinel + feasibleSum cs := by
  induction cs with
  | nil => rfl
  | cons c cs ih =>
    rw [List.map_cons, List.sum_cons, ih, infeasibleCount_cons, feasibleSum_cons, weight_eq]
    push_cast
    ring

theorem feasibleSum_nonneg (h : ∀ v, finite v ∈ cs → 0 ≤ v) : 0 ≤ feasibleSum cs := by
  induction cs with
  | nil => exact Int.le_refl 0
  | cons c cs ih =>
    have hrest := ih fun v hv => h v (List.mem_cons_of_mem _ hv)
    have hfirst : 0 ≤ c.feasibleValue := by
      cases c with
      | finite v => exact h v List.mem_cons_self
      | infeasible => exact Int.le_refl 0
    rw [feasibleSum_cons]
    omega

theorem feasibleSum_le {top : Int} (htop : 0 ≤ top) (h : ∀ v, finite v ∈ cs → v ≤ top) :
    feasibleSum cs ≤ cs.length * top := by
  induction cs with
  | nil => simp [feasibleSum]
  | cons c cs ih =>
    have hrest := ih fun v hv => h v (List.mem_cons_of_mem _ hv)
    have hfirst : c.feasibleValue ≤ top := by
      cases c with
      | finite v => exact h v List.mem_cons_self
      | infeasible => exact htop
    rw [feasibleSum_cons, List.length_cons, Nat.cast_succ, Int.add_mul, Int.one_mul]
    omega

theorem feasibleSum_lt {bound : Int} (h : ∀ v, finite v ∈ cs → v ≤ bound)
    (hbound : cs.length * bound < sentinel) : feasibleSum cs < sentinel := by
  by_cases hpos : 0 ≤ bound
  · exact Int.lt_of_le_of_lt (feasibleSum_le hpos h) hbound
  · have hzero := feasibleSum_le (Int.le_refl 0) fun v hv => by
      have := h v hv
      omega
    have hsentinel : (0 : Int) < sentinel := by decide
    rw [Int.mul_zero] at hzero
    omega

/-- The first list of costs has fewer infeasible choices than the second, or as many and costs no
more. -/
def NoWorse (cs ds : List Cost) : Prop :=
  infeasibleCount cs < infeasibleCount ds ∨
    infeasibleCount cs = infeasibleCount ds ∧ feasibleSum cs ≤ feasibleSum ds

theorem noWorse_of_sum_le (hle : (cs.map weight).sum ≤ (ds.map weight).sum)
    (hnonneg : 0 ≤ feasibleSum cs) (hlt : feasibleSum ds < sentinel) : NoWorse cs ds := by
  rw [sum_weight, sum_weight] at hle
  rcases Nat.lt_trichotomy (infeasibleCount cs) (infeasibleCount ds) with hfewer | heq | hmore
  · exact .inl hfewer
  · refine .inr ⟨heq, ?_⟩
    rw [heq] at hle
    omega
  · have hstep : ((infeasibleCount ds : Int) + 1) * sentinel ≤ infeasibleCount cs * sentinel :=
      Int.mul_le_mul_of_nonneg_right (by omega) (by decide)
    rw [Int.add_mul, Int.one_mul] at hstep
    omega

end PinRing.Cost
