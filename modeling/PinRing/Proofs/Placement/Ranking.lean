import Mathlib.Data.List.Induction
import Mathlib.Tactic.Common
import PinRing.Placement.Distribution

/-! The section that a group or a pin is given to: of those that come into question a feasible one
before an infeasible one, then a cheaper one, then the one that comes first. -/

namespace PinRing.Distribution

/-- The position `k` comes into question, no such position has a better cost, and those before `k`
have a worse one. -/
def Best (costs : List Cost) (eligible : Nat → Prop) (k : Nat) : Prop :=
  eligible k ∧ ∃ c, costs[k]? = some c ∧ ∀ l d, eligible l → costs[l]? = some d →
    d.better c = false ∧ (l < k → c.better d = true)

variable {costs : List Cost} {eligible : Nat → Bool} {entries : List (Cost × Nat)} {k : Nat}
variable {b e : Cost × Nat}

theorem Best.lt_length {eligible : Nat → Prop} (h : Best costs eligible k) : k < costs.length := by
  obtain ⟨-, c, hc, -⟩ := h
  exact (List.getElem?_eq_some_iff.mp hc).1

/-- A better cost is better than all that were no better than the one before. -/
theorem better_of_better {c d e : Cost} (hnew : d.better c = true) (hold : e.better c = false) :
    e.better d = false ∧ d.better e = true := by
  constructor
  · by_contra hbetter
    rw [Bool.not_eq_false] at hbetter
    rw [Cost.better_trans hbetter hnew] at hold
    cases hold
  · cases hce : c.better e with
    | true => exact Cost.better_trans hnew hce
    | false => rwa [← Cost.eq_of_not_better hce hold]

/-- The better of the best entry so far and the next one. -/
def leader (best : Option (Cost × Nat)) (e : Cost × Nat) : Option (Cost × Nat) :=
  match best with
  | none => some e
  | some b => if e.1.better b.1 then some e else some b

theorem bestWhere_eq (eligible : Nat → Bool) (costs : List Cost) :
    bestWhere eligible costs =
      ((costs.zipIdx.filter fun e => eligible e.2).foldl leader none).map (·.2) := by
  rw [bestWhere]
  congr 2
  funext best e
  cases best <;> rfl

/-- `b` is one of the entries; none of the others is better, and those in front are worse. -/
def Leads (entries : List (Cost × Nat)) (b : Cost × Nat) : Prop :=
  b ∈ entries ∧ ∀ e ∈ entries, e.1.better b.1 = false ∧ (e.2 < b.2 → b.1.better e.1 = true)

theorem Leads.append (h : Leads entries b) (hlast : ∀ a ∈ entries, a.2 < e.2) :
    Leads (entries ++ [e]) (if e.1.better b.1 then e else b) := by
  split
  · rename_i hbetter
    refine ⟨List.mem_append_right _ (List.mem_singleton_self e), ?_⟩
    refine List.forall_mem_append.mpr ⟨fun a ha => ?_, List.forall_mem_singleton.mpr ?_⟩
    · obtain ⟨hworse, hbest⟩ := better_of_better hbetter (h.2 a ha).1
      exact ⟨hworse, fun _ => hbest⟩
    · exact ⟨e.1.better_irrefl, fun hlt => absurd hlt (Nat.lt_irrefl _)⟩
  · rename_i hworse
    refine ⟨List.mem_append_left _ h.1, List.forall_mem_append.mpr
      ⟨h.2, List.forall_mem_singleton.mpr ⟨Bool.eq_false_iff.mpr hworse, fun hlt => ?_⟩⟩⟩
    exact absurd hlt (Nat.lt_asymm (hlast b h.1))

/-- The search through entries in order finds the one that leads. -/
theorem foldl_leader (hsorted : entries.Pairwise (·.2 < ·.2)) :
    (entries.foldl leader none = none ∧ entries = []) ∨
      ∃ b, entries.foldl leader none = some b ∧ Leads entries b := by
  induction entries using List.reverseRecOn with
  | nil => exact .inl ⟨rfl, rfl⟩
  | append_singleton entries e ih =>
    obtain ⟨hsorted, -, hlast⟩ := List.pairwise_append.mp hsorted
    have hlast : ∀ a ∈ entries, a.2 < e.2 := fun a ha => hlast a ha e (List.mem_singleton_self e)
    rw [List.foldl_append, List.foldl_cons, List.foldl_nil]
    rcases ih hsorted with ⟨hnone, rfl⟩ | ⟨b, hb, hleads⟩
    · refine .inr ⟨e, by rw [hnone]; rfl, List.mem_singleton_self e, ?_⟩
      exact List.forall_mem_singleton.mpr
        ⟨e.1.better_irrefl, fun hlt => absurd hlt (Nat.lt_irrefl _)⟩
    · refine .inr ⟨_, ?_, hleads.append hlast⟩
      rw [hb, leader]
      split <;> rfl

/-- The best position is found unless none comes into question. -/
theorem bestWhere_cases (eligible : Nat → Bool) (costs : List Cost) :
    (bestWhere eligible costs = none ∧ ∀ l < costs.length, eligible l = false) ∨
      ∃ k, bestWhere eligible costs = some k ∧ Best costs (eligible · = true) k := by
  have hmem : ∀ e, e ∈ (costs.zipIdx.filter fun e => eligible e.2) ↔
      costs[e.2]? = some e.1 ∧ eligible e.2 = true := fun e => by
    rw [List.mem_filter, List.mem_zipIdx_iff_getElem?]
  have hsorted : (costs.zipIdx.filter fun e => eligible e.2).Pairwise (·.2 < ·.2) := by
    refine List.Pairwise.filter _ (List.pairwise_map.mp ?_)
    rw [List.zipIdx_map_snd]
    exact List.pairwise_lt_range'
  rw [bestWhere_eq]
  rcases foldl_leader hsorted with ⟨hnone, hempty⟩ | ⟨b, hb, hin, hbest⟩
  · refine .inl ⟨by rw [hnone]; rfl, fun l hl => Bool.eq_false_iff.mpr fun heligible => ?_⟩
    have hentry := (hmem (costs[l], l)).mpr ⟨List.getElem?_eq_getElem hl, heligible⟩
    rw [hempty] at hentry
    cases hentry
  · obtain ⟨hat, heligible⟩ := (hmem b).mp hin
    refine .inr ⟨b.2, by rw [hb]; rfl, heligible, b.1, hat, fun l d hl hd => ?_⟩
    exact hbest (d, l) ((hmem (d, l)).mpr ⟨hd, hl⟩)

end PinRing.Distribution
