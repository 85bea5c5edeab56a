import PinRing.Proofs.Placement.Distribution
import PinRing.Proofs.Placement.Pairs

/-! Of every mirror pair the sections are given the first pin only. -/

namespace PinRing.Distribution

variable {board : Board} {model : CostModel} {config : Config} {secs : List Section}
variable {done : List Nat} {p : PinProgress} {pin : Nat}

/-- After the pins `done`, one pin of each of their pairs is a follower, the followers are the
partners of some of them, and the pins that were given out come before their partners. -/
structure Led (pins : PinTable) (done : List Nat) (p : PinProgress) : Prop where
  followed : ∀ i ∈ done, ∀ j, pins.partner i = .ok (some j) → i ∈ p.followers ∨ j ∈ p.followers
  leader : ∀ j ∈ p.followers, ∃ i ∈ done, pins.partner i = .ok (some j)
  first : ∀ i ∈ handedOut p.shares, ∀ j, pins.partner i = .ok (some j) → i < j

theorem Led.distributePin (hb : board.Paired) (h : Led board.pins done p) (hnew : pin ∉ done)
    (hbefore : ∀ j < pin, j ∈ done)
    (hok : (distributePin board.pins model p pin).answer = .ok ()) :
    Led board.pins (done ++ [pin]) (Distribution.distributePin board.pins model p pin).state := by
  have hleader : ∀ j ∈ p.followers, ∃ i ∈ done ++ [pin], board.pins.partner i = .ok (some j) := by
    intro j hj
    obtain ⟨i, hi, hij⟩ := h.leader j hj
    exact ⟨i, List.mem_append_left _ hi, hij⟩
  obtain ⟨q, hq, ⟨hskip, hsame⟩ | ⟨hfree, partner, i, hpartner, -, hgiven⟩⟩ :=
    distributePin_cases hok
  · rw [hsame]
    refine ⟨fun i hi j hij => ?_, hleader, h.first⟩
    rcases List.mem_append.mp hi with hi | hi
    · exact h.followed i hi j hij
    -- A pin with a partner is passed over as a follower only.
    rw [List.mem_singleton.mp hi] at hij ⊢
    obtain ⟨q', hq', hmirrored⟩ := Board.exists_of_partner hij
    rw [PinTable.pin_eq_ok.mp hq] at hq'
    obtain rfl := Option.some.inj hq'
    have hmem := Array.mem_of_getElem? (PinTable.pin_eq_ok.mp hq)
    have hplaced : q.placed = false := by
      rw [Pin.placed, hb.unplaced q hmem hmirrored]
      rfl
    rw [hplaced, hb.ungrouped q hmem hmirrored] at hskip
    exact .inl (by simpa using hskip)
  rw [hgiven]
  have hfresh : pin ∉ p.followers := by simp_all
  constructor
  · intro k hk j hkj
    simp only [List.mem_append]
    rcases List.mem_append.mp hk with hk | hk
    · exact (h.followed k hk j hkj).imp .inr .inr
    · rw [List.mem_singleton.mp hk, hpartner] at hkj
      cases hkj
      exact .inr (.inl (List.mem_singleton_self j))
  · intro j hj
    rcases List.mem_append.mp hj with hj | hj
    · refine ⟨pin, List.mem_append_right _ (List.mem_singleton_self pin), ?_⟩
      rw [hpartner, Option.mem_toList.mp hj]
    · exact hleader j hj
  · intro k hk j hkj
    rcases mem_handedOut_modify hk with rfl | hk
    · -- Had the partner come first, it or this pin would follow.
      by_contra hlt
      have hne := PinTable.ne_of_partner hb.ne hkj
      have hback := hb.partner_symm hkj
      rcases h.followed j (hbefore j (by omega)) k hback with hj | hk
      · obtain ⟨l, hl, hlj⟩ := h.leader j hj
        rw [Board.partner_unique hback (hb.partner_symm hlj)] at hnew
        exact hnew hl
      · exact hfresh hk
    · exact h.first k hk j hkj

/-- The sections are given no pin that comes after its partner. -/
theorem leaders_distribute (hb : board.Paired)
    (h : (distribute board model config secs).answer = .ok ()) :
    ∀ i ∈ (distribute board model config secs).state.flatMap (·.pins), ∀ j,
      board.pins.partner i = .ok (some j) → i < j := by
  obtain ⟨prepared, grouped, handed, hstages, hstate⟩ := exists_stages h
  have hled : Led board.pins (List.range board.pins.size) handed := by
    rw [← hstages.handed_eq]
    refine Outcome.forEach_reaches (fun done pin p hpre hp hok => ?_) hstages.pins_ok ?_
    · obtain ⟨-, hnew, hbefore⟩ := range_split hpre
      exact hp.distributePin hb hnew hbefore hok
    · have hnone := hstages.handedOut_grouped
      constructor <;> simp [hnone]
  rw [hstate, List.flatMap_map]
  exact hled.first

end PinRing.Distribution
