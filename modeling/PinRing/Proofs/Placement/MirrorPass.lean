import PinRing.Proofs.Placement.Leaders
import PinRing.Proofs.Placement.Report
import PinRing.Proofs.Placement.Run

/-! The mirrored pass decides every pair once: each pin of a section is placed with its partner,
reported as failed, or passed over, and what was decided before is never looked at again. -/

namespace PinRing

/-- `f` is about pin `i` and its partner. -/
def MirrorFailure.Names (pins : PinTable) (i : Nat) (f : MirrorFailure) : Prop :=
  ∃ j p q, pins.partner i = .ok (some j) ∧ pins.pins[i]? = some p ∧ pins.pins[j]? = some q ∧
    f.pin = p.name ∧ f.partner = q.name

theorem MirrorFailure.Names.of_frame {before after : Board} (hframe : Board.Frame before after)
    {i : Nat} {f : MirrorFailure} (h : f.Names after.pins i) : f.Names before.pins i := by
  obtain ⟨j, p, q, hpartner, hp, hq, hpin, hother⟩ := h
  obtain ⟨p', hp', hname, -⟩ := hframe.symm.pin hp
  obtain ⟨q', hq', hname', -⟩ := hframe.symm.pin hq
  exact ⟨j, p', q', hframe.partner i ▸ hpartner, hp', hq', hpin.trans hname.symm,
    hother.trans hname'.symm⟩

/-- What became of the pins `done` of a mirrored pass: in their order some were decided, each placed
with its partner or reported as failed. -/
def Settled (pins : PinTable) (done : List Nat) (cs : List Commit) (failures : List MirrorFailure) :
    Prop :=
  ∃ decided : List (Nat × Option MirrorFailure), (decided.map Prod.fst).Sublist done ∧
    failures = decided.filterMap Prod.snd ∧
    (∀ i f, (i, some f) ∈ decided → f.Names pins i) ∧
    ∀ c ∈ cs, ∃ i, (i, none) ∈ decided ∧ (c.pin = i ∨ pins.partner i = .ok (some c.pin))

namespace Settled

variable {pins : PinTable} {done rest : List Nat} {cs ds : List Commit}
variable {failures others : List MirrorFailure}

theorem nil (pins : PinTable) (done : List Nat) : Settled pins done [] [] :=
  ⟨[], List.nil_sublist _, rfl, nofun, nofun⟩

theorem append (h : Settled pins done cs failures) (h' : Settled pins rest ds others) :
    Settled pins (done ++ rest) (cs ++ ds) (failures ++ others) := by
  obtain ⟨decided, hsub, rfl, hnames, hcommits⟩ := h
  obtain ⟨decided', hsub', rfl, hnames', hcommits'⟩ := h'
  refine ⟨decided ++ decided', ?_, ?_, fun i f hmem => ?_, fun c hc => ?_⟩
  · rw [List.map_append]
    exact hsub.append hsub'
  · rw [List.filterMap_append]
  · exact (List.mem_append.mp hmem).elim (hnames i f) (hnames' i f)
  · rcases List.mem_append.mp hc with hc | hc
    · obtain ⟨i, hi, hpin⟩ := hcommits c hc
      exact ⟨i, List.mem_append_left _ hi, hpin⟩
    · obtain ⟨i, hi, hpin⟩ := hcommits' c hc
      exact ⟨i, List.mem_append_right _ hi, hpin⟩

theorem mono (h : Settled pins done cs failures) (hsub : done.Sublist rest) :
    Settled pins rest cs failures := by
  obtain ⟨decided, hdone, hrest⟩ := h
  exact ⟨decided, hdone.trans hsub, hrest⟩

theorem of_frame {before after : Board} (hframe : Board.Frame before after)
    (h : Settled after.pins done cs failures) : Settled before.pins done cs failures := by
  obtain ⟨decided, hsub, hfailures, hnames, hcommits⟩ := h
  refine ⟨decided, hsub, hfailures, fun i f hmem => (hnames i f hmem).of_frame hframe, ?_⟩
  simpa only [hframe.partner] using hcommits

/-- Of different pins that come before their partners, a failed one and its partner were not placed,
and each pair is reported once. -/
theorem failed_pairs {b : Board} (hb : b.Paired) (hnodup : done.Nodup)
    (hfirst : ∀ i ∈ done, ∀ j, b.pins.partner i = .ok (some j) → i < j)
    (h : Settled b.pins done cs failures) :
    (failures.flatMap fun f => [f.pin, f.partner]).Nodup ∧
      ∀ f ∈ failures, ∃ i j p q, i < j ∧ b.pins.partner i = .ok (some j) ∧
        b.pins.pins[i]? = some p ∧ b.pins.pins[j]? = some q ∧ f.pin = p.name ∧
        f.partner = q.name ∧ i ∉ cs.map (·.pin) ∧ j ∉ cs.map (·.pin) := by
  obtain ⟨decided, hsub, rfl, hnames, hcommits⟩ := h
  have hkeys : (decided.map Prod.fst).Nodup := hnodup.sublist hsub
  have hdone : ∀ e ∈ decided, e.1 ∈ done := fun e he => hsub.subset (List.mem_map_of_mem he)
  -- A pin that comes first is nobody's partner among these, and no two have the same partner.
  have hlead : ∀ i ∈ done, ∀ k ∈ done, ∀ j, b.pins.partner i = .ok (some j) → k ≠ j := by
    rintro i hi k hk j hij rfl
    have hlt := hfirst i hi k hij
    have hlt' := hfirst k hk i (hb.partner_symm hij)
    omega
  have hinj : ∀ i k j, b.pins.partner i = .ok (some j) → b.pins.partner k = .ok (some j) → i = k :=
    fun i k j hij hkj => Board.partner_unique (hb.partner_symm hij) (hb.partner_symm hkj)
  constructor
  · have hname : ∀ {i k : Nat} {p q : Pin}, b.pins.pins[i]? = some p → b.pins.pins[k]? = some q →
        p.name = q.name → i = k := by
      intro i k p q hp hq heq
      have hi := PinTable.indexOf?_of_pin hb.names_nodup hp
      rw [heq, PinTable.indexOf?_of_pin hb.names_nodup hq] at hi
      exact (Option.some.inj hi).symm
    refine List.nodup_flatMap.mpr ⟨fun f hf => ?_, List.pairwise_filterMap.mpr ?_⟩
    · obtain ⟨⟨i, _⟩, he, rfl⟩ := List.mem_filterMap.mp hf
      obtain ⟨j, p, q, hij, hp, hq, hpin, hpartner⟩ := hnames i f he
      rw [hpin, hpartner]
      have hne := PinTable.ne_of_partner hb.ne hij
      simpa using fun heq => hne (hname hp hq heq)
    · refine (List.pairwise_map.mp hkeys).imp_of_mem ?_
      rintro ⟨i, _⟩ ⟨k, _⟩ hi hk hne f rfl f' rfl
      obtain ⟨j, p, q, hij, hp, hq, hpin, hpartner⟩ := hnames i f hi
      obtain ⟨l, p', q', hkl, hp', hq', hpin', hpartner'⟩ := hnames k f' hk
      have hik : ∀ n ∈ [f.pin, f.partner], n ∉ [f'.pin, f'.partner] := by
        simp only [hpin, hpartner, hpin', hpartner', List.mem_cons, List.not_mem_nil, or_false,
          forall_eq_or_imp, forall_eq, not_or]
        exact ⟨⟨fun heq => hne (hname hp hp' heq),
            fun heq => hlead k (hdone _ hk) i (hdone _ hi) l hkl (hname hp hq' heq)⟩,
          fun heq => hlead i (hdone _ hi) k (hdone _ hk) j hij (hname hq hp' heq).symm,
          fun heq => hne (hinj i k j hij (hname hq hq' heq ▸ hkl))⟩
      exact fun n hn hn' => hik n hn hn'
  · intro f hf
    obtain ⟨⟨i, _⟩, he, rfl⟩ := List.mem_filterMap.mp hf
    obtain ⟨j, p, q, hij, hp, hq, hpin, hpartner⟩ := hnames i f he
    have hother : ∀ k, (k, none) ∈ decided → k ≠ i := by
      rintro k hk rfl
      have := List.inj_on_of_nodup_map hkeys hk he rfl
      cases this
    refine ⟨i, j, p, q, hfirst i (hdone _ he) j hij, hij, hp, hq, hpin, hpartner, ?_, ?_⟩
    · intro hmem
      obtain ⟨c, hc, heq⟩ := List.mem_map.mp hmem
      obtain ⟨k, hk, hpin | hkj⟩ := hcommits c hc
      · exact hother k hk (hpin.symm.trans heq)
      · exact hlead k (hdone _ hk) i (hdone _ he) i (heq ▸ hkj) rfl
    · intro hmem
      obtain ⟨c, hc, heq⟩ := List.mem_map.mp hmem
      obtain ⟨k, hk, hpin | hkj⟩ := hcommits c hc
      · exact hlead i (hdone _ he) k (hdone _ hk) j hij (hpin.symm.trans heq)
      · exact hother k hk (hinj k i j (heq ▸ hkj) hij)

end Settled

namespace PinPass

variable {board : Board} {matrix : CostMatrix} {assignment : Assignment} {mode : Mode} {plan : Plan}
variable {result : PassResult} {col pin : Nat} {done : List Nat}

/-- One more column is decided, or not at all. -/
theorem Planned.settled {next : Plan} (hmode : mode.mirrored = true)
    (hnext : Planned board matrix assignment mode plan col pin next)
    (h : Settled board.pins done plan.commits plan.failures) :
    Settled board.pins (done ++ [pin]) next.commits next.failures := by
  cases hnext with
  | skipped => exact h.mono (List.sublist_append_left _ _)
  | @failed p q partner row slot reason _ matched partnered at_partner _ =>
    have hone : Settled board.pins [pin] [] [⟨p.name, q.name, reason⟩] :=
      ⟨[(pin, some _)], List.Sublist.refl _, rfl, by
        rintro i f hmem
        obtain ⟨rfl, rfl⟩ : i = pin ∧ f = ⟨p.name, q.name, reason⟩ := by simpa using hmem
        exact ⟨partner, p, q, partnered, PinTable.pin_eq_ok.mp matched.at_pin,
          PinTable.pin_eq_ok.mp at_partner, rfl, rfl⟩, nofun⟩
    simpa using h.append hone
  | single regular => rw [hmode] at regular; cases regular
  | @pair p q partner row slot other cost reflect s image _ _ partnered _ _ =>
    have hone : Settled board.pins [pin] [⟨pin, slot, .pair⟩, ⟨partner, other, .pair⟩] [] :=
      ⟨[(pin, none)], List.Sublist.refl _, rfl, by simp, fun c hc => by
        refine ⟨pin, List.mem_singleton_self _, ?_⟩
        rcases List.mem_cons.mp hc with rfl | hc
        · exact .inl rfl
        · rw [List.mem_singleton.mp hc]
          exact .inr partnered⟩
    rw [Plan.commits_add, Plan.failures_add]
    simpa using h.append hone

/-- What a mirrored pass decides of its columns. -/
theorem run_settled (hmode : mode.mirrored = true)
    (hok : (run board matrix assignment mode).answer = .ok result) :
    Settled board.pins matrix.columns result.commits result.failures := by
  obtain rfl | ⟨_, hplan, rfl, rfl⟩ := result_eq hok
  · exact .nil _ _
  have hsettled := Outcome.forEach_reaches
    (P := fun done plan => Settled board.pins (done.map Prod.snd) plan.commits plan.failures)
    (fun done column plan _ h _ => by
      have hplanned := planColumn_planned board matrix assignment mode plan column.1 column.2
      rw [List.map_append]
      exact hplanned.settled hmode h)
    hplan (.nil _ _)
  rw [List.map_map] at hsettled
  have hcolumns := List.zipIdx_map_fst 0 matrix.columns
  exact hcolumns ▸ hsettled

end PinPass

end PinRing
