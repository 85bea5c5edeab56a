import PinRing.Outcome

/-! Runs of steps: what is known of the parts when the whole succeeds, and invariants that say how
far a run has come. -/

namespace PinRing.Outcome

variable {σ α β ι : Type} {step : σ → ι → Outcome σ Unit} {s : σ} {is : List ι}

theorem exists_of_andThen_eq_ok {o : Outcome σ α} {k : σ → α → Outcome σ β} {b : β}
    (h : (o.andThen k).answer = .ok b) :
    ∃ a, o.answer = .ok a ∧ (k o.state a).answer = .ok b ∧
      (o.andThen k).state = (k o.state a).state := by
  cases ha : o.answer with
  | error f => rw [andThen_of_error ha] at h; cases h
  | ok a => exact ⟨a, rfl, by rwa [andThen_of_ok ha] at h, by rw [andThen_of_ok ha]⟩

theorem forEach_congr {step' : σ → ι → Outcome σ Unit} (h : ∀ s, ∀ i ∈ is, step s i = step' s i) :
    forEach step s is = forEach step' s is := by
  induction is generalizing s with
  | nil => rfl
  | cons i is ih =>
    rw [forEach_cons, forEach_cons, h s i List.mem_cons_self]
    congr 1
    funext s' _
    exact ih fun s j hj => h s j (List.mem_cons_of_mem i hj)

/-- A run over two lists, where the run over the first is not stopped. -/
theorem forEach_append_of_ok (h : (forEach step s is).answer = .ok ()) (js : List ι) :
    (forEach step s (is ++ js)).answer = (forEach step (forEach step s is).state js).answer ∧
      (forEach step s (is ++ js)).state = (forEach step (forEach step s is).state js).state := by
  rw [forEach_append, andThen_of_ok h]
  exact ⟨rfl, rfl⟩

/-- A run ends in a fault only if one of its steps does. -/
theorem forEach_error {F : Fault → Prop}
    (hstep : ∀ s, ∀ i ∈ is, ∀ f, (step s i).answer = .error f → F f) {f : Fault}
    (h : (forEach step s is).answer = .error f) : F f := by
  induction is generalizing s with
  | nil => cases h
  | cons i is ih =>
    rw [forEach_cons] at h
    cases ha : (step s i).answer with
    | error f' =>
      rw [andThen_of_error ha] at h
      exact Except.error.inj h ▸ hstep s i List.mem_cons_self f' ha
    | ok _ =>
      rw [andThen_of_ok ha] at h
      exact ih (fun s j hj => hstep s j (List.mem_cons_of_mem i hj)) h

/-- Steps that keep `P`, an invariant of the items done so far, establish it for all items if none
of them is stopped. -/
theorem forEach_reaches {P : List ι → σ → Prop}
    (hstep : ∀ done i s, done ++ [i] <+: is → P done s → (step s i).answer = .ok () →
      P (done ++ [i]) (step s i).state)
    (hok : (forEach step s is).answer = .ok ()) (h : P [] s) : P is (forEach step s is).state := by
  suffices hrest : ∀ rest done s, done ++ rest = is → (forEach step s rest).answer = .ok () →
      P done s → P is (forEach step s rest).state from hrest is [] s rfl hok h
  intro rest
  induction rest with
  | nil => intro done s hdone _ h; rwa [← hdone, List.append_nil]
  | cons i rest ih =>
    intro done s hdone hok h
    rw [forEach_cons] at hok ⊢
    obtain ⟨_, hi, hok, hstate⟩ := exists_of_andThen_eq_ok hok
    have hsplit : done ++ [i] ++ rest = is := by rw [← hdone, List.append_assoc]; rfl
    rw [hstate]
    exact ih _ _ hsplit hok (hstep done i s ⟨rest, hsplit⟩ h hi)

/-- Steps that keep an invariant of the items done so far unless they are stopped, and are stopped
for a cause `F` only. -/
theorem forEach_ends (step : σ → ι → Outcome σ Unit) (s : σ) (is : List ι) {P : List ι → σ → Prop}
    {F : Fault → Prop}
    (hstep : ∀ done i s, done ++ [i] <+: is → P done s →
      (∃ f, (step s i).answer = .error f ∧ F f) ∨
        (step s i).answer = .ok () ∧ P (done ++ [i]) (step s i).state) (h : P [] s) :
    (∃ f, (forEach step s is).answer = .error f ∧ F f) ∨
      (forEach step s is).answer = .ok () ∧ P is (forEach step s is).state := by
  suffices hrest : ∀ rest done s, done ++ rest = is → P done s →
      (∃ f, (forEach step s rest).answer = .error f ∧ F f) ∨
        (forEach step s rest).answer = .ok () ∧ P is (forEach step s rest).state from
    hrest is [] s rfl h
  intro rest
  induction rest with
  | nil =>
    intro done s hdone h
    rw [List.append_nil] at hdone
    exact .inr ⟨rfl, hdone ▸ h⟩
  | cons i rest ih =>
    intro done s hdone h
    have hsplit : done ++ [i] ++ rest = is := by rw [← hdone, List.append_assoc]; rfl
    rcases hstep done i s ⟨rest, hsplit⟩ h with ⟨f, hf, hcause⟩ | ⟨hi, hnext⟩
    · rw [forEach_cons, andThen_of_error hf]
      exact .inl ⟨f, rfl, hcause⟩
    · rw [forEach_cons, andThen_of_ok hi]
      exact ih _ _ hsplit hnext

/-- Steps that are never stopped while an invariant holds, and keep it. -/
theorem forEach_finishes (step : σ → ι → Outcome σ Unit) (s : σ) (is : List ι)
    {P : List ι → σ → Prop}
    (hstep : ∀ done i s, done ++ [i] <+: is → P done s →
      (step s i).answer = .ok () ∧ P (done ++ [i]) (step s i).state) (h : P [] s) :
    (forEach step s is).answer = .ok () ∧ P is (forEach step s is).state := by
  have hends := forEach_ends step s is (F := fun _ => False)
    (fun done i s hpre hs => .inr (hstep done i s hpre hs)) h
  exact hends.resolve_left fun ⟨_, _, hnever⟩ => hnever

/-- Two runs of the same steps that both go through stay related if each step keeps them so. -/
theorem forEach_related {R : σ → σ → Prop} (hstep : ∀ s t, ∀ i ∈ is, R s t →
      (step s i).answer = .ok () → (step t i).answer = .ok () → R (step s i).state (step t i).state)
    {t : σ} (hs : (forEach step s is).answer = .ok ()) (ht : (forEach step t is).answer = .ok ())
    (h : R s t) : R (forEach step s is).state (forEach step t is).state := by
  induction is generalizing s t with
  | nil => exact h
  | cons i is ih =>
    rw [forEach_cons] at hs ht ⊢
    obtain ⟨_, hi, hs, hstate⟩ := exists_of_andThen_eq_ok hs
    obtain ⟨_, hi', ht, hstate'⟩ := exists_of_andThen_eq_ok ht
    rw [forEach_cons, hstate, hstate']
    exact ih (fun s t j hj => hstep s t j (List.mem_cons_of_mem i hj)) hs ht
      (hstep s t i List.mem_cons_self h hi hi')

end PinRing.Outcome
