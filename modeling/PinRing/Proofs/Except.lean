/-! Computations that may fail: what is known of their parts when the whole succeeds, and what
stops the whole when it is known what stops the parts. -/

namespace PinRing

variable {ε δ α β : Type} {x : Except ε α}

theorem exists_of_bind_eq_ok {f : α → Except ε β} {b : β} (h : x >>= f = .ok b) :
    ∃ a, x = .ok a ∧ f a = .ok b := by
  cases x with
  | error e => cases h
  | ok a => exact ⟨a, rfl, h⟩

@[simp] theorem mapError_ok (a : α) (f : ε → δ) : (Except.ok a).mapError f = .ok a :=
  rfl

theorem eq_ok_of_mapError {f : ε → δ} {a : α} (h : x.mapError f = .ok a) : x = .ok a := by
  cases x with
  | error e => cases h
  | ok b => exact congrArg _ (Except.ok.inj h)

theorem mapM_eq_ok {f : α → Except ε β} {g : α → β} {l : List α} (h : ∀ a ∈ l, f a = .ok (g a)) :
    l.mapM f = .ok (l.map g) := by
  induction l with
  | nil => rfl
  | cons a l ih =>
    obtain ⟨ha, hl⟩ := List.forall_mem_cons.mp h
    rw [List.mapM_cons, ha, ih hl]
    rfl

theorem mapM_mapError {f : α → Except ε β} {f' : α → Except δ β} {g : ε → δ}
    (h : ∀ a, f' a = (f a).mapError g) (l : List α) : l.mapM f' = (l.mapM f).mapError g := by
  induction l with
  | nil => rfl
  | cons a l ih =>
    rw [List.mapM_cons, List.mapM_cons, h a, ih]
    cases f a with
    | error e => rfl
    | ok b => cases l.mapM f <;> rfl

theorem exists_mapM_eq_ok {f : α → Except ε β} {l : List α} (h : ∀ a ∈ l, ∃ b, f a = .ok b) :
    ∃ bs, l.mapM f = .ok bs ∧ bs.length = l.length := by
  induction l with
  | nil => exact ⟨[], rfl, rfl⟩
  | cons a l ih =>
    obtain ⟨⟨b, hb⟩, hl⟩ := List.forall_mem_cons.mp h
    obtain ⟨bs, hbs, hlength⟩ := ih hl
    refine ⟨b :: bs, ?_, by rw [List.length_cons, hlength, List.length_cons]⟩
    rw [List.mapM_cons, hb, hbs]
    rfl

theorem length_of_mapM_eq_ok {f : α → Except ε β} {l : List α} {bs : List β}
    (h : l.mapM f = .ok bs) : bs.length = l.length := by
  induction l generalizing bs with
  | nil => cases h; rfl
  | cons a l ih =>
    rw [List.mapM_cons] at h
    obtain ⟨b, -, h⟩ := exists_of_bind_eq_ok h
    obtain ⟨cs, hcs, h⟩ := exists_of_bind_eq_ok h
    cases h
    rw [List.length_cons, ih hcs, List.length_cons]

theorem forall_of_mapM_eq_ok {f : α → Except ε β} {l : List α} {bs : List β}
    (h : l.mapM f = .ok bs) : ∀ a ∈ l, ∃ b, f a = .ok b := by
  induction l generalizing bs with
  | nil => exact fun _ ha => nomatch ha
  | cons a l ih =>
    rw [List.mapM_cons] at h
    obtain ⟨b, hb, h⟩ := exists_of_bind_eq_ok h
    obtain ⟨cs, hcs, -⟩ := exists_of_bind_eq_ok h
    exact List.forall_mem_cons.mpr ⟨⟨b, hb⟩, ih hcs⟩

theorem getElem?_of_mapM_eq_ok {f : α → Except ε β} {l : List α} {bs : List β} {i : Nat} {b : β}
    (h : l.mapM f = .ok bs) (hb : bs[i]? = some b) : ∃ a, l[i]? = some a ∧ f a = .ok b := by
  induction l generalizing bs i with
  | nil =>
    cases h
    cases hb
  | cons a l ih =>
    rw [List.mapM_cons] at h
    obtain ⟨c, hc, h⟩ := exists_of_bind_eq_ok h
    obtain ⟨cs, hcs, h⟩ := exists_of_bind_eq_ok h
    cases h
    cases i with
    | zero =>
      cases hb
      exact ⟨a, rfl, hc⟩
    | succ i => exact ih hcs hb

theorem exists_of_mapM_eq_error {f : α → Except ε β} {l : List α} {e : ε}
    (h : l.mapM f = .error e) : ∃ a ∈ l, f a = .error e := by
  induction l with
  | nil => cases h
  | cons a l ih =>
    rw [List.mapM_cons] at h
    cases ha : f a with
    | error e' =>
      rw [ha] at h
      cases h
      exact ⟨a, List.mem_cons_self, ha⟩
    | ok b =>
      rw [ha] at h
      cases hl : l.mapM f with
      | error e' =>
        rw [hl] at h
        cases h
        obtain ⟨c, hc, hfault⟩ := ih hl
        exact ⟨c, List.mem_cons_of_mem a hc, hfault⟩
      | ok bs =>
        rw [hl] at h
        cases h

/-- What every step of a fold that succeeds keeps holds of its result. -/
theorem foldlM_keeps {P : β → Prop} {step : β → α → Except ε β}
    (hstep : ∀ b a c, P b → step b a = .ok c → P c) {l : List α} {b c : β} (hb : P b)
    (h : l.foldlM step b = .ok c) : P c := by
  induction l generalizing b with
  | nil => exact Except.ok.inj h ▸ hb
  | cons a l ih =>
    rw [List.foldlM_cons] at h
    obtain ⟨d, hd, h⟩ := exists_of_bind_eq_ok h
    exact ih (hstep b a d hb hd) h

/-! ### Faults of a kind -/

/-- Every fault with which the computation can end is an allowed one. -/
def FailsWith (x : Except ε α) (allowed : ε → Prop) : Prop := ∀ e, x = .error e → allowed e

namespace FailsWith

variable {allowed : ε → Prop} {permitted : δ → Prop}

theorem ok (a : α) : FailsWith (.ok a : Except ε α) allowed := nofun

theorem error {e : ε} (h : allowed e) : FailsWith (.error e : Except ε α) allowed := by
  intro e' he
  cases he
  exact h

theorem bind {k : α → Except ε β} (hx : FailsWith x allowed)
    (hk : ∀ a, x = .ok a → FailsWith (k a) allowed) : FailsWith (x >>= k) allowed := by
  cases hcase : x with
  | error e => exact error (hx e hcase)
  | ok a => exact hk a hcase

theorem mapError {f : ε → δ} (hx : FailsWith x allowed) (h : ∀ e, allowed e → permitted (f e)) :
    FailsWith (x.mapError f) permitted := by
  cases x with
  | error e => exact error (h e (hx e rfl))
  | ok a => exact ok a

theorem mapM {f : α → Except ε β} {l : List α} (h : ∀ a ∈ l, FailsWith (f a) allowed) :
    FailsWith (l.mapM f) allowed := by
  intro e he
  obtain ⟨a, ha, hfault⟩ := exists_of_mapM_eq_error he
  exact h a ha e hfault

theorem foldlM {step : β → α → Except ε β} {l : List α}
    (h : ∀ b, ∀ a ∈ l, FailsWith (step b a) allowed) (b : β) :
    FailsWith (l.foldlM step b) allowed := by
  induction l generalizing b with
  | nil => exact ok b
  | cons a l ih =>
    rw [List.foldlM_cons]
    exact (h b a List.mem_cons_self).bind fun c _ =>
      ih (fun d a ha => h d a (List.mem_cons_of_mem _ ha)) c

end FailsWith

/-! ### What stops a computation -/

/-- The computation fails for one of the causes, or it succeeds and there is no cause. -/
def StoppedBy (x : Except ε α) (causes : ε → Prop) : Prop :=
  (∃ e, x = .error e ∧ causes e) ∨ (∃ a, x = .ok a) ∧ ∀ e, ¬causes e

namespace StoppedBy

variable {causes more : ε → Prop}

theorem exists_ok_iff (h : StoppedBy x causes) : (∃ a, x = .ok a) ↔ ∀ e, ¬causes e := by
  rcases h with ⟨e, rfl, he⟩ | ⟨hok, hnone⟩
  · exact iff_of_false (fun ⟨_, ha⟩ => nomatch ha) fun hnone => hnone e he
  · exact iff_of_true hok hnone

theorem of_error (h : StoppedBy x causes) {e : ε} (he : x = .error e) : causes e := by
  rcases h with ⟨e', hx, he'⟩ | ⟨⟨a, ha⟩, -⟩
  · rw [he] at hx
    exact Except.error.inj hx ▸ he'
  · rw [he] at ha
    cases ha

theorem congr (h : StoppedBy x causes) (hcauses : ∀ e, causes e ↔ more e) : StoppedBy x more := by
  rwa [← funext fun e => propext (hcauses e)]

theorem of_ok (h : ∃ a, x = .ok a) : StoppedBy x fun _ => False :=
  .inr ⟨h, fun _ => id⟩

theorem ok (a : α) : StoppedBy (.ok a : Except ε α) fun _ => False :=
  of_ok ⟨a, rfl⟩

theorem error (e : ε) : StoppedBy (.error e : Except ε α) (· = e) :=
  .inl ⟨e, rfl, rfl⟩

theorem bind {k : α → Except ε β} (hx : StoppedBy x causes)
    (hk : ∀ a, x = .ok a → StoppedBy (k a) more) :
    StoppedBy (x >>= k) fun e => causes e ∨ more e := by
  rcases hx with ⟨e, rfl, he⟩ | ⟨⟨a, rfl⟩, hnone⟩
  · exact .inl ⟨e, rfl, .inl he⟩
  · rcases hk a rfl with ⟨e, hka, he⟩ | ⟨hok, hnone'⟩
    · exact .inl ⟨e, hka, .inr he⟩
    · exact .inr ⟨hok, fun e he => he.elim (hnone e) (hnone' e)⟩

theorem map (h : StoppedBy x causes) (f : α → β) : StoppedBy (x.map f) causes := by
  rcases h with ⟨e, rfl, he⟩ | ⟨⟨a, rfl⟩, hnone⟩
  · exact .inl ⟨e, rfl, he⟩
  · exact .inr ⟨⟨f a, rfl⟩, hnone⟩

theorem mapM {f : α → Except ε β} {of : α → ε → Prop} {l : List α}
    (h : ∀ a ∈ l, StoppedBy (f a) (of a)) : StoppedBy (l.mapM f) fun e => ∃ a ∈ l, of a e := by
  induction l with
  | nil => exact (ok []).congr fun e => by simp
  | cons a l ih =>
    obtain ⟨ha, hl⟩ := List.forall_mem_cons.mp h
    rw [List.mapM_cons]
    refine (ha.bind fun b _ => (ih hl).bind fun bs _ => ok (b :: bs)).congr fun e => ?_
    simp only [List.mem_cons, exists_eq_or_imp, or_false]

end StoppedBy

end PinRing
