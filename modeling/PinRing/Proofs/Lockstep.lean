import PinRing.Board.Basic
import PinRing.Proofs.Geometry.Translation
import PinRing.Proofs.Outcome

/-! Two runs in lockstep, the second after everything has been moved by one vector.  Relations
between their states and answers are kept from step to step.  There are two grades: in `Lockstep`
the runs end alike, in `Abreast` one of them may be stopped early by a number that is too long to be
written. -/

namespace PinRing

variable {σ τ ι α β : Type} {d : Point}

/-- The computations succeed with related values, or the fault of the second is that of the first
moved by `d`. -/
inductive Alike (d : Point) (A : α → α → Prop) : Except Fault α → Except Fault α → Prop
  | ok {a a' : α} (h : A a a') : Alike d A (.ok a) (.ok a')
  | error (f : Fault) : Alike d A (.error f) (.error (f.translate d))

namespace Alike

variable {A C : α → α → Prop} {B : β → β → Prop} {x x' : Except Fault α}

theorem mono (h : Alike d A x x') (hA : ∀ a a', A a a' → C a a') : Alike d C x x' := by
  cases h with
  | ok h => exact .ok (hA _ _ h)
  | error f => exact .error f

theorem map (h : Alike d A x x') {f f' : α → β} (hf : ∀ a a', A a a' → B (f a) (f' a')) :
    Alike d B (x.map f) (x'.map f') := by
  cases h with
  | ok h => exact .ok (hf _ _ h)
  | error f => exact .error f

theorem of_map {g : α → α} (h : x' = (x.map g).mapError (·.translate d)) :
    Alike d (fun a a' => a' = g a) x x' := by
  subst h
  cases x with
  | error f => exact .error f
  | ok a => exact .ok rfl

theorem of_mapError (h : x' = x.mapError (·.translate d)) : Alike d (· = ·) x x' := by
  subst h
  cases x with
  | error f => exact .error f
  | ok a => exact .ok rfl

theorem bind {k k' : α → Except Fault β} (h : Alike d A x x')
    (hk : ∀ a a', A a a' → Alike d B (k a) (k' a')) : Alike d B (x.bind k) (x'.bind k') := by
  cases h with
  | ok h => exact hk _ _ h
  | error f => exact .error f

theorem with_eq (h : Alike d A x x') : Alike d (fun a a' => A a a' ∧ x = .ok a) x x' := by
  cases h with
  | ok h => exact .ok ⟨h, rfl⟩
  | error f => exact .error f

theorem map_eq {g : α → β} (h : Alike d (fun a a' => g a' = g a) x x') :
    x'.map g = (x.map g).mapError (·.translate d) := by
  cases h with
  | ok h => exact congrArg Except.ok h
  | error f => rfl

theorem of_error {f f' : Fault} (h : Alike d A (.error f) (.error f')) :
    Alike d B (.error f) (.error f') := by
  cases h
  exact .error f

/-- A fault that is about no point stays the same. -/
theorem same {f : Fault} (hf : f.translate d = f) : Alike d A (.error f) (.error f) := by
  have h := Alike.error (A := A) (d := d) f
  rwa [hf] at h

end Alike

namespace Outcome

/-- The outcomes are alike, states and answers. -/
structure Lockstep (d : Point) (R : σ → σ → Prop) (A : α → α → Prop) (o o' : Outcome σ α) :
    Prop where
  state : R o.state o'.state
  answer : Alike d A o.answer o'.answer

/-- The outcomes are alike, or one run was stopped by a number that is too long to be written.  That
can be if `X` holds, and its journal is where the journal of the other run begins. -/
inductive Abreast (d : Point) (X : Prop) (J : σ → List Commit) (R : σ → σ → Prop)
    (A : α → α → Prop) (o o' : Outcome σ α) : Prop
  | alike (h : Lockstep d R A o o')
  | first (x : X) (stopped : o.answer = .error .unwritable) (begins : J o.state <+: J o'.state)
  | second (x : X) (stopped : o'.answer = .error .unwritable) (begins : J o'.state <+: J o.state)

variable {R : σ → σ → Prop} {S : τ → τ → Prop} {A : α → α → Prop} {B : β → β → Prop}
variable {o o' : Outcome σ α} {k k' : σ → α → Outcome σ β} {s s' : σ} {a a' : α}

namespace Lockstep

theorem done (hs : R s s') (ha : A a a') :
    Lockstep d R A (Outcome.done s a) (Outcome.done s' a') :=
  ⟨hs, .ok ha⟩

theorem mapState {g g' : σ → τ} (h : Lockstep d R A o o')
    (hg : ∀ s s', R s s' → S (g s) (g' s')) :
    Lockstep d S A (o.mapState g) (o'.mapState g') :=
  ⟨hg _ _ h.state, h.answer⟩

end Lockstep

namespace Abreast

variable {X : Prop} {J : σ → List Commit}

theorem mono {Y : Prop} (hX : X → Y) (h : Abreast d X J R A o o') : Abreast d Y J R A o o' := by
  cases h with
  | alike h => exact .alike h
  | first x stopped begins => exact .first (hX x) stopped begins
  | second x stopped begins => exact .second (hX x) stopped begins

/-- A fact about the first run goes into the relation. -/
theorem and {P : σ → Prop} (h : Abreast d X J R A o o') (hP : P o.state) :
    Abreast d X J (fun s s' => R s s' ∧ P s) A o o' := by
  cases h with
  | alike h => exact .alike ⟨⟨h.state, hP⟩, h.answer⟩
  | first x stopped begins => exact .first x stopped begins
  | second x stopped begins => exact .second x stopped begins

theorem mapState {K : τ → List Commit} {g g' : σ → τ} (h : Abreast d X J R A o o')
    (hg : ∀ s s', R s s' → S (g s) (g' s')) (hJ : ∀ s, K (g s) = J s) (hJ' : ∀ s, K (g' s) = J s) :
    Abreast d X K S A (o.mapState g) (o'.mapState g') := by
  cases h with
  | alike h => exact .alike (h.mapState hg)
  | first x stopped begins => exact .first x stopped (by simpa only [Outcome.mapState, hJ, hJ'])
  | second x stopped begins => exact .second x stopped (by simpa only [Outcome.mapState, hJ, hJ'])

theorem prefix_andThen (hgrow : ∀ s a, J s <+: J (k s a).state) :
    J o.state <+: J (o.andThen k).state :=
  andThen_state (P := fun t => J o.state <+: J t) List.prefix_rfl fun a => hgrow _ a

theorem prefix_forEach {step : σ → ι → Outcome σ Unit} {is : List ι}
    (hgrow : ∀ s, ∀ i ∈ is, J s <+: J (step s i).state) (s : σ) :
    J s <+: J (Outcome.forEach step s is).state :=
  forEach_state (P := fun t => J s <+: J t) (fun t i hi ht => ht.trans (hgrow t i hi))
    List.prefix_rfl

/-- What goes on after both runs only adds to their journals. -/
theorem andThen (h : Abreast d X J R A o o')
    (hk : ∀ s s' a a', R s s' → A a a' → Abreast d X J R B (k s a) (k' s' a'))
    (hgrow : ∀ s a, J s <+: J (k s a).state) (hgrow' : ∀ s a, J s <+: J (k' s a).state) :
    Abreast d X J R B (o.andThen k) (o'.andThen k') := by
  cases h with
  | alike h =>
    obtain ⟨hstate, hanswer⟩ := h
    cases ha : o.answer <;> cases ha' : o'.answer <;> rw [ha, ha'] at hanswer <;> cases hanswer
    case error.error f =>
      rw [andThen_of_error ha, andThen_of_error ha']
      exact .alike ⟨hstate, .error f⟩
    case ok.ok a a' hrel =>
      rw [andThen_of_ok ha, andThen_of_ok ha']
      cases hk _ _ a a' hstate hrel with
      | alike h => exact .alike ⟨h.state, h.answer⟩
      | first x stopped begins => exact .first x stopped begins
      | second x stopped begins => exact .second x stopped begins
  | first x stopped begins =>
    refine .first x ?_ ?_
    · rw [andThen_of_error stopped]
    · rw [andThen_of_error stopped]
      exact begins.trans (prefix_andThen hgrow')
  | second x stopped begins =>
    refine .second x ?_ ?_
    · rw [andThen_of_error stopped]
    · rw [andThen_of_error stopped]
      exact begins.trans (prefix_andThen hgrow)

theorem lift_andThen {x x' : Except Fault α} (hs : R s s') (hx : Alike d A x x')
    (hk : ∀ a a', A a a' → Abreast d X J R B (k s a) (k' s' a')) :
    Abreast d X J R B ((Outcome.lift s x).andThen k) ((Outcome.lift s' x').andThen k') := by
  cases hx with
  | error f => exact .alike ⟨hs, .error f⟩
  | ok ha => simpa only [lift_ok, done_andThen] using hk _ _ ha

theorem forEach {step step' : σ → ι → Outcome σ Unit} {is : List ι}
    (hstep : ∀ s s', ∀ i ∈ is, R s s' → Abreast d X J R (· = ·) (step s i) (step' s' i))
    (hgrow : ∀ s, ∀ i ∈ is, J s <+: J (step s i).state)
    (hgrow' : ∀ s, ∀ i ∈ is, J s <+: J (step' s i).state) (hs : R s s') :
    Abreast d X J R (· = ·) (Outcome.forEach step s is) (Outcome.forEach step' s' is) := by
  induction is generalizing s s' with
  | nil => exact .alike (.done hs rfl)
  | cons i is ih =>
    have hstep' := fun s s' j (hj : j ∈ is) => hstep s s' j (List.mem_cons_of_mem i hj)
    have hrest := fun s j (hj : j ∈ is) => hgrow s j (List.mem_cons_of_mem i hj)
    have hrest' := fun s j (hj : j ∈ is) => hgrow' s j (List.mem_cons_of_mem i hj)
    exact (hstep s s' i List.mem_cons_self hs).andThen
      (fun _ _ _ _ hnext _ => ih hstep' hrest hrest' hnext)
      (fun s _ => prefix_forEach hrest s) fun s _ => prefix_forEach hrest' s

end Abreast

/-- Runs that nothing can stop early are in lockstep. -/
theorem Abreast.lockstep {J : σ → List Commit} (h : Abreast d False J R A o o') :
    Lockstep d R A o o' := by
  cases h with
  | alike h => exact h
  | first x => exact x.elim
  | second x => exact x.elim

namespace Lockstep

theorem andThen (h : Lockstep d R A o o')
    (hk : ∀ s s' a a', R s s' → A a a' → Lockstep d R B (k s a) (k' s' a')) :
    Lockstep d R B (o.andThen k) (o'.andThen k') := by
  have habreast : Abreast d False (fun _ : σ => []) R A o o' := .alike h
  refine (habreast.andThen (fun s s' a a' hs ha => .alike (hk s s' a a' hs ha)) ?_ ?_).lockstep
  · exact fun _ _ => List.prefix_rfl
  · exact fun _ _ => List.prefix_rfl

theorem lift_andThen {x x' : Except Fault α} (hs : R s s') (hx : Alike d A x x')
    (hk : ∀ a a', A a a' → Lockstep d R B (k s a) (k' s' a')) :
    Lockstep d R B ((Outcome.lift s x).andThen k) ((Outcome.lift s' x').andThen k') :=
  (Abreast.lift_andThen (X := False) (J := fun _ => []) hs hx fun a a' ha =>
    .alike (hk a a' ha)).lockstep

theorem forEach {step step' : σ → ι → Outcome σ Unit}
    (hstep : ∀ s s' i, R s s' → Lockstep d R (· = ·) (step s i) (step' s' i))
    (is : List ι) (hs : R s s') :
    Lockstep d R (· = ·) (Outcome.forEach step s is) (Outcome.forEach step' s' is) := by
  refine (Abreast.forEach (X := False) (J := fun _ => []) ?_ ?_ ?_ hs).lockstep
  · exact fun s s' i _ h => .alike (hstep s s' i h)
  · exact fun _ _ _ => List.prefix_rfl
  · exact fun _ _ _ => List.prefix_rfl

end Lockstep

end Outcome

end PinRing
