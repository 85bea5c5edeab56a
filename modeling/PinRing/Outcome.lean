import PinRing.Fault
import PinRing.Log

/-! The outcome of an operation that may stop half way.  Whatever it changed before a fault stays
changed, so an outcome holds the state that was reached together with the answer or the fault. -/

namespace PinRing

/-- The state that an operation leaves behind, what it reported on the way, and its answer or the
fault that stopped it. -/
structure Outcome (σ α : Type) where
  state : σ
  log : List LogEntry := []
  answer : Except Fault α

namespace Outcome

variable {σ τ α β ι : Type}

/-- Success with nothing to report. -/
def done (s : σ) (a : α) : Outcome σ α := { state := s, answer := .ok a }

/-- A fault that leaves the state as it is. -/
def stop (s : σ) (f : Fault) : Outcome σ α := { state := s, answer := .error f }

/-- A computation that changes no state. -/
def lift (s : σ) (e : Except Fault α) : Outcome σ α := { state := s, answer := e }

/-- Goes on from a success with the state it left; a fault ends the whole. -/
def andThen (o : Outcome σ α) (k : σ → α → Outcome σ β) : Outcome σ β :=
  match o.answer with
  | .error f => { state := o.state, log := o.log, answer := .error f }
  | .ok a =>
    let next := k o.state a
    { state := next.state, log := o.log ++ next.log, answer := next.answer }

def mapState (g : σ → τ) (o : Outcome σ α) : Outcome τ α :=
  { state := g o.state, log := o.log, answer := o.answer }

def mapAnswer (g : α → β) (o : Outcome σ α) : Outcome σ β :=
  { state := o.state, log := o.log, answer := o.answer.map g }

/-- One more report, after all others. -/
def report (o : Outcome σ α) (e : LogEntry) : Outcome σ α :=
  { o with log := o.log ++ [e] }

/-- Runs `step` on each item in turn, up to the first fault. -/
def forEach (step : σ → ι → Outcome σ Unit) : σ → List ι → Outcome σ Unit
  | s, [] => done s ()
  | s, i :: is => (step s i).andThen fun s' _ => forEach step s' is

@[simp] theorem done_andThen (s : σ) (a : α) (k : σ → α → Outcome σ β) :
    (done s a).andThen k = k s a := by
  simp [done, andThen]

@[simp] theorem stop_andThen (s : σ) (f : Fault) (k : σ → α → Outcome σ β) :
    (stop s f : Outcome σ α).andThen k = stop s f := rfl

@[simp] theorem lift_ok (s : σ) (a : α) : lift s (.ok a) = done s a := rfl

@[simp] theorem lift_error (s : σ) (f : Fault) : (lift s (.error f) : Outcome σ α) = stop s f := rfl

@[simp] theorem forEach_nil (step : σ → ι → Outcome σ Unit) (s : σ) :
    forEach step s [] = done s () := rfl

theorem forEach_cons (step : σ → ι → Outcome σ Unit) (s : σ) (i : ι) (is : List ι) :
    forEach step s (i :: is) = (step s i).andThen fun s' _ => forEach step s' is := rfl

theorem andThen_of_ok {o : Outcome σ α} {a : α} (h : o.answer = .ok a) (k : σ → α → Outcome σ β) :
    o.andThen k =
      { state := (k o.state a).state
        log := o.log ++ (k o.state a).log
        answer := (k o.state a).answer } := by
  simp [andThen, h]

theorem andThen_of_error {o : Outcome σ α} {f : Fault} (h : o.answer = .error f)
    (k : σ → α → Outcome σ β) :
    o.andThen k = { state := o.state, log := o.log, answer := .error f } := by
  simp [andThen, h]

/-- What holds after the first part and is kept by the second holds after both. -/
theorem andThen_state {P : σ → Prop} {o : Outcome σ α} {k : σ → α → Outcome σ β} (h : P o.state)
    (hk : ∀ a, P (k o.state a).state) : P (o.andThen k).state := by
  cases ha : o.answer with
  | error f => simpa [andThen_of_error ha] using h
  | ok a => simpa [andThen_of_ok ha] using hk a

/-- What the step for every item keeps holds after the run, whether it was stopped or not. -/
theorem forEach_state {P : σ → Prop} {step : σ → ι → Outcome σ Unit} {is : List ι}
    (hstep : ∀ s, ∀ i ∈ is, P s → P (step s i).state) {s : σ} (h : P s) :
    P (forEach step s is).state := by
  induction is generalizing s with
  | nil => exact h
  | cons i is ih =>
    have hfirst := hstep s i List.mem_cons_self h
    have hrest := ih (fun s j hj => hstep s j (List.mem_cons_of_mem _ hj)) hfirst
    rw [forEach_cons]
    cases ha : (step s i).answer with
    | error f => simpa [andThen_of_error ha] using hfirst
    | ok a => simpa [andThen_of_ok ha] using hrest

/-- A run over two lists is a run over the first, then over the second. -/
theorem forEach_append (step : σ → ι → Outcome σ Unit) (s : σ) (is js : List ι) :
    forEach step s (is ++ js) = (forEach step s is).andThen fun s' _ => forEach step s' js := by
  induction is generalizing s with
  | nil => simp
  | cons i is ih =>
    rw [List.cons_append, forEach_cons, forEach_cons]
    cases ha : (step s i).answer with
    | error f => simp [andThen, ha]
    | ok a =>
      rw [andThen_of_ok ha, andThen_of_ok ha, ih]
      cases hb : (forEach step (step s i).state is).answer <;> simp [andThen, hb]

end Outcome

end PinRing
