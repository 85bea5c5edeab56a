import PinRing.Proofs.Placement.Reservation

/-! Sessions.  The matchings of some sections, which may overlap, are worked in any order on one
board, and slots are marked in between, so what a matching has found may be out of date when it is
committed.  A pass over pins looks at every slot again.  A pass over groups does not: it takes slots
that were free when its blocks were found and that something else has taken since. -/

namespace PinRing

open Board

/-- What a matching can be asked to do. -/
inductive Request where
  | findPins (mirrored : Bool)
  | commitPins (mirrored : Bool)
  | reserve
  | findGroups
  | commitGroups
deriving DecidableEq

/-- One call of a session; matchings are named by position. -/
inductive Call where
  | ask (i : Nat) (request : Request)
  | markUsed (slot : Nat)
  | markBlocked (slot : Nat)
deriving DecidableEq

/-- Carries out a request on a board. -/
def Matching.perform (m : Matching) (board : Board) : Request → Outcome (Matching × Board) Unit
  | .findPins mirrored => (m.findPins board mirrored).mapState (·, board)
  | .commitPins mirrored => ((m.commitPins board mirrored).mapState (m, ·)).mapAnswer fun _ => ()
  | .reserve => (m.reserveBlocks board).mapState (·, board)
  | .findGroups => (m.findGroups board).mapState (·, board)
  | .commitGroups => (m.commitGroups board).mapAnswer fun _ => ()

/-- The matchings of some sections on one board.  Several matchings may be of one section, so each
has the position of its section, and the sections stand by themselves. -/
structure Session where
  board : Board
  sections : List Section
  matchings : List (Nat × Matching)

namespace Session

/-- A matching with its section as it stands, and the position of the section. -/
def matching? (s : Session) (i : Nat) : Option (Nat × Matching) := do
  let (home, m) ← s.matchings[i]?
  let sec ← s.sections[home]?
  return (home, { m with sec })

def store (s : Session) (i home : Nat) (m : Matching) (board : Board) : Session :=
  { board, sections := s.sections.set home m.sec, matchings := s.matchings.set i (home, m) }

def mark (s : Session) (marked : Except Fault Boundary) : Outcome Session Unit :=
  (Outcome.lift s marked).andThen fun s boundary =>
    .done { s with board := { s.board with boundary } } ()

def call (s : Session) : Call → Outcome Session Unit
  | .ask i request =>
    match s.matching? i with
    | none => .stop s .outOfRange
    | some (home, m) =>
      (m.perform s.board request).mapState fun (m, board) => s.store i home m board
  | .markUsed slot => s.mark (s.board.boundary.markUsed slot)
  | .markBlocked slot => s.mark (s.board.boundary.markBlocked slot)

/-- The session after some calls.  The fault of a call does not end the session. -/
def after (s : Session) (calls : List Call) : Session :=
  calls.foldl (fun s c => (s.call c).state) s

/-- The matchings have been set up, and nothing was worked out yet. -/
def Fresh (s : Session) : Prop :=
  ∀ entry ∈ s.matchings, ∃ sec model reflection strict,
    s.sections[entry.1]? = some sec ∧ entry.2 = .ofSection sec model reflection strict

end Session

/-- What the last find of a matching was about.  For groups the board is kept on which their blocks
were found. -/
inductive Basis where
  | nothing
  | pins
  | groups (board : Board)

/-- How a group can come to lie on a slot that is taken now: it is put on rows that were found for
pins, or its block was found on a board on which the slot was still free. -/
inductive Basis.Overlap (now : Board) (slot : Nat) : Basis → Prop
  | mixed : Overlap now slot .pins
  | overtaken {found : Board} (free : found.boundary.isAvailable slot)
      (taken : ¬now.boundary.isAvailable slot) : Overlap now slot (.groups found)

/-- The basis after a request.  A find of groups that builds no matrix leaves the old one. -/
def Matching.rebase (m : Matching) (board : Board) (basis : Basis) : Request → Basis
  | .findPins _ => .pins
  | .findGroups =>
    match m.groupMatrix board with
    | .ok _ => .groups board
    | .error _ => basis
  | _ => basis

namespace Session

def rebase (s : Session) (i : Nat) (basis : Basis) : Call → Basis
  | .ask k request =>
    match s.matching? k with
    | some (_, m) => if k = i then m.rebase s.board basis request else basis
    | none => basis
  | _ => basis

def basisFrom (i : Nat) (s : Session) (basis : Basis) : List Call → Basis
  | [] => basis
  | c :: cs => basisFrom i (s.call c).state (s.rebase i basis c) cs

/-- The basis of a matching after the calls of a session. -/
def lastFind (s : Session) (calls : List Call) (i : Nat) : Basis :=
  basisFrom i s .nothing calls

end Session

/-! ### One request -/

namespace Matching

/-- A request commits pins only on free slots of their own, and groups along the blocks that were
worked out last. -/
theorem perform_commits (m : Matching) (board : Board) (request : Request) :
    ∃ cs, (m.perform board request).state.2 = board.takeAll cs ∧
      (board.takeAll cs).journal = board.journal ++ cs ∧
      (board.Open cs ∨ request = .commitGroups ∧
        cs.Sublist (GroupPass.fullLayout m.sec m.matrix m.assignment)) := by
  have hnone : (board.takeAll []).journal = board.journal ++ [] := (List.append_nil _).symm
  cases request with
  | findPins | reserve | findGroups => exact ⟨[], rfl, hnone, .inl (.nil board)⟩
  | commitPins mirrored =>
    -- The matrix may be one for other pins or groups, or out of date; the pass checks anyway.
    let mode : PinPass.Mode := { mirrored, strict := m.strict, reflection := m.reflection }
    have hall : ∀ pin ∈ m.matrix.columns, Scope.all.pins mode.origin pin := fun _ _ => trivial
    obtain ⟨cs, hmoves, hstate, -⟩ := PinPass.run_moves board m.assignment mode hall
    have hopen := hmoves.isOpen
    exact ⟨cs, (m.commitPins_eq board mirrored).1.trans hstate, hopen.journal, .inl hopen⟩
  | commitGroups =>
    obtain ⟨cs, room, hsub, hstate, hjournal⟩ :=
      GroupPass.run_adds board m.sec m.matrix m.assignment m.blockSize
    have hboard := (m.commitGroups_eq board).2.1
    rw [hstate] at hboard
    exact ⟨cs, hboard, hjournal, .inr ⟨rfl, hsub⟩⟩

/-- A request changes the room of the section and what was worked out, and nothing else. -/
theorem perform_like (m : Matching) (board : Board) (request : Request) :
    m.Like (m.perform board request).state.1 := by
  have hadopted : ∀ built log, m.Like (m.adopt built log).state := by
    intro built log
    obtain ⟨matrix, assignment, hm⟩ := m.adopt_keeps built log
    rw [hm]
    exact ⟨⟨m.sec.room, rfl⟩, rfl, rfl⟩
  cases request with
  | findPins mirrored => exact hadopted _ _
  | commitPins mirrored => exact ⟨⟨m.sec.room, rfl⟩, rfl, rfl⟩
  | reserve =>
    obtain ⟨reserved, hm⟩ := m.reserveBlocks_keeps board
    have hstate : (m.perform board .reserve).state.1 = { m with reserved } := hm
    rw [hstate]
    exact ⟨⟨m.sec.room, rfl⟩, rfl, rfl⟩
  | findGroups => exact hadopted _ _
  | commitGroups =>
    obtain ⟨cs, room, -, hstate, -⟩ :=
      GroupPass.run_adds board m.sec m.matrix m.assignment m.blockSize
    obtain ⟨-, -, hsec, hmodel, hsize⟩ := m.commitGroups_eq board
    rw [hstate] at hsec
    exact ⟨⟨room, hsec⟩, hmodel, hsize⟩

end Matching

/-- The rows of the matching stand for what the basis says. -/
def Basis.Fits (m : Matching) : Basis → Prop
  | .nothing => m.matrix.rowSlots = []
  | .pins => True
  | .groups board => Section.Blocks board.boundary m.blockSize m.matrix.rowSlots

namespace Matching

variable {m : Matching} {basis : Basis}

theorem fits_of_nil (h : m.matrix.rowSlots = []) (basis : Basis) : basis.Fits m := by
  cases basis with
  | nothing => exact h
  | pins => trivial
  | groups board =>
    rw [Basis.Fits, h]
    exact ⟨fun _ hmem => (nomatch hmem), .nil⟩

theorem perform_fits (h : basis.Fits m) (board : Board) (request : Request) :
    (m.rebase board basis request).Fits (m.perform board request).state.1 := by
  cases request with
  | findPins mirrored => trivial
  | commitPins mirrored => exact h
  | reserve =>
    obtain ⟨reserved, hm⟩ := m.reserveBlocks_keeps board
    have hstate : (m.perform board .reserve).state.1 = { m with reserved } := hm
    rw [hstate]
    cases basis <;> exact h
  | findGroups =>
    have hstate : (m.perform board .findGroups).state.1 =
      (m.adopt (m.groupMatrix board) m.sec.groupMatrixLog).state := rfl
    rw [hstate, rebase]
    cases hmatrix : m.groupMatrix board with
    | error f => exact h
    | ok matrix =>
      have hblocks := Section.groupMatrix_blocks hmatrix
      simp only [adopt]
      split <;> exact hblocks
  | commitGroups =>
    simp only [perform, commitGroups, Outcome.mapAnswer, Outcome.andThen, Outcome.mapState]
    -- A fault leaves the matrix as it is, and otherwise it is thrown away.
    split
    · cases basis <;> exact h
    · exact fits_of_nil rfl _

/-- The commits of a group pass go to different slots, which were free when the blocks were
found. -/
theorem commit_free {found : Board} {pre post : List Commit} {c : Commit} (board : Board)
    (hsize : m.blockSize = m.sec.blockSize) (hfits : (Basis.groups found).Fits m)
    (hsub : (pre ++ c :: post).Sublist (GroupPass.fullLayout m.sec m.matrix m.assignment)) :
    found.boundary.isAvailable c.slot ∧
      (board.takeAll pre).boundary.isAvailable c.slot = board.boundary.isAvailable c.slot := by
  have hgroups : ∀ g ∈ m.sec.groups, g.size ≤ m.blockSize := fun g hg =>
    hsize ▸ Section.size_le_blockSize hg
  obtain ⟨hnodup, hfree⟩ := GroupPass.fullLayout_apart hfits hgroups m.assignment
  have hmem : c ∈ pre ++ c :: post := List.mem_append_right pre List.mem_cons_self
  refine ⟨hfree c (hsub.subset hmem), isAvailable_takeAll_of_notMem fun hpre => ?_⟩
  -- The commits before this one went to other slots, so it finds its slot as the call did.
  have hslots := hnodup.sublist (hsub.map (·.slot))
  rw [List.map_append, List.map_cons] at hslots
  exact (List.nodup_append.mp hslots).2.2 _ hpre _ List.mem_cons_self rfl

/-- A group goes to a slot that is taken only as its basis says. -/
theorem commit_free_or_overlap {board : Board} {pre post : List Commit} {c : Commit}
    (hsize : m.blockSize = m.sec.blockSize) (hfits : basis.Fits m)
    (hsub : (pre ++ c :: post).Sublist (GroupPass.fullLayout m.sec m.matrix m.assignment)) :
    (board.takeAll pre).boundary.isAvailable c.slot ∨ basis.Overlap board c.slot := by
  cases basis with
  | nothing =>
    obtain ⟨hfree, hnow⟩ := commit_free board hsize (fits_of_nil hfits (.groups board)) hsub
    exact .inl (hnow.trans hfree)
  | pins => exact .inr .mixed
  | groups found =>
    obtain ⟨hfree, hnow⟩ := commit_free board hsize hfits hsub
    rw [hnow]
    by_cases havailable : board.boundary.isAvailable c.slot
    · exact .inl havailable
    · exact .inr (.overtaken hfree havailable)

end Matching

/-! ### Calls -/

namespace Session

variable {s : Session} {i home : Nat} {m n : Matching} {basis : Basis}

theorem matching?_eq_some : s.matching? i = some (home, m) ↔
    ∃ n sec, s.matchings[i]? = some (home, n) ∧ s.sections[home]? = some sec ∧
      m = { n with sec } := by
  unfold matching?
  constructor
  · intro h
    obtain ⟨⟨k, n⟩, hn, h⟩ := Option.bind_eq_some_iff.mp h
    obtain ⟨sec, hsec, h⟩ := Option.bind_eq_some_iff.mp h
    cases h
    exact ⟨n, sec, hn, hsec, rfl⟩
  · rintro ⟨n, sec, hn, hsec, rfl⟩
    simp [hn, hsec]

/-- A call has a matching carry out a request, or it touches no matching and commits nothing. -/
theorem call_cases (s : Session) (c : Call) :
    (∃ boundary, (s.call c).state = { s with board := { s.board with boundary } } ∧
      ∀ i basis, s.rebase i basis c = basis) ∨
    ∃ k request home m, c = .ask k request ∧ s.matching? k = some (home, m) ∧
      (s.call c).state = s.store k home (m.perform s.board request).state.1
        (m.perform s.board request).state.2 := by
  have hmark : ∀ marked, ∃ boundary,
      (s.mark marked).state = { s with board := { s.board with boundary } } := by
    intro marked
    cases marked with
    | error f => exact ⟨s.board.boundary, rfl⟩
    | ok boundary => exact ⟨boundary, rfl⟩
  cases c with
  | ask k request =>
    cases hm : s.matching? k with
    | none => exact .inl ⟨s.board.boundary, by simp [call, hm, Outcome.stop], by simp [rebase, hm]⟩
    | some entry =>
      obtain ⟨home, m⟩ := entry
      exact .inr ⟨k, request, home, m, rfl, hm, by simp [call, hm, Outcome.mapState]⟩
  | markUsed slot =>
    obtain ⟨boundary, hstate⟩ := hmark (s.board.boundary.markUsed slot)
    exact .inl ⟨boundary, hstate, fun _ _ => rfl⟩
  | markBlocked slot =>
    obtain ⟨boundary, hstate⟩ := hmark (s.board.boundary.markBlocked slot)
    exact .inl ⟨boundary, hstate, fun _ _ => rfl⟩

/-- The blocks of every matching are as large as the largest group of its section, and the rows of
one matching are what its basis says. -/
structure Sound (s : Session) (i : Nat) (basis : Basis) : Prop where
  sized : ∀ entry ∈ s.matchings, ∃ sec, s.sections[entry.1]? = some sec ∧
    entry.2.blockSize = sec.blockSize
  fits : ∀ entry, s.matchings[i]? = some entry → basis.Fits entry.2

theorem Fresh.sound (h : s.Fresh) (i : Nat) : s.Sound i .nothing where
  sized := by
    intro entry hentry
    obtain ⟨sec, model, reflection, strict, hsec, hm⟩ := h entry hentry
    exact ⟨sec, hsec, by rw [hm]; rfl⟩
  fits := by
    intro entry hentry
    obtain ⟨sec, model, reflection, strict, -, hm⟩ := h entry (List.mem_of_getElem? hentry)
    rw [hm]
    rfl

/-- What holds of a stored matching holds of it with its section as it stands. -/
theorem Sound.matching (h : s.Sound i basis) (hm : s.matching? i = some (home, m)) :
    m.blockSize = m.sec.blockSize ∧ basis.Fits m := by
  obtain ⟨n, sec, hn, hsec, rfl⟩ := matching?_eq_some.mp hm
  obtain ⟨sec', hsec', hsize⟩ := h.sized _ (List.mem_of_getElem? hn)
  rw [hsec] at hsec'
  cases hsec'
  refine ⟨hsize, ?_⟩
  have hfits := h.fits _ hn
  cases basis <;> exact hfits

/-- A matching that is put back with more room or less keeps the sizes of all blocks. -/
theorem Sound.store {k : Nat} {next : Basis} (h : s.Sound i basis)
    (hm : s.matching? k = some (home, m)) (hlike : m.Like n) (hfits : k = i → next.Fits n)
    (hother : k ≠ i → next = basis) (board : Board) : (s.store k home n board).Sound i next where
  sized := by
    obtain ⟨m', sec, hm', hsec, rfl⟩ := matching?_eq_some.mp hm
    obtain ⟨room, hroom⟩ := hlike.sec_eq
    have hsame : n.sec.blockSize = sec.blockSize := by
      rw [hroom]
      rfl
    -- A section that is shared has the same groups as before.
    have hsections : ∀ (j : Nat) (t : Section), s.sections[j]? = some t →
        ∃ u, (s.sections.set home n.sec)[j]? = some u ∧ u.blockSize = t.blockSize := by
      intro j t ht
      by_cases hj : home = j
      · subst hj
        rw [hsec] at ht
        cases ht
        exact ⟨n.sec, List.getElem?_set_self (List.getElem?_eq_some_iff.mp hsec).1, hsame⟩
      · exact ⟨t, (List.getElem?_set_ne hj).trans ht, rfl⟩
    intro entry hentry
    rcases List.mem_or_eq_of_mem_set hentry with hentry | rfl
    · obtain ⟨t, ht, hsize⟩ := h.sized entry hentry
      obtain ⟨u, hu, heq⟩ := hsections _ t ht
      exact ⟨u, hu, hsize.trans heq.symm⟩
    · obtain ⟨t, ht, hsize⟩ := h.sized _ (List.mem_of_getElem? hm')
      obtain ⟨u, hu, heq⟩ := hsections _ t ht
      exact ⟨u, hu, hlike.blockSize_eq.trans (hsize.trans heq.symm)⟩
  fits := by
    intro entry hentry
    obtain ⟨m', sec, hm', -, -⟩ := matching?_eq_some.mp hm
    by_cases hk : k = i
    · subst hk
      rw [Session.store, List.getElem?_set_self (List.getElem?_eq_some_iff.mp hm').1] at hentry
      cases hentry
      exact hfits rfl
    · rw [Session.store, List.getElem?_set_ne hk] at hentry
      rw [hother hk]
      exact h.fits entry hentry

theorem Sound.call (h : s.Sound i basis) (c : Call) :
    (s.call c).state.Sound i (s.rebase i basis c) := by
  rcases s.call_cases c with ⟨boundary, hstate, hbasis⟩ | ⟨k, request, home, m, rfl, hm, hstate⟩
  · rw [hstate, hbasis]
    exact ⟨h.sized, h.fits⟩
  · rw [hstate]
    refine h.store hm (m.perform_like s.board request) ?_ ?_ _
    · rintro rfl
      simp only [rebase, hm, if_true]
      exact Matching.perform_fits (h.matching hm).2 s.board request
    · intro hk
      simp only [rebase, hm, if_neg hk]

theorem Sound.after (h : s.Sound i basis) (calls : List Call) :
    (s.after calls).Sound i (basisFrom i s basis calls) := by
  induction calls generalizing s basis with
  | nil => exact h
  | cons c calls ih => exact ih (h.call c)

end Session

/-- In a session over matchings of any sections, each commit goes to a slot that is free at that
moment, except that a group can be committed on a slot that was free when the blocks of its matching
were found and has been taken since, or on the rows of a find of pins. -/
theorem session_commits {start : Session} (hfresh : start.Fresh) (done : List Call) (c : Call) :
    let before := (start.after done).board
    let next := ((start.after done).call c).state.board
    ∃ cs, next.journal = before.journal ++ cs ∧ (cs = [] ∨ next = before.takeAll cs) ∧
      ∀ pre d post, cs = pre ++ d :: post →
        (before.takeAll pre).boundary.isAvailable d.slot ∨
          ∃ i, c = .ask i .commitGroups ∧ (start.lastFind done i).Overlap before d.slot := by
  intro before next
  rcases (start.after done).call_cases c with
    ⟨boundary, hstate, -⟩ | ⟨k, request, home, m, rfl, hm, hstate⟩
  · refine ⟨[], ?_, .inl rfl, fun pre d post hcs => ?_⟩
    · simp only [next, hstate, before, List.append_nil]
    · simp at hcs
  · obtain ⟨hsize, hfits⟩ := ((hfresh.sound k).after done).matching hm
    obtain ⟨cs, hboard, hjournal, hcommits⟩ := m.perform_commits before request
    have hnext : next = before.takeAll cs := by
      simp only [next, hstate]
      exact hboard
    refine ⟨cs, by rw [hnext, hjournal], .inr hnext, ?_⟩
    rintro pre d post rfl
    rcases hcommits with hopen | ⟨rfl, hsub⟩
    · have hlater := (Open.append_iff.mp hopen).2
      exact .inl (Open.cons_iff.mp hlater).1.free
    · rcases Matching.commit_free_or_overlap hsize hfits hsub with hfree | hoverlap
      · exact .inl hfree
      · exact .inr ⟨k, rfl, hoverlap⟩

/-- Two matchings of one section, in which a group of two pins has two slots to go to. -/
def twoOverOne : Session :=
  let sec : Section :=
    { first := 0, stop := 2, edge := .bottom, room := 2, groups := [⟨[0, 1], false, "bus"⟩] }
  let m : Matching := .ofSection sec (fun _ _ => .ok (.finite 0)) none true
  { board :=
      { boundary := { slots := #[⟨⟨10, 0⟩, 1, .bottom, false, false⟩,
          ⟨⟨20, 0⟩, 1, .bottom, false, false⟩] }
        pins :=
          { pins := #[⟨"a", none, true⟩, ⟨"b", none, true⟩]
            groups := [⟨[0, 1], false, "bus"⟩]
            mirrors := [] } }
    sections := [sec]
    matchings := [(0, m), (0, m)] }

theorem twoOverOne_fresh : twoOverOne.Fresh := by
  intro entry hentry
  rcases List.mem_cons.mp hentry with rfl | hentry
  · exact ⟨_, _, _, _, rfl, rfl⟩
  · obtain rfl := List.mem_singleton.mp hentry
    exact ⟨_, _, _, _, rfl, rfl⟩

/-- The matching that commits first finds its slots free. -/
theorem session_commits_twoOverOne :
    let done : List Call := [.ask 0 .findGroups, .ask 1 .findGroups]
    let before := (twoOverOne.after done).board
    let next := ((twoOverOne.after done).call (.ask 0 .commitGroups)).state.board
    twoOverOne.Fresh ∧ next.journal = [⟨0, 0, .group⟩, ⟨1, 1, .group⟩] ∧
      ∀ pre d post, next.journal = pre ++ d :: post →
        (before.takeAll pre).boundary.isAvailable d.slot := by
  intro done before next
  obtain ⟨cs, hjournal, -, hcs⟩ :=
    session_commits twoOverOne_fresh done (.ask 0 .commitGroups)
  refine ⟨twoOverOne_fresh, by decide +kernel, fun pre d post hsplit => ?_⟩
  have hempty : before.journal = [] := rfl
  refine (hcs pre d post ?_).resolve_right ?_
  · rw [← hsplit]
    exact (hjournal.trans (by rw [hempty, List.nil_append])).symm
  · rintro ⟨i, hi, hoverlap⟩
    cases hi
    have hbasis : twoOverOne.lastFind done 0 = .groups twoOverOne.board := rfl
    rw [hbasis] at hoverlap
    cases hoverlap with
    | overtaken free taken => exact taken free

/-- The other matching still has the same block, and commits the group again on the same slots,
which are used and out of use by then. -/
theorem session_commits_taken :
    let done : List Call := [.ask 0 .findGroups, .ask 1 .findGroups, .ask 0 .commitGroups]
    let before := (twoOverOne.after done).board
    let called := (twoOverOne.after done).call (.ask 1 .commitGroups)
    twoOverOne.Fresh ∧ called.answer = .ok () ∧
      called.state.board.journal = before.journal ++ [⟨0, 0, .group⟩, ⟨1, 1, .group⟩] ∧
      ∀ slot ∈ [0, 1], before.boundary.isUsed slot ∧ before.boundary.isBlocked slot := by
  intro done before called
  exact ⟨twoOverOne_fresh, by rfl, by decide +kernel, by decide +kernel⟩

end PinRing
