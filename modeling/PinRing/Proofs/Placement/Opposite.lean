import PinRing.Proofs.Geometry.Outline
import PinRing.Proofs.Placement.Pairs

/-! Slots that lie opposite to each other.  Where every available slot has an available one opposite
to it, placing mirror pairs keeps it so. -/

namespace PinRing

/-- The reflection exchanges points, and leaves none where it is. -/
structure Reflection.Swaps (reflect : Reflection) : Prop where
  symm : ∀ p q, reflect.Sends p q → reflect.Sends q p
  ne : ∀ p, ¬reflect.Sends p p

theorem Outline.reflection_swaps (c : Outline) : c.reflection.Swaps where
  symm _ _ := sends_symm
  ne := c.not_sends_self

namespace Board

variable {reflect : Reflection} {b after : Board} {i j k : Nat} {cs : List Commit}

/-- The slot `j` has the position to which the slot `i` is reflected, on the same layer. -/
def Opposite (reflect : Reflection) (b : Board) (i j : Nat) : Prop :=
  ∃ s image, b.boundary.slots[i]? = some s ∧ reflect.Sends s.pos image ∧
    b.boundary.slotAt? image s.layer = some j

/-- Every available slot has an available slot opposite to it. -/
def Closed (reflect : Reflection) (b : Board) : Prop :=
  ∀ i, b.boundary.isAvailable i → ∃ j, Opposite reflect b i j ∧ b.boundary.isAvailable j

/-- Only mirror pairs may be placed. -/
def pairScope : Scope := ⟨fun o _ => o = .pair, fun _ => False⟩

theorem Opposite.frame (hframe : Frame b after) (h : Opposite reflect b i j) :
    Opposite reflect after i j := by
  obtain ⟨s, image, hs, hreflect, hat⟩ := h
  obtain ⟨t, ht, hpos, hlayer⟩ := hframe.slot hs
  exact ⟨t, image, ht, hpos ▸ hreflect, by rw [hframe.slotAt?, hlayer, hat]⟩

theorem Opposite.unique (h : Opposite reflect b i j) (h' : Opposite reflect b i k) : j = k := by
  obtain ⟨s, image, hs, hreflect, hat⟩ := h
  obtain ⟨s', image', hs', hreflect', hat'⟩ := h'
  obtain rfl := Option.some.inj (hs.symm.trans hs')
  obtain rfl := hreflect.unique hreflect'
  exact Option.some.inj (hat.symm.trans hat')

theorem Opposite.symm (hapart : b.boundary.Apart) (hswaps : reflect.Swaps)
    (h : Opposite reflect b i j) : Opposite reflect b j i := by
  obtain ⟨s, image, hs, hreflect, hat⟩ := h
  obtain ⟨t, ht, rfl, hlayer⟩ := Boundary.slot_of_slotAt? hat
  exact ⟨t, s.pos, ht, hswaps.symm _ _ hreflect, hlayer ▸ hapart.slotAt?_eq hs⟩

theorem Opposite.ne (hswaps : reflect.Swaps) (h : Opposite reflect b i j) : i ≠ j := by
  rintro rfl
  obtain ⟨s, image, hs, hreflect, hat⟩ := h
  obtain ⟨t, ht, rfl, -⟩ := Boundary.slot_of_slotAt? hat
  obtain rfl := Option.some.inj (hs.symm.trans ht)
  exact hswaps.ne _ hreflect

/-- A pair takes two slots that lie opposite to each other, so no other slot loses its own. -/
theorem Closed.move (hapart : b.boundary.Apart) (hswaps : reflect.Swaps) (h : Closed reflect b)
    (hm : Move (some reflect) pairScope b cs) : Closed reflect (b.takeAll cs) := by
  have hopen := hm.isOpen
  cases hm with
  | single elig => cases elig
  | group entitled => exact entitled.elim
  | @pair pin partner slot other s reflect' image _ given _ _ _ _ _ _ at_slot reflected at_image =>
    obtain rfl := Option.some.inj given
    have hopposite : Opposite reflect b slot other := ⟨s, image, at_slot, reflected, at_image⟩
    have hback := hopposite.symm hapart hswaps
    intro i hi
    obtain ⟨hfree, hout⟩ := (hopen.isAvailable i).mp hi
    obtain ⟨j, hij, hj⟩ := h i hfree
    simp only [List.map_cons, List.map_nil, List.mem_cons, List.not_mem_nil, or_false, not_or]
      at hout
    refine ⟨j, hij.frame hopen.frame, (hopen.isAvailable j).mpr ⟨hj, fun hmem => ?_⟩⟩
    simp only [List.map_cons, List.map_nil, List.mem_cons, List.not_mem_nil, or_false] at hmem
    have hji := hij.symm hapart hswaps
    rcases hmem with rfl | rfl
    · exact hout.2 (hji.unique hopposite)
    · exact hout.1 (hji.unique hback)

theorem Closed.moves (hapart : b.boundary.Apart) (hswaps : reflect.Swaps) (h : Closed reflect b)
    (hm : Moves (some reflect) pairScope b cs) : Closed reflect (b.takeAll cs) := by
  induction hm with
  | nil b => exact h
  | cons head _ ih =>
    rw [takeAll_append]
    exact ih (head.isOpen.frame.apart hapart) (h.move hapart hswaps head)

end Board

end PinRing
