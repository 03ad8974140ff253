import Coedit.Proofs.Operation.Offsets

/-!
# Offsets stay in order and within bounds

An offset is moved through the components one by one: each of them holds it and gives it its place,
or passes it on. `moveOffset_cons` says this for all kinds of components at once, in terms of the
distance `k` from the start of the component:

> `Component.Holds side k`: the component holds what is `k` characters in.
> `Component.place side k`: how far into the new text of the component it goes.

What is needed about single components is little. The place is within the new text, an offset that
is passed on is not before the end of the old text, and a component that holds an offset holds
smaller ones too, at smaller places. From this the walk as a whole keeps the order of offsets
(`moveOffset_mono`) and does not leave the new text (`moveOffset_le`). It can fail only at its end,
where an offset that no component holds is added to the new length (`moveOffset_eq_error`). So an
offset can be moved if it is before the end or the sum is a word (`Operation.Carries`), and every
offset of the old text if both lengths together are (`Operation.lands_mapOffset`).

> `Operation.mapOffset_ordered_within`: all of this for operations.
-/

namespace Coedit

namespace Component

/-- Does the component hold what is `k` characters in? An insertion holds only what lies at it, and
only if that is to stay on the left. -/
def Holds (side : Side) (k : Nat) : Component → Prop
  | retain n => k < n
  | replace d _ => k < d.length ∨ k = 0 ∧ d.length = 0 ∧ side = .left

instance (side : Side) (k : Nat) : (c : Component) → Decidable (c.Holds side k)
  | retain n => inferInstanceAs (Decidable (k < n))
  | replace _ _ => inferInstanceAs (Decidable (_ ∨ _))

/-- How far into the new text it goes. -/
def place (side : Side) (k : Nat) : Component → Nat
  | retain _ => k
  | replace _ i => side.edge 0 i.length

variable {side side' : Side} {c : Component} {k k' : Nat}

theorem place_le_lenAfter (h : c.Holds side k) : c.place side k ≤ c.lenAfter := by
  cases c with
  | retain n => exact Nat.le_of_lt h
  | replace d i => cases side <;> simp [place, Side.edge, lenAfter]

theorem lenBefore_le_of_not_holds (h : ¬ c.Holds side k) : c.lenBefore ≤ k := by
  cases c with
  | retain n => exact Nat.not_lt.mp h
  | replace d i => exact Nat.not_lt.mp fun hk => h (Or.inl hk)

theorem le_lenBefore_of_holds (h : c.Holds side k) : k ≤ c.lenBefore := by
  cases c with
  | retain n => exact Nat.le_of_lt h
  | replace d i =>
    rcases h with h | ⟨rfl, _⟩
    · exact Nat.le_of_lt h
    · exact Nat.zero_le _

/-- What is behind a component is passed on, and so is what is at its end and goes to the right. -/
theorem not_holds_of_le (h : c.lenBefore ≤ k) (hside : side = .right ∨ 0 < k) :
    ¬ c.Holds side k := by
  cases c with
  | retain n => exact Nat.not_lt.mpr h
  | replace d i =>
    rintro (hk | ⟨hk, _, hleft⟩)
    · exact Nat.not_lt.mpr h hk
    · rcases hside with rfl | hpos
      · cases hleft
      · omega

/-- What lies before something held, or is more to the left, is held too, and not behind it. -/
theorem Holds.mono (h : c.Holds side' k') (hk : k ≤ k') (hside : side = side' ∨ side = .left) :
    c.Holds side k ∧ c.place side k ≤ c.place side' k' := by
  cases c with
  | retain n => exact ⟨Nat.lt_of_le_of_lt hk h, hk⟩
  | replace d i =>
    constructor
    · rcases h with h | ⟨rfl, hd, rfl⟩
      · exact Or.inl (Nat.lt_of_le_of_lt hk h)
      · exact Or.inr ⟨Nat.le_zero.mp hk, hd, hside.elim id id⟩
    · rcases hside with rfl | rfl
      · exact Nat.le_refl _
      · exact Nat.zero_le _

end Component

/-- **One step of the walk.** The first component holds the offset, or passes it on. -/
theorem moveOffset_cons {side : Side} {o before after : Nat} (h : before ≤ o) (c : Component)
    (cs : List Component) :
    moveOffset side o (c :: cs) before after =
      if c.Holds side (o - before) then .ok (after + c.place side (o - before))
      else moveOffset side o cs (before + c.lenBefore) (after + c.lenAfter) := by
  cases c with
  | retain n =>
    rw [moveOffset_retain h]
    have hiff : o < before + n ↔ o - before < n := by omega
    simp only [hiff]
    rfl
  | replace d i =>
    cases side <;> grind [moveOffset, Component.Holds, Component.place, Side.edge,
      Component.lenBefore, Component.lenAfter]

section Walk

variable {side side' : Side} {cs : List Component} {o x y before after r r' : Nat}

/-- No offset goes back behind what has been walked. -/
theorem le_of_moveOffset (h : before ≤ o) (hr : moveOffset side o cs before after = .ok r) :
    after ≤ r := by
  induction cs generalizing before after with
  | nil =>
    have hend := eq_of_moveOffset_nil hr
    omega
  | cons c cs ih =>
    rw [moveOffset_cons h] at hr
    split at hr
    · cases hr
      exact Nat.le_add_right ..
    · next hc =>
      have hpassed := Component.lenBefore_le_of_not_holds hc
      have hrest := ih (by omega) hr
      omega

/-- No offset of the old text goes behind the end of the new one. -/
theorem moveOffset_le (h : before ≤ o) (ho : o ≤ before + inputLength cs)
    (hr : moveOffset side o cs before after = .ok r) : r ≤ after + outputLength cs := by
  induction cs generalizing before after with
  | nil =>
    have hend := eq_of_moveOffset_nil hr
    rw [inputLength_nil] at ho
    omega
  | cons c cs ih =>
    rw [inputLength_cons] at ho
    rw [moveOffset_cons h] at hr
    rw [outputLength_cons]
    split at hr
    · next hc =>
      have hplace := Component.place_le_lenAfter hc
      cases hr
      omega
    · next hc =>
      have hpassed := Component.lenBefore_le_of_not_holds hc
      have hrest := ih (by omega) (by omega) hr
      omega

/-- **Offsets keep their order**, and what is to stay on the left does not go behind what is to go
to the right. -/
theorem moveOffset_mono (h : before ≤ x) (hxy : x ≤ y) (hside : side = side' ∨ side = .left)
    (hr : moveOffset side x cs before after = .ok r)
    (hr' : moveOffset side' y cs before after = .ok r') : r ≤ r' := by
  induction cs generalizing before after with
  | nil =>
    have hx := eq_of_moveOffset_nil hr
    have hy := eq_of_moveOffset_nil hr'
    omega
  | cons c cs ih =>
    have hdist : x - before ≤ y - before := Nat.sub_le_sub_right hxy before
    rw [moveOffset_cons h] at hr
    rw [moveOffset_cons (Nat.le_trans h hxy)] at hr'
    by_cases hy : c.Holds side' (y - before)
    · -- then `x` is held here too
      obtain ⟨hx, hplace⟩ := hy.mono hdist hside
      rw [if_pos hx] at hr
      rw [if_pos hy] at hr'
      cases hr
      cases hr'
      omega
    have hypassed := Component.lenBefore_le_of_not_holds hy
    rw [if_neg hy] at hr'
    by_cases hx : c.Holds side (x - before)
    · have hplace := Component.place_le_lenAfter hx
      have hrest := le_of_moveOffset (by omega) hr'
      rw [if_pos hx] at hr
      cases hr
      omega
    · have hxpassed := Component.lenBefore_le_of_not_holds hx
      rw [if_neg hx] at hr
      exact ih (by omega) hr hr'

/-- The walk fails only in the last step, where an offset at or behind the end of the old text is
added to the length of the new one. -/
theorem moveOffset_eq_error {fault : Fault} (h : before ≤ o)
    (hr : moveOffset side o cs before after = .error fault) :
    fault = .overflow .add ∧ before + inputLength cs ≤ o ∧
      Word.bound ≤ after + outputLength cs + o := by
  induction cs generalizing before after with
  | nil =>
    by_cases hfit : after + o < Word.bound
    · rw [moveOffset_nil hfit] at hr
      cases hr
    · rw [moveOffset, Word.add, if_neg hfit] at hr
      cases hr
      exact ⟨rfl, h, Nat.not_lt.mp hfit⟩
  | cons c cs ih =>
    rw [moveOffset_cons h] at hr
    split at hr
    · cases hr
    · next hc =>
      have hpassed := Component.lenBefore_le_of_not_holds hc
      rw [inputLength_cons, outputLength_cons, ← Nat.add_assoc, ← Nat.add_assoc]
      exact ih (by omega) hr

/-- What is behind all components is passed on by all of them, and so is what is at their end and
goes to the right. -/
theorem moveOffset_of_behind (h : before + inputLength cs ≤ o)
    (hside : side = .right ∨ before + inputLength cs < o) :
    moveOffset side o cs before after =
      moveOffset side o [] (before + inputLength cs) (after + outputLength cs) := by
  induction cs generalizing before after with
  | nil => rfl
  | cons c cs ih =>
    rw [inputLength_cons, ← Nat.add_assoc] at h hside
    have hpass : ¬ c.Holds side (o - before) :=
      Component.not_holds_of_le (by omega) (hside.imp_right fun hlt => by omega)
    rw [moveOffset_cons (by omega), if_neg hpass, ih h hside, inputLength_cons, outputLength_cons,
      ← Nat.add_assoc, ← Nat.add_assoc]

/-- Every offset of the old text can be moved, if both lengths together are a word. -/
theorem exists_moveOffset (h : before ≤ o) (hfit : after + outputLength cs + o < Word.bound) :
    ∃ r, moveOffset side o cs before after = .ok r := by
  cases hr : moveOffset side o cs before after with
  | ok r => exact ⟨r, rfl⟩
  | error fault =>
    have hsum := (moveOffset_eq_error h hr).2.2
    omega

end Walk

namespace Operation

variable {op : Operation} {side : Side} {o p r : Nat} {s t : Text} {fits : Prop}

/-- An operation that leads from one text to another takes offsets of the one to offsets of the
other. The operation without components does so too: it leads from every text to itself, and
offsets stay. -/
theorem mapOffset_le_of_apply (h : op.apply s = .ok t) (ho : o ≤ s.length)
    (hr : op.mapOffset o side = .ok r) : r ≤ t.length := by
  by_cases hop : op.isEmpty
  · rw [apply_of_isEmpty hop] at h
    cases h
    rw [eq_of_mapOffset hop hr]
    exact ho
  · rw [length_before_of_apply hop h, lenBefore] at ho
    rw [length_after_of_apply hop h, lenAfter]
    have hle := moveOffset_le (Nat.zero_le o) (by omega) hr
    omega

theorem exists_mapOffset_of_apply (side : Side) (h : op.apply s = .ok t) (ho : o ≤ s.length)
    (hfit : s.length + t.length < Word.bound) : ∃ r, op.mapOffset o side = .ok r := by
  refine exists_moveOffset (Nat.zero_le o) ?_
  by_cases hop : op.isEmpty
  · rw [List.isEmpty_iff.mp hop, outputLength_nil]
    omega
  · have hlen := length_after_of_apply hop h
    rw [lenAfter] at hlen
    omega

/-- An offset of the one text lands within the other. -/
theorem lands_mapOffset (h : op.apply s = .ok t) (ho : o ≤ s.length) (side : Side) :
    Lands (s.length + t.length < Word.bound) (fun r => op.mapOffset o side = .ok r ∧ r ≤ t.length)
      (op.mapOffset o side) where
  holds _ hr := ⟨hr, mapOffset_le_of_apply h ho hr⟩
  exists_ok hfits := exists_mapOffset_of_apply side h ho hfits

/-- An offset can be moved: it lies before the end of the old text, or its sum with the new length
is a word. -/
def Carries (op : Operation) (o : Nat) : Prop :=
  o < op.lenBefore ∨ op.lenAfter + o < Word.bound

theorem Carries.of_le (h : op.Carries o) (hle : p ≤ o) : op.Carries p := by
  rcases h with h | h
  · exact Or.inl (Nat.lt_of_le_of_lt hle h)
  · exact Or.inr (Nat.lt_of_le_of_lt (Nat.add_le_add_left hle _) h)

theorem lands_of_carries (side : Side) (h : fits → op.Carries o) :
    Lands fits (fun r => op.mapOffset o side = .ok r) (op.mapOffset o side) where
  holds _ hr := hr
  exists_ok hfits := by
    cases hr : op.mapOffset o side with
    | ok r => exact ⟨r, rfl⟩
    | error fault =>
      obtain ⟨_, hend, hsum⟩ := moveOffset_eq_error (Nat.zero_le o) hr
      rw [Nat.zero_add] at hend hsum
      rcases h hfits with hlt | hlt
      · exact absurd hlt (Nat.not_lt.mpr hend)
      · exact absurd hlt (Nat.not_lt.mpr hsum)

/-- **Offsets keep their order and stay within bounds.** Moving an offset comes to a result unless
the one sum that it may have to make, of the new length and an offset at or behind the end, is too
large. Of the results, those of smaller offsets are not larger, the one on the left is not behind
the one on the right, and those of offsets of the old text are offsets of the new one. -/
theorem mapOffset_ordered_within (op : Operation) :
    (∀ x side fault, op.mapOffset x side = .error fault →
      fault = .overflow .add ∧ op.lenBefore ≤ x ∧ Word.bound ≤ op.lenAfter + x) ∧
    (∀ x y side r r', x ≤ y → op.mapOffset x side = .ok r → op.mapOffset y side = .ok r' →
      r ≤ r') ∧
    (∀ x r r', op.mapOffset x .left = .ok r → op.mapOffset x .right = .ok r' → r ≤ r') ∧
    ∀ x side r, x ≤ op.lenBefore → op.mapOffset x side = .ok r → r ≤ op.lenAfter := by
  refine ⟨?_, ?_, ?_, ?_⟩
  · intro x side fault hx
    have hend := moveOffset_eq_error (Nat.zero_le x) hx
    rwa [Nat.zero_add, Nat.zero_add] at hend
  · intro x y side r r' hxy hx hy
    exact moveOffset_mono (Nat.zero_le x) hxy (Or.inl rfl) hx hy
  · intro x r r' hleft hright
    exact moveOffset_mono (Nat.zero_le x) (Nat.le_refl x) (Or.inr rfl) hleft hright
  · intro x side r hx hr
    have hle := moveOffset_le (Nat.zero_le x) (by rw [Nat.zero_add]; exact hx) hr
    rwa [Nat.zero_add] at hle

/-- Replacements side by side, with an insertion between them. -/
def patchwork : Operation :=
  ⟨[.replace ['a', 'b'] ['x'], .replace [] ['y', 'z'], .replace ['c'] [], .retain 2],
    by decide, by decide⟩

/-- Two offsets that stop at different components, one of them at an insertion; and the end. -/
theorem mapOffset_ordered_within_patchwork :
    patchwork.mapOffset 1 .left = .ok 0 ∧ patchwork.mapOffset 2 .left = .ok 1 ∧ 0 ≤ 1 ∧
      patchwork.mapOffset 2 .right = .ok 3 ∧ 1 ≤ 3 ∧
      patchwork.mapOffset 5 .right = .ok 5 ∧ 5 ≤ patchwork.lenAfter := by
  obtain ⟨-, hmono, hsides, hwithin⟩ := mapOffset_ordered_within patchwork
  exact ⟨rfl, rfl, hmono 1 2 .left 0 1 (Nat.le_succ 1) rfl rfl, rfl, hsides 2 1 3 rfl rfl, rfl,
    hwithin 5 .right 5 (Nat.le_refl 5) rfl⟩

/-- Keeps half as many characters as there are words. The sum that moving the end of its text makes
is the smallest that is not one. -/
def halfway : Operation := ⟨[.retain Word.signedBound], by decide, by decide⟩

end Operation

end Coedit
