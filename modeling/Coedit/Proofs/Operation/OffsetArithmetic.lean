import Coedit.Proofs.Operation.OffsetOrder

/-!
# The arithmetic of moving an offset

`moveOffset` adds up two running lengths and compares the first one with the offset. It checks the
difference that it takes inside a kept run and the one sum that it makes behind the last component;
its other sums are on plain numbers, and its last difference is cut off at zero. `moveOffsetChecked`
is the same walk with every sum and every difference checked.

> `Operation.mapOffsetChecked_eq`: the two agree on every operation and every offset.

What carries the walk is that the offset is never behind the length walked so far, and that the
lengths are parts of those of the operation, which are words. So there is one step that can fail,
the sum at the end, and it can be said exactly when it is made and when it fails:

> `Operation.mapOffset_exact`: an offset has no place exactly if it is at or behind the end of the
> old text, its sum with the length of the new one is not a word, and no insertion at the end holds
> it. Offsets behind the end move by the change in length.

The sum comes before the difference. So an offset may have no place although the place would be a
word (`Operation.shift_overflows`).
-/

namespace Coedit

/-- Moves `offset` as `moveOffset` does, with all arithmetic checked. -/
def moveOffsetChecked (side : Side) (offset : Nat) :
    List Component → (before after : Nat) → Except Fault Nat
  | [], before, after => do
    let sum ← Word.add after offset
    Word.sub sum before
  | .retain n :: cs, before, after => do
    let stop ← Word.add before n
    if offset < stop then do
      let into ← Word.sub offset before
      Word.add after into
    else do
      let after ← Word.add after n
      moveOffsetChecked side offset cs stop after
  | .replace d i :: cs, before, after => do
    let stop ← Word.add before d.length
    if d.length = 0 then
      if offset = before ∧ side = .left then .ok after
      else do
        let after ← Word.add after i.length
        moveOffsetChecked side offset cs stop after
    else if offset < stop then
      match side with
      | .left => .ok after
      | .right => Word.add after i.length
    else do
      let after ← Word.add after i.length
      moveOffsetChecked side offset cs stop after

section Walk

variable {side : Side} {cs : List Component} {o before after : Nat}

/-- **One step of the checked walk.** Where the lengths leave room, it goes as the walk does. -/
theorem moveOffsetChecked_cons (h : before ≤ o) (c : Component) (cs : List Component)
    (hbefore : before + c.lenBefore < Word.bound) (hafter : after + c.lenAfter < Word.bound) :
    moveOffsetChecked side o (c :: cs) before after =
      if c.Holds side (o - before) then .ok (after + c.place side (o - before))
      else moveOffsetChecked side o cs (before + c.lenBefore) (after + c.lenAfter) := by
  cases c with
  | retain n =>
    have hstop : Word.add before n = .ok (before + n) := Word.add_eq_ok hbefore
    have hnext : Word.add after n = .ok (after + n) := Word.add_eq_ok hafter
    rw [moveOffsetChecked, hstop, hnext, Word.sub_eq_ok h]
    show (if o < before + n then Word.add after (o - before)
      else moveOffsetChecked side o cs (before + n) (after + n)) = _
    by_cases hin : o < before + n
    · have hholds : Component.Holds side (o - before) (.retain n) := by
        show o - before < n
        omega
      rw [if_pos hin, if_pos hholds]
      exact Word.add_eq_ok (Nat.lt_of_le_of_lt (Nat.add_le_add_left (Nat.le_of_lt hholds) _) hafter)
    · have hpass : ¬ Component.Holds side (o - before) (.retain n) := by
        show ¬ o - before < n
        omega
      rw [if_neg hin, if_neg hpass]
      rfl
  | replace d i =>
    have hstop : Word.add before d.length = .ok (before + d.length) := Word.add_eq_ok hbefore
    have hnext : Word.add after i.length = .ok (after + i.length) := Word.add_eq_ok hafter
    cases side <;> rw [moveOffsetChecked, hstop, hnext] <;>
      simp only [ok_bind] <;>
      grind [Component.Holds, Component.place, Side.edge, Component.lenBefore, Component.lenAfter]

/-- **The checked walk is the walk.** What the components consume and produce is counted in words,
and the offset is not behind what has been walked. -/
theorem moveOffsetChecked_eq (h : before ≤ o) (hbefore : before + inputLength cs < Word.bound)
    (hafter : after + outputLength cs < Word.bound) :
    moveOffsetChecked side o cs before after = moveOffset side o cs before after := by
  induction cs generalizing before after with
  | nil =>
    by_cases hfit : after + o < Word.bound
    · rw [moveOffset_nil hfit, moveOffsetChecked, Word.add_eq_ok hfit]
      exact Word.sub_eq_ok (by omega)
    · rw [moveOffset, moveOffsetChecked, Word.add, if_neg hfit]
      rfl
  | cons c cs ih =>
    rw [inputLength_cons, ← Nat.add_assoc] at hbefore
    rw [outputLength_cons, ← Nat.add_assoc] at hafter
    rw [moveOffsetChecked_cons h c cs (by omega) (by omega), moveOffset_cons h]
    by_cases hc : c.Holds side (o - before)
    · rw [if_pos hc, if_pos hc]
    · have hpassed := Component.lenBefore_le_of_not_holds hc
      rw [if_neg hc, if_neg hc, ih (by omega) hbefore hafter]

/-- Behind the last component the sum is made. -/
theorem moveOffset_nil_eq :
    moveOffset side o [] before after =
      if after + o < Word.bound then .ok (after + o - before) else .error (.overflow .add) := by
  split
  · next hfit => exact moveOffset_nil hfit
  · next hfit =>
    rw [moveOffset, Word.add, if_neg hfit]
    rfl

end Walk

/-! ## The end of the old text -/

/-- Is there a replacement, even an empty one, behind all characters that the components consume? -/
def insertsAtEnd : List Component → Bool
  | [] => false
  | c :: cs => !c.isRetain && c.lenBefore + inputLength cs == 0 || insertsAtEnd cs

theorem Component.holds_left_iff {c : Component} {k : Nat} (h : c.lenBefore ≤ k) :
    c.Holds .left k ↔ c.isRetain = false ∧ k = 0 := by
  cases c with
  | retain n =>
    have hpass : ¬ k < n := Nat.not_lt.mpr h
    simp [Holds, isRetain, hpass]
  | replace d i =>
    have hpass : ¬ k < d.length := Nat.not_lt.mpr h
    have hd : k = 0 → d.length = 0 := fun hk => Nat.le_zero.mp (hk ▸ h)
    simp only [Holds, isRetain, hpass, false_or, and_true, true_and]
    exact ⟨fun hk => hk.1, fun hk => ⟨hk, hd hk⟩⟩

/-- The end of the old text has a place on the left if an insertion holds it there, or if the sum
with the length of the new text is a word. -/
theorem exists_moveOffset_end_iff {cs : List Component} {before after : Nat} :
    (∃ r, moveOffset .left (before + inputLength cs) cs before after = .ok r) ↔
      insertsAtEnd cs ∨ after + outputLength cs + (before + inputLength cs) < Word.bound := by
  induction cs generalizing before after with
  | nil =>
    rw [moveOffset_nil_eq, inputLength_nil, outputLength_nil, Nat.add_zero, Nat.add_zero]
    by_cases hfit : after + before < Word.bound
    · simp [hfit]
    · simp [hfit, insertsAtEnd]
  | cons c cs ih =>
    have hholds := c.holds_left_iff (Nat.le_add_right c.lenBefore (inputLength cs))
    rw [inputLength_cons, outputLength_cons, moveOffset_cons (Nat.le_add_right ..),
      Nat.add_sub_cancel_left, insertsAtEnd]
    by_cases hc : c.Holds .left (c.lenBefore + inputLength cs)
    · obtain ⟨hkind, hend⟩ := hholds.mp hc
      rw [if_pos hc]
      simp [hkind, hend]
    · have hfirst : (!c.isRetain && c.lenBefore + inputLength cs == 0) = false := by
        rw [Bool.eq_false_iff]
        intro hand
        simp only [Bool.and_eq_true, Bool.not_eq_true', beq_iff_eq] at hand
        exact hc (hholds.mpr hand)
      rw [if_neg hc, hfirst, Bool.false_or, ← Nat.add_assoc before, ← Nat.add_assoc after]
      exact ih

namespace Operation

/-- The place of `offset`, with all arithmetic checked. -/
def mapOffsetChecked (op : Operation) (offset : Nat) (side : Side) : Except Fault Nat :=
  moveOffsetChecked side offset op.components 0 0

theorem mapOffsetChecked_eq (op : Operation) (x : Nat) (side : Side) :
    op.mapOffsetChecked x side = op.mapOffset x side := by
  refine moveOffsetChecked_eq (Nat.zero_le x) ?_ ?_
  · rw [Nat.zero_add]
    exact op.inputLength_lt
  · rw [Nat.zero_add]
    exact op.outputLength_lt

variable {op : Operation} {x : Nat} {side : Side}

/-- Where the sum is made, it decides. -/
theorem mapOffset_of_behind (h : op.lenBefore ≤ x) (hside : side = .right ∨ op.lenBefore < x) :
    op.mapOffset x side =
      if op.lenAfter + x < Word.bound then .ok (x - op.lenBefore + op.lenAfter)
      else .error (.overflow .add) := by
  have hsum : op.lenAfter + x - op.lenBefore = x - op.lenBefore + op.lenAfter := by omega
  rw [lenBefore] at h hside
  rw [mapOffset, moveOffset_of_behind (by omega) (hside.imp_right fun hlt => by omega),
    moveOffset_nil_eq, Nat.zero_add, Nat.zero_add, ← lenBefore, ← lenAfter, hsum]

/-- An offset has no place in three ways at once: it is not within the old text, its sum with the
length of the new text is too large, and no insertion at the end holds it. -/
theorem exists_mapOffset_error_iff :
    (∃ fault, op.mapOffset x side = .error fault) ↔
      op.lenBefore ≤ x ∧ Word.bound ≤ op.lenAfter + x ∧
        ¬ (side = .left ∧ x = op.lenBefore ∧ insertsAtEnd op.components) := by
  constructor
  · rintro ⟨fault, hfault⟩
    obtain ⟨-, hend, hsum⟩ := moveOffset_eq_error (Nat.zero_le x) hfault
    rw [Nat.zero_add] at hend hsum
    refine ⟨hend, hsum, ?_⟩
    rintro ⟨rfl, rfl, hinserts⟩
    obtain ⟨r, hr⟩ := (@exists_moveOffset_end_iff op.components 0 0).mpr (Or.inl hinserts)
    rw [Nat.zero_add] at hr
    rw [mapOffset, lenBefore, hr] at hfault
    cases hfault
  · rintro ⟨hend, hsum, hheld⟩
    by_cases hside : side = .right ∨ op.lenBefore < x
    · rw [mapOffset_of_behind hend hside, if_neg (Nat.not_lt.mpr hsum)]
      exact ⟨_, rfl⟩
    · -- the end of the old text, and on the left
      obtain ⟨hright, hlt⟩ := not_or.mp hside
      have hx : x = op.lenBefore := by omega
      have hleft : side = .left := by
        cases side with
        | left => rfl
        | right => exact absurd rfl hright
      subst hx hleft
      cases hr : op.mapOffset op.lenBefore .left with
      | error fault => exact ⟨fault, rfl⟩
      | ok r =>
        have hplace : ∃ r, moveOffset .left (0 + inputLength op.components) op.components 0 0 =
            .ok r := ⟨r, by rw [Nat.zero_add]; exact hr⟩
        rcases exists_moveOffset_end_iff.mp hplace with hinserts | hlt
        · exact absurd ⟨rfl, rfl, hinserts⟩ hheld
        · rw [Nat.zero_add, Nat.zero_add] at hlt
          exact absurd hlt (Nat.not_lt.mpr hsum)

/-- **All arithmetic of moving an offset is safe but for one sum.** For every operation, every
offset and either side: checking every sum and every difference on the way, the last difference
included, gives the same. There is no place exactly if the offset is at or behind the end of the old
text, its sum with the length of the new text is not a word, and it is not held on the left by an
insertion at the end; and the fault is that sum. So offsets within the old text always have a place,
and an offset behind its end moves by the change in length if the sum is a word. -/
theorem mapOffset_exact (op : Operation) (x : Nat) (side : Side) :
    op.mapOffsetChecked x side = op.mapOffset x side ∧
      ((∃ fault, op.mapOffset x side = .error fault) ↔
        op.lenBefore ≤ x ∧ Word.bound ≤ op.lenAfter + x ∧
          ¬ (side = .left ∧ x = op.lenBefore ∧ insertsAtEnd op.components)) ∧
      (∀ fault, op.mapOffset x side = .error fault → fault = .overflow .add) ∧
      (op.lenBefore < x → op.lenAfter + x < Word.bound →
        op.mapOffset x side = .ok (x - op.lenBefore + op.lenAfter)) := by
  refine ⟨op.mapOffsetChecked_eq x side, exists_mapOffset_error_iff, ?_, ?_⟩
  · intro fault hfault
    exact (moveOffset_eq_error (Nat.zero_le x) hfault).1
  · intro hlt hfit
    rw [mapOffset_of_behind (Nat.le_of_lt hlt) (Or.inr hlt), if_pos hfit]

/-- Keeps half as many characters as there are words and appends two. -/
def appended : Operation :=
  ⟨[.retain Word.signedBound, .replace [] ['x', 'y']], by decide, by decide⟩

/-- On the left the end of the old text is held by the insertion, on the right it has no place; and
an offset behind the end of a short text moves along. -/
theorem mapOffset_exact_appended :
    appended.mapOffset Word.signedBound .left = .ok Word.signedBound ∧
      appended.mapOffset Word.signedBound .right = .error (.overflow .add) ∧
      patchwork.lenBefore = 5 ∧ patchwork.lenAfter = 5 ∧
      patchwork.mapOffset (Word.bound - 6) .left = .ok (Word.bound - 6) := by
  have hend : ∃ fault, appended.mapOffset Word.signedBound .right = .error fault :=
    (mapOffset_exact appended Word.signedBound .right).2.1.mpr (by decide)
  obtain ⟨fault, hfault⟩ := hend
  have hsum := (mapOffset_exact appended Word.signedBound .right).2.2.1 fault hfault
  rw [hfault, hsum]
  exact ⟨rfl, rfl, rfl, rfl,
    (mapOffset_exact patchwork (Word.bound - 6) .left).2.2.2 (by decide) (by decide)⟩

/-- Keeps a single character. -/
def single : Operation := ⟨[.retain 1], by decide, by decide⟩

/-- Two offsets without a place, one at the end of the old text and one behind it, although the
place would be a word: the sum that is made first is not. -/
theorem shift_overflows :
    halfway.lenBefore = Word.signedBound ∧
      halfway.mapOffset Word.signedBound .right = .error (.overflow .add) ∧
      single.lenBefore < Word.bound - 1 ∧
      Word.bound - 1 - single.lenBefore + single.lenAfter < Word.bound ∧
      single.mapOffset (Word.bound - 1) .left = .error (.overflow .add) :=
  ⟨rfl, rfl, by decide, by decide, rfl⟩

end Operation

end Coedit
