import Coedit.Proofs.Interval.Within

/-!
# Spans and intervals follow the characters that survive

A character that an operation keeps has a place in the new text. What can be said of spans and
intervals then is exact: they hold, after the operation, just those of the kept characters that they
held before.

> `Operation.survivors_followed`: if the character at `p` is kept and stands at `q` afterwards, then
> the offset in front of it goes to `q` and the offset behind it to `q + 1`, and a span or an
> interval covers `q` afterwards if and only if it covered `p` before.

The ends of a span move to other sides than those of an interval, and both may cross insertions or
fall into deletions. None of this matters, because of one fact about single offsets, whatever their
side: they do not overtake a kept character (`Keeps.moved_le_iff`). It is proved along the walk, one
component at a time.

The sum of both lengths is made for an offset at the end of the old text, and it may be too large
for a word. Then nothing comes out, although the place itself is a word (`Operation.end_overflows`).
It is the only reason: `Operation.Carries` says when the sum fits or is not made.
-/

namespace Coedit

/-! ## Kept characters -/

/-- The components keep the character at `p`, and it is at `q` afterwards. -/
inductive Keeps : List Component → (p q : Nat) → Prop
  | here {n k : Nat} {cs : List Component} : k < n → Keeps (.retain n :: cs) k k
  | later {c : Component} {cs : List Component} {p q : Nat} :
    Keeps cs p q → Keeps (c :: cs) (c.lenBefore + p) (c.lenAfter + q)

/-- Behind a text in front, everything is further on by its length. -/
theorem getElem?_append_add (u w : Text) (k : Nat) : (u ++ w)[u.length + k]? = w[k]? := by
  rw [List.getElem?_append_right (Nat.le_add_right ..), Nat.add_sub_cancel_left]

namespace Keeps

variable {cs : List Component} {p q : Nat}

theorem lt_inputLength (h : Keeps cs p q) : p < inputLength cs := by
  induction h with
  | @here n k cs hk =>
    rw [inputLength_cons]
    exact Nat.lt_add_right _ hk
  | later _ ih =>
    rw [inputLength_cons]
    exact Nat.add_lt_add_left ih _

/-- A kept character is the same character afterwards. -/
theorem getElem?_eq (h : Keeps cs p q) {s t : Text} (hrew : Rewrites (pieces cs) s t) :
    s[p]? = t[q]? := by
  induction h generalizing s t with
  | @here n k cs hk =>
    obtain ⟨u, s', t', rfl, rfl, rfl, _⟩ :=
      rewrites_retain.mp ((rewrites_pieces_retain n cs).mp hrew)
    rw [List.getElem?_append_left hk, List.getElem?_append_left hk]
  | @later c cs p q _ ih =>
    cases c with
    | retain n =>
      obtain ⟨u, s', t', rfl, rfl, rfl, hrest⟩ :=
        rewrites_retain.mp ((rewrites_pieces_retain n cs).mp hrew)
      exact (getElem?_append_add u s' p).trans ((ih hrest).trans (getElem?_append_add u t' q).symm)
    | replace d i =>
      obtain ⟨s', t', rfl, rfl, hrest⟩ := (rewrites_pieces_replace d i cs).mp hrew
      exact (getElem?_append_add d s' p).trans ((ih hrest).trans (getElem?_append_add i t' q).symm)

/-! ## Offsets beside a kept character -/

/-- **No offset overtakes a kept character.** It goes to the place of the character or in front of
it if it was there before, and only then. -/
theorem moved_le_iff (h : Keeps cs p q) {side : Side} {x before after r : Nat} (hx : before ≤ x)
    (hr : moveOffset side x cs before after = .ok r) : r ≤ after + q ↔ x ≤ before + p := by
  induction h generalizing before after with
  | @here n k cs hk =>
    rw [moveOffset_cons hx] at hr
    split at hr
    · cases hr
      show after + (x - before) ≤ after + k ↔ x ≤ before + k
      omega
    · next hpass =>
      have hpassed : n ≤ x - before := Component.lenBefore_le_of_not_holds hpass
      have hbehind : after + n ≤ r := le_of_moveOffset (by show before + n ≤ x; omega) hr
      omega
  | @later c cs p q _ ih =>
    rw [moveOffset_cons hx] at hr
    split at hr
    · next hheld =>
      have hend := Component.le_lenBefore_of_holds hheld
      have hplace := Component.place_le_lenAfter hheld
      cases hr
      omega
    · next hpass =>
      have hpassed := Component.lenBefore_le_of_not_holds hpass
      have hrest := ih (by omega) hr
      omega

/-- The offset in front of a kept character goes to the place of the character. -/
theorem moveOffset_right (h : Keeps cs p q) (before after : Nat) :
    moveOffset .right (before + p) cs before after = .ok (after + q) := by
  induction h generalizing before after with
  | @here n k cs hk =>
    rw [moveOffset_cons (Nat.le_add_right ..), Nat.add_sub_cancel_left]
    exact if_pos hk
  | @later c cs p q _ ih =>
    rw [moveOffset_cons (Nat.le_add_right ..), Nat.add_sub_cancel_left,
      if_neg (Component.not_holds_of_le (Nat.le_add_right ..) (Or.inl rfl)), ← Nat.add_assoc,
      ← Nat.add_assoc]
    exact ih _ _

end Keeps

/-- An offset at the start of what is left stays there if it is to stay on the left. -/
theorem eq_of_moveOffset_left {cs : List Component} {o after r : Nat}
    (hr : moveOffset .left o cs o after = .ok r) : r = after := by
  induction cs generalizing after with
  | nil =>
    have hend := eq_of_moveOffset_nil hr
    omega
  | cons c cs ih =>
    rw [moveOffset_cons (Nat.le_refl o), Nat.sub_self] at hr
    split at hr
    · cases hr
      cases c <;> rfl
    · next hpass =>
      -- only an empty kept run is passed
      cases c with
      | retain n =>
        have hn : n = 0 := Nat.eq_zero_of_not_pos hpass
        subst hn
        exact ih hr
      | replace d i =>
        refine absurd ?_ hpass
        rcases Nat.eq_zero_or_pos d.length with hd | hd
        · exact Or.inr ⟨rfl, hd, rfl⟩
        · exact Or.inl hd

/-- The offset behind a kept character goes to the offset behind its place. -/
theorem Keeps.eq_of_moveOffset_left {cs : List Component} {p q before after r : Nat}
    (h : Keeps cs p q) (hr : moveOffset .left (before + p + 1) cs before after = .ok r) :
    r = after + q + 1 := by
  induction h generalizing before after with
  | @here n k cs hk =>
    rw [moveOffset_cons (by omega), show before + k + 1 - before = k + 1 by omega] at hr
    split at hr
    · cases hr
      rfl
    · next hpass =>
      -- the character is the last of its run
      have hn : n = k + 1 := Nat.le_antisymm (Nat.not_lt.mp hpass) hk
      subst hn
      exact Coedit.eq_of_moveOffset_left hr
  | @later c cs p q _ ih =>
    rw [moveOffset_cons (by omega),
      show before + (c.lenBefore + p) + 1 - before = c.lenBefore + p + 1 by omega,
      if_neg (Component.not_holds_of_le (by omega) (Or.inr (Nat.succ_pos _))),
      ← Nat.add_assoc before] at hr
    rw [← Nat.add_assoc after]
    exact ih hr

/-! ## Positions -/

/-- Does the span hold the character at `p`? -/
def Span.Covers (span : Span) (p : Nat) : Prop := span.start ≤ p ∧ p < span.stop

section Covers

variable {κ ν : Type}

/-- Does the interval hold the character at `p`? -/
def Interval.Covers (i : Interval κ ν) (p : Nat) : Prop := i.start ≤ p ∧ p < i.stop

/-- `j` carries what `i` carries, and covers just those of the kept characters that `i` covers. -/
def Interval.Follows (op : Operation) (i j : Interval κ ν) : Prop :=
  j.label = i.label ∧ ∀ p q, Keeps op.components p q → (j.Covers q ↔ i.Covers p)

/-- Each interval of `set` is followed by one of `set'`, which has them in order. -/
def IntervalSet.Follows (op : Operation) (set set' : IntervalSet κ ν) : Prop :=
  ∃ moved, List.Forall₂ (Interval.Follows op) set.entries moved ∧
    Interval.StablySorted moved set'.entries

end Covers

section Moved

variable {op : Operation} {o r p q : Nat} {side : Side} {fits : Prop}

/-- The operation without components keeps nothing of its own. -/
theorem Keeps.not_isEmpty (h : Keeps op.components p q) : ¬ op.isEmpty := by
  intro hop
  rw [List.isEmpty_iff.mp hop] at h
  cases h

theorem Keeps.exists_getElem? (h : Keeps op.components p q) {s t : Text}
    (happly : op.apply s = .ok t) : ∃ c, s[p]? = some c ∧ t[q]? = some c := by
  have hp : p < s.length := by
    rw [Operation.length_before_of_apply h.not_isEmpty happly]
    exact h.lt_inputLength
  have hsame := h.getElem?_eq ((Operation.apply_eq_ok_iff h.not_isEmpty).mp happly)
  rw [List.getElem?_eq_getElem hp] at hsame
  exact ⟨_, List.getElem?_eq_getElem hp, hsame.symm⟩

theorem Keeps.mapOffset_le_iff (h : Keeps op.components p q) (hr : op.mapOffset o side = .ok r) :
    r ≤ q ↔ o ≤ p := by
  have hiff := h.moved_le_iff (Nat.zero_le o) hr
  rwa [Nat.zero_add, Nat.zero_add] at hiff

theorem Keeps.mapOffset_right (h : Keeps op.components p q) : op.mapOffset p .right = .ok q := by
  have hright := h.moveOffset_right 0 0
  rwa [Nat.zero_add, Nat.zero_add] at hright

theorem Keeps.lands_mapOffset_left (h : Keeps op.components p q) :
    Lands (op.Carries (p + 1)) (· = q + 1) (op.mapOffset (p + 1) .left) where
  holds r hr := by
    have hwalk : moveOffset .left (0 + p + 1) op.components 0 0 = .ok r := by
      rw [Nat.zero_add]
      exact hr
    have hleft := h.eq_of_moveOffset_left hwalk
    rwa [Nat.zero_add] at hleft
  exists_ok hfits := (op.lands_of_carries .left id).exists_ok hfits

theorem Span.lands_covering {span : Span} (h : span.start < span.stop)
    (hfits : fits → op.Carries span.stop) (side : Side) :
    Lands fits (fun span' => ∀ p q, Keeps op.components p q → (span'.Covers q ↔ span.Covers p))
      (span.transform op side) := by
  have hne : ¬ span.isEmpty := by
    rw [isEmpty, beq_iff_eq]
    exact Nat.ne_of_lt h
  unfold Span.transform
  rw [if_neg hne]
  refine (op.lands_of_carries .right fun hf => (hfits hf).of_le (Nat.le_of_lt h)).bind ?_
  intro start hstart
  refine (op.lands_of_carries .left hfits).bind ?_
  intro stop hstop
  refine .ok ?_
  intro p q hkeeps
  have hfirst := hkeeps.mapOffset_le_iff hstart
  have hlast := hkeeps.mapOffset_le_iff hstop
  -- ends that have crossed leave no room between them, before as after
  unfold Covers
  split
  · show stop ≤ q ∧ q < stop ↔ _
    omega
  · show start ≤ q ∧ q < stop ↔ _
    omega

variable {κ ν : Type}

theorem Interval.lands_following {i : Interval κ ν} (h : i.start ≤ i.stop)
    (hfits : fits → op.Carries i.stop) : Lands fits (i.Follows op) (i.move op) := by
  refine (op.lands_of_carries .right fun hf => (hfits hf).of_le h).bind ?_
  intro start hstart
  refine (op.lands_of_carries .right hfits).bind ?_
  intro stop hstop
  refine .ok ⟨rfl, ?_⟩
  intro p q hkeeps
  have hfirst := hkeeps.mapOffset_le_iff hstart
  have hlast := hkeeps.mapOffset_le_iff hstop
  show start ≤ q ∧ q < stop ↔ i.start ≤ p ∧ p < i.stop
  omega

theorem IntervalSet.lands_following {set : IntervalSet κ ν} (hord : set.Ordered)
    (h : ∀ i ∈ set.entries, i.start ≤ i.stop)
    (hfits : fits → ∀ i ∈ set.entries, op.Carries i.stop) :
    Lands fits (set.Follows op) (set.edit op) := by
  unfold IntervalSet.edit
  split
  · next hop =>
    refine .ok ⟨set.entries, ?_, Interval.stablySorted_self hord⟩
    exact List.forall₂_same.mpr fun i _ => ⟨rfl, fun p q hkeeps => absurd hop hkeeps.not_isEmpty⟩
  · have hmove : ∀ i ∈ set.entries, Lands fits (i.Follows op) (i.move op) :=
      fun i hi => Interval.lands_following (h i hi) fun hf => hfits hf i hi
    refine (Lands.mapM hmove).bind ?_
    intro moved hmoved
    exact .ok ⟨moved, hmoved, stablySorted_ofList moved⟩

end Moved

namespace Operation

/-- **Spans and intervals follow the characters that survive.** Let an operation keep the character
at `p`, with `q` its place afterwards: the character there is the same, for every text that the
operation applies to. Then the offset in front of it goes to `q`, and the offset behind it to
`q + 1`. A span that is not empty, whichever side is given, covers afterwards just those of the kept
characters that it covered before, and so does each interval of a set. All this is so whenever a
result comes out, and one does come out unless the last offset is at or behind the end of the text
and its sum with the new length is too large. -/
theorem survivors_followed (op : Operation) :
    (∀ p q, Keeps op.components p q →
      (∀ s t, op.apply s = .ok t → ∃ c, s[p]? = some c ∧ t[q]? = some c) ∧
      op.mapOffset p .right = .ok q ∧
      Lands (op.Carries (p + 1)) (· = q + 1) (op.mapOffset (p + 1) .left)) ∧
    (∀ span : Span, span.start < span.stop → ∀ side,
      Lands (op.Carries span.stop)
        (fun span' => ∀ p q, Keeps op.components p q → (span'.Covers q ↔ span.Covers p))
        (span.transform op side)) ∧
    ∀ (κ ν : Type) (set : IntervalSet κ ν), set.Built → (∀ i ∈ set.entries, i.start ≤ i.stop) →
      Lands (∀ i ∈ set.entries, op.Carries i.stop) (set.Follows op) (set.edit op) := by
  refine ⟨?_, ?_, ?_⟩
  · intro p q hkeeps
    exact ⟨fun _ _ happly => hkeeps.exists_getElem? happly, hkeeps.mapOffset_right,
      hkeeps.lands_mapOffset_left⟩
  · intro span hspan side
    exact Span.lands_covering hspan id side
  · intro κ ν set hbuilt hset
    exact IntervalSet.lands_following hbuilt.ordered hset id

/-- Insertions beside kept runs, an empty run among them, and a deletion next to an insertion. -/
def stitched : Operation :=
  ⟨[.retain 1, .replace [] ['x', 'y'], .retain 0, .retain 1, .replace ['c'] [], .replace [] ['z'],
    .retain 1], by decide, by decide⟩

/-- The second character of "abcd" is the fourth of "axybzd". The text put in front of it moves it
along, and what surrounds it grows or shrinks around it. -/
theorem survivors_followed_stitched :
    Keeps stitched.components 1 3 ∧
      stitched.apply ['a', 'b', 'c', 'd'] = .ok ['a', 'x', 'y', 'b', 'z', 'd'] ∧
      stitched.mapOffset 1 .right = .ok 3 ∧ stitched.mapOffset 2 .left = .ok 4 ∧
      (∃ span', (Span.mk 0 2).transform stitched .left = .ok span' ∧ span'.Covers 3) ∧
      ∃ set', (IntervalSet.ofList [⟨0, 1, 4, "tail"⟩, ⟨1, 2, 2, "gap"⟩]).edit stitched = .ok set' ∧
        IntervalSet.Follows stitched (.ofList [⟨0, 1, 4, "tail"⟩, ⟨1, 2, 2, "gap"⟩]) set' := by
  obtain ⟨hkept, hspans, hsets⟩ := survivors_followed stitched
  have hkeeps : Keeps stitched.components 1 3 :=
    .later (p := 0) (q := 2) (.later (p := 0) (q := 0) (.later (p := 0) (q := 0)
      (.here Nat.zero_lt_one)))
  have hfits : ∀ o ≤ 4, stitched.Carries o := by
    intro o ho
    have hsum : 6 + o < Word.bound := by
      unfold Word.bound
      omega
    exact Or.inr hsum
  obtain ⟨-, hright, hleft⟩ := hkept 1 3 hkeeps
  refine ⟨hkeeps, rfl, hright, ?_, ?_, ?_⟩
  · obtain ⟨r, hr⟩ := hleft.exists_ok (hfits 2 (by omega))
    rw [hr, hleft.holds r hr]
  · have hspan := hspans ⟨0, 2⟩ Nat.two_pos .left
    obtain ⟨span', hspan'⟩ := hspan.exists_ok (hfits 2 (by omega))
    exact ⟨span', hspan', (hspan.holds span' hspan' 1 3 hkeeps).mpr ⟨Nat.zero_le 1, Nat.one_lt_two⟩⟩
  · have hset := hsets Nat String _ (.ofList [⟨0, 1, 4, "tail"⟩, ⟨1, 2, 2, "gap"⟩])
      (by decide)
    obtain ⟨set', hset'⟩ := hset.exists_ok fun i hi => hfits i.stop (by revert i; decide)
    exact ⟨set', hset', hset.holds set' hset'⟩

/-- The last character of the text is kept and stays where it is. The offset behind it is a word,
and so is its place, but it is not found: the sum of both is too large. -/
theorem end_overflows :
    Keeps halfway.components (Word.signedBound - 1) (Word.signedBound - 1) ∧
      halfway.lenBefore = Word.signedBound ∧ halfway.lenAfter = Word.signedBound ∧
      halfway.mapOffset (Word.signedBound - 1 + 1) .left = .error (.overflow .add) ∧
      (Span.mk 0 Word.signedBound).transform halfway .left = .error (.overflow .add) :=
  ⟨.here (by decide), rfl, rfl, rfl, rfl⟩

end Operation

end Coedit
