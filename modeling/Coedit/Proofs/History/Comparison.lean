import Coedit.Proofs.History.Refusal
import Coedit.Proofs.History.Trimming

/-!
# What the walk back compares

Two histories are compared from their newest entries back, and the walk stops at the first pair of
entries with the same id. It does not compare every entry of the one with every entry of the other.
In each step it goes back where it is further ahead, so first the longer history is brought down to
the newest timestamp of the shorter one, and from there on the two go down side by side:

> `run_meets_newest_compared`: the walk stops just behind the newest pair of entries with the same
> id among those it compares. These are entries at the same timestamp, entries of the second history
> with the one just before them in the first, and the newest entry of the shorter history with what
> the other one has from there on.

Every entry that both histories have is found if it stands at such timestamps in them. An entry may
stand elsewhere if one history has recorded more in front of it than the other, and then the walk
can miss it altogether:

> `meetingPoint_misses_shared`: the newest entry of one history is the oldest of the other, and the
> walk goes back to the start of both. The bridge replaces the whole text.
-/

namespace Coedit

namespace History

variable {before after : History} {i j a b c d : Nat}

/-! ## The pairs that are compared -/

/-- The pairs of timestamps compared by a walk back over the first `i` entries of one history and
the first `j` of another, if it does not stop. -/
def Compared (i j a b : Nat) : Prop :=
  a < i ∧ b < j ∧ (a = b ∨ b = a + 1 ∨ (b + 1 = j ∧ b ≤ a) ∨ (a + 1 = i ∧ a ≤ b))

instance (i j a b : Nat) : Decidable (Compared i j a b) := inferInstanceAs (Decidable (_ ∧ _))

/-- Where the second history is ahead, the walk goes on in it. -/
theorem compared_succ_of_lt (h : i < j) :
    Compared (i + 1) (j + 1) a b ↔ (a = i ∧ b = j) ∨ Compared (i + 1) j a b := by
  unfold Compared
  omega

/-- Otherwise it goes on in the first. -/
theorem compared_succ_of_not_lt (h : ¬ i < j) :
    Compared (i + 1) (j + 1) a b ↔ (a = i ∧ b = j) ∨ Compared i (j + 1) a b := by
  unfold Compared
  omega

/-! ## The newest of them -/

/-- The entries at two timestamps have the same id. -/
def SameId (before after : History) (a b : Nat) : Prop :=
  ∃ id, before.idAt a = .ok id ∧ after.idAt b = .ok id

theorem SameId.lt_timestamp (h : SameId before after a b) :
    a < before.timestamp ∧ b < after.timestamp := by
  obtain ⟨id, ha, hb⟩ := h
  refine ⟨Nat.not_le.mp fun hahead => ?_, Nat.not_le.mp fun hahead => ?_⟩
  · rw [idAt_of_ahead hahead] at ha
    cases ha
  · rw [idAt_of_ahead hahead] at hb
    cases hb

/-- The timestamps `c` and `d` are just behind the newest entries with the same id, among those
compared on the way back from `i` and `j`. If none of these have the same id, both are zero. -/
structure NewestCompared (before after : History) (i j c d : Nat) : Prop where
  meet : (c = 0 ∧ d = 0) ∨
    ∃ a b, c = a + 1 ∧ d = b + 1 ∧ Compared i j a b ∧ SameId before after a b
  newest : ∀ {a b}, Compared i j a b → SameId before after a b → a < c ∧ b < d

/-- What holds after a step back held before it, if the entries compared there are not the same. -/
theorem NewestCompared.step_back {i' j' : Nat}
    (hstep : ∀ {a b}, Compared (i + 1) (j + 1) a b ↔ (a = i ∧ b = j) ∨ Compared i' j' a b)
    (hdiffer : ¬ SameId before after i j) (h : NewestCompared before after i' j' c d) :
    NewestCompared before after (i + 1) (j + 1) c d := by
  constructor
  · refine h.meet.imp_right ?_
    rintro ⟨a, b, hc, hd, hcompared, hsame⟩
    exact ⟨a, b, hc, hd, hstep.mpr (Or.inr hcompared), hsame⟩
  · intro a b hcompared hsame
    rcases hstep.mp hcompared with ⟨rfl, rfl⟩ | hcompared
    · exact absurd hsame hdiffer
    · exact h.newest hcompared hsame

/-- **The walk stops at the newest compared pair with the same id.** -/
theorem newestCompared_of_meetingPoint (before after : History) : ∀ (i j : Nat) {c d : Nat},
    meetingPoint before after i j = .ok (c, d) → NewestCompared before after i j c d
  | 0, j, c, d, h => by
    rw [meetingPoint] at h
    cases h
    exact ⟨Or.inl ⟨rfl, rfl⟩, fun hcompared => absurd hcompared.1 (Nat.not_lt_zero _)⟩
  | i + 1, 0, c, d, h => by
    rw [meetingPoint] at h
    cases h
    exact ⟨Or.inl ⟨rfl, rfl⟩, fun hcompared => absurd hcompared.2.1 (Nat.not_lt_zero _)⟩
  | i + 1, j + 1, c, d, h => by
    rw [meetingPoint] at h
    obtain ⟨mine, hmine, h⟩ := bind_eq_ok.mp h
    obtain ⟨theirs, htheirs, h⟩ := bind_eq_ok.mp h
    split at h
    · next hsame =>
      cases h
      rw [← hsame] at htheirs
      have hnow : Compared (i + 1) (j + 1) i j := by
        unfold Compared
        omega
      -- this is the first pair compared, and all others are older on both sides
      refine ⟨Or.inr ⟨i, j, rfl, rfl, hnow, mine, hmine, htheirs⟩, ?_⟩
      exact fun hcompared _ => ⟨hcompared.1, hcompared.2.1⟩
    · next hne =>
      have hdiffer : ¬ SameId before after i j := by
        rintro ⟨id, hid, hid'⟩
        rw [hmine] at hid
        rw [htheirs] at hid'
        cases hid
        cases hid'
        exact hne rfl
      split at h
      · next hlt =>
        exact (newestCompared_of_meetingPoint before after (i + 1) j h).step_back
          (compared_succ_of_lt hlt) hdiffer
      · next hge =>
        exact (newestCompared_of_meetingPoint before after i (j + 1) h).step_back
          (compared_succ_of_not_lt hge) hdiffer
  termination_by i j => i + j
  decreasing_by all_goals omega

/-- The walk over histories from which nothing has been evicted finds every entry it looks for. -/
theorem exists_meetingPoint {all all' : List Entry} (w : before.IsWindow all)
    (w' : after.IsWindow all') (hbefore : ¬ before.hasEvicted) (hafter : ¬ after.hasEvicted) :
    ∃ c d, meetingPoint before after before.timestamp after.timestamp = .ok (c, d) := by
  cases hpoint : meetingPoint before after before.timestamp after.timestamp with
  | ok point => exact ⟨point.1, point.2, rfl⟩
  | error e =>
    obtain ⟨t, -, ht⟩ := meetingPoint_eq_error w w' _ _ (Nat.le_refl _) (Nat.le_refl _) hpoint
    rw [oldestTimestamp_of_not_hasEvicted hbefore, oldestTimestamp_of_not_hasEvicted hafter] at ht
    exact absurd ht (by omega)

/-- **The walk back meets at the newest entry that both have among those it compares.** Take any two
histories that calls have led to and from which nothing has been evicted. The walk comes to an end,
at the start of both or just behind entries with the same id. No entries behind that point have the
same id, on the one side and on the other, unless they stand at timestamps that the walk does not
compare. If whatever both histories have stands at timestamps that it does compare, there are none
at all. -/
theorem run_meets_newest_compared {calls calls' : List Call} (hrun : run calls = .ok before)
    (hrun' : run calls' = .ok after) (hbefore : ¬ before.hasEvicted)
    (hafter : ¬ after.hasEvicted) :
    ∃ c d, meetingPoint before after before.timestamp after.timestamp = .ok (c, d) ∧
      NewestCompared before after before.timestamp after.timestamp c d ∧
      (∀ a b, c ≤ a → d ≤ b → SameId before after a b →
        ¬ Compared before.timestamp after.timestamp a b) ∧
      ((∀ a b, SameId before after a b → Compared before.timestamp after.timestamp a b) →
        ∀ a b, c ≤ a → d ≤ b → ¬ SameId before after a b) := by
  obtain ⟨all, hr⟩ := reached_of_run hrun
  obtain ⟨all', hr'⟩ := reached_of_run hrun'
  obtain ⟨c, d, hpoint⟩ := exists_meetingPoint hr.isWindow hr'.isWindow hbefore hafter
  have hnewest := newestCompared_of_meetingPoint before after _ _ hpoint
  have hmissed : ∀ a b, c ≤ a → d ≤ b → SameId before after a b →
      ¬ Compared before.timestamp after.timestamp a b := by
    intro a b hc _ hsame hcompared
    exact absurd (hnewest.newest hcompared hsame).1 (Nat.not_lt.mpr hc)
  refine ⟨c, d, hpoint, hnewest, hmissed, ?_⟩
  intro hall a b hc hd hsame
  exact hmissed a b hc hd hsame (hall a b hsame)

end History

/-! ## An entry that is missed and one that is found -/

namespace Forked

def scratched : Entry := ⟨⟨1⟩, ⟨[.replace [] ['q']], by decide, by decide⟩⟩

def erased : Entry := ⟨⟨2⟩, ⟨[.replace ['q'] []], by decide, by decide⟩⟩

def word : Entry := ⟨⟨7⟩, ⟨[.replace [] ['a', 'b', 'c']], by decide, by decide⟩⟩

def framed : Entry :=
  ⟨⟨4⟩, ⟨[.replace [] ['x'], .retain 3, .replace [] ['y']], by decide, by decide⟩⟩

def ended : Entry := ⟨⟨5⟩, ⟨[.retain 3, .replace [] ['z']], by decide, by decide⟩⟩

/-- A word and what was put around it. -/
def early : History := history [word, framed] 8

/-- The same word, after something else was written and erased. -/
def late : History := history [scratched, erased, word] 5

/-- The same word after an entry without effect, and what was put behind it. -/
def delayed : History := history [idle, word, ended] 7

theorem run_early : History.run (History.Call.recording [word, framed]) = .ok early := rfl

theorem run_late : History.run (History.Call.recording [scratched, erased, word]) = .ok late := rfl

theorem run_delayed : History.run (History.Call.recording [idle, word, ended]) = .ok delayed := rfl

end Forked

namespace History

/-- **The walk can miss what both histories have.** The word stands at the end of one history and at
the start of the other. The walk never compares the two places and goes back to the start of both,
so the word is undone on one side and written again on the other: the bridge replaces all of it,
where it need only have put the frame around it. -/
theorem meetingPoint_misses_shared :
    run (Call.recording [Forked.scratched, Forked.erased, Forked.word]) = .ok Forked.late ∧
      run (Call.recording [Forked.word, Forked.framed]) = .ok Forked.early ∧
      ¬ Forked.late.hasEvicted ∧ ¬ Forked.early.hasEvicted ∧
      Forked.late.ids.Nodup ∧ Forked.early.ids.Nodup ∧
      SameId Forked.late Forked.early 2 0 ∧
      meetingPoint Forked.late Forked.early Forked.late.timestamp Forked.early.timestamp =
        .ok (0, 0) ∧
      ∃ op, Forked.late.bridge Forked.early = .ok op ∧
        op.components = [.replace ['a', 'b', 'c'] ['x', 'a', 'b', 'c', 'y']] := by
  have hpoint : meetingPoint Forked.late Forked.early 3 2 = .ok (0, 0) := by cbv
  have hbridge : Forked.late.bridge Forked.early =
      .ok ⟨[.replace ['a', 'b', 'c'] ['x', 'a', 'b', 'c', 'y']], by decide, by decide⟩ := by cbv
  exact ⟨Forked.run_late, Forked.run_early, Bool.false_ne_true, Bool.false_ne_true, by decide,
    by decide, ⟨⟨7⟩, rfl, rfl⟩, hpoint, _, hbridge, rfl⟩

/-- The word is found where it stands one later in the second history, and nothing else is in
both. -/
theorem run_meets_newest_compared_delayed :
    meetingPoint Forked.early Forked.delayed 2 3 = .ok (1, 2) ∧
      SameId Forked.early Forked.delayed 0 1 ∧
      ∀ a b, 1 ≤ a → 2 ≤ b → ¬ SameId Forked.early Forked.delayed a b := by
  have hpoint : meetingPoint Forked.early Forked.delayed 2 3 = .ok (1, 2) := by cbv
  obtain ⟨c, d, hmeet, -, -, hfound⟩ :=
    run_meets_newest_compared Forked.run_early Forked.run_delayed Bool.false_ne_true
      Bool.false_ne_true
  cases hpoint.symm.trans hmeet
  refine ⟨hpoint, ⟨⟨7⟩, rfl, rfl⟩, hfound ?_⟩
  have hall : ∀ a < 2, ∀ b < 3, Forked.early.idAt a = Forked.delayed.idAt b → Compared 2 3 a b := by
    decide
  intro a b hsame
  obtain ⟨ha, hb⟩ := hsame.lt_timestamp
  obtain ⟨id, hid, hid'⟩ := hsame
  exact hall a ha b hb (hid.trans hid'.symm)

end History

end Coedit
