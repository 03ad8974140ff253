import Coedit.Proofs.Interval.Order

/-!
# A projection reaches the running maximum

An operation cannot take offsets just anywhere: whatever it does to an offset, later offsets land no
earlier. Asked to take each anchor `q` to `T q`, `operationTo` does the best that this leaves open:

> Each anchor lands on the largest target asked for at an anchor up to it.

So a map that never goes back is met exactly. The components are built from left to right, and the
state of the walk is a pair of offsets up to which they lead, `emitted` in the old text and `after`
in the new one, with the last anchor visited, `previous`. All that is known of an anchor to come is
that it lies at `previous` or later. `Reaches` says what the components for the remaining anchors
do, and each of the three moves of the walk (insert, delete, pass on) carries it one anchor back.

Targets and anchors are small enough for sums and differences of two to be signed words
(`Word.Small`); with larger ones the walk overflows.
-/

namespace Coedit

namespace Word

/-- A number of which two add up to a signed word. -/
def Small (n : Nat) : Prop := 2 * n < signedBound

instance (n : Nat) : Decidable (Small n) := inferInstanceAs (Decidable (_ < _))

theorem toSigned_of_lt {n : Nat} (h : n < signedBound) : toSigned n = n := by
  have hbound := bound_eq
  refine Int.bmod_eq_of_le ?_ ?_ <;> omega

theorem signedSub_eq {a b : Int} (h : InSignedRange (a - b)) : signedSub a b = .ok (a - b) :=
  if_pos h

end Word

/-- The largest target of a point up to `p`. -/
def peak (T : Nat → Nat) (points : List Nat) (p : Nat) : Nat :=
  ((points.filter (· ≤ p)).map T).foldr max 0

section Peak

variable {T : Nat → Nat} {points : List Nat} {p q : Nat}

theorem peak_cons_of_le (h : q ≤ p) : peak T (q :: points) p = max (T q) (peak T points p) := by
  unfold peak
  rw [List.filter_cons_of_pos (by simpa using h)]
  rfl

theorem peak_cons_of_lt (h : p < q) : peak T (q :: points) p = peak T points p := by
  unfold peak
  rw [List.filter_cons_of_neg (by simpa using h)]

theorem peak_of_all_lt (h : ∀ q ∈ points, p < q) : peak T points p = 0 := by
  induction points with
  | nil => rfl
  | cons q points ih =>
    rw [peak_cons_of_lt (h q (List.mem_cons_self ..))]
    exact ih fun r hr => h r (List.mem_cons_of_mem _ hr)

theorem le_peak (hq : q ∈ points) (h : q ≤ p) : T q ≤ peak T points p := by
  induction points with
  | nil => cases hq
  | cons r points ih =>
    rcases List.mem_cons.mp hq with rfl | hq
    · rw [peak_cons_of_le h]
      exact Nat.le_max_left ..
    · have hrest := ih hq
      rcases Nat.lt_or_ge p r with hr | hr
      · rw [peak_cons_of_lt hr]
        exact hrest
      · rw [peak_cons_of_le hr]
        exact Nat.le_trans hrest (Nat.le_max_right ..)

theorem peak_le {b : Nat} (h : ∀ q ∈ points, q ≤ p → T q ≤ b) : peak T points p ≤ b := by
  induction points with
  | nil => exact Nat.zero_le _
  | cons q points ih =>
    have hrest := ih fun r hr => h r (List.mem_cons_of_mem _ hr)
    rcases Nat.lt_or_ge p q with hq | hq
    · rw [peak_cons_of_lt hq]
      exact hrest
    · rw [peak_cons_of_le hq]
      exact Nat.max_le.mpr ⟨h q (List.mem_cons_self ..) hq, hrest⟩

/-- Where targets never go back, the largest one so far is the last. -/
theorem peak_of_monotone (hT : ∀ a b, a ≤ b → T a ≤ T b) (hp : p ∈ points) :
    peak T points p = T p :=
  Nat.le_antisymm (peak_le fun q _ hq => hT q p hq) (le_peak hp (Nat.le_refl p))

end Peak

namespace IntervalSet

variable {κ ν : Type}

/-! ## The anchors of a set -/

theorem mem_insertPoint {p q : Nat} {qs : List Nat} : q ∈ insertPoint p qs ↔ q = p ∨ q ∈ qs := by
  induction qs with
  | nil => simp [insertPoint]
  | cons r qs ih =>
    unfold insertPoint
    split
    · exact List.mem_cons
    · split
      · next hpr =>
        subst hpr
        simp
      · rw [List.mem_cons, ih, List.mem_cons]
        exact or_left_comm

theorem pairwise_insertPoint (p : Nat) {qs : List Nat} (h : qs.Pairwise (· < ·)) :
    (insertPoint p qs).Pairwise (· < ·) := by
  induction qs with
  | nil => exact List.pairwise_singleton ..
  | cons r qs ih =>
    obtain ⟨hr, hqs⟩ := List.pairwise_cons.mp h
    unfold insertPoint
    split
    · next hpr =>
      refine List.pairwise_cons.mpr ⟨?_, h⟩
      intro q hq
      rcases List.mem_cons.mp hq with rfl | hq
      · exact hpr
      · exact Nat.lt_trans hpr (hr q hq)
    · split
      · exact h
      · refine List.pairwise_cons.mpr ⟨?_, ih hqs⟩
        intro q hq
        rcases mem_insertPoint.mp hq with rfl | hq
        · omega
        · exact hr q hq

theorem pairwise_anchors (s : IntervalSet κ ν) : s.anchors.Pairwise (· < ·) := by
  unfold anchors
  induction observed none s.entries with
  | nil => exact .nil
  | cons p ps ih => exact pairwise_insertPoint p ih

theorem mem_anchors {s : IntervalSet κ ν} {p : Nat} :
    p ∈ s.anchors ↔ p ∈ observed none s.entries := by
  unfold anchors
  induction observed none s.entries with
  | nil => exact Iff.rfl
  | cons q ps ih => rw [List.foldr_cons, mem_insertPoint, ih, List.mem_cons]

theorem ends_mem_observed {i : Interval κ ν} {is : List (Interval κ ν)} (hi : i ∈ is)
    (last : Option Nat) : i.start ∈ observed last is ∧ i.stop ∈ observed last is := by
  induction is generalizing last with
  | nil => cases hi
  | cons j is ih =>
    simp only [observed, List.mem_append, List.mem_cons]
    rcases List.mem_cons.mp hi with rfl | hi
    · exact ⟨.inr (.inl rfl), .inr (.inr (.inl rfl))⟩
    · obtain ⟨hstart, hstop⟩ := ih hi (some j.stop)
      exact ⟨.inr (.inr (.inr hstart)), .inr (.inr (.inr hstop))⟩

/-- Both ends of an interval are anchors of its set. -/
theorem ends_mem_anchors {s : IntervalSet κ ν} {i : Interval κ ν} (hi : i ∈ s.entries) :
    i.start ∈ s.anchors ∧ i.stop ∈ s.anchors := by
  rw [mem_anchors, mem_anchors]
  exact ends_mem_observed hi none

/-! ## The components so far -/

theorem moveOffset_keeping {side : Side} {o before after : Nat} (h : before ≤ o) (n : Nat)
    (cs : List Component) :
    moveOffset side o (keeping n ++ cs) before after =
      if o < before + n then .ok (after + (o - before))
      else moveOffset side o cs (before + n) (after + n) := by
  unfold keeping
  split
  · next hn =>
    subst hn
    rw [if_neg (by omega)]
    rfl
  · exact moveOffset_retain h n cs

theorem moveOffset_insert_right {o before after : Nat} {i : Text} {cs : List Component} :
    moveOffset .right o (.replace [] i :: cs) before after =
      moveOffset .right o cs before (after + i.length) := by
  simp [moveOffset]

theorem moveOffset_delete_right {o before after n : Nat} (h : 0 < n) {c : Char}
    {cs : List Component} :
    moveOffset .right o (.replace (List.replicate n c) [] :: cs) before after =
      if o < before + n then .ok after else moveOffset .right o cs (before + n) after := by
  simp [moveOffset, Nat.ne_of_gt h]

theorem inputLength_keeping (n : Nat) (cs : List Component) :
    inputLength (keeping n ++ cs) = n + inputLength cs := by
  unfold keeping
  split
  · next hn => rw [hn, List.nil_append, Nat.zero_add]
  · rfl

theorem outputLength_keeping (n : Nat) (cs : List Component) :
    outputLength (keeping n ++ cs) = n + outputLength cs := by
  unfold keeping
  split
  · next hn => rw [hn, List.nil_append, Nat.zero_add]
  · rfl

theorem fillers_eq {n : Nat} (h : n < Word.signedBound) :
    fillers n = .ok (List.replicate n filler) := if_pos h

/-- The walk stands at `previous`, the components end at `emitted` and `after`, and nothing that is
still to come leaves the range. -/
structure Ready (T : Nat → Nat) (after emitted previous : Nat) (points : List Nat) : Prop where
  emitted_le : emitted ≤ previous
  ascending : (previous :: points).Pairwise (· ≤ ·)
  small_previous : Word.Small previous
  small_after : Word.Small (after + (previous - emitted))
  small_points : ∀ q ∈ points, Word.Small q ∧ Word.Small (T q)

/-- What the components for the remaining points do, from where the others end: a point that the
walk has passed keeps its distance, and one to come is taken to the largest target before it, or
to where `previous` lands if that is later. -/
structure Reaches (T : Nat → Nat) (after emitted previous : Nat) (points : List Nat)
    (cs : List Component) : Prop where
  small_input : Word.Small (emitted + inputLength cs)
  small_output : Word.Small (after + outputLength cs)
  moves : ∀ o, emitted ≤ o → o ≤ previous ∨ o ∈ points →
    moveOffset .right o cs emitted after =
      .ok (max (after + (min o previous - emitted)) (peak T points o))

section Walk

variable {T : Nat → Nat} {after emitted previous point : Nat} {points : List Nat}

theorem Ready.previous_le (h : Ready T after emitted previous (point :: points)) :
    previous ≤ point := (List.pairwise_cons.mp h.ascending).1 point (List.mem_cons_self ..)

theorem Ready.point_le (h : Ready T after emitted previous (point :: points)) {q : Nat}
    (hq : q ∈ points) : point ≤ q :=
  (List.pairwise_cons.mp (List.pairwise_cons.mp h.ascending).2).1 q hq

/-- One move on: the walk stands at the point, and the components may have grown up to it. -/
theorem Ready.next (h : Ready T after emitted previous (point :: points)) {after' emitted' : Nat}
    (hle : emitted' ≤ point) (hsmall : Word.Small (after' + (point - emitted'))) :
    Ready T after' emitted' point points where
  emitted_le := hle
  ascending := (List.pairwise_cons.mp h.ascending).2
  small_previous := (h.small_points point (List.mem_cons_self ..)).1
  small_after := hsmall
  small_points q hq := h.small_points q (List.mem_cons_of_mem _ hq)

/-- The shift that a point still misses is how far its target lies beyond where the components so
far take it. -/
theorem Ready.missing (h : Ready T after emitted previous (point :: points)) :
    Word.signedSub (Word.toSigned (T point)) (Word.toSigned point) = .ok (T point - point) ∧
      Word.signedSub (T point - point) (after - emitted) =
        .ok (T point - (after + (point - emitted) : Nat)) := by
  have hemitted := h.emitted_le
  have hprevious := h.previous_le
  have hafter := h.small_after
  obtain ⟨hpoint, htarget⟩ := h.small_points point (List.mem_cons_self ..)
  unfold Word.Small at hafter hpoint htarget
  have hsame : (T point : Int) - point - (after - emitted) =
      T point - (after + (point - emitted) : Nat) := by omega
  constructor
  · rw [Word.toSigned_of_lt (by omega), Word.toSigned_of_lt (by omega)]
    exact Word.signedSub_eq ⟨by omega, by omega⟩
  · rw [← hsame]
    exact Word.signedSub_eq ⟨by omega, by omega⟩

/-! ## The three moves -/

theorem Ready.reach_insert (h : Ready T after emitted previous (point :: points))
    (hlt : after + (point - emitted) < T point) {cs : List Component}
    (hcs : reach (fun q => .ok (T q)) (T point - point) point point points = .ok cs) :
    reach (fun q => .ok (T q)) (after - emitted) emitted previous (point :: points) =
      .ok (keeping (point - emitted) ++
        .replace [] (List.replicate (T point - (after + (point - emitted))) filler) :: cs) := by
  have htarget := (h.small_points point (List.mem_cons_self ..)).2
  have hemitted := h.emitted_le
  have hprevious := h.previous_le
  obtain ⟨hwanted, hmissing⟩ := h.missing
  have hcount : ((T point : Int) - (after + (point - emitted) : Nat)).toNat =
      T point - (after + (point - emitted)) := by omega
  have hshift : (after : Int) - emitted + (T point - (after + (point - emitted) : Nat)) =
      T point - point := by omega
  unfold Word.Small at htarget
  refine bind_eq_ok.mpr ⟨_, rfl, bind_eq_ok.mpr ⟨_, hwanted, bind_eq_ok.mpr ⟨_, hmissing, ?_⟩⟩⟩
  rw [if_pos (by omega), hshift, hcount, fillers_eq (by omega), hcs]
  rfl

theorem Ready.reach_delete (h : Ready T after emitted previous (point :: points)) {count : Nat}
    (hle : T point ≤ after + (point - emitted))
    (hcount : count = min (after + (point - emitted) - T point) (point - previous))
    (hpos : 0 < count) {cs : List Component}
    (hcs : reach (fun q => .ok (T q)) ((after + (point - count - emitted) : Nat) - point) point
      point points = .ok cs) :
    reach (fun q => .ok (T q)) (after - emitted) emitted previous (point :: points) =
      .ok (keeping (point - count - emitted) ++
        .replace (List.replicate count filler) [] :: cs) := by
  have hpoint := (h.small_points point (List.mem_cons_self ..)).1
  have hemitted := h.emitted_le
  have hprevious := h.previous_le
  obtain ⟨hwanted, hmissing⟩ := h.missing
  have hdeleted : min (-((T point : Int) - (after + (point - emitted) : Nat))).toNat
      (point - previous) = count := by omega
  have hshift : (after : Int) - emitted - count =
      (after + (point - count - emitted) : Nat) - point := by omega
  unfold Word.Small at hpoint
  refine bind_eq_ok.mpr ⟨_, rfl, bind_eq_ok.mpr ⟨_, hwanted, bind_eq_ok.mpr ⟨_, hmissing, ?_⟩⟩⟩
  rw [if_neg (by omega), hdeleted, if_pos hpos, hshift, fillers_eq (by omega), hcs]
  rfl

theorem Ready.reach_pass (h : Ready T after emitted previous (point :: points))
    (hle : T point ≤ after + (point - emitted))
    (hstay : after + (point - emitted) = T point ∨ point = previous) {cs : List Component}
    (hcs : reach (fun q => .ok (T q)) (after - emitted) emitted point points = .ok cs) :
    reach (fun q => .ok (T q)) (after - emitted) emitted previous (point :: points) = .ok cs := by
  obtain ⟨hwanted, hmissing⟩ := h.missing
  have hdeleted : min (-((T point : Int) - (after + (point - emitted) : Nat))).toNat
      (point - previous) = 0 := by omega
  refine bind_eq_ok.mpr ⟨_, rfl, bind_eq_ok.mpr ⟨_, hwanted, bind_eq_ok.mpr ⟨_, hmissing, ?_⟩⟩⟩
  rw [if_neg (by omega), hdeleted, if_neg (Nat.lt_irrefl 0)]
  exact hcs

/-- What lies before the next point, the walk has passed. -/
theorem Ready.le_previous (h : Ready T after emitted previous (point :: points)) {o : Nat}
    (ho : o ≤ previous ∨ o ∈ point :: points) (hlt : o < point) : o ≤ previous := by
  rcases ho with hle | hmem
  · exact hle
  · rcases List.mem_cons.mp hmem with rfl | hmem
    · exact absurd hlt (Nat.lt_irrefl o)
    · exact absurd (h.point_le hmem) (Nat.not_le.mpr hlt)

/-- Up to the walk's last stop nothing depends on what is to come. -/
theorem Ready.max_before (h : Ready T after emitted previous (point :: points)) {o : Nat}
    (hle : o ≤ previous) (hlt : o < point) :
    max (after + (min o previous - emitted)) (peak T (point :: points) o) =
      after + (o - emitted) := by
  have hpeak : peak T (point :: points) o = 0 := by
    rw [peak_cons_of_lt hlt]
    exact peak_of_all_lt fun q hq => Nat.lt_of_lt_of_le hlt (h.point_le hq)
  rw [hpeak, Nat.max_zero, Nat.min_eq_left hle]

/-- From the point on, the walk's last stop and the point's own target are lower bounds. -/
theorem Ready.max_behind (h : Ready T after emitted previous (point :: points)) {o : Nat}
    (hge : point ≤ o) :
    max (after + (min o previous - emitted)) (peak T (point :: points) o) =
      max (max (after + (previous - emitted)) (T point)) (peak T points o) := by
  rw [peak_cons_of_le hge, Nat.min_eq_right (Nat.le_trans h.previous_le hge), Nat.max_assoc]

theorem mem_next {o : Nat} (ho : o ≤ previous ∨ o ∈ point :: points)
    (hprevious : previous ≤ point) : o ≤ point ∨ o ∈ points := by
  rcases ho with hle | hmem
  · exact .inl (Nat.le_trans hle hprevious)
  · rcases List.mem_cons.mp hmem with rfl | hmem
    · exact .inl (Nat.le_refl o)
    · exact .inr hmem

/-- Where the components start again at the point, what they do from there on is known. -/
theorem Reaches.moves_behind {start : Nat} {cs : List Component}
    (hcs : Reaches T start point point points cs) {o : Nat} (ho : o ≤ point ∨ o ∈ points)
    (hge : point ≤ o) : moveOffset .right o cs point start = .ok (max start (peak T points o)) := by
  rw [hcs.moves o hge ho, Nat.min_eq_right hge, Nat.sub_self, Nat.add_zero]

/-- Text inserted at the point takes it to its target. -/
theorem Reaches.insert (h : Ready T after emitted previous (point :: points))
    (hlt : after + (point - emitted) < T point) {cs : List Component}
    (hcs : Reaches T (T point) point point points cs) :
    Reaches T after emitted previous (point :: points) (keeping (point - emitted) ++
      .replace [] (List.replicate (T point - (after + (point - emitted))) filler) :: cs) := by
  have hemitted := h.emitted_le
  have hprevious := h.previous_le
  have hinput := hcs.small_input
  have houtput := hcs.small_output
  unfold Word.Small at hinput houtput
  refine ⟨?_, ?_, ?_⟩
  · rw [inputLength_keeping, inputLength_cons, Component.lenBefore, List.length_nil, Word.Small]
    omega
  · rw [outputLength_keeping, outputLength_cons, Component.lenAfter, List.length_replicate,
      Word.Small]
    omega
  · intro o ho hor
    rw [moveOffset_keeping ho]
    rcases Nat.lt_or_ge o point with hbefore | hbehind
    · rw [if_pos (by omega), h.max_before (h.le_previous hor hbefore) hbefore]
    · have hpoint : emitted + (point - emitted) = point := by omega
      have hafter : after + (point - emitted) + (T point - (after + (point - emitted))) =
          T point := by omega
      have hpeak : max (after + (previous - emitted)) (T point) = T point := by omega
      rw [hpoint, if_neg (Nat.not_lt.mpr hbehind), moveOffset_insert_right, List.length_replicate,
        hafter, hcs.moves_behind (mem_next hor hprevious) hbehind, h.max_behind hbehind, hpeak]

/-- Text deleted just before the point takes it to its target, or as far back as where the anchor
before it lands. -/
theorem Reaches.delete (h : Ready T after emitted previous (point :: points)) {count : Nat}
    (hle : T point ≤ after + (point - emitted))
    (hcount : count = min (after + (point - emitted) - T point) (point - previous))
    (hpos : 0 < count) {cs : List Component}
    (hcs : Reaches T (after + (point - count - emitted)) point point points cs) :
    Reaches T after emitted previous (point :: points) (keeping (point - count - emitted) ++
      .replace (List.replicate count filler) [] :: cs) := by
  have hemitted := h.emitted_le
  have hprevious := h.previous_le
  have hinput := hcs.small_input
  have houtput := hcs.small_output
  unfold Word.Small at hinput houtput
  refine ⟨?_, ?_, ?_⟩
  · rw [inputLength_keeping, inputLength_cons, Component.lenBefore, List.length_replicate,
      Word.Small]
    omega
  · rw [outputLength_keeping, outputLength_cons, Component.lenAfter, List.length_nil, Word.Small]
    omega
  · intro o ho hor
    have hstart : emitted + (point - count - emitted) + count = point := by omega
    rw [moveOffset_keeping ho, moveOffset_delete_right hpos, hstart]
    rcases Nat.lt_or_ge o point with hbefore | hbehind
    · -- an anchor passed lies before the deleted text or right at its start
      have hpassed := h.le_previous hor hbefore
      rw [h.max_before hpassed hbefore, if_pos hbefore]
      split
      · rfl
      · congr 1
        omega
    · have hpeak : max (after + (previous - emitted)) (T point) =
          after + (point - count - emitted) := by omega
      rw [if_neg (by omega), if_neg (Nat.not_lt.mpr hbehind),
        hcs.moves_behind (mem_next hor hprevious) hbehind, h.max_behind hbehind, hpeak]

/-- A point that need not move, or cannot, is passed. -/
theorem Reaches.pass (h : Ready T after emitted previous (point :: points))
    (hle : T point ≤ after + (point - emitted))
    (hstay : after + (point - emitted) = T point ∨ point = previous) {cs : List Component}
    (hcs : Reaches T after emitted point points cs) :
    Reaches T after emitted previous (point :: points) cs := by
  refine ⟨hcs.small_input, hcs.small_output, ?_⟩
  intro o ho hor
  have hprevious := h.previous_le
  rw [hcs.moves o ho (mem_next hor hprevious)]
  rcases Nat.lt_or_ge o point with hbefore | hbehind
  · have hpeak : peak T points o = 0 :=
      peak_of_all_lt fun q hq => Nat.lt_of_lt_of_le hbefore (h.point_le hq)
    rw [h.max_before (h.le_previous hor hbefore) hbefore, hpeak, Nat.max_zero,
      Nat.min_eq_left (Nat.le_of_lt hbefore)]
  · have hpeak : max (after + (previous - emitted)) (T point) = after + (point - emitted) := by
      rcases hstay with hstay | rfl <;> omega
    rw [h.max_behind hbehind, hpeak, Nat.min_eq_right hbehind]

/-- The walk always ends, with components that reach what there is to reach. -/
theorem Ready.exists_reaches (h : Ready T after emitted previous points) :
    ∃ cs, reach (fun q => .ok (T q)) (after - emitted) emitted previous points = .ok cs ∧
      Reaches T after emitted previous points cs := by
  induction points generalizing after emitted previous with
  | nil =>
    have hemitted := h.emitted_le
    have hprevious := h.small_previous
    have hafter := h.small_after
    have hbound := Word.bound_eq
    unfold Word.Small at hprevious hafter
    refine ⟨[], rfl, ?_, ?_, ?_⟩
    · rw [inputLength_nil, Word.Small]
      omega
    · rw [outputLength_nil, Word.Small]
      omega
    · intro o ho hor
      rcases hor with hor | hor
      · rw [moveOffset_nil (by omega), Nat.min_eq_left hor]
        show _ = Except.ok (max _ 0)
        congr 1
        omega
      · cases hor
  | cons point points ih =>
    have hemitted := h.emitted_le
    have hprevious := h.previous_le
    have hafter := h.small_after
    obtain ⟨hpoint, htarget⟩ := h.small_points point (List.mem_cons_self ..)
    unfold Word.Small at hafter htarget
    rcases Nat.lt_or_ge (after + (point - emitted)) (T point) with hlt | hle
    · have hnext : Ready T (T point) point point points :=
        h.next (Nat.le_refl point) (by rw [Word.Small]; omega)
      obtain ⟨cs, hreach, hcs⟩ := ih hnext
      exact ⟨_, h.reach_insert hlt hreach, .insert h hlt hcs⟩
    · obtain ⟨count, hcount⟩ :
          ∃ count, count = min (after + (point - emitted) - T point) (point - previous) := ⟨_, rfl⟩
      rcases Nat.eq_zero_or_pos count with hzero | hpos
      · have hstay : after + (point - emitted) = T point ∨ point = previous := by omega
        have hnext : Ready T after emitted point points :=
          h.next (by omega) (by rw [Word.Small]; rcases hstay with hstay | rfl <;> omega)
        obtain ⟨cs, hreach, hcs⟩ := ih hnext
        exact ⟨cs, h.reach_pass hle hstay hreach, .pass h hle hstay hcs⟩
      · have hnext : Ready T (after + (point - count - emitted)) point point points :=
          h.next (Nat.le_refl point) (by rw [Word.Small]; omega)
        obtain ⟨cs, hreach, hcs⟩ := ih hnext
        exact ⟨_, h.reach_delete hle hcount hpos hreach, .delete h hle hcount hpos hcs⟩

end Walk

/-- The operation for a set takes each of its anchors to the largest target up to it. -/
theorem exists_operationTo {s : IntervalSet κ ν} {T : Nat → Nat}
    (h : ∀ q ∈ 0 :: s.anchors, Word.Small q ∧ Word.Small (T q)) :
    ∃ op, s.operationTo (fun q => .ok (T q)) = .ok op ∧
      ∀ p ∈ 0 :: s.anchors, op.mapOffset p .right = .ok (peak T (0 :: s.anchors) p) := by
  have hstart : Ready T 0 0 0 (0 :: s.anchors) := by
    refine ⟨Nat.le_refl 0, ?_, by decide, by decide, h⟩
    have hanchors : s.anchors.Pairwise (· ≤ ·) := s.pairwise_anchors.imp Nat.le_of_lt
    have hzero : ∀ {qs : List Nat}, qs.Pairwise (· ≤ ·) → (0 :: qs).Pairwise (· ≤ ·) :=
      fun hqs => List.pairwise_cons.mpr ⟨fun q _ => Nat.zero_le q, hqs⟩
    exact hzero (hzero hanchors)
  obtain ⟨cs, hreach, hcs⟩ := hstart.exists_reaches
  have hfit : inputLength cs < Word.bound ∧ outputLength cs < Word.bound := by
    have hinput := hcs.small_input
    have houtput := hcs.small_output
    have hbound := Word.bound_eq
    unfold Word.Small at hinput houtput
    omega
  refine ⟨⟨cs, hfit.1, hfit.2⟩, bind_eq_ok.mpr ⟨cs, hreach, dif_pos hfit⟩, ?_⟩
  intro p hp
  rw [Operation.mapOffset, hcs.moves p (Nat.zero_le p) (.inr hp), Nat.min_zero]
  exact congrArg Except.ok (Nat.zero_max _)

/-- A projection takes each anchor of a set to the largest target asked for up to it. So relocating
the set moves the ends of its intervals there, and puts them where they were asked to go if the
targets never go back; the intervals are sorted stably. -/
theorem relocate_running_max {s : IntervalSet κ ν} (hs : s.Built) {T : Nat → Nat}
    (h : ∀ q ∈ 0 :: s.anchors, Word.Small q ∧ Word.Small (T q)) :
    (∃ op, s.operationTo (fun q => .ok (T q)) = .ok op ∧
      ∀ p ∈ 0 :: s.anchors, op.mapOffset p .right = .ok (peak T (0 :: s.anchors) p)) ∧
    ∃ s', s.relocate (fun q => .ok (T q)) = .ok s' ∧
      Interval.StablySorted (s.entries.map (Interval.mapEnds (peak T (0 :: s.anchors))))
        s'.entries ∧
      ((∀ a b, a ≤ b → T a ≤ T b) →
        Interval.StablySorted (s.entries.map (Interval.mapEnds T)) s'.entries) := by
  obtain ⟨op, hop, hmap⟩ := exists_operationTo h
  have hends : ∀ i ∈ s.entries, i.start ∈ 0 :: s.anchors ∧ i.stop ∈ 0 :: s.anchors := by
    intro i hi
    obtain ⟨hstart, hstop⟩ := ends_mem_anchors hi
    exact ⟨List.mem_cons_of_mem _ hstart, List.mem_cons_of_mem _ hstop⟩
  obtain ⟨s', hedit, hsorted⟩ := hs.ordered.stablySorted_edit fun i hi =>
    ⟨hmap i.start (hends i hi).1, hmap i.stop (hends i hi).2⟩
  refine ⟨⟨op, hop, hmap⟩, s', bind_eq_ok.mpr ⟨op, hop, hedit⟩, hsorted, ?_⟩
  intro hT
  have hsame : ∀ i ∈ s.entries, i.mapEnds (peak T (0 :: s.anchors)) = i.mapEnds T := by
    intro i hi
    unfold Interval.mapEnds
    rw [peak_of_monotone hT (hends i hi).1, peak_of_monotone hT (hends i hi).2]
  rw [← List.map_congr_left hsame]
  exact hsorted

/-- Two intervals on one stretch, and one behind them. -/
def neighbours : IntervalSet Char Nat := .ofList [⟨'a', 4, 6, 1⟩, ⟨'b', 1, 3, 2⟩, ⟨'c', 1, 3, 3⟩]

/-- Targets that go back twice, at 3 and at 6. -/
def wavering : Nat → Nat := fun q => [2, 5, 5, 1, 9, 9, 7].getD q 0

/-- Where the targets go back, the ends of the intervals stay where the ones before them went. -/
theorem relocate_running_max_wavering :
    (∀ q ∈ 0 :: neighbours.anchors, Word.Small q ∧ Word.Small (wavering q)) ∧
    (∃ op, neighbours.operationTo (fun q => .ok (wavering q)) = .ok op ∧
      op.mapOffset 3 .right = .ok 5 ∧ op.mapOffset 6 .right = .ok 9) ∧
    ∃ s', neighbours.relocate (fun q => .ok (wavering q)) = .ok s' ∧
      Interval.StablySorted [⟨'b', 5, 5, 2⟩, ⟨'c', 5, 5, 3⟩, ⟨'a', 9, 9, 1⟩] s'.entries := by
  have hsmall : ∀ q ∈ 0 :: neighbours.anchors, Word.Small q ∧ Word.Small (wavering q) := by decide
  obtain ⟨⟨op, hop, hmap⟩, s', hs', hsorted, _⟩ := relocate_running_max (.ofList _) hsmall
  exact ⟨hsmall, ⟨op, hop, hmap 3 (by decide), hmap 6 (by decide)⟩, s', hs', hsorted⟩

end IntervalSet

end Coedit
