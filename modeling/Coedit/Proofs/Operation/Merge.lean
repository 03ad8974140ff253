import Coedit.Operation.Transform
import Coedit.Proofs.Operation.Composition

/-!
# Concurrent operations converge on their merge

Two operations from the same text have a merge that says nothing of runs or alignments. It goes
over the text gap by gap:

> `Operation.merge a b t`: at each gap all text that `a` inserts there, then all text that `b`
> inserts there, then the next character of `t`, if neither deletes it.

A replacement inserts at the gap behind the characters it deletes. This file proves that
transforming is a way to this merge from either side:

> `Operation.transform_apply`: after `b`, the operation `a.transform b .left` makes the merge of
> what `b` made, and after `a`, the operation `b.transform a .right` does.

The proof follows the alignment at the common text. What is left of the text after a cell has its
own merge, of the runs that are left, and the cell accounts for the difference
(`mergeRuns_insert_mine`, `mergeRuns_insert_theirs`, `mergeRuns_cut`). Runs must not be empty for
this: a run without characters would let an insertion behind it look as if it came later.
-/

namespace Coedit

/-! ## Weaving gap by gap -/

/-- The text `t` with `first g` and then `second g` at every gap `g`, and without the characters
that are not kept. Gap `g` is the one before the character at index `g`; the last gap is the end. -/
def weave (first second : Nat → Text) (kept : Nat → Bool) (t : Text) : Text :=
  (List.range (t.length + 1)).flatMap fun g =>
    first g ++ second g ++ if kept g then t[g]?.toList else []

section Weave

variable {first second : Nat → Text} {kept : Nat → Bool}

theorem weave_nil : weave first second kept [] = first 0 ++ second 0 := by
  show first 0 ++ second 0 ++ (if kept 0 then [] else []) ++ [] = _
  rw [ite_self, List.append_nil, List.append_nil]

theorem weave_cons (c : Char) (t : Text) :
    weave first second kept (c :: t) =
      first 0 ++ second 0 ++ (if kept 0 then [c] else []) ++
        weave (fun g => first (g + 1)) (fun g => second (g + 1)) (fun g => kept (g + 1)) t := by
  unfold weave
  rw [List.length_cons, List.range_succ_eq_map, List.flatMap_cons, List.flatMap_map]
  rfl

/-- Text that comes first at the first gap comes before everything. -/
theorem weave_first_zero (i : Text) (t : Text) :
    weave (fun g => (if g = 0 then i else []) ++ first g) second kept t =
      i ++ weave first second kept t := by
  cases t with
  | nil =>
    rw [weave_nil, weave_nil, if_pos rfl]
    simp only [List.append_assoc]
  | cons c t =>
    rw [weave_cons, weave_cons, if_pos rfl]
    simp only [Nat.add_one_ne_zero, if_false, List.nil_append, List.append_assoc]

/-- Text that comes second at the first gap comes before everything if nothing comes first there. -/
theorem weave_second_zero (hfirst : first 0 = []) (i : Text) (t : Text) :
    weave first (fun g => (if g = 0 then i else []) ++ second g) kept t =
      i ++ weave first second kept t := by
  cases t with
  | nil =>
    rw [weave_nil, weave_nil, if_pos rfl, hfirst, List.nil_append, List.nil_append]
  | cons c t =>
    rw [weave_cons, weave_cons, if_pos rfl, hfirst]
    simp only [Nat.add_one_ne_zero, if_false, List.nil_append, List.append_assoc]

/-- A stretch with no insertions in it that is kept or dropped as a whole. -/
theorem weave_stretch {keep : Bool} :
    ∀ (u : Text) {first second : Nat → Text} {kept : Nat → Bool},
      (∀ g, g < u.length → first g = []) → (∀ g, g < u.length → second g = []) →
      (∀ g, g < u.length → kept g = keep) → ∀ t : Text,
      weave first second kept (u ++ t) =
        (if keep then u else []) ++
          weave (fun g => first (g + u.length)) (fun g => second (g + u.length))
            (fun g => kept (g + u.length)) t := by
  intro u
  induction u with
  | nil =>
    intro first second kept _ _ _ t
    rw [ite_self]
    rfl
  | cons c u ih =>
    intro first second kept hfirst hsecond hkept t
    have hzero : 0 < (c :: u).length := Nat.succ_pos _
    have hstep := @ih (fun g => first (g + 1)) (fun g => second (g + 1)) (fun g => kept (g + 1))
      (fun g hg => hfirst (g + 1) (Nat.succ_lt_succ hg))
      (fun g hg => hsecond (g + 1) (Nat.succ_lt_succ hg))
      (fun g hg => hkept (g + 1) (Nat.succ_lt_succ hg)) t
    rw [List.cons_append, weave_cons, hfirst 0 hzero, hsecond 0 hzero, hkept 0 hzero, hstep]
    simp only [List.length_cons, Nat.add_assoc, Nat.add_comm u.length 1]
    cases keep with
    | true => rfl
    | false => rfl

end Weave

/-! ## Insertions and deletions by place -/

/-- The text that components insert at a gap of the text they run over. A replacement inserts
behind what it deletes. -/
def insertedAt : List Component → (gap : Nat) → Text
  | [], _ => []
  | .retain n :: cs, g => if g < n then [] else insertedAt cs (g - n)
  | .replace d i :: cs, g =>
    if g < d.length then [] else (if g = d.length then i else []) ++ insertedAt cs (g - d.length)

/-- Do components leave the character at an index of the text they run over? -/
def keepsAt : List Component → (index : Nat) → Bool
  | [], _ => true
  | .retain n :: cs, k => if k < n then true else keepsAt cs (k - n)
  | .replace d _ :: cs, k => if k < d.length then false else keepsAt cs (k - d.length)

/-- The merge of two operations from the same text, gap by gap. Where both insert, the text of the
first one comes first. -/
def Operation.merge (a b : Operation) (t : Text) : Text :=
  weave (insertedAt a.components) (insertedAt b.components)
    (fun k => keepsAt a.components k && keepsAt b.components k) t

namespace Piece

/-- The text that runs insert at a gap. -/
def insertedAt : List Piece → (gap : Nat) → Text
  | [], _ => []
  | insert i :: ps, g => (if g = 0 then i else []) ++ insertedAt ps g
  | retain n :: ps, g => if g < n then [] else insertedAt ps (g - n)
  | delete d :: ps, g => if g < d.length then [] else insertedAt ps (g - d.length)

/-- Do runs leave the character at an index? -/
def keepsAt : List Piece → (index : Nat) → Bool
  | [], _ => true
  | insert _ :: ps, k => keepsAt ps k
  | retain n :: ps, k => if k < n then true else keepsAt ps (k - n)
  | delete d :: ps, k => if k < d.length then false else keepsAt ps (k - d.length)

theorem insertedAt_cons {p : Piece} (hp : ¬ p.isInsert) (ps : List Piece) (g : Nat) :
    insertedAt (p :: ps) g = if g < p.size then [] else insertedAt ps (g - p.size) := by
  cases p with
  | insert i => exact absurd rfl hp
  | retain n => rfl
  | delete d => rfl

theorem keepsAt_cons {p : Piece} (hp : ¬ p.isInsert) (ps : List Piece) (k : Nat) :
    keepsAt (p :: ps) k = if k < p.size then !p.isDelete else keepsAt ps (k - p.size) := by
  cases p with
  | insert i => exact absurd rfl hp
  | retain n => rfl
  | delete d => rfl

/-- At the first gap nothing is inserted if the first run is of another kind and not empty. -/
theorem insertedAt_zero {p : Piece} (hp : ¬ p.isInsert) (hsize : p.size ≠ 0) (ps : List Piece) :
    insertedAt (p :: ps) 0 = [] := by
  rw [insertedAt_cons hp, if_pos (Nat.pos_of_ne_zero hsize)]

theorem insertedAt_cons_empty {p : Piece} (hp : p.size = 0) (ps : List Piece) :
    insertedAt (p :: ps) = insertedAt ps := by
  funext g
  by_cases hpi : p.isInsert
  · cases p with
    | insert i => rw [insertedAt, List.length_eq_zero_iff.mp hp, ite_self, List.nil_append]
    | retain n => cases hpi
    | delete d => cases hpi
  · rw [insertedAt_cons hpi, hp, if_neg (Nat.not_lt_zero g), Nat.sub_zero]

theorem keepsAt_cons_empty {p : Piece} (hp : p.size = 0) (ps : List Piece) :
    keepsAt (p :: ps) = keepsAt ps := by
  funext k
  by_cases hpi : p.isInsert
  · cases p with
    | insert i => rfl
    | retain n => cases hpi
    | delete d => cases hpi
  · rw [keepsAt_cons hpi, hp, if_neg (Nat.not_lt_zero k), Nat.sub_zero]

@[simp] theorem isInsert_drop (k : Nat) (p : Piece) : (p.drop k).isInsert = p.isInsert := by
  cases p <;> rfl

@[simp] theorem isDelete_drop (k : Nat) (p : Piece) : (p.drop k).isDelete = p.isDelete := by
  cases p <;> rfl

/-- A reading of runs by place that sees one value all over a run sees, past the first `k`
characters of the run or past all of them, what `resume` leaves. -/
theorem read_resume {β : Type} {f : List Piece → Nat → β} {x : Piece → β}
    (hf : ∀ (p : Piece) (ps : List Piece) (g : Nat), ¬ p.isInsert →
      f (p :: ps) g = if g < p.size then x p else f ps (g - p.size))
    (hx : ∀ (k : Nat) (p : Piece), x (p.drop k) = x p)
    {p : Piece} (hp : ¬ p.isInsert) (k : Nat) (ps : List Piece) (g : Nat) :
    f (p :: ps) (g + min k p.size) = f (p.resume k ps) g := by
  have hdrop : ¬ (p.drop k).isInsert := by rw [isInsert_drop]; exact hp
  rw [hf p ps _ hp]
  unfold resume
  by_cases hk : p.size ≤ k
  · rw [if_pos hk, Nat.min_eq_right hk, if_neg (by omega), Nat.add_sub_cancel]
  · rw [if_neg hk, Nat.min_eq_left (by omega), hf _ ps g hdrop, size_drop, hx]
    by_cases hg : g < p.size - k
    · rw [if_pos (by omega), if_pos hg]
    · rw [if_neg (by omega), if_neg hg, show g + k - p.size = g - (p.size - k) by omega]

theorem insertedAt_resume {p : Piece} (hp : ¬ p.isInsert) (k : Nat) (ps : List Piece) (g : Nat) :
    insertedAt (p :: ps) (g + min k p.size) = insertedAt (p.resume k ps) g :=
  read_resume (x := fun _ => []) (fun _ ps g hq => insertedAt_cons hq ps g) (fun _ _ => rfl) hp k ps
    g

theorem keepsAt_resume {p : Piece} (hp : ¬ p.isInsert) (k : Nat) (ps : List Piece) (g : Nat) :
    keepsAt (p :: ps) (g + min k p.size) = keepsAt (p.resume k ps) g :=
  read_resume (x := fun q => !q.isDelete) (fun _ ps g hq => keepsAt_cons hq ps g)
    (fun k q => by rw [isDelete_drop]) hp k ps g

theorem size_ne_zero_of_mem_resume {k : Nat} {p : Piece} {ps : List Piece}
    (hps : ∀ r ∈ p :: ps, r.size ≠ 0) : ∀ r ∈ p.resume k ps, r.size ≠ 0 := by
  unfold resume
  intro r hr
  split at hr
  · exact hps r (List.mem_cons_of_mem _ hr)
  · rcases List.mem_cons.mp hr with rfl | hr
    · rw [size_drop]
      omega
    · exact hps r (List.mem_cons_of_mem _ hr)

/-! ## The merge of runs -/

/-- The merge of the runs of two operations, with the text of the one on the given side first. -/
def mergeRuns (side : Side) (mine theirs : List Piece) (s : Text) : Text :=
  match side with
  | .left =>
    weave (insertedAt mine) (insertedAt theirs) (fun k => keepsAt mine k && keepsAt theirs k) s
  | .right =>
    weave (insertedAt theirs) (insertedAt mine) (fun k => keepsAt mine k && keepsAt theirs k) s

/-- My insertion comes next if my text goes first, or if nothing else is inserted here. -/
theorem mergeRuns_insert_mine {side : Side} {theirs : List Piece}
    (h : side = .left ∨ insertedAt theirs 0 = []) (i : Text) (mine : List Piece) (s : Text) :
    mergeRuns side (insert i :: mine) theirs s = i ++ mergeRuns side mine theirs s := by
  cases side with
  | left => exact weave_first_zero i s
  | right =>
    rcases h with h | h
    · cases h
    · exact weave_second_zero h i s

/-- Their insertion comes next if their text goes first, or if nothing else is inserted here. -/
theorem mergeRuns_insert_theirs {side : Side} {mine : List Piece}
    (h : side = .right ∨ insertedAt mine 0 = []) (i : Text) (theirs : List Piece) (s : Text) :
    mergeRuns side mine (insert i :: theirs) s = i ++ mergeRuns side mine theirs s := by
  cases side with
  | right => exact weave_first_zero i s
  | left =>
    rcases h with h | h
    · cases h
    · exact weave_second_zero h i s

/-- Two runs over the same stretch keep it if neither deletes it, and the merge goes on with what
is left of them. -/
theorem mergeRuns_cut {side : Side} {p q : Piece} (hp : ¬ p.isInsert) (hq : ¬ q.isInsert)
    {u : Text} (hu : u.length = min q.size p.size) (mine theirs : List Piece) (s : Text) :
    mergeRuns side (p :: mine) (q :: theirs) (u ++ s) =
      (if !p.isDelete && !q.isDelete then u else []) ++
        mergeRuns side (p.resume q.size mine) (q.resume p.size theirs) s := by
  have hmine : ∀ g, g < u.length → insertedAt (p :: mine) g = [] := by
    intro g hg
    rw [insertedAt_cons hp, if_pos (by omega)]
  have htheirs : ∀ g, g < u.length → insertedAt (q :: theirs) g = [] := by
    intro g hg
    rw [insertedAt_cons hq, if_pos (by omega)]
  have hkept : ∀ g, g < u.length →
      (keepsAt (p :: mine) g && keepsAt (q :: theirs) g) = (!p.isDelete && !q.isDelete) := by
    intro g hg
    rw [keepsAt_cons hp, keepsAt_cons hq, if_pos (by omega), if_pos (by omega)]
  have hrestp : ∀ g,
      insertedAt (p :: mine) (g + u.length) = insertedAt (p.resume q.size mine) g := by
    intro g
    rw [hu]
    exact insertedAt_resume hp q.size mine g
  have hrestq : ∀ g,
      insertedAt (q :: theirs) (g + u.length) = insertedAt (q.resume p.size theirs) g := by
    intro g
    rw [hu, Nat.min_comm]
    exact insertedAt_resume hq p.size theirs g
  have hrestk : ∀ g, (keepsAt (p :: mine) (g + u.length) && keepsAt (q :: theirs) (g + u.length)) =
      (keepsAt (p.resume q.size mine) g && keepsAt (q.resume p.size theirs) g) := by
    intro g
    rw [← keepsAt_resume hp, ← keepsAt_resume hq, hu, Nat.min_comm p.size]
  cases side with
  | left =>
    show weave _ _ _ (u ++ s) = _ ++ weave _ _ _ s
    rw [weave_stretch u hmine htheirs hkept s, funext hrestp, funext hrestq, funext hrestk]
  | right =>
    show weave _ _ _ (u ++ s) = _ ++ weave _ _ _ s
    rw [weave_stretch u htheirs hmine hkept s, funext hrestp, funext hrestq, funext hrestk]

end Piece

/-! ## Following the alignment -/

/-- A run of mine and a run of theirs over the same stretch `u`: what their cell contributes leads
from what they left of it to what both leave of it. -/
theorem rewrites_transformed_both {p q : Piece} (hp : ¬ p.isInsert) (hq : ¬ q.isInsert)
    {u a b : Text} (hpu : p.Turns u a) (hqu : q.Turns u b) {ps : List Piece} {s t : Text}
    (hps : Rewrites ps s t) :
    Rewrites ((Cell.both p q).transformed ++ ps) (b ++ s)
      ((if !p.isDelete && !q.isDelete then u else []) ++ t) := by
  cases p with
  | insert i => exact absurd rfl hp
  | retain n =>
    cases q with
    | insert j => exact absurd rfl hq
    | retain m =>
      obtain ⟨_, rfl⟩ := hqu
      exact .cons ⟨hpu.1, rfl⟩ hps
    | delete e =>
      obtain ⟨_, rfl⟩ := hqu
      exact hps
  | delete d =>
    cases q with
    | insert j => exact absurd rfl hq
    | retain m =>
      obtain ⟨_, rfl⟩ := hqu
      exact .cons ⟨hpu.1, rfl⟩ hps
    | delete e =>
      -- they deleted it already
      obtain ⟨_, rfl⟩ := hqu
      exact hps

/-- Where no text is left, a run that is not empty can only insert. -/
theorem Rewrites.isInsert_of_nil {p : Piece} (hsize : p.size ≠ 0) {ps : List Piece} {t : Text}
    (h : Rewrites (p :: ps) [] t) : p.isInsert := by
  have hlen := h.length_before
  rw [List.length_nil, total_cons] at hlen
  cases p with
  | insert i => rfl
  | retain n => exact absurd (Nat.add_eq_zero_iff.mp hlen.symm).1 hsize
  | delete d => exact absurd (Nat.add_eq_zero_iff.mp hlen.symm).1 hsize

/-- **The aligned runs lead from their text to the merge.** The induction follows the alignment;
the common text `s` shrinks with it, and so does the merge of what is left. -/
theorem Rewrites.concurrence {side : Side} {ps qs : List Piece} {s a b : Text}
    (hps : ∀ p ∈ ps, p.size ≠ 0) (hqs : ∀ q ∈ qs, q.size ≠ 0)
    (hp : Rewrites ps s a) (hq : Rewrites qs s b) :
    Rewrites ((Operation.concurrence side ps qs).flatMap Cell.transformed) b
      (Piece.mergeRuns side ps qs s) := by
  unfold Operation.concurrence
  fun_induction align Piece.isInsert Piece.isInsert side ps qs generalizing s a b with
  | case1 =>
    obtain ⟨rfl, rfl⟩ := rewrites_nil.mp hq
    cases side with
    | left => exact .nil
    | right => exact .nil
  | case2 p ps ih =>
    obtain ⟨rfl, rfl⟩ := rewrites_nil.mp hq
    cases p with
    | insert i =>
      obtain ⟨a', _, hp'⟩ := rewrites_insert.mp hp
      have hrest := ih (fun r hr => hps r (List.mem_cons_of_mem _ hr)) hqs hp' .nil
      rw [Piece.mergeRuns_insert_mine (Or.inr rfl)]
      exact rewrites_insert.mpr ⟨_, rfl, hrest⟩
    | retain n =>
      exact absurd (hp.isInsert_of_nil (hps _ (List.mem_cons_self ..))) Bool.false_ne_true
    | delete d =>
      exact absurd (hp.isInsert_of_nil (hps _ (List.mem_cons_self ..))) Bool.false_ne_true
  | case3 q qs ih =>
    obtain ⟨rfl, rfl⟩ := rewrites_nil.mp hp
    cases q with
    | insert j =>
      obtain ⟨b', rfl, hq'⟩ := rewrites_insert.mp hq
      have hrest := ih hps (fun r hr => hqs r (List.mem_cons_of_mem _ hr)) .nil hq'
      rw [Piece.mergeRuns_insert_theirs (Or.inr rfl)]
      exact rewrites_retain.mpr ⟨j, b', _, rfl, rfl, rfl, hrest⟩
    | retain n =>
      exact absurd (hq.isInsert_of_nil (hqs _ (List.mem_cons_self ..))) Bool.false_ne_true
    | delete d =>
      exact absurd (hq.isInsert_of_nil (hqs _ (List.mem_cons_self ..))) Bool.false_ne_true
  | case4 p ps q qs hfree ih =>
    -- on the right mine comes next only if they insert nothing here: that their next run is no
    -- insertion says so because it is not empty
    cases p with
    | insert i =>
      obtain ⟨a', _, hp'⟩ := rewrites_insert.mp hp
      have hfirst : side = .left ∨ Piece.insertedAt (q :: qs) 0 = [] := by
        rcases hfree.2 with hside | hqi
        · exact Or.inl hside
        · exact Or.inr (Piece.insertedAt_zero hqi (hqs q (List.mem_cons_self ..)) qs)
      rw [Piece.mergeRuns_insert_mine hfirst]
      exact rewrites_insert.mpr
        ⟨_, rfl, ih (fun r hr => hps r (List.mem_cons_of_mem _ hr)) hqs hp' hq⟩
    | retain n => exact absurd hfree.1 Bool.false_ne_true
    | delete d => exact absurd hfree.1 Bool.false_ne_true
  | case5 p ps q qs hleft hfree ih =>
    cases q with
    | insert j =>
      obtain ⟨b', rfl, hq'⟩ := rewrites_insert.mp hq
      have hfirst : side = .right ∨ Piece.insertedAt (p :: ps) 0 = [] := by
        cases side with
        | right => exact Or.inl rfl
        | left =>
          have hpi : ¬ p.isInsert := fun hpi => hleft ⟨hpi, Or.inl rfl⟩
          exact Or.inr (Piece.insertedAt_zero hpi (hps p (List.mem_cons_self ..)) ps)
      rw [Piece.mergeRuns_insert_theirs hfirst]
      exact rewrites_retain.mpr ⟨j, b', _, rfl, rfl, rfl,
        ih hps (fun r hr => hqs r (List.mem_cons_of_mem _ hr)) hp hq'⟩
    | retain n => exact absurd hfree Bool.false_ne_true
    | delete d => exact absurd hfree Bool.false_ne_true
  | case6 p ps q qs hleft hqi ih =>
    have hpi : ¬ p.isInsert := fun hpi => hleft ⟨hpi, Or.inr hqi⟩
    have hpt : ¬ (p.take q.size).isInsert := by rw [Piece.isInsert_take]; exact hpi
    have hqt : ¬ (q.take p.size).isInsert := by rw [Piece.isInsert_take]; exact hqi
    obtain ⟨u, a₁, s', a', rfl, rfl, hpu, hp'⟩ := rewrites_cons.mp (hp.cut q.size)
    obtain ⟨u', b₁, s'', b', hs, rfl, hqu, hq'⟩ := rewrites_cons.mp (hq.cut p.size)
    have hu : u.length = min q.size p.size := by
      rw [hpu.length_before, Piece.lenBefore_eq_size hpt, Piece.size_take]
    have hu' : u'.length = min p.size q.size := by
      rw [hqu.length_before, Piece.lenBefore_eq_size hqt, Piece.size_take]
    -- both cut runs cover the same stretch of the common text
    obtain ⟨rfl, rfl⟩ := List.append_inj hs (by rw [hu, hu', Nat.min_comm])
    have hrest := ih (Piece.size_ne_zero_of_mem_resume hps) (Piece.size_ne_zero_of_mem_resume hqs)
      hp' hq'
    rw [Piece.mergeRuns_cut hpi hqi hu, ← Piece.isDelete_take q.size p,
      ← Piece.isDelete_take p.size q]
    exact rewrites_transformed_both hpt hqt hpu hqu hrest

/-! ## From runs to operations -/

theorem size_ne_zero_of_mem_pieces {cs : List Component} : ∀ p ∈ pieces cs, p.size ≠ 0 := by
  intro p hp
  obtain ⟨c, _, hpc⟩ := List.mem_flatMap.mp hp
  cases c with
  | retain n => simpa using (List.mem_filter.mp hpc).2
  | replace d i => simpa using (List.mem_filter.mp hpc).2

theorem insertedAt_pieces (cs : List Component) : Piece.insertedAt (pieces cs) = insertedAt cs := by
  have hfilter := @Piece.read_filter_append _ Piece.insertedAt
    (fun p ps hp => Piece.insertedAt_cons_empty hp ps) (by
      intro p ps qs hpq
      funext g
      cases p <;> simp only [Piece.insertedAt, hpq])
  induction cs with
  | nil => rfl
  | cons c cs ih =>
    funext g
    cases c with
    | retain n =>
      refine (congrFun (hfilter [.retain n] (pieces cs)) g).trans ?_
      show (if g < n then [] else Piece.insertedAt (pieces cs) (g - n)) = _
      rw [ih]
      rfl
    | replace d i =>
      refine (congrFun (hfilter [.delete d, .insert i] (pieces cs)) g).trans ?_
      show (if g < d.length then [] else (if g - d.length = 0 then i else []) ++
          Piece.insertedAt (pieces cs) (g - d.length)) =
        if g < d.length then [] else
          (if g = d.length then i else []) ++ insertedAt cs (g - d.length)
      rw [ih]
      by_cases hg : g < d.length
      · rw [if_pos hg, if_pos hg]
      · rw [if_neg hg, if_neg hg]
        -- the gap behind the deleted characters is the first gap that the insertion sees
        by_cases hgd : g = d.length
        · rw [if_pos (by omega), if_pos hgd]
        · rw [if_neg (by omega), if_neg hgd]

theorem keepsAt_pieces (cs : List Component) : Piece.keepsAt (pieces cs) = keepsAt cs := by
  have hfilter := @Piece.read_filter_append _ Piece.keepsAt
    (fun p ps hp => Piece.keepsAt_cons_empty hp ps) (by
      intro p ps qs hpq
      funext k
      cases p <;> simp only [Piece.keepsAt, hpq])
  induction cs with
  | nil => rfl
  | cons c cs ih =>
    funext k
    cases c with
    | retain n =>
      refine (congrFun (hfilter [.retain n] (pieces cs)) k).trans ?_
      show (if k < n then true else Piece.keepsAt (pieces cs) (k - n)) = _
      rw [ih]
      rfl
    | replace d i =>
      refine (congrFun (hfilter [.delete d, .insert i] (pieces cs)) k).trans ?_
      show (if k < d.length then false else Piece.keepsAt (pieces cs) (k - d.length)) = _
      rw [ih]
      rfl

/-- A run over a stretch of the text keeps all of it or nothing, and has no say in the rest. -/
theorem Piece.Turns.keepsAt {p : Piece} {u v : Text} (h : p.Turns u v) (hp : ¬ p.isInsert)
    (ps : List Piece) :
    u.length = p.size ∧ v = (if !p.isDelete then u else []) ∧
      (∀ k < u.length, Piece.keepsAt (p :: ps) k = !p.isDelete) ∧
      (fun k => Piece.keepsAt (p :: ps) (k + u.length)) = Piece.keepsAt ps := by
  have hu : u.length = p.size := h.length_before.trans (lenBefore_eq_size hp)
  refine ⟨hu, ?_, ?_, ?_⟩
  · cases p with
    | insert i => exact absurd rfl hp
    | retain n => exact h.2
    | delete d => exact h.2
  · intro k hk
    rw [keepsAt_cons hp, if_pos (by omega)]
  · funext k
    rw [keepsAt_cons hp, hu, if_neg (by omega), Nat.add_sub_cancel]

/-- What runs do to a text on their own is said gap by gap as well. -/
theorem Rewrites.weave_eq {ps : List Piece} {s t : Text} (h : Rewrites ps s t) :
    weave (fun _ => []) (Piece.insertedAt ps) (Piece.keepsAt ps) s = t := by
  induction h with
  | nil => exact weave_nil
  | @cons p ps u v s t hp hps ih =>
    by_cases hpi : p.isInsert
    · cases p with
      | insert i =>
        obtain ⟨rfl, rfl⟩ := hp
        exact (weave_second_zero rfl v s).trans (congrArg (v ++ ·) ih)
      | retain n => cases hpi
      | delete d => cases hpi
    · obtain ⟨hu, hv, hstretch, hkeep⟩ := hp.keepsAt hpi ps
      have hins : ∀ g, Piece.insertedAt (p :: ps) (g + u.length) = Piece.insertedAt ps g := by
        intro g
        rw [Piece.insertedAt_cons hpi, hu, if_neg (by omega), Nat.add_sub_cancel]
      rw [weave_stretch u (fun _ _ => rfl)
        (fun g hg => by rw [Piece.insertedAt_cons hpi, if_pos (by omega)]) hstretch s,
        funext hins, hkeep, ← hv, ih]

namespace Operation

/-- What an operation does to a text, gap by gap. -/
theorem weave_eq_of_apply {op : Operation} {s t : Text} (h : op.apply s = .ok t) :
    weave (fun _ => []) (insertedAt op.components) (keepsAt op.components) s = t := by
  by_cases hop : op.isEmpty
  · rw [apply_of_isEmpty hop] at h
    cases h
    rw [show op.components = [] from List.isEmpty_iff.mp hop]
    have hkeep := @weave_stretch true s (fun _ => []) (fun _ => []) (fun _ => true)
      (fun _ _ => rfl) (fun _ _ => rfl) (fun _ _ => rfl) []
    rw [List.append_nil, weave_nil, List.append_nil] at hkeep
    exact hkeep.trans (List.append_nil s)
  · have hweave := ((apply_eq_ok_iff hop).mp h).weave_eq
    rw [pieces, insertedAt_pieces, keepsAt_pieces] at hweave
    exact hweave

/-- An operation without components has nothing to add to a merge. -/
theorem merge_of_isEmpty_left {a b : Operation} (ha : a.isEmpty) {t r : Text}
    (hb : b.apply t = .ok r) : a.merge b t = r := by
  unfold merge
  rw [show a.components = [] from List.isEmpty_iff.mp ha]
  exact weave_eq_of_apply hb

theorem merge_of_isEmpty_right {a b : Operation} (hb : b.isEmpty) {t r : Text}
    (ha : a.apply t = .ok r) : a.merge b t = r := by
  rw [← weave_eq_of_apply ha]
  unfold merge weave
  rw [show b.components = [] from List.isEmpty_iff.mp hb]
  congr 1
  funext g
  show insertedAt a.components g ++ [] ++
    (if (keepsAt a.components g && true) = true then t[g]?.toList else []) = [] ++ _ ++ _
  rw [Bool.and_true, List.append_nil, List.nil_append]

/-- The merge with the text of one of the operations first, as the side says: on the left mine
comes before theirs. -/
def mergeBy (side : Side) (mine theirs : Operation) (t : Text) : Text :=
  match side with
  | .left => mine.merge theirs t
  | .right => theirs.merge mine t

theorem mergeBy_eq_mergeRuns (side : Side) (mine theirs : Operation) (t : Text) :
    mergeBy side mine theirs t = Piece.mergeRuns side mine.pieces theirs.pieces t := by
  unfold Piece.mergeRuns pieces
  rw [insertedAt_pieces, insertedAt_pieces, keepsAt_pieces, keepsAt_pieces]
  cases side with
  | left => rfl
  | right =>
    show theirs.merge mine t = _
    unfold merge
    simp only [Bool.and_comm]

/-- A transformed operation makes the merge of what the other one made. -/
theorem transform_apply {mine theirs : Operation} {side : Side} {t a b : Text}
    (ha : mine.apply t = .ok a) (hb : theirs.apply t = .ok b)
    (hfit : (mergeBy side mine theirs t).length < Word.bound) :
    ∃ op, mine.transform theirs side = .ok op ∧ op.apply b = .ok (mergeBy side mine theirs t) := by
  unfold transform
  by_cases hm : mine.isEmpty
  · refine ⟨mine, if_pos (Or.inl hm), ?_⟩
    rw [apply_of_isEmpty hm]
    cases side with
    | left => exact congrArg _ (merge_of_isEmpty_left hm hb).symm
    | right => exact congrArg _ (merge_of_isEmpty_right hm hb).symm
  by_cases ht : theirs.isEmpty
  · refine ⟨mine, if_pos (Or.inr ht), ?_⟩
    rw [apply_of_isEmpty ht] at hb
    cases hb
    cases side with
    | left => rw [show mergeBy .left mine theirs t = a from merge_of_isEmpty_right ht ha, ha]
    | right => rw [show mergeBy .right mine theirs t = a from merge_of_isEmpty_left ht ha, ha]
  have hstart : mine.lenBefore = theirs.lenBefore := by
    rw [← length_before_of_apply hm ha, ← length_before_of_apply ht hb]
  rw [if_neg (fun h => h.elim hm ht), if_pos hstart]
  rw [mergeBy_eq_mergeRuns] at hfit ⊢
  refine exists_ofPieces_apply (Rewrites.concurrence size_ne_zero_of_mem_pieces
    size_ne_zero_of_mem_pieces ((apply_eq_ok_iff hm).mp ha) ((apply_eq_ok_iff ht).mp hb)) ?_ hfit
  rw [length_after_of_apply ht hb]
  exact theirs.lenAfter_lt

/-- **Transforming converges on the merge.** Two operations that apply to the same text can be done
in either order, the later one transformed past the earlier one with its side of the tie, and both
ways end with their merge, if its length is a word. -/
theorem transform_converges {a b : Operation} {t ta tb : Text} (ha : a.apply t = .ok ta)
    (hb : b.apply t = .ok tb) (hfit : (a.merge b t).length < Word.bound) :
    ∃ a' b', a.transform b .left = .ok a' ∧ b.transform a .right = .ok b' ∧
      a'.apply tb = .ok (a.merge b t) ∧ b'.apply ta = .ok (a.merge b t) := by
  obtain ⟨a', ha', hab⟩ := @transform_apply a b .left _ _ _ ha hb hfit
  obtain ⟨b', hb', hba⟩ := @transform_apply b a .right _ _ _ hb ha hfit
  exact ⟨a', b', ha', hb', hab, hba⟩

/-- Unmerged replacements, deletions that overlap, and a tie of insertions behind the character
`c`, which only one of the two deletes. -/
theorem transform_converges_overlapping :
    let a : Operation := ⟨[.replace [] ['x'], .replace ['a'] [], .replace ['b'] ['y'], .retain 1,
      .replace [] ['v'], .retain 0, .retain 1], by decide, by decide⟩
    let b : Operation := ⟨[.retain 1, .replace ['b', 'c'] ['w'], .retain 1], by decide, by decide⟩
    let t := ['a', 'b', 'c', 'd']
    a.merge b t = ['x', 'y', 'v', 'w', 'd'] ∧
      ∃ a' b', a.transform b .left = .ok a' ∧ b.transform a .right = .ok b' ∧
        a'.apply ['a', 'w', 'd'] = .ok (a.merge b t) ∧
        b'.apply ['x', 'y', 'c', 'v', 'd'] = .ok (a.merge b t) := by
  intro a b t
  have ha : a.apply t = .ok ['x', 'y', 'c', 'v', 'd'] := rfl
  have hb : b.apply t = .ok ['a', 'w', 'd'] := rfl
  have hmerge : a.merge b t = ['x', 'y', 'v', 'w', 'd'] := by decide
  exact ⟨hmerge, transform_converges ha hb (by rw [hmerge]; decide)⟩

end Operation

end Coedit
