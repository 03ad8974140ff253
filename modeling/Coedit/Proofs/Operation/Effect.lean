import Coedit.Operation.Alignment
import Coedit.Operation.Apply
import Coedit.Proofs.Outcome

/-!
# What runs do to a text

An operation is applied component by component, but composing and transforming work on runs. This
file says what runs do to a text, without a walk over it:

> `Rewrites ps s t`: the runs `ps`, one after the other, use up `s` and leave `t`.

Cutting a component into runs, dropping empty runs, merging neighbours and cutting a run in two
all keep this relation (`rewrites_gather`, `Rewrites.cut`), and for the runs of an operation it is
application:

> `Operation.apply_eq_ok_iff`: `op.apply s = .ok t ↔ Rewrites op.pieces s t`, unless `op` is empty.

So whatever is shown to rewrite `s` into `t` can be gathered into an operation that does
(`Operation.exists_ofPieces_apply`).
-/

namespace Coedit

namespace Piece

/-- The run turns the stretch `u` of a text into `v`. -/
def Turns : Piece → (u v : Text) → Prop
  | retain n, u, v => u.length = n ∧ v = u
  | delete t, u, v => u = t ∧ v = []
  | insert t, u, v => u = [] ∧ v = t

theorem Turns.length_before {p : Piece} {u v : Text} (h : p.Turns u v) :
    u.length = p.lenBefore := by
  cases p with
  | retain n => exact h.1
  | delete d => rw [h.1]; rfl
  | insert i => rw [h.1]; rfl

theorem Turns.length_after {p : Piece} {u v : Text} (h : p.Turns u v) :
    v.length = p.lenAfter := by
  cases p with
  | retain n => rw [h.2]; exact h.1
  | delete d => rw [h.2]; rfl
  | insert i => rw [h.2]; rfl

/-- A run without characters turns nothing into nothing. -/
theorem turns_iff_of_size_eq_zero {p : Piece} (hp : p.size = 0) (u v : Text) :
    p.Turns u v ↔ u = [] ∧ v = [] := by
  cases p with
  | retain n =>
    have hn : n = 0 := hp
    subst hn
    constructor
    · intro h
      have hu := List.length_eq_zero_iff.mp h.1
      exact ⟨hu, h.2.trans hu⟩
    · intro h
      exact ⟨by rw [h.1]; rfl, by rw [h.1, h.2]⟩
  | delete d => rw [List.length_eq_zero_iff.mp hp]; exact Iff.rfl
  | insert i => rw [List.length_eq_zero_iff.mp hp]; exact Iff.rfl

/-- A run can be cut in two: its first `k` characters turn one part of the stretch, the others the
rest. -/
theorem Turns.cut {p : Piece} {u v : Text} (h : p.Turns u v) (k : Nat) :
    ∃ u₁ u₂ v₁ v₂, u = u₁ ++ u₂ ∧ v = v₁ ++ v₂ ∧
      (p.take k).Turns u₁ v₁ ∧ (p.drop k).Turns u₂ v₂ := by
  cases p with
  | retain n =>
    obtain ⟨hn, rfl⟩ := h
    refine ⟨v.take k, v.drop k, v.take k, v.drop k, (List.take_append_drop k v).symm,
      (List.take_append_drop k v).symm, ⟨?_, rfl⟩, ⟨?_, rfl⟩⟩
    · rw [List.length_take, hn]
    · rw [List.length_drop, hn]
  | delete d =>
    obtain ⟨rfl, rfl⟩ := h
    exact ⟨u.take k, u.drop k, [], [], (List.take_append_drop k u).symm, rfl, ⟨rfl, rfl⟩,
      ⟨rfl, rfl⟩⟩
  | insert i =>
    obtain ⟨rfl, rfl⟩ := h
    exact ⟨[], [], v.take k, v.drop k, rfl, (List.take_append_drop k v).symm, ⟨rfl, rfl⟩,
      ⟨rfl, rfl⟩⟩

end Piece

/-- The runs, one after the other, use up the text `s` and leave the text `t`. -/
inductive Rewrites : List Piece → Text → Text → Prop
  | nil : Rewrites [] [] []
  | cons {p : Piece} {ps : List Piece} {u v s t : Text} :
    p.Turns u v → Rewrites ps s t → Rewrites (p :: ps) (u ++ s) (v ++ t)

/-! ## One run at a time -/

theorem rewrites_nil {s t : Text} : Rewrites [] s t ↔ s = [] ∧ t = [] := by
  constructor
  · intro h
    cases h
    exact ⟨rfl, rfl⟩
  · intro h
    obtain ⟨rfl, rfl⟩ := h
    exact .nil

theorem rewrites_cons {p : Piece} {ps : List Piece} {s t : Text} :
    Rewrites (p :: ps) s t ↔
      ∃ u v s' t', s = u ++ s' ∧ t = v ++ t' ∧ p.Turns u v ∧ Rewrites ps s' t' := by
  constructor
  · intro h
    cases h with
    | @cons _ _ u v s' t' hp hps => exact ⟨u, v, s', t', rfl, rfl, hp, hps⟩
  · intro h
    obtain ⟨u, v, s', t', rfl, rfl, hp, hps⟩ := h
    exact .cons hp hps

theorem rewrites_retain {n : Nat} {ps : List Piece} {s t : Text} :
    Rewrites (.retain n :: ps) s t ↔
      ∃ u s' t', u.length = n ∧ s = u ++ s' ∧ t = u ++ t' ∧ Rewrites ps s' t' := by
  rw [rewrites_cons]
  constructor
  · intro h
    obtain ⟨u, v, s', t', hs, ht, ⟨hu, rfl⟩, hps⟩ := h
    exact ⟨v, s', t', hu, hs, ht, hps⟩
  · intro h
    obtain ⟨u, s', t', hu, hs, ht, hps⟩ := h
    exact ⟨u, u, s', t', hs, ht, ⟨hu, rfl⟩, hps⟩

theorem rewrites_delete {d : Text} {ps : List Piece} {s t : Text} :
    Rewrites (.delete d :: ps) s t ↔ ∃ s', s = d ++ s' ∧ Rewrites ps s' t := by
  rw [rewrites_cons]
  constructor
  · intro h
    obtain ⟨u, v, s', t', hs, ht, ⟨rfl, rfl⟩, hps⟩ := h
    subst ht
    exact ⟨s', hs, hps⟩
  · intro h
    obtain ⟨s', hs, hps⟩ := h
    exact ⟨d, [], s', t, hs, rfl, ⟨rfl, rfl⟩, hps⟩

theorem rewrites_insert {i : Text} {ps : List Piece} {s t : Text} :
    Rewrites (.insert i :: ps) s t ↔ ∃ t', t = i ++ t' ∧ Rewrites ps s t' := by
  rw [rewrites_cons]
  constructor
  · intro h
    obtain ⟨u, v, s', t', hs, ht, ⟨rfl, rfl⟩, hps⟩ := h
    subst hs
    exact ⟨t', ht, hps⟩
  · intro h
    obtain ⟨t', ht, hps⟩ := h
    exact ⟨[], i, s, t', rfl, ht, ⟨rfl, rfl⟩, hps⟩

theorem Rewrites.length_before {ps : List Piece} {s t : Text} (h : Rewrites ps s t) :
    s.length = total Piece.lenBefore ps := by
  induction h with
  | nil => rfl
  | cons hp _ ih => rw [List.length_append, hp.length_before, ih, total_cons]

theorem Rewrites.length_after {ps : List Piece} {s t : Text} (h : Rewrites ps s t) :
    t.length = total Piece.lenAfter ps := by
  induction h with
  | nil => rfl
  | cons hp _ ih => rw [List.length_append, hp.length_after, ih, total_cons]

/-! ## Empty runs and cut runs -/

theorem rewrites_cons_empty {p : Piece} (hp : p.size = 0) {ps : List Piece} {s t : Text} :
    Rewrites (p :: ps) s t ↔ Rewrites ps s t := by
  rw [rewrites_cons]
  constructor
  · intro h
    obtain ⟨u, v, s', t', rfl, rfl, huv, hps⟩ := h
    obtain ⟨rfl, rfl⟩ := (Piece.turns_iff_of_size_eq_zero hp u v).mp huv
    exact hps
  · intro hps
    exact ⟨[], [], s, t, rfl, rfl, (Piece.turns_iff_of_size_eq_zero hp [] []).mpr ⟨rfl, rfl⟩, hps⟩

/-- Whatever ignores an empty run in front, and depends on the runs behind the first one only
through itself, ignores empty runs anywhere. -/
theorem Piece.read_filter_append {β : Type} {f : List Piece → β}
    (hempty : ∀ (p : Piece) (ps : List Piece), p.size = 0 → f (p :: ps) = f ps)
    (hcons : ∀ (p : Piece) (ps qs : List Piece), f ps = f qs → f (p :: ps) = f (p :: qs))
    (ps qs : List Piece) : f (ps.filter (fun p => p.size != 0) ++ qs) = f (ps ++ qs) := by
  induction ps with
  | nil => rfl
  | cons p ps ih =>
    by_cases hp : p.size = 0
    · -- dropped on the left, and without effect on the right
      rw [List.filter_cons_of_neg (by simpa using hp), List.cons_append, hempty p _ hp]
      exact ih
    · rw [List.filter_cons_of_pos (by simpa using hp), List.cons_append, List.cons_append]
      exact hcons p _ _ ih

theorem rewrites_filter_append (ps qs : List Piece) {s t : Text} :
    Rewrites (ps.filter (fun p => p.size != 0) ++ qs) s t ↔ Rewrites (ps ++ qs) s t := by
  have h : Rewrites (ps.filter (fun p => p.size != 0) ++ qs) = Rewrites (ps ++ qs) := by
    refine Piece.read_filter_append ?_ ?_ ps qs
    · intro p ps hp
      funext s t
      exact propext (rewrites_cons_empty hp)
    · intro p ps qs hpq
      funext s t
      rw [eq_iff_iff, rewrites_cons, rewrites_cons, hpq]
  rw [h]

/-- The first run may be cut anywhere: what it does before the cut comes first, and `resume` puts
back the rest of it. -/
theorem Rewrites.cut {p : Piece} {ps : List Piece} {s t : Text} (h : Rewrites (p :: ps) s t)
    (k : Nat) : Rewrites (p.take k :: p.resume k ps) s t := by
  obtain ⟨u, v, s', t', rfl, rfl, hp, hps⟩ := rewrites_cons.mp h
  obtain ⟨u₁, u₂, v₁, v₂, rfl, rfl, htake, hdrop⟩ := hp.cut k
  rw [List.append_assoc, List.append_assoc]
  refine .cons htake ?_
  have hrest : Rewrites (p.drop k :: ps) (u₂ ++ s') (v₂ ++ t') := .cons hdrop hps
  unfold Piece.resume
  split
  · next hk => exact (rewrites_cons_empty (by rw [Piece.size_drop]; omega)).mp hrest
  · exact hrest

/-! ## Components and their runs -/

theorem rewrites_pieces_retain (n : Nat) (cs : List Component) {s t : Text} :
    Rewrites (pieces (.retain n :: cs)) s t ↔ Rewrites (.retain n :: pieces cs) s t :=
  rewrites_filter_append [.retain n] (pieces cs)

theorem rewrites_pieces_replace (d i : Text) (cs : List Component) {s t : Text} :
    Rewrites (pieces (.replace d i :: cs)) s t ↔
      ∃ s' t', s = d ++ s' ∧ t = i ++ t' ∧ Rewrites (pieces cs) s' t' := by
  refine (rewrites_filter_append [.delete d, .insert i] (pieces cs)).trans ?_
  rw [List.cons_append, List.singleton_append, rewrites_delete]
  simp only [rewrites_insert]
  constructor
  · intro h
    obtain ⟨s', hs, t', ht, hcs⟩ := h
    exact ⟨s', t', hs, ht, hcs⟩
  · intro h
    obtain ⟨s', t', hs, ht, hcs⟩ := h
    exact ⟨s', hs, t', ht, hcs⟩

/-- Keeping `n` and then `m` characters is keeping `n + m`. -/
theorem rewrites_retain_add (n m : Nat) (ps : List Piece) {s t : Text} :
    Rewrites (.retain (n + m) :: ps) s t ↔ Rewrites (.retain n :: .retain m :: ps) s t := by
  constructor
  · intro h
    obtain ⟨u, s', t', hu, rfl, rfl, hps⟩ := rewrites_retain.mp h
    refine rewrites_retain.mpr ⟨u.take n, u.drop n ++ s', u.drop n ++ t', ?_, ?_, ?_, ?_⟩
    · rw [List.length_take]; omega
    · rw [← List.append_assoc, List.take_append_drop]
    · rw [← List.append_assoc, List.take_append_drop]
    · exact rewrites_retain.mpr ⟨u.drop n, s', t', by rw [List.length_drop]; omega, rfl, rfl, hps⟩
  · intro h
    obtain ⟨u, s', t', hu, rfl, rfl, hrest⟩ := rewrites_retain.mp h
    obtain ⟨w, s'', t'', hw, rfl, rfl, hps⟩ := rewrites_retain.mp hrest
    refine rewrites_retain.mpr ⟨u ++ w, s'', t'', ?_, ?_, ?_, hps⟩
    · rw [List.length_append, hu, hw]
    · rw [List.append_assoc]
    · rw [List.append_assoc]

/-- Putting a run in front of components, merged or not, makes it the first to act. An insertion
goes into a replacement behind the deletion, which does not matter: the one only adds to the new
text, the other only uses up the old. -/
theorem rewrites_onto (p : Piece) (cs : List Component) {s t : Text} :
    Rewrites (pieces (p.onto cs)) s t ↔ Rewrites (p :: pieces cs) s t := by
  unfold Piece.onto
  split
  · next hp => exact (rewrites_cons_empty hp).symm
  · next hp =>
    split
    · next n m rest =>
      rw [rewrites_pieces_retain, rewrites_retain_add, rewrites_retain, rewrites_retain]
      simp only [rewrites_pieces_retain]
    · next n _ => exact rewrites_pieces_retain n cs
    · next d' d i rest =>
      rw [rewrites_pieces_replace, rewrites_delete]
      simp only [rewrites_pieces_replace]
      constructor
      · intro h
        obtain ⟨s', t', rfl, rfl, hrest⟩ := h
        exact ⟨d ++ s', List.append_assoc .., s', t', rfl, rfl, hrest⟩
      · intro h
        obtain ⟨s₁, rfl, s', t', rfl, rfl, hrest⟩ := h
        exact ⟨s', t', (List.append_assoc ..).symm, rfl, hrest⟩
    · next d _ =>
      rw [rewrites_pieces_replace, rewrites_delete]
      constructor
      · intro h
        obtain ⟨s', t', rfl, rfl, hcs⟩ := h
        exact ⟨s', rfl, hcs⟩
      · intro h
        obtain ⟨s', rfl, hcs⟩ := h
        exact ⟨s', t, rfl, rfl, hcs⟩
    · next i' d i rest =>
      rw [rewrites_pieces_replace, rewrites_insert]
      simp only [rewrites_pieces_replace]
      constructor
      · intro h
        obtain ⟨s', t', rfl, rfl, hrest⟩ := h
        exact ⟨i ++ t', List.append_assoc .., s', t', rfl, rfl, hrest⟩
      · intro h
        obtain ⟨t₁, rfl, s', t', rfl, rfl, hrest⟩ := h
        exact ⟨s', t', rfl, (List.append_assoc ..).symm, hrest⟩
    · next i _ =>
      rw [rewrites_pieces_replace, rewrites_insert]
      constructor
      · intro h
        obtain ⟨s', t', rfl, rfl, hcs⟩ := h
        exact ⟨t', rfl, hcs⟩
      · intro h
        obtain ⟨t', rfl, hcs⟩ := h
        exact ⟨s, t', rfl, rfl, hcs⟩

/-- Gathering runs into components keeps what they do. -/
theorem rewrites_gather (ps : List Piece) {s t : Text} :
    Rewrites (pieces (gather ps)) s t ↔ Rewrites ps s t := by
  induction ps generalizing s t with
  | nil => exact Iff.rfl
  | cons p ps ih =>
    rw [gather_cons, rewrites_onto, rewrites_cons, rewrites_cons]
    simp only [ih]

/-- The inverse components take the new text back to the old one. -/
theorem Rewrites.inverse {cs : List Component} {s t : Text} (h : Rewrites (pieces cs) s t) :
    Rewrites (pieces (cs.map Component.inverse)) t s := by
  induction cs generalizing s t with
  | nil =>
    obtain ⟨rfl, rfl⟩ := rewrites_nil.mp h
    exact .nil
  | cons c cs ih =>
    rw [List.map_cons]
    cases c with
    | retain n =>
      obtain ⟨u, s', t', hu, rfl, rfl, hcs⟩ :=
        rewrites_retain.mp ((rewrites_pieces_retain n cs).mp h)
      exact (rewrites_pieces_retain n _).mpr (rewrites_retain.mpr ⟨u, t', s', hu, rfl, rfl, ih hcs⟩)
    | replace d i =>
      obtain ⟨s', t', rfl, rfl, hcs⟩ := (rewrites_pieces_replace d i cs).mp h
      exact (rewrites_pieces_replace i d _).mpr ⟨t', s', rfl, rfl, ih hcs⟩

/-! ## Application -/

/-- Running components over a text of the right length is what their runs do to it. The walk skips
the comparison where the text is too short, so the length is part of the statement. -/
theorem rewrites_pieces_iff_run (offset : Nat) (cs : List Component) {s t : Text} :
    Rewrites (pieces cs) s t ↔ s.length = inputLength cs ∧ runComponents offset cs s = .ok t := by
  induction cs generalizing offset s t with
  | nil =>
    rw [show pieces [] = [] from rfl, rewrites_nil, inputLength_nil, List.length_eq_zero_iff,
      runComponents]
    constructor
    · intro h
      obtain ⟨rfl, rfl⟩ := h
      exact ⟨rfl, rfl⟩
    · intro h
      obtain ⟨rfl, ht⟩ := h
      injection ht with ht
      exact ⟨rfl, ht.symm⟩
  | cons c cs ih =>
    cases c with
    | retain n =>
      rw [rewrites_pieces_retain, rewrites_retain, inputLength_cons]
      show _ ↔ s.length = n + inputLength cs ∧
        (runComponents (offset + (s.take n).length) cs (s.drop n) >>= fun out =>
          .ok (s.take n ++ out)) = .ok t
      rw [bind_eq_ok]
      constructor
      · intro h
        obtain ⟨u, s', t', rfl, rfl, rfl, hcs⟩ := h
        rw [List.length_append, List.take_left, List.drop_left]
        obtain ⟨hlen, hrun⟩ := (ih (offset + u.length)).mp hcs
        exact ⟨by rw [hlen], t', hrun, rfl⟩
      · intro h
        obtain ⟨hlen, out, hrun, hout⟩ := h
        injection hout with hout
        have hcs := (ih _).mpr ⟨by rw [List.length_drop]; omega, hrun⟩
        exact ⟨s.take n, s.drop n, out, by rw [List.length_take]; omega,
          (List.take_append_drop n s).symm, hout.symm, hcs⟩
    | replace d i =>
      rw [rewrites_pieces_replace, inputLength_cons]
      show _ ↔ s.length = d.length + inputLength cs ∧
        (if (s.take d.length).length < d.length ∨ s.take d.length = d then
          runComponents (offset + (s.take d.length).length) cs (s.drop d.length) >>= fun out =>
            .ok (i ++ out)
        else .error (.deletedTextDiffers d offset (s.take d.length))) = .ok t
      constructor
      · intro h
        obtain ⟨s', t', rfl, rfl, hcs⟩ := h
        rw [List.length_append, List.take_left, List.drop_left, if_pos (Or.inr rfl), bind_eq_ok]
        obtain ⟨hlen, hrun⟩ := (ih (offset + d.length)).mp hcs
        exact ⟨by rw [hlen], t', hrun, rfl⟩
      · intro h
        obtain ⟨hlen, hrun⟩ := h
        -- the text is long enough, so the comparison was made
        have htake : (s.take d.length).length = d.length := by rw [List.length_take]; omega
        split at hrun
        · next hfound =>
          have hd : s.take d.length = d := hfound.resolve_left (by omega)
          obtain ⟨out, hrun, hout⟩ := bind_eq_ok.mp hrun
          injection hout with hout
          have hcs := (ih _).mpr ⟨by rw [List.length_drop]; omega, hrun⟩
          refine ⟨s.drop d.length, out, ?_, hout.symm, hcs⟩
          exact (List.take_append_drop d.length s).symm.trans (congrArg (· ++ _) hd)
        · cases hrun

namespace Operation

/-- An operation without components leaves every text alone. -/
theorem apply_of_isEmpty {op : Operation} (h : op.isEmpty) (s : Text) : op.apply s = .ok s := by
  rw [apply, if_pos h]

theorem apply_empty (s : Text) : empty.apply s = .ok s := rfl

/-- An operation with components turns `s` into `t` exactly if its runs do. -/
theorem apply_eq_ok_iff {op : Operation} (h : ¬ op.isEmpty) {s t : Text} :
    op.apply s = .ok t ↔ Rewrites op.pieces s t := by
  rw [pieces, rewrites_pieces_iff_run 0, apply, if_neg h, bind_eq_ok]
  constructor
  · intro h
    obtain ⟨out, hrun, hout⟩ := h
    split at hout
    · next hlen =>
      cases hout
      exact ⟨hlen, hrun⟩
    · cases hout
  · intro h
    obtain ⟨hlen, hrun⟩ := h
    exact ⟨t, hrun, if_pos hlen⟩

/-- Whatever the runs of an operation do, the operation does, also if there are no runs. -/
theorem apply_of_rewrites {op : Operation} {s t : Text} (h : Rewrites op.pieces s t) :
    op.apply s = .ok t := by
  by_cases hop : op.isEmpty
  · have hnil : op.components = [] := List.isEmpty_iff.mp hop
    rw [pieces, hnil] at h
    obtain ⟨rfl, rfl⟩ := rewrites_nil.mp h
    exact apply_of_isEmpty hop []
  · exact (apply_eq_ok_iff hop).mpr h

theorem length_before_of_apply {op : Operation} (h : ¬ op.isEmpty) {s t : Text}
    (hop : op.apply s = .ok t) : s.length = op.lenBefore := by
  rw [((apply_eq_ok_iff h).mp hop).length_before, pieces, total_lenBefore_pieces, lenBefore]

theorem length_after_of_apply {op : Operation} (h : ¬ op.isEmpty) {s t : Text}
    (hop : op.apply s = .ok t) : t.length = op.lenAfter := by
  rw [((apply_eq_ok_iff h).mp hop).length_after, pieces, total_lenAfter_pieces, lenAfter]

/-- An operation weighs no more than the longer of the two texts it leads between. -/
theorem size_le_of_apply {op : Operation} {s t : Text} (h : op.apply s = .ok t) :
    op.size ≤ max s.length t.length := by
  by_cases hop : op.isEmpty
  · have hnil : op.components = [] := List.isEmpty_iff.mp hop
    rw [size, lenBefore, lenAfter, hnil]
    exact Nat.zero_le _
  · have hsize : op.size = max s.length t.length := by
      rw [size, length_before_of_apply hop h, length_after_of_apply hop h]
    exact Nat.le_of_eq hsize

/-- Runs that turn one text of a 64-bit length into another amount to an operation that does. -/
theorem exists_ofPieces_apply {ps : List Piece} {s t : Text} (h : Rewrites ps s t)
    (hs : s.length < Word.bound) (ht : t.length < Word.bound) :
    ∃ op, ofPieces ps = .ok op ∧ op.apply s = .ok t := by
  have hfit : inputLength (gather ps) < Word.bound ∧ outputLength (gather ps) < Word.bound := by
    rw [inputLength_gather, outputLength_gather, ← h.length_before, ← h.length_after]
    exact ⟨hs, ht⟩
  refine ⟨⟨gather ps, hfit.1, hfit.2⟩, ?_, ?_⟩
  · rw [ofPieces, ofComponents, dif_pos hfit]
  · exact apply_of_rewrites ((rewrites_gather ps).mpr h)

/-- The inverse of an operation undoes it on every text that it applies to. -/
theorem apply_inverse {op : Operation} {s t : Text} (h : op.apply s = .ok t) :
    op.inverse.apply t = .ok s := by
  by_cases hop : op.isEmpty
  · have hinv : op.inverse.isEmpty := by
      have hnil : op.components = [] := List.isEmpty_iff.mp hop
      show (op.components.map Component.inverse).isEmpty = true
      rw [hnil]
      rfl
    rw [apply_of_isEmpty hop] at h
    injection h with h
    rw [apply_of_isEmpty hinv, h]
  · exact apply_of_rewrites ((apply_eq_ok_iff hop).mp h).inverse

/-- An operation leads to a text from one text only. -/
theorem apply_inj {op : Operation} {s s' t : Text} (h : op.apply s = .ok t)
    (h' : op.apply s' = .ok t) : s = s' := by
  have hback := apply_inverse h
  rw [apply_inverse h'] at hback
  injection hback with hback
  exact hback.symm

end Operation

end Coedit
