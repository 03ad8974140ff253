import Coedit.Operation.Compose
import Coedit.Proofs.Operation.Effect

/-!
# Composing is applying one after the other

Composition aligns the runs of two operations at the text between them. This file follows that text
through the alignment. The invariant is a pair of facts about what is still to be aligned:

> the runs left of the first operation rewrite some `s` into some `m`, and the runs left of the
> second rewrite that `m` into `t`.

Every cell uses up a stretch of `m` on both sides or of neither, and contributes a run that leads
from the stretch of `s` to the stretch of `t` (`Rewrites.composition`). No run is left over at the
end, because both sides cover `m`.

From there it is a fold: `Operation.foldlM_compose_apply` composes any number of operations. An
intermediate composition may have no components at all. On the text at hand it is then right to do
nothing, so it does no harm that such an operation fits everywhere.
-/

namespace Coedit

namespace Piece

theorem lenAfter_eq_size {p : Piece} (h : ¬ p.isDelete) : p.lenAfter = p.size := by
  cases p with
  | retain n => rfl
  | delete d => exact absurd rfl h
  | insert i => rfl

theorem lenBefore_eq_size {p : Piece} (h : ¬ p.isInsert) : p.lenBefore = p.size := by
  cases p with
  | retain n => rfl
  | delete d => rfl
  | insert i => exact absurd rfl h

@[simp] theorem isDelete_take (k : Nat) (p : Piece) : (p.take k).isDelete = p.isDelete := by
  cases p <;> rfl

@[simp] theorem isInsert_take (k : Nat) (p : Piece) : (p.take k).isInsert = p.isInsert := by
  cases p <;> rfl

end Piece

/-- A run of the first operation over a stretch `w` of the text in between and a run of the second
from there do together what their cell contributes. -/
theorem rewrites_composed_both {p q : Piece} (hp : ¬ p.isDelete) (hq : ¬ q.isInsert)
    {u w v : Text} (hpu : p.Turns u w) (hqw : q.Turns w v) {ps : List Piece} {s t : Text}
    (hps : Rewrites ps s t) : Rewrites ((Cell.both p q).composed ++ ps) (u ++ s) (v ++ t) := by
  cases p with
  | delete d => exact absurd rfl hp
  | retain n =>
    obtain ⟨hn, rfl⟩ := hpu
    cases q with
    | insert i => exact absurd rfl hq
    | retain m =>
      obtain ⟨_, rfl⟩ := hqw
      exact .cons ⟨hn, rfl⟩ hps
    | delete d =>
      obtain ⟨rfl, rfl⟩ := hqw
      exact .cons ⟨rfl, rfl⟩ hps
  | insert i =>
    obtain ⟨rfl, rfl⟩ := hpu
    cases q with
    | insert j => exact absurd rfl hq
    | retain m =>
      obtain ⟨_, rfl⟩ := hqw
      exact .cons ⟨rfl, rfl⟩ hps
    | delete d =>
      -- inserted and deleted again: no run, and nothing on either side
      obtain ⟨_, rfl⟩ := hqw
      exact hps

/-- **The aligned runs lead from the first text to the last.** The induction follows the alignment;
the text `m` in between shrinks with it. -/
theorem Rewrites.composition {ps qs : List Piece} {s m t : Text} (hp : Rewrites ps s m)
    (hq : Rewrites qs m t) :
    Rewrites ((Operation.composition ps qs).flatMap Cell.composed) s t := by
  unfold Operation.composition
  fun_induction align Piece.isDelete Piece.isInsert .left ps qs generalizing s m t with
  | case1 =>
    obtain ⟨rfl, rfl⟩ := rewrites_nil.mp hp
    exact hq
  | case2 p ps ih =>
    obtain ⟨rfl, rfl⟩ := rewrites_nil.mp hq
    obtain ⟨u, v, s', m', rfl, hm, hpu, hps⟩ := rewrites_cons.mp hp
    -- nothing is left of the text in between, so this run and those behind it leave none of it
    obtain ⟨rfl, rfl⟩ := List.append_eq_nil_iff.mp hm.symm
    have hcell : (if p.isDelete then Cell.left p else .strayLeft p).composed = [p] := by
      split <;> rfl
    rw [List.flatMap_cons, hcell]
    exact .cons hpu (ih hps .nil)
  | case3 q qs ih =>
    obtain ⟨rfl, rfl⟩ := rewrites_nil.mp hp
    obtain ⟨u, v, m', t', hm, rfl, hqv, hqs⟩ := rewrites_cons.mp hq
    obtain ⟨rfl, rfl⟩ := List.append_eq_nil_iff.mp hm.symm
    have hcell : (if q.isInsert then Cell.right q else .strayRight q).composed = [q] := by
      split <;> rfl
    rw [List.flatMap_cons, hcell]
    exact .cons hqv (ih .nil hqs)
  | case4 p ps q qs hfree ih =>
    cases p with
    | delete d =>
      obtain ⟨s', rfl, hps⟩ := rewrites_delete.mp hp
      exact rewrites_delete.mpr ⟨s', rfl, ih hps hq⟩
    | retain n => exact absurd hfree.1 Bool.false_ne_true
    | insert i => exact absurd hfree.1 Bool.false_ne_true
  | case5 p ps q qs _ hfree ih =>
    cases q with
    | insert i =>
      obtain ⟨t', rfl, hqs⟩ := rewrites_insert.mp hq
      exact rewrites_insert.mpr ⟨t', rfl, ih hp hqs⟩
    | retain n => exact absurd hfree Bool.false_ne_true
    | delete d => exact absurd hfree Bool.false_ne_true
  | case6 p ps q qs hleft hright ih =>
    have hpd : ¬ (p.take q.size).isDelete := by
      rw [Piece.isDelete_take]
      intro hd
      exact hleft ⟨hd, Or.inl rfl⟩
    have hqi : ¬ (q.take p.size).isInsert := by
      rw [Piece.isInsert_take]
      exact hright
    obtain ⟨u, w, s', m', rfl, rfl, hpu, hps⟩ := rewrites_cons.mp (hp.cut q.size)
    obtain ⟨w', v, m'', t', hm, rfl, hqw, hqs⟩ := rewrites_cons.mp (hq.cut p.size)
    -- both cut runs cover as many characters of the text in between
    have hlen : w.length = w'.length := by
      rw [hpu.length_after, hqw.length_before, Piece.lenAfter_eq_size hpd,
        Piece.lenBefore_eq_size hqi, Piece.size_take, Piece.size_take, Nat.min_comm]
    obtain ⟨rfl, rfl⟩ := List.append_inj hm hlen
    rw [List.flatMap_cons]
    exact rewrites_composed_both hpd hqi hpu hqw (ih hps hqs)

namespace Operation

/-- Two operations that apply one after the other compose, and the composition does the same at
once. -/
theorem compose_apply {a b : Operation} {s m t : Text} (ha : a.apply s = .ok m)
    (hb : b.apply m = .ok t) : ∃ c, a.compose b = .ok c ∧ c.apply s = .ok t := by
  unfold compose
  by_cases hae : a.isEmpty
  · rw [apply_of_isEmpty hae] at ha
    cases ha
    exact ⟨b, if_pos hae, hb⟩
  rw [if_neg hae]
  by_cases hbe : b.isEmpty
  · rw [apply_of_isEmpty hbe] at hb
    cases hb
    exact ⟨a, if_pos hbe, ha⟩
  rw [if_neg hbe]
  have hmeet : a.lenAfter = b.lenBefore := by
    rw [← length_after_of_apply hae ha, ← length_before_of_apply hbe hb]
  rw [if_pos hmeet]
  refine exists_ofPieces_apply
    (((apply_eq_ok_iff hae).mp ha).composition ((apply_eq_ok_iff hbe).mp hb)) ?_ ?_
  · rw [length_before_of_apply hae ha]
    exact a.lenBefore_lt
  · rw [length_after_of_apply hbe hb]
    exact b.lenAfter_lt

/-- The text after operations applied one after the other, each to what the one before it made. -/
def applyAll (ops : List Operation) (text : Text) : Except Fault Text :=
  ops.foldlM (fun s op => op.apply s) text

theorem applyAll_cons (op : Operation) (ops : List Operation) (s : Text) :
    applyAll (op :: ops) s = (op.apply s >>= applyAll ops) := by
  rw [applyAll, List.foldlM_cons]
  rfl

/-- Composing further operations onto one that leads from `s` to `m` leads to wherever they lead
from `m`. -/
theorem foldlM_compose_apply {ops : List Operation} {acc : Operation} {s m t : Text}
    (hacc : acc.apply s = .ok m) (hops : applyAll ops m = .ok t) :
    ∃ c, ops.foldlM compose acc = .ok c ∧ c.apply s = .ok t := by
  induction ops generalizing acc m with
  | nil =>
    cases hops
    exact ⟨acc, rfl, hacc⟩
  | cons op ops ih =>
    rw [applyAll_cons] at hops
    obtain ⟨m', hop, hops⟩ := bind_eq_ok.mp hops
    obtain ⟨c, hc, hcs⟩ := compose_apply hacc hop
    obtain ⟨d, hd, hds⟩ := ih hcs hops
    refine ⟨d, ?_, hds⟩
    rw [List.foldlM_cons]
    exact bind_eq_ok.mpr ⟨c, hc, hd⟩

/-- **Composition is sequential application.** Operations that apply one after the other to a text,
any number of them and empty ones anywhere, have a composition, and it makes of that text what they
make of it together. -/
theorem compose_sequential (t : Text) :
    (∀ (ops : List Operation) (r : Text), applyAll ops t = .ok r →
      ∃ c, composeAll ops = .ok c ∧ c.apply t = .ok r) ∧
    ∀ (a b : Operation) (r : Text), (a.apply t >>= b.apply) = .ok r →
      ∃ c, a.compose b = .ok c ∧ c.apply t = (a.apply t >>= b.apply) := by
  constructor
  · intro ops r hops
    exact foldlM_compose_apply (apply_empty t) hops
  · intro a b r hab
    obtain ⟨m, ha, hb⟩ := bind_eq_ok.mp hab
    rw [hab]
    exact compose_apply ha hb

/-- Unmerged insertions, an empty operation, and a deletion that takes back a part of what was
inserted. -/
theorem compose_sequential_partly_undone :
    let typed : Operation := ⟨[.retain 1, .replace [] ['x'], .replace [] ['y'], .retain 0,
      .retain 1], by decide, by decide⟩
    let cleared : Operation := ⟨[.replace ['a'] [], .retain 1, .replace ['y', 'b'] ['z']],
      by decide, by decide⟩
    applyAll [typed, .empty, cleared] ['a', 'b'] = .ok ['x', 'z'] ∧
      (∃ c, composeAll [typed, .empty, cleared] = .ok c ∧ c.apply ['a', 'b'] = .ok ['x', 'z']) ∧
      ∃ c, typed.compose cleared = .ok c ∧
        c.apply ['a', 'b'] = (typed.apply ['a', 'b'] >>= cleared.apply) := by
  intro typed cleared
  have hall : applyAll [typed, .empty, cleared] ['a', 'b'] = .ok ['x', 'z'] := rfl
  have htwo : (typed.apply ['a', 'b'] >>= cleared.apply) = .ok ['x', 'z'] := rfl
  exact ⟨hall, (compose_sequential ['a', 'b']).1 _ _ hall,
    (compose_sequential ['a', 'b']).2 _ _ _ htwo⟩

end Operation

end Coedit
