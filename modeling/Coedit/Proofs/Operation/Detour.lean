import Coedit.Proofs.Operation.NormalForm
import Coedit.Proofs.Operation.Splicing

/-!
# By a detour or directly

An operation can be transformed past two changes one after the other, or past one change that does
what the two do. Nothing says that it makes the same text of both: where the one change has lost
what the two knew of the text in between, it lands elsewhere. This file says when it does not.

> `HarmlessDetour.same_text`: if mine comes to a text by a harmless detour, it makes of it what it
> makes of it when it comes directly.

A detour is harmless (`Operation.HarmlessDetour`) if the texts can be traced back well enough. The
characters that mine deletes have to be the same ones by either way. Where mine inserts, the same
characters have to stand in front by either way, what was written in front in between has to stay in
front, and nothing may be written later in a stretch over which my text has slid. Each condition is
about one change of places: `Operation.transform_places` says where my text goes, and
`lt_newGap_iff` what stands in front of it there.
-/

namespace Coedit

/-- Lists that go along with the same two lists step by step go along with each other. -/
theorem forall₂_along {α β γ δ : Type} {A : α → β → Prop} {B : β → γ → Prop} {C : α → δ → Prop}
    {D : γ → δ → Prop} {xs : List α} {ys : List β} {zs : List γ} {ws : List δ}
    (hxy : List.Forall₂ A xs ys) (hyz : List.Forall₂ B ys zs) (hxw : List.Forall₂ C xs ws)
    (h : ∀ x y z w, x ∈ xs → A x y → B y z → C x w → D z w) : List.Forall₂ D zs ws := by
  induction hxy generalizing zs ws with
  | nil =>
    cases hyz
    cases hxw
    exact .nil
  | @cons x y xs ys hA _ ih =>
    obtain ⟨z, zs, hB, hzs, rfl⟩ := List.forall₂_cons_left_iff.mp hyz
    obtain ⟨w, ws, hC, hws, rfl⟩ := List.forall₂_cons_left_iff.mp hxw
    exact .cons (h x y z w (List.mem_cons_self ..) hA hB hC)
      (ih hzs hws fun x y z w hx => h x y z w (List.mem_cons_of_mem _ hx))

/-! ## What stands in front of a gap -/

/-- Components that are merged insert only in front of a character that they keep, or at the end. -/
theorem Merged.keepsAt_of_insertedAt {cs : List Component} (h : Merged cs) {k : Nat}
    (hk : insertedAt cs k ≠ []) : keepsAt cs k := by
  induction cs generalizing k with
  | nil => rfl
  | cons c cs ih =>
    obtain ⟨hc, hnext, hcs⟩ := merged_cons.mp h
    cases c with
    | retain n => grind [insertedAt, keepsAt]
    | replace d i =>
      have hzero : keepsAt cs 0 := by
        cases cs with
        | nil => rfl
        | cons c' cs =>
          cases c' with
          | retain n => exact if_pos (hcs.hasCharacters _ (List.mem_cons_self ..))
          | replace d' i' => exact absurd rfl (hnext (.replace d' i') rfl)
      grind [insertedAt, keepsAt]

/-- The character at `q`, or one behind it, comes from in front of the gap `g`. -/
def InFront (trace : Nat → Option Nat) (g q : Nat) : Prop :=
  ∃ q' p, q ≤ q' ∧ trace q' = some p ∧ p < g

theorem InFront.mono {trace : Nat → Option Nat} {g q q' : Nat} (h : InFront trace g q')
    (hle : q ≤ q') : InFront trace g q := by
  obtain ⟨q'', p, hle', htrace, hp⟩ := h
  exact ⟨q'', p, Nat.le_trans hle hle', htrace, hp⟩

namespace Operation

/-- Whatever the operation inserts stands in front of a character that it keeps, or at the end. -/
def Settled (op : Operation) : Prop :=
  ∀ k, insertedAt op.components k ≠ [] → keepsAt op.components k

theorem settled_normalize (op : Operation) : op.normalize.Settled := by
  intro k hk
  by_cases h : (trimComponents op.components).all Component.isRetain
  · rw [normalize_of_all_isRetain h] at hk
    exact absurd rfl hk
  · rw [components_normalize h] at hk ⊢
    exact (normalForm_trimComponents h).toMerged.keepsAt_of_insertedAt hk

theorem insertedAt_runs (op : Operation) :
    Piece.insertedAt op.pieces = insertedAt op.components := insertedAt_pieces op.components

theorem insertedAt_ne_nil_of_mem_entered {op : Operation} {x : Nat × Char} (hx : x ∈ op.entered) :
    insertedAt op.components x.1 ≠ [] := by
  rw [← insertedAt_runs]
  exact List.ne_nil_of_mem (Piece.mem_insertedAt_of_mem_entered hx)

/-- A written character was written in front of a character that is kept, or at the end. -/
theorem exists_of_origin_eq_none {op : Operation} {q : Nat} (h : op.origin q = none) :
    ∃ k, insertedAt op.components k ≠ [] ∧ (∀ g, q < op.newGap g ↔ k < g) ∧
      (keepsAt op.components k → ∃ q', q ≤ q' ∧ op.origin q' = some k) := by
  obtain ⟨k, hk, hgap, horder⟩ := Piece.exists_insertedAt_of_origin_eq_none h
  refine ⟨k, by rw [← insertedAt_runs]; exact hk, hgap, fun hkeeps => ?_⟩
  obtain ⟨q', hq'⟩ := @Piece.exists_origin_eq op.pieces k (by rw [keepsAt_runs]; exact hkeeps)
  exact ⟨q', Nat.le_of_lt ((horder k q' hq').mpr (Nat.le_refl k)), hq'⟩

/-- What stands in front of a gap after the operation: the characters from in front of it, and what
was written in front of one of them. -/
theorem Settled.lt_newGap_iff {op : Operation} (h : op.Settled) (g q : Nat) :
    q < op.newGap g ↔ InFront op.origin g q := by
  constructor
  · intro hq
    cases horigin : op.origin q with
    | some p =>
      exact ⟨q, p, Nat.le_refl q, horigin, (Piece.lt_newGap_iff_of_origin horigin g).mp hq⟩
    | none =>
      obtain ⟨k, hk, hgap, hkept⟩ := exists_of_origin_eq_none horigin
      obtain ⟨q', hle, hq'⟩ := hkept (h k hk)
      exact ⟨q', k, hle, hq', (hgap g).mp hq⟩
  · rintro ⟨q', p, hle, horigin, hp⟩
    exact Nat.lt_of_le_of_lt hle ((Piece.lt_newGap_iff_of_origin horigin g).mpr hp)

/-! ## Harmless detours -/

/-- A way in two steps to a text of the given length does no harm to mine, compared with the way in
one step. The conditions are about the characters that mine deletes and the gaps where it inserts;
what else the steps do is their own affair. -/
structure HarmlessDetour (mine first second direct : Operation) (length : Nat) : Prop where
  /-- By either way, mine deletes the same characters of the text. -/
  keeps_eq : ∀ q < length, (direct.origin q).all (keepsAt mine.components) =
    ((second.origin q).bind first.origin).all (keepsAt mine.components)
  /-- By either way, the same characters stand in front of one that was in front. -/
  inFront_iff : ∀ g, insertedAt mine.components g ≠ [] → ∀ q < length,
    (InFront direct.origin g q ↔ InFront (fun q => (second.origin q).bind first.origin) g q)
  /-- What was written in front on the way and is still there stands in front directly as well. -/
  written : ∀ g, insertedAt mine.components g ≠ [] → ∀ m q, first.origin m = none →
    m < first.newGap g → second.origin q = some m → InFront direct.origin g q
  /-- Nothing is written later among the characters that mine deletes behind its text. If the first
  step does nothing, my text has not slid over them. -/
  clear : ¬ first.isEmpty → ∀ g, insertedAt mine.components g ≠ [] → ∀ k, first.newGap g ≤ k →
    (∀ m, first.newGap g ≤ m → m ≤ k → (first.origin m).all (keepsAt mine.components) = false) →
    insertedAt second.components k = []

variable {mine first second direct updated stepped once : Operation}

theorem HarmlessDetour.inFront_of_lt {length : Nat}
    (h : HarmlessDetour mine first second direct length) {g m q : Nat}
    (hg : insertedAt mine.components g ≠ []) (hq : q < length) (hm : m < first.newGap g)
    {q' : Nat} (hle : q ≤ q') (horigin : second.origin q' = some m) :
    InFront direct.origin g q := by
  cases hfirst : first.origin m with
  | some p =>
    refine (h.inFront_iff g hg q hq).mpr ⟨q', p, hle, ?_, ?_⟩
    · show (second.origin q').bind first.origin = some p
      rw [horigin]
      exact hfirst
    · exact (Piece.lt_newGap_iff_of_origin hfirst g).mp hm
  | none => exact (h.written g hg m q' hfirst hm horigin).mono hle

/-- My text at a gap, moved by the first change to `y` and then by the second, stands behind the
same kept characters as when it is moved directly. -/
theorem HarmlessDetour.lt_newGap_iff {length : Nat}
    (h : HarmlessDetour mine first second direct length) (hsecond : second.Settled)
    (hdirect : direct.Settled)
    (hupdated : ∀ m, keepsAt updated.components m = (first.origin m).all (keepsAt mine.components))
    {x y : Nat × Char} (hx : insertedAt mine.components x.1 ≠ [])
    (hslid : Slid (keepsAt updated.components) (first.newGap x.1, x.2) y)
    (hempty : first.isEmpty → y.1 = first.newGap x.1) {q : Nat} (hq : q < length)
    (hkept : (second.origin q).all (keepsAt updated.components)) :
    q < second.newGap y.1 ↔ q < direct.newGap x.1 := by
  rw [hdirect.lt_newGap_iff]
  constructor
  · intro hlt
    cases horigin : second.origin q with
    | some m =>
      have hm : m < y.1 := (Piece.lt_newGap_iff_of_origin horigin y.1).mp hlt
      rw [horigin] at hkept
      exact h.inFront_of_lt hx hq (hslid.lt_of_kept m hkept hm) (Nat.le_refl q) horigin
    | none =>
      obtain ⟨k, hk, hgap, hbehind⟩ := exists_of_origin_eq_none horigin
      obtain ⟨q', hle, horigin'⟩ := hbehind (hsecond k hk)
      have hky : k < y.1 := (hgap y.1).mp hlt
      -- what is written at `k` would be among the characters over which my text has slid
      have hkx : k < first.newGap x.1 := by
        by_contra hge
        have hge := Nat.le_of_not_lt hge
        by_cases hfirst : first.isEmpty
        · rw [hempty hfirst] at hky
          exact absurd hky (Nat.not_lt.mpr hge)
        · refine hk (h.clear hfirst x.1 hx k hge fun m hm hmk => ?_)
          rw [← hupdated, ← Bool.not_eq_true]
          intro hkeeps
          exact absurd (hslid.lt_of_kept m hkeeps (Nat.lt_of_le_of_lt hmk hky)) (Nat.not_lt.mpr hm)
      exact h.inFront_of_lt hx hq hkx hle horigin'
  · intro hfront
    obtain ⟨q', p, hle, htrace, hp⟩ := (h.inFront_iff x.1 hx q hq).mp hfront
    obtain ⟨m, hm, hfirst⟩ := Option.bind_eq_some_iff.mp htrace
    have hmx : m < first.newGap x.1 := (Piece.lt_newGap_iff_of_origin hfirst x.1).mpr hp
    exact Nat.lt_of_le_of_lt hle
      ((Piece.lt_newGap_iff_of_origin hm y.1).mpr (Nat.lt_of_lt_of_le hmx hslid.le))

/-- **A harmless detour makes no difference.** Mine, transformed past the one change and then past
the other, makes the same text as mine transformed past the change that does what both do. -/
theorem HarmlessDetour.same_text {s t t' : Text}
    (h : HarmlessDetour mine first second direct s.length) (hsecond : second.Settled)
    (hdirect : direct.Settled) (hupdated : mine.transform first .left = .ok updated)
    (hstepped : updated.transform second .left = .ok stepped)
    (honce : mine.transform direct .left = .ok once) (ht : stepped.apply s = .ok t)
    (ht' : once.apply s = .ok t') : t = t' := by
  obtain ⟨hkeepsUpdated, hmovedUpdated⟩ := transform_places hupdated
  obtain ⟨hkeepsStepped, hmovedStepped⟩ := transform_places hstepped
  obtain ⟨hkeepsOnce, hmovedOnce⟩ := transform_places honce
  have hkeeps : ∀ q < s.length, keepsAt stepped.components q = keepsAt once.components q := by
    intro q hq
    rw [hkeepsStepped, hkeepsOnce, h.keeps_eq q hq]
    cases second.origin q with
    | none => rfl
    | some m => exact hkeepsUpdated m
  refine apply_eq_of_places ht ht' hkeeps
    (forall₂_along hmovedUpdated hmovedStepped hmovedOnce ?_)
  intro x y z w hx hxy hyz hxw
  have hgap := insertedAt_ne_nil_of_mem_entered hx
  refine ⟨hyz.1.same.symm.trans (hxy.1.same.symm.trans hxw.1.same), fun q hq hkept => ?_⟩
  have hkept' : keepsAt once.components q := hkeeps q hq ▸ hkept
  rw [hyz.1.lt_iff hkept, hxw.1.lt_iff hkept']
  refine h.lt_newGap_iff hsecond hdirect hkeepsUpdated hgap hxy.1 hxy.2 hq ?_
  rw [← hkeepsStepped]
  exact hkept

end Operation

end Coedit
