import Coedit.Proofs.Operation.Gathering
import Coedit.Proofs.Operation.Normalization

/-!
# The normal form

That a normalized operation does the same as before is shown in `Normalization`. This file is about
the form:

> `normalForm_trimComponents`: the trimmed components of an operation that changes something are in
> `NormalForm`: merged, with a replacement among them, and no replacement deletes and inserts the
> same character first or last.

> `Operation.normalize_eq_empty_iff`: the normal form is the empty operation exactly if the
> components, merged, replace nothing but by itself.

Trimming happens after merging, and what it gives back to the kept runs might bring two replacements
together. It does not: between two merged replacements something is kept, and it is still kept when
they are trimmed (`trimmed_spec`).

An operation that changes something can be seen to do so. The first component that is not an
identity replaces `d` by some other `i`, and everything before it stays. If neither of the two texts
begins with the other, the difference shows at once. Otherwise it depends on what follows, and what
follows is a kept character, which can be chosen to be another one than the next of the longer text
(`Text.exists_separating`).
-/

namespace Coedit

namespace Text

/-- The texts differ at both ends: they have neither the first nor the last character in common. -/
structure Apart (s t : Text) : Prop where
  first : ∀ c, s.head? = some c → t.head? ≠ some c
  last : ∀ c, s.getLast? = some c → t.getLast? ≠ some c

theorem sharedStart_eq_zero_iff {s t : Text} :
    sharedStart s t = 0 ↔ ∀ c, s.head? = some c → t.head? ≠ some c := by
  cases s with
  | nil => simp [sharedStart]
  | cons a s =>
    cases t with
    | nil => simp [sharedStart]
    | cons b t => simp [sharedStart, eq_comm]

theorem apart_iff {s t : Text} : Apart s t ↔ sharedStart s t = 0 ∧ sharedEnd s t = 0 := by
  rw [sharedEnd, sharedStart_eq_zero_iff, sharedStart_eq_zero_iff]
  simp only [List.head?_reverse]
  exact ⟨fun h => ⟨h.first, h.last⟩, fun h => ⟨h.1, h.2⟩⟩

/-- Behind what two texts share at the front they share nothing at the front. -/
theorem sharedStart_drop (s t : Text) :
    sharedStart (s.drop (sharedStart s t)) (t.drop (sharedStart s t)) = 0 := by
  fun_induction sharedStart s t with
  | case1 a as bs ih => exact ih
  | case2 a as b bs hab => rw [List.drop_zero, List.drop_zero, sharedStart, if_neg hab]
  | case3 s t hnil =>
    cases s with
    | nil => rfl
    | cons a as =>
      cases t with
      | nil => rfl
      | cons b bs => exact absurd rfl (hnil a as b bs rfl)

/-- Before what two texts share at the back they share nothing at the back. -/
theorem sharedEnd_take (s t : Text) :
    sharedEnd (s.take (s.length - sharedEnd s t)) (t.take (t.length - sharedEnd s t)) = 0 := by
  have h := sharedStart_drop s.reverse t.reverse
  rw [List.drop_reverse, List.drop_reverse] at h
  exact h

theorem sharedStart_take {s t : Text} (h : sharedStart s t = 0) (m n : Nat) :
    sharedStart (s.take m) (t.take n) = 0 := by
  rw [sharedStart_eq_zero_iff] at h ⊢
  intro c hs ht
  rw [List.head?_take] at hs ht
  split at hs
  · cases hs
  · split at ht
    · cases ht
    · exact h c hs ht

@[simp] theorem sharedStart_self (s : Text) : sharedStart s s = s.length := by
  induction s with
  | nil => rfl
  | cons a s ih => rw [sharedStart, if_pos rfl, ih, List.length_cons]

end Text

/-- The runs of a change keep what the texts share and replace what is left, which differs at both
ends. -/
theorem Piece.exists_changing (old new : Text) :
    ∃ start d i stop, changing old new = [.retain start, .delete d, .insert i, .retain stop] ∧
      Text.Apart d i := by
  refine ⟨_, _, _, _, rfl, Text.apart_iff.mpr ⟨?_, Text.sharedEnd_take ..⟩⟩
  exact Text.sharedStart_take (Text.sharedStart_drop old new) _ _

/-! ## Trimming merged components -/

/-- Components in normal form, of an operation that changes something. -/
structure NormalForm (cs : List Component) : Prop extends Merged cs where
  /-- Something is replaced. -/
  exists_replace : ∃ d i, .replace d i ∈ cs
  /-- What is replaced changes at both ends. -/
  apart : ∀ {d i}, .replace d i ∈ cs → Text.Apart d i

namespace Piece

/-- A kept run in front of components adds no replacement. -/
theorem replace_mem_onto_retain {n : Nat} {d i : Text} {cs : List Component} :
    .replace d i ∈ (retain n).onto cs ↔ .replace d i ∈ cs := by
  by_cases hn : n = 0
  · rw [onto_of_size_eq_zero (p := retain n) hn]
  · cases cs with
    | nil => simp [onto, size, hn]
    | cons c cs => cases c <;> simp [onto, size, hn]

/-- Components with a kept run in front do not begin with a replacement. If the run is empty, this is
asked of the components themselves. -/
theorem isRetain_of_mem_head?_onto {n : Nat} {cs : List Component}
    (h : n = 0 → ∀ c ∈ cs.head?, c.isRetain) : ∀ c ∈ ((retain n).onto cs).head?, c.isRetain := by
  by_cases hn : n = 0
  · rw [onto_of_size_eq_zero (p := retain n) hn]
    exact h hn
  · cases cs with
    | nil => simp [onto, size, hn, Component.isRetain]
    | cons c cs => cases c <;> simp [onto, size, hn, Component.isRetain]

/-- A deletion and an insertion in front of components that do not begin with a replacement make
one, if there is anything to them. -/
theorem mem_onto_onto {d i d' i' : Text} {cs : List Component}
    (hcs : ∀ c ∈ cs.head?, c.isRetain)
    (h : .replace d' i' ∈ (delete d).onto ((insert i).onto cs)) :
    (d' = d ∧ i' = i) ∨ .replace d' i' ∈ cs := by
  by_cases hdi : (Component.replace d i).HasCharacters
  · have hnext : ∀ c ∈ cs.head?, (Component.replace d i).isRetain ≠ c.isRetain := by
      intro c hc
      rw [hcs c hc]
      exact Bool.false_ne_true
    rw [← Component.foldr_onto_pieces_replace, Component.foldr_onto_pieces_eq_cons hdi hnext] at h
    simpa using h
  · simp only [Component.HasCharacters, not_or, not_not] at hdi
    rw [hdi.1, hdi.2, onto_of_size_eq_zero (p := delete []) rfl,
      onto_of_size_eq_zero (p := insert []) rfl] at h
    exact Or.inr h

end Piece

/-- **Trimming brings no replacements together.** The components left of merged ones when each is
trimmed have replacements that change at both ends, and do not begin with a replacement unless the
merged ones did. -/
theorem trimmed_spec {cs : List Component} (h : Merged cs) :
    (∀ {d i}, .replace d i ∈ gather (cs.flatMap Component.trimmed) → Text.Apart d i) ∧
      ((∀ c ∈ cs.head?, c.isRetain) →
        ∀ c ∈ (gather (cs.flatMap Component.trimmed)).head?, c.isRetain) := by
  induction cs with
  | nil => simp
  | cons c cs ih =>
    obtain ⟨hc, hnext, hcs⟩ := merged_cons.mp h
    obtain ⟨ihapart, ihhead⟩ := ih hcs
    rw [List.flatMap_cons, gather_append]
    generalize gather (cs.flatMap Component.trimmed) = rest at ihapart ihhead
    cases c with
    | retain n =>
      refine ⟨fun hmem => ihapart (Piece.replace_mem_onto_retain.mp hmem), fun _ => ?_⟩
      exact Piece.isRetain_of_mem_head?_onto fun hn => absurd hn (Nat.ne_of_gt hc)
    | replace d i =>
      obtain ⟨start, d', i', stop, hchanging, hapart⟩ := Piece.exists_changing d i
      refine ⟨fun hmem => ?_, fun hhead => ?_⟩
      · -- what follows the replacement begins with a kept run, so nothing merges into it
        have hrest : ∀ c ∈ rest.head?, c.isRetain :=
          ihhead (by simpa [Component.isRetain] using hnext)
        rw [Component.trimmed, hchanging] at hmem
        rcases Piece.mem_onto_onto (Piece.isRetain_of_mem_head?_onto fun _ => hrest)
          (Piece.replace_mem_onto_retain.mp hmem) with ⟨rfl, rfl⟩ | hmem
        · exact hapart
        · exact ihapart (Piece.replace_mem_onto_retain.mp hmem)
      · exact absurd (hhead _ rfl) Bool.false_ne_true

theorem exists_replace_of_not_all {cs : List Component} (h : ¬ cs.all Component.isRetain) :
    ∃ d i, .replace d i ∈ cs := by
  rw [List.all_eq_true] at h
  simp only [not_forall] at h
  obtain ⟨c, hc, hreplace⟩ := h
  cases c with
  | retain n => exact absurd rfl hreplace
  | replace d i => exact ⟨d, i, hc⟩

theorem normalForm_trimComponents {cs : List Component}
    (h : ¬ (trimComponents cs).all Component.isRetain) : NormalForm (trimComponents cs) where
  toMerged := merged_gather _
  exists_replace := exists_replace_of_not_all h
  apart := (trimmed_spec (merged_gather _)).1

theorem gather_flatMap_congr {f g : Component → List Piece} {cs : List Component}
    (h : ∀ c ∈ cs, ∀ rest, (f c).foldr Piece.onto rest = (g c).foldr Piece.onto rest) :
    gather (cs.flatMap f) = gather (cs.flatMap g) := by
  induction cs with
  | nil => rfl
  | cons c cs ih =>
    rw [List.flatMap_cons, List.flatMap_cons, gather_append, gather_append,
      h c (List.mem_cons_self ..), ih fun c' hc' => h c' (List.mem_cons_of_mem _ hc')]

/-- **Components in normal form stay as they are.** -/
theorem NormalForm.trimComponents_eq {cs : List Component} (h : NormalForm cs) :
    trimComponents cs = cs := by
  rw [trimComponents, h.gather_pieces]
  refine Eq.trans (gather_flatMap_congr ?_) h.gather_pieces
  intro c hc rest
  cases c with
  | retain n => rw [Component.foldr_onto_pieces_retain]; rfl
  | replace d i =>
    obtain ⟨hstart, hstop⟩ := Text.apart_iff.mp (h.apart hc)
    rw [Component.foldr_onto_pieces_replace]
    simp [Component.trimmed, Piece.changing, hstart, hstop,
      Piece.onto_of_size_eq_zero (p := .retain 0) rfl]

namespace Operation

theorem normalize_of_all_isRetain {op : Operation}
    (h : (trimComponents op.components).all Component.isRetain) : op.normalize = empty := if_pos h

theorem components_normalize {op : Operation}
    (h : ¬ (trimComponents op.components).all Component.isRetain) :
    op.normalize.components = trimComponents op.components := by
  rw [normalize, if_neg h]

/-- Normalizing again changes nothing. -/
theorem normalize_normalize (op : Operation) : op.normalize.normalize = op.normalize := by
  by_cases h : (trimComponents op.components).all Component.isRetain
  · rw [normalize_of_all_isRetain h]
    rfl
  · have hcomponents := components_normalize h
    have hagain : trimComponents op.normalize.components = op.normalize.components := by
      rw [hcomponents, (normalForm_trimComponents h).trimComponents_eq]
    apply ext
    rw [components_normalize (by rw [hagain, hcomponents]; exact h), hagain]

/-- **Normalizing leads to a normal form.** What comes out makes of every text what the operation
makes of it, it stays as it is when normalized again, and it is either the empty operation or in
normal form, with the lengths that the operation had. -/
theorem normalize_leads_to_normal_form (op : Operation) :
    (∀ s t, op.apply s = .ok t → op.normalize.apply s = .ok t) ∧
      (op.normalize = empty ∨
        NormalForm op.normalize.components ∧ op.normalize.lenBefore = op.lenBefore ∧
          op.normalize.lenAfter = op.lenAfter) ∧
      op.normalize.normalize = op.normalize := by
  refine ⟨fun s t h => normalize_apply h, ?_, normalize_normalize op⟩
  by_cases h : (trimComponents op.components).all Component.isRetain
  · exact Or.inl (normalize_of_all_isRetain h)
  · right
    rw [lenBefore, lenAfter, components_normalize h]
    exact ⟨normalForm_trimComponents h, inputLength_trimComponents ..,
      outputLength_trimComponents ..⟩

/-- Two replacements that undo each other, and two that are one when merged: it begins and ends with
characters that stay, of which the first is the last of what is deleted as well. -/
theorem normalize_leads_to_normal_form_patched :
    let patched : Operation := ⟨[.replace ['a', 'b'] [], .replace [] ['a', 'b'], .retain 1,
      .replace ['a', 'a'] ['a'], .retain 0, .replace ['c'] ['x', 'c']], by decide, by decide⟩
    patched.apply ['a', 'b', 'z', 'a', 'a', 'c'] = .ok ['a', 'b', 'z', 'a', 'x', 'c'] ∧
      patched.normalize.apply ['a', 'b', 'z', 'a', 'a', 'c'] = .ok ['a', 'b', 'z', 'a', 'x', 'c'] ∧
      patched.normalize.components = [.retain 4, .replace ['a'] ['x'], .retain 1] ∧
      patched.normalize.normalize = patched.normalize := by
  intro patched
  have hpatched : patched.apply ['a', 'b', 'z', 'a', 'a', 'c'] =
      .ok ['a', 'b', 'z', 'a', 'x', 'c'] := rfl
  obtain ⟨hsame, -, hagain⟩ := normalize_leads_to_normal_form patched
  exact ⟨hpatched, hsame _ _ hpatched, by decide, hagain⟩

end Operation

/-! ## Operations that change nothing -/

/-- What holds of kept runs and of all components still holds with a kept run in front. -/
theorem all_onto_retain {f : Component → Bool} (hf : ∀ n, f (.retain n)) {cs : List Component}
    (h : cs.all f) (n : Nat) : ((Piece.retain n).onto cs).all f := by
  by_cases hn : n = 0
  · rw [Piece.onto_of_size_eq_zero (p := .retain n) hn]
    exact h
  · cases cs with
    | nil => simp [Piece.onto, Piece.size, hn, hf]
    | cons c cs => cases c <;> simp_all [Piece.onto, Piece.size]

/-- Runs of which all but kept ones are empty gather to kept runs. -/
theorem all_isRetain_gather {ps : List Piece} (h : ∀ p ∈ ps, p.size = 0 ∨ ∃ n, p = .retain n) :
    (gather ps).all Component.isRetain := by
  induction ps with
  | nil => rfl
  | cons p ps ih =>
    have hrest := ih fun q hq => h q (List.mem_cons_of_mem _ hq)
    rw [gather_cons]
    rcases h p (List.mem_cons_self ..) with hp | ⟨n, rfl⟩
    · rw [Piece.onto_of_size_eq_zero hp]
      exact hrest
    · exact all_onto_retain (fun _ => rfl) hrest n

/-- A replacement by the same text merges into an identity. -/
theorem all_isIdentity_onto_onto {cs : List Component} (h : cs.all Component.isIdentity)
    (t : Text) :
    ((Piece.delete t).onto ((Piece.insert t).onto cs)).all Component.isIdentity := by
  by_cases ht : t = []
  · rw [ht, Piece.onto_of_size_eq_zero (p := .delete []) rfl,
      Piece.onto_of_size_eq_zero (p := .insert []) rfl]
    exact h
  · cases cs with
    | nil => simp [Piece.onto, Piece.size, ht, Component.isIdentity]
    | cons c cs => cases c <;> simp_all [Piece.onto, Piece.size, Component.isIdentity]

theorem all_isIdentity_gather_pieces {cs : List Component} (h : cs.all Component.isIdentity) :
    (gather (pieces cs)).all Component.isIdentity := by
  induction cs with
  | nil => rfl
  | cons c cs ih =>
    rw [List.all_cons, Bool.and_eq_true] at h
    rw [pieces, List.flatMap_cons, gather_append, ← pieces]
    cases c with
    | retain n =>
      rw [Component.foldr_onto_pieces_retain]
      exact all_onto_retain (fun _ => rfl) (ih h.2) n
    | replace d i =>
      obtain rfl : d = i := eq_of_beq h.1
      rw [Component.foldr_onto_pieces_replace]
      exact all_isIdentity_onto_onto (ih h.2) d

/-- What replaces nothing but by itself is trimmed to kept runs. -/
theorem all_isRetain_trimComponents {cs : List Component}
    (h : (gather (pieces cs)).all Component.isIdentity) :
    (trimComponents cs).all Component.isRetain := by
  refine all_isRetain_gather fun p hp => ?_
  obtain ⟨c, hc, hp⟩ := List.mem_flatMap.mp hp
  have hid := List.all_eq_true.mp h c hc
  cases c with
  | retain n =>
    exact Or.inr ⟨n, List.mem_singleton.mp hp⟩
  | replace d i =>
    obtain rfl : d = i := eq_of_beq hid
    -- the whole text is shared, so nothing is left to delete or to insert
    simp only [Component.trimmed, Piece.changing, Text.sharedStart_self, List.drop_length] at hp
    simp only [List.mem_cons, List.not_mem_nil, or_false] at hp
    rcases hp with rfl | rfl | rfl | rfl
    · exact Or.inr ⟨_, rfl⟩
    · exact Or.inl rfl
    · exact Or.inl rfl
    · exact Or.inr ⟨_, rfl⟩

/-! ## Telling a change from none -/

/-- Two different texts can be told apart by what follows them, for some character that follows
both. -/
theorem Text.exists_separating {d i : Text} (h : d ≠ i) :
    ∃ x, ∀ s t, d ++ x :: s ≠ i ++ x :: t := by
  have hother : ∀ c : Char, ∃ x, x ≠ c := by
    intro c
    by_cases hc : c = 'a'
    · exact ⟨'b', by rw [hc]; decide⟩
    · exact ⟨'a', Ne.symm hc⟩
  induction d generalizing i with
  | nil =>
    cases i with
    | nil => exact absurd rfl h
    | cons c i =>
      obtain ⟨x, hx⟩ := hother c
      exact ⟨x, fun s t heq => hx (List.cons.inj heq).1⟩
  | cons c d ih =>
    cases i with
    | nil =>
      obtain ⟨x, hx⟩ := hother c
      exact ⟨x, fun s t heq => hx (List.cons.inj heq).1.symm⟩
    | cons c' i =>
      by_cases hc : c = c'
      · subst hc
        obtain ⟨x, hx⟩ := ih fun heq => h (by rw [heq])
        exact ⟨x, fun s t heq => hx s t (List.cons.inj heq).2⟩
      · exact ⟨c, fun s t heq => hc (List.cons.inj heq).1⟩

/-- Every list of components runs over some text. -/
theorem exists_rewrites (cs : List Component) : ∃ s t, Rewrites (pieces cs) s t := by
  induction cs with
  | nil => exact ⟨[], [], .nil⟩
  | cons c cs ih =>
    obtain ⟨s, t, hcs⟩ := ih
    cases c with
    | retain n =>
      exact ⟨_, _, (rewrites_pieces_retain n cs).mpr (rewrites_retain.mpr
        ⟨List.replicate n 'a', s, t, List.length_replicate, rfl, rfl, hcs⟩)⟩
    | replace d i => exact ⟨_, _, (rewrites_pieces_replace d i cs).mpr ⟨s, t, rfl, rfl, hcs⟩⟩

/-- **A change shows.** Merged components of which one replaces a text by another change some text
that they run over. The induction goes up to the first such component; the components before it are
identities, and the kept run behind it separates the two texts. -/
theorem Merged.exists_changed {cs : List Component} (h : Merged cs)
    (hcs : ¬ cs.all Component.isIdentity) : ∃ s t, Rewrites (pieces cs) s t ∧ s ≠ t := by
  induction cs with
  | nil => exact absurd rfl hcs
  | cons c cs ih =>
    obtain ⟨-, hnext, hmerged⟩ := merged_cons.mp h
    rw [List.all_cons, Bool.and_eq_true] at hcs
    cases c with
    | retain n =>
      obtain ⟨s, t, hst, hne⟩ := ih hmerged fun hall => hcs ⟨rfl, hall⟩
      refine ⟨_, _, (rewrites_pieces_retain n cs).mpr (rewrites_retain.mpr
        ⟨List.replicate n 'a', s, t, List.length_replicate, rfl, rfl, hst⟩), ?_⟩
      exact fun heq => hne (List.append_cancel_left heq)
    | replace d i =>
      have hrun : ∀ s t, Rewrites (pieces cs) s t →
          Rewrites (pieces (.replace d i :: cs)) (d ++ s) (i ++ t) := fun s t hst =>
        (rewrites_pieces_replace d i cs).mpr ⟨s, t, rfl, rfl, hst⟩
      by_cases hdi : d = i
      · subst hdi
        obtain ⟨s, t, hst, hne⟩ := ih hmerged fun hall => hcs ⟨beq_self_eq_true d, hall⟩
        exact ⟨_, _, hrun s t hst, fun heq => hne (List.append_cancel_left heq)⟩
      cases cs with
      | nil => exact ⟨_, _, hrun [] [] .nil, by simpa using hdi⟩
      | cons c' rest =>
        cases c' with
        | replace d' i' => exact (hnext _ rfl rfl).elim
        | retain n =>
          -- the kept run is not empty, so it has a first character to choose
          obtain ⟨m, rfl⟩ := Nat.exists_eq_succ_of_ne_zero (Nat.ne_of_gt (merged_cons.mp hmerged).1)
          obtain ⟨x, hx⟩ := Text.exists_separating hdi
          obtain ⟨s, t, hst⟩ := exists_rewrites rest
          refine ⟨_, _, hrun _ _ ((rewrites_pieces_retain _ rest).mpr (rewrites_retain.mpr
            ⟨x :: List.replicate m x, s, t, ?_, rfl, rfl, hst⟩)), hx _ _⟩
          rw [List.length_cons, List.length_replicate]

namespace Operation

/-- An operation whose normal form is empty changes nothing. -/
theorem eq_of_normalize_eq_empty {op : Operation} (h : op.normalize = empty) {s t : Text}
    (hop : op.apply s = .ok t) : t = s := by
  have happly := normalize_apply hop
  rw [h, apply_empty] at happly
  injection happly with heq
  exact heq.symm

/-- An operation whose merged components are not all identities changes some text. -/
theorem exists_apply_ne {op : Operation} (h : ¬ (gather op.pieces).all Component.isIdentity) :
    ∃ s t, op.apply s = .ok t ∧ t ≠ s := by
  obtain ⟨s, t, hst, hne⟩ := (merged_gather op.pieces).exists_changed h
  exact ⟨s, t, apply_of_rewrites ((rewrites_gather _).mp hst), hne.symm⟩

/-- The normal form is the empty operation exactly if the merged components are identities. -/
theorem normalize_eq_empty_iff {op : Operation} :
    op.normalize = empty ↔ (gather op.pieces).all Component.isIdentity := by
  constructor
  · intro h
    by_contra hall
    obtain ⟨s, t, hst, hne⟩ := exists_apply_ne hall
    exact hne (eq_of_normalize_eq_empty h hst)
  · intro h
    exact normalize_of_all_isRetain (all_isRetain_trimComponents h)

/-- **Normalizing recognises every operation that changes nothing.** The normal form is the empty
operation exactly if the operation leaves every text that it applies to as it is. -/
theorem normalize_empty_iff_unchanging (op : Operation) :
    op.normalize = empty ↔ ∀ s t, op.apply s = .ok t → t = s := by
  constructor
  · intro h s t hop
    exact eq_of_normalize_eq_empty h hop
  · intro h
    rw [normalize_eq_empty_iff]
    by_contra hall
    obtain ⟨s, t, hst, hne⟩ := exists_apply_ne hall
    exact hne (h s t hst)

end Operation

end Coedit
