import Coedit.Fault
import Mathlib.Data.List.Forall2

/-!
# Steps that may fail

What the program computes is mostly a sequence of steps, each of which may fail. A sequence succeeds
exactly if all its steps do (`bind_eq_ok`), and a step taken for every item of a list succeeds exactly
if it does for each of them (`mapM_eq_ok_iff`).

Of a step that may fault two things are to be said, that whatever comes out is right and when
something does come out. `Lands` says both, and sequences and lists of such steps land where their
steps do (`Lands.bind`, `Lands.mapM`).
-/

namespace Coedit

/-- A computation in two steps succeeds exactly if both steps do. -/
theorem bind_eq_ok {ε α β : Type} {x : Except ε α} {f : α → Except ε β} {b : β} :
    (x >>= f) = .ok b ↔ ∃ a, x = .ok a ∧ f a = .ok b := by
  cases x with
  | error e =>
    constructor
    · intro h
      cases h
    · intro h
      obtain ⟨a, ha, _⟩ := h
      cases ha
  | ok a =>
    constructor
    · intro h
      exact ⟨a, rfl, h⟩
    · intro h
      obtain ⟨a', ha, h⟩ := h
      cases ha
      exact h

theorem ok_bind {ε α β : Type} (a : α) (f : α → Except ε β) : (Except.ok a >>= f) = f a := rfl

/-- A traversal succeeds exactly with what each step gives. -/
theorem mapM_eq_ok_iff {ε α β : Type} {f : α → Except ε β} {as : List α} {bs : List β} :
    as.mapM f = .ok bs ↔ List.Forall₂ (fun a b => f a = .ok b) as bs := by
  induction as generalizing bs with
  | nil =>
    rw [List.forall₂_nil_left_iff]
    constructor
    · rintro ⟨⟩
      rfl
    · rintro rfl
      rfl
  | cons a as ih =>
    rw [List.mapM_cons, List.forall₂_cons_left_iff, bind_eq_ok]
    constructor
    · rintro ⟨b, hb, h⟩
      obtain ⟨rest, hrest, hok⟩ := bind_eq_ok.mp h
      cases hok
      exact ⟨b, rest, hb, ih.mp hrest, rfl⟩
    · rintro ⟨b, rest, hb, hrest, rfl⟩
      exact ⟨b, hb, bind_eq_ok.mpr ⟨rest, ih.mpr hrest, rfl⟩⟩

/-- Lists can be related item by item exactly if each item can. -/
theorem exists_forall₂_iff {α β : Type} {R : α → β → Prop} {as : List α} :
    (∃ bs, List.Forall₂ R as bs) ↔ ∀ a ∈ as, ∃ b, R a b := by
  induction as with
  | nil => exact ⟨fun _ => List.forall_mem_nil _, fun _ => ⟨[], .nil⟩⟩
  | cons a as ih =>
    rw [List.forall_mem_cons, ← ih]
    constructor
    · rintro ⟨bs, hbs⟩
      obtain ⟨b, rest, hab, hrest, -⟩ := List.forall₂_cons_left_iff.mp hbs
      exact ⟨⟨b, hab⟩, rest, hrest⟩
    · rintro ⟨⟨b, hab⟩, bs, hrest⟩
      exact ⟨b :: bs, .cons hab hrest⟩

/-- What each step makes of a property holds of all results if the property holds of all items. -/
theorem forall_mem_of_forall₂ {α β : Type} {R : α → β → Prop} {P : α → Prop} {Q : β → Prop}
    {as : List α} {bs : List β} (h : List.Forall₂ R as bs) (hstep : ∀ a b, R a b → P a → Q b)
    (has : ∀ a ∈ as, P a) : ∀ b ∈ bs, Q b := by
  induction h with
  | nil => exact List.forall_mem_nil _
  | cons hab _ ih =>
    obtain ⟨ha, hrest⟩ := List.forall_mem_cons.mp has
    exact List.forall_mem_cons.mpr ⟨hstep _ _ hab ha, ih hrest⟩

/-- A step that may fault gives only values with the property, and it does give one if the lengths
fit. -/
structure Lands {α : Type} (fits : Prop) (P : α → Prop) (r : Except Fault α) : Prop where
  holds : ∀ a, r = .ok a → P a
  exists_ok : fits → ∃ a, r = .ok a

namespace Lands

variable {α β : Type} {fits : Prop} {P : α → Prop}

theorem ok {a : α} (h : P a) : Lands fits P (.ok a) where
  holds := by
    rintro _ ⟨⟩
    exact h
  exists_ok _ := ⟨a, rfl⟩

theorem imp {Q : α → Prop} {r : Except Fault α} (h : Lands fits P r) (hPQ : ∀ a, P a → Q a) :
    Lands fits Q r where
  holds a ha := hPQ a (h.holds a ha)
  exists_ok := h.exists_ok

theorem bind {Q : β → Prop} {r : Except Fault α} {f : α → Except Fault β} (h : Lands fits P r)
    (hf : ∀ a, P a → Lands fits Q (f a)) : Lands fits Q (r >>= f) where
  holds b hb := by
    obtain ⟨a, ha, hfa⟩ := bind_eq_ok.mp hb
    exact (hf a (h.holds a ha)).holds b hfa
  exists_ok hfits := by
    obtain ⟨a, ha⟩ := h.exists_ok hfits
    obtain ⟨b, hb⟩ := (hf a (h.holds a ha)).exists_ok hfits
    exact ⟨b, bind_eq_ok.mpr ⟨a, ha, hb⟩⟩

/-- Steps for the items of a list, one after the other. -/
theorem mapM {is : List β} {f : β → Except Fault α} {R : β → α → Prop}
    (h : ∀ i ∈ is, Lands fits (R i) (f i)) : Lands fits (List.Forall₂ R is) (is.mapM f) where
  holds as has := by
    have heach := (List.forall₂_and_left _ _).mpr ⟨h, mapM_eq_ok_iff.mp has⟩
    exact heach.imp fun i a hi => hi.1.holds a hi.2
  exists_ok hfits := by
    obtain ⟨as, has⟩ := exists_forall₂_iff.mpr fun i hi => (h i hi).exists_ok hfits
    exact ⟨as, mapM_eq_ok_iff.mpr has⟩

end Lands

end Coedit
