import Coedit.TrieVec.Basic

/-!
# Searching a vector from the back

`lastIndex?` looks for the last item with a property, from the end of the vector back. It finds one
if there is one (`lastIndex?_eq_none`), and none of the items behind it has the property
(`toList_of_lastIndex?`).
-/

universe u

namespace Coedit

/-- An item splits a list into what comes before it, itself and what comes after it. -/
theorem eq_take_append_drop_of_getElem? {α : Type u} {l : List α} {i : Nat} {a : α}
    (h : l[i]? = some a) : l = l.take i ++ a :: l.drop (i + 1) := by
  obtain ⟨hi, hget⟩ := List.getElem?_eq_some_iff.mp h
  rw [← hget, ← List.drop_eq_getElem_cons hi, List.take_append_drop]

namespace TrieVec

variable {α : Type u}

/-- The last index below `n` whose item satisfies `p`. -/
def lastIndexBelow (v : TrieVec α) (p : α → Bool) : Nat → Option Nat
  | 0 => none
  | n + 1 => if (v.get? n).any p then some n else v.lastIndexBelow p n

/-- The index of the last item that satisfies `p`. -/
def lastIndex? (v : TrieVec α) (p : α → Bool) : Option Nat := v.lastIndexBelow p v.length

/-- A search below `n` for the last item with a property finds one that has it, and none between it
and `n` has. -/
theorem lastIndexBelow_eq_some {v : TrieVec α} {p : α → Bool} {i : Nat} :
    ∀ {n : Nat}, v.lastIndexBelow p n = some i →
      ∃ a, v.toList[i]? = some a ∧ p a ∧ ∀ j b, i < j → j < n → v.toList[j]? = some b → ¬ p b := by
  intro n
  induction n with
  | zero =>
    intro hn
    cases hn
  | succ n ih =>
    intro hn
    unfold lastIndexBelow at hn
    rw [v.get?_eq] at hn
    split at hn
    · next hany =>
      -- found at `n`, so there is nothing in between
      cases hn
      cases hget : v.toList[i]? with
      | none => rw [hget] at hany; cases hany
      | some a =>
        rw [hget] at hany
        exact ⟨a, rfl, hany, fun j b hij hj => by omega⟩
    · next hany =>
      obtain ⟨a, ha, hpa, hlast⟩ := ih hn
      refine ⟨a, ha, hpa, ?_⟩
      intro j b hij hj hb
      rcases Nat.lt_or_ge j n with hjn | hjn
      · exact hlast j b hij hjn hb
      · have hjn : j = n := by omega
        subst hjn
        intro hpb
        rw [hb] at hany
        exact hany hpb

/-- A search below `n` that finds nothing has passed only items without the property. -/
theorem lastIndexBelow_eq_none {v : TrieVec α} {p : α → Bool} :
    ∀ {n : Nat}, v.lastIndexBelow p n = none → ∀ j b, j < n → v.toList[j]? = some b → ¬ p b := by
  intro n
  induction n with
  | zero =>
    intro _ j b hj
    omega
  | succ n ih =>
    intro hn j b hj hb
    unfold lastIndexBelow at hn
    rw [v.get?_eq] at hn
    split at hn
    · cases hn
    · next hany =>
      rcases Nat.lt_succ_iff_lt_or_eq.mp hj with hjn | rfl
      · exact ih hn j b hjn hb
      · rw [hb] at hany
        exact hany

theorem lastIndex?_eq_some {v : TrieVec α} {p : α → Bool} {i : Nat}
    (h : v.lastIndex? p = some i) :
    ∃ a, v.toList[i]? = some a ∧ p a ∧ ∀ b ∈ v.toList.drop (i + 1), ¬ p b := by
  obtain ⟨a, ha, hpa, hlast⟩ := lastIndexBelow_eq_some h
  refine ⟨a, ha, hpa, ?_⟩
  intro b hb
  obtain ⟨k, hk⟩ := List.mem_iff_getElem?.mp hb
  rw [List.getElem?_drop] at hk
  have hlt := (List.getElem?_eq_some_iff.mp hk).1
  rw [v.length_toList] at hlt
  exact hlast (i + 1 + k) b (by omega) hlt hk

theorem lastIndex?_eq_none {v : TrieVec α} {p : α → Bool}
    (h : v.lastIndex? p = none) : ∀ a ∈ v.toList, ¬ p a := by
  intro a ha
  obtain ⟨k, hk⟩ := List.mem_iff_getElem?.mp ha
  have hlt := (List.getElem?_eq_some_iff.mp hk).1
  rw [v.length_toList] at hlt
  exact lastIndexBelow_eq_none h k a hlt hk

/-- A search for the last item with a property that succeeds splits the items there. -/
theorem toList_of_lastIndex? {v : TrieVec α} {p : α → Bool} {i : Nat}
    (h : v.lastIndex? p = some i) :
    ∃ front a back, v.toList = front ++ a :: back ∧ v.get? i = some a ∧ p a ∧
      ∀ b ∈ back, ¬ p b := by
  obtain ⟨a, ha, hpa, hback⟩ := lastIndex?_eq_some h
  refine ⟨v.toList.take i, a, v.toList.drop (i + 1), eq_take_append_drop_of_getElem? ha, ?_, hpa,
    hback⟩
  rw [v.get?_eq]
  exact ha

end TrieVec

end Coedit
