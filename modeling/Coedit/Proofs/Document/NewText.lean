import Coedit.Proofs.Document.Recording
import Coedit.Proofs.History.Trimming
import Coedit.Proofs.Operation.Cancellation
import Coedit.Proofs.Operation.Offsets

/-!
# A new text by the least replacement

A document is given a new text as a whole. What is recorded is the difference to the old one: what
both share at the front is kept, then what the remainders share at the back, and what is left
between is replaced. The shared end is looked for behind the shared start only. In texts that repeat
themselves, such as "aba" and "ababa", the two compete for the same characters, and a replacement at
another place would do as well.

> `Document.new_text_by_least_replacement`: the difference of two texts leads from one to the other,
> and no single replacement that does deletes less or inserts less. A document takes every new text;
> it is one edit, by just the difference, or none if the text is the same.

Least means least against any other place (`Text.changed_le`). A replacement keeps some characters
at the front and some at the back. Those at the front are shared, so there are no more of them than
the difference keeps. Those at the back that reach into the shared start are more than the
difference keeps there, but then it deletes or inserts nothing.

That the difference of a text to itself vanishes is a case of this: to do nothing is a replacement
of nothing by nothing.
-/

namespace Coedit

namespace Text

/-! ## Shared ends are longest -/

theorem length_le_sharedStart {w s t : Text} (hs : w <+: s) (ht : w <+: t) :
    w.length ≤ sharedStart s t := by
  induction w generalizing s t with
  | nil => exact Nat.zero_le _
  | cons c w ih =>
    obtain ⟨s, rfl⟩ := hs
    obtain ⟨t, rfl⟩ := ht
    rw [List.cons_append, List.cons_append, sharedStart, if_pos rfl]
    exact Nat.succ_le_succ (ih (List.prefix_append ..) (List.prefix_append ..))

theorem length_le_sharedEnd {w s t : Text} (hs : w <:+ s) (ht : w <:+ t) :
    w.length ≤ sharedEnd s t := by
  rw [← List.length_reverse, sharedEnd]
  exact length_le_sharedStart (List.reverse_prefix.mpr hs) (List.reverse_prefix.mpr ht)

/-- Of an end that two texts share, what fits behind the first `n` characters of both is shared
there. -/
theorem min_le_sharedEnd_drop {v s t : Text} (hs : v <:+ s) (ht : v <:+ t) (n : Nat) :
    min v.length (min (s.length - n) (t.length - n)) ≤ sharedEnd (s.drop n) (t.drop n) := by
  generalize hm : min v.length (min (s.length - n) (t.length - n)) = m
  have hlength : (v.drop (v.length - m)).length = m := by
    rw [List.length_drop]
    omega
  have hend : v.drop (v.length - m) <:+ v := List.drop_suffix ..
  -- the last `m` characters of `v` are an end of both remainders
  rw [← hlength]
  refine length_le_sharedEnd ?_ ?_
  · refine List.suffix_of_suffix_length_le (hend.trans hs) (List.drop_suffix ..) ?_
    rw [hlength, List.length_drop]
    omega
  · refine List.suffix_of_suffix_length_le (hend.trans ht) (List.drop_suffix ..) ?_
    rw [hlength, List.length_drop]
    omega

/-- **Any replacement changes at least what is not shared.** -/
theorem changed_le {old new u d i v : Text} (hold : old = u ++ d ++ v) (hnew : new = u ++ i ++ v)
    {start stop : Nat} (hstart : start = sharedStart old new)
    (hstop : stop = sharedEnd (old.drop start) (new.drop start)) :
    old.length - start - stop ≤ d.length ∧ new.length - start - stop ≤ i.length := by
  have hfront : u.length ≤ start := by
    rw [hstart, hold, hnew, List.append_assoc, List.append_assoc]
    exact length_le_sharedStart (List.prefix_append ..) (List.prefix_append ..)
  have hback : min v.length (min (old.length - start) (new.length - start)) ≤ stop := by
    rw [hstop]
    refine min_le_sharedEnd_drop ?_ ?_ start
    · rw [hold]
      exact List.suffix_append ..
    · rw [hnew]
      exact List.suffix_append ..
  have hlength := congrArg List.length hold
  have hlength' := congrArg List.length hnew
  rw [List.length_append, List.length_append] at hlength hlength'
  -- if `v` does not fit behind the shared start, the shorter remainder is shared as a whole
  omega

end Text

/-- The runs of a change replace no more than any replacement at one place. -/
theorem Piece.exists_changing_least (old new : Text) :
    ∃ start d i stop, changing old new = [.retain start, .delete d, .insert i, .retain stop] ∧
      Text.Apart d i ∧ ∀ {u d' i' v : Text}, old = u ++ d' ++ v → new = u ++ i' ++ v →
        d.length ≤ d'.length ∧ i.length ≤ i'.length := by
  obtain ⟨start, d, i, stop, hchanging, hapart⟩ := exists_changing old new
  refine ⟨start, d, i, stop, hchanging, hapart, ?_⟩
  intro u d' i' v hold hnew
  have hleast := Text.changed_le hold hnew rfl rfl
  simp only [changing, List.cons.injEq, delete.injEq, insert.injEq] at hchanging
  obtain ⟨-, rfl, rfl, -⟩ := hchanging
  rw [List.length_take, List.length_take, List.length_drop, List.length_drop]
  omega

/-! ## One replacement -/

/-- The components replace `d` by `i` at one place and keep the rest. If they keep everything, both
texts are empty. -/
inductive ReplacesOnce : List Component → Text → Text → Prop
  | nowhere {cs : List Component} : cs.all Component.isRetain → ReplacesOnce cs [] []
  | here {cs : List Component} {d i : Text} :
    cs.all Component.isRetain → ReplacesOnce (.replace d i :: cs) d i
  | later {n : Nat} {cs : List Component} {d i : Text} :
    ReplacesOnce cs d i → ReplacesOnce (.retain n :: cs) d i

theorem all_isIdentity_of_all_isRetain {cs : List Component} (h : cs.all Component.isRetain) :
    cs.all Component.isIdentity := by
  refine List.all_eq_true.mpr fun c hc => ?_
  have hretain := List.all_eq_true.mp h c hc
  cases c with
  | retain n => rfl
  | replace d i => exact absurd hretain Bool.false_ne_true

namespace ReplacesOnce

variable {cs : List Component} {d i : Text}

/-- There is no other replacement. -/
theorem eq_of_mem (h : ReplacesOnce cs d i) {d' i' : Text} (hmem : .replace d' i' ∈ cs) :
    d' = d ∧ i' = i := by
  induction h with
  | nowhere hcs => exact absurd (List.all_eq_true.mp hcs _ hmem) Bool.false_ne_true
  | here hcs =>
    rcases List.mem_cons.mp hmem with heq | hmem
    · cases heq
      exact ⟨rfl, rfl⟩
    · exact absurd (List.all_eq_true.mp hcs _ hmem) Bool.false_ne_true
  | later _ ih =>
    rcases List.mem_cons.mp hmem with heq | hmem
    · cases heq
    · exact ih hmem

/-- A replacement by the same text changes nothing. -/
theorem all_isIdentity (h : ReplacesOnce cs d i) (hdi : d = i) : cs.all Component.isIdentity := by
  induction h with
  | nowhere hcs => exact all_isIdentity_of_all_isRetain hcs
  | here hcs =>
    rw [List.all_cons, all_isIdentity_of_all_isRetain hcs, Component.isIdentity, hdi,
      beq_self_eq_true]
    rfl
  | later _ ih => exact ih hdi

/-- The two texts are the same but for what is replaced. -/
theorem exists_around (h : ReplacesOnce cs d i) {s t : Text} (hst : Rewrites (pieces cs) s t) :
    ∃ u v, s = u ++ d ++ v ∧ t = u ++ i ++ v := by
  induction h generalizing s t with
  | nowhere hcs =>
    obtain rfl := hst.eq_of_all_isRetain hcs
    exact ⟨[], s, rfl, rfl⟩
  | @here cs d i hcs =>
    obtain ⟨s, t, rfl, rfl, hrest⟩ := (rewrites_pieces_replace d i cs).mp hst
    obtain rfl := hrest.eq_of_all_isRetain hcs
    exact ⟨[], s, rfl, rfl⟩
  | @later n cs d i _ ih =>
    obtain ⟨w, s, t, -, rfl, rfl, hrest⟩ :=
      rewrites_retain.mp ((rewrites_pieces_retain n cs).mp hst)
    obtain ⟨u, v, rfl, rfl⟩ := ih hrest
    exact ⟨w ++ u, v, by simp only [List.append_assoc], by simp only [List.append_assoc]⟩

theorem onto_retain (h : ReplacesOnce cs d i) (n : Nat) :
    ReplacesOnce ((Piece.retain n).onto cs) d i := by
  by_cases hn : n = 0
  · rw [Piece.onto_of_size_eq_zero (p := .retain n) hn]
    exact h
  · cases h with
    | nowhere hcs => exact .nowhere (all_onto_retain (fun _ => rfl) hcs n)
    | @here cs _ _ hcs =>
      have honto : (Piece.retain n).onto (.replace d i :: cs) = .retain n :: .replace d i :: cs :=
        if_neg hn
      rw [honto]
      exact .later (.here hcs)
    | @later m cs _ _ hrest =>
      have honto : (Piece.retain n).onto (.retain m :: cs) = .retain (n + m) :: cs := if_neg hn
      rw [honto]
      exact .later hrest

end ReplacesOnce

theorem replacesOnce_gather (start : Nat) (d i : Text) (stop : Nat) :
    ReplacesOnce (gather [.retain start, .delete d, .insert i, .retain stop]) d i := by
  have hkept : (gather [.retain stop]).all Component.isRetain :=
    all_isRetain_gather (List.forall_mem_singleton.mpr (Or.inr ⟨stop, rfl⟩))
  rw [gather_cons, gather_change]
  refine ReplacesOnce.onto_retain ?_ start
  split
  · next hnone =>
    rw [hnone.1, hnone.2]
    exact .nowhere hkept
  · exact .here hkept

namespace Operation

variable {op : Operation} {old new d i : Text}

/-- The operation without components leads from each text to itself. -/
theorem eq_of_isEmpty (h : op.isEmpty) (hop : op.apply old = .ok new) : old = new := by
  rw [apply_of_isEmpty h] at hop
  cases hop
  rfl

/-- An operation that only keeps characters changes nothing. -/
theorem eq_of_all_isRetain (h : op.components.all Component.isRetain)
    (hop : op.apply old = .ok new) : old = new := by
  by_cases hempty : op.isEmpty
  · exact eq_of_isEmpty hempty hop
  · exact ((apply_eq_ok_iff hempty).mp hop).eq_of_all_isRetain h

theorem exists_around (h : ReplacesOnce op.components d i) (hop : op.apply old = .ok new) :
    ∃ u v, old = u ++ d ++ v ∧ new = u ++ i ++ v := by
  by_cases hempty : op.isEmpty
  · obtain rfl := eq_of_isEmpty hempty hop
    rw [List.isEmpty_iff.mp hempty] at h
    cases h with
    | nowhere => exact ⟨[], old, rfl, rfl⟩
  · exact h.exists_around ((apply_eq_ok_iff hempty).mp hop)

/-- `op` turns `old` into `new` by replacing `d` with `i`, and no single replacement that does so
deletes less or inserts less. -/
structure Least (op : Operation) (old new d i : Text) : Prop where
  apply_eq : op.apply old = .ok new
  replacesOnce : ReplacesOnce op.components d i
  le_of_apply : ∀ (op' : Operation) {d' i' : Text}, ReplacesOnce op'.components d' i' →
    op'.apply old = .ok new → d.length ≤ d'.length ∧ i.length ≤ i'.length

/-- **The difference of two texts is the least replacement.** What it deletes and what it inserts
differ at both ends. -/
theorem exists_difference_least (hold : old.length < Word.bound) (hnew : new.length < Word.bound) :
    ∃ op d i, difference old new = .ok op ∧ op.Least old new d i ∧ Merged op.components ∧
      Text.Apart d i := by
  obtain ⟨start, d, i, stop, hchanging, hapart, hleast⟩ := Piece.exists_changing_least old new
  obtain ⟨op, hop, happly⟩ := exists_ofPieces_apply (rewrites_changing old new) hold hnew
  have hcomponents : op.components = gather (Piece.changing old new) :=
    components_of_ofComponents hop
  refine ⟨op, d, i, hop, ⟨happly, ?_, ?_⟩, ?_, hapart⟩
  · rw [hcomponents, hchanging]
    exact replacesOnce_gather start d i stop
  · intro op' d' i' honce happly'
    obtain ⟨u, v, hold', hnew'⟩ := exists_around honce happly'
    exact hleast hold' hnew'
  · rw [hcomponents]
    exact merged_gather _

/-- The least replacement of a text by itself vanishes. -/
theorem Least.normalize_eq_empty (h : op.Least old old d i) : op.normalize = empty := by
  -- the empty operation leads from the text to itself too, and it replaces nothing
  have hnone := h.le_of_apply empty (.nowhere rfl) (apply_empty old)
  have hd : d = [] := List.eq_nil_of_length_eq_zero (Nat.le_zero.mp hnone.1)
  have hi : i = [] := List.eq_nil_of_length_eq_zero (Nat.le_zero.mp hnone.2)
  exact normalize_of_isIdentity (h.replacesOnce.all_isIdentity (hd.trans hi.symm))

/-- One that changes something is in normal form already. -/
theorem Least.normalize_eq (h : op.Least old new d i) (hmerged : Merged op.components)
    (hapart : Text.Apart d i) (hne : old ≠ new) : op.normalize = op := by
  have hchanges : ¬ op.components.all Component.isRetain := fun hall =>
    hne (eq_of_all_isRetain hall h.apply_eq)
  have hnormal : NormalForm op.components := by
    refine ⟨hmerged, exists_replace_of_not_all hchanges, fun hmem => ?_⟩
    obtain ⟨rfl, rfl⟩ := h.replacesOnce.eq_of_mem hmem
    exact hapart
  refine ext ?_
  rw [components_normalize (by rw [hnormal.trimComponents_eq]; exact hchanges),
    hnormal.trimComponents_eq]

/-- A text that comes out of an operation has a 64-bit length if the one that goes in has. -/
theorem length_lt_of_apply (hold : old.length < Word.bound) (hop : op.apply old = .ok new) :
    new.length < Word.bound := by
  by_cases hempty : op.isEmpty
  · rw [← eq_of_isEmpty hempty hop]
    exact hold
  · rw [length_after_of_apply hempty hop]
    exact op.lenAfter_lt

end Operation

/-! ## A document takes every new text -/

/-- What a history weighs after trimming is within the policy's bound. -/
theorem History.Consistent.weight_trim_le {h : History} (hc : h.Consistent)
    (policy : Retention) : (h.trim policy).weight ≤ policy.maxWeight := by
  rw [(hc.trim policy).weight_eq, hc.entries_trim_eq_kept]
  exact (policy.allows_kept _).2

namespace Document

variable {past : Chronicle} {d d' : Document} {id : EditId} {text : Text}

theorem Run.length_text_lt (hrun : Run past d) : d.text.length < Word.bound := by
  induction hrun with
  | start => exact Operation.empty.lenAfter_lt
  | edit _ hedit ih =>
    obtain ⟨text, history, hop, -, rfl⟩ := edit_eq_ok.mp hedit
    exact Operation.length_lt_of_apply ih hop
  | withRetention policy _ ih => exact ih

/-- The history of a document is never heavier than its policy allows, since every call that adds to
it or changes the policy trims it. -/
theorem Run.weight_le (hrun : Run past d) : d.history.weight ≤ d.retention.maxWeight := by
  cases hrun with
  | start => exact Nat.zero_le _
  | edit hrun hedit =>
    obtain ⟨text, history, -, hrecord, rfl⟩ := edit_eq_ok.mp hedit
    exact (hrun.reached.record hrecord).consistent.weight_trim_le _
  | withRetention policy hrun => exact hrun.reached.consistent.weight_trim_le policy

/-- An edit by an operation that applies to the text fails only by its weight. -/
theorem Run.fault_of_edit (hrun : Run past d) {op : Operation} (hop : op.apply d.text = .ok text)
    {fault : Fault} (hedit : d.edit id op = .error fault) : fault = .overflow .add := by
  unfold Document.edit at hedit
  rw [hop, hrun.record_eq_push id hop] at hedit
  cases hpush : d.history.push ⟨id, op⟩ with
  | ok history =>
    rw [hpush] at hedit
    cases hedit
  | error fault' =>
    rw [hpush, History.fault_of_push hpush] at hedit
    cases hedit
    rfl

/-- A new text is what normalizing leaves of the difference, if it leaves anything. -/
theorem withText_eq {op : Operation} (h : Operation.difference d.text text = .ok op) :
    d.withText id text = if op.normalize.isEmpty then .ok d else d.edit id op.normalize := by
  unfold Document.withText
  rw [h]
  rfl

/-- **A new text is the edit by the difference, or none.** -/
theorem Run.withText_eq_edit (hrun : Run past d) (id : EditId) (htext : text.length < Word.bound) :
    ∃ op, Operation.difference d.text text = .ok op ∧ op.apply d.text = .ok text ∧
      d.withText id text = if d.text = text then .ok d else d.edit id op := by
  obtain ⟨op, deleted, inserted, hop, hleast, hmerged, hapart⟩ :=
    Operation.exists_difference_least hrun.length_text_lt htext
  refine ⟨op, hop, hleast.apply_eq, ?_⟩
  rw [withText_eq hop]
  by_cases hsame : d.text = text
  · rw [← hsame] at hleast
    rw [if_pos hsame, hleast.normalize_eq_empty]
    rfl
  · rw [if_neg hsame, hleast.normalize_eq hmerged hapart hsame, if_neg]
    exact fun hempty => hsame (Operation.eq_of_isEmpty hempty hleast.apply_eq)

/-- **A new text is set by the least replacement.** The difference of two texts leads from the one
to the other by one replacement or none, and no single replacement that does so, wherever it is
made, deletes less or inserts less. Any document that calls have made takes any new text. If it is
the text that it has, the document stays as it is. Otherwise this is an edit by the difference: the
text is then the new one and the timestamp is one higher. The one thing that can go wrong is that
the history becomes too heavy to weigh, and it weighs no more than the policy allows. -/
theorem new_text_by_least_replacement :
    (∀ old new : Text, old.length < Word.bound → new.length < Word.bound →
      ∃ op deleted inserted, Operation.difference old new = .ok op ∧
        op.Least old new deleted inserted) ∧
    ∀ (d : Document) (id : EditId) (text : Text), d.Made → text.length < Word.bound →
      (d.text = text → d.withText id text = .ok d) ∧
      (d.text ≠ text →
        (∃ op, Operation.difference d.text text = .ok op ∧ d.withText id text = d.edit id op) ∧
        (d.history.weight + max d.text.length text.length < Word.bound →
          ∃ d', d.withText id text = .ok d' ∧ d'.text = text ∧ d'.retention = d.retention ∧
            d'.history.timestamp = d.history.timestamp + 1)) ∧
      (∀ fault, d.withText id text = .error fault → fault = .overflow .add ∧
        Word.bound ≤ d.history.weight + max d.text.length text.length) ∧
      d.history.weight ≤ d.retention.maxWeight := by
  refine ⟨?_, ?_⟩
  · intro old new hold hnew
    obtain ⟨op, deleted, inserted, hop, hleast, -⟩ := Operation.exists_difference_least hold hnew
    exact ⟨op, deleted, inserted, hop, hleast⟩
  intro d id text hd htext
  obtain ⟨past, hrun⟩ := hd.exists_run
  obtain ⟨op, hop, happly, hwith⟩ := hrun.withText_eq_edit id htext
  have hsize := Operation.size_le_of_apply happly
  refine ⟨?_, ?_, ?_, hrun.weight_le⟩
  · intro hsame
    rw [hwith, if_pos hsame]
  · intro hne
    rw [if_neg hne] at hwith
    refine ⟨⟨op, hop, hwith⟩, fun hfit => ?_⟩
    rw [hwith]
    exact hrun.exists_edit id happly (by omega)
  · intro fault hfault
    by_cases hsame : d.text = text
    · rw [hwith, if_pos hsame] at hfault
      cases hfault
    · rw [hwith, if_neg hsame] at hfault
      refine ⟨hrun.fault_of_edit happly hfault, Nat.not_lt.mp fun hfit => ?_⟩
      obtain ⟨d', hedit, -⟩ := hrun.exists_edit id happly (by omega)
      rw [hedit] at hfault
      cases hfault

/-- Puts "ba" behind the first of three characters. -/
def repeating : Operation := ⟨[.retain 1, .replace [] ['b', 'a'], .retain 2], by decide, by decide⟩

/-- "aba" becomes "ababa" by an insertion behind its first character as well as by one at its end. A
document that has forgotten all changes takes a new text. -/
theorem new_text_by_least_replacement_repeating :
    repeating.apply ['a', 'b', 'a'] = .ok ['a', 'b', 'a', 'b', 'a'] ∧
      (∃ op, Operation.difference ['a', 'b', 'a'] ['a', 'b', 'a', 'b', 'a'] = .ok op ∧
        ∃ deleted inserted, ReplacesOnce op.components deleted inserted ∧
          deleted.length ≤ 0 ∧ inserted.length ≤ 2) ∧
      Forked.emptied.Made ∧
      ∃ d', Forked.emptied.withText ⟨3⟩ ['a', 'b', 'a'] = .ok d' ∧ d'.text = ['a', 'b', 'a'] ∧
        d'.history.timestamp = 3 := by
  have hrepeating : repeating.apply ['a', 'b', 'a'] = .ok ['a', 'b', 'a', 'b', 'a'] := rfl
  have hmade : Forked.emptied.Made :=
    .withRetention _ (.edit (.edit .empty Forked.edit_typed) Forked.edit_idle)
  obtain ⟨hleasts, htexts⟩ := new_text_by_least_replacement
  refine ⟨hrepeating, ?_, hmade, ?_⟩
  · obtain ⟨op, deleted, inserted, hop, hleast⟩ :=
      hleasts ['a', 'b', 'a'] ['a', 'b', 'a', 'b', 'a'] (by decide) (by decide)
    refine ⟨op, hop, deleted, inserted, hleast.replacesOnce, ?_⟩
    exact hleast.le_of_apply repeating (.later (.here rfl)) hrepeating
  · obtain ⟨-, hchange, -⟩ := htexts Forked.emptied ⟨3⟩ ['a', 'b', 'a'] hmade (by decide)
    obtain ⟨d', hwith, htext, -, htime⟩ := (hchange (by decide)).2 (by decide)
    exact ⟨d', hwith, htext, htime⟩

end Document

end Coedit
