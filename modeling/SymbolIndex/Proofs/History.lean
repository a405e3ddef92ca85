import Mathlib.Data.List.Induction

/-! Histories are lists of events, the newest last. What an event brought about stands as long as no
later event undoes it; one more event brings it about again, undoes it or lets it stand
(`since_concat`). -/

namespace SymbolIndex

variable {α : Type} {P : List α → α → Prop} {Q : α → Prop} {history : List α} {a : α}

/-- An event happened that `P` holds of, given what came before it, and `Q` holds of every event
since. -/
def Since (P : List α → α → Prop) (Q : α → Prop) (history : List α) : Prop :=
  ∃ before a later, history = before ++ a :: later ∧ P before a ∧ ∀ b ∈ later, Q b

theorem not_since_nil : ¬ Since P Q [] := by
  rintro ⟨before, a, later, h, -⟩
  exact absurd h (by simp)

theorem since_concat : Since P Q (history ++ [a]) ↔ P history a ∨ Q a ∧ Since P Q history := by
  constructor
  · rintro ⟨before, found, later, hsplit, hfound, hlater⟩
    rcases List.eq_nil_or_concat later with rfl | ⟨later, last, rfl⟩
    · obtain ⟨rfl, ha⟩ := List.append_inj' hsplit rfl
      obtain rfl := (List.cons.inj ha).1
      exact .inl hfound
    · rw [List.concat_eq_append, ← List.cons_append, ← List.append_assoc] at hsplit
      obtain ⟨hhistory, ha⟩ := List.append_inj' hsplit rfl
      obtain rfl := (List.cons.inj ha).1
      rw [List.concat_eq_append] at hlater
      exact .inr ⟨hlater a (by simp), before, found, later, hhistory, hfound,
        fun b hb => hlater b (List.mem_append_left _ hb)⟩
  · rintro (ha | ⟨ha, before, found, later, rfl, hfound, hlater⟩)
    · exact ⟨history, a, [], rfl, ha, fun _ hb => absurd hb List.not_mem_nil⟩
    · refine ⟨before, found, later ++ [a], by simp, hfound, fun b hb => ?_⟩
      rcases List.mem_append.mp hb with hb | hb
      · exact hlater b hb
      · rw [List.mem_singleton.mp hb]
        exact ha

/-- Events that bring nothing about can only undo. -/
theorem since_append {more : List α} (hmore : ∀ a ∈ more, ∀ before, ¬ P before a) :
    Since P Q (history ++ more) ↔ (∀ a ∈ more, Q a) ∧ Since P Q history := by
  induction more using List.reverseRecOn with
  | nil => simp
  | append_singleton more a ih =>
    rw [← List.append_assoc, since_concat, or_iff_right (hmore a (by simp) _),
      ih fun b hb => hmore b (List.mem_append_left _ hb), List.forall_mem_append,
      List.forall_mem_singleton, ← and_assoc, and_comm (a := Q a)]

end SymbolIndex
