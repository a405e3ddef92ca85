import SymbolIndex.Ownership
import SymbolIndex.Proofs.Path

/-! The claims of a job. It gets the files that no other job holds, and once its claims are dropped the
files are as they were; a job that is the only one gets every file it asks for. -/

namespace SymbolIndex

namespace Ownership

variable {o : Ownership} {p q : Path}

theorem contains_congr (h : p.same q = true) (o : Ownership) : o.contains p = o.contains q :=
  Bool.eq_iff_iff.mpr (OrderedSet.mem_congr (s := o) (Path.compare_eq_iff.mpr h))

theorem contains_empty (p : Path) : (∅ : Ownership).contains p = false :=
  Bool.eq_false_iff.mpr (OrderedSet.not_mem_empty p)

theorem contains_insert (o : Ownership) (p q : Path) :
    (OrderedSet.insert o p).contains q = (o.contains q || p.same q) := by
  have hm := OrderedSet.mem_insert (s := o) (a := p) (b := q)
  rw [Path.compare_eq_iff, Path.same_comm] at hm
  rw [Bool.eq_iff_iff, Bool.or_eq_true]
  exact hm.trans or_comm

theorem contains_release (o : Ownership) (p q : Path) :
    (o.release p).contains q = (o.contains q && !p.same q) := by
  have hm := OrderedSet.mem_erase (s := o) (a := p) (b := q)
  rw [Ne, Path.compare_eq_iff] at hm
  rw [Bool.eq_iff_iff, Bool.and_eq_true, Bool.not_eq_true', Bool.eq_false_iff]
  exact hm.trans and_comm

theorem claim_free (h : o.contains p = false) : o.claim p = (o.insert p, true) := by
  rw [claim, h]
  rfl

theorem claim_taken (h : o.contains p = true) : o.claim p = (o, false) := by
  rw [claim, h]
  rfl

end Ownership

namespace Claims

/-- Every file that is claimed is claimed by this job. -/
def Covers (c : Claims) (o : Ownership) : Prop := ∀ q, o.contains q = true → c.holds q = true

variable {c : Claims} {o : Ownership}

theorem holds_append (c : Claims) (p q : Path) :
    holds ⟨c.paths ++ [p]⟩ q = (c.holds q || p.same q) := by
  simp [holds, List.any_append]

theorem holds_congr {p q : Path} (h : p.same q = true) (c : Claims) : c.holds p = c.holds q := by
  rw [holds, holds]
  exact congrArg c.paths.any (funext (Path.same_congr_right h))

theorem covers_of_unclaimed (h : ∀ q, o.contains q = false) (c : Claims) : c.Covers o := by
  intro q hq
  rw [h] at hq
  cases hq

theorem Covers.claim (h : c.Covers o) (p : Path) :
    (Claims.claim o c p).2.2 = true ∧ (Claims.claim o c p).2.1.Covers (Claims.claim o c p).1 := by
  rw [Claims.claim]
  by_cases hp : c.holds p = true
  · rw [if_pos hp]
    exact ⟨rfl, h⟩
  · have hfree : o.contains p = false := Bool.eq_false_iff.mpr fun ho => hp (h p ho)
    rw [if_neg hp, Ownership.claim_free hfree]
    refine ⟨rfl, fun q hq => ?_⟩
    change holds ⟨c.paths ++ [p]⟩ q = true
    rw [Ownership.contains_insert, Bool.or_eq_true] at hq
    rw [holds_append, Bool.or_eq_true]
    exact hq.imp_left (h q)

theorem contains_drop (c : Claims) (o : Ownership) (q : Path) :
    (c.drop o).contains q = (o.contains q && !c.holds q) := by
  obtain ⟨paths⟩ := c
  change (paths.foldl Ownership.release o).contains q = (o.contains q && !paths.any (·.same q))
  induction paths generalizing o with
  | nil => simp
  | cons p rest ih =>
    rw [List.foldl_cons, ih, Ownership.contains_release, List.any_cons, Bool.not_or,
      Bool.and_assoc]

theorem Covers.drop (h : c.Covers o) (q : Path) : (c.drop o).contains q = false := by
  rw [contains_drop]
  cases hq : o.contains q with
  | false => rfl
  | true => rw [h q hq]; rfl

/-- The claims of a job that came to those of others. -/
structure Atop (c : Claims) (others o : Ownership) : Prop where
  contains : ∀ q, o.contains q = (others.contains q || c.holds q)
  apart : ∀ q, others.contains q = true → c.holds q = false

theorem atop_none (o : Ownership) : Atop {} o o := ⟨fun q => by simp [holds], fun _ _ => rfl⟩

/-- A job gets exactly the files that no other holds. -/
theorem Atop.claim {others : Ownership} (h : c.Atop others o) (p : Path) :
    (Claims.claim o c p).2.2 = !others.contains p ∧
      (Claims.claim o c p).2.1.Atop others (Claims.claim o c p).1 := by
  rw [Claims.claim]
  by_cases hp : c.holds p = true
  · have hfree : others.contains p = false := by
      rw [Bool.eq_false_iff]
      intro ho
      rw [h.apart p ho] at hp
      cases hp
    rw [if_pos hp, hfree]
    exact ⟨rfl, h⟩
  · have ho : o.contains p = others.contains p := by simp [h.contains, hp]
    cases hother : others.contains p with
    | true =>
      rw [if_neg hp, Ownership.claim_taken (ho.trans hother)]
      exact ⟨rfl, h⟩
    | false =>
      rw [if_neg hp, Ownership.claim_free (ho.trans hother)]
      refine ⟨rfl, fun q => ?_, fun q hq => ?_⟩
      · change (OrderedSet.insert o p).contains q = (others.contains q || holds ⟨c.paths ++ [p]⟩ q)
        rw [Ownership.contains_insert, h.contains, holds_append, Bool.or_assoc]
      · have hne : p.same q = false := by
          rw [Bool.eq_false_iff]
          intro hs
          rw [Ownership.contains_congr hs, hq] at hother
          cases hother
        change holds ⟨c.paths ++ [p]⟩ q = false
        rw [holds_append, h.apart q hq, hne]
        rfl

/-- Once a job gives up its claims, the files are claimed that were claimed before. -/
theorem Atop.contains_drop {others : Ownership} (h : c.Atop others o) (q : Path) :
    (c.drop o).contains q = others.contains q := by
  rw [Claims.contains_drop, h.contains]
  cases hq : others.contains q with
  | true => rw [h.apart q hq]; rfl
  | false => cases c.holds q <;> rfl

end Claims

end SymbolIndex
