import Mathlib.Logic.Function.Basic
import SymbolIndex.Proofs.Ownership

/-! Jobs that claim files side by side. A step is one access to the set of claimed files or one change
to a job's own list, and the calls of different jobs interleave between these. At every point each
claimed file belongs to exactly one job. So a request is granted unless another job has the file, and
no claim outlives the job that made it. -/

namespace SymbolIndex

/-- How far a job is with its claims. -/
inductive Claimant
  | idle (c : Claims)
  /-- The file is claimed, and not on the job's list yet. -/
  | granted (c : Claims) (p : Path)
  /-- The job gives up its files, of which these are left. -/
  | dropping (left : List Path)

namespace Claimant

/-- The files that are claimed for the job. -/
def files : Claimant → Claims
  | idle c => c
  | granted c p => ⟨c.paths ++ [p]⟩
  | dropping left => ⟨left⟩

end Claimant

inductive SharingEvent
  | opened (job : Nat)
  /-- A request for a file, with the answer that the job gets. -/
  | asked (job : Nat) (p : Path) (won : Bool)
  | listed (job : Nat)
  | closing (job : Nat)
  | released (job : Nat) (p : Path)
  | closed (job : Nat)

/-- The set of claimed files, and the jobs that there are. -/
structure Sharing where
  claimed : Ownership := ∅
  job : Nat → Option Claimant := fun _ => none

namespace Sharing

def put (s : Sharing) (i : Nat) (claimed : Ownership) (w : Option Claimant) : Sharing :=
  ⟨claimed, Function.update s.job i w⟩

def holds (s : Sharing) (i : Nat) (p : Path) : Bool := (s.job i).any (·.files.holds p)

/-- A request is answered in the critical section of the set. A job that has the file is answered from
its list, which no other job changes. -/
inductive Step (s : Sharing) : SharingEvent → Sharing → Prop
  | opened {i : Nat} (h : s.job i = none) :
      Step s (.opened i) (s.put i s.claimed (some (.idle {})))
  | again {i : Nat} {c : Claims} {p : Path} (h : s.job i = some (.idle c))
      (hp : c.holds p = true) : Step s (.asked i p true) s
  | granted {i : Nat} {c : Claims} {p : Path} {o : Ownership} (h : s.job i = some (.idle c))
      (hp : c.holds p = false) (ho : s.claimed.claim p = (o, true)) :
      Step s (.asked i p true) (s.put i o (some (.granted c p)))
  | refused {i : Nat} {c : Claims} {p : Path} {o : Ownership} (h : s.job i = some (.idle c))
      (hp : c.holds p = false) (ho : s.claimed.claim p = (o, false)) :
      Step s (.asked i p false) { s with claimed := o }
  | listed {i : Nat} {c : Claims} {p : Path} (h : s.job i = some (.granted c p)) :
      Step s (.listed i) (s.put i s.claimed (some (.idle ⟨c.paths ++ [p]⟩)))
  | closing {i : Nat} {c : Claims} (h : s.job i = some (.idle c)) :
      Step s (.closing i) (s.put i s.claimed (some (.dropping c.paths)))
  | released {i : Nat} {p : Path} {left : List Path}
      (h : s.job i = some (.dropping (p :: left))) :
      Step s (.released i p) (s.put i (s.claimed.release p) (some (.dropping left)))
  | closed {i : Nat} (h : s.job i = some (.dropping [])) :
      Step s (.closed i) (s.put i s.claimed none)

inductive Run : Sharing → List SharingEvent → Sharing → Prop
  | done (s : Sharing) : Run s [] s
  | step {s t u : Sharing} {event : SharingEvent} {events : List SharingEvent}
      (hs : Step s event t) (h : Run t events u) : Run s (event :: events) u

inductive Reachable : Sharing → Prop
  | start : Reachable {}
  | step {s t : Sharing} {event : SharingEvent} (h : Reachable s) (hs : Step s event t) :
      Reachable t

section Holds

variable {s : Sharing} {i j : Nat} {w : Claimant} {p q : Path}

theorem job_put_self (s : Sharing) (i : Nat) (o : Ownership) (w : Option Claimant) :
    (s.put i o w).job i = w := by
  simp [put]

theorem job_put_of_ne (h : j ≠ i) (s : Sharing) (o : Ownership) (w : Option Claimant) :
    (s.put i o w).job j = s.job j := by
  simp [put, h]

theorem holds_of_job (h : s.job i = some w) (p : Path) : s.holds i p = w.files.holds p := by
  rw [holds, h, Option.any_some]

theorem holds_put_self (s : Sharing) (i : Nat) (o : Ownership) (w : Option Claimant) (q : Path) :
    (s.put i o w).holds i q = w.any (·.files.holds q) := by
  rw [holds, job_put_self]

theorem holds_put_of_ne (h : j ≠ i) (s : Sharing) (o : Ownership) (w : Option Claimant) (q : Path) :
    (s.put i o w).holds j q = s.holds j q := by
  rw [holds, job_put_of_ne h, holds]

theorem holds_congr (h : p.same q = true) (s : Sharing) (i : Nat) : s.holds i p = s.holds i q := by
  rw [holds, holds]
  exact congrArg (s.job i).any (funext fun w => Claims.holds_congr h w.files)

end Holds

/-- No two of the files are one. -/
def Distinct (c : Claims) : Prop := c.paths.Pairwise fun p q => p.same q = false

/-- Each claimed file belongs to one job and is on its list once. -/
structure Exclusive (s : Sharing) : Prop where
  union : ∀ q, s.claimed.contains q = true ↔ ∃ i, s.holds i q = true
  apart : ∀ i j q, s.holds i q = true → s.holds j q = true → i = j
  once : ∀ i w, s.job i = some w → Distinct w.files

theorem exclusive_empty : Exclusive {} where
  union q := by simp [holds, Ownership.contains_empty]
  apart i j q h := by simp [holds] at h
  once i w h := by cases h

namespace Exclusive

variable {s t : Sharing} {event : SharingEvent} {i j : Nat} {c : Claims} {p q : Path}

theorem once_put (h : s.Exclusive) {w : Option Claimant} (hw : ∀ v, w = some v → Distinct v.files)
    (o : Ownership) (j : Nat) (v : Claimant) (hv : (s.put i o w).job j = some v) :
    Distinct v.files := by
  by_cases hj : j = i
  · rw [hj, job_put_self] at hv
    exact hw v hv
  · rw [job_put_of_ne hj] at hv
    exact h.once j v hv

theorem keep (h : s.Exclusive) {w : Option Claimant}
    (hholds : ∀ q, w.any (·.files.holds q) = s.holds i q)
    (hw : ∀ v, w = some v → Distinct v.files) : (s.put i s.claimed w).Exclusive := by
  have hsame : ∀ j q, (s.put i s.claimed w).holds j q = s.holds j q := by
    intro j q
    by_cases hj : j = i
    · rw [hj, holds_put_self, hholds]
    · exact holds_put_of_ne hj s _ w q
  refine ⟨fun q => ?_, fun j k q hj hk => ?_, h.once_put hw _⟩
  · simp only [hsame]
    exact h.union q
  · rw [hsame] at hj hk
    exact h.apart j k q hj hk

theorem not_claimed (h : s.Exclusive) :
    s.claimed.contains p = false ↔ ∀ j, s.holds j p = false := by
  have hunion := h.union p
  constructor
  · intro hfree j
    rw [Bool.eq_false_iff]
    intro hj
    rw [hunion.mpr ⟨j, hj⟩] at hfree
    cases hfree
  · intro hnone
    rw [Bool.eq_false_iff]
    intro hp
    obtain ⟨j, hj⟩ := hunion.mp hp
    rw [hnone j] at hj
    cases hj

/-- A step that concerns one file leaves all others as they are. -/
theorem of_touched (h : s.Exclusive)
    (hclaimed : ∀ q, p.same q = false → t.claimed.contains q = s.claimed.contains q)
    (hholds : ∀ j q, p.same q = false → t.holds j q = s.holds j q)
    (hunion : t.claimed.contains p = true ↔ ∃ j, t.holds j p = true)
    (hapart : ∀ j k, t.holds j p = true → t.holds k p = true → j = k)
    (honce : ∀ j w, t.job j = some w → Distinct w.files) : t.Exclusive := by
  refine ⟨fun q => ?_, fun j k q hj hk => ?_, honce⟩
  · cases hpq : p.same q with
    | true =>
      rw [← Ownership.contains_congr hpq]
      simp only [← holds_congr hpq]
      exact hunion
    | false =>
      rw [hclaimed q hpq]
      simp only [hholds _ q hpq]
      exact h.union q
  · cases hpq : p.same q with
    | true =>
      rw [← holds_congr hpq] at hj hk
      exact hapart j k hj hk
    | false =>
      rw [hholds _ q hpq] at hj hk
      exact h.apart j k q hj hk

theorem gain (h : s.Exclusive) (hi : s.job i = some (.idle c)) (hp : s.claimed.contains p = false) :
    (s.put i (OrderedSet.insert s.claimed p) (some (.granted c p))).Exclusive := by
  have hnone := h.not_claimed.mp hp
  have hself : ∀ q, (s.put i (OrderedSet.insert s.claimed p) (some (.granted c p))).holds i q =
      (s.holds i q || p.same q) := by
    intro q
    rw [holds_put_self, holds_of_job hi, Option.any_some]
    exact Claims.holds_append c p q
  have honly : ∀ j, (s.put i (OrderedSet.insert s.claimed p) (some (.granted c p))).holds j p =
      true → j = i := by
    intro j hj
    by_contra hne
    rw [holds_put_of_ne hne, hnone j] at hj
    cases hj
  have hclaimed : ∀ q, (s.put i (OrderedSet.insert s.claimed p) (some (.granted c p))).claimed.contains
      q = (s.claimed.contains q || p.same q) := Ownership.contains_insert s.claimed p
  refine h.of_touched (p := p) (fun q hq => ?_) (fun j q hq => ?_) ⟨fun _ => ⟨i, ?_⟩, fun _ => ?_⟩
    (fun j k hj hk => (honly j hj).trans (honly k hk).symm) (h.once_put ?_ _)
  · rw [hclaimed, hq, Bool.or_false]
  · by_cases hj : j = i
    · rw [hj, hself, hq, Bool.or_false]
    · exact holds_put_of_ne hj s _ _ q
  · rw [hself, Path.same_self, Bool.or_true]
  · rw [hclaimed, Path.same_self, Bool.or_true]
  · rintro v ⟨⟩
    have hfree : c.holds p = false := (holds_of_job hi p).symm.trans (hnone i)
    refine List.pairwise_append.mpr ⟨h.once i _ hi, List.pairwise_singleton _ _, fun q hq r hr => ?_⟩
    rw [List.mem_singleton.mp hr]
    exact Bool.eq_false_iff.mpr (List.any_eq_false.mp hfree q hq)

theorem lose (h : s.Exclusive) {left : List Path} (hi : s.job i = some (.dropping (p :: left))) :
    (s.put i (s.claimed.release p) (some (.dropping left))).Exclusive := by
  obtain ⟨hfirst, hleft⟩ := List.pairwise_cons.mp (h.once i _ hi)
  have hheld : ∀ q, s.holds i q = (p.same q || Claims.holds ⟨left⟩ q) := holds_of_job hi
  have hnone : ∀ j, (s.put i (s.claimed.release p) (some (.dropping left))).holds j p = false := by
    intro j
    by_cases hj : j = i
    · rw [hj, holds_put_self, Option.any_some]
      refine List.any_eq_false.mpr fun q hq hs => ?_
      rw [Path.same_comm, hfirst q hq] at hs
      cases hs
    · rw [holds_put_of_ne hj, Bool.eq_false_iff]
      intro hp
      exact hj (h.apart j i p hp (by rw [hheld, Path.same_self, Bool.true_or]))
  have hclaimed : ∀ q, (s.put i (s.claimed.release p) (some (.dropping left))).claimed.contains q =
      (s.claimed.contains q && !p.same q) := Ownership.contains_release s.claimed p
  refine h.of_touched (p := p) (fun q hq => ?_) (fun j q hq => ?_) ⟨fun hp => ?_, fun ⟨j, hj⟩ => ?_⟩
    (fun j k hj _ => ?_) (h.once_put ?_ _)
  · rw [hclaimed, hq, Bool.not_false, Bool.and_true]
  · by_cases hj : j = i
    · rw [hj, holds_put_self, hheld, hq, Bool.false_or]
      rfl
    · exact holds_put_of_ne hj s _ _ q
  · rw [hclaimed, Path.same_self, Bool.not_true, Bool.and_false] at hp
    cases hp
  · rw [hnone j] at hj
    cases hj
  · rw [hnone j] at hj
    cases hj
  · rintro v ⟨⟩
    exact hleft

theorem step (h : s.Exclusive) (hs : Step s event t) : t.Exclusive := by
  cases hs with
  | @opened i hi =>
    refine h.keep (fun q => ?_) ?_
    · rw [holds, hi]
      rfl
    · rintro v ⟨⟩
      exact .nil
  | again => exact h
  | @granted i c p o hi hp ho =>
    cases hfree : s.claimed.contains p with
    | true =>
      rw [Ownership.claim_taken hfree] at ho
      cases ho
    | false =>
      rw [Ownership.claim_free hfree] at ho
      obtain ⟨rfl, -⟩ := Prod.mk.inj ho
      exact h.gain hi hfree
  | @refused i c p o hi hp ho =>
    cases hfree : s.claimed.contains p with
    | true =>
      rw [Ownership.claim_taken hfree] at ho
      obtain ⟨rfl, -⟩ := Prod.mk.inj ho
      exact h
    | false =>
      rw [Ownership.claim_free hfree] at ho
      cases ho
  | @listed i c p hi =>
    refine h.keep (fun q => (holds_of_job hi q).symm) ?_
    rintro v ⟨⟩
    exact h.once i (.granted c p) hi
  | @closing i c hi =>
    refine h.keep (fun q => (holds_of_job hi q).symm) ?_
    rintro v ⟨⟩
    exact h.once i (.idle c) hi
  | released hi => exact h.lose hi
  | @closed i hi =>
    refine h.keep (fun q => (holds_of_job hi q).symm) ?_
    rintro v ⟨⟩

end Exclusive

theorem Reachable.exclusive {s : Sharing} (h : Reachable s) : s.Exclusive := by
  induction h with
  | start => exact exclusive_empty
  | step _ hs ih => exact ih.step hs

theorem Reachable.run {s t : Sharing} {events : List SharingEvent} (h : Reachable s)
    (hr : Run s events t) : Reachable t := by
  induction hr with
  | done s => exact h
  | step hs _ ih => exact ih (h.step hs)

section Calls

/-! A call that no other job interrupts. -/

variable {s : Sharing} {i : Nat} {c : Claims}

theorem put_job {w : Option Claimant} (h : s.job i = w) : s.put i s.claimed w = s := by
  rw [put, ← h, Function.update_eq_self]

theorem put_put (s : Sharing) (i : Nat) (o o' : Ownership) (w w' : Option Claimant) :
    (s.put i o w).put i o' w' = s.put i o' w' := by
  simp [put]

theorem run_claim (h : s.job i = some (.idle c)) (p : Path) :
    ∃ rest, (rest = [] ∨ rest = [.listed i]) ∧
      Run s (.asked i p (Claims.claim s.claimed c p).2.2 :: rest)
        (s.put i (Claims.claim s.claimed c p).1 (some (.idle (Claims.claim s.claimed c p).2.1))) := by
  rw [Claims.claim]
  cases hp : c.holds p with
  | true =>
    rw [if_pos rfl, put_job h]
    exact ⟨[], .inl rfl, .step (.again h hp) (.done s)⟩
  | false =>
    rw [if_neg (by simp)]
    cases hfree : s.claimed.contains p with
    | true =>
      have ho := Ownership.claim_taken hfree
      rw [ho]
      dsimp only
      rw [put_job h]
      exact ⟨[], .inl rfl, .step (.refused h hp ho) (.done s)⟩
    | false =>
      have ho := Ownership.claim_free hfree
      rw [ho]
      have hlisted := Step.listed (s := s.put i (OrderedSet.insert s.claimed p) (some (.granted c p)))
        (job_put_self s i _ _)
      rw [put_put] at hlisted
      exact ⟨[.listed i], .inr rfl, .step (.granted h hp ho) (.step hlisted (.done _))⟩

theorem run_release {left : List Path} (h : s.job i = some (.dropping left)) :
    Run s (left.map (.released i) ++ [.closed i])
      (s.put i (left.foldl Ownership.release s.claimed) none) := by
  induction left generalizing s with
  | nil => exact .step (.closed h) (.done _)
  | cons p left ih =>
    have hrest := ih (job_put_self s i (s.claimed.release p) (some (.dropping left)))
    rw [put_put] at hrest
    exact .step (.released h) hrest

theorem run_drop (h : s.job i = some (.idle c)) :
    Run s (.closing i :: c.paths.map (.released i) ++ [.closed i])
      (s.put i (c.drop s.claimed) none) := by
  have hrest := run_release (job_put_self s i s.claimed (some (.dropping c.paths)))
  rw [put_put] at hrest
  exact .step (.closing h) hrest

end Calls

section Answers

variable {s t : Sharing} {i j : Nat} {c : Claims} {p q : Path} {won : Bool}
  {events : List SharingEvent} {event : SharingEvent}

theorem asked_iff_free (h : s.job i = some (.idle c)) :
    (∃ t, Step s (.asked i p won) t) ↔ won = (c.holds p || !s.claimed.contains p) := by
  have hjob : ∀ c', s.job i = some (.idle c') → c' = c := fun c' hc' =>
    Claimant.idle.inj (Option.some.inj (hc'.symm.trans h))
  constructor
  · rintro ⟨t, hs⟩
    cases hs with
    | again hi hp => rw [← hjob _ hi, hp, Bool.true_or]
    | granted hi hp ho =>
      cases hfree : s.claimed.contains p with
      | true =>
        rw [Ownership.claim_taken hfree] at ho
        cases ho
      | false => rw [Bool.not_false, Bool.or_true]
    | refused hi hp ho =>
      cases hfree : s.claimed.contains p with
      | true => rw [← hjob _ hi, hp, Bool.not_true, Bool.or_false]
      | false =>
        rw [Ownership.claim_free hfree] at ho
        cases ho
  · rintro rfl
    cases hp : c.holds p with
    | true => exact ⟨s, .again h hp⟩
    | false =>
      cases hfree : s.claimed.contains p with
      | true => exact ⟨_, .refused h hp (Ownership.claim_taken hfree)⟩
      | false => exact ⟨_, .granted h hp (Ownership.claim_free hfree)⟩

theorem Exclusive.asked_iff (h : s.Exclusive) (hi : s.job i = some (.idle c)) :
    (∃ t, Step s (.asked i p won) t) ↔
      (won = true ↔ ∀ j, j ≠ i → s.holds j p = false) := by
  have hfree : (c.holds p || !s.claimed.contains p) = true ↔
      ∀ j, j ≠ i → s.holds j p = false := by
    rw [Bool.or_eq_true, Bool.not_eq_true', h.not_claimed]
    have hmine : s.holds i p = c.holds p := holds_of_job hi p
    constructor
    · rintro (hp | hnone) j hj
      · rw [Bool.eq_false_iff]
        exact fun hother => hj (h.apart j i p hother (hmine.trans hp))
      · exact hnone j
    · intro hothers
      cases hp : c.holds p with
      | true => exact .inl rfl
      | false =>
        refine .inr fun j => ?_
        by_cases hj : j = i
        · rw [hj, hmine, hp]
        · exact hothers j hj
  rw [asked_iff_free hi, ← hfree]
  exact Bool.eq_iff_iff

/-- A job that has a file after a step had it before, unless it was granted it. -/
theorem Step.holds_or_granted (hs : Step s event t) (h : t.holds j q = true) :
    s.holds j q = true ∨ ∃ p, event = .asked j p true ∧ p.same q = true := by
  -- Only the job that takes the step can have other files after it.
  have hput : ∀ {i o w}, t = s.put i o w →
      (w.any (·.files.holds q) = true → s.holds i q = true) → s.holds j q = true := by
    rintro i o w rfl hw
    by_cases hj : j = i
    · rw [hj, holds_put_self] at h
      rw [hj]
      exact hw h
    · rwa [holds_put_of_ne hj] at h
  cases hs with
  | opened hi => exact .inl (hput rfl fun hw => by cases hw)
  | again => exact .inl h
  | @granted i c p o hi hp ho =>
    cases hpq : p.same q with
    | false =>
      refine .inl (hput rfl fun hw => ?_)
      rw [Option.any_some, Claimant.files, Claims.holds_append, hpq, Bool.or_false] at hw
      rwa [holds_of_job hi]
    | true =>
      by_cases hj : j = i
      · exact .inr ⟨p, by rw [hj], hpq⟩
      · rw [holds_put_of_ne hj] at h
        exact .inl h
  | refused => exact .inl h
  | listed hi => exact .inl (hput rfl fun hw => (holds_of_job hi q).trans hw)
  | closing hi => exact .inl (hput rfl fun hw => (holds_of_job hi q).trans hw)
  | @released i p left hi =>
    refine .inl (hput rfl fun hw => ?_)
    rw [holds_of_job hi]
    exact Bool.or_eq_true_iff.mpr (.inr hw)
  | closed hi => exact .inl (hput rfl fun hw => by cases hw)

theorem Run.only (hr : Run s events t) (h : ∀ j, s.holds j q = true → j = i)
    (hgrants : ∀ j p, .asked j p true ∈ events → p.same q = true → j = i) :
    ∀ j, t.holds j q = true → j = i := by
  induction hr with
  | done s => exact h
  | step hs _ ih =>
    refine ih (fun j hj => ?_) fun j p hm => hgrants j p (List.mem_cons_of_mem _ hm)
    rcases hs.holds_or_granted hj with hold | ⟨p, rfl, hpq⟩
    · exact h j hold
    · exact hgrants j p List.mem_cons_self hpq

theorem Exclusive.only (h : s.Exclusive) (hi : s.holds i q = true) :
    ∀ j, s.holds j q = true → j = i :=
  fun j hj => h.apart j i q hj hi

theorem Exclusive.released (h : s.Exclusive) (hs : Step s (.released i p) t) :
    s.holds i p = true ∧ (∀ j, j ≠ i → s.holds j p = false) ∧
      ∀ q, t.claimed.contains q = (s.claimed.contains q && !p.same q) := by
  cases hs with
  | @released i p left hi =>
    have hp : s.holds i p = true := by
      rw [holds_of_job hi, Claimant.files, Claims.holds, List.any_cons, Path.same_self,
        Bool.true_or]
    refine ⟨hp, fun j hj => ?_, Ownership.contains_release s.claimed p⟩
    exact Bool.eq_false_iff.mpr fun hother => hj (h.only hp j hother)

theorem Exclusive.isEmpty (h : s.Exclusive) (hnone : ∀ i, s.job i = none) :
    s.claimed.isEmpty = true := by
  refine OrderedSet.isEmpty_iff.mpr fun q hq => ?_
  obtain ⟨i, hi⟩ := (h.union q).mp hq
  rw [holds, hnone i] at hi
  cases hi

end Answers

/-- At every point of every run, the set of claimed files is that of the files of the jobs, no file is
claimed for two jobs or twice for one, and a request is granted exactly if no other job has the file.
A call that is not interrupted does to the set and to the list what `Claims.claim` and `Claims.drop` do.
A file is given up by the job that has it. Once the job is gone, the next request for it is granted,
and without jobs nothing is claimed. -/
theorem Reachable.claims_exclusive {s : Sharing} (h : Reachable s) :
    s.Exclusive ∧
    (∀ i c, s.job i = some (.idle c) →
      (∀ p won, (∃ t, Step s (.asked i p won) t) ↔
        (won = true ↔ ∀ j, j ≠ i → s.holds j p = false)) ∧
      (∀ p, ∃ rest, (rest = [] ∨ rest = [.listed i]) ∧
        Run s (.asked i p (Claims.claim s.claimed c p).2.2 :: rest) (s.put i
          (Claims.claim s.claimed c p).1 (some (.idle (Claims.claim s.claimed c p).2.1)))) ∧
      (Run s (.closing i :: c.paths.map (.released i) ++ [.closed i])
          (s.put i (c.drop s.claimed) none) ∧
        ∀ q, (c.drop s.claimed).contains q = (s.claimed.contains q && !c.holds q)) ∧
      ∀ events t q, Run s events t → t.job i = none → c.holds q = true →
        (∀ j p, .asked j p true ∈ events → p.same q = true → j = i) →
        ∀ j c' won, t.job j = some (.idle c') →
          ((∃ u, Step t (.asked j q won) u) ↔ won = true)) ∧
    (∀ i p t, Step s (.released i p) t → s.holds i p = true ∧
      (∀ j, j ≠ i → s.holds j p = false) ∧
      ∀ q, t.claimed.contains q = (s.claimed.contains q && !p.same q)) ∧
    ((∀ i, s.job i = none) → s.claimed.isEmpty = true) := by
  have hs := h.exclusive
  refine ⟨hs, fun i c hi => ⟨fun p won => hs.asked_iff hi, fun p => run_claim hi p,
    ⟨run_drop hi, Claims.contains_drop c s.claimed⟩, ?_⟩, fun i p t => hs.released, hs.isEmpty⟩
  intro events t q hr hgone hq hgrants j c' won hj
  have ht := (h.run hr).exclusive
  have honly := hr.only (hs.only ((holds_of_job hi q).trans hq)) hgrants
  -- Only the job that is gone could have the file.
  have hnone : ∀ k, t.holds k q = false := by
    intro k
    rw [Bool.eq_false_iff]
    intro hk
    rw [honly k hk, holds, hgone] at hk
    cases hk
  rw [ht.asked_iff hj]
  exact iff_true_right fun k _ => hnone k

/-- Two jobs meet at a header: the second gets it once the first is gone. -/
theorem claims_exclusive_handed_on :
    let a : Path := ⟨"/w/a.h"⟩
    ∃ s t events, Reachable s ∧ s.job 0 = some (.idle ⟨[a]⟩) ∧ s.job 1 = some (.idle {}) ∧
      s.claimed.contains a = true ∧ (∃ u, Step s (.asked 1 a false) u) ∧
      Run s events t ∧ t.job 0 = none ∧ (∃ u, Step t (.asked 1 a true) u) := by
  intro a
  have h₁ := Reachable.start.step (.opened (i := 0) rfl)
  have h₂ := h₁.step (.granted (p := a) (job_put_self _ 0 _ _) rfl rfl)
  have h₃ := h₂.step (.listed (job_put_self _ 0 _ _))
  have h₄ := h₃.step (.opened (i := 1) rfl)
  obtain ⟨hs, hjobs, -, -⟩ := h₄.claims_exclusive
  obtain ⟨-, -, ⟨hdrop, -⟩, hnext⟩ := hjobs 0 ⟨[a]⟩ rfl
  obtain ⟨hanswers, -⟩ := hjobs 1 {} rfl
  refine ⟨_, _, _, h₄, rfl, rfl, (hs.union a).mpr ⟨0, by decide +kernel⟩, ?_, hdrop, rfl, ?_⟩
  · refine (hanswers a false).mpr (iff_of_false Bool.false_ne_true fun hnone => ?_)
    exact absurd (hnone 0 (by decide)) (by decide +kernel)
  · refine (hnext _ _ a hdrop rfl (by decide +kernel) ?_ 1 {} true rfl).mpr rfl
    intro j p hm _
    simp at hm

end Sharing

end SymbolIndex
