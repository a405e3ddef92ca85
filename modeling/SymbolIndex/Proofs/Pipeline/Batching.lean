import SymbolIndex.Proofs.Pipeline.Orderly

/-! The merger in batches. Applying changes does not read what is known about jobs and files, and the
bookkeeping does not read the database; neither reads what waits. So the changes of later messages may
go before the bookkeeping for earlier ones, and how the messages are cut into batches does not show. -/

namespace SymbolIndex

namespace Pipeline

variable {σ : Type}

/-- The database of the first pipeline and these messages with all the rest of the second. -/
def onto (p books : Pipeline σ) (outbox : List MergeMessage) : Pipeline σ :=
  { books with db := p.db, merged := p.merged, outbox := outbox }

variable {o : List MergeMessage}

theorem onto_db (p books : Pipeline σ) : (p.onto books o).db = p.db := rfl

theorem applied_onto (p books : Pipeline σ) (result : Database × ApplyStats) :
    (p.onto books o).applied result = (p.applied result).onto books o := rfl

theorem applyChange_onto (p books : Pipeline σ) (f : FileChange) :
    (p.onto books o).applyChange f = (p.applyChange f).onto books o := by
  rw [applyChange, applyChange, onto_db]
  cases p.db.apply [p.db.rebase f.delta f.basedOn] with
  | ok result => exact applied_onto p books result
  | error _ => rfl

theorem removeFile_onto (p books : Pipeline σ) (path : Path) :
    (p.onto books o).removeFile path = (p.removeFile path).onto books o := by
  rw [removeFile, removeFile, onto_db]
  rcases p.db.removeFile path with _ | _ | result
  · rfl
  · rfl
  · exact applied_onto p books result

theorem applyMessage_onto (p books : Pipeline σ) (m : MergeMessage) :
    (p.onto books o).applyMessage m = (p.applyMessage m).onto books o := by
  cases m with
  | job outcome => exact List.foldl_hom (·.onto books o) fun p f => applyChange_onto p books f
  | remove path => exact removeFile_onto p books path

theorem foldl_applyMessage_onto (batch : List MergeMessage) (p books : Pipeline σ) :
    batch.foldl applyMessage (p.onto books o) = (batch.foldl applyMessage p).onto books o :=
  List.foldl_hom (·.onto books o) fun p m => applyMessage_onto p books m

theorem onto_saveEntry (p books : Pipeline σ) (f : FileChange) :
    (p.onto books o).saveEntry f = p.onto (books.saveEntry f) o := by
  unfold saveEntry
  cases f.cacheEntry with
  | none => rfl
  | some entry =>
    cases hw : books.settings.cacheWrite with
    | false => simp [onto, hw]
    | true =>
      simp only [onto, hw, if_true]
      generalize books.snapshots.save books.disk f.path entry = saved
      obtain ⟨_, _, _ | _⟩ := saved <;> rfl

theorem onto_finishFile (p books : Pipeline σ) (f : FileChange) :
    (p.onto books o).finishFile f = p.onto (books.finishFile f) o :=
  onto_saveEntry p (books.noteTime f) f

theorem onto_complete (p books : Pipeline σ) (path : Path) :
    (p.onto books o).complete path = p.onto (books.complete path) o := by
  have htracker : (p.onto books o).tracker = books.tracker := rfl
  rw [complete, complete, htracker]
  obtain ⟨tracker, _ | interactive⟩ := books.tracker.finish path
  · rfl
  · cases interactive <;> rfl

theorem finishJob_eq (outcome : Outcome) : ∃ count : Counters → Counters, ∀ b : Pipeline σ,
    b.finishJob outcome =
      let b := outcome.files.foldl finishFile { b with
        counters := b.counters.addFilesApplied outcome.files.length }
      { b with
        ownership := outcome.claims.drop b.ownership
        counters := count b.counters }.complete outcome.path := by
  obtain ⟨path, files, error, fromCache, claims⟩ := outcome
  cases error with
  | some e => exact ⟨(·.jobFailed e), fun _ => rfl⟩
  | none => exact ⟨(·.jobApplied fromCache), fun _ => rfl⟩

theorem onto_finishJob (p books : Pipeline σ) (outcome : Outcome) :
    (p.onto books o).finishJob outcome = p.onto (books.finishJob outcome) o := by
  obtain ⟨count, hfinish⟩ := finishJob_eq (σ := σ) outcome
  let counted : Pipeline σ := { books with
    counters := books.counters.addFilesApplied outcome.files.length }
  have hfiles : outcome.files.foldl finishFile (p.onto counted o) =
      p.onto (outcome.files.foldl finishFile counted) o :=
    List.foldl_hom (p.onto · o) fun b f => onto_finishFile p b f
  let retired (b : Pipeline σ) : Pipeline σ := { b with
    ownership := outcome.claims.drop b.ownership
    counters := count b.counters }
  calc (p.onto books o).finishJob outcome
      = (retired (outcome.files.foldl finishFile (p.onto counted o))).complete outcome.path :=
        hfinish _
    _ = (p.onto (retired (outcome.files.foldl finishFile counted)) o).complete outcome.path := by
      rw [hfiles]
      rfl
    _ = p.onto ((retired (outcome.files.foldl finishFile counted)).complete outcome.path) o :=
        onto_complete p _ outcome.path
    _ = p.onto (books.finishJob outcome) o := congrArg (p.onto · o) (hfinish books).symm

theorem onto_finishMessage (p books : Pipeline σ) (m : MergeMessage) :
    (p.onto books o).finishMessage m = p.onto (books.finishMessage m) o := by
  cases m with
  | job outcome => exact onto_finishJob p books outcome
  | remove path =>
    unfold finishMessage finishRemoval
    simp only [onto]

theorem onto_foldl_finishMessage (batch : List MergeMessage) (p books : Pipeline σ) :
    batch.foldl finishMessage (p.onto books o) = p.onto (batch.foldl finishMessage books) o :=
  List.foldl_hom (p.onto · o) fun b m => onto_finishMessage p b m

/-- What a batch does to the database is what its messages do to it, and what it does to all the rest
is the bookkeeping for them. -/
theorem mergeBatch_onto (p books : Pipeline σ) (batch : List MergeMessage) :
    (p.onto books o).mergeBatch batch =
      (batch.foldl applyMessage p).onto (batch.foldl finishMessage books) o := by
  rw [mergeBatch, foldl_applyMessage_onto, onto_foldl_finishMessage]

theorem mergeBatch_eq_onto (p : Pipeline σ) (batch : List MergeMessage) :
    p.mergeBatch batch =
      (batch.foldl applyMessage p).onto (batch.foldl finishMessage p) p.outbox :=
  mergeBatch_onto p p batch

theorem mergeBatch_append (p : Pipeline σ) (first second : List MergeMessage) :
    p.mergeBatch (first ++ second) = (p.mergeBatch first).mergeBatch second := by
  rw [mergeBatch_eq_onto p first, mergeBatch_onto, mergeBatch_eq_onto, List.foldl_append,
    List.foldl_append]

theorem mergeFirst_eq_onto (p : Pipeline σ) (size : Nat) :
    p.mergeFirst size = ((p.outbox.take size).foldl applyMessage p).onto
      ((p.outbox.take size).foldl finishMessage p) (p.outbox.drop size) :=
  mergeBatch_onto p p (p.outbox.take size)

section Refusal

/-- The second step does what the first does, where it is not refused. -/
def Restricts {α : Type} (step : Pipeline σ → α → Pipeline σ)
    (step? : Pipeline σ → α → Except LeftBehind (Pipeline σ)) : Prop :=
  ∀ p a, (∃ e, step? p a = .error e) ∨ step? p a = .ok (step p a)

theorem Restricts.foldlM {α : Type} {step : Pipeline σ → α → Pipeline σ}
    {step? : Pipeline σ → α → Except LeftBehind (Pipeline σ)} (h : Restricts step step?)
    (items : List α) (p : Pipeline σ) :
    (∃ e, items.foldlM step? p = .error e) ∨ items.foldlM step? p = .ok (items.foldl step p) := by
  induction items generalizing p with
  | nil => exact .inr rfl
  | cons a rest ih =>
    rw [List.foldlM_cons, List.foldl_cons]
    obtain ⟨e, he⟩ | hok := h p a
    · exact .inl ⟨e, by rw [he]; rfl⟩
    · rw [hok]
      exact ih (step p a)

theorem Restricts.eq {α : Type} {step : Pipeline σ → α → Pipeline σ}
    {step? : Pipeline σ → α → Except LeftBehind (Pipeline σ)} (h : Restricts step step?)
    {p q : Pipeline σ} {a : α} (hq : step? p a = .ok q) : step p a = q := by
  obtain ⟨e, he⟩ | hok := h p a
  · cases hq.symm.trans he
  · exact Except.ok.inj (hok.symm.trans hq)

theorem restricts_applyChange : Restricts (σ := σ) applyChange applyChange? := by
  intro p f
  rw [applyChange, applyChange?]
  cases p.db.apply [p.db.rebase f.delta f.basedOn] with
  | ok result => exact .inr rfl
  | error e => exact .inl ⟨e, rfl⟩

theorem restricts_removeFile : Restricts (σ := σ) removeFile removeFile? := by
  intro p path
  rw [removeFile, removeFile?]
  rcases p.db.removeFile path with _ | e | result
  · exact .inr rfl
  · exact .inl ⟨e, rfl⟩
  · exact .inr rfl

theorem restricts_applyMessage : Restricts (σ := σ) applyMessage applyMessage? := by
  intro p m
  cases m with
  | job outcome => exact restricts_applyChange.foldlM outcome.files p
  | remove path => exact restricts_removeFile p path

/-- A merger that stops at a refused change does what one does that drops it, as long as none is. -/
theorem restricts_mergeBatch : Restricts (σ := σ) mergeBatch mergeBatch? := by
  intro p batch
  rw [mergeBatch, mergeBatch?]
  obtain ⟨e, he⟩ | hok := restricts_applyMessage.foldlM batch p
  · exact .inl ⟨e, by rw [he]; rfl⟩
  · exact .inr (by rw [hok]; rfl)

theorem applyChange?_onto (p books : Pipeline σ) (f : FileChange) :
    (p.onto books o).applyChange? f = (p.applyChange? f).map (·.onto books o) := by
  rw [applyChange?, applyChange?, onto_db]
  cases p.db.apply [p.db.rebase f.delta f.basedOn] <;> rfl

theorem removeFile?_onto (p books : Pipeline σ) (path : Path) :
    (p.onto books o).removeFile? path = (p.removeFile? path).map (·.onto books o) := by
  rw [removeFile?, removeFile?, onto_db]
  rcases p.db.removeFile path with _ | _ | _ <;> rfl

theorem foldlM_onto {α : Type} {step? : Pipeline σ → α → Except LeftBehind (Pipeline σ)}
    (h : ∀ p books a, step? (p.onto books o) a = (step? p a).map (·.onto books o)) (items : List α)
    (p books : Pipeline σ) :
    items.foldlM step? (p.onto books o) = (items.foldlM step? p).map (·.onto books o) := by
  induction items generalizing p with
  | nil => rfl
  | cons a rest ih =>
    rw [List.foldlM_cons, List.foldlM_cons, h]
    cases step? p a with
    | error _ => rfl
    | ok q => exact ih q

theorem applyMessage?_onto (p books : Pipeline σ) (m : MergeMessage) :
    (p.onto books o).applyMessage? m = (p.applyMessage? m).map (·.onto books o) := by
  cases m with
  | job outcome => exact foldlM_onto applyChange?_onto outcome.files p books
  | remove path => exact removeFile?_onto p books path

theorem mergeBatch?_append (p : Pipeline σ) (first second : List MergeMessage) :
    p.mergeBatch? (first ++ second) = (p.mergeBatch? first).bind (·.mergeBatch? second) := by
  rw [mergeBatch?, mergeBatch?, List.foldlM_append]
  obtain ⟨e, he⟩ | hfirst := restricts_applyMessage.foldlM first p
  · rw [he]
    rfl
  · rw [hfirst]
    change (second.foldlM applyMessage? (first.foldl applyMessage p)).map _ =
      (p.mergeBatch first).mergeBatch? second
    rw [mergeBatch_eq_onto, mergeBatch?, foldlM_onto applyMessage?_onto]
    obtain ⟨e, he⟩ | hsecond := restricts_applyMessage.foldlM second (first.foldl applyMessage p)
    · rw [he]
      rfl
    · have happend := mergeBatch_append p first second
      rw [mergeBatch, List.foldl_append (f := applyMessage), mergeBatch_eq_onto p, mergeBatch,
        foldl_applyMessage_onto] at happend
      rw [hsecond]
      exact congrArg Except.ok happend

end Refusal

theorem mergeBatch_eq_foldl (p : Pipeline σ) (batch : List MergeMessage) :
    p.mergeBatch batch = batch.foldl (fun p m => p.mergeBatch [m]) p := by
  induction batch generalizing p with
  | nil => rfl
  | cons m rest ih => rw [← List.singleton_append, mergeBatch_append, ih]; rfl

theorem mergeBatch?_eq_foldlM (p : Pipeline σ) (batch : List MergeMessage) :
    p.mergeBatch? batch = batch.foldlM (fun p m => p.mergeBatch? [m]) p := by
  induction batch generalizing p with
  | nil => rfl
  | cons m rest ih =>
    rw [← List.singleton_append, mergeBatch?_append, List.singleton_append, List.foldlM_cons]
    exact congrArg (p.mergeBatch? [m]).bind (funext ih)

/-- Cut into batches in whatever way, the messages leave the pipeline that they leave when they are
merged one at a time; and where a refused change stops the merger, it stops it in both. -/
theorem mergeBatch_flatten (p : Pipeline σ) (batches : List (List MergeMessage)) :
    batches.foldl mergeBatch p = batches.flatten.foldl (fun p m => p.mergeBatch [m]) p ∧
      batches.foldlM mergeBatch? p = batches.flatten.foldlM (fun p m => p.mergeBatch? [m]) p := by
  constructor
  · induction batches generalizing p with
    | nil => rfl
    | cons batch rest ih =>
      rw [List.foldl_cons, List.flatten_cons, List.foldl_append, ← mergeBatch_eq_foldl p batch, ih]
  · induction batches generalizing p with
    | nil => rfl
    | cons batch rest ih =>
      rw [List.foldlM_cons, List.flatten_cons, List.foldlM_append, ← mergeBatch?_eq_foldlM]
      exact congrArg (p.mergeBatch? batch).bind (funext ih)

end Pipeline

end SymbolIndex
