import SymbolIndex.Path

/-! Canonical spellings. What a name resolves to starts at the root or some steps up, and goes on with
names that are none of the dotted ones; its spelling is read back as it is. So the clean spelling of a
path is its own clean spelling, and that of an absolute one depends on its components alone. -/

namespace SymbolIndex

namespace Lexical

variable {α : Type} [DecidableEq α] {sep dot : α}

theorem split_ne_nil (sep : α) (text : List α) : split sep text ≠ [] := by
  cases text with
  | nil => simp [split]
  | cons c rest =>
    rw [split]
    split
    · simp
    · split <;> simp

theorem split_cons_of_ne {c : α} (h : c ≠ sep) (rest : List α) :
    ∃ piece pieces, split sep rest = piece :: pieces ∧
      split sep (c :: rest) = (c :: piece) :: pieces := by
  obtain ⟨piece, pieces, hp⟩ := List.exists_cons_of_ne_nil (split_ne_nil sep rest)
  exact ⟨piece, pieces, hp, by rw [split, if_neg h, hp]⟩

theorem split_append (sep : α) (a b : List α) :
    split sep (a ++ sep :: b) = split sep a ++ split sep b := by
  induction a with
  | nil => simp [split]
  | cons c rest ih =>
    by_cases hc : c = sep
    · simp [split, hc, ih]
    · obtain ⟨piece, pieces, hp, hs⟩ := split_cons_of_ne hc rest
      rw [List.cons_append, split, if_neg hc, ih, hp, hs]
      rfl

theorem split_append_of_not_mem {name text piece : List α} {pieces : List (List α)}
    (h : sep ∉ name) (ht : split sep text = piece :: pieces) :
    split sep (name ++ text) = (name ++ piece) :: pieces := by
  induction name with
  | nil => exact ht
  | cons c rest ih =>
    have hc : c ≠ sep := fun he => h (by simp [he])
    rw [List.cons_append, split, if_neg hc, ih fun hm => h (List.mem_cons_of_mem _ hm)]
    rfl

theorem split_of_not_mem {name : List α} (h : sep ∉ name) : split sep name = [name] := by
  induction name with
  | nil => rfl
  | cons c rest ih =>
    have hc : c ≠ sep := fun he => h (by simp [he])
    rw [split, if_neg hc, ih fun hm => h (List.mem_cons_of_mem _ hm)]

theorem sep_not_mem_of_mem_split {text piece : List α} (h : piece ∈ split sep text) :
    sep ∉ piece := by
  induction text generalizing piece with
  | nil => rw [List.mem_singleton.mp h]; exact List.not_mem_nil
  | cons c rest ih =>
    by_cases hc : c = sep
    · rw [split, if_pos hc] at h
      rcases List.mem_cons.mp h with rfl | h
      · exact List.not_mem_nil
      · exact ih h
    · obtain ⟨first, pieces, hp, hs⟩ := split_cons_of_ne hc rest
      rw [hs] at h
      rcases List.mem_cons.mp h with rfl | h
      · have hfirst : sep ∉ first := ih (by simp [hp])
        simp [Ne.symm hc, hfirst]
      · exact ih (by rw [hp]; exact List.mem_cons_of_mem _ h)

/-- The components between separators, without a leading root or dot. -/
def inner (sep dot : α) (text : List α) : List (Component α) :=
  (split sep text).filterMap (component? dot)

theorem inner_append (sep dot : α) (a b : List α) :
    inner sep dot (a ++ sep :: b) = inner sep dot a ++ inner sep dot b := by
  rw [inner, split_append, List.filterMap_append, inner, inner]

/-- Names that resolve to themselves and are read back as they are spelled. -/
def Plain (sep dot : α) (names : List (List α)) : Prop :=
  ∀ name ∈ names, sep ∉ name ∧ name ≠ [] ∧ name ≠ [dot] ∧ name ≠ [dot, dot]

/-- What stands between separators: a step up or a plain name. -/
def Inner (sep dot : α) (c : Component α) : Prop :=
  c = .parent ∨ ∃ name, c = .normal name ∧ sep ∉ name ∧ name ≠ [] ∧ name ≠ [dot] ∧
    name ≠ [dot, dot]

theorem mem_inner {c : Component α} {text : List α} (h : c ∈ inner sep dot text) :
    Inner sep dot c := by
  obtain ⟨piece, hp, hc⟩ := List.mem_filterMap.mp h
  rw [component?] at hc
  split at hc
  next => cases hc
  next hn =>
    split at hc
    next => exact .inl (Option.some.inj hc).symm
    next hd =>
      exact .inr ⟨piece, (Option.some.inj hc).symm, sep_not_mem_of_mem_split hp,
        fun he => hn (.inl he), fun he => hn (.inr he), hd⟩

theorem components_absolute (sep dot : α) (rest : List α) :
    components sep dot (sep :: rest) = .root :: inner sep dot rest := by
  have hs : split sep (sep :: rest) = [] :: split sep rest := by rw [split, if_pos rfl]
  obtain ⟨piece, pieces, hp⟩ := List.exists_cons_of_ne_nil (split_ne_nil sep rest)
  have hi : inner sep dot (sep :: rest) = inner sep dot rest := by
    rw [inner, hs, List.filterMap_cons_none (by simp [component?]), inner]
  rw [components, ← inner, hi, hs, hp]

theorem components_relative (dot : α) {text : List α} (h : isAbsolute sep text = false) :
    components sep dot text = .current :: inner sep dot text ∨
      components sep dot text = inner sep dot text := by
  rw [components, ← inner]
  split
  next piece pieces hs =>
    cases text with
    | nil => cases hs
    | cons c rest =>
      have hc : c ≠ sep := fun he => by simp [isAbsolute, he] at h
      obtain ⟨_, _, _, hs'⟩ := split_cons_of_ne hc rest
      rw [hs'] at hs
      cases hs
  next => split <;> simp
  next => simp

/-- What the first pieces of a name put before its inner components. -/
def leading (dot : α) : List (List α) → List (Component α)
  | [] :: _ :: _ => [.root]
  | piece :: _ => if piece = [dot] then [.current] else []
  | [] => []

theorem leading_cons {dot : α} {piece : List α} (h : piece ≠ []) (pieces : List (List α)) :
    leading dot (piece :: pieces) = if piece = [dot] then [.current] else [] := by
  obtain ⟨c, rest, rfl⟩ := List.exists_cons_of_ne_nil h
  rfl

theorem components_eq (sep dot : α) (text : List α) :
    components sep dot text = leading dot (split sep text) ++ inner sep dot text := by
  rw [components, ← inner]
  cases split sep text with
  | nil => rfl
  | cons piece pieces =>
    by_cases hdot : piece = [dot]
    · subst hdot
      simp [leading]
    · cases piece <;> cases pieces <;> simp [leading, hdot]

theorem isAbsolute_iff {text : List α} :
    isAbsolute sep text = true ↔ ∃ rest, text = sep :: rest := by
  cases text with
  | nil => simp [isAbsolute]
  | cons c rest => simp [isAbsolute]

/-- Where resolved names start: at the root, or some steps up from where one is. -/
def Ground (base : List (Component α)) : Prop :=
  base = [.root] ∨ ∃ k, base = List.replicate k .parent

/-- What is left when the dots are resolved. -/
def Settled (sep dot : α) (cs : List (Component α)) : Prop :=
  ∃ base names, Ground base ∧ Plain sep dot names ∧ cs = base ++ names.map .normal

omit [DecidableEq α] in
theorem Ground.reverse {base : List (Component α)} (h : Ground base) : base.reverse = base := by
  rcases h with rfl | ⟨k, rfl⟩
  · rfl
  · exact List.reverse_replicate

omit [DecidableEq α] in
theorem Ground.resolve_parent {base : List (Component α)} (h : Ground base) :
    Ground (resolve base .parent) ∧ (base = [.root] → resolve base .parent = [.root]) := by
  rcases h with rfl | ⟨k, rfl⟩
  · exact ⟨.inl rfl, fun _ => rfl⟩
  · cases k with
    | zero => exact ⟨.inr ⟨1, rfl⟩, fun h => by cases h⟩
    | succ k => exact ⟨.inr ⟨k + 2, rfl⟩, fun h => by cases h⟩

omit [DecidableEq α] in
theorem foldl_resolve {cs : List (Component α)} (h : ∀ c ∈ cs, Inner sep dot c)
    {base : List (Component α)} (hb : Ground base) {names : List (List α)}
    (hn : Plain sep dot names) :
    ∃ base' names', Ground base' ∧ (base = [.root] → base' = [.root]) ∧ Plain sep dot names' ∧
      cs.foldl resolve (names.map .normal ++ base) = names'.map .normal ++ base' := by
  induction cs generalizing names base with
  | nil => exact ⟨base, names, hb, id, hn, rfl⟩
  | cons c rest ih =>
    obtain ⟨hc, hrest⟩ := List.forall_mem_cons.mp h
    rcases hc with rfl | ⟨name, rfl, hname⟩
    · cases names with
      | nil =>
        obtain ⟨hground, hroot⟩ := hb.resolve_parent
        obtain ⟨base', names', hb', hroot', hn', hfold⟩ := ih hrest hground hn
        exact ⟨base', names', hb', fun hbase => hroot' (hroot hbase), hn', hfold⟩
      | cons name names => exact ih hrest hb fun n hm => hn n (List.mem_cons_of_mem _ hm)
    · have hcons : Plain sep dot (name :: names) := List.forall_mem_cons.mpr ⟨hname, hn⟩
      exact ih hrest hb hcons

omit [DecidableEq α] in
theorem resolved_inner {cs : List (Component α)} (h : ∀ c ∈ cs, Inner sep dot c)
    {base : List (Component α)} (hb : Ground base) :
    ∃ base' names, Ground base' ∧ (base = [.root] → base' = [.root]) ∧ Plain sep dot names ∧
      (cs.foldl resolve base).reverse = base' ++ names.map .normal := by
  have hnil : Plain sep dot [] := fun _ h => absurd h List.not_mem_nil
  obtain ⟨base', names, hb', hroot, hn, hfold⟩ := foldl_resolve h hb hnil
  refine ⟨base', names.reverse, hb', hroot, fun n hm => hn n (List.mem_reverse.mp hm), ?_⟩
  rw [List.map_nil, List.nil_append] at hfold
  rw [hfold, List.reverse_append, hb'.reverse, List.map_reverse]

theorem resolved_absolute (sep dot : α) (rest : List α) :
    ∃ names, Plain sep dot names ∧
      resolved (components sep dot (sep :: rest)) = .root :: names.map .normal := by
  obtain ⟨base, names, -, hroot, hn, hr⟩ :=
    resolved_inner (fun c hc => mem_inner hc : ∀ c ∈ inner sep dot rest, Inner sep dot c) (.inl rfl)
  refine ⟨names, hn, ?_⟩
  rw [components_absolute, resolved, List.foldl_cons]
  exact hr.trans (congrArg (· ++ names.map .normal) (hroot rfl))

theorem settled_resolved (sep dot : α) (text : List α) :
    Settled sep dot (resolved (components sep dot text)) := by
  cases ha : isAbsolute sep text with
  | true =>
    obtain ⟨rest, rfl⟩ := isAbsolute_iff.mp ha
    obtain ⟨names, hn, hr⟩ := resolved_absolute sep dot rest
    exact ⟨[.root], names, .inl rfl, hn, hr⟩
  | false =>
    have hnowhere : Ground ([] : List (Component α)) := .inr ⟨0, rfl⟩
    obtain ⟨base, names, hb, -, hn, hr⟩ := resolved_inner
      (fun c hc => mem_inner hc : ∀ c ∈ inner sep dot text, Inner sep dot c) hnowhere
    refine ⟨base, names, hb, hn, ?_⟩
    rcases components_relative dot ha with hc | hc <;> rw [hc]
    · exact hr
    · exact hr

omit [DecidableEq α] in
theorem resolved_settled {cs : List (Component α)} (h : Settled sep dot cs) : resolved cs = cs := by
  have hnames : ∀ (names : List (List α)) (before : List (Component α)),
      (names.map .normal).foldl resolve before = (names.map .normal).reverse ++ before := by
    intro names
    induction names with
    | nil => intro before; rfl
    | cons name rest ih =>
      intro before
      rw [List.map_cons, List.foldl_cons, ih]
      simp [resolve]
  have hbase : ∀ base : List (Component α), Ground base → base.foldl resolve [] = base := by
    rintro base (rfl | ⟨k, rfl⟩)
    · rfl
    · induction k with
      | zero => rfl
      | succ k ih =>
        rw [List.replicate_succ', List.foldl_append, ih, ← List.replicate_succ',
          List.replicate_succ]
        cases k <;> rfl
  obtain ⟨base, names, hb, -, rfl⟩ := h
  rw [resolved, List.foldl_append, hbase base hb, hnames, List.reverse_append, List.reverse_reverse,
    hb.reverse]

theorem inner_plain {name : List α} (hs : sep ∉ name) (hn : name ≠ []) (hd : name ≠ [dot])
    (hp : name ≠ [dot, dot]) : inner sep dot name = [.normal name] := by
  rw [inner, split_of_not_mem hs]
  simp [component?, hn, hd, hp]

omit [DecidableEq α] in
theorem joined_cons_cons (sep dot : α) (c next : Component α) (rest : List (Component α)) :
    joined sep dot (c :: next :: rest) = c.text dot ++ sep :: joined sep dot (next :: rest) := rfl

section Spelling

/-! Resolved names are read back from their shortest spelling. A step up is spelled with dots, so that
the separator must not be one. -/

variable (hdot : dot ≠ sep)

include hdot in
theorem Inner.inner_text {c : Component α} (h : Inner sep dot c) :
    split sep (c.text dot) = [c.text dot] ∧ inner sep dot (c.text dot) = [c] ∧
      c.text dot ≠ [] ∧ c.text dot ≠ [dot] := by
  rcases h with rfl | ⟨name, rfl, hs, hn, hd, hp⟩
  · have hs : sep ∉ [dot, dot] := by simp [hdot.symm]
    refine ⟨split_of_not_mem hs, ?_, by simp [Component.text], by simp [Component.text]⟩
    rw [Component.text, inner, split_of_not_mem hs]
    simp [component?]
  · exact ⟨split_of_not_mem hs, inner_plain hs hn hd hp, hn, hd⟩

include hdot in
theorem inner_joined {cs : List (Component α)} (h : ∀ c ∈ cs, Inner sep dot c) :
    inner sep dot (joined sep dot cs) = cs := by
  induction cs with
  | nil => simp [joined, inner, split, component?]
  | cons c rest ih =>
    obtain ⟨hc, hrest⟩ := List.forall_mem_cons.mp h
    have htext := (hc.inner_text hdot).2.1
    cases rest with
    | nil => exact htext
    | cons next rest =>
      rw [joined_cons_cons, inner_append, htext, ih hrest]
      rfl

include hdot in
theorem components_joined {cs : List (Component α)} (h : ∀ c ∈ cs, Inner sep dot c)
    (hne : cs ≠ []) : components sep dot (joined sep dot cs) = cs := by
  have hinner := inner_joined hdot h
  obtain ⟨c, rest, rfl⟩ := List.exists_cons_of_ne_nil hne
  obtain ⟨hsplit, -, hnil, hd⟩ := (h c List.mem_cons_self).inner_text hdot
  -- The first piece is that of the first component, which is neither empty nor a lone dot.
  have hfirst : ∃ pieces, split sep (joined sep dot (c :: rest)) = c.text dot :: pieces := by
    cases rest with
    | nil => exact ⟨[], hsplit⟩
    | cons next rest =>
      refine ⟨split sep (joined sep dot (next :: rest)), ?_⟩
      rw [joined_cons_cons, split_append, hsplit]
      rfl
  obtain ⟨pieces, hpieces⟩ := hfirst
  have hleading : leading dot (c.text dot :: pieces) = [] := by rw [leading_cons hnil, if_neg hd]
  rw [components_eq, hpieces, hleading, hinner, List.nil_append]

include hdot in
theorem components_spell {cs : List (Component α)} (h : Settled sep dot cs) (hne : cs ≠ []) :
    components sep dot (spell sep dot cs) = cs := by
  obtain ⟨base, names, hb, hn, rfl⟩ := h
  have hnames : ∀ c ∈ names.map Component.normal, Inner sep dot c := by
    intro c hc
    obtain ⟨name, hm, rfl⟩ := List.mem_map.mp hc
    exact .inr ⟨name, rfl, hn name hm⟩
  rcases hb with rfl | ⟨k, rfl⟩
  · change components sep dot (sep :: joined sep dot (names.map .normal)) = _
    rw [components_absolute, inner_joined hdot hnames]
    rfl
  · have hall : ∀ c ∈ List.replicate k .parent ++ names.map Component.normal, Inner sep dot c := by
      intro c hc
      rcases List.mem_append.mp hc with hc | hc
      · exact .inl (List.eq_of_mem_replicate hc)
      · exact hnames c hc
    have hspell : ∀ cs : List (Component α), cs ≠ [] → (∀ c ∈ cs, Inner sep dot c) →
        spell sep dot cs = joined sep dot cs := by
      intro cs hne h
      cases cs with
      | nil => exact absurd rfl hne
      | cons c rest =>
        rcases h c List.mem_cons_self with rfl | ⟨name, rfl, -⟩ <;> rfl
    rw [hspell _ hne hall, components_joined hdot hall hne]

theorem isAbsolute_clean {text : List α} (h : isAbsolute sep text = true) :
    isAbsolute sep (clean sep dot text) = true := by
  obtain ⟨rest, rfl⟩ := isAbsolute_iff.mp h
  obtain ⟨names, _, hr⟩ := resolved_absolute sep dot rest
  rw [clean, hr, spell]
  simp [isAbsolute]

include hdot in
/-- A clean spelling is its own clean spelling. -/
theorem clean_clean (text : List α) : clean sep dot (clean sep dot text) = clean sep dot text := by
  have hs := settled_resolved sep dot text
  rw [clean, clean]
  generalize resolved (components sep dot text) = cs at hs
  cases cs with
  | nil =>
    have hs : split sep [dot] = [[dot]] := split_of_not_mem (by simp [hdot.symm])
    have hc : components sep dot [dot] = [.current] := by
      rw [components_eq, inner, hs]
      simp [leading, component?]
    change spell sep dot (resolved (components sep dot [dot])) = [dot]
    rw [hc]
    rfl
  | cons c rest => rw [components_spell hdot hs (List.cons_ne_nil c rest), resolved_settled hs]

end Spelling

theorem isAbsolute_join {base : List α} (h : isAbsolute sep base = true) (text : List α) :
    isAbsolute sep (join sep base text) = true := by
  obtain ⟨rest, rfl⟩ := isAbsolute_iff.mp h
  rw [join]
  split
  next ha => exact ha
  next => split <;> simp [isAbsolute]

/-- A base as it stands before a name. -/
def opened (sep : α) (base : List α) : List α :=
  if base = [] ∨ base.getLast? = some sep then base else base ++ [sep]

theorem join_relative {text : List α} (h : isAbsolute sep text = false) (base : List α) :
    join sep base text = opened sep base ++ text := by
  rw [join, if_neg (by simp [h]), opened]
  split
  next => rfl
  next => rw [List.append_assoc, List.singleton_append]

theorem opened_append (base dir : List α) :
    opened sep (opened sep base ++ dir) = opened sep base ++ opened sep dir := by
  cases dir with
  | nil =>
    have hbase : opened sep base = [] ∨ (opened sep base).getLast? = some sep := by
      by_cases h : base = [] ∨ base.getLast? = some sep
      · rwa [opened, if_pos h]
      · rw [opened, if_neg h]
        simp
    rw [List.append_nil, opened, if_pos hbase]
    simp [opened]
  | cons c rest =>
    have hlast : (opened sep base ++ c :: rest).getLast? = (c :: rest).getLast? := by
      rw [List.getLast?_append, List.getLast?_cons, Option.some_or]
    rw [opened, hlast, opened.eq_def sep (c :: rest)]
    by_cases h : (c :: rest).getLast? = some sep
    · rw [if_pos (.inr h), if_pos (.inr h)]
    · rw [if_neg (by simpa using h), if_neg (by simpa using h), List.append_assoc]

theorem isAbsolute_opened_append {dir name : List α} (hdir : isAbsolute sep dir = false)
    (hname : isAbsolute sep name = false) : isAbsolute sep (opened sep dir ++ name) = false := by
  cases dir with
  | nil => exact hname
  | cons c rest =>
    rw [opened]
    split <;> exact hdir

theorem join_join {name : List α} (hname : isAbsolute sep name = false) (base dir : List α) :
    join sep base (join sep dir name) = join sep (join sep base dir) name := by
  rw [join_relative hname, join_relative hname]
  by_cases hdir : isAbsolute sep dir = true
  · have habs := isAbsolute_join hdir name
    rw [join_relative hname] at habs
    rw [join, if_pos habs, join, if_pos hdir]
  · rw [Bool.not_eq_true] at hdir
    rw [join_relative (isAbsolute_opened_append hdir hname), join_relative hdir, opened_append,
      List.append_assoc]

theorem leading_append (dot : α) {a : List (List α)} (ha : a ≠ []) (hroot : a ≠ [[]])
    (b : List (List α)) : leading dot (a ++ b) = leading dot a := by
  obtain ⟨piece, pieces, rfl⟩ := List.exists_cons_of_ne_nil ha
  cases piece with
  | cons c rest => rfl
  | nil =>
    cases pieces with
    | nil => exact absurd rfl hroot
    | cons next rest => rfl

theorem components_append (dot : α) {a : List α} (ha : a ≠ []) (b : List α) :
    components sep dot (a ++ sep :: b) = components sep dot a ++ inner sep dot b := by
  have hroot : split sep a ≠ [[]] := by
    cases a with
    | nil => exact absurd rfl ha
    | cons c rest =>
      by_cases hc : c = sep
      · rw [split, if_pos hc]
        simp [split_ne_nil]
      · obtain ⟨piece, pieces, _, hs⟩ := split_cons_of_ne hc rest
        rw [hs]
        simp
  rw [components_eq, components_eq, split_append, leading_append dot (split_ne_nil sep a) hroot,
    inner_append, List.append_assoc]

theorem components_join {base text : List α} (hb : base ≠ [])
    (ht : isAbsolute sep text = false) :
    components sep dot (join sep base text) =
      components sep dot base ++ inner sep dot text := by
  rw [join_relative ht, opened]
  split
  next hlast =>
    obtain ⟨front, rfl⟩ := List.getLast?_eq_some_iff.mp (hlast.resolve_left hb)
    rw [List.append_assoc, List.singleton_append]
    cases front with
    | nil =>
      rw [List.nil_append, List.nil_append, components_absolute, components_absolute]
      simp [inner, split, component?]
    | cons c front =>
      rw [components_append dot (by simp), components_append dot (by simp)]
      simp [inner, split, component?]
  next => rw [List.append_assoc, List.singleton_append, components_append dot hb]

/-- A name without a leading component can follow any base. -/
theorem components_join_bare {text : List α} (ht : isAbsolute sep text = false)
    (hl : components sep dot text = inner sep dot text) (base : List α) :
    components sep dot (join sep base text) = components sep dot base ++ inner sep dot text := by
  by_cases hb : base = []
  · rw [hb, join_relative ht, opened, if_pos (.inl rfl), List.nil_append, hl]
    simp [components, split, component?]
  · exact components_join hb ht

theorem inner_congr {a b : List α} (ha : isAbsolute sep a = false)
    (hb : isAbsolute sep b = false) (h : components sep dot a = components sep dot b) :
    inner sep dot a = inner sep dot b := by
  have hcur : ∀ text : List α, inner sep dot text =
      (inner sep dot text).filter fun c => c != .current := by
    intro text
    refine (List.filter_eq_self.mpr fun c hc => ?_).symm
    rcases mem_inner hc with rfl | ⟨_, rfl, _⟩ <;> simp
  have hfilter : ∀ text : List α, isAbsolute sep text = false →
      (components sep dot text).filter (fun c => c != .current) = inner sep dot text := by
    intro text ht
    rcases components_relative dot ht with hc | hc
    · rw [hc, List.filter_cons_of_neg (by simp), ← hcur]
    · rw [hc, ← hcur]
  rw [← hfilter a ha, ← hfilter b hb, h]

theorem isAbsolute_congr {a b : List α} (h : components sep dot a = components sep dot b)
    (ha : isAbsolute sep a = true) : isAbsolute sep b = true := by
  obtain ⟨rest, rfl⟩ := isAbsolute_iff.mp ha
  rw [components_absolute] at h
  cases hb : isAbsolute sep b with
  | true => rfl
  | false =>
    rcases components_relative dot hb with hc | hc
    · rw [hc] at h
      cases h
    · have hroot : Component.root ∈ inner sep dot b := by rw [← hc, ← h]; simp
      rcases mem_inner hroot with h' | ⟨_, h', _⟩ <;> cases h'

theorem normalizeAgainst_congr {base a b : List α} (hbase : isAbsolute sep base = true)
    (h : components sep dot a = components sep dot b) :
    normalizeAgainst sep dot base a = normalizeAgainst sep dot base b := by
  have hjoin : components sep dot (join sep base a) = components sep dot (join sep base b) := by
    cases ha : isAbsolute sep a with
    | true =>
      have hb := isAbsolute_congr h ha
      rw [join, if_pos ha, join, if_pos hb, h]
    | false =>
      have hb : isAbsolute sep b = false := by
        rw [Bool.eq_false_iff]
        intro hb
        rw [isAbsolute_congr h.symm hb] at ha
        cases ha
      have hne : base ≠ [] := by
        rintro rfl
        cases hbase
      rw [components_join hne ha, components_join hne hb, inner_congr ha hb h]
  rw [normalizeAgainst, normalizeAgainst, clean, clean, hjoin]

theorem isAbsolute_plain {name : List α} (hs : sep ∉ name) : isAbsolute sep name = false := by
  cases name with
  | nil => rfl
  | cons c rest => simpa [isAbsolute] using fun he : c = sep => hs (by simp [he])

theorem components_join_plain {base dir name : List α} (hs : sep ∉ name) (hn : name ≠ [])
    (hd : name ≠ [dot]) (hp : name ≠ [dot, dot]) :
    components sep dot (join sep base (join sep dir name)) =
      components sep dot (join sep base dir) ++ [.normal name] := by
  have hname := isAbsolute_plain hs
  have hbare : components sep dot name = inner sep dot name := by
    rw [components_eq, split_of_not_mem hs, leading_cons hn, if_neg hd, List.nil_append]
  rw [join_join hname, components_join_bare hname hbare, inner_plain hs hn hd hp]

theorem getLast?_split_join {dir name : List α} (hs : sep ∉ name) :
    (split sep (join sep dir name)).getLast? = some name := by
  have hlast : ∀ front : List α, (split sep (front ++ sep :: name)).getLast? = some name := by
    intro front
    rw [split_append, split_of_not_mem hs, List.getLast?_append]
    rfl
  rw [join, if_neg (by simp [isAbsolute_plain hs])]
  split
  next h =>
    rcases h with rfl | hl
    · rw [List.nil_append, split_of_not_mem hs]
      rfl
    · obtain ⟨front, rfl⟩ := List.getLast?_eq_some_iff.mp hl
      rw [List.append_assoc]
      exact hlast front
  next => exact hlast dir

end Lexical

namespace Path

variable {dir p q : Path}

theorem same_congr_right (h : p.same q = true) (r : Path) : r.same p = r.same q := by
  rw [same_comm r p, same_comm r q, same_congr h]

/-- A file has one clean spelling. -/
theorem eq_of_same_clean (hp : p.clean = p) (hq : q.clean = q) (h : p.same q = true) : p = q := by
  rw [← hp, ← hq, clean, clean, Lexical.clean, Lexical.clean]
  exact congrArg (fun cs => (⟨.ofList (Lexical.spell '/' '.' (Lexical.resolved cs))⟩ : Path))
    (same_iff.mp h)

theorem normalize_congr (hd : dir.isAbsolute = true) (h : p.same q = true) :
    p.normalize (some dir) = q.normalize (some dir) := by
  rw [normalize, normalize, normalizeAgainst, normalizeAgainst,
    Lexical.normalizeAgainst_congr hd (same_iff.mp h)]

theorem isAbsolute_normalize (hd : dir.isAbsolute = true) (p : Path) :
    (p.normalize (some dir)).isAbsolute = true := by
  rw [isAbsolute, normalize, normalizeAgainst, String.toList_ofList]
  exact Lexical.isAbsolute_clean (Lexical.isAbsolute_join hd _)

theorem clean_normalizeAgainst (dir p : Path) :
    (dir.normalizeAgainst p).clean = dir.normalizeAgainst p := by
  rw [clean, normalizeAgainst, String.toList_ofList, Lexical.normalizeAgainst,
    Lexical.clean_clean (by decide)]

/-- Normalized paths are clean. -/
theorem clean_normalize (cwd : Option Path) (p : Path) :
    (p.normalize cwd).clean = p.normalize cwd := by
  cases cwd with
  | none => rw [normalize, clean, clean, String.toList_ofList, Lexical.clean_clean (by decide)]
  | some dir => exact clean_normalizeAgainst dir p

theorem normalizeAgainst_of_isAbsolute (hp : p.isAbsolute = true) (dir : Path) :
    dir.normalizeAgainst p = p.clean := by
  rw [isAbsolute] at hp
  rw [normalizeAgainst, Lexical.normalizeAgainst, Lexical.join, if_pos hp, clean]

theorem normalize_normalize (hd : dir.isAbsolute = true) (p : Path) :
    (p.normalize (some dir)).normalize (some dir) = p.normalize (some dir) :=
  (normalizeAgainst_of_isAbsolute (isAbsolute_normalize hd p) dir).trans
    (clean_normalize (some dir) p)

/-- Spelled canonically, as seen from a working directory. -/
def Canonical (dir p : Path) : Prop := p.normalize (some dir) = p

theorem canonical_normalize (hd : dir.isAbsolute = true) (p : Path) :
    Canonical dir (p.normalize (some dir)) :=
  normalize_normalize hd p

theorem Canonical.isAbsolute (hp : Canonical dir p) (hd : dir.isAbsolute = true) :
    p.isAbsolute = true := by
  rw [← hp]
  exact isAbsolute_normalize hd p

theorem Canonical.text_ne (hp : Canonical dir p) (hd : dir.isAbsolute = true) : p.text ≠ "" := by
  intro h
  have ha := hp.isAbsolute hd
  rw [Path.isAbsolute, h] at ha
  cases ha

/-- A file has one canonical spelling. -/
theorem Canonical.eq_of_same (hd : dir.isAbsolute = true) (hp : Canonical dir p)
    (hq : Canonical dir q) (h : p.same q = true) : p = q := by
  rw [← hp, ← hq]
  exact normalize_congr hd h

/-- The canonical spelling of a file is the same seen from anywhere. -/
theorem Canonical.moved {dir' : Path} (hp : Canonical dir p) (hd : dir.isAbsolute = true) :
    Canonical dir' p := by
  have ha := hp.isAbsolute hd
  rw [Canonical, normalize, normalizeAgainst_of_isAbsolute ha] at hp ⊢
  exact hp

end Path

end SymbolIndex
