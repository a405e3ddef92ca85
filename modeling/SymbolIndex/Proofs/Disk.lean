import SymbolIndex.Disk

/-! What writing a file does to a disk. -/

namespace SymbolIndex

namespace Disk

open Lexical (Component)

/-- What a step comes to, and what it may change. -/
theorem enter_cases {clock : Timestamp} {state state' : Disk × Place} {c : Component Char}
    (h : enter clock state c = .ok state') :
    ∃ place, state.1.step state.2 c = .ok place ∧ state'.2 = place ∧
      ((state.1.node? place = none ∧ state'.1 =
          { state.1 with nodes := state.1.nodes.insert place (.directory clock) }) ∨
        (∃ modified, state.1.node? place = some (.directory modified) ∧ state'.1 = state.1)) := by
  rw [enter] at h
  cases hs : state.1.step state.2 c with
  | error e =>
    rw [hs] at h
    cases h
  | ok place =>
    simp only [hs, bind, Except.bind] at h
    cases hn : state.1.node? place with
    | none =>
      simp only [hn, pure, Except.pure] at h
      cases h
      exact ⟨place, rfl, rfl, .inl ⟨hn, rfl⟩⟩
    | some node =>
      cases node with
      | file content modified =>
        simp only [hn] at h
        cases h
      | directory modified =>
        simp only [hn, pure, Except.pure] at h
        cases h
        exact ⟨place, rfl, rfl, .inr ⟨modified, hn, rfl⟩⟩

def IsDirectory (d : Disk) (place : Place) : Prop := ∃ t, d.node? place = some (.directory t)

/-- Where a step goes on a disk that has all directories. -/
def landing (place : Place) (c : Component Char) : Place :=
  if c = .root then [] else if c = .current then place
  else if c = .parent then place.dropLast else place ++ [Path.name c]

def placeOf (cs : List (Component Char)) : Place := cs.foldl landing []

theorem absolute_of_cwd {d d' : Disk} (h : d'.cwd = d.cwd) (p : Path) :
    d'.absolute p = d.absolute p := by
  rw [absolute, absolute, h]

theorem placeOf_concat (cs : List (Component Char)) (name : List Char) :
    placeOf (cs ++ [.normal name]) = placeOf cs ++ [name] := by
  simp [placeOf, landing, Path.name]

theorem checkDirectory_iff {d : Disk} {place : Place} :
    d.checkDirectory place = .ok () ↔ d.IsDirectory place := by
  rw [checkDirectory, IsDirectory]
  cases d.node? place with
  | none => simp
  | some node => cases node <;> simp

theorem step_iff {d : Disk} {place place' : Place} {c : Component Char} :
    d.step place c = .ok place' ↔
      place' = landing place c ∧ (c = .root ∨ d.IsDirectory place) := by
  rw [← checkDirectory_iff]
  cases hc : d.checkDirectory place <;> cases c <;>
    simp [step, landing, Path.name, hc, Except.map, eq_comm]

structure Extends (d d' : Disk) : Prop where
  cwd : d'.cwd = d.cwd
  keeps : ∀ q node, d.node? q = some node → d'.node? q = some node

theorem Extends.refl (d : Disk) : d.Extends d := ⟨rfl, fun _ _ h => h⟩

theorem Extends.trans {a b c : Disk} (h : a.Extends b) (h' : b.Extends c) : a.Extends c :=
  ⟨h'.cwd.trans h.cwd, fun q node hn => h'.keeps q node (h.keeps q node hn)⟩

theorem Extends.isDirectory {d d' : Disk} {place : Place} (h : d.Extends d')
    (hd : d.IsDirectory place) : d'.IsDirectory place := by
  obtain ⟨t, ht⟩ := hd
  exact ⟨t, h.keeps _ _ ht⟩

theorem foldlM_step_cons {d : Disk} {place place' : Place} {c : Component Char}
    {cs : List (Component Char)} : (c :: cs).foldlM d.step place = .ok place' ↔
      d.step place c = .ok (landing place c) ∧ cs.foldlM d.step (landing place c) = .ok place' := by
  rw [List.foldlM_cons]
  cases hs : d.step place c with
  | error e => simp [bind, Except.bind]
  | ok next =>
    obtain ⟨rfl, _⟩ := step_iff.mp hs
    simp [bind, Except.bind]

/-- What can be reached stays in reach as long as the directories stay. -/
theorem foldlM_step_mono {d d' : Disk} (h : ∀ place, d.IsDirectory place → d'.IsDirectory place)
    {cs : List (Component Char)} {place place' : Place}
    (hf : cs.foldlM d.step place = .ok place') : cs.foldlM d'.step place = .ok place' := by
  induction cs generalizing place with
  | nil => exact hf
  | cons c rest ih =>
    obtain ⟨hs, hrest⟩ := foldlM_step_cons.mp hf
    obtain ⟨hl, hd⟩ := step_iff.mp hs
    exact foldlM_step_cons.mpr ⟨step_iff.mpr ⟨hl, hd.imp_right (h place)⟩, ih hrest⟩

theorem foldlM_step_eq {d : Disk} {cs : List (Component Char)} {place place' : Place}
    (h : cs.foldlM d.step place = .ok place') : place' = cs.foldl landing place := by
  induction cs generalizing place with
  | nil => cases h; rfl
  | cons c rest ih =>
    obtain ⟨_, hrest⟩ := foldlM_step_cons.mp h
    exact ih hrest

theorem find_cases {d : Disk} {p : Path} {node : Node} (h : d.find p = .ok node) :
    d.follow (d.absolute p) = .ok (placeOf (d.absolute p)) ∧
      d.node? (placeOf (d.absolute p)) = some node := by
  rw [find] at h
  by_cases hp : p.text = ""
  · simp [hp, throw, throwThe, MonadExceptOf.throw, bind, Except.bind] at h
  · simp only [hp, if_false, pure, Except.pure, bind, Except.bind] at h
    cases hf : d.follow (d.absolute p) with
    | error e =>
      rw [hf] at h
      cases h
    | ok place =>
      obtain rfl : place = placeOf (d.absolute p) := foldlM_step_eq hf
      refine ⟨rfl, ?_⟩
      rw [hf] at h
      dsimp only at h
      cases hn : d.node? (placeOf (d.absolute p)) with
      | none =>
        rw [hn] at h
        cases h
      | some found =>
        rw [hn] at h
        cases found with
        | directory t =>
          cases h
          rfl
        | file content t =>
          dsimp only at h
          split at h
          next => cases h
          next =>
            cases h
            rfl

theorem node?_of_find {d : Disk} {p : Path} {node : Node} (h : d.find p = .ok node) :
    d.node? (placeOf (d.absolute p)) = some node :=
  (find_cases h).2

theorem namesDirectory_of_find {d : Disk} {p : Path} {content : Bytes} {t : Timestamp}
    (h : d.find p = .ok (.file content t)) : namesDirectory p = false := by
  obtain ⟨hfollow, hnode⟩ := find_cases h
  rw [find] at h
  by_cases hp : p.text = ""
  · simp [hp, throw, throwThe, MonadExceptOf.throw, bind, Except.bind] at h
  · simp only [hp, if_false, pure, Except.pure, bind, Except.bind, hfollow, hnode] at h
    split at h
    next => cases h
    next hfile => exact Bool.eq_false_iff.mpr hfile

/-- What is found depends on the directories on the way and on the node at the end. -/
theorem find_mono {d d' : Disk} {p : Path} {node : Node} (hcwd : d'.cwd = d.cwd)
    (hdir : ∀ place, d.IsDirectory place → d'.IsDirectory place)
    (hnode : d'.node? (placeOf (d.absolute p)) = some node) (hf : d.find p = .ok node) :
    d'.find p = .ok node := by
  obtain ⟨hfollow, hold⟩ := find_cases hf
  rw [Disk.find] at hf ⊢
  by_cases hp : p.text = ""
  · simp [hp, throw, throwThe, MonadExceptOf.throw, bind, Except.bind] at hf
  · simp only [hp, if_false, pure, Except.pure, bind, Except.bind] at hf ⊢
    have hfollow' : d'.follow (d.absolute p) = .ok (placeOf (d.absolute p)) :=
      foldlM_step_mono hdir hfollow
    rw [hfollow] at hf
    rw [absolute_of_cwd hcwd, hfollow']
    dsimp only at hf ⊢
    rw [hold] at hf
    rw [hnode]
    exact hf

theorem Extends.find {d d' : Disk} {p : Path} {node : Node} (h : d.Extends d')
    (hf : d.find p = .ok node) : d'.find p = .ok node :=
  find_mono h.cwd (fun _ => h.isDirectory) (h.keeps _ _ (node?_of_find hf)) hf

theorem Extends.modified? {d d' : Disk} {p : Path} {t : Timestamp} (h : d.Extends d')
    (hm : d.modified? p = some t) : d'.modified? p = some t := by
  rw [Disk.modified?] at hm ⊢
  cases hf : d.find p with
  | error e =>
    rw [hf] at hm
    cases hm
  | ok node =>
    rw [h.find hf]
    rw [hf] at hm
    exact hm

theorem node?_insert (d : Disk) {place : Place} (hp : place ≠ []) (node : Node) (q : Place) :
    node? { d with nodes := d.nodes.insert place node } q =
      if q = place then some node else d.node? q := by
  rw [node?, node?, OrderedMap.find?_insert]
  by_cases hq : q = place
  · rw [hq, if_neg hp, if_pos Std.ReflOrd.compare_self, if_pos rfl]
  · have hne : ¬ compare q place = .eq := fun he => hq (Std.LawfulEqOrd.eq_of_compare he)
    rw [if_neg hne, if_neg hq]

/-- What was made on the way to a place: directories and nothing else. -/
structure Paved (d d' : Disk) : Prop where
  grows : d.Extends d'
  files : ∀ q content t, d'.node? q = some (.file content t) → d.node? q = some (.file content t)

theorem Paved.trans {a b c : Disk} (h : a.Paved b) (h' : b.Paved c) : a.Paved c :=
  ⟨h.grows.trans h'.grows, fun q content t hq => h.files q content t (h'.files q content t hq)⟩

theorem enter_spec {clock : Timestamp} {state state' : Disk × Place} {c : Component Char}
    (h : enter clock state c = .ok state') :
    state.1.Paved state'.1 ∧ state.1.step state.2 c = .ok state'.2 ∧
      state'.1.IsDirectory state'.2 := by
  obtain ⟨_, hs, rfl, ⟨hnone, hd⟩ | ⟨t, ht, hd⟩⟩ := enter_cases h
  · have hplace : state'.2 ≠ [] := by
      intro hroot
      rw [hroot] at hnone
      cases hnone
    have hnode : ∀ q, state'.1.node? q =
        if q = state'.2 then some (.directory clock) else state.1.node? q := by
      intro q
      rw [hd]
      exact node?_insert _ hplace _ q
    refine ⟨⟨⟨by rw [hd], fun q node hq => ?_⟩, fun q content t hq => ?_⟩, hs, clock, ?_⟩
    · have hne : q ≠ state'.2 := by
        rintro rfl
        rw [hnone] at hq
        cases hq
      rw [hnode, if_neg hne, hq]
    · rw [hnode] at hq
      split at hq
      next => cases hq
      next => exact hq
    · rw [hnode, if_pos rfl]
  · rw [hd]
    exact ⟨⟨.refl _, fun _ _ _ h => h⟩, hs, t, ht⟩

theorem foldlM_enter_spec {clock : Timestamp} {cs : List (Component Char)}
    {state state' : Disk × Place} (h : cs.foldlM (enter clock) state = .ok state') :
    state.1.Paved state'.1 ∧ cs.foldlM state'.1.step state.2 = .ok state'.2 ∧
      (state.1.IsDirectory state.2 → state'.1.IsDirectory state'.2) := by
  induction cs generalizing state with
  | nil =>
    cases h
    exact ⟨⟨.refl _, fun _ _ _ h => h⟩, rfl, id⟩
  | cons c rest ih =>
    rw [List.foldlM_cons] at h
    cases he : enter clock state c with
    | error e =>
      rw [he] at h
      cases h
    | ok next =>
      rw [he] at h
      obtain ⟨hpaved, hfollow, hdir⟩ := ih h
      obtain ⟨hfirst, hs, hnext⟩ := enter_spec he
      have hland := (step_iff.mp hs).1
      refine ⟨hfirst.trans hpaved, foldlM_step_cons.mpr ⟨?_, ?_⟩, fun _ => hdir hnext⟩
      · exact step_iff.mpr ⟨rfl, (step_iff.mp hs).2.imp_right
          (hfirst.grows.trans hpaved.grows).isDirectory⟩
      · exact hland ▸ hfollow

/-- The directory that components lead to is there. -/
def Seen (d : Disk) (cs : List (Component Char)) : Prop :=
  d.follow cs = .ok (placeOf cs) ∧ d.IsDirectory (placeOf cs)

theorem Seen.mono {d d' : Disk} {cs : List (Component Char)}
    (h : ∀ place, d.IsDirectory place → d'.IsDirectory place) (hs : d.Seen cs) : d'.Seen cs :=
  ⟨foldlM_step_mono h hs.1, h _ hs.2⟩

theorem placeOf_eq_landing (cs : List (Component Char)) :
    placeOf cs = landing (placeOf cs.dropLast) (cs.getLast?.getD .root) := by
  rcases List.eq_nil_or_concat cs with rfl | ⟨front, c, rfl⟩
  · rfl
  · simp [placeOf]

theorem frozen_makeDirectories {d d' : Disk} {cs : List (Component Char)} {place : Place}
    (h : d.makeDirectories cs = .ok (d', place)) : d'.frozen = d.frozen := by
  rw [makeDirectories] at h
  suffices aux : ∀ state : Disk × Place,
      cs.foldlM (enter d.clock) state = .ok (d', place) → d'.frozen = state.1.frozen from aux _ h
  clear h
  induction cs with
  | nil =>
    intro state h
    cases h
    rfl
  | cons c rest ih =>
    intro state h
    rw [List.foldlM_cons] at h
    cases he : enter d.clock state c with
    | error e =>
      rw [he] at h
      cases h
    | ok state' =>
      rw [he] at h
      rw [ih state' h]
      obtain ⟨_, _, _, ⟨_, hd⟩ | ⟨_, _, hd⟩⟩ := enter_cases he <;> rw [hd]

/-- A write makes the directories above its place and then puts the file there, unless the place is
frozen. -/
theorem write_cases {d d' : Disk} {p : Path} {content : Bytes} {t : Timestamp}
    (h : d.write p content t = .ok d') :
    ∃ d₁, d.Paved d₁ ∧ d₁.Seen (d.absolute p).dropLast ∧
      ¬ d₁.IsDirectory (placeOf (d.absolute p)) ∧ placeOf (d.absolute p) ∉ d.frozen ∧
      d' = { d₁ with nodes := d₁.nodes.insert (placeOf (d.absolute p)) (.file content t) } := by
  rw [write] at h
  cases hm : d.makeDirectories (d.absolute p).dropLast with
  | error e =>
    simp only [hm, bind, Except.bind] at h
    cases h
  | ok state =>
    have hfrozen := frozen_makeDirectories hm
    obtain ⟨hpaved, hfollow, hdir⟩ := foldlM_enter_spec hm
    obtain ⟨d₁, above⟩ := state
    have habove : above = placeOf (d.absolute p).dropLast := foldlM_step_eq hfollow
    subst habove
    have hstep : d₁.step (placeOf (d.absolute p).dropLast) ((d.absolute p).getLast?.getD .root) =
        .ok (placeOf (d.absolute p)) :=
      step_iff.mpr ⟨placeOf_eq_landing _, .inr (hdir ⟨0, rfl⟩)⟩
    simp only [hm, bind, Except.bind, hstep] at h
    refine ⟨d₁, hpaved, ⟨hfollow, hdir ⟨0, rfl⟩⟩, ?_⟩
    split at h
    next => cases h
    next hn =>
      split at h
      next => cases h
      next hfree =>
        cases h
        refine ⟨?_, ?_, rfl⟩
        · rintro ⟨t, ht⟩
          exact hn t ht
        · rw [hfrozen, List.contains_iff_mem] at hfree
          exact hfree

theorem cwd_write {d d' : Disk} {p : Path} {content : Bytes} {t : Timestamp}
    (h : d.write p content t = .ok d') : d'.cwd = d.cwd := by
  obtain ⟨d₁, hpaved, -, -, -, rfl⟩ := write_cases h
  exact hpaved.grows.cwd

theorem cwd_replace {d d' : Disk} {p : Path} {content : Bytes}
    (h : d.replace p content = .ok d') : d'.cwd = d.cwd :=
  cwd_write h

theorem remove_cases {d d' : Disk} {p : Path} (h : d.remove p = .ok d') :
    (∃ content t, d.node? (placeOf (d.absolute p)) = some (.file content t)) ∧
      placeOf (d.absolute p) ∉ d.frozen ∧
      d' = { d with nodes := d.nodes.erase (placeOf (d.absolute p)) } := by
  rw [remove] at h
  cases hf : d.find p with
  | error e =>
    simp only [hf, bind, Except.bind] at h
    cases h
  | ok node =>
    obtain ⟨hfollow, hnode⟩ := find_cases hf
    cases node with
    | directory modified =>
      simp only [hf, bind, Except.bind] at h
      cases h
    | file content modified =>
      simp only [hf, bind, Except.bind, hfollow] at h
      split at h
      next => cases h
      next hfree =>
        cases h
        rw [List.contains_iff_mem] at hfree
        exact ⟨⟨content, modified, hnode⟩, hfree, rfl⟩

theorem cwd_remove {d d' : Disk} {p : Path} (h : d.remove p = .ok d') : d'.cwd = d.cwd := by
  obtain ⟨-, -, rfl⟩ := remove_cases h
  rfl

theorem node?_remove {d d' : Disk} {p : Path} (h : d.remove p = .ok d') (place : Place) :
    d'.node? place = if place = placeOf (d.absolute p) then none else d.node? place := by
  obtain ⟨⟨content, t, hfile⟩, -, rfl⟩ := remove_cases h
  have hroot : placeOf (d.absolute p) ≠ [] := by
    intro he
    rw [he] at hfile
    cases hfile
  rw [node?, node?]
  dsimp only
  rw [OrderedMap.find?_erase]
  by_cases hplace : place = placeOf (d.absolute p)
  · rw [if_pos hplace, hplace, if_neg hroot, if_pos Std.ReflOrd.compare_self]
  · rw [if_neg hplace, if_neg fun he => hplace (Std.LawfulEqOrd.eq_of_compare he).symm]

theorem write_spec {d d' : Disk} {p : Path} {content : Bytes} {t : Timestamp}
    {cs : List (Component Char)} {name : List Char} (hp : d.absolute p = cs ++ [.normal name])
    (h : d.write p content t = .ok d') :
    d'.cwd = d.cwd ∧ d'.Seen cs ∧ ¬ d.IsDirectory (placeOf cs ++ [name]) ∧
      d'.node? (placeOf cs ++ [name]) = some (.file content t) ∧
      ∀ q, q ≠ placeOf cs ++ [name] →
        (∀ node, d.node? q = some node → d'.node? q = some node) ∧
        ∀ content t, d'.node? q = some (.file content t) → d.node? q = some (.file content t) := by
  have hcwd := cwd_write h
  have hplace : placeOf (d.absolute p) = placeOf cs ++ [name] := by rw [hp, placeOf_concat]
  obtain ⟨d₁, hpaved, ⟨hfollow, hdir⟩, hnone, -, hd⟩ := write_cases h
  rw [hp, List.dropLast_concat] at hfollow hdir
  rw [hplace] at hnone hd
  have hroot : placeOf cs ++ [name] ≠ [] := by simp
  have hnode := d₁.node?_insert hroot (.file content t)
  rw [← hd] at hnode
  have hother : ∀ q, q ≠ placeOf cs ++ [name] → d'.node? q = d₁.node? q := by
    intro q hq
    rw [hnode, if_neg hq]
  have hkeep : ∀ place, d₁.IsDirectory place → d'.IsDirectory place := by
    rintro place ⟨t, ht⟩
    refine ⟨t, ?_⟩
    rw [hother place fun he => hnone (he ▸ ⟨t, ht⟩), ht]
  refine ⟨hcwd, ⟨?_, hkeep _ hdir⟩, fun he => hnone (hpaved.grows.isDirectory he), ?_,
    fun q hq => ⟨fun node hn => ?_, fun content t hf => ?_⟩⟩
  · exact foldlM_step_mono hkeep hfollow
  · rw [hnode, if_pos rfl]
  · rw [hother q hq, hpaved.grows.keeps q node hn]
  · rw [hother q hq] at hf
    exact hpaved.files q content t hf

def content? (d : Disk) (place : Place) : Option Bytes :=
  match d.node? place with
  | some (.file content _) => some content
  | _ => none

theorem content?_eq_some {d : Disk} {place : Place} {content : Bytes} :
    d.content? place = some content ↔ ∃ t, d.node? place = some (.file content t) := by
  rw [content?]
  split <;> simp_all

theorem content?_of_read {d : Disk} {p : Path} {content : Bytes} (h : d.read p = .ok content) :
    d.content? (placeOf (d.absolute p)) = some content := by
  rw [read] at h
  cases hf : d.find p with
  | error e =>
    rw [hf] at h
    cases h
  | ok node =>
    rw [hf] at h
    cases node with
    | directory t => cases h
    | file found t =>
      cases h
      exact content?_eq_some.mpr ⟨t, node?_of_find hf⟩

theorem Paved.content? {d d' : Disk} (h : d.Paved d') (q : Place) :
    d'.content? q = d.content? q := by
  refine Option.ext fun bytes => ?_
  rw [content?_eq_some, content?_eq_some]
  exact ⟨fun ⟨t, ht⟩ => ⟨t, h.files q bytes t ht⟩, fun ⟨t, ht⟩ => ⟨t, h.grows.keeps q _ ht⟩⟩

theorem content?_write {d d' : Disk} {p : Path} {content : Bytes} {t : Timestamp}
    (h : d.write p content t = .ok d') (q : Place) :
    d'.content? q = if q = placeOf (d.absolute p) then some content else d.content? q := by
  obtain ⟨d₁, hpaved, -, hnone, -, rfl⟩ := write_cases h
  have hroot : placeOf (d.absolute p) ≠ [] := fun he => hnone (he ▸ ⟨0, rfl⟩)
  rw [← hpaved.content? q, content?, node?_insert d₁ hroot, content?]
  by_cases hq : q = placeOf (d.absolute p)
  · rw [if_pos hq, if_pos hq]
  · rw [if_neg hq, if_neg hq]

theorem content?_remove {d d' : Disk} {p : Path} (h : d.remove p = .ok d') (q : Place) :
    d'.content? q = if q = placeOf (d.absolute p) then none else d.content? q := by
  rw [content?, node?_remove h, content?]
  by_cases hq : q = placeOf (d.absolute p)
  · rw [if_pos hq, if_pos hq]
  · rw [if_neg hq, if_neg hq]

theorem read_eq_ok {d : Disk} {p : Path} {content : Bytes} :
    d.read p = .ok content ↔ ∃ t, d.find p = .ok (.file content t) := by
  rw [read]
  cases d.find p with
  | error e => simp [bind, Except.bind]
  | ok node =>
    cases node <;>
      simp [bind, Except.bind, pure, Except.pure, throw, throwThe, MonadExceptOf.throw]

section Elsewhere

/-! A file stays readable while others are written and removed. -/

variable {d d' : Disk} {p q : Path} {content bytes : Bytes}

theorem read_mono (hcwd : d'.cwd = d.cwd)
    (hdir : ∀ place, d.IsDirectory place → d'.IsDirectory place)
    (hfile : ∀ node, d.node? (placeOf (d.absolute q)) = some node →
      d'.node? (placeOf (d.absolute q)) = some node) (h : d.read q = .ok bytes) :
    d'.read q = .ok bytes := by
  obtain ⟨t, hf⟩ := read_eq_ok.mp h
  exact read_eq_ok.mpr ⟨t, find_mono hcwd hdir (hfile _ (node?_of_find hf)) hf⟩

theorem isDirectory_write {t : Timestamp} (h : d.write p content t = .ok d') (place : Place)
    (hdir : d.IsDirectory place) : d'.IsDirectory place := by
  obtain ⟨d₁, hpaved, -, hnone, -, rfl⟩ := write_cases h
  have hroot : placeOf (d.absolute p) ≠ [] := fun he => hnone (he ▸ ⟨0, rfl⟩)
  obtain ⟨t', ht'⟩ := hpaved.grows.isDirectory hdir
  have hother : place ≠ placeOf (d.absolute p) := fun he => hnone ⟨t', he ▸ ht'⟩
  refine ⟨t', ?_⟩
  rw [d₁.node?_insert hroot, if_neg hother, ht']

theorem read_write_of_ne {t : Timestamp} (h : d.write p content t = .ok d')
    (hne : placeOf (d.absolute q) ≠ placeOf (d.absolute p)) (hr : d.read q = .ok bytes) :
    d'.read q = .ok bytes := by
  refine read_mono (cwd_write h) (isDirectory_write h) (fun node hn => ?_) hr
  obtain ⟨d₁, hpaved, -, hnone, -, rfl⟩ := write_cases h
  have hroot : placeOf (d.absolute p) ≠ [] := fun he => hnone (he ▸ ⟨0, rfl⟩)
  rw [d₁.node?_insert hroot, if_neg hne, hpaved.grows.keeps _ _ hn]

theorem isDirectory_remove (h : d.remove p = .ok d') (place : Place) :
    d'.IsDirectory place ↔ d.IsDirectory place := by
  rw [IsDirectory, IsDirectory, node?_remove h]
  split
  next he =>
    obtain ⟨⟨content, t, hfile⟩, -, -⟩ := remove_cases h
    simp [he, hfile]
  next => rfl

/-- Removing a file neither hides another one nor brings it to light. -/
theorem read_remove_of_ne (h : d.remove p = .ok d')
    (hne : placeOf (d.absolute q) ≠ placeOf (d.absolute p)) :
    d'.read q = .ok bytes ↔ d.read q = .ok bytes := by
  have hcwd := cwd_remove h
  have habs := absolute_of_cwd hcwd q
  constructor
  · refine read_mono hcwd.symm (fun place => (isDirectory_remove h place).mp) fun node hn => ?_
    rw [habs, node?_remove h, if_neg hne] at hn
    rwa [habs]
  · refine read_mono hcwd (fun place => (isDirectory_remove h place).mpr) fun node hn => ?_
    rwa [node?_remove h, if_neg hne]

end Elsewhere

/-- The disk on which the file at a place can be read but neither replaced nor removed. -/
def freeze (d : Disk) (place : Place) : Disk := { d with frozen := place :: d.frozen }

theorem replace_freeze (d : Disk) (p : Path) (content : Bytes) :
    ∃ cause, (d.freeze (placeOf (d.absolute p))).replace p content = .error cause := by
  cases h : (d.freeze (placeOf (d.absolute p))).replace p content with
  | error cause => exact ⟨cause, rfl⟩
  | ok d' =>
    obtain ⟨-, -, -, -, hfree, -⟩ := write_cases h
    exact absurd List.mem_cons_self hfree

theorem remove_freeze {d : Disk} {p : Path} {bytes : Bytes} (h : d.read p = .ok bytes) :
    (d.freeze (placeOf (d.absolute p))).remove p = .error .refused := by
  obtain ⟨t, hf⟩ := read_eq_ok.mp h
  have hfind : (d.freeze (placeOf (d.absolute p))).find p = .ok (.file bytes t) := hf
  have hfollow : (d.freeze (placeOf (d.absolute p))).follow (d.absolute p) =
      .ok (placeOf (d.absolute p)) := (find_cases hf).1
  have habs : (d.freeze (placeOf (d.absolute p))).absolute p = d.absolute p := rfl
  rw [remove, hfind, habs]
  simp only [bind, Except.bind, hfollow]
  exact if_pos (List.contains_iff_mem.mpr List.mem_cons_self)

end Disk

end SymbolIndex
