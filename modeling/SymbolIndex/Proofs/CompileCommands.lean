import SymbolIndex.CompileCommands
import SymbolIndex.Proofs.History
import SymbolIndex.Proofs.Path

/-! Which arguments a file is compiled with. The table holds, for each file that a usable command
names, what the last such command gives. A file without an entry takes the arguments of the nearest
one: the scan over the entries in their order keeps the last of those that share the most. -/

namespace SymbolIndex

namespace CompileCommand

/-- What a usable command gives: its arguments or, without any, the words of its line. -/
inductive Gives (c : CompileCommand) (args : List String) : Prop
  | arguments (h : c.arguments = some args)
  | words (h : c.arguments = none) (line : String) (hline : c.command = some line)
      (hsplit : ShellWords.split? line = some args)

theorem args?_eq_some_iff {c : CompileCommand} {args : List String} :
    c.args? = some args ↔ c.Gives args := by
  cases ha : c.arguments with
  | some given =>
    have hargs : c.args? = some given := by rw [args?, ha]; rfl
    rw [hargs]
    constructor
    · exact fun h => .arguments (ha.trans h)
    · rintro (h | ⟨h, -⟩)
      · exact ha.symm.trans h
      · rw [ha] at h
        cases h
  | none =>
    have hargs : c.args? = c.command.bind ShellWords.split? := by rw [args?, ha]; rfl
    rw [hargs, Option.bind_eq_some_iff]
    constructor
    · rintro ⟨line, hline, hsplit⟩
      exact .words ha line hline hsplit
    · rintro (h | ⟨-, line, hline, hsplit⟩)
      · rw [ha] at h
        cases h
      · exact ⟨line, hline, hsplit⟩

theorem args?_eq_none_iff {c : CompileCommand} : c.args? = none ↔ ∀ args, ¬ c.Gives args := by
  rw [Option.eq_none_iff_forall_ne_some]
  exact forall_congr' fun args => not_congr args?_eq_some_iff

theorem clean_target (c : CompileCommand) (cwd : Option Path) :
    (c.target cwd).clean = c.target cwd :=
  Path.clean_normalizeAgainst _ _

end CompileCommand

namespace CompileCommands

variable {cwd : Option Path} {commands : List CompileCommand} {p file : Path} {args : List String}

/-- The last usable command of a file gives these arguments. -/
def Listed (cwd : Option Path) (commands : List CompileCommand) (file : Path)
    (args : List String) : Prop :=
  ∃ before c after, commands = before ++ c :: after ∧ c.target cwd = file ∧ c.Gives args ∧
    ∀ later ∈ after, later.target cwd = file → ∀ other, ¬ later.Gives other

theorem listed_iff_since : Listed cwd commands file args ↔
    Since (fun _ c => c.target cwd = file ∧ c.Gives args)
      (fun later => later.target cwd = file → ∀ other, ¬ later.Gives other) commands := by
  simp only [Listed, Since, and_assoc]

theorem not_listed_nil : ¬ Listed cwd [] file args :=
  fun h => not_since_nil (listed_iff_since.mp h)

theorem listed_concat {c : CompileCommand} : Listed cwd (commands ++ [c]) file args ↔
    c.target cwd = file ∧ c.Gives args ∨
      (c.target cwd = file → ∀ other, ¬ c.Gives other) ∧ Listed cwd commands file args := by
  rw [listed_iff_since, since_concat, listed_iff_since]

theorem Listed.clean (h : Listed cwd commands file args) : file.clean = file := by
  obtain ⟨before, c, after, -, rfl, -⟩ := h
  exact c.clean_target cwd

theorem Listed.exists_gives (h : Listed cwd commands file args) :
    ∃ c ∈ commands, c.Gives args := by
  obtain ⟨before, c, after, rfl, -, hgives, -⟩ := h
  exact ⟨c, by simp, hgives⟩

section Table

theorem find?_concat (cwd : Option Path) (commands : List CompileCommand) (c : CompileCommand)
    (p : Path) : (ofCommands cwd (commands ++ [c])).entries.find? p =
      if compare p (c.target cwd) = .eq then
        c.args?.or ((ofCommands cwd commands).entries.find? p)
      else (ofCommands cwd commands).entries.find? p := by
  rw [ofCommands, ofCommands, List.filterMap_append, OrderedMap.ofList, OrderedMap.insertAll,
    List.foldl_append]
  cases ha : c.args? with
  | none => simp [ha, OrderedMap.ofList, OrderedMap.insertAll]
  | some args =>
    simp only [List.filterMap_cons, ha, Option.map_some, List.filterMap_nil, List.foldl_cons,
      List.foldl_nil, OrderedMap.find?_insert]
    rfl

theorem find?_eq_some_iff (hp : p.clean = p) :
    (ofCommands cwd commands).entries.find? p = some args ↔ Listed cwd commands p args := by
  induction commands using List.reverseRecOn with
  | nil => exact iff_of_false (Option.some_ne_none args).symm not_listed_nil
  | append_singleton before c ih =>
    rw [find?_concat, listed_concat]
    by_cases htarget : c.target cwd = p
    · rw [htarget, if_pos Std.ReflCmp.compare_self]
      cases ha : c.args? with
      | some given =>
        have hgives := CompileCommand.args?_eq_some_iff.mp ha
        rw [Option.some_or, ← ha, CompileCommand.args?_eq_some_iff]
        exact ⟨fun h => .inl ⟨rfl, h⟩, fun h => h.elim (·.2) fun h => absurd hgives (h.1 rfl given)⟩
      | none =>
        have hnone := CompileCommand.args?_eq_none_iff.mp ha
        rw [Option.none_or, ih]
        exact ⟨fun h => .inr ⟨fun _ => hnone, h⟩, fun h => h.elim (absurd ·.2 (hnone args)) (·.2)⟩
    · have hne : compare p (c.target cwd) ≠ .eq := fun h =>
        htarget (Path.eq_of_same_clean hp (c.clean_target cwd) (Path.compare_eq_iff.mp h)).symm
      rw [if_neg hne, ih]
      exact ⟨fun h => .inr ⟨fun ht => absurd ht htarget, h⟩,
        fun h => h.elim (fun h => absurd h.1 htarget) (·.2)⟩

theorem clean_of_mem_entries {e : Path × List String}
    (h : e ∈ (ofCommands cwd commands).entries.entries) : e.1.clean = e.1 := by
  refine OrderedMap.forall_mem_ofList (P := fun e : Path × List String => e.1.clean = e.1) (fun _ _ _ _ _ _ h => h)
    (fun e he => ?_) e h
  obtain ⟨c, -, hc⟩ := List.mem_filterMap.mp he
  obtain ⟨args, -, rfl⟩ := Option.map_eq_some_iff.mp hc
  exact c.clean_target cwd

theorem mem_entries_iff :
    (file, args) ∈ (ofCommands cwd commands).entries.entries ↔ Listed cwd commands file args := by
  constructor
  · intro h
    exact (find?_eq_some_iff (clean_of_mem_entries h)).mp (OrderedMap.find?_eq_some_of_mem h)
  · intro h
    obtain ⟨key, hkey, hmem⟩ := OrderedMap.exists_mem_of_find? ((find?_eq_some_iff h.clean).mpr h)
    rwa [Path.eq_of_same_clean h.clean (clean_of_mem_entries hmem) (Path.compare_eq_iff.mp hkey)]

theorem Listed.unique {given : List String} (h : Listed cwd commands file args)
    (h' : Listed cwd commands file given) : args = given :=
  Option.some.inj (((find?_eq_some_iff h.clean).mpr h).symm.trans
    ((find?_eq_some_iff h.clean).mpr h'))

theorem exists_listed_iff :
    (∃ file args, Listed cwd commands file args) ↔ ∃ c ∈ commands, ∃ args, c.Gives args := by
  constructor
  · rintro ⟨file, args, h⟩
    obtain ⟨c, hc, hgives⟩ := h.exists_gives
    exact ⟨c, hc, args, hgives⟩
  · induction commands using List.reverseRecOn with
    | nil =>
      rintro ⟨c, hc, -⟩
      exact absurd hc List.not_mem_nil
    | append_singleton before last ih =>
      rintro ⟨c, hc, args, hgives⟩
      by_cases hlast : ∃ args, last.Gives args
      · obtain ⟨args, hgives⟩ := hlast
        exact ⟨last.target cwd, args, listed_concat.mpr (.inl ⟨rfl, hgives⟩)⟩
      · rw [not_exists] at hlast
        rcases List.mem_append.mp hc with hc | hc
        · obtain ⟨file, args, h⟩ := ih ⟨c, hc, args, hgives⟩
          exact ⟨file, args, listed_concat.mpr (.inr ⟨fun _ => hlast, h⟩)⟩
        · rw [List.mem_singleton.mp hc] at hgives
          exact absurd hgives (hlast args)

end Table

section Nearest

theorem exists_front_cons {α : Type} {n : Nat} {x y : α} {a b : List α} :
    (∃ front, front.length = n + 1 ∧ front <+: x :: a ∧ front <+: y :: b) ↔
      x = y ∧ ∃ front, front.length = n ∧ front <+: a ∧ front <+: b := by
  constructor
  · rintro ⟨_ | ⟨z, front⟩, hlength, ha, hb⟩
    · cases hlength
    · obtain ⟨hx, ha⟩ := List.cons_prefix_cons.mp ha
      obtain ⟨hy, hb⟩ := List.cons_prefix_cons.mp hb
      exact ⟨hx.symm.trans hy, front, Nat.succ.inj hlength, ha, hb⟩
  · rintro ⟨rfl, front, hlength, ha, hb⟩
    exact ⟨x :: front, congrArg _ hlength, List.cons_prefix_cons.mpr ⟨rfl, ha⟩,
      List.cons_prefix_cons.mpr ⟨rfl, hb⟩⟩

theorem le_length_takeWhile_zip {α : Type} [DecidableEq α] (n : Nat) (a b : List α) :
    n ≤ ((a.zip b).takeWhile fun e => e.1 = e.2).length ↔
      ∃ front, front.length = n ∧ front <+: a ∧ front <+: b := by
  induction a generalizing n b with
  | nil => simp [eq_comm]
  | cons x a ih =>
    cases b with
    | nil => simp [eq_comm]
    | cons y b =>
      cases n with
      | zero => simp
      | succ n =>
        rw [exists_front_cons, ← ih, List.zip_cons_cons]
        by_cases hxy : x = y
        · rw [List.takeWhile_cons_of_pos (by simpa using hxy), List.length_cons,
            Nat.succ_le_succ_iff]
          exact (and_iff_right hxy).symm
        · rw [List.takeWhile_cons_of_neg (by simpa using hxy)]
          exact iff_of_false (Nat.not_succ_le_zero n) fun h => hxy h.1

/-- Two paths start with the same `n` components. -/
def Shares (n : Nat) (p q : Path) : Prop :=
  ∃ front, front.length = n ∧ front <+: p.components ∧ front <+: q.components

theorem le_sharedComponents_iff {n : Nat} {p q : Path} :
    n ≤ sharedComponents p q ↔ Shares n p q :=
  le_length_takeWhile_zip n _ _

/-- One file is nearer to `p` than another: it shares more or, sharing as much, comes later. -/
def Nearer (p file other : Path) : Prop :=
  (∃ n, Shares n file p ∧ ¬ Shares n other p) ∨
    (∀ n, Shares n other p ↔ Shares n file p) ∧ compare other file = .lt

theorem nearer_iff {other : Path} : Nearer p file other ↔
    sharedComponents other p < sharedComponents file p ∨
      sharedComponents other p = sharedComponents file p ∧ compare other file = .lt := by
  simp only [Nearer, ← le_sharedComponents_iff]
  refine or_congr ⟨?_, fun h => ⟨_, Nat.le_refl _, Nat.not_le_of_lt h⟩⟩ (and_congr_left' ?_)
  · rintro ⟨n, hfile, hother⟩
    exact Nat.lt_of_lt_of_le (Nat.lt_of_not_le hother) hfile
  · exact ⟨fun h => Nat.le_antisymm ((h _).mp (Nat.le_refl _)) ((h _).mpr (Nat.le_refl _)),
      fun h n => h ▸ Iff.rfl⟩

theorem Nearer.not_symm {other : Path} (h : Nearer p file other) : ¬ Nearer p other file := by
  rw [nearer_iff] at h ⊢
  rintro (hless | ⟨hsame, hlt⟩)
  · rcases h with hmore | ⟨hsame, -⟩
    · exact Nat.lt_asymm hless hmore
    · exact Nat.ne_of_lt hless hsame.symm
  · rcases h with hmore | ⟨-, hlt'⟩
    · exact Nat.ne_of_lt hmore hsame.symm
    · rw [Std.OrientedOrd.eq_swap, hlt'] at hlt
      cases hlt

/-- Of the files that have an entry, the one that lends its arguments to `p`. -/
structure Nearest (cwd : Option Path) (commands : List CompileCommand) (p file : Path)
    (args : List String) : Prop where
  listed : Listed cwd commands file args
  nearer : ∀ other given, Listed cwd commands other given → other ≠ file → Nearer p file other

theorem Nearest.unique {other : Path} {given : List String}
    (h : Nearest cwd commands p file args) (h' : Nearest cwd commands p other given) :
    file = other ∧ args = given := by
  have hfile : file = other := by
    by_contra hne
    exact (h.nearer other given h'.listed (Ne.symm hne)).not_symm
      (h'.nearer file args h.listed hne)
  subst hfile
  exact ⟨rfl, h.listed.unique h'.listed⟩

/-- The entries ascend, so that the last of those that share the most is the greatest of them. -/
theorem foldl_closer (p : Path) {first : Path × List String} {rest : List (Path × List String)}
    (h : (first :: rest).Pairwise fun a b => compare a.1 b.1 = .lt) :
    rest.foldl (closer p) first ∈ first :: rest ∧
      ∀ e ∈ first :: rest, e = rest.foldl (closer p) first ∨
        Nearer p (rest.foldl (closer p) first).1 e.1 := by
  induction rest using List.reverseRecOn with
  | nil => simp
  | append_singleton before next ih =>
    rw [← List.cons_append] at h ⊢
    obtain ⟨hbefore, -, hnext⟩ := List.pairwise_append.mp h
    obtain ⟨hbest, hall⟩ := ih hbefore
    rw [List.foldl_append, List.foldl_cons, List.foldl_nil]
    generalize before.foldl (closer p) first = best at hbest hall
    have hmost : ∀ e ∈ first :: before, sharedComponents e.1 p ≤ sharedComponents best.1 p := by
      intro e he
      rcases hall e he with rfl | hnearer
      · exact Nat.le_refl _
      · rcases nearer_iff.mp hnearer with hless | ⟨hsame, -⟩
        · exact Nat.le_of_lt hless
        · exact Nat.le_of_eq hsame
    rw [closer]
    split
    next hle =>
      -- The new entry comes after all others, so that it also wins a tie.
      refine ⟨List.mem_append_right _ (List.mem_singleton_self next), fun e he => ?_⟩
      rcases List.mem_append.mp he with he | he
      · have hlt := hnext e he next (List.mem_singleton_self next)
        have hshared := Nat.lt_or_eq_of_le (Nat.le_trans (hmost e he) hle)
        exact .inr (nearer_iff.mpr (hshared.imp_right fun hsame => ⟨hsame, hlt⟩))
      · exact .inl (List.mem_singleton.mp he)
    next hlt =>
      refine ⟨List.mem_append_left _ hbest, fun e he => ?_⟩
      rcases List.mem_append.mp he with he | he
      · exact hall e he
      · rw [List.mem_singleton.mp he]
        exact .inr (nearer_iff.mpr (.inl (Nat.lt_of_not_le hlt)))

theorem exists_closest? (h : ∃ file args, Listed cwd commands file args) (p : Path) :
    ∃ file args, (ofCommands cwd commands).closest? p = some (file, args) ∧
      Nearest cwd commands p file args := by
  have hasc := (ofCommands cwd commands).entries.ascending
  have hmem : ∀ file args, (file, args) ∈ (ofCommands cwd commands).entries.entries ↔
      Listed cwd commands file args := fun _ _ => mem_entries_iff
  rw [closest?]
  generalize (ofCommands cwd commands).entries.entries = entries at hasc hmem
  cases entries with
  | nil =>
    obtain ⟨file, args, hlisted⟩ := h
    exact absurd ((hmem file args).mpr hlisted) List.not_mem_nil
  | cons first rest =>
    obtain ⟨hbest, hall⟩ := foldl_closer p hasc
    refine ⟨_, _, rfl, (hmem _ _).mp hbest, fun other given hlisted hne => ?_⟩
    refine (hall (other, given) ((hmem other given).mpr hlisted)).resolve_left fun he => hne ?_
    rw [← he]

theorem closest?_eq_none (h : ∀ file args, ¬ Listed cwd commands file args) (p : Path) :
    (ofCommands cwd commands).closest? p = none := by
  have hnil : (ofCommands cwd commands).entries.entries = [] :=
    List.eq_nil_iff_forall_not_mem.mpr fun e he => h e.1 e.2 (mem_entries_iff.mp he)
  rw [closest?, hnil]

end Nearest

/-- What `p` is compiled with: what it is listed with or else, what the nearest file is. -/
def Chosen (cwd : Option Path) (commands : List CompileCommand) (p : Path)
    (args : List String) : Prop :=
  Listed cwd commands p args ∨
    (∀ own, ¬ Listed cwd commands p own) ∧ ∃ file, Nearest cwd commands p file args

theorem argsFor_of_listed (h : Listed cwd commands p args) :
    (ofCommands cwd commands).argsFor p = args := by
  rw [argsFor, (find?_eq_some_iff h.clean).mpr h]
  rfl

theorem argsFor_of_unlisted (hp : p.clean = p) (h : ∀ own, ¬ Listed cwd commands p own) :
    (ofCommands cwd commands).argsFor p =
      (((ofCommands cwd commands).closest? p).map (·.2)).getD [] := by
  have hnone : (ofCommands cwd commands).entries.find? p = none :=
    Option.eq_none_iff_forall_ne_some.mpr fun own he => h own ((find?_eq_some_iff hp).mp he)
  rw [argsFor, hnone]
  rfl

theorem argsFor_of_chosen (hp : p.clean = p) (h : Chosen cwd commands p args) :
    (ofCommands cwd commands).argsFor p = args := by
  rcases h with hown | ⟨hunlisted, file, hnear⟩
  · exact argsFor_of_listed hown
  · obtain ⟨other, given, hclosest, hnear'⟩ := exists_closest? ⟨file, args, hnear.listed⟩ p
    rw [argsFor_of_unlisted hp hunlisted, hclosest]
    exact (hnear.unique hnear').2.symm

theorem exists_chosen_iff : (∃ args, Chosen cwd commands p args) ↔
    ∃ c ∈ commands, ∃ args, c.Gives args := by
  rw [← exists_listed_iff]
  constructor
  · rintro ⟨args, hown | ⟨-, file, hnear⟩⟩
    · exact ⟨p, args, hown⟩
    · exact ⟨file, args, hnear.listed⟩
  · intro h
    by_cases hown : ∃ own, Listed cwd commands p own
    · obtain ⟨own, hown⟩ := hown
      exact ⟨own, .inl hown⟩
    · obtain ⟨file, args, -, hnear⟩ := exists_closest? h p
      exact ⟨args, .inr ⟨not_exists.mp hown, file, hnear⟩⟩

theorem argsFor_of_unusable (hp : p.clean = p) (h : ∀ c ∈ commands, ∀ args, ¬ c.Gives args) :
    (ofCommands cwd commands).argsFor p = [] := by
  have hnone : ∀ file args, ¬ Listed cwd commands file args := fun file args hlisted =>
    let ⟨c, hc, hgives⟩ := hlisted.exists_gives
    h c hc args hgives
  rw [argsFor_of_unlisted hp (hnone p), closest?_eq_none hnone]
  rfl

/-- What is read off the table of a list of commands, for the clean paths. -/
structure Answers (cwd : Option Path) (commands : List CompileCommand)
    (db : CompileCommands) : Prop where
  ascending : db.files.Pairwise fun a b => compare a b = .lt
  files : ∀ file, file ∈ db.files ↔ ∃ args, Listed cwd commands file args
  contains : ∀ p, p.clean = p → (db.contains p = true ↔ ∃ args, Listed cwd commands p args)
  args : ∀ p, p.clean = p → ∀ args, Chosen cwd commands p args → db.argsFor p = args
  chosen : ∀ p, (∃ args, Chosen cwd commands p args) ↔ ∃ c ∈ commands, ∃ args, c.Gives args
  nil : ∀ p, p.clean = p → (db.argsFor p = [] ↔
    (∀ c ∈ commands, ∀ args, ¬ c.Gives args) ∨ Chosen cwd commands p [])

theorem answers_ofCommands (cwd : Option Path) (commands : List CompileCommand) :
    Answers cwd commands (ofCommands cwd commands) where
  ascending := List.pairwise_map.mpr (ofCommands cwd commands).entries.ascending
  files file := by
    rw [files, OrderedMap.keys, List.mem_map]
    constructor
    · rintro ⟨e, he, rfl⟩
      exact ⟨e.2, mem_entries_iff.mp he⟩
    · rintro ⟨args, h⟩
      exact ⟨(file, args), mem_entries_iff.mpr h, rfl⟩
  contains p hp := by
    rw [contains, OrderedMap.contains, Option.isSome_iff_exists]
    exact exists_congr fun args => find?_eq_some_iff hp
  args p hp args h := argsFor_of_chosen hp h
  chosen p := exists_chosen_iff
  nil p hp := by
    constructor
    · intro hnil
      by_cases husable : ∃ c ∈ commands, ∃ args, c.Gives args
      · obtain ⟨args, hchosen⟩ := (exists_chosen_iff (p := p)).mpr husable
        rw [argsFor_of_chosen hp hchosen] at hnil
        exact .inr (hnil ▸ hchosen)
      · exact .inl fun c hc args hgives => husable ⟨c, hc, args, hgives⟩
    · rintro (h | h)
      · exact argsFor_of_unusable hp h
      · exact argsFor_of_chosen hp h

/-- A file is compiled with what the last of its usable commands gives, in whatever spelling the
command names it; any other with what the file does that shares the most leading components with it,
the last of these in their order; and with nothing if no command is usable or nothing is given. -/
theorem lookup_of_parse {content : Bytes} {db : CompileCommands}
    (h : parse? cwd content = some db) :
    ∃ commands, (Json.parse? content).bind (Json.list? CompileCommand.ofJson?) = some commands ∧
      Answers cwd commands db := by
  obtain ⟨commands, hcommands, rfl⟩ := Option.map_eq_some_iff.mp h
  exact ⟨commands, hcommands, answers_ofCommands cwd commands⟩

/-- A project names one file three times, at last on a line that cannot be split. One header borrows
from the other file in its directory, and one that is as near to both takes the greater. -/
theorem lookup_of_parse_project :
    let content := Bytes.ofText ("[\x7b\"directory\":\"build\",\"file\":\"../src/a.cc\"," ++
      "\"arguments\":[\"cc\"]\x7d,\x7b\"directory\":\"/w/src\",\"file\":\"./a.cc\"," ++
      "\"command\":\"cc 'a b'\"\x7d,\x7b\"directory\":\"/w/src\",\"file\":\"a.cc\"," ++
      "\"command\":\"cc 'a b\"\x7d,\x7b\"directory\":\"/w\",\"file\":\"lib/b.cc\"," ++
      "\"arguments\":[\"c++\"]\x7d]")
    ∃ db, parse? (some ⟨"/w"⟩) content = some db ∧
      db.argsFor ⟨"/w/src/a.cc"⟩ = ["cc", "a b"] ∧ db.contains ⟨"/w/src/a.cc"⟩ = true ∧
      db.argsFor ⟨"/w/lib/b.h"⟩ = ["c++"] ∧ ¬ db.contains ⟨"/w/lib/b.h"⟩ = true ∧
      db.argsFor ⟨"/w/x.h"⟩ = ["cc", "a b"] := by
  intro content
  have hdb : (parse? (some ⟨"/w"⟩) content).isSome = true := by decide +kernel
  obtain ⟨db, hdb⟩ := Option.isSome_iff_exists.mp hdb
  obtain ⟨commands, hcommands, h⟩ := lookup_of_parse hdb
  have hentries : ((Json.parse? content).bind (Json.list? CompileCommand.ofJson?)).map
      (fun commands => (ofCommands (some ⟨"/w"⟩) commands).entries.entries) =
        some [(⟨"/w/lib/b.cc"⟩, ["c++"]), (⟨"/w/src/a.cc"⟩, ["cc", "a b"])] := by decide +kernel
  rw [hcommands, Option.map_some, Option.some.injEq] at hentries
  have hlisted : ∀ file args, Listed (some ⟨"/w"⟩) commands file args ↔
      (file, args) = (⟨"/w/lib/b.cc"⟩, ["c++"]) ∨
        (file, args) = (⟨"/w/src/a.cc"⟩, ["cc", "a b"]) := by
    intro file args
    rw [← mem_entries_iff, hentries, List.mem_cons, List.mem_singleton]
  have hlibrary := (hlisted _ _).mpr (.inl rfl)
  have hsource := (hlisted _ _).mpr (.inr rfl)
  have hheader : ∀ own, ¬ Listed (some ⟨"/w"⟩) commands ⟨"/w/lib/b.h"⟩ own := fun own => by
    simp [hlisted]
  have hroot : ∀ own, ¬ Listed (some ⟨"/w"⟩) commands ⟨"/w/x.h"⟩ own := fun own => by
    simp [hlisted]
  have hbeside : Nearest (some ⟨"/w"⟩) commands ⟨"/w/lib/b.h"⟩ ⟨"/w/lib/b.cc"⟩ ["c++"] := by
    refine ⟨hlibrary, fun other given hother hne => ?_⟩
    rcases (hlisted other given).mp hother with he | he
    · exact absurd (congrArg Prod.fst he) hne
    · cases he
      exact nearer_iff.mpr (by decide +kernel)
  have hgreater : Nearest (some ⟨"/w"⟩) commands ⟨"/w/x.h"⟩ ⟨"/w/src/a.cc"⟩ ["cc", "a b"] := by
    refine ⟨hsource, fun other given hother hne => ?_⟩
    rcases (hlisted other given).mp hother with he | he
    · cases he
      exact nearer_iff.mpr (by decide +kernel)
    · exact absurd (congrArg Prod.fst he) hne
  exact ⟨db, hdb, h.args _ (by decide +kernel) _ (.inl hsource),
    (h.contains _ (by decide +kernel)).mpr ⟨_, hsource⟩,
    h.args _ (by decide +kernel) _ (.inr ⟨hheader, _, hbeside⟩),
    fun hc => not_exists.mpr hheader ((h.contains _ (by decide +kernel)).mp hc),
    h.args _ (by decide +kernel) _ (.inr ⟨hroot, _, hgreater⟩)⟩

end CompileCommands

end SymbolIndex
