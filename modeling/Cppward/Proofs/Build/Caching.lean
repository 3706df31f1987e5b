import Cppward.Proofs.Build.Loading
import Cppward.Proofs.Cache.Refusal

namespace Cppward.Build

open Node
open String (ofList)

/-!
# A cache over many runs

A file is read again and again, with and without the standard modules, and is edited in between.
The first run behind an edit writes the cache, and later runs use it.  It does not say whether the
standard modules were asked for.

* `Event`, `History` — what happens to a file and its cache.
* `Tracked` — what the cache holds, at every moment of a history.
* `readFile_transparent_iff` — when a run gives what it would give without a cache.
-/

open Source Grammar Text

/-- Something that happens to a file and its cache. -/
inductive Event where
  /-- The file is read. -/
  | run (standard : Bool)
  /-- The file gets another text. -/
  | edit
  /-- Something happens to other files. -/
  | elsewhere
  deriving DecidableEq

/-- What an event does to the files.  An edit makes the file newer than the cache. -/
inductive Happens (path cache : String) (d : Disk) : Event → Disk → Prop
  | run (standard : Bool) :
      Happens path cache d (.run standard) ((readFile standard path cache).perform d).2
  | edit {d' : Disk} {file : File} (hdirectory : d'.directory = d.directory)
      (hfile : d'.find? path = some file) (hpast : file.time < d'.clock)
      (hcache : d'.find? cache = d.find? cache)
      (hlater : ∀ entry, d.find? cache = some entry → entry.time < file.time) :
      Happens path cache d .edit d'
  | elsewhere {d' : Disk} (hdirectory : d'.directory = d.directory)
      (hfile : d'.find? path = d.find? path) (hcache : d'.find? cache = d.find? cache)
      (hclock : d.clock ≤ d'.clock) : Happens path cache d .elsewhere d'

/-- What happened since the files were `start`, the latest event first. -/
inductive History (path cache : String) (start : Disk) : List Event → Disk → Prop
  | start : History path cache start [] start
  | next {es : List Event} {e : Event} {d d' : Disk} (hes : History path cache start es d)
      (he : Happens path cache d e d') : History path cache start (e :: es) d'

/-- How the first run behind the last edit was made. -/
def writer : List Event → Option Bool
  | [] | .edit :: _ => none
  | .elsewhere :: es => writer es
  | .run standard :: es => (writer es).or (some standard)

/-- A literal holds a character. -/
def HasInLiteral (c : Char) (module : Node) : Prop := ∃ t ∈ module.literals, c ∈ t.toList

/-- What the cache of a file holds, by the first run behind the last edit. -/
inductive CacheHolds (file : File) (stored? : Option File) : Option Bool → Prop
  | nothing (hold : ∀ entry, stored? = some entry → entry.time ≤ file.time) :
      CacheHolds file stored? none
  | unreadable {b : Bool} {e : Failure}
      (hread : readModule (ofList file.content) = .error e)
      (hold : ∀ entry, stored? = some entry → entry.time ≤ file.time) :
      CacheHolds file stored? (some b)
  | tree {b b' : Bool} {module : Node} {entry : File}
      (hread : readModule (ofList file.content) = .ok module)
      (hentry : stored? = some entry) (hnew : file.time < entry.time)
      (htext : entry.text = (completed b' module).constructorText Style.cache)
      (hflag : b' = b ∨ HasInLiteral '\r' module) : CacheHolds file stored? (some b)

/-- The state of a file and its cache in a history. -/
structure Tracked (path cache : String) (d : Disk) (w : Option Bool) (file : File) : Prop where
  distinct : d.resolve path ≠ d.resolve cache
  found : d.find? path = some file
  past : file.time < d.clock
  holds : CacheHolds file (d.find? cache) w

/-! ### The tree that is written -/

section Tree

variable {module : Node} {c : Char} {standard standard' : Bool} {file entry : File}

theorem isModule_completed (h : module.isModule = true) :
    (completed standard module).isModule = true := by
  cases standard <;> exact h

theorem grammatical_include {name : String} (h : IsWord name) :
    (ofCall (ident "include") [ident name]).Grammatical := by
  have hident : ∀ {t : String}, IsWord t → (ident t).Grammatical := fun ht =>
    .make ⟨ht, rfl, rfl⟩ nofun nofun
  refine .make ⟨rfl, rfl⟩ ?_ ?_
  · rintro _ ⟨⟩
    exact hident (by unfold IsWord; decide)
  · simpa using hident h

theorem grammatical_completed (h : module.Grammatical) (hmodule : module.isModule = true) :
    (completed standard module).Grammatical := by
  cases standard with
  | false => exact h
  | true =>
    cases h with
    | @make kind func args loc hkind hfunc hargs =>
      cases kind <;> cases hmodule
      refine .make hkind hfunc fun a ha => ?_
      rcases List.mem_append.mp ha with ha | ha
      · obtain ⟨name, hname, rfl⟩ := List.mem_map.mp ha
        have hwords : ∀ name ∈ standardModules, IsWord name := by
          unfold IsWord
          decide
        exact grammatical_include (hwords name hname)
      · exact hargs a ha

theorem literals_completed : (completed standard module).literals = module.literals := by
  cases standard with
  | false => rfl
  | true =>
    have hincludes : ((standardModules.map fun name =>
        ofCall (ident "include") [ident name]).flatMap walk).flatMap
          (fun m => m.kind.literals) = [] := by decide
    simp only [literals, completed, includeStandard, if_true, walk_eq _, parts,
      List.flatMap_cons, List.flatMap_append, hincludes, List.nil_append]

/-- The standard includes make a difference. -/
theorem completed_inj (h : completed standard module = completed standard' module) :
    standard = standard' := by
  have hlength := congrArg (fun n : Node => n.args.length) h
  cases standard <;> cases standard' <;>
    simp [completed, includeStandard, standardModules] at hlength ⊢ <;> omega

/-- What a cache gives that holds the tree of a text.  A null character is an error, and a carriage
    return makes it unusable. -/
theorem cachedTree_of_text (hread : readModule (ofList file.content) = .ok module)
    (hnew : file.time < entry.time)
    (htext : entry.text = (completed standard module).constructorText Style.cache) :
    (HasInLiteral '\x00' module → cachedTree file (some entry) = .error .unforeseen) ∧
    (¬HasInLiteral '\x00' module → HasInLiteral '\r' module →
      cachedTree file (some entry) = .ok none) ∧
    (¬HasInLiteral '\x00' module → ¬HasInLiteral '\r' module →
      cachedTree file (some entry) = .ok (some (completed standard module))) := by
  obtain ⟨hgrammatical, hmodule⟩ := grammatical_of_readModule hread
  have hcompleted : (completed standard module).Grammatical :=
    grammatical_completed hgrammatical hmodule
  have hlater : ¬entry.time ≤ file.time := by omega
  have hcontent : entry.content =
      Text.readNewlines ((completed standard module).constructorText Style.cache).toList := by
    rw [File.content, htext]
  have hliteral : ∀ c, IsControl c →
      c ∈ ((completed standard module).constructorText Style.cache).toList →
        HasInLiteral c module := by
    intro c hc hmem
    obtain ⟨t, ht, hct⟩ := Cache.exists_literal_of_mem_constructorText hcompleted hc hmem
    exact ⟨t, literals_completed ▸ ht, hct⟩
  refine ⟨fun hnull => ?_, fun hnull hreturn => ?_, fun hnull hreturn => ?_⟩
  · simp only [cachedTree, if_neg hlater, hcontent,
      Cache.read_of_null hcompleted (by rwa [literals_completed])]
  · have hunusable := Cache.read_of_carriageReturn hcompleted (by rwa [literals_completed])
      (by
        rw [literals_completed]
        exact fun t ht hct => hnull ⟨t, ht, hct⟩)
    simp only [cachedTree, if_neg hlater, hcontent, hunusable]
  · have hkept := Cache.readNewlines_of_not_mem fun hmem => hreturn (hliteral '\r' (by decide) hmem)
    have hentry := Cache.read_of_grammatical hcompleted (isModule_completed hmodule)
      fun hmem => hnull (hliteral '\x00' (by decide) hmem)
    simp only [cachedTree, if_neg hlater, hcontent, hkept, hentry]

end Tree

/-! ### One event -/

section Step

variable {path cache : String} {d d' : Disk} {w : Option Bool} {file : File} {module : Node}
  {standard b : Bool}

theorem readStep_of_none (hfile : d.find? path = some file)
    (hcached : cachedTree file (d.find? cache) = .ok none) :
    readStep standard path cache d =
      match readModule (ofList file.content) with
      | .error e => (.error e, d)
      | .ok module => (.ok (completed standard module),
          d.write cache ((completed standard module).constructorText Style.cache)) := by
  rw [readStep, hfile]
  simp only [hcached, parsedTree]
  cases readModule (ofList file.content) <;> rfl

theorem cachedTree_of_old {stored? : Option File}
    (hold : ∀ entry, stored? = some entry → entry.time ≤ file.time) :
    cachedTree file stored? = .ok none := by
  cases stored? with
  | none => rfl
  | some entry => rw [cachedTree, if_pos (hold entry rfl)]

theorem Tracked.write (h : Tracked path cache d w file)
    (hread : readModule (ofList file.content) = .ok module)
    (hflag : standard = b ∨ HasInLiteral '\r' module) :
    Tracked path cache
      (d.write cache ((completed standard module).constructorText Style.cache)) (some b) file where
  distinct := h.distinct
  found := (Disk.find?_write_of_ne h.distinct).trans h.found
  past := Nat.lt_succ_of_lt h.past
  holds := .tree hread Disk.find?_write_self h.past rfl hflag

theorem parsedTree_ok (hread : readModule (ofList file.content) = .ok module) :
    parsedTree standard file = .ok (completed standard module) := by
  rw [parsedTree, hread]
  rfl

theorem parsedTree_error {e : Failure}
    (hread : readModule (ofList file.content) = .error e) :
    parsedTree standard file = .error e := by
  rw [parsedTree, hread]
  rfl

/-- A read keeps the file tracked, and it is known when its result is the tree of the file. -/
theorem Tracked.readStep (h : Tracked path cache d w file) (standard : Bool) :
    Tracked path cache (readStep standard path cache d).2 (w.or (some standard)) file ∧
      ((Build.readStep standard path cache d).1 = parsedTree standard file ↔
        ∀ module b, readModule (ofList file.content) = .ok module → w = some b →
          ¬HasInLiteral '\x00' module ∧ (b = standard ∨ HasInLiteral '\r' module)) := by
  have hholds := h.holds
  cases hholds with
  | nothing hold =>
    rw [readStep_of_none h.found (cachedTree_of_old hold)]
    cases hread : readModule (ofList file.content) with
    | error e => exact ⟨{ h with holds := .unreadable hread hold }, by simp [parsedTree_error hread]⟩
    | ok module => exact ⟨h.write hread (.inl rfl), by simp [parsedTree_ok hread]⟩
  | unreadable hread hold =>
    rw [readStep_of_none h.found (cachedTree_of_old hold)]
    simp only [hread]
    exact ⟨h, by simp [parsedTree_error hread]⟩
  | @tree b b' module entry hread hentry hnew htext hflag =>
    have hcondition : (∀ m b'', readModule (ofList file.content) = .ok m →
        some b = some b'' → ¬HasInLiteral '\x00' m ∧ (b'' = standard ∨ HasInLiteral '\r' m)) ↔
          ¬HasInLiteral '\x00' module ∧ (b = standard ∨ HasInLiteral '\r' module) := by
      simp [hread]
    obtain ⟨hwrong, hunusable, hkept⟩ := cachedTree_of_text hread hnew htext
    rw [← hentry] at hwrong hunusable hkept
    rw [hcondition, parsedTree_ok hread]
    -- a null makes the cached text fail, a return makes it ignored
    by_cases hnull : HasInLiteral '\x00' module
    · simp only [Build.readStep, h.found, hwrong hnull]
      exact ⟨h, by simp [hnull]⟩
    by_cases hreturn : HasInLiteral '\r' module
    · rw [readStep_of_none h.found (hunusable hnull hreturn)]
      simp only [hread]
      exact ⟨h.write hread (.inr hreturn), by simp [hnull, hreturn]⟩
    · have hsame : b' = b := hflag.resolve_right hreturn
      simp only [Build.readStep, h.found, hkept hnull hreturn]
      refine ⟨h, ?_⟩
      simp only [hnull, hreturn, hsame, not_false_eq_true, true_and, or_false, Except.ok.injEq]
      exact ⟨completed_inj, fun heq => by rw [heq]⟩

theorem Tracked.asked (h : Tracked path cache d w file) (asked : List String) :
    Tracked path cache { d with asked } w file :=
  ⟨h.distinct, h.found, h.past, h.holds⟩

theorem Tracked.happens {es : List Event} {e : Event} (h : Tracked path cache d (writer es) file)
    (he : Happens path cache d e d') : ∃ file', Tracked path cache d' (writer (e :: es)) file' := by
  cases he with
  | run standard =>
    obtain ⟨asked, hperform⟩ := perform_readFile standard path cache d
    obtain ⟨htracked, -⟩ := h.readStep standard
    rw [hperform]
    exact ⟨file, htracked.asked asked⟩
  | @edit _ file' hdirectory hfile hpast hcache hlater =>
    refine ⟨file', ?_, hfile, hpast, ?_⟩
    · rw [Disk.resolve, Disk.resolve, hdirectory]
      exact h.distinct
    · rw [hcache]
      exact .nothing fun entry hentry => Nat.le_of_lt (hlater entry hentry)
  | elsewhere hdirectory hfile hcache hclock =>
    refine ⟨file, ?_, hfile.trans h.found, Nat.lt_of_lt_of_le h.past hclock, ?_⟩
    · rw [Disk.resolve, Disk.resolve, hdirectory]
      exact h.distinct
    · rw [hcache]
      exact h.holds

/-- Of two runs in a row that do not ask for the same includes, the second gets those of the first. -/
theorem Tracked.stale (h : Tracked path cache d none file)
    (hread : readModule (ofList file.content) = .ok module)
    (hreturn : ¬HasInLiteral '\r' module) (hne : b ≠ standard) :
    ((readFile b path cache).perform d).2.find? path = some file ∧
      ((readFile standard path cache).perform ((readFile b path cache).perform d).2).1 ≠
        parsedTree standard file := by
  obtain ⟨hfirst, -⟩ := h.readStep b
  obtain ⟨asked, hperform⟩ := perform_readFile b path cache d
  rw [hperform]
  refine ⟨hfirst.found, fun heq => ?_⟩
  obtain ⟨asked', hsecond⟩ := perform_readFile standard path cache
    { (Build.readStep b path cache d).2 with asked }
  rw [hsecond] at heq
  obtain ⟨-, hcondition⟩ := ((hfirst.asked asked).readStep standard).2.mp heq module b hread rfl
  exact hcondition.elim hne hreturn

end Step

/-! ### Histories -/

/-- A file that is there, with a cache that is another file and, if there is one, is not newer. -/
structure Uncached (path cache : String) (d : Disk) (file : File) : Prop where
  distinct : d.resolve path ≠ d.resolve cache
  found : d.find? path = some file
  past : file.time < d.clock
  old : ∀ entry, d.find? cache = some entry → entry.time ≤ file.time

section Histories

variable {path cache : String} {start d : Disk} {file : File} {es : List Event}

theorem Uncached.tracked (h : Uncached path cache d file) : Tracked path cache d none file :=
  ⟨h.distinct, h.found, h.past, .nothing h.old⟩

theorem History.tracked (hstart : Uncached path cache start file)
    (h : History path cache start es d) : ∃ file', Tracked path cache d (writer es) file' := by
  induction h with
  | start => exact ⟨file, hstart.tracked⟩
  | next _ he ih =>
    obtain ⟨file', htracked⟩ := ih
    exact htracked.happens he

/-- **When a cache cannot be noticed.**  A run gives what it would give without a cache, which is the
    tree of the text of the file with the standard includes that this run asks for, if and only if it
    is the first one behind an edit, or asks for the same includes as the first one; or if some
    literal holds a carriage return.  With a null character in a literal it fails. -/
theorem readFile_transparent_iff (hstart : Uncached path cache start file)
    (h : History path cache start es d) (standard : Bool) : ∃ file, d.find? path = some file ∧
      ((readFile standard path cache).perform (d.remove cache)).1 = parsedTree standard file ∧
      (((readFile standard path cache).perform d).1 = parsedTree standard file ↔
        ∀ module b, readModule (ofList file.content) = .ok module → writer es = some b →
          ¬HasInLiteral '\x00' module ∧ (b = standard ∨ HasInLiteral '\r' module)) := by
  obtain ⟨file', htracked⟩ := h.tracked hstart
  refine ⟨file', htracked.found, ?_, ?_⟩
  · obtain ⟨asked, hperform⟩ := perform_readFile standard path cache (d.remove cache)
    have hfound := (Disk.find?_remove_of_ne htracked.distinct).trans htracked.found
    rw [hperform, readStep_of_none hfound (by rw [Disk.find?_remove_self]; rfl), parsedTree]
    cases readModule (ofList file'.content) <;> rfl
  · obtain ⟨asked, hperform⟩ := perform_readFile standard path cache d
    rw [hperform]
    exact (htracked.readStep standard).2

/-- A file that was never compiled. -/
def sampleFile : File := { path := "/main.ctp", text := "x = 1\n", time := 0 }

/-- The files around it. -/
def sampleDisk : Disk := { files := [sampleFile] }

theorem uncached_sampleDisk : Uncached "/main.ctp" "/main.cache" sampleDisk sampleFile where
  distinct := by decide +kernel
  found := by decide +kernel
  past := by decide
  old := by
    have hnone : sampleDisk.find? "/main.cache" = none := by decide +kernel
    simp [hnone]

theorem readFile_transparent_sample :
    Uncached "/main.ctp" "/main.cache" sampleDisk sampleFile ∧ ∃ d,
      History "/main.ctp" "/main.cache" sampleDisk [.run true] d ∧
      ∃ file, d.find? "/main.ctp" = some file ∧
        ((readFile true "/main.ctp" "/main.cache").perform (d.remove "/main.cache")).1 =
          parsedTree true file ∧
        (((readFile true "/main.ctp" "/main.cache").perform d).1 = parsedTree true file ↔
          ∀ module b, readModule (ofList file.content) = .ok module →
            writer [.run true] = some b →
              ¬HasInLiteral '\x00' module ∧ (b = true ∨ HasInLiteral '\r' module)) := by
  refine ⟨uncached_sampleDisk, _, .next .start (.run true), ?_⟩
  exact readFile_transparent_iff uncached_sampleDisk (.next .start (.run true)) true

/-- A run without the standard includes that follows one with them gets them all the same. -/
theorem readFile_stale : ∃ d, History "/main.ctp" "/main.cache" sampleDisk [.run true] d ∧
    d.find? "/main.ctp" = some sampleFile ∧
      ((readFile false "/main.ctp" "/main.cache").perform d).1 ≠ parsedTree false sampleFile := by
  have hliterals : (readModule (ofList sampleFile.content)).toOption.map Node.literals =
      some [] := by decide +kernel
  obtain ⟨module, hread, hnone⟩ := Failing.exists_of_toOption hliterals
  have hclean : ¬HasInLiteral '\r' module := by simp [HasInLiteral, hnone]
  obtain ⟨hfile, hstale⟩ := uncached_sampleDisk.tracked.stale hread hclean
    (show true ≠ false by decide)
  exact ⟨_, .next .start (.run true), hfile, hstale⟩

end Histories

end Cppward.Build
