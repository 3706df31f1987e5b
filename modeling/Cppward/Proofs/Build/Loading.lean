import Cppward.Proofs.Build.Files
import Cppward.Proofs.Source.Inclusion
import Mathlib.Data.List.Nodup
import Mathlib.Data.List.Perm.Subperm

namespace Cppward.Build

open Source List
open Cppward.Action (perform_bind_ok perform_get_bind)

/-!
# Loading the modules of a program

The files say which modules there are.  While a program is loaded, caches are written, so that the
files change; but what they say about a module that was not loaded yet stays the same.

* `readStep` — what reading a file does: a tree is taken from the cache or from the text.
* `Complete`, `isClosed` — all that is asked for is there, and a way to see it.
* `expands_expandModule` — loading puts the modules in place of the includes.
* `exists_expansion` — it ends, with each module once where it is asked for first.
-/

variable {h : Header} {own : List Node} {expand : Node → Action Loading Node} {spare : Nat}

/-! ### Reading a file -/

/-- The tree in a cache, if the cache counts: it is newer than the file and can be read. -/
def cachedTree (file : File) : Option File → Except Failure (Option Node)
  | none => .ok none
  | some entry =>
    if entry.time ≤ file.time then .ok none
    else
      match Cache.Entry.read entry.content with
      | .unusable => .ok none
      | .wrong => .error .unforeseen
      | .module n => .ok (some n)

/-- A module with the includes that are asked for. -/
def completed (standard : Bool) (module : Node) : Node :=
  if standard then includeStandard module else module

def parsedTree (standard : Bool) (file : File) : Except Failure Node :=
  (Source.readModule (String.ofList file.content)).map (completed standard)

/-- What reading a file gives, and the files behind it. -/
def readStep (standard : Bool) (path cache : String) (d : Disk) : Except Failure Node × Disk :=
  match d.find? path with
  | none => (.error .unforeseen, d)
  | some file =>
    match cachedTree file (d.find? cache) with
    | .error e => (.error e, d)
    | .ok (some module) => (.ok module, d)
    | .ok none =>
      match parsedTree standard file with
      | .error e => (.error e, d)
      | .ok module => (.ok module, d.write cache (module.constructorText Style.cache))

theorem perform_readCache (file : File) (cache : String) (d : Disk) : ∃ asked,
    (readCache file cache).perform d = (cachedTree file (d.find? cache), { d with asked }) := by
  obtain ⟨asked, hlook⟩ := Disk.perform_lookFor d cache
  refine ⟨asked, ?_⟩
  rw [readCache, perform_bind_ok hlook]
  cases d.find? cache with
  | none => rfl
  | some entry =>
    simp only [cachedTree]
    split_ifs with htime
    · rfl
    · cases Cache.Entry.read entry.content <;> rfl

/-- The action of reading a file is its step, up to what it looked for. -/
theorem perform_readFile (standard : Bool) (path cache : String) (d : Disk) : ∃ asked,
    (readFile standard path cache).perform d =
      ((readStep standard path cache d).1, { (readStep standard path cache d).2 with asked }) := by
  obtain ⟨asked, hfetch⟩ := Disk.perform_fetch d path
  rw [readFile, readStep]
  cases hfile : d.find? path with
  | none =>
    rw [hfile] at hfetch
    exact ⟨asked, Action.perform_bind_error hfetch⟩
  | some file =>
    rw [hfile] at hfetch
    obtain ⟨asked', hcache⟩ := perform_readCache file cache { d with asked }
    refine ⟨asked', ?_⟩
    rw [Disk.find?_asked] at hcache
    rw [perform_bind_ok hfetch]
    cases hcached : cachedTree file (d.find? cache) with
    | error e =>
      rw [hcached] at hcache
      simp only [hcached]
      exact Action.perform_bind_error hcache
    | ok cached =>
      rw [hcached] at hcache
      simp only [hcached]
      rw [perform_bind_ok hcache]
      cases cached with
      | some module => rfl
      | none =>
        simp only [parsedTree]
        cases Source.readModule (String.ofList file.content) <;> rfl

/-! ### The modules that files hold -/

def sourceName (name : String) : String := name ++ ".cth"

def cacheName (name : String) : String := name ++ "cth" ++ cacheEnding

/-- The directory that holds the file of a module. -/
def directoryOf (s : Search) (d : Disk) (name : String) : Option String :=
  s.directories.find? fun dir => (d.find? (Path.join dir (sourceName name))).isSome

/-- The files that belong to a module. -/
def headerOf (dir name : String) : Header :=
  { source := Path.join dir (sourceName name)
    generated := Path.join dir (name ++ ".donotedit.autogenerated.h") }

/-- What reading a module that is in a directory gives. -/
def readModuleIn (s : Search) (d : Disk) (name dir : String) : Except Failure Node × Disk :=
  readStep s.standard (Path.join dir (sourceName name)) (Path.join dir (cacheName name)) d

/-- The modules that files hold. -/
def library (s : Search) (d : Disk) : Library := fun name => do
  let dir ← directoryOf s d name
  let module ← (readModuleIn s d name dir).1.toOption
  return (headerOf dir name, module.args)

theorem perform_findDirectory (file : String) (dirs : List String) (d : Disk) : ∃ asked,
    (findDirectory file dirs).perform d =
      (.ok (dirs.find? fun dir => (d.find? (Path.join dir file)).isSome), { d with asked }) := by
  induction dirs generalizing d with
  | nil => exact ⟨d.asked, rfl⟩
  | cons dir dirs ih =>
    obtain ⟨asked, hlook⟩ := Disk.perform_lookFor d (Path.join dir file)
    rw [findDirectory, perform_bind_ok hlook]
    cases hfind : d.find? (Path.join dir file) with
    | some f => exact ⟨asked, by simp [hfind]⟩
    | none =>
      obtain ⟨asked', hrest⟩ := ih { d with asked }
      refine ⟨asked', ?_⟩
      simp only [Disk.find?_asked] at hrest
      simp only [hrest, find?_cons, hfind, Option.isSome_none]

/-! ### Files that differ in caches only -/

/-- All files but those with certain names are the same. -/
structure SameBut (names : List String) (d d' : Disk) : Prop where
  directory : d'.directory = d.directory
  find? : ∀ path, Path.fileName (d.resolve path) ∉ names → d'.find? path = d.find? path

namespace SameBut

variable {names names' : List String} {d d' d'' : Disk} {path text : String}

theorem refl (d : Disk) : SameBut names d d := ⟨rfl, fun _ _ => rfl⟩

theorem resolve (h : SameBut names d d') : d'.resolve path = d.resolve path := by
  rw [Disk.resolve, Disk.resolve, h.directory]

theorem mono (h : SameBut names d d') (hsub : names ⊆ names') : SameBut names' d d' :=
  ⟨h.directory, fun path hpath => h.find? path fun hmem => hpath (hsub hmem)⟩

theorem asked (h : SameBut names d d') (asked : List String) :
    SameBut names d { d' with asked } := ⟨h.directory, h.find?⟩

theorem write (h : SameBut names d d') (hpath : Path.fileName (d.resolve path) ∈ names) :
    SameBut names d (d'.write path text) where
  directory := h.directory
  find? other hother := by
    rw [← h.find? other hother, Disk.find?_write_of_ne]
    rw [h.resolve, h.resolve]
    intro heq
    rw [heq] at hother
    exact hother hpath

end SameBut

section Names

variable {name name' dir : String}

theorem isFileName_sourceName (h : '/' ∉ name.toList) : Path.IsFileName (sourceName name) := by
  have hlength : 4 ≤ (sourceName name).length := by
    rw [sourceName, String.length_append]
    exact Nat.le_add_left 4 _
  constructor
  · simpa [sourceName] using h
  all_goals
    intro heq
    rw [heq] at hlength
    exact absurd hlength (by decide)

theorem isFileName_cacheName (h : '/' ∉ name.toList) : Path.IsFileName (cacheName name) := by
  have hlength : 4 ≤ (cacheName name).length := by
    rw [cacheName, String.length_append]
    exact Nat.le_trans (by decide) (Nat.le_add_left _ _)
  constructor
  · simpa [cacheName, cacheEnding] using h
  all_goals
    intro heq
    rw [heq] at hlength
    exact absurd hlength (by decide)

theorem sourceName_ne_cacheName (name name' : String) : sourceName name ≠ cacheName name' := by
  intro heq
  have hlast := congrArg (fun s : String => s.toList.getLast?) heq
  simp [sourceName, cacheName, cacheEnding] at hlast

theorem cacheName_injective (h : cacheName name = cacheName name') : name = name' := by
  simpa [cacheName, String.append_assoc] using h

theorem sourceName_injective (h : sourceName name = sourceName name') : name = name' := by
  simpa [sourceName] using h

end Names

/-! ### Modules that are loaded later -/

section Later

variable {s : Search} {d d' : Disk} {seen : List String} {name dir : String}

/-- What is looked for under the names of a module that was not loaded yet is found as at the start. -/
theorem SameBut.find?_join (h : SameBut (seen.map cacheName) d d') (hname : '/' ∉ name.toList)
    (hseen : name ∉ seen) (dir : String) :
    d'.find? (Path.join dir (sourceName name)) = d.find? (Path.join dir (sourceName name)) ∧
      d'.find? (Path.join dir (cacheName name)) = d.find? (Path.join dir (cacheName name)) := by
  constructor
  · refine h.find? _ ?_
    rw [Disk.resolve, Path.fileName_resolve (isFileName_sourceName hname) _ (Path.endsIn_join ..)]
    simp [fun name' => (sourceName_ne_cacheName name name').symm]
  · refine h.find? _ ?_
    rw [Disk.resolve, Path.fileName_resolve (isFileName_cacheName hname) _ (Path.endsIn_join ..),
      mem_map]
    rintro ⟨name', hname', heq⟩
    exact hseen (cacheName_injective heq ▸ hname')

theorem SameBut.directoryOf_eq (h : SameBut (seen.map cacheName) d d') (hname : '/' ∉ name.toList)
    (hseen : name ∉ seen) : directoryOf s d' name = directoryOf s d name := by
  simp only [directoryOf, (h.find?_join hname hseen _).1]

/-- A module is read as at the start, and only its own cache may be written. -/
theorem SameBut.readModuleIn (h : SameBut (seen.map cacheName) d d') (hname : '/' ∉ name.toList)
    (hseen : name ∉ seen) (dir : String) :
    (readModuleIn s d' name dir).1 = (readModuleIn s d name dir).1 ∧
      SameBut ((name :: seen).map cacheName) d (readModuleIn s d' name dir).2 := by
  have hlater : SameBut ((name :: seen).map cacheName) d d' :=
    h.mono (map_subset _ (subset_cons_self ..))
  have hcache : Path.fileName (d.resolve (Path.join dir (cacheName name))) ∈
      (name :: seen).map cacheName := by
    rw [Disk.resolve, Path.fileName_resolve (isFileName_cacheName hname) _ (Path.endsIn_join ..)]
    exact mem_map_of_mem mem_cons_self
  obtain ⟨hsource, hentry⟩ := h.find?_join hname hseen dir
  rw [Build.readModuleIn, Build.readModuleIn, readStep, readStep, hsource, hentry]
  cases d.find? (Path.join dir (sourceName name)) with
  | none => exact ⟨rfl, hlater⟩
  | some file =>
    simp only
    cases cachedTree file (d.find? (Path.join dir (cacheName name))) with
    | error e => exact ⟨rfl, hlater⟩
    | ok cached =>
      cases cached with
      | some module => exact ⟨rfl, hlater⟩
      | none =>
        simp only
        cases parsedTree s.standard file with
        | error e => exact ⟨rfl, hlater⟩
        | ok module => exact ⟨rfl, hlater.write hcache⟩

end Later

/-! ### Loading -/

/-- The state while modules are loaded.  Only caches of modules that were loaded have changed since
    the start, and all of these modules were found. -/
structure Loaded (s : Search) (d : Disk) (l : Loading) : Prop where
  same : SameBut (l.included.map cacheName) d l.disk
  nodup : l.included.Nodup
  found : ∀ name ∈ l.included, '/' ∉ name.toList ∧ (directoryOf s d name).isSome = true

/-- All that statements include, directly or not, can be loaded: every include names a module that
    the files hold.  A name is no path. -/
structure Complete (lib : Library) (statements : List Node) : Prop where
  proper : ∀ n ∈ statements, n.isCallOf "include" = true → ∃ name, Asks n name
  modules : ∀ name, Reaches lib statements name → '/' ∉ name.toList ∧ ∃ h own,
    lib name = some (h, own) ∧ ∀ n ∈ own, n.isCallOf "include" = true → ∃ name, Asks n name

section Loading

variable {s : Search} {d : Disk} {l : Loading} {name : String} {n : Node} {ns : List Node}
  {lib : Library}

theorem Complete.tail (h : Complete lib (n :: ns)) : Complete lib ns where
  proper m hm := h.proper m (mem_cons_of_mem n hm)
  modules name hname := h.modules name (hname.mono (subset_cons_self ..))

theorem Complete.inside {h' : Header} {own : List Node} (h : Complete lib ns)
    (hname : Reaches lib ns name) (hlib : lib name = some (h', own)) : Complete lib own where
  proper := by
    obtain ⟨-, h'', own', hlib', hproper⟩ := h.modules name hname
    cases hlib.symm.trans hlib'
    exact hproper
  modules m hm := h.modules m (hname.trans hlib hm)

theorem Loaded.length_le (h : Loaded s d l) : l.included.length ≤ d.files.length := by
  have hsub : l.included.map sourceName ⊆ d.files.map fun f => Path.fileName f.path := by
    intro file hfile
    obtain ⟨name, hname, rfl⟩ := mem_map.mp hfile
    obtain ⟨hslash, hsome⟩ := h.found name hname
    obtain ⟨dir, hdir⟩ := Option.isSome_iff_exists.mp hsome
    have hexists : (d.find? (Path.join dir (sourceName name))).isSome = true := by
      rw [directoryOf] at hdir
      exact find?_some (p := fun dir => (d.find? (Path.join dir (sourceName name))).isSome) hdir
    obtain ⟨f, hf⟩ := Option.isSome_iff_exists.mp hexists
    refine mem_map.mpr ⟨f, mem_of_find?_eq_some hf, ?_⟩
    have hpath : f.path = d.resolve (Path.join dir (sourceName name)) := by
      simpa using find?_some hf
    rw [hpath, Disk.resolve,
      Path.fileName_resolve (isFileName_sourceName hslash) _ (Path.endsIn_join ..)]
  have hnodup : (l.included.map sourceName).Nodup :=
    List.Nodup.map (fun _ _ heq => sourceName_injective heq) h.nodup
  simpa using (subperm_of_subset hnodup hsub).length_le

theorem perform_lift_ok {α : Type} {a : Action Disk α} {x : α} {disk disk' : Disk}
    {included : List String} (h : a.perform disk = (.ok x, disk')) :
    (Loading.lift a).perform { disk, included } = (.ok x, { disk := disk', included }) := by
  rw [Loading.lift, Action.perform_onPart, h]

theorem library_eq_some (hlib : library s d name = some (h, own)) :
    ∃ dir module, directoryOf s d name = some dir ∧ (readModuleIn s d name dir).1 = .ok module ∧
      h = headerOf dir name ∧ own = module.args := by
  rw [library, Option.bind_eq_bind, Option.bind_eq_some_iff] at hlib
  obtain ⟨dir, hdir, hlib⟩ := hlib
  rw [Option.bind_eq_bind, Option.bind_eq_some_iff] at hlib
  obtain ⟨module, hmodule, hlib⟩ := hlib
  cases hlib
  refine ⟨dir, module, hdir, ?_, rfl, rfl⟩
  cases hread : (readModuleIn s d name dir).1 with
  | error e =>
    rw [hread] at hmodule
    cases hmodule
  | ok m =>
    rw [hread] at hmodule
    cases hmodule
    rfl

/-- Loading a module that was not loaded before: it is read as it was at the start, and expanded. -/
theorem perform_loadModule (expand : Node → Action Loading Node)
    (hl : Loaded s d l) (hslash : '/' ∉ name.toList) (hname : name ∉ l.included)
    (hlib : library s d name = some (h, own)) : ∃ disk module,
      module.args = own ∧ Loaded s d { disk, included := name :: l.included } ∧
        (loadModule (some s) expand name).perform l =
          (expand module >>= fun m => return some (h, m.args)).perform
            { disk, included := name :: l.included } := by
  obtain ⟨dir, module, hdir, hread, rfl, rfl⟩ := library_eq_some hlib
  have hcontains : l.included.contains name = false := by simpa using hname
  obtain ⟨asked, hfind⟩ := perform_findDirectory (sourceName name) s.directories l.disk
  have hdirectory : directoryOf s l.disk name = some dir :=
    (hl.same.directoryOf_eq hslash hname).trans hdir
  rw [directoryOf] at hdirectory
  rw [hdirectory] at hfind
  obtain ⟨asked', hfile⟩ := perform_readFile s.standard (Path.join dir (sourceName name))
    (Path.join dir (cacheName name)) { l.disk with asked }
  obtain ⟨hsame, hbut⟩ := (hl.same.asked asked).readModuleIn (s := s) hslash hname dir
  rw [readModuleIn, hread] at hsame
  rw [readModuleIn] at hbut
  rw [hsame] at hfile
  refine ⟨{ (readStep s.standard (Path.join dir (sourceName name)) (Path.join dir (cacheName name))
    { l.disk with asked }).2 with asked := asked' }, module, rfl, ?_, ?_⟩
  · exact {
      same := hbut.asked asked'
      nodup := nodup_cons.mpr ⟨hname, hl.nodup⟩
      found := by
        simp only [mem_cons, forall_eq_or_imp]
        exact ⟨⟨hslash, by rw [hdir]; rfl⟩, hl.found⟩ }
  · rw [loadModule, perform_get_bind, hcontains]
    simp only [Bool.false_eq_true, if_false]
    rw [Action.perform_modify_bind]
    exact (perform_bind_ok (perform_lift_ok hfind)).trans
      (perform_bind_ok (perform_lift_ok hfile))

/-- Includes are put in place, as long as `spare` covers the modules that are still to be loaded. -/
def Expands (s : Search) (d : Disk) (expand : Node → Action Loading Node) (spare : Nat) : Prop :=
  ∀ (who : Option String) (l : Loading) (module : Node), Loaded s d l →
    d.includeDepth ≤ spare + l.included.length → Complete (library s d) module.args → ∃ xs l',
      (expand module).perform l = (.ok { module with args := xs.map Element.node }, l') ∧
        Inlined (library s d) who l.included module.args l'.included xs ∧ Loaded s d l'

theorem Expands.loadModule (hexpand : Expands s d expand spare) (hl : Loaded s d l)
    (hspare : d.includeDepth ≤ spare + 1 + l.included.length) (hslash : '/' ∉ name.toList)
    (hname : name ∉ l.included) (hlib : library s d name = some (h, own))
    (hown : Complete (library s d) own) : ∃ inside l',
      (loadModule (some s) expand name).perform l =
        (.ok (some (h, inside.map Element.node)), l') ∧
      Inlined (library s d) (some name) (name :: l.included) own l'.included inside ∧
        Loaded s d l' := by
  obtain ⟨disk, module, rfl, hloaded, hload⟩ := perform_loadModule expand hl hslash hname hlib
  have hspare' : d.includeDepth ≤ spare + (name :: l.included).length := by
    rw [length_cons]
    omega
  obtain ⟨inside, l', hperform, hinside, hl'⟩ := hexpand (some name) _ module hloaded hspare' hown
  refine ⟨inside, l', ?_, hinside, hl'⟩
  rw [hload, perform_bind_ok hperform]
  rfl

/-- The statements of one module, from left to right. -/
theorem Expands.expandIncludes
    (hexpand : Expands s d expand spare) (who : Option String) (ns : List Node) :
    ∀ l, Loaded s d l → d.includeDepth ≤ spare + 1 + l.included.length →
      Complete (library s d) ns → ∃ xs l',
        (Source.expandIncludes (Build.loadModule (some s) expand) ns).perform l =
          (.ok (xs.map Element.node), l') ∧
        Inlined (library s d) who l.included ns l'.included xs ∧ Loaded s d l' := by
  induction ns with
  | nil => exact fun l hl _ _ => ⟨[], l, rfl, .nil, hl⟩
  | cons n ns ih =>
    intro l hl hspare hcomplete
    rw [Source.expandIncludes]
    cases hinclude : n.isCallOf "include" with
    | false =>
      obtain ⟨xs, l', hrest, hxs, hl'⟩ := ih l hl hspare hcomplete.tail
      refine ⟨⟨.own who, n⟩ :: xs, l', ?_, .plain hinclude hxs, hl'⟩
      simp only [Bool.false_eq_true, if_false]
      rw [perform_bind_ok hrest]
      rfl
    | true =>
      obtain ⟨name, hasks⟩ := hcomplete.proper n mem_cons_self hinclude
      have hreaches : Reaches (library s d) (n :: ns) name := .direct mem_cons_self hasks
      simp only [if_true, hasks.2]
      by_cases hname : name ∈ l.included
      · obtain ⟨xs, l', hrest, hxs, hl'⟩ := ih l hl hspare hcomplete.tail
        have hload : (Build.loadModule (some s) expand name).perform l = (.ok none, l) := by
          rw [Build.loadModule, perform_get_bind, contains_iff_mem.mpr hname]
          rfl
        refine ⟨⟨.own who, n⟩ :: xs, l', ?_, .known hasks hname hxs, hl'⟩
        rw [perform_bind_ok hload, perform_bind_ok hrest]
        rfl
      · obtain ⟨hslash, h, own, hlib, -⟩ := hcomplete.modules name hreaches
        obtain ⟨inside, l₁, hload, hinside, hl₁⟩ := hexpand.loadModule hl hspare hslash hname hlib
          (hcomplete.inside hreaches hlib)
        have hsub : l.included ⊆ l₁.included :=
          List.Subset.trans (subset_cons_self ..) hinside.subset
        have hlength := (subperm_of_subset hl.nodup hsub).length_le
        obtain ⟨xs, l', hrest, hxs, hl'⟩ := ih l₁ hl₁ (by omega) hcomplete.tail
        refine ⟨_, l', ?_, .fresh hasks hname hlib hinside hxs, hl'⟩
        rw [perform_bind_ok hload, perform_bind_ok hrest]
        simp [setHeaders_eq_map, Element.mark, Function.comp_def]

theorem expands_expandModule (depth : Nat) : Expands s d (expandModule (some s) depth) depth := by
  induction depth with
  | zero =>
    intro who l module hl hdepth
    have hlength := hl.length_le
    rw [Disk.includeDepth] at hdepth
    omega
  | succ depth ih =>
    intro who l module hl hdepth hcomplete
    obtain ⟨xs, l', hperform, hxs, hl'⟩ := ih.expandIncludes who module.args l hl hdepth hcomplete
    refine ⟨xs, l', ?_, hxs, hl'⟩
    rw [expandModule, perform_bind_ok hperform]
    rfl

/-- An include asks for one of some modules. -/
def asksAmong (names : List String) (n : Node) : Bool :=
  !n.isCallOf "include" || (includedName n).toOption.any names.contains

/-- The statements and some modules ask for these modules only, all of which are there. -/
def isClosed (lib : Library) (names : List String) (statements : List Node) : Bool :=
  statements.all (asksAmong names) && names.all fun name =>
    !name.toList.contains '/' && (lib name).any fun m => m.2.all (asksAmong names)

theorem exists_asks_of_asksAmong {names : List String} (h : asksAmong names n = true)
    (hn : n.isCallOf "include" = true) : ∃ m, Asks n m ∧ m ∈ names := by
  rw [asksAmong, hn, Bool.not_true, Bool.false_or] at h
  cases hname : includedName n with
  | error e =>
    rw [hname] at h
    cases h
  | ok m =>
    rw [hname] at h
    exact ⟨m, ⟨hn, hname⟩, by simpa [Except.toOption] using h⟩

/-- A library that passes the check of `isClosed` is complete. -/
theorem complete_of_isClosed {names : List String} (h : isClosed lib names ns = true) :
    Complete lib ns := by
  rw [isClosed, Bool.and_eq_true, all_eq_true, all_eq_true] at h
  obtain ⟨hns, hnames⟩ := h
  have hmodule : ∀ m ∈ names, '/' ∉ m.toList ∧ ∃ h own, lib m = some (h, own) ∧
      ∀ n ∈ own, asksAmong names n = true := by
    intro m hm
    have h := hnames m hm
    cases hlib : lib m with
    | none => simp [hlib] at h
    | some module =>
      obtain ⟨h', own⟩ := module
      simpa [hlib] using h
  have hreaches : ∀ m, Reaches lib ns m → m ∈ names := by
    intro m hm
    induction hm with
    | direct hn hasks =>
      obtain ⟨m', hasks', hmem⟩ := exists_asks_of_asksAmong (hns _ hn) hasks.1
      exact hasks.unique hasks' ▸ hmem
    | through _ hlib hn hasks ih =>
      obtain ⟨-, h', own', hlib', hown⟩ := hmodule _ ih
      cases hlib.symm.trans hlib'
      obtain ⟨m', hasks', hmem⟩ := exists_asks_of_asksAmong (hown _ hn) hasks.1
      exact hasks.unique hasks' ▸ hmem
  refine ⟨fun n hn hinclude => ?_, fun m hm => ?_⟩
  · obtain ⟨m, hasks, -⟩ := exists_asks_of_asksAmong (hns n hn) hinclude
    exact ⟨m, hasks⟩
  · obtain ⟨hslash, h, own, hlib, hown⟩ := hmodule m (hreaches m hm)
    refine ⟨hslash, h, own, hlib, fun n hn hinclude => ?_⟩
    obtain ⟨m', hasks, -⟩ := exists_asks_of_asksAmong (hown n hn) hinclude
    exact ⟨m', hasks⟩

/-- **Includes are put in place once, for any graph of includes.**  Where every include names a
    module that the files hold, loading ends, and gives the program with all modules that it reaches
    in place. -/
theorem exists_expansion (s : Search) (d : Disk) (module : Node)
    (h : Complete (library s d) module.args) : ∃ xs d',
      (loadIncludes (some s) module).perform d =
        (.ok { module with args := xs.map Element.node }, d') ∧
      Expansion (library s d) module.args xs := by
  have hstart : Loaded s d { disk := d } := {
    same := .refl d
    nodup := List.nodup_nil
    found := fun name hname => absurd hname List.not_mem_nil }
  obtain ⟨xs, l', hperform, hxs, -⟩ :=
    expands_expandModule (s := s) d.includeDepth none _ module hstart (Nat.le_add_right ..) h
  refine ⟨xs, l'.disk, ?_, expansion_of_inlined hxs⟩
  rw [loadIncludes, perform_get_bind, hperform]
  rfl

/-- Two modules that include each other, one of which also includes itself. -/
def tangledFiles : Disk where
  files := [
    { path := "/a.cth", text := "include(b)\ninclude(a)\nx = 1\n", time := 0 },
    { path := "/b.cth", text := "include(a)\ny = 2\n", time := 0 }]

/-- A program that includes both of them. -/
def tangledProgram : String := "include(a)\nz = 3\ninclude(b)\n"

theorem exists_expansion_tangled : ∃ module, Source.readModule tangledProgram = .ok module ∧
    Complete (library ⟨["/"], false⟩ tangledFiles) module.args ∧ ∃ xs d',
      (loadIncludes (some ⟨["/"], false⟩) module).perform tangledFiles =
        (.ok { module with args := xs.map Element.node }, d') ∧
      Expansion (library ⟨["/"], false⟩ tangledFiles) module.args xs := by
  have heval : ((Source.readModule tangledProgram).toOption.any fun module =>
      isClosed (library ⟨["/"], false⟩ tangledFiles) ["a", "b"] module.args) = true := by
    decide +kernel
  cases hread : Source.readModule tangledProgram with
  | error e =>
    rw [hread] at heval
    cases heval
  | ok module =>
    rw [hread] at heval
    have hcomplete : Complete (library ⟨["/"], false⟩ tangledFiles) module.args :=
      complete_of_isClosed heval
    exact ⟨module, rfl, hcomplete, exists_expansion _ _ module hcomplete⟩

end Loading

end Cppward.Build
