import Cppward.Build.Load
import Mathlib.Data.List.TakeWhile

namespace Cppward

open List

/-!
# Files and the actions on them

* `Action.perform_bind` and its companions — the result of an action, step by step.
* `Path.fileName_resolve` — the path of a file ends in the name of the file, whatever the way to it.
* `Disk.find?_write_of_ne` — writing a file leaves files with other names alone.
-/

namespace Action

variable {σ τ α β : Type}

@[simp]
theorem perform_pure (a : α) (s : σ) : (pure a : Action σ α).perform s = (.ok a, s) := rfl

@[simp]
theorem perform_throw (e : Failure) (s : σ) :
    (throw e : Action σ α).perform s = (.error e, s) := rfl

theorem perform_bind (a : Action σ α) (f : α → Action σ β) (s : σ) :
    (a >>= f).perform s =
      match a.perform s with
      | (.ok x, t) => (f x).perform t
      | (.error e, t) => (.error e, t) := by
  show ((a >>= f).run.run s) = _
  simp only [perform, ExceptT.run_bind, StateT.run_bind]
  rcases h : a.run.run s with ⟨x | x, t⟩ <;> rfl

theorem perform_bind_ok {a : Action σ α} {f : α → Action σ β} {s t : σ} {x : α}
    (h : a.perform s = (.ok x, t)) : (a >>= f).perform s = (f x).perform t := by
  rw [perform_bind, h]

theorem perform_bind_error {a : Action σ α} {f : α → Action σ β} {s t : σ} {e : Failure}
    (h : a.perform s = (.error e, t)) : (a >>= f).perform s = (.error e, t) := by
  rw [perform_bind, h]

theorem perform_bind_eq_ok {a : Action σ α} {f : α → Action σ β} {s u : σ} {y : β} :
    (a >>= f).perform s = (.ok y, u) ↔
      ∃ x t, a.perform s = (.ok x, t) ∧ (f x).perform t = (.ok y, u) := by
  rw [perform_bind]
  constructor
  · intro h
    rcases ha : a.perform s with ⟨e | x, t⟩
    · rw [ha] at h
      cases h
    · rw [ha] at h
      exact ⟨x, t, rfl, h⟩
  · rintro ⟨x, t, ha, hf⟩
    rw [ha]
    exact hf

@[simp]
theorem perform_get_bind (f : σ → Action σ β) (s : σ) :
    ((get : Action σ σ) >>= f).perform s = (f s).perform s := rfl

@[simp]
theorem perform_modify_bind (g : σ → σ) (f : PUnit → Action σ β) (s : σ) :
    ((modify g : Action σ PUnit) >>= f).perform s = (f ⟨⟩).perform (g s) := rfl

theorem perform_onPart (view : σ → τ) (put : τ → σ → σ) (a : Action τ α) (s : σ) :
    (a.onPart view put).perform s = ((a.perform (view s)).1, put (a.perform (view s)).2 s) := by
  rw [onPart]
  rcases h : a.perform (view s) with ⟨x | x, t⟩ <;>
    simp only [perform_get_bind, perform_modify_bind, h] <;> rfl

end Action

namespace Build

/-! ### Paths -/

namespace Path

variable {dir file path : String}

/-- The name of a file: no slash is in it, and it stands neither for a directory nor for nothing. -/
structure IsFileName (file : String) : Prop where
  slash : '/' ∉ file.toList
  empty : file ≠ ""
  point : file ≠ "."
  points : file ≠ ".."

/-- The path ends in the name of the file, alone or behind a slash. -/
def EndsIn (path file : String) : Prop :=
  path.toList = file.toList ∨ ∃ front, path.toList = front ++ '/' :: file.toList

/-- A directory in front does not change how a path ends. -/
theorem EndsIn.join (h : EndsIn path file) (dir : String) :
    EndsIn (join dir path) file := by
  have hslash : ∀ front, EndsIn (String.ofList (front ++ ['/']) ++ path) file := by
    intro front
    refine .inr ?_
    rcases h with h | ⟨front', h⟩
    · exact ⟨front, by simp [h]⟩
    · exact ⟨front ++ '/' :: front', by simp [h]⟩
  rw [Path.join]
  split_ifs with habs hdir
  · exact h
  · rw [Bool.or_eq_true, beq_iff_eq] at hdir
    rcases hdir with hempty | hlast
    · have hnil : dir = "" := by simpa using hempty
      rwa [hnil, String.empty_append]
    · obtain ⟨front, hfront⟩ := getLast?_eq_some_iff.mp hlast
      have hdir : dir = String.ofList (front ++ ['/']) := by rw [← hfront, String.ofList_toList]
      rw [hdir]
      exact hslash front
  · have hdir : dir ++ "/" = String.ofList (dir.toList ++ ['/']) := by
      apply String.toList_injective
      simp
    rw [hdir]
    exact hslash dir.toList

theorem EndsIn.names (hfile : IsFileName file) (h : EndsIn path file) :
    ∃ front, names path = front ++ [file] := by
  have hsingle : file.toList.splitOn '/' = [file.toList] := splitOn_eq_singleton hfile.slash
  rw [Path.names]
  rcases h with h | ⟨front, h⟩
  · exact ⟨[], by simp [h, hsingle]⟩
  · rw [h, splitOn_append_cons_self, hsingle]
    exact ⟨(front.splitOn '/').map String.ofList, by simp⟩

theorem straighten_concat (hfile : IsFileName file) (done front : List String) :
    straighten done (front ++ [file]) = straighten done front ++ [file] := by
  induction front generalizing done with
  | nil =>
    have hempty : file.isEmpty = false := by simpa using hfile.empty
    have hpoint : (file == ".") = false := by simpa using hfile.point
    have hpoints : (file == "..") = false := by simpa using hfile.points
    simp [straighten, hempty, hpoint, hpoints]
  | cons name front ih =>
    rw [cons_append, straighten, straighten]
    split_ifs <;> exact ih _

theorem fileName_of_endsIn (hslash : '/' ∉ file.toList) (h : EndsIn path file) :
    fileName path = file := by
  have hall : ∀ c ∈ file.toList.reverse, (c != '/') = true := by
    intro c hc
    rw [bne_iff_ne]
    rintro rfl
    exact hslash (mem_reverse.mp hc)
  have htake : path.toList.reverse.takeWhile (· != '/') = file.toList.reverse := by
    rcases h with h | ⟨front, h⟩
    · rw [h]
      exact takeWhile_eq_self_iff.mpr hall
    · rw [h, reverse_append, reverse_cons, append_assoc,
        takeWhile_append_of_pos hall, singleton_append,
        takeWhile_cons_of_neg (by decide), append_nil]
  rw [fileName, htake, reverse_reverse, String.ofList_toList]

theorem toList_intercalate_slash {parts : List String} (h : parts ≠ []) :
    ("/" ++ "/".intercalate parts).toList = parts.flatMap ('/' :: ·.toList) := by
  induction parts with
  | nil => exact absurd rfl h
  | cons name rest ih =>
    cases rest with
    | nil => simp
    | cons next rest =>
      have ih := ih (cons_ne_nil next rest)
      rw [String.toList_append] at ih
      rw [String.intercalate_cons_cons, flatMap_cons, ← ih]
      simp

/-- **The last name of a path.**  A path leads to a file of the name that it ends in. -/
theorem fileName_resolve (hfile : IsFileName file) (dir : String) (h : EndsIn path file) :
    fileName (resolve dir path) = file := by
  obtain ⟨front, hnames⟩ := (h.join dir).names hfile
  refine fileName_of_endsIn hfile.slash (.inr ?_)
  rw [resolve, hnames, straighten_concat hfile, toList_intercalate_slash (by simp)]
  exact ⟨(straighten [] front).flatMap ('/' :: ·.toList), by simp⟩

theorem endsIn_join (dir file : String) : EndsIn (join dir file) file := EndsIn.join (.inl rfl) dir

end Path

/-! ### Looking for files -/

namespace Disk

variable {d : Disk} {path other text : String}

@[simp]
theorem find?_asked (asked : List String) : ({ d with asked } : Disk).find? path = d.find? path := rfl

theorem resolve_write : (d.write other text).resolve path = d.resolve path := rfl

theorem resolve_remove : (d.remove other).resolve path = d.resolve path := rfl

theorem find?_remove_self : (d.remove path).find? path = none := by
  rw [find?, resolve_remove, find?_eq_none]
  intro f hf
  simpa using (mem_filter.mp hf).2

theorem find?_remove_of_ne (h : d.resolve path ≠ d.resolve other) :
    (d.remove other).find? path = d.find? path := by
  rw [find?, find?, resolve_remove, remove, find?_filter]
  congr 1
  funext f
  by_cases hf : f.path = d.resolve path <;> simp [hf, h]

theorem find?_write : (d.write other text).find? path = ((d.remove other).find? path).or
    (if d.resolve path = d.resolve other then some ⟨d.resolve other, text, d.clock⟩ else none) := by
  rw [find?, resolve_write, write, find?_append]
  refine congrArg (Option.or _) ?_
  by_cases h : d.resolve path = d.resolve other
  · simp [h]
  · simp [h, Ne.symm h]

theorem find?_write_self :
    (d.write path text).find? path = some ⟨d.resolve path, text, d.clock⟩ := by
  rw [find?_write, find?_remove_self, if_pos rfl, Option.none_or]

theorem find?_write_of_ne (h : d.resolve path ≠ d.resolve other) :
    (d.write other text).find? path = d.find? path := by
  rw [find?_write, find?_remove_of_ne h, if_neg h, Option.or_none]

/-- Looking for a file changes nothing but the list of what was looked for. -/
theorem perform_lookFor (d : Disk) (path : String) : ∃ asked,
    (lookFor path).perform d = (.ok (d.find? path), { d with asked }) := by
  rw [lookFor, Action.perform_get_bind]
  cases hfind : d.find? path with
  | some file => exact ⟨d.asked, rfl⟩
  | none => exact ⟨d.resolve path :: d.asked, rfl⟩

theorem perform_fetch (d : Disk) (path : String) : ∃ asked, (fetch path).perform d =
    ((match d.find? path with
      | some file => .ok file
      | none => .error .unforeseen), { d with asked }) := by
  obtain ⟨asked, hlook⟩ := perform_lookFor d path
  refine ⟨asked, ?_⟩
  rw [fetch, Action.perform_bind_ok hlook]
  cases d.find? path <;> rfl

end Disk

end Build

end Cppward
