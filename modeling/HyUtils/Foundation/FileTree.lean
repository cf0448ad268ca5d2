import Mathlib.Data.List.Nodup

/-!
# File trees

The entries of a directory in the order in which they are listed: files, directories with their own
entries, directories that cannot be read, and entries of other kinds. A file is known by the names
of the directories that lead to it and its own name.

## Main definitions

* `Entries ν`: the entries of a directory, with names in `ν`
* `Entries.files`: the files below a directory, in the order of a depth-first walk
* `Entries.HasFile`: a file lies at the end of a path of readable directories
* `Entries.Distinct`: no directory lists two entries of one name

## Main results

* `Entries.mem_files_iff`: the walk meets exactly the files that can be reached
* `Entries.nodup_files`: and each of them once
-/

/-- The entries of a directory, in the order in which they are listed. -/
inductive Entries (ν : Type*)
  | nil
  | file (name : ν) (rest : Entries ν)
  | other (name : ν) (rest : Entries ν)
  | unreadable (name : ν) (rest : Entries ν)
  | dir (name : ν) (sub rest : Entries ν)

namespace Entries

variable {ν : Type*}

/-- The names listed. -/
def names : Entries ν → List ν
  | nil => []
  | file name rest => name :: rest.names
  | other name rest => name :: rest.names
  | unreadable name rest => name :: rest.names
  | dir name _ rest => name :: rest.names

/-- The files below a directory, each with the names of the directories that lead to it. -/
def files : Entries ν → List (List ν × ν)
  | nil => []
  | file name rest => ([], name) :: rest.files
  | other _ rest => rest.files
  | unreadable _ rest => rest.files
  | dir name sub rest => sub.files.map (fun f => (name :: f.1, f.2)) ++ rest.files

/-- How many directories lie inside one another. -/
def depth : Entries ν → ℕ
  | nil => 0
  | file _ rest => rest.depth
  | other _ rest => rest.depth
  | unreadable _ rest => max 1 rest.depth
  | dir _ sub rest => max (sub.depth + 1) rest.depth

/-- The file `name` lies at the end of the path `dirs` of readable directories. -/
inductive HasFile : Entries ν → List ν → ν → Prop
  | here {name : ν} {rest : Entries ν} : HasFile (file name rest) [] name
  | inside {dir₀ name : ν} {dirs : List ν} {sub rest : Entries ν} :
      HasFile sub dirs name → HasFile (dir dir₀ sub rest) (dir₀ :: dirs) name
  | file {name₀ name : ν} {dirs : List ν} {rest : Entries ν} :
      HasFile rest dirs name → HasFile (file name₀ rest) dirs name
  | other {name₀ name : ν} {dirs : List ν} {rest : Entries ν} :
      HasFile rest dirs name → HasFile (other name₀ rest) dirs name
  | unreadable {name₀ name : ν} {dirs : List ν} {rest : Entries ν} :
      HasFile rest dirs name → HasFile (unreadable name₀ rest) dirs name
  | dir {dir₀ name : ν} {dirs : List ν} {sub rest : Entries ν} :
      HasFile rest dirs name → HasFile (dir dir₀ sub rest) dirs name

/-- No directory lists two entries of one name. -/
def Distinct : Entries ν → Prop
  | nil => True
  | file name rest => name ∉ rest.names ∧ rest.Distinct
  | other name rest => name ∉ rest.names ∧ rest.Distinct
  | unreadable name rest => name ∉ rest.names ∧ rest.Distinct
  | dir name sub rest => name ∉ rest.names ∧ sub.Distinct ∧ rest.Distinct

/-- **The walk meets the files that can be reached.** -/
theorem mem_files_iff {entries : Entries ν} {dirs : List ν} {name : ν} :
    (dirs, name) ∈ entries.files ↔ HasFile entries dirs name := by
  induction entries generalizing dirs with
  | nil => exact iff_of_false List.not_mem_nil fun h => nomatch h
  | file name₀ rest ih =>
    rw [files, List.mem_cons, ih, Prod.mk.injEq]
    constructor
    · rintro (⟨rfl, rfl⟩ | h)
      · exact .here
      · exact .file h
    · rintro (_ | _ | h)
      · exact .inl ⟨rfl, rfl⟩
      · exact .inr h
  | other name₀ rest ih =>
    rw [files, ih]
    exact ⟨.other, fun | .other h => h⟩
  | unreadable name₀ rest ih =>
    rw [files, ih]
    exact ⟨.unreadable, fun | .unreadable h => h⟩
  | dir name₀ sub rest ihsub ih =>
    rw [files, List.mem_append, ih, List.mem_map]
    constructor
    · rintro (⟨⟨dirs', name'⟩, hmem, heq⟩ | h)
      · obtain ⟨rfl, rfl⟩ := Prod.mk.inj heq
        exact .inside (ihsub.mp hmem)
      · exact .dir h
    · intro h
      cases h with
      | inside h => exact .inl ⟨_, ihsub.mpr h, rfl⟩
      | dir h => exact .inr h

/-- A file is reached through a name that is listed. -/
theorem HasFile.head_mem_names {entries : Entries ν} {dirs : List ν} {name : ν}
    (h : HasFile entries dirs name) : dirs.headD name ∈ entries.names := by
  induction h with
  | here => exact List.mem_cons_self
  | inside => exact List.mem_cons_self
  | file _ ih => exact List.mem_cons_of_mem _ ih
  | other _ ih => exact List.mem_cons_of_mem _ ih
  | unreadable _ ih => exact List.mem_cons_of_mem _ ih
  | dir _ ih => exact List.mem_cons_of_mem _ ih

/-- **The walk meets each file once.** -/
theorem nodup_files {entries : Entries ν} (h : entries.Distinct) : entries.files.Nodup := by
  induction entries with
  | nil => exact List.nodup_nil
  | file name rest ih =>
    refine List.nodup_cons.mpr ⟨fun hmem => ?_, ih h.2⟩
    exact h.1 (mem_files_iff.mp hmem).head_mem_names
  | other name rest ih => exact ih h.2
  | unreadable name rest ih => exact ih h.2
  | dir name sub rest ihsub ih =>
    obtain ⟨hname, hsub, hrest⟩ := h
    refine List.Nodup.append ((ihsub hsub).map ?_) (ih hrest) ?_
    · intro f f' heq
      obtain ⟨hdirs, hfile⟩ := Prod.mk.inj heq
      exact Prod.ext (List.cons.inj hdirs).2 hfile
    · -- a file below `name` and a file below another entry are two
      intro f hsub' hrest'
      obtain ⟨⟨dirs, file⟩, -, rfl⟩ := List.mem_map.mp hsub'
      exact hname (mem_files_iff.mp hrest').head_mem_names

end Entries
