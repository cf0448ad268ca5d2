import HyUtils.Dir.Model
import HyUtils.Foundation.FileTree

/-!
# Reading a directory tree

Over a finite tree of directories `HyDirReadRecurse` without a filter is a depth-first walk: it
calls the callback for the files of the tree in the order in which the walk meets them, with the
path of their directory, and closes each directory it has opened.

## Main definitions

* `Lists env path ds entries`: the entries read at `path` are those of the tree `entries`, with `.`
  and `..` anywhere among them
* `joinPath`: the path to a directory of the tree
* `calls`, `closes`: the calls of the callback, and the directories left open

## Main results

* `joinPath_injective`: a path tells the directories that lead to it
* `readEntries_walk`: the loop over the entries of a directory
* `hyDirReadRecurse_walk`: the walk of a tree
-/

namespace HyUtils.Dir

open Entries

/-! ## The tree at a path -/

/-- The entries `ds` read at `path` are those of the tree `entries`, with `.` and `..` anywhere
among them; a sub-directory is unreadable when it cannot be opened or there is no memory for its
path. -/
inductive Lists (env : Env) : Path → List Dirent → Entries DName → Prop
  | nil {path : Path} : Lists env path [] .nil
  | special {path : Path} {d : Dirent} {ds : List Dirent} {rest : Entries DName} :
      special d.dName = true → Lists env path ds rest → Lists env path (d :: ds) rest
  | file {path : Path} {name : DName} {ds : List Dirent} {rest : Entries DName} :
      Dir.special name = false → Lists env path ds rest →
      Lists env path (⟨dtReg, name⟩ :: ds) (.file name rest)
  | other {path : Path} {d : Dirent} {ds : List Dirent} {rest : Entries DName} :
      Dir.special d.dName = false → d.dType ≠ dtReg → d.dType ≠ dtDir → Lists env path ds rest →
      Lists env path (d :: ds) (.other d.dName rest)
  | unreadable {path : Path} {name : DName} {ds : List Dirent} {rest : Entries DName} :
      Dir.special name = false →
      (env.malloc (subPath path name) = false ∨ env.opendir (subPath path name) = none) →
      Lists env path ds rest → Lists env path (⟨dtDir, name⟩ :: ds) (.unreadable name rest)
  | dir {path : Path} {name : DName} {subDs ds : List Dirent} {sub rest : Entries DName} :
      Dir.special name = false → env.malloc (subPath path name) = true →
      env.opendir (subPath path name) = some subDs → Lists env (subPath path name) subDs sub →
      Lists env path ds rest → Lists env path (⟨dtDir, name⟩ :: ds) (.dir name sub rest)

/-- The path to the directory that the names `dirs` lead to. -/
def joinPath (start : Path) (dirs : List DName) : Path := dirs.foldl subPath start

theorem joinPath_eq (start : Path) (dirs : List DName) :
    joinPath start dirs = start ++ dirs.flatMap fun name => 47 :: name.bytes := by
  induction dirs generalizing start with
  | nil => simp [joinPath]
  | cons name dirs ih =>
    have hrest := ih (subPath start name)
    rw [joinPath] at hrest ⊢
    rw [List.foldl_cons, hrest, subPath_eq, List.flatMap_cons, List.append_assoc]

/-- A name ends where the next one starts. -/
theorem takeWhile_name (name : DName) (dirs : List DName) :
    (name.bytes ++ dirs.flatMap fun d => 47 :: d.bytes).takeWhile (· ≠ 47) = name.bytes := by
  have hall : ∀ c ∈ name.bytes, decide (c ≠ 47) = true := fun c hc =>
    decide_eq_true fun h47 => name.slash_free (h47 ▸ hc)
  rw [List.takeWhile_append_of_pos hall]
  cases dirs with
  | nil => simp
  | cons d dirs => simp

/-- **A path tells the directories that lead to it.** -/
theorem joinPath_injective {start : Path} {dirs dirs' : List DName}
    (h : joinPath start dirs = joinPath start dirs') : dirs = dirs' := by
  rw [joinPath_eq, joinPath_eq] at h
  replace h := List.append_cancel_left h
  induction dirs generalizing dirs' with
  | nil =>
    cases dirs' with
    | nil => rfl
    | cons name' dirs' => simp at h
  | cons name dirs ih =>
    cases dirs' with
    | nil => simp at h
    | cons name' dirs' =>
      simp only [List.flatMap_cons, List.cons_append, List.cons.injEq, true_and] at h
      have hname : name = name' := by
        ext1
        rw [← takeWhile_name name dirs, h, takeWhile_name]
      subst hname
      rw [ih (List.append_cancel_left h)]

/-! ## What the events show -/

/-- The calls of the callback. -/
def calls (events : List Event) : List (Path × List UInt8 × UInt8) :=
  events.filterMap fun
    | .call path name type => some (path, name, type)
    | .opened _ | .closed _ => none

@[simp] theorem calls_append (xs ys : List Event) : calls (xs ++ ys) = calls xs ++ calls ys :=
  List.filterMap_append

/-- The directories left open by the events, last opened first, when each is closed before those
opened earlier. -/
def closes : List Event → List Path → Option (List Path)
  | [], opens => some opens
  | .opened path :: events, opens => closes events (path :: opens)
  | .call _ _ _ :: events, opens => closes events opens
  | .closed path :: events, opens =>
    match opens with
    | [] => none
    | last :: opens => if path = last then closes events opens else none

theorem closes_append (xs ys : List Event) (opens : List Path) :
    closes (xs ++ ys) opens = (closes xs opens).bind (closes ys) := by
  induction xs generalizing opens with
  | nil => rfl
  | cons event xs ih =>
    cases event with
    | opened path => exact ih _
    | call path name type => exact ih _
    | closed path =>
      cases opens with
      | nil => rfl
      | cons last opens =>
        simp only [List.cons_append, closes]
        split_ifs
        · exact ih _
        · rfl

/-- The call made for a file of the tree. -/
def fileCall (start : Path) (file : List DName × DName) : Path × List UInt8 × UInt8 :=
  (joinPath start file.1, file.2.bytes, hyDirTypeFile)

/-- The events call for exactly the files of the tree that pass the filter, in its order, and leave
no directory open. -/
structure Walks (env : Env) (filter : Option (List UInt8)) (path : Path) (entries : Entries DName)
    (events : List Event) : Prop where
  calls : calls events =
    (entries.files.filter fun f => passes env filter ⟨dtReg, f.2⟩).map (fileCall path)
  closes : ∀ opens, closes events opens = some opens

/-! ## The walk -/

section Walks

variable {env : Env} {filter : Option (List UInt8)} {path : Path}

theorem walks_nil : Walks env filter path .nil [] := ⟨rfl, fun _ => rfl⟩

theorem Walks.file {name : DName} {rest : Entries DName} {events : List Event}
    (h : Walks env filter path rest events) :
    Walks env filter path (.file name rest)
      ((if passes env filter ⟨dtReg, name⟩ then [.call path name.bytes hyDirTypeFile] else []) ++
        events) := by
  constructor
  · rw [calls_append, h.calls, files, List.filter_cons]
    split_ifs <;> rfl
  · intro opens
    rw [closes_append]
    split_ifs <;> exact h.closes opens

/-- Opening and closing a directory around its walk. -/
theorem Walks.enclose {entries : Entries DName} {events : List Event}
    (h : Walks env filter path entries events) (dir : Path) :
    Walks env filter path entries (.opened dir :: events ++ [.closed dir]) := by
  constructor
  · rw [calls_append, ← h.calls]
    exact List.append_nil _
  · intro opens
    rw [closes_append, Dir.closes, h.closes, Option.bind_some]
    simp [Dir.closes]

/-- A sub-directory is walked from its own path. -/
theorem Walks.dir {name : DName} {sub rest : Entries DName} {subEvents events : List Event}
    (hsub : Walks env filter (subPath path name) sub subEvents)
    (h : Walks env filter path rest events) :
    Walks env filter path (.dir name sub rest) (subEvents ++ events) := by
  constructor
  · rw [calls_append, hsub.calls, h.calls, files, List.filter_append, List.map_append,
      List.filter_map, List.map_map]
    rfl
  · intro opens
    rw [closes_append, hsub.closes, Option.bind_some, h.closes]

end Walks

section ReadEntry

variable {env : Env} {readCb : Bool} {recurse : Path → Option (List Event × Int32)} {type : Int32}
  {path : Path} {filter : Option (List UInt8)}

theorem readEntries_cons {d : Dirent} {ds : List Dirent} {events rest : List Event}
    (hd : readEntry env readCb recurse type path filter d = some events)
    (hds : readEntries env readCb recurse type path filter ds = some rest) :
    readEntries env readCb recurse type path filter (d :: ds) = some (events ++ rest) := by
  rw [readEntries, hd, hds]
  rfl

theorem readEntry_special {d : Dirent} (h : special d.dName = true) :
    readEntry env readCb recurse type path filter d = some [] := if_pos h

theorem readEntry_file (hfilter : env.CanFilter filter) {name : DName}
    (h : special name = false) :
    readEntry env true recurse type path filter ⟨dtReg, name⟩ =
      some (if passes env filter ⟨dtReg, name⟩ then [.call path name.bytes hyDirTypeFile]
        else []) := by
  simp [readEntry, h, filterFile_eq hfilter]

theorem readEntry_other {d : Dirent} (hreg : d.dType ≠ dtReg) (hdir : d.dType ≠ dtDir) :
    readEntry env readCb recurse type path filter d = some [] := by
  simp [readEntry, hreg, hdir]

theorem readEntry_dir {name : DName} (h : special name = false) :
    readEntry env readCb recurse 1 path filter ⟨dtDir, name⟩ =
      handleSubDir env recurse path name := by
  simp [readEntry, h]

/-- A directory that can be opened is opened, its entries are treated, and it is closed. -/
theorem dirRead_of_opendir {ds : List Dirent} (hopen : env.opendir path = some ds) (fuel : ℕ) :
    dirRead env readCb filter (fuel + 1) type path =
      (readEntries env readCb (dirRead env readCb filter fuel 1) type path filter ds).map
        fun events => (.opened path :: events ++ [.closed path], 0) := by
  rw [dirRead, hopen]
  dsimp only
  cases readEntries env readCb (dirRead env readCb filter fuel 1) type path filter ds <;> rfl

end ReadEntry

/-- What a sub-directory that can be opened contributes. -/
theorem handleSubDir_of_opendir {env : Env} {readCb : Bool} {filter : Option (List UInt8)}
    {fuel : ℕ} {path : Path} {name : DName} {ds : List Dirent} {events : List Event}
    (hmalloc : env.malloc (subPath path name) = true)
    (hopen : env.opendir (subPath path name) = some ds)
    (hread : readEntries env readCb (dirRead env readCb filter fuel 1) 1 (subPath path name) filter
      ds = some events) :
    handleSubDir env (dirRead env readCb filter (fuel + 1) 1) path name =
      some (.opened (subPath path name) :: events ++ [.closed (subPath path name)]) := by
  rw [handleSubDir, if_pos hmalloc, dirRead_of_opendir hopen, hread]
  rfl

/-- A sub-directory that cannot be read contributes nothing. -/
theorem handleSubDir_of_unreadable {env : Env} {readCb : Bool} {filter : Option (List UInt8)}
    {fuel : ℕ} {path : Path} {name : DName}
    (h : env.malloc (subPath path name) = false ∨ env.opendir (subPath path name) = none) :
    handleSubDir env (dirRead env readCb filter (fuel + 1) 1) path name = some [] := by
  rw [handleSubDir]
  split_ifs with hmalloc
  · have hopen : env.opendir (subPath path name) = none :=
      h.resolve_left (by simp [hmalloc])
    rw [dirRead, hopen]
    rfl
  · rfl

/-- **The loop over the entries of a directory** walks the tree below it. -/
theorem readEntries_walk {env : Env} {filter : Option (List UInt8)} {path : Path}
    {ds : List Dirent} {entries : Entries DName} (hfilter : env.CanFilter filter)
    (h : Lists env path ds entries) :
    ∀ {fuel : ℕ}, entries.depth ≤ fuel →
      ∃ events, readEntries env true (dirRead env true filter fuel 1) 1 path filter ds =
          some events ∧ Walks env filter path entries events := by
  induction h with
  | nil => exact fun _ => ⟨[], rfl, walks_nil⟩
  | special hspecial _ ih =>
    intro fuel hfuel
    obtain ⟨events, hread, hwalk⟩ := ih hfuel
    exact ⟨events, readEntries_cons (readEntry_special hspecial) hread, hwalk⟩
  | file hname _ ih =>
    intro fuel hfuel
    obtain ⟨events, hread, hwalk⟩ := ih hfuel
    exact ⟨_, readEntries_cons (readEntry_file hfilter hname) hread, hwalk.file⟩
  | other _ hreg hdir _ ih =>
    intro fuel hfuel
    obtain ⟨events, hread, hwalk⟩ := ih hfuel
    exact ⟨events, readEntries_cons (readEntry_other hreg hdir) hread, hwalk.1, hwalk.2⟩
  | unreadable hname hsub _ ih =>
    intro fuel hfuel
    rw [depth] at hfuel
    obtain ⟨events, hread, hwalk⟩ := ih ((le_max_right _ _).trans hfuel)
    -- trying to open it takes a level too
    obtain ⟨fuel, rfl⟩ := Nat.exists_eq_add_of_le' ((le_max_left _ _).trans hfuel)
    exact ⟨events, readEntries_cons ((readEntry_dir hname).trans (handleSubDir_of_unreadable hsub))
      hread, hwalk.1, hwalk.2⟩
  | dir hname hmalloc hopen _ _ ihsub ih =>
    intro fuel hfuel
    rw [depth] at hfuel
    obtain ⟨events, hread, hwalk⟩ := ih ((le_max_right _ _).trans hfuel)
    -- one level of the recursion is used by the sub-directory
    obtain ⟨fuel, rfl⟩ := Nat.exists_eq_add_of_le'
      ((Nat.le_add_left 1 _).trans ((le_max_left _ _).trans hfuel))
    obtain ⟨subEvents, hsubRead, hsubWalk⟩ := @ihsub fuel
      (Nat.le_of_succ_le_succ ((le_max_left _ _).trans hfuel))
    exact ⟨_, readEntries_cons ((readEntry_dir hname).trans
      (handleSubDir_of_opendir hmalloc hopen hsubRead)) hread, (hsubWalk.enclose _).dir hwalk⟩

/-- **The walk of a tree**, for every filter names can be compared with. -/
theorem hyDirReadRecurse_walks {env : Env} {filter : Option (List UInt8)} {start : Path}
    {ds : List Dirent} {entries : Entries DName} (hfilter : env.CanFilter filter)
    (hopen : env.opendir start = some ds) (hlists : Lists env start ds entries) {fuel : ℕ}
    (hfuel : entries.depth < fuel) :
    ∃ events, hyDirReadRecurse env true fuel start filter = some (events, 0) ∧
      Walks env filter start entries events := by
  obtain ⟨fuel, rfl⟩ := Nat.exists_eq_add_of_le' (Nat.one_le_of_lt hfuel)
  obtain ⟨events, hread, hwalk⟩ := readEntries_walk hfilter hlists (Nat.le_of_lt_succ hfuel)
  refine ⟨_, ?_, hwalk.enclose start⟩
  rw [hyDirReadRecurse, dirRead_of_opendir hopen, hread]
  rfl

theorem fileCall_injective (start : Path) : Function.Injective (fileCall start) := by
  intro file file' h
  obtain ⟨hpath, h⟩ := Prod.mk.inj h
  exact Prod.ext (joinPath_injective hpath) (DName.ext (Prod.mk.inj h).1)

/-- **Reading a directory tree**: for every finite tree of directories, `HyDirReadRecurse` without a
filter returns, having called the callback exactly once for each file of the tree, with the path of
its directory and its name, and for nothing else; it has closed each directory it opened. -/
theorem hyDirReadRecurse_walk {env : Env} {start : Path} {ds : List Dirent}
    {entries : Entries DName} (hopen : env.opendir start = some ds)
    (hlists : Lists env start ds entries) (hdistinct : entries.Distinct) {fuel : ℕ}
    (hfuel : entries.depth < fuel) :
    ∃ events, hyDirReadRecurse env true fuel start none = some (events, 0) ∧
      (∀ call, call ∈ calls events ↔
        ∃ dirs name, HasFile entries dirs name ∧ call = fileCall start (dirs, name)) ∧
      (calls events).Nodup ∧ closes events [] = some [] := by
  obtain ⟨events, hread, hwalk⟩ :=
    hyDirReadRecurse_walks (canFilter_none env) hopen hlists hfuel
  have hcalls : calls events = entries.files.map (fileCall start) := by
    -- without a filter every file passes
    have hall : entries.files.filter (fun f => passes env none ⟨dtReg, f.2⟩) = entries.files :=
      List.filter_eq_self.mpr fun _ _ => rfl
    rw [hwalk.calls, hall]
  refine ⟨events, hread, fun call => ?_, ?_, hwalk.closes []⟩
  · rw [hcalls, List.mem_map]
    constructor
    · rintro ⟨⟨dirs, name⟩, hfile, rfl⟩
      exact ⟨dirs, name, mem_files_iff.mp hfile, rfl⟩
    · rintro ⟨dirs, name, hfile, rfl⟩
      exact ⟨(dirs, name), mem_files_iff.mpr hfile, rfl⟩
  · rw [hcalls]
    exact (nodup_files hdistinct).map (fileCall_injective start)

/-- A directory `r` with a file `a`, a sub-directory `d` with a file `b`, and a sub-directory `x`
that cannot be opened. -/
theorem hyDirReadRecurse_walk_two_files :
    let a : DName := ⟨[97], by decide, by decide, by decide⟩
    let b : DName := ⟨[98], by decide, by decide, by decide⟩
    let d : DName := ⟨[100], by decide, by decide, by decide⟩
    let x : DName := ⟨[120], by decide, by decide, by decide⟩
    let dot : DName := ⟨[46], by decide, by decide, by decide⟩
    let env : Env :=
      { opendir := fun path =>
          if path = [114] then some [⟨dtDir, dot⟩, ⟨dtReg, a⟩, ⟨dtDir, d⟩, ⟨dtDir, x⟩]
          else if path = [114, 47, 100] then some [⟨dtReg, b⟩, ⟨dtDir, dot⟩]
          else none
        malloc := fun _ => true
        behind := [] }
    let entries : Entries DName := .file a (.dir d (.file b .nil) (.unreadable x .nil))
    ∃ events, hyDirReadRecurse env true 2 [114] none = some (events, 0) ∧
      (∀ call, call ∈ calls events ↔
        ∃ dirs name, HasFile entries dirs name ∧ call = fileCall [114] (dirs, name)) ∧
      (calls events).Nodup ∧ closes events [] = some [] := by
  intro a b d x dot env entries
  have hlists : Lists env [114]
      [⟨dtDir, dot⟩, ⟨dtReg, a⟩, ⟨dtDir, d⟩, ⟨dtDir, x⟩] entries :=
    .special rfl (.file rfl (.dir rfl rfl rfl (.file rfl (.special rfl .nil))
      (.unreadable rfl (.inr rfl) .nil)))
  have hdistinct : entries.Distinct := by simp [entries, Distinct, names, a, d, x]
  exact hyDirReadRecurse_walk rfl hlists hdistinct (by decide)

end HyUtils.Dir
