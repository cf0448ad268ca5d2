import HyUtils.Dir.Recurse
import HyUtils.Foundation.Lists

/-!
# The two ways of reading a directory

`HyDirRead` and `HyDirReadRecurse` treat a file lying directly in the directory alike. A directory
lying in it is entered by the one, and by the other handed to the callback, if its name passes the
filter, with the type of a file. With a filter both need the byte behind the buffer of
`_filter_file`, once there is a name to compare.

## Main definitions

* `Filtered`: `HyDirRead` hands the entry to `_filter_file`
* `directCall`, `fileOnlyCall`: the call made for an entry by the one function, and the call of the
  other with the same path

## Main results

* `hyDirRead_calls`, `hyDirReadRecurse_calls`: the calls of the two functions with the path they are
  given
* `hyDirRead_agrees_iff`: exactly when the two agree on the files lying directly in a directory
-/

namespace HyUtils.Dir

open Entries

variable {env : Env} {filter : Option (List UInt8)} {path : Path}

/-- `HyDirRead` hands the entry to `_filter_file`. -/
def Filtered (d : Dirent) : Prop := ¬special d.dName ∧ (d.dType = dtReg ∨ d.dType = dtDir)
  deriving Decidable

/-- The call `HyDirRead` makes for an entry. -/
def directCall (env : Env) (filter : Option (List UInt8)) (path : Path) (d : Dirent) :
    Option (Path × List UInt8 × UInt8) :=
  if ¬special d.dName ∧ (d.dType = dtReg ∨ d.dType = dtDir) ∧ passes env filter d then
    some (path, d.dName.bytes, hyDirTypeFile)
  else none

/-- The call with its own path that `HyDirReadRecurse` makes for an entry. -/
def fileOnlyCall (env : Env) (filter : Option (List UInt8)) (path : Path) (d : Dirent) :
    Option (Path × List UInt8 × UInt8) :=
  if ¬special d.dName ∧ d.dType = dtReg ∧ passes env filter d then
    some (path, d.dName.bytes, hyDirTypeFile)
  else none

/-- `HyDirRead` treats each entry by itself. -/
theorem readEntry_direct (hfilter : env.CanFilter filter)
    (recurse : Path → Option (List Event × Int32)) (d : Dirent) :
    ∃ events, readEntry env true recurse 0 path filter d = some events ∧
      calls events = (directCall env filter path d).toList := by
  unfold readEntry directCall
  simp only [filterFile_eq hfilter]
  by_cases hspecial : special d.dName = true
  · exact ⟨[], by simp [hspecial], by simp [hspecial, calls]⟩
  by_cases hkind : d.dType = dtReg ∨ d.dType = dtDir
  · refine ⟨if passes env filter d then [.call path d.dName.bytes hyDirTypeFile] else [], ?_, ?_⟩
    · rcases hkind with h | h <;> simp [hspecial, h]
    · by_cases hpass : passes env filter d = true <;> simp [hspecial, hkind, hpass, calls]
  · obtain ⟨hreg, hdir⟩ := not_or.mp hkind
    exact ⟨[], by simp [hspecial, hreg, hdir], by simp [hreg, hdir, calls]⟩

theorem readEntries_direct (hfilter : env.CanFilter filter)
    (recurse : Path → Option (List Event × Int32)) (ds : List Dirent) :
    ∃ events, readEntries env true recurse 0 path filter ds = some events ∧
      calls events = ds.filterMap (directCall env filter path) := by
  induction ds with
  | nil => exact ⟨[], rfl, rfl⟩
  | cons d ds ih =>
    obtain ⟨events, hd, hcalls⟩ := @readEntry_direct env filter path hfilter recurse d
    obtain ⟨rest, hds, hrest⟩ := ih
    refine ⟨events ++ rest, readEntries_cons hd hds, ?_⟩
    rw [calls_append, hcalls, hrest, List.filterMap_cons]
    cases directCall env filter path d <;> rfl

/-- **The calls of `HyDirRead`.** -/
theorem hyDirRead_calls {ds : List Dirent} (hfilter : env.CanFilter filter)
    (hopen : env.opendir path = some ds) (fuel : ℕ) :
    ∃ events, hyDirRead env true (fuel + 1) path filter = some (events, 0) ∧
      calls events = ds.filterMap (directCall env filter path) := by
  obtain ⟨events, hread, hcalls⟩ := readEntries_direct hfilter (dirRead env true filter fuel 1) ds
  refine ⟨.opened path :: events ++ [.closed path], ?_, ?_⟩
  · rw [hyDirRead, dirRead_of_opendir hopen, hread]
    rfl
  · rw [calls_append, ← hcalls]
    exact List.append_nil _

/-- The files of a tree that lie directly in it are the regular files listed. -/
theorem files_direct {ds : List Dirent} {entries : Entries DName}
    (h : Lists env path ds entries) :
    ((entries.files.filter fun f => passes env filter ⟨dtReg, f.2⟩).map (fileCall path)).filter
        (fun c => c.1 = path) = ds.filterMap (fileOnlyCall env filter path) := by
  induction h with
  | nil => rfl
  | special hspecial _ ih =>
    rw [ih, List.filterMap_cons_none (by simp [fileOnlyCall, hspecial])]
  | @file path name ds rest hname _ ih =>
    rw [files, List.filter_cons]
    by_cases hpass : passes env filter ⟨dtReg, name⟩ = true
    · have hcall : fileOnlyCall env filter path ⟨dtReg, name⟩ =
          some (path, name.bytes, hyDirTypeFile) := by simp [fileOnlyCall, hname, hpass]
      have hpath : (fileCall path ([], name)).1 = path := rfl
      rw [if_pos hpass, List.map_cons, List.filter_cons_of_pos (by simpa using hpath), ih,
        List.filterMap_cons_some hcall]
      rfl
    · rw [if_neg hpass, ih, List.filterMap_cons_none (by simp [fileOnlyCall, hpass])]
  | other _ hreg _ _ ih =>
    rw [files, ih, List.filterMap_cons_none (by simp [fileOnlyCall, hreg])]
  | unreadable _ _ _ ih =>
    rw [files, ih, List.filterMap_cons_none (by simp [fileOnlyCall])]
  | @dir path name subDs ds sub rest _ _ _ _ _ _ ih =>
    rw [files, List.filter_append, List.map_append, List.filter_append, ih,
      List.filterMap_cons_none (by simp [fileOnlyCall])]
    -- the files below `name` have longer paths
    have hbelow : (((sub.files.map fun f => (name :: f.1, f.2)).filter fun f =>
        passes env filter ⟨dtReg, f.2⟩).map (fileCall path)).filter (fun c => c.1 = path) = [] := by
      rw [List.filter_eq_nil_iff]
      intro c hc
      obtain ⟨f, hf, rfl⟩ := List.mem_map.mp hc
      obtain ⟨f', -, rfl⟩ := List.mem_map.mp (List.mem_filter.mp hf).1
      intro hpath
      have hnil : name :: f'.1 = [] :=
        @joinPath_injective path _ [] (of_decide_eq_true hpath)
      exact List.cons_ne_nil _ _ hnil
    rw [hbelow, List.nil_append]

/-- **The calls of `HyDirReadRecurse`** with the path it is given. -/
theorem hyDirReadRecurse_calls {ds : List Dirent} {entries : Entries DName}
    (hfilter : env.CanFilter filter) (hopen : env.opendir path = some ds)
    (hlists : Lists env path ds entries) {fuel : ℕ} (hfuel : entries.depth < fuel) :
    ∃ events, hyDirReadRecurse env true fuel path filter = some (events, 0) ∧
      (calls events).filter (fun c => c.1 = path) =
        ds.filterMap (fileOnlyCall env filter path) := by
  obtain ⟨events, hread, hwalk⟩ := hyDirReadRecurse_walks hfilter hopen hlists hfuel
  exact ⟨events, hread, by rw [hwalk.calls, files_direct hlists]⟩

/-- Every call of `HyDirRead` has the type of a file. -/
theorem filter_type_direct (ds : List Dirent) :
    (ds.filterMap (directCall env filter path)).filter (fun c => c.2.2 = hyDirTypeFile) =
      ds.filterMap (directCall env filter path) := by
  rw [List.filter_eq_self]
  intro c hc
  obtain ⟨d, -, hd⟩ := List.mem_filterMap.mp hc
  unfold directCall at hd
  split_ifs at hd
  obtain rfl := Option.some.inj hd
  rfl

/-- The two calls made for an entry differ exactly for a directory that passes the filter. -/
theorem directCall_eq_iff {d : Dirent} :
    directCall env filter path d = fileOnlyCall env filter path d ↔
      (d.dType = dtDir → special d.dName = false → passes env filter d = false) := by
  unfold directCall fileOnlyCall
  by_cases hdir : d.dType = dtDir
  · cases hs : special d.dName <;> cases hp : passes env filter d <;> simp [hdir]
  · simp [hdir]

/-- Where names can be compared, the two functions agree exactly when no directory lying in the one
they read passes the filter. -/
theorem agrees_of_canFilter {ds : List Dirent} {entries : Entries DName}
    (hfilter : env.CanFilter filter) (hopen : env.opendir path = some ds)
    (hlists : Lists env path ds entries) {fuel : ℕ} (hfuel : entries.depth < fuel) :
    ∃ direct recursive, hyDirRead env true fuel path filter = some (direct, 0) ∧
      hyDirReadRecurse env true fuel path filter = some (recursive, 0) ∧
      ((calls direct).filter (fun c => c.2.2 = hyDirTypeFile) =
          (calls recursive).filter (fun c => c.1 = path) ↔
        ∀ d ∈ ds, d.dType = dtDir → special d.dName = false → passes env filter d = false) := by
  obtain ⟨n, rfl⟩ := Nat.exists_eq_add_of_le' (Nat.one_le_of_lt hfuel)
  obtain ⟨direct, hdirect, hcalls⟩ := hyDirRead_calls hfilter hopen n
  obtain ⟨recursive, hrecursive, hcalls'⟩ := hyDirReadRecurse_calls hfilter hopen hlists hfuel
  refine ⟨direct, recursive, hdirect, hrecursive, ?_⟩
  rw [hcalls, filter_type_direct, hcalls', Lists.filterMap_eq_filterMap_iff]
  · exact forall₂_congr fun d _ => directCall_eq_iff
  · intro d _
    unfold fileOnlyCall directCall
    split_ifs with h h'
    · exact .inr rfl
    · exact absurd ⟨h.1, .inl h.2.1, h.2.2⟩ h'
    · exact .inl rfl
    · exact .inl rfl

/-! ## Filters without the byte behind the buffer -/

/-- An entry that is not filtered is passed over, by both functions. -/
theorem readEntry_of_not_filtered {d : Dirent} (h : ¬Filtered d)
    (recurse : Path → Option (List Event × Int32)) (type : Int32) :
    readEntry env true recurse type path filter d = some [] := by
  by_cases hspecial : special d.dName = true
  · exact readEntry_special hspecial
  · have hkind : ¬(d.dType = dtReg ∨ d.dType = dtDir) := fun hkind => h ⟨hspecial, hkind⟩
    rw [not_or] at hkind
    exact readEntry_other hkind.1 hkind.2

theorem dirRead_of_not_filtered {ds : List Dirent} (hopen : env.opendir path = some ds)
    (h : ∀ d ∈ ds, ¬Filtered d) (fuel : ℕ) (type : Int32) :
    dirRead env true filter (fuel + 1) type path = some ([.opened path, .closed path], 0) := by
  have hread : readEntries env true (dirRead env true filter fuel 1) type path filter ds =
      some [] := by
    clear hopen
    induction ds with
    | nil => rfl
    | cons d ds ih =>
      obtain ⟨hd, hds⟩ := List.forall_mem_cons.mp h
      exact readEntries_cons (readEntry_of_not_filtered hd _ _) (ih hds)
  rw [dirRead_of_opendir hopen, hread]
  rfl

/-- `HyDirRead` writes behind the buffer for the first entry that is filtered. -/
theorem hyDirRead_eq_none {ds : List Dirent} (hfilter : ¬env.CanFilter filter)
    (hopen : env.opendir path = some ds) {d : Dirent} (hd : d ∈ ds) (h : Filtered d) (fuel : ℕ) :
    hyDirRead env true fuel path filter = none := by
  cases fuel with
  | zero => rfl
  | succ fuel =>
    have hentry : ∀ recurse, readEntry env true recurse 0 path filter d = none := by
      intro recurse
      rw [readEntry, if_neg h.1]
      rcases h.2 with hreg | hdir
      · rw [if_pos hreg, filterFile_eq_none hfilter]
      · rw [hdir, if_neg dtDir_ne_dtReg, if_pos rfl, if_neg (by decide),
          filterFile_eq_none hfilter]
    have hread : readEntries env true (dirRead env true filter fuel 1) 0 path filter ds =
        none := by
      clear hopen
      induction ds with
      | nil => exact absurd hd List.not_mem_nil
      | cons d' ds ih =>
        rw [readEntries, Option.bind_eq_bind]
        rcases List.mem_cons.mp hd with rfl | hd
        · rw [hentry]
          rfl
        · rw [ih hd]
          cases readEntry env true (dirRead env true filter fuel 1) 0 path filter d' <;> rfl
    rw [hyDirRead, dirRead_of_opendir hopen, hread]
    rfl

/-- **The two functions agree on the files lying directly in a directory** exactly when no directory
lying in it passes the filter, and with a filter the byte behind the buffer may be overwritten, or
no name is compared. Where it may, both functions return 0. -/
theorem hyDirRead_agrees_iff {ds : List Dirent} {entries : Entries DName}
    (hopen : env.opendir path = some ds) (hlists : Lists env path ds entries) {fuel : ℕ}
    (hfuel : entries.depth < fuel) (filter : Option (List UInt8)) :
    ((∃ direct recursive, hyDirRead env true fuel path filter = some (direct, 0) ∧
        hyDirReadRecurse env true fuel path filter = some (recursive, 0) ∧
        (calls direct).filter (fun c => c.2.2 = hyDirTypeFile) =
          (calls recursive).filter (fun c => c.1 = path)) ↔
      (env.CanFilter filter ∨ ∀ d ∈ ds, ¬Filtered d) ∧
        ∀ d ∈ ds, d.dType = dtDir → special d.dName = false → passes env filter d = false) ∧
    (env.CanFilter filter →
      ∃ direct recursive, hyDirRead env true fuel path filter = some (direct, 0) ∧
        hyDirReadRecurse env true fuel path filter = some (recursive, 0)) := by
  by_cases hfilter : env.CanFilter filter
  · obtain ⟨direct, recursive, hdirect, hrecursive, hiff⟩ :=
      agrees_of_canFilter hfilter hopen hlists hfuel
    refine ⟨⟨?_, fun h => ⟨direct, recursive, hdirect, hrecursive, hiff.mpr h.2⟩⟩,
      fun _ => ⟨direct, recursive, hdirect, hrecursive⟩⟩
    rintro ⟨direct', recursive', hdirect', hrecursive', heq⟩
    obtain ⟨rfl, -⟩ := Prod.mk.inj (Option.some.inj (hdirect.symm.trans hdirect'))
    obtain ⟨rfl, -⟩ := Prod.mk.inj (Option.some.inj (hrecursive.symm.trans hrecursive'))
    exact ⟨.inl hfilter, hiff.mp heq⟩
  · refine ⟨⟨?_, ?_⟩, fun h => absurd h hfilter⟩
    · rintro ⟨direct, -, hdirect, -⟩
      have hnone : ∀ d ∈ ds, ¬Filtered d := by
        intro d hd h
        rw [hyDirRead_eq_none hfilter hopen hd h] at hdirect
        cases hdirect
      exact ⟨.inr hnone, fun d hd hdir hspecial =>
        absurd ⟨by simp [hspecial], .inr hdir⟩ (hnone d hd)⟩
    · rintro ⟨hnone, -⟩
      obtain ⟨n, rfl⟩ := Nat.exists_eq_add_of_le' (Nat.one_le_of_lt hfuel)
      have hread : ∀ type, dirRead env true filter (n + 1) type path =
          some ([.opened path, .closed path], 0) :=
        fun type => dirRead_of_not_filtered hopen (hnone.resolve_left hfilter) n type
      exact ⟨_, _, hread 0, hread 1, rfl⟩

/-- A directory `r` with a sub-directory `d`. -/
theorem hyDirRead_reports_directory :
    let d : DName := ⟨[100], by decide, by decide, by decide⟩
    let env : Env :=
      { opendir := fun path => if path = [114] then some [⟨dtDir, d⟩] else some []
        malloc := fun _ => true
        behind := [] }
    ∃ direct recursive, hyDirRead env true 2 [114] none = some (direct, 0) ∧
      hyDirReadRecurse env true 2 [114] none = some (recursive, 0) ∧
      (calls direct).filter (fun c => c.2.2 = hyDirTypeFile) = [([114], [100], hyDirTypeFile)] ∧
      (calls recursive).filter (fun c => c.1 = [114]) = [] := by
  exact ⟨_, _, rfl, rfl, rfl, rfl⟩

theorem hyDirRead_agrees_iff_one_file :
    let a : DName := ⟨[97], by decide, by decide, by decide⟩
    let env : Env :=
      { opendir := fun path => if path = [114] then some [⟨dtReg, a⟩] else none
        malloc := fun _ => true
        behind := [0] }
    ((∃ direct recursive, hyDirRead env true 1 [114] (some [46]) = some (direct, 0) ∧
        hyDirReadRecurse env true 1 [114] (some [46]) = some (recursive, 0) ∧
        (calls direct).filter (fun c => c.2.2 = hyDirTypeFile) =
          (calls recursive).filter (fun c => c.1 = [114])) ↔
      (env.CanFilter (some [46]) ∨ ∀ d ∈ [(⟨dtReg, a⟩ : Dirent)], ¬Filtered d) ∧
        ∀ d ∈ [(⟨dtReg, a⟩ : Dirent)], d.dType = dtDir → special d.dName = false →
          passes env (some [46]) d = false) ∧
    (env.CanFilter (some [46]) →
      ∃ direct recursive, hyDirRead env true 1 [114] (some [46]) = some (direct, 0) ∧
        hyDirReadRecurse env true 1 [114] (some [46]) = some (recursive, 0)) := by
  intro a env
  exact hyDirRead_agrees_iff rfl (.file rfl .nil) (by decide) (some [46])

end HyUtils.Dir
