import HyUtils.Str.CopyRight

/-!
# Reading directories

`src/src/hy_dir.c`: `HyDirRead` reports the entries of a directory to a callback, `HyDirReadRecurse`
the files of a directory and of its sub-directories. Both are `_dir_read`, which lists a directory
and treats its entries by their kind; a sub-directory is read through the path made of its name.

The file system is given by what `opendir` and `readdir` find at each path. The recursion is bounded
by a count, and undefined beyond it.

## Main definitions

* `DName`, `Dirent`, `Env`: entry names, entries, and the file system
* `Event`: directories opened and closed, and calls of the callback
* `filterFile`, `handleSubDir`, `dirRead`: the functions of the source
* `hyDirRead`, `hyDirReadRecurse`: the two entry points
-/

namespace HyUtils.Dir

open Region Str

/-- A path, without its terminator. -/
abbrev Path := List UInt8

/-- The name of an entry: not empty, and free of `NUL` and `/`. -/
@[ext] structure DName where
  bytes : List UInt8
  ne_nil : bytes ≠ []
  nul_free : (0 : UInt8) ∉ bytes
  slash_free : (47 : UInt8) ∉ bytes
  deriving DecidableEq

/-- `DT_DIR`. -/
abbrev dtDir : UInt8 := 4

/-- `DT_REG`. -/
abbrev dtReg : UInt8 := 8

@[simp] theorem dtDir_ne_dtReg : ¬dtDir = dtReg := by decide

/-- `struct dirent`: the kind and the name of an entry, which follows it in memory. -/
structure Dirent where
  dType : UInt8
  dName : DName
  deriving DecidableEq

/-- What the functions find outside: the entries at each path, in the order of `readdir`, or `none`
where `opendir` fails; whether the buffer for a path can be allocated; and the bytes of the stack
behind the 64 bytes of the buffer of `_filter_file` that nothing uses. There may be none. -/
structure Env where
  opendir : Path → Option (List Dirent)
  malloc : Path → Bool
  behind : List UInt8

/-- `HY_DIR_TYPE_FILE`. -/
abbrev hyDirTypeFile : UInt8 := 0

/-- What is done: a directory opened or closed, or the callback called. -/
inductive Event
  | opened (path : Path)
  | closed (path : Path)
  | call (path name : List UInt8) (type : UInt8)
  deriving DecidableEq

/-- `strcmp` with `"."` and `".."`: the names `_dir_read` passes over. -/
def special (name : DName) : Bool := name.bytes = [46] || name.bytes = [46, 46]

/-- The comparison of `_filter_file`: whether the end of the name, copied after a dot, starts with
the filter. The copy is told of 64 bytes behind the dot, where `buf` has 63. -/
def filterMatch (env : Env) (d : Dirent) (filter : List UInt8) : Option Bool := do
  let buf := List.replicate 64 0 ++ env.behind
  let buf ← store buf 0 [46]
  let buf ← hyStrCopyRight (d.dType :: (d.dName.bytes ++ [0])) 1 buf 1 64 46
  if filter.length > 64 then return false
  else strncmpEq (buf.take 64) (filter ++ [0]) filter.length

/-- `_filter_file`; `readCb` says whether there is a callback. -/
def filterFile (env : Env) (readCb : Bool) (path : Path) (d : Dirent) (type : UInt8)
    (filter : Option (List UInt8)) : Option (List Event) :=
  if readCb then
    match filter with
    | some filter => do
      let matched ← filterMatch env d filter
      return if matched then [.call path d.dName.bytes type] else []
    | none => some [.call path d.dName.bytes type]
  else some []

/-- The path `snprintf` leaves in the buffer `_handle_sub_dir` allocates for it. -/
def subPath (path : Path) (name : DName) : Path :=
  let len := path.length + name.bytes.length + 1 + 1
  (path ++ 47 :: name.bytes).take (len - 1)

/-- `_handle_sub_dir`, with the recursive call as `recurse`. -/
def handleSubDir (env : Env) (recurse : Path → Option (List Event × Int32)) (path : Path)
    (name : DName) : Option (List Event) :=
  let sub := subPath path name
  if env.malloc sub then (recurse sub).map Prod.fst else some []

/-- The treatment of one entry in `_dir_read`. -/
def readEntry (env : Env) (readCb : Bool) (recurse : Path → Option (List Event × Int32))
    (type : Int32) (path : Path) (filter : Option (List UInt8)) (d : Dirent) :
    Option (List Event) :=
  if special d.dName then some []
  else if d.dType = dtReg then filterFile env readCb path d hyDirTypeFile filter
  else if d.dType = dtDir then
    if type ≠ 0 then handleSubDir env recurse path d.dName
    else filterFile env readCb path d hyDirTypeFile filter
  else some []

/-- The loop of `_dir_read` over the entries. -/
def readEntries (env : Env) (readCb : Bool) (recurse : Path → Option (List Event × Int32))
    (type : Int32) (path : Path) (filter : Option (List UInt8)) :
    List Dirent → Option (List Event)
  | [] => some []
  | d :: ds => do
    let events ← readEntry env readCb recurse type path filter d
    let rest ← readEntries env readCb recurse type path filter ds
    return events ++ rest

/-- `_dir_read`, for at most `fuel` directories inside one another. -/
def dirRead (env : Env) (readCb : Bool) (filter : Option (List UInt8)) :
    ℕ → Int32 → Path → Option (List Event × Int32)
  | 0, _, _ => none
  | fuel + 1, type, path =>
    match env.opendir path with
    | none => some ([], -1)
    | some ds => do
      let events ← readEntries env readCb (dirRead env readCb filter fuel 1) type path filter ds
      return (.opened path :: events ++ [.closed path], 0)

/-- `HyDirRead`. -/
def hyDirRead (env : Env) (readCb : Bool) (fuel : ℕ) (path : Path)
    (filter : Option (List UInt8)) : Option (List Event × Int32) :=
  dirRead env readCb filter fuel 0 path

/-- `HyDirReadRecurse`. -/
def hyDirReadRecurse (env : Env) (readCb : Bool) (fuel : ℕ) (path : Path)
    (filter : Option (List UInt8)) : Option (List Event × Int32) :=
  dirRead env readCb filter fuel 1 path

/-! ## The names the functions compare and build -/

/-- The path of a sub-directory is not cut. -/
theorem subPath_eq (path : Path) (name : DName) :
    subPath path name = path ++ 47 :: name.bytes := by
  apply List.take_of_length_le
  simp only [List.length_append, List.length_cons]
  omega

/-- Names can be compared: there is no filter, or the byte behind `buf` may be overwritten. -/
def Env.CanFilter (env : Env) (filter : Option (List UInt8)) : Prop :=
  filter ≠ none → env.behind ≠ []

theorem canFilter_none (env : Env) : env.CanFilter none := fun h => absurd rfl h

/-- The comparison with a filter returns when the byte behind the buffer may be overwritten. -/
theorem filterMatch_eq_some {env : Env} (h : env.behind ≠ []) (d : Dirent) (filter : List UInt8) :
    ∃ matched, filterMatch env d filter = some matched := by
  let buf₀ : List UInt8 := [46] ++ (List.replicate 63 0 ++ env.behind)
  have hstore : store (List.replicate 64 0 ++ env.behind) 0 [46] = some buf₀ :=
    store_eq_some (Nat.succ_le_of_lt (by simp))
  have hpos := List.length_pos_iff.mpr h
  obtain ⟨buf, hcopy, hlen⟩ : ∃ buf,
      hyStrCopyRight (d.dType :: (d.dName.bytes ++ [0])) 1 buf₀ 1 64 46 = some buf ∧
        buf.length = buf₀.length := by
    refine hyStrCopyRight_eq_some d.dName.nul_free (List.cons_ne_nil d.dType []) (by decide) ?_
    change 1 + 64 ≤ buf₀.length
    simp only [buf₀, List.length_append, List.length_replicate, List.length_singleton]
    omega
  rw [filterMatch, hstore]
  dsimp only [Option.bind_eq_bind, Option.bind_some]
  rw [hcopy, Option.bind_some]
  split_ifs with hlong
  · exact ⟨false, rfl⟩
  · refine strncmpEq_isSome ?_ (by simp)
    rw [List.length_take, hlen]
    simp only [buf₀, List.length_append, List.length_replicate, List.length_singleton]
    omega

/-- Otherwise the copy leaves the buffer, whatever the name. -/
theorem filterMatch_eq_none {env : Env} (h : env.behind = []) (d : Dirent)
    (filter : List UInt8) : filterMatch env d filter = none := by
  have hstore : store (List.replicate 64 0 ++ env.behind) 0 [46] =
      some (46 :: List.replicate 63 (0 : UInt8)) := by
    rw [h]
    rfl
  -- the fill is as long as the buffer, and starts behind the dot
  have hclear : memset (46 :: List.replicate 63 (0 : UInt8)) 1 0 (64 : UInt64).toNat = none :=
    store_eq_none (by decide)
  rw [filterMatch, hstore, Option.bind_eq_bind, Option.bind_some, hyStrCopyRight, hclear]
  rfl

/-- The filter lets the entry pass. -/
def passes (env : Env) (filter : Option (List UInt8)) (d : Dirent) : Bool :=
  match filter with
  | none => true
  | some filter => filterMatch env d filter = some true

/-- **The filter** decides whether the callback is called. -/
theorem filterFile_eq {env : Env} {filter : Option (List UInt8)} (h : env.CanFilter filter)
    (path : Path) (d : Dirent) (type : UInt8) : filterFile env true path d type filter =
      some (if passes env filter d then [.call path d.dName.bytes type] else []) := by
  cases filter with
  | none => rfl
  | some filter =>
    obtain ⟨matched, hmatch⟩ := filterMatch_eq_some (h (Option.some_ne_none filter)) d filter
    simp only [filterFile, passes, hmatch, if_true, Option.bind_eq_bind, Option.bind_some]
    cases matched <;> rfl

/-- Where names cannot be compared, no file is filtered. -/
theorem filterFile_eq_none {env : Env} {filter : Option (List UInt8)} (h : ¬env.CanFilter filter)
    (path : Path) (d : Dirent) (type : UInt8) : filterFile env true path d type filter = none := by
  cases filter with
  | none => exact absurd (canFilter_none env) h
  | some filter =>
    have hbehind : env.behind = [] := by
      by_contra hne
      exact h fun _ => hne
    rw [filterFile, if_pos rfl, filterMatch_eq_none hbehind]
    rfl

end HyUtils.Dir
