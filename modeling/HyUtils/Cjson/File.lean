import HyUtils.Cjson.Model
import Mathlib.Data.Finset.Insert
import Mathlib.Data.Finset.Basic

/-!
# Fields of JSON files

`src/src/hy_cjson_file.c`: a file is read into a buffer, the buffer is parsed into a tree, and a field
of the tree is looked up. A file descriptor, a buffer and a tree are acquired on the way; each of the
three functions releases what it has acquired when it succeeds, and not when it fails.

What the system calls and `cJSON_Parse` return is given, depending on what is open and live; a
descriptor, a buffer or a tree that they return is a new one.

## Main definitions

* `World`: the open descriptors, the live buffers, and the live trees
* `Env`: what the calls return
* `getFileContent`, `hyJsonFileGetRoot`, `fileGetCom`: the functions of the source
* `hyJsonFileGetInt`, `hyJsonFileGetDouble`, `hyJsonFileGetString`: the interface
* `Refused`, `Found`: nothing is acquired, and everything that is needed is there

## Main results

* `fileGetCom_eq_iff`: what is acquired is released exactly when nothing is or the field is found
* `hyJsonFileGet_keeps_iff`: so for the three functions
-/

namespace HyUtils.Cjson

open Hash

variable {ν δ β : Type}

/-! ## Resources -/

/-- What is open and live: file descriptors, heap buffers, and trees. -/
@[ext] structure World where
  fds : Finset ℕ
  buffers : Finset ℕ
  trees : Finset ℕ
  deriving DecidableEq

namespace World

def addFd (w : World) (fd : ℕ) : World := { w with fds := insert fd w.fds }

/-- `close`. -/
def close (w : World) (fd : ℕ) : World := { w with fds := w.fds.erase fd }

def addBuffer (w : World) (buffer : ℕ) : World := { w with buffers := insert buffer w.buffers }

/-- `free`. -/
def free (w : World) (buffer : ℕ) : World := { w with buffers := w.buffers.erase buffer }

def addTree (w : World) (tree : ℕ) : World := { w with trees := insert tree w.trees }

/-- `cJSON_Delete`. -/
def delete (w : World) (tree : ℕ) : World := { w with trees := w.trees.erase tree }

end World

/-- What the calls return: `access`, `open` (a descriptor, unless it fails), `lseek` to the end,
`calloc` (a buffer, unless it fails), `read` (how much it has read, and what), and `cJSON_Parse` (a
tree and its root, unless it fails). -/
structure Env (ν : Type) where
  access : World → CString → Int32
  openFd : World → CString → Option ℕ
  lseek : World → ℕ → Int64
  calloc : World → UInt64 → Option ℕ
  read : World → ℕ → UInt64 → Int64 × List UInt8
  cJSONParse : World → List UInt8 → Option (ℕ × ν)
  openFd_fresh : ∀ {w file fd}, openFd w file = some fd → fd ∉ w.fds
  calloc_fresh : ∀ {w size buffer}, calloc w size = some buffer → buffer ∉ w.buffers
  cJSONParse_fresh : ∀ {w content tree root},
    cJSONParse w content = some (tree, root) → tree ∉ w.trees

section Functions

variable (env : Env ν)

/-- `_get_file_content`: the buffer, and what is in it. -/
def getFileContent (w : World) (file : CString) : World × Option (ℕ × List UInt8) :=
  if env.access w file ≠ 0 then (w, none)
  else
    match env.openFd w file with
    | none => (w, none)
    | some fd =>
      let w := w.addFd fd
      let offset := env.lseek w fd
      match env.calloc w offset.toUInt64 with
      | none => (w, none)
      | some fileContent =>
        let w := w.addBuffer fileContent
        let (n, content) := env.read w fd offset.toUInt64
        if offset ≠ n then (w, none) else (w.close fd, some (fileContent, content))

/-- `HyJsonFileGetRoot`. -/
def hyJsonFileGetRoot (w : World) (file : Option CString) : World × Option (ℕ × ν) :=
  match file with
  | none => (w, none)
  | some file =>
    match getFileContent env w file with
    | (w, none) => (w, none)
    | (w, some (fileContent, content)) =>
      match env.cJSONParse w content with
      | none => (w, none)
      | some (tree, root) => ((w.addTree tree).free fileContent, some (tree, root))

/-- `_file_get_com`: what it returns, and what the callback has stored through `val`. A callback that
fails stores nothing. -/
def fileGetCom (w : World) (file : Option CString) (val : Bool)
    (fileGetCb : Option (World → ν → Option (World × Option β))) :
    Option (World × Int32 × Option β) :=
  if file = none ∨ val = false then some (w, -1, none)
  else
    match hyJsonFileGetRoot env w file with
    | (w, none) => some (w, -1, none)
    | (w, some (tree, root)) =>
      match fileGetCb with
      | none => some (w.delete tree, 0, none)
      | some fileGetCb => do
        match ← fileGetCb w root with
        | (w, none) => return (w, -1, none)
        | (w, some v) => return (w.delete tree, 0, some v)

/-- A getter with the copy of the path that `_get_item` makes and frees; without memory for it the
copy is written to a null pointer. Where `_get_item_com` refuses its parameters there is no copy. -/
def withFieldFmt (field : Option CString) (fieldLen : UInt32) (get : Option (Option β))
    (w : World) : Option (World × Option β) :=
  if field = none ∨ fieldLen ≤ 0 then get.map fun v => (w, v)
  else do
    let fieldFmt ← env.calloc w (align4Up fieldLen).toUInt64
    let v ← get
    return ((w.addBuffer fieldFmt).free fieldFmt, v)

variable (json : CJson ν δ) (toInt : ℤ → Int32)

/-- `HyJsonFileGetInt`; `val` says whether there is a place for the value. -/
def hyJsonFileGetInt (w : World) (file : Option CString) (val : Bool) (field : Option CString)
    (fieldLen : UInt32) : Option (World × Int32 × Option Int32) :=
  fileGetCom env w file val (some fun w root =>
    withFieldFmt env field fieldLen (hyJsonGetInt json toInt (some root) field fieldLen) w)

/-- `HyJsonFileGetDouble`. -/
def hyJsonFileGetDouble (w : World) (file : Option CString) (val : Bool) (field : Option CString)
    (fieldLen : UInt32) : Option (World × Int32 × Option δ) :=
  fileGetCom env w file val (some fun w root =>
    withFieldFmt env field fieldLen (hyJsonGetDouble json toInt (some root) field fieldLen) w)

/-- `HyJsonFileGetString`; `val` is the buffer for the string, if there is one. -/
def hyJsonFileGetString (w : World) (file : Option CString) (val : Option (List UInt8))
    (field : Option CString) (fieldLen : UInt32) : Option (World × Int32 × Option (List UInt8)) :=
  fileGetCom env w file val.isSome (some fun w root =>
    withFieldFmt env field fieldLen
      (hyJsonGetString json toInt (some root) (val.getD []) field fieldLen) w)

end Functions

/-! ## What is released -/

namespace World

variable {w : World} {r : ℕ}

theorem free_addBuffer (h : r ∉ w.buffers) : (w.addBuffer r).free r = w :=
  World.ext rfl (Finset.erase_insert h) rfl

theorem delete_addTree (h : r ∉ w.trees) : (w.addTree r).delete r = w :=
  World.ext rfl rfl (Finset.erase_insert h)

theorem addFd_ne (h : r ∉ w.fds) : w.addFd r ≠ w := fun he =>
  h (congrArg fds he ▸ Finset.mem_insert_self r w.fds)

theorem addBuffer_ne (h : r ∉ w.buffers) : w.addBuffer r ≠ w := fun he =>
  h (congrArg buffers he ▸ Finset.mem_insert_self r w.buffers)

theorem addTree_ne (h : r ∉ w.trees) : w.addTree r ≠ w := fun he =>
  h (congrArg trees he ▸ Finset.mem_insert_self r w.trees)

end World

/-- The file is not there or cannot be opened. -/
def Unopened (env : Env ν) (w : World) (file : CString) : Prop :=
  env.access w file ≠ 0 ∨ env.openFd w file = none

/-- The file is opened and read as a whole, into a new buffer. -/
def Reads (env : Env ν) (w : World) (file : CString) (fileContent : ℕ) (content : List UInt8) :
    Prop :=
  env.access w file = 0 ∧ ∃ fd, env.openFd w file = some fd ∧
    env.calloc (w.addFd fd) (env.lseek (w.addFd fd) fd).toUInt64 = some fileContent ∧
    env.read ((w.addFd fd).addBuffer fileContent) fd (env.lseek (w.addFd fd) fd).toUInt64 =
      (env.lseek (w.addFd fd) fd, content)

theorem Reads.unique {env : Env ν} {w : World} {file : CString} {buffer buffer' : ℕ}
    {content content' : List UInt8} (h : Reads env w file buffer content)
    (h' : Reads env w file buffer' content') : buffer = buffer' ∧ content = content' := by
  obtain ⟨-, fd, hfd, hcalloc, hread⟩ := h
  obtain ⟨-, fd', hfd', hcalloc', hread'⟩ := h'
  obtain rfl := Option.some.inj (hfd.symm.trans hfd')
  obtain rfl := Option.some.inj (hcalloc.symm.trans hcalloc')
  exact ⟨rfl, (Prod.mk.inj (hread.symm.trans hread')).2⟩

/-- **The exits of `_get_file_content`**: nothing is acquired; something is and is kept though the
function fails; or the buffer is what is kept. -/
theorem getFileContent_cases (env : Env ν) (w : World) (file : CString) :
    (Unopened env w file ∧ getFileContent env w file = (w, none)) ∨
      (¬Unopened env w file ∧ (¬∃ buffer content, Reads env w file buffer content) ∧
        ∃ w', w' ≠ w ∧ getFileContent env w file = (w', none)) ∨
      ∃ buffer content, ¬Unopened env w file ∧ Reads env w file buffer content ∧
        buffer ∉ w.buffers ∧
        getFileContent env w file = (w.addBuffer buffer, some (buffer, content)) := by
  by_cases haccess : env.access w file = 0
  · cases hopen : env.openFd w file with
    | none => exact .inl ⟨.inr hopen, by rw [getFileContent, if_neg (not_not.mpr haccess), hopen]⟩
    | some fd =>
      right
      have hfd : fd ∉ w.fds := env.openFd_fresh hopen
      have hopened : ¬Unopened env w file := by
        rintro (h | h)
        · exact h haccess
        · rw [hopen] at h
          exact nomatch h
      rw [getFileContent, if_neg (not_not.mpr haccess), hopen]
      dsimp only
      cases hcalloc : env.calloc (w.addFd fd) (env.lseek (w.addFd fd) fd).toUInt64 with
      | none =>
        -- the descriptor is left open
        refine .inl ⟨hopened, ?_, w.addFd fd, World.addFd_ne hfd, rfl⟩
        rintro ⟨buffer, content, -, fd', hopen', hcalloc', -⟩
        obtain rfl := Option.some.inj (hopen.symm.trans hopen')
        exact nomatch hcalloc.symm.trans hcalloc'
      | some buffer =>
        have hbuffer : buffer ∉ (w.addFd fd).buffers := env.calloc_fresh hcalloc
        obtain ⟨⟨n, content⟩, hcontent⟩ : ∃ r, env.read ((w.addFd fd).addBuffer buffer) fd
          (env.lseek (w.addFd fd) fd).toUInt64 = r := ⟨_, rfl⟩
        simp only [hcontent]
        split_ifs with hread
        · -- the descriptor is left open and the buffer allocated
          refine .inl ⟨hopened, ?_, _, ?_, rfl⟩
          · rintro ⟨buffer', content', -, fd', hopen', hcalloc', hread'⟩
            obtain rfl := Option.some.inj (hopen.symm.trans hopen')
            obtain rfl := Option.some.inj (hcalloc.symm.trans hcalloc')
            exact hread (Prod.mk.inj (hcontent.symm.trans hread')).1.symm
          · intro he
            have hfds := congrArg World.fds he
            exact World.addFd_ne hfd (World.ext hfds rfl rfl)
        · have hclose : ((w.addFd fd).addBuffer buffer).close fd = w.addBuffer buffer :=
            World.ext (Finset.erase_insert hfd) rfl rfl
          rw [← not_not.mp hread] at hcontent
          rw [hclose]
          exact .inr ⟨buffer, content, hopened, ⟨haccess, fd, hopen, hcalloc, hcontent⟩, hbuffer,
            rfl⟩
  · exact .inl ⟨.inl haccess, by rw [getFileContent, if_pos haccess]⟩

/-- A getter keeps what is open and live. -/
theorem withFieldFmt_eq_some {env : Env ν} {field : Option CString} {fieldLen : UInt32}
    {get : Option (Option β)} {w w' : World} {v : Option β}
    (h : withFieldFmt env field fieldLen get w = some (w', v)) : w' = w ∧ get = some v := by
  rw [withFieldFmt] at h
  split_ifs at h
  · obtain ⟨v', hget, heq⟩ := Option.map_eq_some_iff.mp h
    cases heq
    exact ⟨rfl, hget⟩
  · obtain ⟨fieldFmt, hcalloc, h⟩ := Option.bind_eq_some_iff.mp h
    obtain ⟨v', hget, heq⟩ := Option.bind_eq_some_iff.mp h
    cases heq
    exact ⟨World.free_addBuffer (env.calloc_fresh hcalloc), hget⟩

/-- The call is refused before anything is acquired: a parameter is `NULL`, or the file is not there
or cannot be opened. -/
def Refused (env : Env ν) (w : World) (file : Option CString) (val : Bool) : Prop :=
  val = false ∨ ∀ f ∈ file, Unopened env w f

/-- The file is read as a whole and parsed, and the getter finds a value in the tree. -/
def Found (env : Env ν) (w : World) (file : Option CString) (get : ν → Option (Option β)) : Prop :=
  ∃ f ∈ file, ∃ buffer content tree root v, Reads env w f buffer content ∧
    env.cJSONParse (w.addBuffer buffer) content = some (tree, root) ∧ get root = some (some v)

section

variable {env : Env ν} {w : World} {f : CString} {val : Bool} {get : ν → Option (Option β)}

theorem refused_iff_unopened (hval : val ≠ false) :
    Refused env w (some f) val ↔ Unopened env w f := by
  refine (or_iff_right hval).trans ⟨fun h => h f rfl, fun h f' hf => ?_⟩
  cases hf
  exact h

theorem not_found_of_not_reads (hreads : ¬∃ buffer content, Reads env w f buffer content) :
    ¬Found env w (some f) get := by
  rintro ⟨f', hf, buffer, content, tree, root, v, hreads', -, -⟩
  cases hf
  exact hreads ⟨buffer, content, hreads'⟩

/-- Of a file that is read it is left to parse it and to look the field up. -/
theorem found_iff_of_reads {buffer : ℕ} {content : List UInt8}
    (hreads : Reads env w f buffer content) :
    Found env w (some f) get ↔
      ∃ parsed ∈ env.cJSONParse (w.addBuffer buffer) content, ∃ v,
        get parsed.2 = some (some v) := by
  constructor
  · rintro ⟨f', hf, buffer', content', tree, root, v, hreads', hparse, hget⟩
    cases hf
    obtain ⟨rfl, rfl⟩ := hreads.unique hreads'
    exact ⟨(tree, root), hparse, v, hget⟩
  · rintro ⟨⟨tree, root⟩, hparse, v, hget⟩
    exact ⟨f, rfl, buffer, content, tree, root, v, hreads, hparse, hget⟩

end

/-- **What is acquired is released** exactly when the call is refused or the value is found. -/
theorem fileGetCom_eq_iff {env : Env ν} {w w' : World} {file : Option CString} {val : Bool}
    {field : Option CString} {fieldLen : UInt32} {get : ν → Option (Option β)}
    {r : Int32 × Option β}
    (h : fileGetCom env w file val
      (some fun w root => withFieldFmt env field fieldLen (get root) w) = some (w', r)) :
    w' = w ↔ Refused env w file val ∨ Found env w file get := by
  rw [fileGetCom] at h
  split_ifs at h with hnull
  · cases h
    refine iff_of_true rfl (.inl ?_)
    rcases hnull with rfl | hval
    · exact .inr fun f hf => nomatch hf
    · exact .inl hval
  obtain ⟨hfile, hval⟩ := not_or.mp hnull
  obtain ⟨f, rfl⟩ := Option.ne_none_iff_exists'.mp hfile
  rw [hyJsonFileGetRoot] at h
  rw [refused_iff_unopened hval]
  rcases getFileContent_cases env w f with ⟨hunopened, hget⟩ |
    ⟨hopened, hreads, w₁, hne, hget⟩ | ⟨buffer, content, hopened, hreads, hbuffer, hget⟩
  · rw [hget] at h
    cases h
    exact iff_of_true rfl (.inl hunopened)
  · -- the file has been opened and is not read as a whole
    rw [hget] at h
    cases h
    exact iff_of_false hne (not_or.mpr ⟨hopened, not_found_of_not_reads hreads⟩)
  · rw [hget] at h
    dsimp only at h
    rw [or_iff_right hopened, found_iff_of_reads hreads]
    cases hparse : env.cJSONParse (w.addBuffer buffer) content with
    | none =>
      -- the buffer is not freed
      rw [hparse] at h
      cases h
      refine iff_of_false (World.addBuffer_ne hbuffer) ?_
      rintro ⟨parsed, hparsed, -⟩
      cases hparsed
    | some parsed =>
      have htree : parsed.1 ∉ (w.addBuffer buffer).trees := env.cJSONParse_fresh hparse
      have hfreed : ((w.addBuffer buffer).addTree parsed.1).free buffer = w.addTree parsed.1 :=
        World.ext rfl (Finset.erase_insert hbuffer) rfl
      rw [hparse] at h
      dsimp only at h
      rw [hfreed] at h
      obtain ⟨⟨w₁, found⟩, hfield, h⟩ := Option.bind_eq_some_iff.mp h
      obtain ⟨rfl, hroot⟩ := withFieldFmt_eq_some hfield
      cases found with
      | none =>
        -- the tree is not deleted
        cases h
        refine iff_of_false (World.addTree_ne htree) ?_
        rintro ⟨parsed', hparsed, v, hv⟩
        cases hparsed
        rw [hroot] at hv
        cases hv
      | some v =>
        cases h
        exact iff_of_true (World.delete_addTree htree) ⟨parsed, rfl, v, hroot⟩

/-- **The three functions**: each leaves open and live what was before the call exactly when it is
refused or it finds the value. -/
theorem hyJsonFileGet_keeps_iff (env : Env ν) (json : CJson ν δ) (toInt : ℤ → Int32) (w : World)
    (file : Option CString) (val : Bool) (str : Option (List UInt8)) (field : Option CString)
    (fieldLen : UInt32) :
    (∀ w' r, hyJsonFileGetInt env json toInt w file val field fieldLen = some (w', r) →
      (w' = w ↔ Refused env w file val ∨ Found env w file fun root =>
        hyJsonGetInt json toInt (some root) field fieldLen)) ∧
    (∀ w' r, hyJsonFileGetDouble env json toInt w file val field fieldLen = some (w', r) →
      (w' = w ↔ Refused env w file val ∨ Found env w file fun root =>
        hyJsonGetDouble json toInt (some root) field fieldLen)) ∧
    ∀ w' r, hyJsonFileGetString env json toInt w file str field fieldLen = some (w', r) →
      (w' = w ↔ Refused env w file str.isSome ∨ Found env w file fun root =>
        hyJsonGetString json toInt (some root) (str.getD []) field fieldLen) :=
  ⟨fun _ _ h => fileGetCom_eq_iff h, fun _ _ h => fileGetCom_eq_iff h,
    fun _ _ h => fileGetCom_eq_iff h⟩

/-! ## An environment -/

/-- A file of two bytes, in a system in which one descriptor, two buffers and one tree can be had at
a time: whether the first buffer can be allocated, how much `read` reads, and whether the file can be
parsed. -/
def smallEnv (callocOk : Bool) (readLen : Int64) (parseOk : Bool) : Env ℕ :=
  { access := fun _ _ => 0
    openFd := fun w _ => if 3 ∈ w.fds then none else some 3
    lseek := fun _ _ => 2
    calloc := fun w size =>
      if size = 2 ∧ callocOk = false then none
      else if 10 ∈ w.buffers then if 11 ∈ w.buffers then none else some 11
      else some 10
    read := fun _ _ _ => (readLen, [123, 125])
    cJSONParse := fun w _ => if parseOk = false ∨ 20 ∈ w.trees then none else some (20, 0)
    openFd_fresh := by
      intro w file fd h
      split_ifs at h with hmem
      cases h
      exact hmem
    calloc_fresh := by
      intro w size buffer h
      split_ifs at h with _ hten heleven
      · cases h
        exact heleven
      · cases h
        exact hten
    cJSONParse_fresh := by
      intro w content tree root h
      split_ifs at h with hmem
      cases h
      exact fun htree => hmem (.inr htree) }

/-- What is left open and live where the file cannot be read as a whole or parsed, and where it has
no such field. -/
theorem hyJsonFileGetInt_leaks :
    let w : World := ⟨∅, ∅, ∅⟩
    let noField : CJson ℕ Unit := { countingTree with getObjectItem := fun _ _ => none }
    let path : CString := ⟨[97], by decide⟩
    hyJsonFileGetInt (smallEnv false 2 true) countingTree Int32.ofInt w (some path) true (some path)
        1 = some (⟨{3}, ∅, ∅⟩, -1, none) ∧
      hyJsonFileGetInt (smallEnv true 1 true) countingTree Int32.ofInt w (some path) true
        (some path) 1 = some (⟨{3}, {10}, ∅⟩, -1, none) ∧
      hyJsonFileGetInt (smallEnv true 2 false) countingTree Int32.ofInt w (some path) true
        (some path) 1 = some (⟨∅, {10}, ∅⟩, -1, none) ∧
      hyJsonFileGetInt (smallEnv true 2 true) noField Int32.ofInt w (some path) true (some path)
        1 = some (⟨∅, ∅, {20}⟩, -1, none) := by decide

/-- The value that is found leaves the descriptors, buffers and trees that were there before. -/
theorem hyJsonFileGet_keeps_iff_found :
    let w : World := ⟨{0, 1, 2}, {11}, {21}⟩
    let path : CString := ⟨[97], by decide⟩
    hyJsonFileGetInt (smallEnv true 2 true) countingTree Int32.ofInt w (some path) true (some path)
        1 = some (w, 0, some 1) ∧
      (w = w ↔ Refused (smallEnv true 2 true) w (some path) true ∨
        Found (smallEnv true 2 true) w (some path) fun root =>
          hyJsonGetInt countingTree Int32.ofInt (some root) (some path) 1) := by
  intro w path
  have hrun : hyJsonFileGetInt (smallEnv true 2 true) countingTree Int32.ofInt w (some path) true
      (some path) 1 = some (w, 0, some 1) := by decide
  exact ⟨hrun, (hyJsonFileGet_keeps_iff (smallEnv true 2 true) countingTree Int32.ofInt w
    (some path) true none (some path) 1).1 w (0, some 1) hrun⟩

end HyUtils.Cjson
