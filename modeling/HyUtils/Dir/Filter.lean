import HyUtils.Dir.Model
import HyUtils.Foundation.Lists

/-!
# The filter for file names

`src/src/hy_dir.c`: `_filter_file` copies the end of a name behind a dot and compares it with the
filter. The comparison is as long as the filter, so what is compared is whether the end of the name
begins with the filter; and the copy is told of one byte more than there are behind the dot.

## Main definitions

* `filterCopy`: the copy, on the buffer and the bytes of the stack after it
* `extension`: what a name has from its last dot on
* `Misreported`: a name that only begins like one with the filter's extension

## Main results

* `filterMatch_eq`: the comparison, for filters the buffer has room for
* `filterFile_reports_iff`: the callback is called for the filter's extension, unless the name is
  misreported
* `filterCopy_overruns`: the copy never stays inside the buffer
-/

namespace HyUtils.Dir

open Region Str

/-! ## The copy -/

/-- A copy behind the first byte of the destination is a copy to the other bytes. -/
theorem hyStrCopyRight_cons (src : List UInt8) (soff : ℕ) (x : UInt8) (dst : List UInt8) (doff : ℕ)
    (len : UInt64) (ch : UInt8) :
    hyStrCopyRight src soff (x :: dst) (doff + 1) len ch =
      (hyStrCopyRight src soff dst doff len ch).map (x :: ·) := by
  rw [hyStrCopyRight, hyStrCopyRight, memset, memset, store_cons]
  cases store dst doff (List.replicate len.toNat 0) with
  | none => rfl
  | some dst =>
    cases strlen src soff with
    | none => rfl
    | some srcLen =>
      simp only [Option.map_some, Option.bind_eq_bind, Option.bind_some]
      cases scanRight src soff ch srcLen with
      | none => rfl
      | some left => exact memcpy_cons x dst doff src _ _

/-- The call of `HyStrCopyRight` in `_filter_file`, on the buffer with the dot and the bytes of the
stack `after` it. -/
def filterCopy (d : Dirent) (after : List UInt8) : Option (List UInt8) :=
  hyStrCopyRight (d.dType :: (d.dName.bytes ++ [0])) 1 (46 :: (List.replicate 63 0 ++ after)) 1 64
    46

/-- The comparison is that of what the copy leaves. -/
theorem filterMatch_eq_bind (env : Env) (d : Dirent) (filter : List UInt8) :
    filterMatch env d filter = (filterCopy d env.behind).bind fun buf =>
      if filter.length > 64 then some false
      else strncmpEq (buf.take 64) (filter ++ [0]) filter.length := by
  have hstore : store (List.replicate 64 0 ++ env.behind) 0 [46] =
      some (46 :: (List.replicate 63 0 ++ env.behind)) :=
    store_eq_some (Nat.succ_le_of_lt (by simp))
  rw [filterMatch, hstore]
  rfl

/-- The dot, as much of the last part of the name as fits, and zeros, in the buffer and one byte
behind it. -/
theorem filterCopy_eq (d : Dirent) (stack : UInt8) (after : List UInt8) :
    filterCopy d (stack :: after) = some (46 :: (copied 46 46 d.dName.bytes 64 ++ after)) := by
  have hspec := hyStrCopyRight2_spec 46 46 [d.dType] [] d.dName.nul_free
    (show 0 < (64 : UInt64).toNat by decide)
    (show (64 : UInt64).toNat ≤ (List.replicate 63 0 ++ stack :: after).length by simp)
  have hdrop : (List.replicate 63 0 ++ stack :: after).drop (64 : UInt64).toNat = after := rfl
  rw [if_pos (.inl (List.cons_ne_nil _ _)), hdrop] at hspec
  rw [filterCopy, hyStrCopyRight_cons, hyStrCopyRight_eq_copyRight2]
  exact congrArg (Option.map (46 :: ·)) hspec

/-! ## The comparison -/

/-- What a copy begins with, among strings it has room for, is what the last part begins with. -/
theorem prefix_copied_iff {f s : List UInt8} (hf : (0 : UInt8) ∉ f) (hlen : f.length ≤ 63) :
    f <+: (copied 46 46 s 64).take 63 ↔ f <+: lastPart 46 46 s := by
  rw [List.prefix_take_iff, and_iff_left hlen, copied, Lists.prefix_append_replicate_iff hf,
    List.prefix_take_iff, and_iff_left hlen]

/-- **The comparison asks for a prefix**: whether what follows the last dot of the name, or the
whole name, begins with what follows the dot of the filter. -/
theorem filterMatch_eq {env : Env} (hbehind : env.behind ≠ []) (d : Dirent) {f : List UInt8}
    (hf : (0 : UInt8) ∉ f) (hlen : f.length ≤ 62) :
    filterMatch env d (46 :: f) = some (decide (f <+: lastPart 46 46 d.dName.bytes)) := by
  have hnul : (0 : UInt8) ∉ 46 :: f := by
    rw [List.mem_cons, not_or]
    exact ⟨by decide, hf⟩
  obtain ⟨stack, after, hbytes⟩ := List.exists_cons_of_ne_nil hbehind
  have hcopied : (copied 46 46 d.dName.bytes 64).length = 64 := by
    simp only [copied, List.length_append, List.length_take, List.length_replicate]
    omega
  have hbuf : (46 :: (copied 46 46 d.dName.bytes 64 ++ after)).take 64 =
      46 :: (copied 46 46 d.dName.bytes 64).take 63 := by
    rw [List.take_succ_cons, List.take_append_of_le_length (by omega)]
  have hroom : (46 :: f).length ≤ (46 :: (copied 46 46 d.dName.bytes 64).take 63).length := by
    rw [List.length_cons, List.length_cons, List.length_take, hcopied]
    omega
  have hshort : ¬(46 :: f).length > 64 := by
    rw [List.length_cons]
    omega
  rw [filterMatch_eq_bind, hbytes, filterCopy_eq, Option.bind_some, if_neg hshort, hbuf,
    strncmpEq_prefix [0] hnul hroom]
  simp only [List.cons_prefix_cons, true_and, prefix_copied_iff hf (by omega : f.length ≤ 63)]

/-! ## The files reported -/

/-- The extension of a name: from its last dot on. -/
def extension (name : DName) : Option (List UInt8) :=
  if 46 ∈ name.bytes then some (46 :: lastPart 46 46 name.bytes) else none

/-- The name begins like one with the extension of the filter, without having it: its extension
goes on, or it has no dot and begins with the filter's characters. -/
def Misreported (name : DName) (f : List UInt8) : Prop :=
  if 46 ∈ name.bytes then f <+: lastPart 46 46 name.bytes ∧ f ≠ lastPart 46 46 name.bytes
  else f <+: name.bytes

instance (name : DName) (f : List UInt8) : Decidable (Misreported name f) := by
  unfold Misreported
  infer_instance

/-- **The files reported**: for every name and every filter of a dot and at most 62 characters, the
callback is called for the names with the filter's extension and for no other, exactly when the
byte behind the buffer may be overwritten and the name does not merely begin like one of them. -/
theorem filterFile_reports_iff (env : Env) (path : Path) (d : Dirent) (type : UInt8)
    {f : List UInt8} (hnul : (0 : UInt8) ∉ f) (hlen : f.length ≤ 62) :
    filterFile env true path d type (some (46 :: f)) =
        some (if extension d.dName = some (46 :: f) then [.call path d.dName.bytes type] else []) ↔
      env.behind ≠ [] ∧ ¬Misreported d.dName f := by
  by_cases hbehind : env.behind = []
  · -- the copy leaves the buffer
    have hcan : ¬env.CanFilter (some (46 :: f)) := fun h => h (Option.some_ne_none _) hbehind
    rw [filterFile_eq_none hcan]
    exact iff_of_false (Option.some_ne_none _).symm fun h => h.1 hbehind
  rw [and_iff_right hbehind]
  have hpasses : passes env (some (46 :: f)) d =
      decide (f <+: lastPart 46 46 d.dName.bytes) := by
    simp [passes, filterMatch_eq hbehind d hnul hlen]
  have hcall : ∀ p q : Prop, [Decidable p] → [Decidable q] →
      ((some (if p then [Event.call path d.dName.bytes type] else []) =
        some (if q then [Event.call path d.dName.bytes type] else [])) ↔ (p ↔ q)) := by
    intro p q _ _
    by_cases hp : p <;> by_cases hq : q <;> simp [hp, hq]
  rw [filterFile_eq fun _ => hbehind, hcall, hpasses, decide_eq_true_iff, extension, Misreported]
  by_cases hname : (46 : UInt8) ∈ d.dName.bytes
  · -- with a dot the two differ where the extension goes on
    rw [if_pos hname, if_pos hname, Option.some_inj, List.cons_inj_right]
    constructor
    · rintro heq ⟨hbegins, hne⟩
      exact hne (heq.mp hbegins).symm
    · intro hnot
      refine ⟨fun hbegins => ?_, fun heq => heq ▸ List.prefix_rfl⟩
      by_contra hne
      exact hnot ⟨hbegins, Ne.symm hne⟩
  · -- without one the whole name is compared
    rw [if_neg hname, if_neg hname, lastPart_of_notMem hname hname]
    simp

/-- The file `a.txt`. -/
def fileATxt : Dirent := ⟨dtReg, ⟨[97, 46, 116, 120, 116], by decide, by decide, by decide⟩⟩

/-- The file `a.txtx`. -/
def fileATxtx : Dirent :=
  ⟨dtReg, ⟨[97, 46, 116, 120, 116, 120], by decide, by decide, by decide⟩⟩

/-- The file `txt`. -/
def fileTxt : Dirent := ⟨dtReg, ⟨[116, 120, 116], by decide, by decide, by decide⟩⟩

/-- With the filter `.txt`, a name with a longer extension and one without a dot are reported. -/
theorem filterFile_reports_others :
    let env : Env := ⟨fun _ => none, fun _ => true, [0]⟩
    (extension fileATxtx.dName ≠ some [46, 116, 120, 116] ∧
        filterFile env true [47] fileATxtx hyDirTypeFile (some [46, 116, 120, 116]) =
          some [.call [47] fileATxtx.dName.bytes hyDirTypeFile]) ∧
      extension fileTxt.dName ≠ some [46, 116, 120, 116] ∧
        filterFile env true [47] fileTxt hyDirTypeFile (some [46, 116, 120, 116]) =
          some [.call [47] fileTxt.dName.bytes hyDirTypeFile] := by decide

/-- With the filter `.txt`, the name `a.txt`. -/
theorem filterFile_reports_iff_txt :
    let env : Env := ⟨fun _ => none, fun _ => true, [0]⟩
    filterFile env true [47] fileATxt hyDirTypeFile (some [46, 116, 120, 116]) =
        some (if extension fileATxt.dName = some [46, 116, 120, 116] then
          [.call [47] fileATxt.dName.bytes hyDirTypeFile] else []) ↔
      env.behind ≠ [] ∧ ¬Misreported fileATxt.dName [116, 120, 116] :=
  filterFile_reports_iff ⟨fun _ => none, fun _ => true, [0]⟩ [47] fileATxt hyDirTypeFile (by decide)
    (by decide)

/-! ## The buffer -/

/-- Where the copy ends with its terminator inside the buffer. -/
theorem zero_mem_copied_iff {s : List UInt8} (hs : (0 : UInt8) ∉ s) :
    0 ∈ (copied 46 46 s 64).take 63 ↔ (lastPart 46 46 s).length < 63 := by
  have hpart : (0 : UInt8) ∉ (lastPart 46 46 s).take 63 := fun h =>
    hs ((lastPart_suffix 46 46 s).subset (List.mem_of_mem_take h))
  rw [copied, List.take_append, List.mem_append, List.take_take, Nat.min_self, or_iff_right hpart,
    List.take_replicate, List.mem_replicate, and_iff_left rfl, List.length_take]
  omega

/-- **The copy never stays inside the buffer**, whatever the name: it sets the byte after the buffer
to zero. What is compared has its terminator inside the buffer when less than 63 bytes follow the
last dot. -/
theorem filterCopy_overruns (d : Dirent) (stack : UInt8) :
    (¬∃ buf, filterCopy d [] = some buf ∧ 0 ∈ buf) ∧
      ∃ buf, filterCopy d [stack] = some buf ∧ buf[64]? = some 0 ∧
        (0 ∈ buf.take 64 ↔ (lastPart 46 46 d.dName.bytes).length < 63) := by
  constructor
  · rintro ⟨buf, hcopy, -⟩
    -- the fill is as long as the buffer, and starts behind the dot
    have hclear : memset (46 :: (List.replicate 63 0 ++ [])) 1 (0 : UInt8) (64 : UInt64).toNat =
        none := store_eq_none (by decide)
    rw [filterCopy, hyStrCopyRight, hclear] at hcopy
    cases hcopy
  · refine ⟨_, filterCopy_eq d stack [], ?_, ?_⟩ <;> rw [List.append_nil]
    · rw [List.getElem?_cons_succ, copied, List.getElem?_append_right (by simp),
        List.getElem?_replicate, if_pos]
      rw [List.length_take]
      omega
    · rw [List.take_succ_cons, List.mem_cons, or_iff_right (by decide),
        zero_mem_copied_iff d.dName.nul_free]

/-- The byte after the buffer is changed for the name `a.txt`. -/
theorem filterCopy_changes_stack :
    filterCopy fileATxt [] = none ∧
      filterCopy fileATxt [7] = some (46 :: 116 :: 120 :: 116 :: List.replicate 61 0) := by decide

end HyUtils.Dir
