import HyUtils.Cjson.Path

/-!
# The item a path names

A path names the item that the lookups of its segments lead to, one after another. A segment is a
name, which may have an index in brackets behind it.

## Main definitions

* `Segment`, `pathOf`: well-formed segments, and the path they make up
* `resolvePath`: the item that a path names
* `Malformed`: a piece of a path with brackets that is no segment
* `LookupFails`: a lookup fails of what the code makes of the pieces of a path

## Main results

* `getItem_resolves_iff`: `_get_item` returns the item that a path names, in every tree, exactly for
  the paths of less than 2 GiB without an empty name at the end
* `getItem_malformed_iff`: when it returns none for a path with a malformed piece
-/

namespace HyUtils.Cjson

open Scanf Hash

variable {ν δ : Type} {json : CJson ν δ} {toInt : ℤ → Int32}

/-! ## Segments -/

/-- A segment of a path: a name without dots and brackets, and the digits of its index, where it has
one, which is less than `2 ^ 31`. -/
structure Segment where
  name : List UInt8
  digits : Option (List UInt8)
  name_plain : ∀ c ∈ name, c ≠ 0 ∧ c ≠ 46 ∧ c ≠ 91 ∧ c ≠ 93
  digits_decimal : ∀ ds ∈ digits, ds ≠ [] ∧ (∀ c ∈ ds, isDigit c = true) ∧
    Decimal.value ds < 2 ^ 31

namespace Segment

/-- The text of a segment. -/
def text (seg : Segment) : List UInt8 :=
  seg.name ++ seg.digits.elim [] fun ds => 91 :: (ds ++ [93])

/-- The item of a segment: the field with its name, and the element of this at its index. -/
def resolve (json : CJson ν δ) (seg : Segment) (parent : ν) : Option ν := do
  let child ← json.getObjectItem parent seg.name
  match seg.digits with
  | none => return child
  | some ds => json.getArrayItem child (Int32.ofNat (Decimal.value ds))

/-- The bytes of a segment are no dots and no terminators. -/
theorem ne_of_mem_text {seg : Segment} {c : UInt8} (hc : c ∈ seg.text) : c ≠ 0 ∧ c ≠ 46 := by
  rw [text, List.mem_append] at hc
  rcases hc with hname | hindex
  · obtain ⟨hnul, hdot, -, -⟩ := seg.name_plain c hname
    exact ⟨hnul, hdot⟩
  · cases hdigits : seg.digits with
    | none =>
      rw [hdigits] at hindex
      exact absurd hindex List.not_mem_nil
    | some ds =>
      rw [hdigits, Option.elim_some, List.mem_cons, List.mem_append, List.mem_singleton] at hindex
      rcases hindex with rfl | hdigit | rfl
      · decide
      · obtain ⟨-, hall, -⟩ := seg.digits_decimal ds hdigits
        obtain ⟨hlow, -⟩ := isDigit_iff.mp (hall c hdigit)
        constructor
        · rintro rfl
          exact absurd hlow (by decide)
        · rintro rfl
          exact absurd hlow (by decide)
      · decide

end Segment

/-- The text of a path. -/
def pathText (segs : List Segment) : List UInt8 := [46].intercalate (segs.map Segment.text)

theorem pathText_cons_cons (seg seg' : Segment) (segs : List Segment) :
    pathText (seg :: seg' :: segs) = seg.text ++ 46 :: pathText (seg' :: segs) := by
  rw [pathText, List.map_cons, List.map_cons, List.intercalate_cons_cons, pathText, List.map_cons,
    List.append_assoc]
  rfl

theorem nul_notMem_pathText (segs : List Segment) : (0 : UInt8) ∉ pathText segs := by
  induction segs with
  | nil => exact List.not_mem_nil
  | cons seg segs ih =>
    intro h0
    cases segs with
    | nil =>
      rw [pathText, List.map_singleton, List.intercalate_singleton] at h0
      exact (Segment.ne_of_mem_text h0).1 rfl
    | cons seg' segs =>
      rw [pathText_cons_cons, List.mem_append, List.mem_cons] at h0
      rcases h0 with h0 | h0 | h0
      · exact (Segment.ne_of_mem_text h0).1 rfl
      · exact absurd h0 (by decide)
      · exact ih h0

/-- The path of some segments. -/
def pathOf (segs : List Segment) : CString := ⟨pathText segs, nul_notMem_pathText segs⟩

/-- **The item that a path names**: that of the lookups of its segments, one after another. -/
def resolvePath (json : CJson ν δ) (segs : List Segment) (root : ν) : Option ν :=
  segs.foldlM (fun parent seg => seg.resolve json parent) root

/-! ## The code against the path -/

/-- `sscanf` stores the numbers that an `int` can hold as they are. -/
def StoresInts (toInt : ℤ → Int32) : Prop :=
  ∀ v : ℤ, -2 ^ 31 ≤ v → v < 2 ^ 31 → (toInt v).toInt = v

/-- **The code reads a segment** as it is meant. -/
theorem readSegment_text (hInt : StoresInts toInt) (seg : Segment) (parent : ν) :
    ∃ index, readSegment toInt seg.text = some (seg.name, index) ∧
      lookup json parent seg.name index = seg.resolve json parent := by
  have hopen : 91 ∉ seg.name := fun h => (seg.name_plain 91 h).2.2.1 rfl
  have hclose : 93 ∉ seg.name := fun h => (seg.name_plain 93 h).2.2.2 rfl
  rw [Segment.text, Segment.resolve]
  cases hdigits : seg.digits with
  | none =>
    -- a name without brackets
    refine ⟨-1, ?_, ?_⟩
    · rw [Option.elim_none, List.append_nil, readSegment, if_neg (fun h => hopen h.1)]
    · rw [lookup]
      cases json.getObjectItem parent seg.name with
      | none => rfl
      | some child => rfl
  | some ds =>
    obtain ⟨hne, hall, hlt⟩ := seg.digits_decimal ds hdigits
    have hscan : scanInt ds = some ((Decimal.value ds : ℤ), []) := by
      have hfield := @IntField.scanInt_append _ _ [] (IntField.of_digits hne hall) fun c hc =>
        absurd hc (Option.some_ne_none c).symm
      rwa [List.append_nil] at hfield
    -- an index of a path fits an `int`
    have hstored : toInt (Decimal.value ds) = Int32.ofNat (Decimal.value ds) := by
      rw [← Int32.toInt_inj, Int32.toInt_ofNat_of_lt hlt]
      exact hInt _ (by omega) (by omega)
    have hnonneg : 0 ≤ Int32.ofNat (Decimal.value ds) := by
      rw [Int32.le_iff_toInt_le, Int32.toInt_zero, Int32.toInt_ofNat_of_lt hlt]
      exact Int.natCast_nonneg _
    refine ⟨Int32.ofNat (Decimal.value ds), ?_, ?_⟩
    · rw [Option.elim_some, readSegment_open [] hopen hclose, hscan, Option.map_some, hstored,
        if_pos hnonneg]
    · rw [lookup]
      cases json.getObjectItem parent seg.name with
      | none => rfl
      | some child =>
        rw [Option.bind_some, if_pos hnonneg]
        rfl

/-- **The code follows segments** to the item that they name. -/
theorem follow_text (hInt : StoresInts toInt) (segs : List Segment) (root : ν) :
    follow json toInt (segs.map Segment.text) root = some (resolvePath json segs root) := by
  induction segs generalizing root with
  | nil => rfl
  | cons seg segs ih =>
    obtain ⟨index, hread, hlookup⟩ := @readSegment_text _ _ json toInt hInt seg root
    rw [List.map_cons, follow_cons, hread, Option.bind_some, hlookup, resolvePath, List.foldlM_cons]
    cases seg.resolve json root with
    | none => rfl
    | some child => exact ih child

theorem splitOn_pathText {segs : List Segment} (hne : segs ≠ []) :
    (pathText segs).splitOn 46 = segs.map Segment.text := by
  apply List.splitOn_intercalate
  · intro s hs
    obtain ⟨seg, -, rfl⟩ := List.mem_map.mp hs
    exact fun hdot => (Segment.ne_of_mem_text hdot).2 rfl
  · simpa using hne

/-- Pieces of which the last is not empty are all looked up. -/
theorem dropEmptyLast_of_ne {segments : List (List UInt8)} (h : segments.getLast? ≠ some []) :
    dropEmptyLast segments = segments := by
  induction segments with
  | nil => rfl
  | cons s segments ih =>
    cases segments with
    | nil => exact dropEmptyLast_singleton fun hs => h (by rw [hs]; rfl)
    | cons s' segments =>
      rw [dropEmptyLast, ih]
      rwa [List.getLast?_cons_cons] at h

/-- An empty piece at the end is not looked up. -/
theorem dropEmptyLast_of_eq {segments : List (List UInt8)} (h : segments.getLast? = some []) :
    dropEmptyLast segments = segments.dropLast := by
  induction segments with
  | nil => rfl
  | cons s segments ih =>
    cases segments with
    | nil =>
      obtain rfl : s = [] := by simpa using h
      rfl
    | cons s' segments =>
      rw [dropEmptyLast, ih, List.dropLast_cons_cons]
      rwa [List.getLast?_cons_cons] at h

theorem pathText_ne_nil {segs : List Segment} (hne : segs ≠ [])
    (hlast : (segs.map Segment.text).getLast? ≠ some []) : pathText segs ≠ [] := by
  intro hnil
  have hsplit := splitOn_pathText hne
  rw [hnil, List.splitOn_nil] at hsplit
  rw [← hsplit] at hlast
  exact hlast rfl

/-- The item that a path names is found in every tree. -/
theorem getItem_resolves (hInt : StoresInts toInt) {segs : List Segment} (hne : segs ≠ [])
    (hlen : (pathOf segs).bytes.length < 2 ^ 31)
    (hlast : (segs.map Segment.text).getLast? ≠ some []) (root : ν) :
    getItem json toInt root (pathOf segs) (UInt32.ofNat (pathOf segs).bytes.length) =
      some (resolvePath json segs root) := by
  rw [getItem_eq root (pathText_ne_nil hne hlast) hlen, pieces]
  change follow json toInt (dropEmptyLast ((pathText segs).splitOn 46)) root = _
  rw [splitOn_pathText hne, dropEmptyLast_of_ne hlast, follow_text hInt]

theorem resolvePath_countingTree (segs : List Segment) (n : ℕ) :
    resolvePath countingTree segs n = some (n + segs.length) := by
  induction segs generalizing n with
  | nil => rfl
  | cons seg segs ih =>
    have hresolve : seg.resolve countingTree n = some (n + 1) := by
      rw [Segment.resolve]
      cases seg.digits with
      | none => rfl
      | some ds => rfl
    rw [resolvePath, List.foldlM_cons, hresolve, Option.bind_eq_bind, Option.bind_some,
      List.length_cons, Nat.add_comm segs.length, ← Nat.add_assoc]
    exact ih (n + 1)

/-- **An empty name at the end of a path** is not looked up. -/
theorem getItem_ne_of_empty_last (hInt : StoresInts toInt) {segs : List Segment} (hne : segs ≠ [])
    (hlen : (pathOf segs).bytes.length < 2 ^ 31)
    (hlast : (segs.map Segment.text).getLast? = some []) :
    getItem countingTree toInt 0 (pathOf segs) (UInt32.ofNat (pathOf segs).bytes.length) ≠
      some (resolvePath countingTree segs 0) := by
  have hpos := List.length_pos_iff.mpr hne
  rw [resolvePath_countingTree]
  by_cases hempty : pathText segs = []
  · -- an empty path is not looked up at all
    have hpath : pathOf segs = ⟨[], List.not_mem_nil⟩ := CString.ext hempty
    rw [hpath]
    exact fun h => nomatch h
  · have hitem := @getItem_eq _ _ countingTree toInt 0 (pathOf segs) hempty hlen
    -- the code counts one lookup less than the path has segments
    have hpieces : pieces (pathOf segs).bytes = segs.dropLast.map Segment.text := by
      rw [pieces]
      change dropEmptyLast ((pathText segs).splitOn 46) = _
      rw [splitOn_pathText hne, dropEmptyLast_of_eq hlast, List.map_dropLast]
    rw [hitem, hpieces, follow_text hInt, resolvePath_countingTree, List.length_dropLast]
    intro h
    have hcount := Option.some.inj (Option.some.inj h)
    omega

/-- **The path and the item**: for every path of less than 4 GiB, `_get_item` returns the item that
the path names, or none where it names none, in every tree, exactly when the path has less than
2 GiB and no empty name at its end. -/
theorem getItem_resolves_iff (hInt : StoresInts toInt) {segs : List Segment} (hne : segs ≠ [])
    (hlen : (pathOf segs).bytes.length < 2 ^ 32) :
    (∀ (ν δ : Type) (json : CJson ν δ) (root : ν),
      getItem json toInt root (pathOf segs) (UInt32.ofNat (pathOf segs).bytes.length) =
        some (resolvePath json segs root)) ↔
      (pathOf segs).bytes.length < 2 ^ 31 ∧ (segs.map Segment.text).getLast? ≠ some [] := by
  constructor
  · intro hall
    -- a tree that counts the lookups tells when one is left out
    have hcount := hall ℕ Unit countingTree 0
    have hshort : (pathOf segs).bytes.length < 2 ^ 31 := by
      by_contra hlong
      rw [resolvePath_countingTree] at hcount
      by_cases hmax : (pathOf segs).bytes.length ≤ valLenMax
      · rw [getItem_of_long 0 (Nat.le_of_not_lt hlong) hmax] at hcount
        exact nomatch hcount
      · rw [getItem_of_too_long 0 (Nat.lt_of_not_le hmax) hlen] at hcount
        exact nomatch hcount
    exact ⟨hshort, fun hlast => getItem_ne_of_empty_last hInt hne hshort hlast hcount⟩
  · rintro ⟨hshort, hlast⟩ ν δ json root
    exact getItem_resolves hInt hne hshort hlast root

/-- A long name is not looked up. -/
theorem getItem_long_name {n : ℕ} (hlow : 2 ^ 31 ≤ n) (hmax : n ≤ valLenMax) :
    ∃ seg : Segment, seg.text = List.replicate n 97 ∧
      getItem countingTree toInt 0 (pathOf [seg]) (UInt32.ofNat (pathOf [seg]).bytes.length) =
        some none ∧
      resolvePath countingTree [seg] 0 = some 1 := by
  have hplain : ∀ c ∈ List.replicate n (97 : UInt8), c ≠ 0 ∧ c ≠ 46 ∧ c ≠ 91 ∧ c ≠ 93 := by
    intro c hc
    rw [List.eq_of_mem_replicate hc]
    decide
  let seg : Segment := ⟨List.replicate n 97, none, hplain, nofun⟩
  have htext : seg.text = List.replicate n 97 := List.append_nil _
  have hbytes : (pathOf [seg]).bytes = List.replicate n 97 := by
    rw [← htext]
    exact @List.intercalate_singleton _ [46] _
  have hlen : (pathOf [seg]).bytes.length = n := by
    rw [hbytes, List.length_replicate]
  exact ⟨seg, htext, getItem_of_long 0 (hlen.symm ▸ hlow) (hlen.symm ▸ hmax),
    resolvePath_countingTree [seg] 0⟩

/-- The path `a.`, of a name and an empty one, for which the item of the first name is returned; and
a path of `2 ^ 31` bytes, for which none is. -/
theorem getItem_ignores_names :
    (let segs : List Segment :=
      [⟨[97], none, by simp, nofun⟩, ⟨[], none, by simp, nofun⟩]
    (pathOf segs).bytes = [97, 46] ∧
      getItem countingTree Int32.ofInt 0 (pathOf segs) 2 = some (some 1) ∧
      resolvePath countingTree segs 0 = some 2) ∧
    ∃ seg : Segment, seg.text = List.replicate (2 ^ 31) 97 ∧
      getItem countingTree Int32.ofInt 0 (pathOf [seg])
        (UInt32.ofNat (pathOf [seg]).bytes.length) = some none ∧
      resolvePath countingTree [seg] 0 = some 1 := by
  refine ⟨⟨rfl, ?_, rfl⟩, getItem_long_name (Nat.le_refl _) (by decide)⟩
  decide

/-- The path `a.b[12]`. -/
theorem getItem_resolves_iff_index :
    let segs : List Segment := [⟨[97], none, by simp, nofun⟩,
      ⟨[98], some [49, 50], by simp, by simp [isDigit, Decimal.value]⟩]
    (∀ (ν δ : Type) (json : CJson ν δ) (root : ν),
      getItem json Int32.ofInt root (pathOf segs) (UInt32.ofNat (pathOf segs).bytes.length) =
        some (resolvePath json segs root)) ↔
      (pathOf segs).bytes.length < 2 ^ 31 ∧ (segs.map Segment.text).getLast? ≠ some [] :=
  getItem_resolves_iff (fun _ hlow hhigh => Int32.toInt_ofInt_of_le hlow hhigh) (by simp)
    (by decide)

/-! ## Malformed pieces -/

/-- A piece has brackets, and is not a name with a decimal index in brackets at its end. -/
def Malformed (s : List UInt8) : Prop :=
  (91 ∈ s ∨ 93 ∈ s) ∧ ¬∃ name digits, s = name ++ 91 :: (digits ++ [93]) ∧ 91 ∉ name ∧ 93 ∉ name ∧
    digits ≠ [] ∧ ∀ c ∈ digits, isDigit c = true

/-- **A lookup fails**: of the names and the indexes that `readSegment` makes of the pieces, before
it meets a piece whose index is not assigned. -/
def LookupFails (json : CJson ν δ) (toInt : ℤ → Int32) : List (List UInt8) → ν → Prop
  | [], _ => False
  | s :: segments, parent => ∃ name index, readSegment toInt s = some (name, index) ∧
      ∀ child, lookup json parent name index = some child → LookupFails json toInt segments child

theorem follow_eq_none_iff (segments : List (List UInt8)) (root : ν) :
    follow json toInt segments root = some none ↔ LookupFails json toInt segments root := by
  induction segments generalizing root with
  | nil => simp [follow, LookupFails]
  | cons s segments ih =>
    rw [follow_cons, LookupFails]
    cases hread : readSegment toInt s with
    | none =>
      rw [Option.bind_none]
      constructor
      · intro h
        cases h
      · rintro ⟨name, index, h, -⟩
        cases h
    | some r =>
      rw [Option.bind_some]
      constructor
      · intro h
        refine ⟨r.1, r.2, rfl, fun child hchild => (ih child).mp ?_⟩
        rwa [hchild] at h
      · rintro ⟨name, index, hr, hrest⟩
        obtain rfl := Option.some.inj hr
        cases hlookup : lookup json root name index with
        | none => rfl
        | some child => exact (ih child).mpr (hrest child hlookup)

/-- Where every lookup succeeds, none fails. -/
theorem not_lookupFails_countingTree (segments : List (List UInt8)) (n : ℕ) :
    ¬LookupFails countingTree toInt segments n := by
  induction segments generalizing n with
  | nil => exact id
  | cons s segments ih =>
    rintro ⟨name, index, -, hrest⟩
    have hchild : lookup countingTree n name index = some (n + 1) := by
      rw [lookup]
      exact ite_self _
    exact ih (n + 1) (hrest (n + 1) hchild)

/-- A path with a malformed piece is not empty. -/
theorem ne_nil_of_malformed {path s : List UInt8} (hs : s ∈ path.splitOn 46) (hbad : Malformed s) :
    path ≠ [] := by
  rintro rfl
  obtain rfl : s = [] := by simpa using hs
  rcases hbad.1 with h | h
  · exact absurd h List.not_mem_nil
  · exact absurd h List.not_mem_nil

/-- **A path with a malformed piece** is answered with none exactly when it has 2 GiB or more (and
its buffer has room for it), or a lookup fails of what the code makes of its pieces. So none of less
than 2 GiB is rejected in every tree. -/
theorem getItem_malformed_iff (toInt : ℤ → Int32) {field : CString} {s : List UInt8}
    (hs : s ∈ field.bytes.splitOn 46) (hbad : Malformed s)
    (hlen : field.bytes.length < 2 ^ 32) :
    (∀ (ν δ : Type) (json : CJson ν δ) (root : ν),
      getItem json toInt root field (UInt32.ofNat field.bytes.length) = some none ↔
        2 ^ 31 ≤ field.bytes.length ∧ field.bytes.length ≤ valLenMax ∨
          field.bytes.length < 2 ^ 31 ∧ LookupFails json toInt (pieces field.bytes) root) ∧
    ((∀ (ν δ : Type) (json : CJson ν δ) (root : ν),
      getItem json toInt root field (UInt32.ofNat field.bytes.length) = some none) ↔
        2 ^ 31 ≤ field.bytes.length ∧ field.bytes.length ≤ valLenMax) := by
  have heach : ∀ (ν δ : Type) (json : CJson ν δ) (root : ν),
      getItem json toInt root field (UInt32.ofNat field.bytes.length) = some none ↔
        2 ^ 31 ≤ field.bytes.length ∧ field.bytes.length ≤ valLenMax ∨
          field.bytes.length < 2 ^ 31 ∧ LookupFails json toInt (pieces field.bytes) root := by
    intro ν δ json root
    by_cases hshort : field.bytes.length < 2 ^ 31
    · rw [getItem_eq root (ne_nil_of_malformed hs hbad) hshort, follow_eq_none_iff,
        or_iff_right fun h => absurd h.1 (Nat.not_le_of_lt hshort), and_iff_right hshort]
    · have hlong : 2 ^ 31 ≤ field.bytes.length := Nat.le_of_not_lt hshort
      by_cases hmax : field.bytes.length ≤ valLenMax
      · exact iff_of_true (getItem_of_long root hlong hmax) (.inl ⟨hlong, hmax⟩)
      · rw [getItem_of_too_long root (Nat.lt_of_not_le hmax) hlen]
        refine iff_of_false (fun h => nomatch h) ?_
        rintro (⟨-, h⟩ | ⟨h, -⟩)
        · exact hmax h
        · exact hshort h
  refine ⟨heach, ?_⟩
  constructor
  · intro hall
    rcases (heach ℕ Unit countingTree 0).mp (hall ℕ Unit countingTree 0) with hlong | ⟨-, hfails⟩
    · exact hlong
    · exact absurd hfails (not_lookupFails_countingTree _ _)
  · intro hlong ν δ json root
    exact (heach ν δ json root).mpr (.inl hlong)

/-- A piece with brackets is malformed when it does not end with a `]`. -/
theorem malformed_of_getLast? {s : List UInt8} (hbracket : 91 ∈ s ∨ 93 ∈ s)
    (hlast : s.getLast? ≠ some 93) : Malformed s := by
  refine ⟨hbracket, ?_⟩
  rintro ⟨name, digits, rfl, -⟩
  apply hlast
  rw [← List.cons_append, ← List.append_assoc, List.getLast?_concat]

/-- The piece `a[]`. -/
theorem malformed_empty_index : Malformed [97, 91, 93] := by
  refine ⟨.inl (by decide), ?_⟩
  rintro ⟨name, digits, hsplit, -, -, hne, -⟩
  -- there is no room for a digit
  obtain ⟨c, digits, rfl⟩ := List.exists_cons_of_ne_nil hne
  rcases name with _ | ⟨x, _ | ⟨y, name⟩⟩
  · simp at hsplit
  · simp at hsplit
  · have hlen := congrArg List.length hsplit
    simp only [List.length_append, List.length_cons, List.length_nil] at hlen
    omega

/-- The pieces `a[1]b` and `a[]` are malformed. Of the first one the index is used, and so is that of
a piece with a second index or a `]` before the `[`; a negative one is passed over. The index of
`a[]` is used without a value. -/
theorem getItem_resolves_malformed :
    (Malformed [97, 91, 49, 93, 98] ∧
      getItem countingTree Int32.ofInt 0 ⟨[97, 91, 49, 93, 98], by decide⟩ 5 = some (some 1)) ∧
    (Malformed [97, 91, 93] ∧
      getItem countingTree Int32.ofInt 0 ⟨[97, 91, 93], by decide⟩ 3 = none) ∧
    getItem countingTree Int32.ofInt 0 ⟨[97, 91, 48, 93, 91, 49, 93], by decide⟩ 7 =
      some (some 1) ∧
    getItem countingTree Int32.ofInt 0 ⟨[97, 93, 98, 91, 49], by decide⟩ 5 = some (some 1) ∧
    getItem countingTree Int32.ofInt 0 ⟨[97, 91, 45, 49, 93], by decide⟩ 5 = some (some 1) := by
  refine ⟨⟨malformed_of_getLast? (by decide) (by decide), ?_⟩, ⟨malformed_empty_index, ?_⟩, ?_⟩
  · decide
  · decide
  · decide

/-- The path `b.a[]`. -/
theorem getItem_malformed_iff_empty_index :
    (∀ (ν δ : Type) (json : CJson ν δ) (root : ν),
      getItem json Int32.ofInt root ⟨[98, 46, 97, 91, 93], by decide⟩ (UInt32.ofNat 5) =
          some none ↔
        2 ^ 31 ≤ 5 ∧ 5 ≤ valLenMax ∨
          5 < 2 ^ 31 ∧ LookupFails json Int32.ofInt (pieces [98, 46, 97, 91, 93]) root) ∧
    ((∀ (ν δ : Type) (json : CJson ν δ) (root : ν),
      getItem json Int32.ofInt root ⟨[98, 46, 97, 91, 93], by decide⟩ (UInt32.ofNat 5) =
          some none) ↔
        2 ^ 31 ≤ 5 ∧ 5 ≤ valLenMax) :=
  @getItem_malformed_iff Int32.ofInt ⟨[98, 46, 97, 91, 93], by decide⟩ [97, 91, 93] (by decide)
    malformed_empty_index (by decide)

end HyUtils.Cjson
