import HyUtils.Cjson.Model
import HyUtils.Foundation.Lists
import HyUtils.Hash.Values

/-!
# What a path says

`_get_item` follows a path through the copy that it cuts up. What it makes of the path can be said of
the pieces between the dots: each has a name, which ends at its first bracket, and an index, which is
the number behind its first `[` when it has a `[` and a `]`, wherever they stand.

## Main definitions

* `readSegment`: the name and the index of a piece
* `lookup`, `follow`: the lookups of one piece, and of several
* `pieces`: the pieces of a path; an empty one at its end is left out

## Main results

* `getIndex_eq`: what `_get_index` reads, and that the name is left in place
* `getItem_eq`: `_get_item` follows the pieces
-/

namespace HyUtils.Cjson

open Region Str Scanf Utils Hash

variable {ν δ : Type} {json : CJson ν δ} {toInt : ℤ → Int32}

/-! ## One piece -/

/-- What stands behind the first `[`. -/
def behindBracket (s : List UInt8) : List UInt8 := (s.dropWhile (· ≠ 91)).drop 1

/-- The name and the index of a piece; there is no index at -1, and without a number the index is
not assigned. -/
def readSegment (toInt : ℤ → Int32) (s : List UInt8) : Option (List UInt8 × Int32) :=
  if 91 ∈ s ∧ 93 ∈ s then
    (scanInt (behindBracket s)).map fun r =>
      (s.takeWhile fun c => c ≠ 91 ∧ c ≠ 93, if 0 ≤ toInt r.1 then toInt r.1 else -1)
  else some (s, -1)

theorem behindBracket_append {a : List UInt8} (h : 91 ∉ a) (rest : List UInt8) :
    behindBracket (a ++ 91 :: rest) = rest := by
  have hpos : ∀ c ∈ a, (c ≠ 91 : Bool) = true := by
    intro c hc
    simpa using fun h0 : c = 91 => h (h0 ▸ hc)
  rw [behindBracket, List.dropWhile_append_of_pos hpos, List.dropWhile_cons_of_neg (by simp)]
  rfl

theorem takeWhile_name {a : List UInt8} (hopen : 91 ∉ a) (hclose : 93 ∉ a) {c : UInt8}
    (hc : c = 91 ∨ c = 93) (rest : List UInt8) :
    (a ++ c :: rest).takeWhile (fun c => c ≠ 91 ∧ c ≠ 93) = a := by
  have hpos : ∀ c ∈ a, (c ≠ 91 ∧ c ≠ 93 : Bool) = true := by
    intro c hc
    simpa using And.intro (fun h0 : c = 91 => hopen (h0 ▸ hc)) fun h0 : c = 93 => hclose (h0 ▸ hc)
  have hnil : (c :: rest).takeWhile (fun c => c ≠ 91 ∧ c ≠ 93) = [] := by
    rcases hc with rfl | rfl
    · simp
    · simp
  rw [List.takeWhile_append_of_pos hpos, hnil, List.append_nil]

/-- A piece with a `[` before its first `]`: what stands behind the `]` says nothing. -/
theorem readSegment_open {a b : List UInt8} (c : List UInt8) (hopen : 91 ∉ a) (hclose : 93 ∉ a) :
    readSegment toInt (a ++ 91 :: (b ++ 93 :: c)) =
      (scanInt b).map fun r => (a, if 0 ≤ toInt r.1 then toInt r.1 else -1) := by
  rw [readSegment, if_pos (by simp), behindBracket_append hopen,
    takeWhile_name hopen hclose (.inl rfl),
    scanInt_append_cons (by decide) (by decide) (by decide) (by decide), Option.map_map]
  rfl

/-- A piece with a `]` before its first `[`: what stands between them says nothing. -/
theorem readSegment_close {a b : List UInt8} (c : List UInt8) (hopen : 91 ∉ a) (hclose : 93 ∉ a)
    (hb : 91 ∉ b) :
    readSegment toInt (a ++ 93 :: (b ++ 91 :: c)) =
      (scanInt c).map fun r => (a, if 0 ≤ toInt r.1 then toInt r.1 else -1) := by
  have hmem : 91 ∉ a ++ 93 :: b := by simp [hopen, hb]
  have hbehind : behindBracket (a ++ 93 :: (b ++ 91 :: c)) = c := by
    rw [← List.cons_append, ← List.append_assoc, behindBracket_append hmem]
  rw [readSegment, if_pos (by simp), hbehind, takeWhile_name hopen hclose (.inr rfl)]

/-- Where the brackets of a piece stand: one of them is missing, or one is first. -/
theorem brackets_cases (s : List UInt8) :
    (¬(91 ∈ s ∧ 93 ∈ s)) ∨
      (∃ a b c, s = a ++ 91 :: (b ++ 93 :: c) ∧ 91 ∉ a ∧ 93 ∉ a ∧ 93 ∉ b) ∨
      ∃ a b c, s = a ++ 93 :: (b ++ 91 :: c) ∧ 91 ∉ a ∧ 93 ∉ a ∧ 91 ∉ b := by
  by_cases hboth : 91 ∈ s ∧ 93 ∈ s
  · right
    obtain ⟨a, rest, rfl, ha⟩ := List.eq_append_cons_of_mem hboth.1
    by_cases hstop : 93 ∈ a
    · -- the `]` is before the first `[`
      right
      obtain ⟨a, b, rfl, ha'⟩ := List.eq_append_cons_of_mem hstop
      rw [List.mem_append, List.mem_cons, not_or, not_or] at ha
      exact ⟨a, b, rest, by rw [List.append_assoc, List.cons_append], ha.1, ha', ha.2.2⟩
    · left
      have hrest : 93 ∈ rest := by simpa [hstop] using hboth.2
      obtain ⟨b, c, rfl, hb⟩ := List.eq_append_cons_of_mem hrest
      exact ⟨a, b, c, rfl, ha, hstop, hb⟩
  · exact .inl hboth

/-- `sscanf` with one conversion. -/
theorem head?_sscanf_int (s : List UInt8) : (sscanf [.int] s).head? = (scanInt s).map Prod.fst := by
  rw [sscanf]
  cases scanInt s with
  | none => rfl
  | some r => rfl

/-- `_get_index` on a piece with both brackets, given where the two cuts are. -/
theorem getIndex_of_brackets {s t digits : List UInt8} {start stop : ℕ} {pre post : List UInt8}
    (hs : (0 : UInt8) ∉ s) (hstart : s.findIdx? (· = 91) = some start)
    (hstop : s.findIdx? (· = 93) = some stop)
    (hcut : ((store (pre ++ (s ++ 0 :: post)) (pre.length + stop) [0]).bind fun fmt =>
      store fmt (pre.length + start) [0]) = some (pre ++ (t ++ 0 :: post)))
    (hdigits : stringAt (pre ++ (t ++ 0 :: post)) (pre.length + start + 1) = some digits) :
    getIndex toInt (pre ++ (s ++ 0 :: post)) pre.length = (scanInt digits).map fun r =>
      (pre ++ (t ++ 0 :: post), if 0 ≤ toInt r.1 then toInt r.1 else -1) := by
  obtain ⟨fmt, hfmt, hcut⟩ := Option.bind_eq_some_iff.mp hcut
  rw [getIndex, stringAt_append hs, Option.bind_eq_bind, Option.bind_some, hstart, hstop]
  dsimp only
  rw [hfmt, Option.bind_some, hcut, Option.bind_some, hdigits, Option.bind_some, head?_sscanf_int]
  cases scanInt digits with
  | none => rfl
  | some r => rfl

/-- One cut inside a piece. -/
theorem store_piece (pre u w post : List UInt8) (c : UInt8) :
    store (pre ++ (u ++ c :: w ++ 0 :: post)) (pre.length + u.length) [0] =
      some (pre ++ (u ++ 0 :: w ++ 0 :: post)) := by
  have hcell := @store_cell _ (pre ++ u) (w ++ 0 :: post) c 0 _ List.length_append.symm
  simpa only [List.append_assoc, List.cons_append] using hcell

/-- The text of the index, behind a cut. -/
theorem stringAt_behind {u digits : List UInt8} (pre post : List UInt8)
    (h : (0 : UInt8) ∉ digits) :
    stringAt (pre ++ (u ++ 0 :: (digits ++ 0 :: post))) (pre.length + u.length + 1) =
      some digits := by
  have hread := @stringAt_append (pre ++ (u ++ [0])) digits post h
  rw [List.length_append, List.length_append, List.length_singleton, ← Nat.add_assoc] at hread
  simpa only [List.append_assoc, List.cons_append, List.nil_append] using hread

/-- `_get_index` reads a piece `s`, and leaves `t` of it, which begins with the name. -/
def Leaves (toInt : ℤ → Int32) (pre post s t : List UInt8) : Prop :=
  t.length = s.length ∧
    getIndex toInt (pre ++ (s ++ 0 :: post)) pre.length =
      (readSegment toInt s).map (fun r => (pre ++ (t ++ 0 :: post), r.2)) ∧
    ∀ r, readSegment toInt s = some r → stringAt (pre ++ (t ++ 0 :: post)) pre.length = some r.1

/-- A piece without a `[` or without a `]` stays as it is. -/
theorem leaves_self {s : List UInt8} (pre post : List UInt8) (hs : (0 : UInt8) ∉ s)
    (hnot : ¬(91 ∈ s ∧ 93 ∈ s)) : Leaves toInt pre post s s := by
  refine ⟨rfl, ?_, ?_⟩
  · rw [readSegment, if_neg hnot, getIndex, stringAt_append hs, Option.bind_eq_bind,
      Option.bind_some]
    rcases not_and_or.mp hnot with hopen | hclose
    · rw [Lists.findIdx?_eq_none hopen]
      rfl
    · rw [Lists.findIdx?_eq_none hclose]
      cases s.findIdx? (· = 91) with
      | none => rfl
      | some start => rfl
  · intro r hr
    rw [readSegment, if_neg hnot] at hr
    cases hr
    exact stringAt_append hs

/-- A piece with both brackets, given where the two cuts are and what is read behind the first. -/
theorem leaves_of_brackets {s a t digits : List UInt8} {start stop : ℕ} {pre post : List UInt8}
    (hs : (0 : UInt8) ∉ s) (hstart : s.findIdx? (· = 91) = some start)
    (hstop : s.findIdx? (· = 93) = some stop)
    (hcut : ((store (pre ++ (s ++ 0 :: post)) (pre.length + stop) [0]).bind fun fmt =>
      store fmt (pre.length + start) [0]) = some (pre ++ (a ++ 0 :: t ++ 0 :: post)))
    (hdigits : stringAt (pre ++ (a ++ 0 :: t ++ 0 :: post)) (pre.length + start + 1) = some digits)
    (hread : readSegment toInt s =
      (scanInt digits).map fun r => (a, if 0 ≤ toInt r.1 then toInt r.1 else -1))
    (hlength : (a ++ 0 :: t).length = s.length) (ha : (0 : UInt8) ∉ a) :
    Leaves toInt pre post s (a ++ 0 :: t) := by
  refine ⟨hlength, ?_, ?_⟩
  · rw [getIndex_of_brackets hs hstart hstop hcut hdigits, hread, Option.map_map]
    rfl
  · intro r hr
    rw [hread] at hr
    obtain ⟨v, -, rfl⟩ := Option.map_eq_some_iff.mp hr
    rw [List.append_assoc, List.cons_append]
    exact stringAt_append ha

/-- The name is in front of the `[`, and the index ends at the `]`. -/
theorem leaves_open {a b c : List UInt8} (pre post : List UInt8)
    (hs : (0 : UInt8) ∉ a ++ 91 :: (b ++ 93 :: c)) (hopen : 91 ∉ a) (hclose : 93 ∉ a)
    (hb : 93 ∉ b) :
    Leaves toInt pre post (a ++ 91 :: (b ++ 93 :: c)) (a ++ 0 :: (b ++ 0 :: c)) := by
  have ha : (0 : UInt8) ∉ a := fun h => hs (List.mem_append_left _ h)
  have hb0 : (0 : UInt8) ∉ b := fun h => hs (by simp [h])
  have hsplit (x : UInt8) : a ++ x :: (b ++ 93 :: c) = a ++ x :: b ++ 93 :: c := by simp
  have hstart := Lists.findIdx?_append_cons hopen (b ++ 93 :: c)
  have hstop : (a ++ 91 :: (b ++ 93 :: c)).findIdx? (· = 93) = some (a ++ 91 :: b).length := by
    rw [hsplit]
    exact Lists.findIdx?_append_cons (by simp [hclose, hb]) c
  have hcut : ((store (pre ++ (a ++ 91 :: (b ++ 93 :: c) ++ 0 :: post))
      (pre.length + (a ++ 91 :: b).length) [0]).bind fun fmt =>
        store fmt (pre.length + a.length) [0]) =
      some (pre ++ (a ++ 0 :: (b ++ 0 :: c) ++ 0 :: post)) := by
    rw [hsplit, store_piece, Option.bind_some]
    have hsecond := store_piece pre a (b ++ 0 :: c) post 91
    simpa only [List.append_assoc, List.cons_append] using hsecond
  have hdigits := stringAt_behind (u := a) pre (c ++ 0 :: post) hb0
  exact leaves_of_brackets hs hstart hstop hcut
    (by simpa only [List.append_assoc, List.cons_append] using hdigits)
    (readSegment_open c hopen hclose) (by simp) ha

/-- The name is in front of the `]`, and the index ends with the piece. -/
theorem leaves_close {a b c : List UInt8} (pre post : List UInt8)
    (hs : (0 : UInt8) ∉ a ++ 93 :: (b ++ 91 :: c)) (hopen : 91 ∉ a) (hclose : 93 ∉ a)
    (hb : 91 ∉ b) :
    Leaves toInt pre post (a ++ 93 :: (b ++ 91 :: c)) (a ++ 0 :: (b ++ 0 :: c)) := by
  have ha : (0 : UInt8) ∉ a := fun h => hs (List.mem_append_left _ h)
  have hc0 : (0 : UInt8) ∉ c := fun h => hs (by simp [h])
  have hsplit (x : UInt8) : a ++ x :: (b ++ 91 :: c) = a ++ x :: b ++ 91 :: c := by simp
  have hstop := Lists.findIdx?_append_cons hclose (b ++ 91 :: c)
  have hstart : (a ++ 93 :: (b ++ 91 :: c)).findIdx? (· = 91) = some (a ++ 93 :: b).length := by
    rw [hsplit]
    exact Lists.findIdx?_append_cons (by simp [hopen, hb]) c
  have hcut : ((store (pre ++ (a ++ 93 :: (b ++ 91 :: c) ++ 0 :: post))
      (pre.length + a.length) [0]).bind fun fmt =>
        store fmt (pre.length + (a ++ 93 :: b).length) [0]) =
      some (pre ++ (a ++ 0 :: (b ++ 0 :: c) ++ 0 :: post)) := by
    rw [store_piece, Option.bind_some]
    have hsecond := store_piece pre (a ++ 0 :: b) c post 91
    simpa using hsecond
  have hdigits := stringAt_behind (u := a ++ 0 :: b) pre post hc0
  exact leaves_of_brackets hs hstart hstop hcut (by simpa using hdigits)
    (readSegment_close c hopen hclose hb) (by simp) ha

/-- **What `_get_index` reads** of a piece, of which it leaves the name in place. -/
theorem getIndex_eq {s : List UInt8} (pre post : List UInt8) (hs : (0 : UInt8) ∉ s) :
    ∃ s' : List UInt8, s'.length = s.length ∧
      getIndex toInt (pre ++ (s ++ 0 :: post)) pre.length =
        (readSegment toInt s).map (fun r => (pre ++ (s' ++ 0 :: post), r.2)) ∧
      ∀ r, readSegment toInt s = some r → stringAt (pre ++ (s' ++ 0 :: post)) pre.length =
        some r.1 := by
  rcases brackets_cases s with hnot | ⟨a, b, c, rfl, hopen, hclose, hb⟩ |
    ⟨a, b, c, rfl, hopen, hclose, hb⟩
  · exact ⟨s, leaves_self pre post hs hnot⟩
  · exact ⟨_, leaves_open pre post hs hopen hclose hb⟩
  · exact ⟨_, leaves_close pre post hs hopen hclose hb⟩

/-! ## Several pieces -/

/-- The lookups of one piece: its name, and its index where there is one. -/
def lookup (json : CJson ν δ) (parent : ν) (name : List UInt8) (index : Int32) : Option ν :=
  (json.getObjectItem parent name).bind fun child =>
    if 0 ≤ index then json.getArrayItem child index else some child

/-- The lookups of several pieces: the item they end at, or none where a lookup fails; undefined
where an index that is not assigned is used before. -/
def follow (json : CJson ν δ) (toInt : ℤ → Int32) : List (List UInt8) → ν → Option (Option ν)
  | [], parent => some (some parent)
  | s :: segments, parent => do
    let (name, index) ← readSegment toInt s
    match lookup json parent name index with
    | none => return none
    | some child => follow json toInt segments child

/-- The pieces without an empty last one. -/
def dropEmptyLast : List (List UInt8) → List (List UInt8)
  | [] => []
  | [s] => if s = [] then [] else [s]
  | s :: s' :: segments => s :: dropEmptyLast (s' :: segments)

/-- **The pieces of a path.** -/
def pieces (path : List UInt8) : List (List UInt8) := dropEmptyLast (path.splitOn 46)

/-- The pieces with a terminator each, as they stand in the buffer. -/
def terminated (segments : List (List UInt8)) : List UInt8 :=
  (segments.map (· ++ [0])).flatten

@[simp] theorem terminated_cons (s : List UInt8) (segments : List (List UInt8)) :
    terminated (s :: segments) = s ++ 0 :: terminated segments := by
  simp [terminated]

/-! ## The loop -/

theorem getItemLoop_stop {fuel off : ℕ} {fieldFmt : List UInt8} {parent : ν} {child : Option ν}
    {fieldLenTmp : Int32} (h : ¬0 < fieldLenTmp) :
    getItemLoop json toInt fuel fieldFmt off parent child fieldLenTmp = some child := by
  cases fuel with
  | zero => rw [getItemLoop, if_neg h]
  | succ fuel => rw [getItemLoop, if_neg h]

/-- **One turn** looks up one piece, and goes on behind its terminator. -/
theorem getItemLoop_turn {fuel : ℕ} {s : List UInt8} {parent : ν} {child : Option ν}
    {fieldLenTmp : Int32} (pre post : List UInt8) (h : 0 < fieldLenTmp) (hs : (0 : UInt8) ∉ s)
    (hlen : s.length < 2 ^ 32 - 1) :
    ∃ s' : List UInt8, s'.length = s.length ∧
      getItemLoop json toInt (fuel + 1) (pre ++ (s ++ 0 :: post)) pre.length parent child
          fieldLenTmp =
        (readSegment toInt s).bind fun r =>
          match lookup json parent r.1 r.2 with
          | none => some none
          | some child =>
            getItemLoop json toInt fuel (pre ++ s' ++ [0] ++ post) (pre ++ s' ++ [0]).length child
              (some child) (fieldLenTmp - Int32.ofNat (s.length + 1)) := by
  obtain ⟨s', hlen', hindex, hname⟩ := @getIndex_eq toInt s pre post hs
  refine ⟨s', hlen', ?_⟩
  have hlt : s.length + 1 < UInt32.size := by
    change s.length + 1 < 2 ^ 32
    omega
  -- the piece and its terminator fit the 32 bits in which the offset is counted
  have hoffset : UInt32.ofNat s.length + 1 = UInt32.ofNat (s.length + 1) :=
    (UInt32.ofNat_add s.length 1).symm
  have hnext : pre.length + (UInt32.ofNat (s.length + 1)).toNat = (pre ++ s' ++ [0]).length := by
    rw [UInt32.toNat_ofNat_of_lt' hlt, List.length_append, List.length_append, hlen']
    rfl
  rw [getItemLoop, if_pos h, strlen_of_append hs, hindex]
  dsimp only [Option.bind_eq_bind, Option.bind_some]
  rw [hoffset, hnext]
  cases hread : readSegment toInt s with
  | none => rfl
  | some r =>
    have hsplit : pre ++ (s' ++ 0 :: post) = pre ++ s' ++ [0] ++ post := by simp
    rw [Option.map_some, Option.bind_some, Option.bind_some, hname r hread, Option.bind_some, lookup,
      hsplit]
    cases json.getObjectItem parent r.1 with
    | none => rfl
    | some child => rfl

theorem dropEmptyLast_singleton {s : List UInt8} (hs : s ≠ []) : dropEmptyLast [s] = [s] :=
  if_neg hs

theorem dropEmptyLast_eq_nil {segments : List (List UInt8)} (h : dropEmptyLast segments = []) :
    segments = [] ∨ segments = [[]] := by
  rcases segments with _ | ⟨s, _ | ⟨s', segments⟩⟩
  · exact .inl rfl
  · by_cases hs : s = []
    · exact .inr (by rw [hs])
    · rw [dropEmptyLast_singleton hs] at h
      exact absurd h (List.cons_ne_nil _ _)
  · exact absurd h (List.cons_ne_nil _ _)

/-- The buffer of pieces of which one is looked up takes at least two bytes. -/
theorem one_lt_length_terminated {segments : List (List UInt8)}
    (h : dropEmptyLast segments ≠ []) : 1 < (terminated segments).length := by
  rcases segments with _ | ⟨s, _ | ⟨s', segments⟩⟩
  · exact absurd rfl h
  · have hs : s ≠ [] := fun hs => h (by rw [hs]; rfl)
    have hpos := List.length_pos_iff.mpr hs
    rw [terminated_cons, List.length_append, List.length_cons]
    omega
  · simp only [terminated_cons, List.length_append, List.length_cons]
    omega

theorem follow_cons (s : List UInt8) (segments : List (List UInt8)) (parent : ν) :
    follow json toInt (s :: segments) parent = (readSegment toInt s).bind fun r =>
      match lookup json parent r.1 r.2 with
      | none => some none
      | some child => follow json toInt segments child := rfl

/-- **The loop follows the pieces**: `fieldLenTmp` is one less than what is left of the buffer. -/
theorem getItemLoop_eq {segments : List (List UInt8)} (hne : dropEmptyLast segments ≠ [])
    (hnul : ∀ s ∈ segments, (0 : UInt8) ∉ s) (pre post : List UInt8) {fuel : ℕ} {parent : ν}
    {child : Option ν} {fieldLenTmp : Int32}
    (hlen : fieldLenTmp.toInt + 1 = (terminated segments).length)
    (hfuel : (terminated segments).length ≤ fuel + 1) :
    getItemLoop json toInt fuel (pre ++ (terminated segments ++ post)) pre.length parent child
        fieldLenTmp = follow json toInt (dropEmptyLast segments) parent := by
  -- the pieces that have been looked up are in `pre`
  induction segments generalizing pre fuel parent child fieldLenTmp with
  | nil => exact absurd rfl hne
  | cons s segments ih =>
    have htwo := one_lt_length_terminated hne
    have hhigh := fieldLenTmp.toInt_lt
    obtain ⟨fuel, rfl⟩ : ∃ n, fuel = n + 1 := ⟨fuel - 1, by omega⟩
    have hpos : 0 < fieldLenTmp := by
      rw [Int32.lt_iff_toInt_lt, Int32.toInt_zero]
      omega
    obtain ⟨hs, hnul⟩ := List.forall_mem_cons.mp hnul
    rw [terminated_cons, List.length_append, List.length_cons] at hlen hfuel
    have hnext : (fieldLenTmp - Int32.ofNat (s.length + 1)).toInt + 1 =
        (terminated segments).length := by
      rw [Words.toInt_sub_ofNat (by omega)]
      omega
    obtain ⟨s', -, hturn⟩ := @getItemLoop_turn _ _ json toInt fuel s parent child fieldLenTmp pre
      (terminated segments ++ post) hpos hs (by omega)
    rw [terminated_cons, List.append_assoc, List.cons_append, hturn]
    -- what the rest of the pieces comes to, from the item of the first one
    have hrest (c : ν) : getItemLoop json toInt fuel
        (pre ++ s' ++ [0] ++ (terminated segments ++ post)) (pre ++ s' ++ [0]).length c (some c)
          (fieldLenTmp - Int32.ofNat (s.length + 1)) =
        follow json toInt (dropEmptyLast segments) c := by
      by_cases hlast : dropEmptyLast segments = []
      · -- one byte is left at most, and no more is counted
        have hstop : ¬0 < fieldLenTmp - Int32.ofNat (s.length + 1) := by
          rw [Int32.lt_iff_toInt_lt, Int32.toInt_zero]
          rcases dropEmptyLast_eq_nil hlast with rfl | rfl
          · change _ + 1 = ((0 : ℕ) : ℤ) at hnext
            omega
          · change _ + 1 = ((1 : ℕ) : ℤ) at hnext
            omega
        rw [getItemLoop_stop hstop, hlast, follow]
      · exact ih hlast hnul _ hnext (by omega)
    simp only [hrest]
    cases segments with
    | nil =>
      have hs : s ≠ [] := fun hs => hne (by rw [hs]; rfl)
      rw [dropEmptyLast_singleton hs]
      rfl
    | cons s' segments => rfl

/-! ## The buffer -/

/-- A byte of the path in the buffer: the dots are terminators. -/
def cutDot (c : UInt8) : UInt8 := if c = 46 then 0 else c

/-- The loop over the dots, as far as it has come. -/
theorem cutDots_range {fmt : List UInt8} {n : ℕ} (h : n ≤ fmt.length) :
    ((List.range n).foldlM (fun fmt i => do
      let c ← fmt[i]?
      if c = 46 then store fmt i [0] else return fmt) fmt : Option (List UInt8)) =
        some ((fmt.take n).map cutDot ++ fmt.drop n) := by
  induction n with
  | zero => rfl
  | succ n ih =>
    -- the byte at `n` is the first one that has not been looked at
    have hlen : ((fmt.take n).map cutDot).length = n := by
      rw [List.length_map, List.length_take, Nat.min_eq_left (by omega)]
    have hdrop : fmt.drop n = fmt[n] :: fmt.drop (n + 1) := List.drop_eq_getElem_cons h
    have hget : ((fmt.take n).map cutDot ++ fmt.drop n)[n]? = some fmt[n] := by
      rw [List.getElem?_append_right hlen.le, hlen, Nat.sub_self, hdrop]
      rfl
    rw [List.range_succ, List.foldlM_append, ih (by omega), Option.bind_eq_bind, Option.bind_some,
      List.foldlM_cons, hget]
    simp only [Option.bind_eq_bind, Option.bind_some, List.foldlM_nil]
    rw [List.take_add_one, List.getElem?_eq_getElem h, List.map_append, List.append_assoc, hdrop]
    by_cases hdot : fmt[n] = 46
    · rw [if_pos hdot, store_cell hlen.symm]
      simp [cutDot, hdot]
    · rw [if_neg hdot]
      simp [cutDot, hdot]

/-- The path in the buffer is its pieces with a terminator each. -/
theorem map_cutDot_append (path : List UInt8) :
    path.map cutDot ++ [0] = terminated (path.splitOn 46) := by
  induction path with
  | nil => rfl
  | cons c path ih =>
    rw [List.splitOn_cons_eq_if_modifyHead, List.map_cons, List.cons_append, ih]
    by_cases hdot : c = 46
    · rw [if_pos (by simpa using hdot), terminated_cons, cutDot, if_pos hdot]
      rfl
    · obtain ⟨s, segments, hsplit⟩ := List.exists_cons_of_ne_nil (List.splitOn_ne_nil 46 path)
      rw [if_neg (by simpa using hdot), hsplit, List.modifyHead_cons, terminated_cons,
        terminated_cons, cutDot, if_neg hdot]
      rfl

/-- The buffer when the loop over the pieces starts. -/
theorem getItem_eq_getItemLoop (json : CJson ν δ) (toInt : ℤ → Int32) (root : ν) {field : CString}
    (h : field.bytes.length ≤ valLenMax) :
    ∃ post, getItem json toInt root field (UInt32.ofNat field.bytes.length) =
      getItemLoop json toInt field.bytes.length (terminated (field.bytes.splitOn 46) ++ post) 0
        root none (Int32.ofNat field.bytes.length) := by
  have hlen : (UInt32.ofNat field.bytes.length).toNat = field.bytes.length :=
    UInt32.toNat_ofNat_of_lt' (Nat.lt_of_le_of_lt h (by decide))
  obtain ⟨n, hn⟩ := Nat.exists_eq_succ_of_ne_zero (Nat.sub_ne_zero_of_lt (length_lt_align4Up h))
  refine ⟨List.replicate n 0, ?_⟩
  have hcut : cutDots (valBuffer field) (UInt32.ofNat field.bytes.length) =
      some (terminated (field.bytes.splitOn 46) ++ List.replicate n 0) := by
    rw [cutDots, hlen, valBuffer, hn, cutDots_range (by simp), List.take_left, List.drop_left,
      ← map_cutDot_append, List.append_assoc]
    rfl
  rw [getItem, fieldFmtInit, strncpy_calloc h, Option.bind_eq_bind, Option.bind_some, hcut,
    Option.bind_some, hlen]
  rfl

/-- The pieces of a path that is not empty. -/
theorem pieces_ne_nil {path : List UInt8} (h : path ≠ []) : pieces path ≠ [] := by
  intro hnil
  rcases dropEmptyLast_eq_nil hnil with hsplit | hsplit
  · exact List.splitOn_ne_nil _ _ hsplit
  · apply h
    have hjoin := @List.intercalate_splitOn _ path _ _ 46
    rw [← hjoin, hsplit]
    rfl

/-- **A path is followed piece by piece**, when its length is positive as an `int32_t`. -/
theorem getItem_eq (root : ν) {field : CString} (hne : field.bytes ≠ [])
    (hlen : field.bytes.length < 2 ^ 31) :
    getItem json toInt root field (UInt32.ofNat field.bytes.length) =
      follow json toInt (pieces field.bytes) root := by
  have hterm : (terminated (field.bytes.splitOn 46)).length = field.bytes.length + 1 := by
    rw [← map_cutDot_append, List.length_append, List.length_map, List.length_singleton]
  have hnul : ∀ s ∈ field.bytes.splitOn 46, (0 : UInt8) ∉ s := fun s hs h0 =>
    field.nul_notMem (Lists.subset_of_mem_splitOn hs h0)
  obtain ⟨post, hloop⟩ := getItem_eq_getItemLoop json toInt root (hlen.le.trans (by decide))
  rw [hloop]
  refine getItemLoop_eq (pieces_ne_nil hne) hnul [] post ?_ hterm.le
  rw [Int32.toInt_ofNat_of_lt hlen, hterm]
  rfl

/-- A path of 2 GiB or more is not followed: its length is not positive. -/
theorem getItem_of_long (root : ν) {field : CString} (hlong : 2 ^ 31 ≤ field.bytes.length)
    (hmax : field.bytes.length ≤ valLenMax) :
    getItem json toInt root field (UInt32.ofNat field.bytes.length) = some none := by
  have hmaxEq : valLenMax = 2 ^ 32 - 8 := rfl
  -- the sign bit of the length is set
  have hneg : ¬0 < Int32.ofNat field.bytes.length := by
    rw [Int32.lt_iff_toInt_lt, Int32.toInt_zero, Int32.toInt_ofNat', Int.bmod_def, Int32.size]
    split_ifs <;> omega
  obtain ⟨post, hloop⟩ := getItem_eq_getItemLoop json toInt root hmax
  rw [hloop, getItemLoop_stop hneg]

/-- The buffer of the longest paths is too short for them. -/
theorem getItem_of_too_long (root : ν) {field : CString} (hmax : valLenMax < field.bytes.length)
    (hlen : field.bytes.length < 2 ^ 32) :
    getItem json toInt root field (UInt32.ofNat field.bytes.length) = none := by
  have hlen' : (UInt32.ofNat field.bytes.length).toNat = field.bytes.length :=
    UInt32.toNat_ofNat_of_lt' hlen
  -- the length has wrapped around when it was rounded up
  have hsmall := align4Up_le_of_valLenMax_lt (by rwa [hlen'])
  have hmaxEq : valLenMax = 2 ^ 32 - 8 := rfl
  rw [getItem, fieldFmtInit, strncpy, Option.bind_some, hlen', List.take_length, Nat.sub_self,
    List.replicate_zero, List.append_nil, store_eq_none]
  · rfl
  · rw [calloc, List.length_replicate]
    omega

end HyUtils.Cjson
