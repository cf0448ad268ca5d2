import HyUtils.Log.Model

/-!
# The log stays within its buffer

`HyLogWrite` appends at the sum of the lengths that the calls before it returned, and these are
lengths of whole texts. A piece behind one that was cut is written behind the buffer, unless the
32 bits of the sum wrap.

## Main definitions

* `shortFile`: the end of a file name that goes into the header
* `pieces`: the texts of a call, in order
* `PiecesFit`: what comes before each piece fits

## Main results

* `hyLogWrite_eq`: a call is its pieces, appended to the cleared buffer
* `hyLogWrite_isSome_iff`: it stays within the buffer exactly when what comes before each piece fits
-/

namespace HyUtils.Log

open Region Str Decimal Snprintf

variable {context : LogContext} {level : HyLogLevel} {before : UInt8} {file func : List UInt8}
  {line : UInt32} {message : List UInt8}

/-! ## Strings -/

/-- The end of a file name that goes into the header. -/
def shortFile (file : List UInt8) : List UInt8 :=
  (lastPart 47 92 (file.takeWhile (· ≠ 0))).take 31

theorem string_of_append {s post : List UInt8} (hs : (0 : UInt8) ∉ s) :
    string (s ++ 0 :: post) = some s := by
  have hlen : strlen ([] ++ (s ++ 0 :: post)) 0 = some s.length := strlen_of_append hs
  rw [List.nil_append] at hlen
  rw [string, hlen, Option.map_some, List.take_left]

/-- A string ends at its first terminator. -/
theorem exists_eq_append_zero (s rest : List UInt8) :
    ∃ post, s ++ 0 :: rest = s.takeWhile (· ≠ 0) ++ 0 :: post := by
  induction s with
  | nil => exact ⟨rest, rfl⟩
  | cons c s ih =>
    by_cases hc : c = 0
    · subst hc
      exact ⟨s ++ 0 :: rest, rfl⟩
    · obtain ⟨post, hpost⟩ := ih
      refine ⟨post, ?_⟩
      rw [List.takeWhile_cons_of_pos (by simpa using hc), List.cons_append, hpost, List.cons_append]

theorem zero_notMem_takeWhile (s : List UInt8) : (0 : UInt8) ∉ s.takeWhile (· ≠ 0) := by
  intro h
  simpa using List.mem_takeWhile_imp h

theorem string_isSome {r : List UInt8} (h : 0 ∈ r) : ∃ s, string r = some s := by
  obtain ⟨s, rest, rfl⟩ := List.append_of_mem h
  obtain ⟨post, hpost⟩ := exists_eq_append_zero s rest
  rw [hpost]
  exact ⟨_, string_of_append (zero_notMem_takeWhile s)⟩

/-- The file name in the header. -/
theorem string_shortFile (before : UInt8) (file : List UInt8) :
    ∃ dst, hyStrCopyRight2 (before :: (file ++ [0])) 1
        (List.replicate shortFileLenMax.toNat 0) 0 shortFileLenMax 47 92 = some dst ∧
      string dst = some (shortFile file) := by
  obtain ⟨post, hpost⟩ := exists_eq_append_zero file []
  have hdst : (List.replicate shortFileLenMax.toNat (0 : UInt8)).length = shortFileLenMax.toNat :=
    List.length_replicate
  obtain ⟨zeros, hcopy⟩ := hyStrCopyRight2_eq 47 92 [before] post (zero_notMem_takeWhile file)
    (List.cons_ne_nil _ _) (by decide) hdst
  refine ⟨_, by rw [hpost]; exact hcopy, string_of_append fun h => ?_⟩
  -- the end of a string has no terminator in it either
  exact zero_notMem_takeWhile file ((lastPart_suffix 47 92 _).mem (List.mem_of_mem_take h))

/-! ## Pieces -/

/-- The texts of a call, in order. -/
def pieces (context : LogContext) (level : HyLogLevel) (file func : List UInt8) (line : UInt32)
    (message : List UInt8) : List (List UInt8) :=
  (if context.saveConfig.colorOutput ≠ 0 then [colorPrefix level] else []) ++
    [header (shortFile file) line func, message] ++
    if context.saveConfig.colorOutput ≠ 0 then [printAttrReset] else []

/-- What comes before each piece fits, as 32 bits count it. -/
def PiecesFit (bufLen : UInt64) (texts : List (List UInt8)) : Prop :=
  ∀ k < texts.length, (texts.take k).flatten.length % 2 ^ 32 ≤ bufLen.toNat

instance (bufLen : UInt64) (texts : List (List UInt8)) : Decidable (PiecesFit bufLen texts) :=
  inferInstanceAs (Decidable (∀ _ < _, _))

/-- **A call is its pieces**, appended to the cleared buffer. -/
theorem hyLogWrite_eq (hlevel : level.toInt32 < context.saveConfig.level) :
    hyLogWrite context level before file func line message =
      (appendAll context.saveConfig.bufLen
        (List.replicate context.saveConfig.bufLen.toNat 0, 0)
        (pieces context level file func line message)).bind fun s =>
          (string s.1).bind fun printed => some (s.1, printed) := by
  obtain ⟨dst, hcopy, hstring⟩ := string_shortFile before file
  have hclear := memset_all (x := (0 : UInt8)) context.length_buf
  rw [hyLogWrite, if_pos hlevel]
  by_cases hcolor : context.saveConfig.colorOutput ≠ 0
  · simp only [if_pos hcolor, hclear, hcopy, hstring, outputSetColor, outputResetColor, pieces,
      appendAll_cons, appendAll_nil, Option.bind_eq_bind, Option.bind_some, Option.bind_assoc,
      List.cons_append, List.nil_append]
    rfl
  · simp only [if_neg hcolor, hclear, hcopy, hstring, pieces, appendAll_cons, appendAll_nil,
      Option.bind_eq_bind, Option.bind_some, Option.bind_assoc, List.nil_append, List.append_nil]
    rfl

/-- **A call stays within the buffer** exactly when it writes nothing, or when what comes before
each of its pieces fits. -/
theorem hyLogWrite_isSome_iff (hlen : 1 ≤ context.saveConfig.bufLen) :
    (hyLogWrite context level before file func line message).isSome ↔
      (level.toInt32 < context.saveConfig.level →
        PiecesFit context.saveConfig.bufLen (pieces context level file func line message)) := by
  by_cases hlevel : level.toInt32 < context.saveConfig.level
  · -- the cleared buffer has a terminator, so what is printed ends in it
    have hpos : context.saveConfig.bufLen.toNat ≠ 0 :=
      Nat.pos_iff_ne_zero.mp (UInt64.le_iff_toNat_le.mp hlen)
    have hbuf : Terminated context.saveConfig.bufLen
        (List.replicate context.saveConfig.bufLen.toNat 0) :=
      ⟨List.length_replicate, List.mem_replicate.mpr ⟨hpos, rfl⟩⟩
    have hall := appendAll_isSome_iff 0 (pieces context level file func line message) hbuf
    simp only [UInt32.zero_add, UInt32.toNat_ofNat'] at hall
    rw [hyLogWrite_eq hlevel, imp_iff_right hlevel, PiecesFit, ← hall]
    cases happ : appendAll context.saveConfig.bufLen
        (List.replicate context.saveConfig.bufLen.toNat 0, 0)
        (pieces context level file func line message) with
    | none => rfl
    | some s =>
      obtain ⟨printed, hprinted⟩ := string_isSome (appendAll_terminated hbuf happ).mem
      rw [Option.bind_some, hprinted]
      rfl
  · refine iff_of_true ?_ fun h => absurd h hlevel
    rw [hyLogWrite, if_neg hlevel]
    rfl

/-- A log of 16 bytes without colours. -/
def smallLog : LogContext := ⟨⟨6, 16, 0⟩, List.replicate 16 0, List.length_replicate⟩

theorem hyLogWrite_isSome_iff_small :
    (hyLogWrite smallLog .info 0 [47, 97, 46, 99] [102] 7 [104, 105]).isSome ↔
      (HyLogLevel.info.toInt32 < 6 →
        PiecesFit 16 (pieces smallLog .info [47, 97, 46, 99] [102] 7 [104, 105])) :=
  hyLogWrite_isSome_iff (by decide)

/-- `[a.c:7][function] ` takes 18 of 16 bytes, and the message is written behind them. -/
theorem message_behind_buffer : hyLogWrite smallLog .info 0 [47, 97, 46, 99]
    [102, 117, 110, 99, 116, 105, 111, 110] 7 [104, 105] = none := by decide +kernel

end HyUtils.Log
