import HyUtils.Foundation.Region
import HyUtils.Foundation.Transfer
import HyUtils.Foundation.Words

/-!
# Reading and writing a whole buffer

`src/src/hy_utils.c`: `HyUtilsWrite` and `HyUtilsRead` repeat a system call that may move fewer
bytes than asked for, or be interrupted, until the whole buffer is moved. Both are transfers: the
answers of the kernel are a list, and a call that has used them up has not returned yet.

## Main definitions

* `Answer`, `ReadAnswer`: what a system call returns, and the bytes a `read` delivers
* `writeLoop`, `hyUtilsWrite`, `readLoop`, `hyUtilsRead`: the loops of the source
* `WriteEnds`, `ReadEnds`: the answers that end a loop before everything is moved
* `WritesWhole`, `ReadsWhole`: what the two functions are to do

## Main results

* `writeLoop_eq_transfer`, `readLoop_eq_transfer`: the loops are transfers
* `hyUtilsWrite_hyUtilsRead`: what the two functions move and return, for all answers
-/

namespace HyUtils.Utils

open Region Transfer Words

/-- `EINTR`. -/
abbrev eintr : ℕ := 4

/-- `EAGAIN`. -/
abbrev eagain : ℕ := 11

/-- `EWOULDBLOCK`. -/
abbrev ewouldblock : ℕ := 11

/-- What a system call returns, and the `errno` it leaves. -/
structure Answer where
  ret : ℤ
  errno : ℕ
  ret_ge : -1 ≤ ret

/-- What a `read` returns, and the bytes it delivers. -/
structure ReadAnswer extends Answer where
  data : List UInt8
  length_data : data.length = ret.toNat

/-- The bytes an answer moves. -/
def Answer.amount (a : Answer) : ℕ := a.ret.toNat

/-- The loop of `HyUtilsWrite`: the bytes the kernel accepts, and what is returned. -/
def writeLoop (buf : List UInt8) (len : UInt64) :
    List Answer → UInt64 → ℕ → Option (List UInt8 × Option Int32)
  | [], nleft, _ => some ([], if nleft = 0 then some (Int32.ofNat len.toNat) else none)
  | a :: as, nleft, ptr =>
    if nleft = 0 then some ([], some (Int32.ofNat len.toNat))
    else do
      let accepted ← load buf ptr a.amount
      let ret := Int32.ofInt a.ret
      if ret ≤ 0 ∧ ¬(ret < 0 ∧ a.errno = eintr) then return (accepted, some (-1))
      else
        let ret := if ret ≤ 0 then 0 else ret
        let (rest, r) ←
          writeLoop buf len as (nleft - UInt64.ofInt ret.toInt) (ptr + ret.toInt.toNat)
        return (accepted ++ rest, r)

/-- `HyUtilsWrite`. -/
def hyUtilsWrite (answers : List Answer) (buf : List UInt8) (len : UInt64) :
    Option (List UInt8 × Option Int32) :=
  writeLoop buf len answers len 0

/-- The loop of `HyUtilsRead`: the bytes the kernel delivers, the buffer, and what is returned. -/
def readLoop : List ReadAnswer → List UInt8 → UInt64 → ℕ →
    Option (List UInt8 × List UInt8 × Option Int32)
  | [], buf, nleft, offset => some ([], buf, if nleft = 0 then some (Int32.ofNat offset) else none)
  | a :: as, buf, nleft, offset =>
    if nleft = 0 then some ([], buf, some (Int32.ofNat offset))
    else do
      let buf ← store buf offset a.data
      let ret := Int32.ofInt a.ret
      if ret < 0 ∧ ¬(eintr = a.errno ∨ eagain = a.errno ∨ ewouldblock = a.errno) then
        return (a.data, buf, some (-1))
      else if ret = 0 then return (a.data, buf, some (Int32.ofNat offset))
      else
        let ret := if ret < 0 then 0 else ret
        let (rest, buf, r) ← readLoop as buf (nleft - UInt64.ofInt ret.toInt)
          (offset + ret.toInt.toNat)
        return (a.data ++ rest, buf, r)

/-- `HyUtilsRead`. -/
def hyUtilsRead (answers : List ReadAnswer) (buf : List UInt8) (len : UInt64) :
    Option (List UInt8 × List UInt8 × Option Int32) :=
  readLoop answers buf len 0

/-! ## Words -/

theorem toInt_ofInt_ret {a : Answer} {n : ℕ} (hn : n < 2 ^ 31) (ha : a.amount ≤ n) :
    (Int32.ofInt a.ret).toInt = a.ret := by
  have hge := a.ret_ge
  rw [Answer.amount] at ha
  exact Int32.toInt_ofInt_of_le (by omega) (by omega)

theorem ofNat_sub_ofInt {n : ℕ} {k : ℤ} (h0 : 0 ≤ k) (hk : k.toNat ≤ n) (hn : n < 2 ^ 31) :
    UInt64.ofNat n - UInt64.ofInt k = UInt64.ofNat (n - k.toNat) := by
  obtain ⟨k, rfl⟩ := Int.eq_ofNat_of_zero_le h0
  rw [Int.toNat_natCast] at hk ⊢
  rw [show UInt64.ofInt (k : ℤ) = UInt64.ofNat k from by
    rw [UInt64.ofInt, Int.emod_eq_of_lt (by omega) (by omega), Int.toNat_natCast]]
  exact (UInt64.ofNat_sub hk).symm

theorem ofInt_ret_le_zero {a : Answer} {n : ℕ} (hn : n < 2 ^ 31) (ha : a.amount ≤ n) :
    Int32.ofInt a.ret ≤ 0 ↔ a.ret ≤ 0 := by
  rw [Int32.le_iff_toInt_le, toInt_ofInt_ret hn ha, Int32.toInt_zero]

theorem ofInt_ret_lt_zero {a : Answer} {n : ℕ} (hn : n < 2 ^ 31) (ha : a.amount ≤ n) :
    Int32.ofInt a.ret < 0 ↔ a.ret < 0 := by
  rw [Int32.lt_iff_toInt_lt, toInt_ofInt_ret hn ha, Int32.toInt_zero]

theorem ofInt_ret_eq_zero {a : Answer} {n : ℕ} (hn : n < 2 ^ 31) (ha : a.amount ≤ n) :
    Int32.ofInt a.ret = 0 ↔ a.ret = 0 := by
  rw [← Int32.toInt_inj, toInt_ofInt_ret hn ha, Int32.toInt_zero]

/-- The count of an answer, when the loops have set a retried error to 0. -/
theorem toInt_clamp_ret {a : Answer} {n : ℕ} (hn : n < 2 ^ 31) (ha : a.amount ≤ n) :
    (if Int32.ofInt a.ret ≤ 0 then 0 else Int32.ofInt a.ret).toInt = (a.amount : ℤ) := by
  have hret := toInt_ofInt_ret hn ha
  rw [Answer.amount] at *
  split_ifs with hle
  · rw [ofInt_ret_le_zero hn ha] at hle
    rw [Int32.toInt_zero]
    omega
  · rw [ofInt_ret_le_zero hn ha] at hle
    omega

theorem clamp_lt_eq_clamp_le (x : Int32) : (if x < 0 then 0 else x) = if x ≤ 0 then 0 else x := by
  rcases Int32.lt_or_le x 0 with h | h
  · rw [if_pos h, if_pos (Int32.le_of_lt h)]
  · rw [if_neg (Int32.not_lt.mpr h)]
    split_ifs with hle
    · exact Int32.le_antisymm hle h
    · rfl

/-! ## Writing -/

/-- An answer that ends `HyUtilsWrite` early: nothing was written, or the write has failed other than
by an interrupt. -/
def WriteEnds (a : Answer) : Prop := a.ret = 0 ∨ (a.ret = -1 ∧ a.errno ≠ eintr)
  deriving Decidable

/-- The answers that end `HyUtilsWrite` early. -/
def writeStops (a : Answer) : Option Unit := if WriteEnds a then some () else none

/-- What `HyUtilsWrite` returns. -/
def writeRet (len : UInt64) : Outcome Unit → Option Int32
  | .done => some (Int32.ofNat len.toNat)
  | .stopped _ => some (-1)
  | .pending => none

theorem writeStops_iff {a : Answer} {n : ℕ} (hn : n < 2 ^ 31) (ha : a.amount ≤ n) :
    (Int32.ofInt a.ret ≤ 0 ∧ ¬(Int32.ofInt a.ret < 0 ∧ a.errno = eintr)) ↔ WriteEnds a := by
  have hge := a.ret_ge
  rw [ofInt_ret_le_zero hn ha, ofInt_ret_lt_zero hn ha, WriteEnds]
  omega

/-- **The write loop** is a transfer from the buffer. -/
theorem writeLoop_eq_transfer {buf : List UInt8} {len : UInt64} {answers : List Answer} :
    ∀ {n ptr : ℕ}, Within Answer.amount answers n → n < 2 ^ 31 → ptr + n = buf.length →
      writeLoop buf len answers (UInt64.ofNat n) ptr =
        some ((buf.drop ptr).take
            (moved Answer.amount (transfer writeStops Answer.amount answers n).1),
          writeRet len (transfer writeStops Answer.amount answers n).2) := by
  induction answers with
  | nil =>
    intro n ptr _ hn _
    rcases Nat.eq_zero_or_pos n with rfl | hpos
    · simp [writeLoop, writeRet]
    · have hne := ofNat_ne_zero hpos (by omega)
      simp [writeLoop, writeRet, transfer_nil hpos.ne', hne]
  | cons a as ih =>
    rintro n ptr hwithin hn hbuf
    rcases Nat.eq_zero_or_pos n with rfl | hpos
    · simp [writeLoop, writeRet]
    have hne := ofNat_ne_zero hpos (by omega)
    obtain ⟨ha, has⟩ := hwithin
    have hload : load buf ptr a.amount = some ((buf.drop ptr).take a.amount) :=
      if_pos (by omega)
    rw [writeLoop, if_neg hne, hload, Option.bind_eq_bind, Option.bind_some]
    by_cases hstops : WriteEnds a
    · -- a refusal or an error: nothing of this answer is accepted
      have hamount : a.amount = 0 := by
        rw [WriteEnds] at hstops
        rw [Answer.amount]
        omega
      have hs : writeStops a = some () := if_pos hstops
      rw [transfer_cons_of_some hpos.ne' hs]
      dsimp only
      rw [if_pos ((writeStops_iff hn ha).mpr hstops), hamount]
      rfl
    · -- the kernel moves no more than is left, so neither the count nor the pointer wraps
      have hclamp := toInt_clamp_ret hn ha
      have hrest := ih has (by omega) (show ptr + a.amount + (n - a.amount) = buf.length by omega)
      have hs : writeStops a = none := if_neg hstops
      rw [transfer_cons_of_none hpos.ne' hs]
      dsimp only
      rw [if_neg (mt (writeStops_iff hn ha).mp hstops), hclamp,
        ofNat_sub_ofInt (Int.natCast_nonneg _) (by simpa using ha) hn, Int.toNat_natCast, hrest,
        moved_cons, List.take_add, List.drop_drop]
      rfl

/-! ## Reading -/

/-- What ends `HyUtilsRead` early. -/
inductive ReadStop
  | error
  | eof

/-- The errors after which `HyUtilsRead` tries again. -/
def Retried (errno : ℕ) : Prop := errno = eintr ∨ errno = eagain ∨ errno = ewouldblock
  deriving Decidable

/-- An answer that ends `HyUtilsRead` early: the end of the file, or an error that is not retried. -/
def ReadEnds (a : ReadAnswer) : Prop := a.ret = 0 ∨ (a.ret = -1 ∧ ¬Retried a.errno)
  deriving Decidable

/-- The answers that end `HyUtilsRead` early. -/
def readStops (a : ReadAnswer) : Option ReadStop :=
  if a.ret = -1 ∧ ¬Retried a.errno then some .error
  else if a.ret = 0 then some .eof
  else none

/-- What `HyUtilsRead` returns, with `n` bytes delivered. -/
def readRet (n : ℕ) : Outcome ReadStop → Option Int32
  | .done => some (Int32.ofNat n)
  | .stopped .eof => some (Int32.ofNat n)
  | .stopped .error => some (-1)
  | .pending => none

/-- The bytes of a `read` answer. -/
def ReadAnswer.amount (a : ReadAnswer) : ℕ := a.toAnswer.amount

theorem readError_iff {a : ReadAnswer} {n : ℕ} (hn : n < 2 ^ 31) (ha : a.amount ≤ n) :
    (Int32.ofInt a.ret < 0 ∧ ¬(eintr = a.errno ∨ eagain = a.errno ∨ ewouldblock = a.errno)) ↔
      (a.ret = -1 ∧ ¬Retried a.errno) := by
  have hge := a.ret_ge
  rw [ofInt_ret_lt_zero hn ha, Retried]
  omega

theorem length_flatMap_data (answers : List ReadAnswer) :
    (answers.flatMap ReadAnswer.data).length = moved ReadAnswer.amount answers := by
  induction answers with
  | nil => rfl
  | cons a as ih =>
    rw [List.flatMap_cons, List.length_append, ih, a.length_data, moved_cons]
    rfl

/-- **The read loop** is a transfer into the rest `ys` of the buffer. -/
theorem readLoop_eq_transfer {answers : List ReadAnswer} :
    ∀ {xs ys : List UInt8}, Within ReadAnswer.amount answers ys.length → ys.length < 2 ^ 31 →
      let t := transfer readStops ReadAnswer.amount answers ys.length
      let delivered := t.1.flatMap ReadAnswer.data
      readLoop answers (xs ++ ys) (UInt64.ofNat ys.length) xs.length =
        some (delivered, xs ++ delivered ++ ys.drop delivered.length,
          readRet (xs.length + delivered.length) t.2) := by
  induction answers with
  | nil =>
    rintro xs ys - hn
    rcases Nat.eq_zero_or_pos ys.length with h0 | hpos
    · simp [readLoop, readRet, h0]
    · have hne := ofNat_ne_zero hpos (by omega)
      simp [readLoop, readRet, transfer_nil hpos.ne', hne]
  | cons a as ih =>
    rintro xs ys hwithin hn
    rcases Nat.eq_zero_or_pos ys.length with h0 | hpos
    · simp [readLoop, readRet, h0]
    have hne := ofNat_ne_zero hpos (by omega)
    obtain ⟨ha, has⟩ := hwithin
    have hge := a.ret_ge
    have hdata : a.data.length = a.amount := a.length_data
    have hamount : a.amount = a.ret.toNat := rfl
    dsimp only
    rw [readLoop, if_neg hne, store_after rfl (by omega), Option.bind_eq_bind, Option.bind_some]
    dsimp only
    by_cases herror : a.ret = -1 ∧ ¬Retried a.errno
    · -- an error: this answer delivers nothing
      have hs : readStops a = some .error := if_pos herror
      rw [if_pos ((readError_iff hn ha).mpr herror), transfer_cons_of_some hpos.ne' hs]
      have hnil : a.data = [] := List.eq_nil_of_length_eq_zero (by omega)
      simp [hnil, readRet]
    rw [if_neg (mt (readError_iff hn ha).mp herror)]
    by_cases hzero : a.ret = 0
    · -- end of file
      have hs : readStops a = some .eof := (if_neg herror).trans (if_pos hzero)
      rw [if_pos ((ofInt_ret_eq_zero hn ha).mpr hzero), transfer_cons_of_some hpos.ne' hs]
      have hnil : a.data = [] := List.eq_nil_of_length_eq_zero (by omega)
      simp [hnil, readRet]
    · -- bytes, or an error after which it tries again: the data go behind what is there
      have hs : readStops a = none := (if_neg herror).trans (if_neg hzero)
      have hlen : (ys.drop a.data.length).length = ys.length - a.amount := by
        rw [List.length_drop, hdata]
      have hrest := @ih (xs ++ a.data) (ys.drop a.data.length) (hlen ▸ has) (by omega)
      rw [List.length_append, hlen, hdata] at hrest
      have hsub : UInt64.ofNat ys.length - UInt64.ofInt (a.amount : ℤ) =
          UInt64.ofNat (ys.length - a.amount) :=
        ofNat_sub_ofInt (Int.natCast_nonneg _) ((Int.toNat_natCast _).trans_le ha) hn
      have hclamp :
          (if Int32.ofInt a.ret < 0 then 0 else Int32.ofInt a.ret).toInt = (a.amount : ℤ) :=
        (congrArg Int32.toInt (clamp_lt_eq_clamp_le _)).trans (toInt_clamp_ret hn ha)
      rw [if_neg (mt (ofInt_ret_eq_zero hn ha).mp hzero), transfer_cons_of_none hpos.ne' hs, hclamp,
        hsub, Int.toNat_natCast]
      dsimp only at hrest ⊢
      rw [hdata, hrest, List.flatMap_cons, List.length_append, hdata, ← List.drop_drop]
      simp only [List.append_assoc, Nat.add_assoc]
      rfl

/-! ## The two functions -/

/-- What `HyUtilsWrite` is to do. The answers `used` are those up to the end of the call. The bytes
they accept are a prefix of the buffer; it returns the length when they are the whole buffer, and -1
when before that a `write` returned 0 or failed other than by an interrupt; otherwise it waits for
another answer. -/
structure WritesWhole (answers : List Answer) (buf : List UInt8) (used : List Answer)
    (accepted : List UInt8) (ret : Option Int32) : Prop where
  takes : Taken WriteEnds Answer.amount answers buf.length used
  accepts : accepted = buf.take (moved Answer.amount used)
  whole : ret = some (Int32.ofNat buf.length) ↔ accepted = buf
  failed : ret = some (-1) ↔ ∃ before a after, answers = before ++ a :: after ∧
    (a.ret = 0 ∨ (a.ret = -1 ∧ a.errno ≠ eintr)) ∧
    (∀ b ∈ before, ¬(b.ret = 0 ∨ (b.ret = -1 ∧ b.errno ≠ eintr))) ∧
    moved Answer.amount before < buf.length
  waits : ret = none ↔ used = answers ∧ accepted ≠ buf

/-- What `HyUtilsRead` is to do. The answers `used` are those up to the end of the call. The bytes
they deliver are stored in order at the start of the buffer; it returns their number when they fill
the buffer or the file has ended, less than the length only at the end of the file, and -1 when
before that a `read` failed with an error that is not retried; otherwise it waits for another
answer. -/
structure ReadsWhole (answers : List ReadAnswer) (buf : List UInt8) (used : List ReadAnswer)
    (delivered buf' : List UInt8) (ret : Option Int32) : Prop where
  takes : Taken ReadEnds ReadAnswer.amount answers buf.length used
  delivers : delivered = used.flatMap ReadAnswer.data
  stores : delivered.length ≤ buf.length ∧ buf' = delivered ++ buf.drop delivered.length
  returns : delivered.length = buf.length ∨ (∃ a after, answers = used ++ a :: after ∧ a.ret = 0) →
    ret = some (Int32.ofNat delivered.length)
  count : ∀ n, ret = some n → n ≠ -1 → n.toInt = delivered.length
  short : ∀ n, ret = some n → n ≠ -1 → delivered.length < buf.length →
    ∃ a after, answers = used ++ a :: after ∧ a.ret = 0
  failed : ret = some (-1) ↔ ∃ before a after, answers = before ++ a :: after ∧
    (a.ret = -1 ∧ ¬Retried a.errno) ∧
    (∀ b ∈ before, ¬(b.ret = -1 ∧ ¬Retried b.errno) ∧ b.ret ≠ 0) ∧
    moved ReadAnswer.amount before < buf.length
  waits : ret = none ↔ used = answers ∧ delivered.length < buf.length

theorem ofNat_ne_neg_one {n : ℕ} (hn : n < 2 ^ 31) : Int32.ofNat n ≠ -1 := by
  intro h
  have hn' := Int32.toInt_ofNat_of_lt hn
  rw [h] at hn'
  exact absurd hn' (by simp)

theorem writeStops_eq_none_iff (a : Answer) : writeStops a = none ↔ ¬WriteEnds a := by
  unfold writeStops
  split_ifs with h <;> simp [h]

theorem writeStops_eq_some_iff {a : Answer} {r : Unit} : writeStops a = some r ↔ WriteEnds a := by
  unfold writeStops
  split_ifs with h <;> simp [h]

theorem writeRet_eq_neg_one_iff {len : UInt64} (hlen : len.toNat < 2 ^ 31) {o : Outcome Unit} :
    writeRet len o = some (-1) ↔ o = .stopped () := by
  cases o with
  | done => simp [writeRet, ofNat_ne_neg_one hlen]
  | stopped r => simp [writeRet]
  | pending => simp [writeRet]

theorem writeRet_eq_len_iff {len : UInt64} (hlen : len.toNat < 2 ^ 31) {o : Outcome Unit} :
    writeRet len o = some (Int32.ofNat len.toNat) ↔ o = .done := by
  cases o with
  | done => simp [writeRet]
  | stopped r => simp [writeRet, (ofNat_ne_neg_one hlen).symm]
  | pending => simp [writeRet]

theorem writeRet_eq_none_iff {len : UInt64} {o : Outcome Unit} :
    writeRet len o = none ↔ o = .pending := by cases o <;> simp [writeRet]

theorem hyUtilsWrite_writesWhole {buf : List UInt8} (hlen : buf.length < 2 ^ 31)
    {answers : List Answer} (h : Within Answer.amount answers buf.length) :
    ∃ used accepted ret, hyUtilsWrite answers buf (UInt64.ofNat buf.length) =
        some (accepted, ret) ∧ WritesWhole answers buf used accepted ret := by
  have hnat : (UInt64.ofNat buf.length).toNat = buf.length := toNat_ofNat_of_lt (by omega)
  have hret := writeRet_eq_len_iff (hnat.symm ▸ hlen)
    (o := (transfer writeStops Answer.amount answers buf.length).2)
  have hle : moved Answer.amount (transfer writeStops Answer.amount answers buf.length).1 ≤
      buf.length := moved_taken_le h
  -- the bytes accepted are the whole buffer when as many are moved
  have hwhole : (buf.drop 0).take
      (moved Answer.amount (transfer writeStops Answer.amount answers buf.length).1) = buf ↔
        moved Answer.amount (transfer writeStops Answer.amount answers buf.length).1 =
          buf.length := by
    rw [List.drop_zero, List.take_eq_self_iff]
    omega
  rw [hnat] at hret
  refine ⟨_, _, _, writeLoop_eq_transfer h hlen (Nat.zero_add _),
    taken_transfer writeStops_eq_none_iff h, rfl, ?_, ?_, ?_⟩
  · rw [hret, transfer_done_iff h, hwhole]
  · rw [writeRet_eq_neg_one_iff (hnat.symm ▸ hlen), transfer_snd_eq_stopped_iff]
    simp only [writeStops_eq_some_iff, writeStops_eq_none_iff, WriteEnds]
  · rw [writeRet_eq_none_iff, transfer_pending_iff h, ne_eq, ne_eq, hwhole]

theorem readStops_eq_none_iff (a : ReadAnswer) :
    readStops a = none ↔ ¬(a.ret = -1 ∧ ¬Retried a.errno) ∧ a.ret ≠ 0 := by
  unfold readStops
  by_cases h : a.ret = -1 ∧ ¬Retried a.errno
  · simp [h]
  · by_cases h' : a.ret = 0 <;> simp [h, h']

theorem readStops_eq_error_iff {a : ReadAnswer} :
    readStops a = some .error ↔ a.ret = -1 ∧ ¬Retried a.errno := by
  unfold readStops
  split_ifs with h h' <;> simp [h]

theorem readStops_eq_eof_iff {a : ReadAnswer} : readStops a = some .eof ↔ a.ret = 0 := by
  unfold readStops
  split_ifs with h h'
  · simp [h.1]
  · simp [h']
  · simp [h']

theorem readStops_eq_none_iff_not_ends (a : ReadAnswer) : readStops a = none ↔ ¬ReadEnds a := by
  rw [readStops_eq_none_iff, ReadEnds, not_or, and_comm]

theorem readRet_eq_neg_one_iff {n : ℕ} (hn : n < 2 ^ 31) {o : Outcome ReadStop} :
    readRet n o = some (-1) ↔ o = .stopped .error := by
  cases o with
  | done => simp [readRet, ofNat_ne_neg_one hn]
  | stopped r => cases r <;> simp [readRet, ofNat_ne_neg_one hn]
  | pending => simp [readRet]

theorem readRet_eq_none_iff {n : ℕ} {o : Outcome ReadStop} :
    readRet n o = none ↔ o = .pending := by
  cases o with
  | stopped r => cases r <;> simp [readRet]
  | done | pending => simp [readRet]

/-- A count other than -1 is returned when everything is read and at the end of the file. -/
theorem readRet_eq_some {n : ℕ} {o : Outcome ReadStop} {r : Int32} (h : readRet n o = some r)
    (hr : r ≠ -1) : r = Int32.ofNat n ∧ (o = .done ∨ o = .stopped .eof) := by
  cases o with
  | done => exact ⟨(Option.some.inj h).symm, .inl rfl⟩
  | stopped s =>
    cases s with
    | error => exact absurd (Option.some.inj h).symm hr
    | eof => exact ⟨(Option.some.inj h).symm, .inr rfl⟩
  | pending => exact nomatch h

theorem hyUtilsRead_readsWhole {buf : List UInt8} (hlen : buf.length < 2 ^ 31)
    {answers : List ReadAnswer} (h : Within ReadAnswer.amount answers buf.length) :
    ∃ used delivered buf' ret, hyUtilsRead answers buf (UInt64.ofNat buf.length) =
        some (delivered, buf', ret) ∧ ReadsWhole answers buf used delivered buf' ret := by
  have heq := @readLoop_eq_transfer answers [] buf h hlen
  dsimp only at heq
  rw [List.nil_append, List.nil_append, List.length_nil, Nat.zero_add] at heq
  have hmoved := length_flatMap_data (transfer readStops ReadAnswer.amount answers buf.length).1
  have hle : moved ReadAnswer.amount (transfer readStops ReadAnswer.amount answers buf.length).1 ≤
      buf.length := moved_taken_le h
  have htaken := taken_transfer readStops_eq_none_iff_not_ends h
  refine ⟨_, _, _, _, heq, htaken, rfl, ⟨by omega, rfl⟩, ?_, ?_, ?_, ?_, ?_⟩
  · -- everything is read, or the answer after those taken ends the file
    intro hend
    rcases Nat.lt_or_ge (moved ReadAnswer.amount
      (transfer readStops ReadAnswer.amount answers buf.length).1) buf.length with hlt | hge
    · obtain ⟨a, after, has, hzero⟩ := hend.resolve_left (by omega)
      have hstopped := transfer_eq_stopped_iff.mpr ⟨a, after, has,
        readStops_eq_eof_iff.mpr hzero,
        fun b hb => (readStops_eq_none_iff_not_ends b).mpr (htaken.not_ends hb), hlt⟩
      rw [congrArg Prod.snd hstopped]
      rfl
    · rw [(transfer_done_iff h).mpr (Nat.le_antisymm hle hge)]
      rfl
  · intro n hret hn
    obtain ⟨rfl, -⟩ := readRet_eq_some hret hn
    exact Int32.toInt_ofNat_of_lt (by omega)
  · intro n hret hn hshort
    rcases (readRet_eq_some hret hn).2 with hdone | heof
    · rw [transfer_done_iff h] at hdone
      omega
    · obtain ⟨a, after, has, ha, -⟩ := transfer_eq_stopped_iff.mp (Prod.ext rfl heof)
      exact ⟨a, after, has, readStops_eq_eof_iff.mp ha⟩
  · rw [readRet_eq_neg_one_iff (by omega), transfer_snd_eq_stopped_iff]
    simp only [readStops_eq_error_iff, readStops_eq_none_iff]
  · rw [readRet_eq_none_iff, transfer_pending_iff h, hmoved]
    exact and_congr_right fun _ => ⟨fun hne => lt_of_le_of_ne hle hne, Nat.ne_of_lt⟩

/-- **Reading and writing a whole buffer**: for every buffer of at most `INT32_MAX` bytes and all
answers of a kernel that moves no more than it is asked to, `HyUtilsWrite` and `HyUtilsRead` do what
they are to do. -/
theorem hyUtilsWrite_hyUtilsRead (buf : List UInt8) (hlen : buf.length < 2 ^ 31)
    (writes : List Answer) (hwrites : Within Answer.amount writes buf.length)
    (reads : List ReadAnswer) (hreads : Within ReadAnswer.amount reads buf.length) :
    (∃ used accepted ret, hyUtilsWrite writes buf (UInt64.ofNat buf.length) =
        some (accepted, ret) ∧ WritesWhole writes buf used accepted ret) ∧
    ∃ used delivered buf' ret, hyUtilsRead reads buf (UInt64.ofNat buf.length) =
        some (delivered, buf', ret) ∧ ReadsWhole reads buf used delivered buf' ret :=
  ⟨hyUtilsWrite_writesWhole hlen hwrites, hyUtilsRead_readsWhole hlen hreads⟩

/-- A short count and an interrupt, and the rest. -/
theorem hyUtilsWrite_hyUtilsRead_three :
    let buf : List UInt8 := [1, 2, 3]
    let writes : List Answer := [⟨2, 0, by decide⟩, ⟨-1, eintr, by decide⟩, ⟨1, 0, by decide⟩]
    let reads : List ReadAnswer :=
      [⟨⟨-1, eagain, by decide⟩, [], rfl⟩, ⟨⟨2, 0, by decide⟩, [7, 8], rfl⟩,
        ⟨⟨0, 0, by decide⟩, [], rfl⟩]
    (∃ used accepted ret, hyUtilsWrite writes buf (UInt64.ofNat buf.length) =
        some (accepted, ret) ∧ WritesWhole writes buf used accepted ret) ∧
    ∃ used delivered buf' ret, hyUtilsRead reads buf (UInt64.ofNat buf.length) =
        some (delivered, buf', ret) ∧ ReadsWhole reads buf used delivered buf' ret :=
  hyUtilsWrite_hyUtilsRead [1, 2, 3] (by decide) _ (by simp [Within, Answer.amount]) _
    (by simp [Within, ReadAnswer.amount, Answer.amount])

end HyUtils.Utils
