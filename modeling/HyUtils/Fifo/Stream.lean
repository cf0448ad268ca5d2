import HyUtils.Fifo.Invariant
import HyUtils.Fifo.Threads
import HyUtils.Foundation.Run

/-!
# The bytes of two threads are one stream

## Main definitions

* `Ready`: the thread can make its access, and a length it has chosen fits the buffer of its caller
* `Streams W R s`: the bytes `W` went in, of these `R` came out, and the others are in their cells
-/

namespace HyUtils.Fifo

open Region Ring Runs Words

variable {context : FifoContext} {s s' : SharedFifo} {W R : List UInt8} {out : StepOut}

/-! ## Cursors -/

namespace FifoContext.Wf

/-- The cells of a copy, from the cursor on. -/
theorem copyIndex_eq (h : context.Wf) (hpos : 0 < context.size.toNat) (x len : UInt64) {k : ℕ}
    (hk : k < len.toNat) (hlen : len.toNat ≤ context.size.toNat) :
    copyIndex context.size (x &&& (context.size - 1)) len k =
      (x.toNat + k) % context.size.toNat := by
  have hlt := Nat.mod_lt x.toNat hpos
  have hmod : (x.toNat + k) % context.size.toNat =
      (x.toNat % context.size.toNat + k) % context.size.toNat := by rw [Nat.mod_add_mod]
  rw [copyIndex, toNat_hyUtilsMinMacro, h.toNat_size_sub_index hpos, h.toNat_index, hmod]
  generalize x.toNat % context.size.toNat = i at hlt ⊢
  split_ifs with hfirst
  · -- in front of the physical end
    rw [Nat.mod_eq_of_lt (by omega)]
  · -- behind it, so the copy has gone on at the start
    rw [Nat.mod_eq_sub_mod (by omega), Nat.mod_eq_of_lt (by omega)]
    omega

/-- `in` moved over the bytes put. -/
theorem advanceIn (h : context.Wf) {len : UInt64}
    (hle : context.used + len.toNat ≤ context.size.toNat) :
    { context with in_ := context.in_ + len }.Wf ∧
      { context with in_ := context.in_ + len }.used = context.used + len.toNat := by
  have hs := h.size_le
  have hused : ({ context with in_ := context.in_ + len } : FifoContext).used =
      context.used + len.toNat := by
    have hi := context.in_.toNat_lt
    have ho := context.out.toNat_lt
    simp only [FifoContext.used, UInt64.toNat_sub, UInt64.toNat_add] at hle ⊢
    omega
  refine ⟨⟨h.size_eq, h.length_buf, hused ▸ hle, fun h0 => ?_⟩, hused⟩
  obtain ⟨hi, ho⟩ := h.cursors_of_size h0
  have hlen : len = 0 := UInt64.toNat_inj.mp (by
    change context.size.toNat = 0 at h0
    exact Nat.le_zero.mp (by omega))
  exact ⟨by rw [hi, hlen]; rfl, ho⟩

/-- `out` moved over the bytes taken. -/
theorem advanceOut (h : context.Wf) {len : UInt64} (hle : len.toNat ≤ context.used) :
    { context with out := context.out + len }.Wf ∧
      { context with out := context.out + len }.used + len.toNat = context.used := by
  have hs := h.size_le
  have hu := h.used_le
  have hused : ({ context with out := context.out + len } : FifoContext).used + len.toNat =
      context.used := by
    have hi := context.in_.toNat_lt
    have ho := context.out.toNat_lt
    simp only [FifoContext.used, UInt64.toNat_sub, UInt64.toNat_add] at hle ⊢
    omega
  refine ⟨⟨h.size_eq, h.length_buf, ?_, fun h0 => ?_⟩, hused⟩
  · change _ ≤ context.size.toNat
    omega
  · obtain ⟨hi, ho⟩ := h.cursors_of_size h0
    have hlen : len = 0 := UInt64.toNat_inj.mp (by
      change context.size.toNat = 0 at h0
      exact Nat.le_zero.mp (by omega))
    exact ⟨hi, by rw [ho, hlen]; rfl⟩

end FifoContext.Wf

/-! ## The bytes on their way -/

/-- The bytes of a call of `HyFifoPut` that are in their cells and not counted yet. -/
def PutPos.pending : PutPos → List UInt8
  | .copy buf _ done => buf.take done
  | _ => []

/-- The bytes a call of the taking thread has copied. -/
def GetPos.fetched : GetPos → List UInt8
  | .copy _ buf _ done => buf.take done
  | _ => []

/-- The length that is chosen next fits the buffer of the caller of `HyFifoPut`. -/
def PutPos.Fits (context : FifoContext) : PutPos → Prop
  | .compare buf len =>
    len < context.size - context.in_ + context.out → len.toNat ≤ buf.length
  | .choose buf => (context.size - context.in_ + context.out).toNat ≤ buf.length
  | _ => True

/-- The length that is chosen next fits the buffer of the caller in the taking thread. -/
def GetPos.Fits (context : FifoContext) : GetPos → Prop
  | .compare _ buf len => len.toUInt64 < context.in_ - context.out → len.toNat ≤ buf.length
  | .choose _ buf => (context.in_ - context.out).toNat ≤ buf.length
  | _ => True

/-- A thread calls a function when it is in none, and goes on in one with a length that fits. -/
def Ready (s : SharedFifo) : SideOp → Prop
  | .callPut _ _ => s.put = .idle
  | .put => s.put ≠ .idle ∧ s.put.Fits s.context
  | .callGet _ _ _ => s.get = .idle
  | .get => s.get ≠ .idle ∧ s.get.Fits s.context
  | .usedLen => True

instance (context : FifoContext) : ∀ pos : PutPos, Decidable (pos.Fits context)
  | .compare _ _ => inferInstanceAs (Decidable (_ → _))
  | .choose _ => inferInstanceAs (Decidable (_ ≤ _))
  | .idle | .copy .. | .loadUseCnt _ | .storeUseCnt .. => inferInstanceAs (Decidable True)

instance (context : FifoContext) : ∀ pos : GetPos, Decidable (pos.Fits context)
  | .compare .. => inferInstanceAs (Decidable (_ → _))
  | .choose .. => inferInstanceAs (Decidable (_ ≤ _))
  | .idle | .copy .. | .loadUseCnt _ | .storeUseCnt .. => inferInstanceAs (Decidable True)

instance Ready.decidable (s : SharedFifo) : ∀ op, Decidable (Ready s op)
  | .callPut .. => inferInstanceAs (Decidable (s.put = .idle))
  | .put => inferInstanceAs (Decidable (s.put ≠ .idle ∧ s.put.Fits s.context))
  | .callGet .. => inferInstanceAs (Decidable (s.get = .idle))
  | .get => inferInstanceAs (Decidable (s.get ≠ .idle ∧ s.get.Fits s.context))
  | .usedLen => inferInstanceAs (Decidable True)

/-- The bytes `W` went in, of these `R` came out, and the others are in their cells. -/
structure Streams (W R : List UInt8) (s : SharedFifo) : Prop where
  wf : s.context.Wf
  out_eq : s.context.out.toNat = R.length % 2 ^ 64
  length : W.length = R.length + s.context.used
  fetched : R ++ s.get.fetched <+: W
  carries : Carries s.context.buf (W ++ s.put.pending) R.length
  put : ∀ {buf len done}, s.put = .copy buf len done →
    done ≤ len.toNat ∧ len.toNat ≤ buf.length ∧ s.context.used + len.toNat ≤ s.context.size.toNat
  get : ∀ {kind buf len done}, s.get = .copy kind buf len done →
    done ≤ len.toNat ∧ len.toNat ≤ buf.length ∧ len.toNat ≤ s.context.used

namespace Streams

theorem taken_prefix (h : Streams W R s) : R <+: W := (List.prefix_append _ _).trans h.fetched

theorem in_mod (h : Streams W R s) (hpos : 0 < s.context.size.toNat) :
    s.context.in_.toNat % s.context.size.toNat = W.length % s.context.size.toNat := by
  rw [h.wf.in_eq, h.out_eq, h.length, Nat.mod_add_mod, Nat.mod_mod_of_dvd _ (h.wf.size_dvd hpos)]

theorem out_mod (h : Streams W R s) (hpos : 0 < s.context.size.toNat) :
    s.context.out.toNat % s.context.size.toNat = R.length % s.context.size.toNat := by
  rw [h.out_eq, Nat.mod_mod_of_dvd _ (h.wf.size_dvd hpos)]

/-! ## Positions -/

theorem setPut (h : Streams W R s) {pos : PutPos} (hpending : pos.pending = s.put.pending)
    (hpos : ∀ {buf len done}, pos = .copy buf len done → done ≤ len.toNat ∧
      len.toNat ≤ buf.length ∧ s.context.used + len.toNat ≤ s.context.size.toNat) :
    Streams W R { s with put := pos } where
  wf := h.wf
  out_eq := h.out_eq
  length := h.length
  fetched := h.fetched
  carries := by
    change Carries s.context.buf (W ++ pos.pending) R.length
    rw [hpending]
    exact h.carries
  put := hpos
  get := h.get

theorem setGet (h : Streams W R s) {pos : GetPos} (hfetched : R ++ pos.fetched <+: W)
    (hpos : ∀ {kind buf len done}, pos = .copy kind buf len done → done ≤ len.toNat ∧
      len.toNat ≤ buf.length ∧ len.toNat ≤ s.context.used) :
    Streams W R { s with get := pos } where
  wf := h.wf
  out_eq := h.out_eq
  length := h.length
  fetched := hfetched
  carries := h.carries
  put := h.put
  get := hpos

theorem setUseCnt (h : Streams W R s) (useCnt : UInt64) :
    Streams W R { s with context := { s.context with useCnt } } where
  wf := ⟨h.wf.size_eq, h.wf.length_buf, h.wf.used_le, h.wf.cursors_of_size⟩
  out_eq := h.out_eq
  length := h.length
  fetched := h.fetched
  carries := h.carries
  put := h.put
  get := h.get

end Streams

/-- What a step keeps, and what it shows. -/
structure Kept (W R : List UInt8) (s s' : SharedFifo) (out : StepOut) : Prop where
  size : s'.context.size = s.context.size
  streams : Streams (W ++ accepted [out]) (R ++ taken [out]) s'
  peeked : ∀ bytes, out = .peeked bytes → R ++ bytes <+: W

/-- A step that shows no bytes. -/
theorem Kept.of_no_bytes (hsize : s'.context.size = s.context.size) (h : Streams W R s')
    (haccepted : accepted [out] = []) (htaken : taken [out] = [])
    (hpeeked : ∀ bytes, out ≠ .peeked bytes) : Kept W R s s' out := by
  refine ⟨hsize, ?_, fun bytes hout => absurd hout (hpeeked bytes)⟩
  rwa [haccepted, htaken, List.append_nil, List.append_nil]

theorem Kept.silent (hsize : s'.context.size = s.context.size) (h : Streams W R s') :
    Kept W R s s' .silent := .of_no_bytes hsize h rfl rfl fun _ => StepOut.noConfusion

theorem Kept.returned (hsize : s'.context.size = s.context.size) (h : Streams W R s') (n : ℕ) :
    Kept W R s s' (.returned n) := .of_no_bytes hsize h rfl rfl fun _ => StepOut.noConfusion

/-! ## Accesses of `HyFifoPut` -/

section Put

variable {buf : List UInt8} {len : UInt64} {done : ℕ}

/-- A byte is put in its cell. -/
theorem Streams.put_byte (h : Streams W R s) (hput : s.put = .copy buf len done)
    (hdone : done < len.toNat) :
    ∃ s', putStep s = some (s', .silent) ∧ Kept W R s s' .silent := by
  obtain ⟨-, hfit, hroom⟩ := h.put hput
  have hlt : done < buf.length := by omega
  have hpos : 0 < s.context.size.toNat := by omega
  have hpending : s.put.pending = buf.take done := by rw [hput]; rfl
  have hlength : (W ++ buf.take done).length = W.length + done := by
    rw [List.length_append, List.length_take_of_le hlt.le]
  -- the cell carries nothing yet
  have hcarries := h.carries
  rw [hpending] at hcarries
  obtain ⟨ring, hstore, hring, hcarries'⟩ := store_carried hcarries
    (by rw [hlength, h.length, h.wf.length_buf]; omega) (by rw [h.wf.length_buf]; omega) buf[done]
  have hindex : copyIndex s.context.size (s.context.in_ &&& (s.context.size - 1)) len done =
      (W ++ buf.take done).length % s.context.buf.length := by
    rw [h.wf.copyIndex_eq hpos _ _ hdone (by omega), hlength, h.wf.length_buf, Nat.add_mod,
      h.in_mod hpos, ← Nat.add_mod]
  refine ⟨{ s with context := { s.context with buf := ring }, put := .copy buf len (done + 1) },
    ?_, .silent rfl ?_⟩
  · rw [putStep, hput]
    dsimp only
    rw [if_pos hdone, load_one hlt, hindex]
    simp only [Option.bind_eq_bind, Option.bind_some, hstore]
    rfl
  · refine ⟨⟨h.wf.size_eq, hring.trans h.wf.length_buf, h.wf.used_le, h.wf.cursors_of_size⟩,
      h.out_eq, h.length, h.fetched, ?_, fun heq => ?_, h.get⟩
    · change Carries ring (W ++ buf.take (done + 1)) R.length
      rwa [List.append_assoc, List.take_append_getElem hlt] at hcarries'
    · cases heq
      exact ⟨hdone, hfit, hroom⟩

/-- The bytes put are counted. -/
theorem Streams.put_publish (h : Streams W R s) (hput : s.put = .copy buf len done)
    (hdone : ¬ done < len.toNat) :
    ∃ s', putStep s = some (s', .accepted (buf.take len.toNat)) ∧
      Kept W R s s' (.accepted (buf.take len.toNat)) := by
  obtain ⟨hle, hfit, hroom⟩ := h.put hput
  obtain rfl : done = len.toNat := by omega
  obtain ⟨hwf, hused⟩ := h.wf.advanceIn hroom
  refine ⟨{ s with
    context := { s.context with in_ := s.context.in_ + len }, put := .loadUseCnt len },
    by rw [putStep, hput]; dsimp only; rw [if_neg hdone], rfl, ?_, nofun⟩
  have haccepted : accepted [.accepted (buf.take len.toNat)] = buf.take len.toNat := by
    simp [accepted]
  have htaken : taken [.accepted (buf.take len.toNat)] = [] := rfl
  rw [haccepted, htaken, List.append_nil]
  have hcarries := h.carries
  rw [hput] at hcarries
  refine ⟨hwf, h.out_eq, ?_, h.fetched.trans (List.prefix_append _ _), ?_, nofun, fun heq => ?_⟩
  · rw [List.length_append, List.length_take_of_le hfit, h.length, hused]
    omega
  · change Carries s.context.buf (W ++ buf.take len.toNat ++ []) R.length
    rwa [List.append_nil]
  · obtain ⟨hle', hfit', hused'⟩ := h.get heq
    exact ⟨hle', hfit', hused'.trans (by rw [hused]; omega)⟩

/-- **Every access of `HyFifoPut`** is in bounds when its length fits, and keeps the streams. -/
theorem Streams.put_step (h : Streams W R s) (hbusy : s.put ≠ .idle)
    (hfits : s.put.Fits s.context) : ∃ s' out, putStep s = some (s', out) ∧ Kept W R s s' out := by
  have hu := h.wf.used_le
  -- at every position but the copy there is nothing pending
  have hset : ∀ pos : PutPos, s.put.pending = [] → pos.pending = [] →
      (∀ {buf len done}, pos = .copy buf len done → done ≤ len.toNat ∧ len.toNat ≤ buf.length ∧
        s.context.used + len.toNat ≤ s.context.size.toNat) →
      Streams W R { s with put := pos } := fun pos hold hnew hpos =>
    h.setPut (hnew.trans hold.symm) hpos
  cases hput : s.put with
  | idle => exact absurd hput hbusy
  | compare buf len =>
    rw [hput] at hfits hset
    by_cases hlen : len < s.context.size - s.context.in_ + s.context.out
    · have hroom : len.toNat < s.context.size.toNat - s.context.used := by
        rw [← h.wf.toNat_free]
        exact UInt64.lt_iff_toNat_lt.mp hlen
      refine ⟨{ s with put := .copy buf len 0 }, .silent, ?_, .silent rfl (hset _ rfl rfl ?_)⟩
      · rw [putStep, hput]
        exact if_pos hlen
      · rintro _ _ _ ⟨⟩
        exact ⟨Nat.zero_le _, hfits hlen, by omega⟩
    · refine ⟨{ s with put := .choose buf }, .silent, ?_, .silent rfl (hset _ rfl rfl nofun)⟩
      rw [putStep, hput]
      exact if_neg hlen
  | choose buf =>
    rw [hput] at hfits hset
    refine ⟨{ s with put := .copy buf (s.context.size - s.context.in_ + s.context.out) 0 },
      .silent, by rw [putStep, hput], .silent rfl (hset _ rfl rfl ?_)⟩
    rintro _ _ _ ⟨⟩
    refine ⟨Nat.zero_le _, hfits, ?_⟩
    rw [h.wf.toNat_free]
    omega
  | copy buf len done =>
    by_cases hdone : done < len.toNat
    · obtain ⟨s', hs, hkept⟩ := h.put_byte hput hdone
      exact ⟨s', _, hs, hkept⟩
    · obtain ⟨s', hs, hkept⟩ := h.put_publish hput hdone
      exact ⟨s', _, hs, hkept⟩
  | loadUseCnt len =>
    rw [hput] at hset
    exact ⟨{ s with put := .storeUseCnt len s.context.useCnt }, .silent, by rw [putStep, hput],
      .silent rfl (hset _ rfl rfl nofun)⟩
  | storeUseCnt len useCnt =>
    rw [hput] at hset
    have hidle := (hset .idle rfl rfl nofun).setUseCnt (useCnt + len)
    refine ⟨_, .returned len.toNat, ?_, .returned ?_ hidle _⟩
    · rw [putStep, hput]
    · rfl

end Put

/-! ## Accesses of the taking thread -/

section Get

variable {kind : GetKind} {buf : List UInt8} {len : UInt32} {done : ℕ}

/-- The next byte of the stream is copied. -/
theorem Streams.get_byte (h : Streams W R s) (hget : s.get = .copy kind buf len done)
    (hdone : done < len.toNat) :
    ∃ buf', getStep s = some ({ s with get := .copy kind buf' len (done + 1) }, .silent) ∧
      Kept W R s { s with get := .copy kind buf' len (done + 1) } .silent := by
  obtain ⟨-, hfit, hused⟩ := h.get hget
  have hlt : done < buf.length := by omega
  have hu := h.wf.used_le
  have hpos : 0 < s.context.size.toNat := by omega
  have hW : R.length + done < W.length := by rw [h.length]; omega
  have hitem : R.length + done < (W ++ s.put.pending).length := by
    rw [List.length_append]
    omega
  have hload := load_carried h.carries (Nat.le_add_right R.length done) hitem
  have hindex : copyIndex s.context.size (s.context.out &&& (s.context.size - 1)) len.toUInt64
      done = (R.length + done) % s.context.buf.length := by
    rw [h.wf.copyIndex_eq hpos _ _ (by simpa using hdone) (by simp; omega), h.wf.length_buf,
      Nat.add_mod, h.out_mod hpos, ← Nat.add_mod]
  rw [List.getElem_append_left hW] at hload
  refine ⟨buf.set done W[R.length + done], ?_, .silent rfl (h.setGet ?_ ?_)⟩
  · rw [getStep, hget]
    dsimp only
    rw [if_pos hdone, hindex, hload]
    simp only [Option.bind_eq_bind, Option.bind_some, store_one hlt]
    rfl
  · -- what is copied is what comes next
    have hfetched : R ++ buf.take done <+: W := by
      have hold := h.fetched
      rwa [hget] at hold
    have htake : R ++ buf.take done = W.take (R.length + done) := by
      rw [List.prefix_iff_eq_take.mp hfetched, List.length_append, List.length_take_of_le hlt.le]
    have hnext : (buf.set done W[R.length + done]).take (done + 1) =
        buf.take done ++ [W[R.length + done]] := by
      rw [← List.take_append_getElem (by simpa using hlt), List.take_set_of_le (Nat.le_refl done),
        List.getElem_set_self]
    change R ++ (buf.set done W[R.length + done]).take (done + 1) <+: W
    rw [hnext, ← List.append_assoc, htake, List.take_append_getElem hW]
    exact List.take_prefix _ _
  · rintro _ _ _ _ ⟨⟩
    exact ⟨hdone, by simpa using hfit, hused⟩

/-- The bytes copied are the next of the stream. -/
theorem Streams.copied (h : Streams W R s) (hget : s.get = .copy kind buf len done)
    (hdone : ¬ done < len.toNat) : R ++ buf.take len.toNat <+: W := by
  obtain ⟨hle, -, -⟩ := h.get hget
  obtain rfl : done = len.toNat := by omega
  have hfetched := h.fetched
  rwa [hget] at hfetched

/-- The bytes copied are counted as taken. -/
theorem Streams.get_publish (h : Streams W R s) (hget : s.get = .copy kind buf len done)
    (hdone : ¬ done < len.toNat) (pos : GetPos) (hfetched : pos.fetched = [])
    (hpos : ∀ kind buf len done, pos ≠ .copy kind buf len done) :
    Kept W R s { s with
      context := { s.context with out := s.context.out + len.toUInt64 }, get := pos }
      (.taken (buf.take len.toNat)) := by
  obtain ⟨-, hfit, hroom⟩ := h.get hget
  have hlen : len.toUInt64.toNat = len.toNat := UInt32.toNat_toUInt64 len
  have hle : len.toUInt64.toNat ≤ s.context.used := by rwa [hlen]
  obtain ⟨hwf, hused⟩ := h.wf.advanceOut hle
  refine ⟨rfl, ?_, fun _ => StepOut.noConfusion⟩
  have haccepted : accepted [.taken (buf.take len.toNat)] = [] := rfl
  have htaken : taken [.taken (buf.take len.toNat)] = buf.take len.toNat := by simp [taken]
  have hcopied := h.copied hget hdone
  have hlength : (R ++ buf.take len.toNat).length = R.length + len.toNat := by
    rw [List.length_append, List.length_take_of_le hfit]
  rw [haccepted, htaken, List.append_nil]
  refine ⟨hwf, ?_, ?_, ?_, h.carries.mono (by rw [hlength]; omega), fun heq => ?_,
    fun heq => absurd heq (hpos _ _ _ _)⟩
  · rw [UInt64.toNat_add, h.out_eq, hlength, hlen, Nat.mod_add_mod]
  · dsimp only
    rw [hlength, h.length, ← hused, hlen]
    omega
  · rwa [hfetched, List.append_nil]
  · obtain ⟨hle, hfit', hroom'⟩ := h.put heq
    refine ⟨hle, hfit', ?_⟩
    dsimp only
    omega

/-- **Every access of the taking thread** is in bounds when its length fits, and keeps the
streams. -/
theorem Streams.get_step (h : Streams W R s) (hbusy : s.get ≠ .idle)
    (hfits : s.get.Fits s.context) : ∃ s' out, getStep s = some (s', out) ∧ Kept W R s s' out := by
  have hu := h.wf.used_le
  have hs := h.wf.size_le
  -- at every position but the copy there is nothing fetched
  have hset : ∀ pos : GetPos, pos.fetched = [] →
      (∀ {kind buf len done}, pos = .copy kind buf len done → done ≤ len.toNat ∧
        len.toNat ≤ buf.length ∧ len.toNat ≤ s.context.used) →
      Streams W R { s with get := pos } := fun pos hnew hpos =>
    h.setGet (by rw [hnew, List.append_nil]; exact h.taken_prefix) hpos
  have hidle : Streams W R { s with get := .idle } := by
    apply hset _ rfl
    rintro _ _ _ _ ⟨⟩
  cases hget : s.get with
  | idle => exact absurd hget hbusy
  | compare kind buf len =>
    rw [hget] at hfits
    by_cases hlen : len.toUInt64 < s.context.in_ - s.context.out
    · have hroom : len.toNat < s.context.used := by
        have hlt := UInt64.lt_iff_toNat_lt.mp hlen
        rwa [UInt32.toNat_toUInt64] at hlt
      refine ⟨{ s with get := .copy kind buf len 0 }, .silent, ?_, .silent rfl (hset _ rfl ?_)⟩
      · rw [getStep, hget]
        exact if_pos hlen
      · rintro _ _ _ _ ⟨⟩
        exact ⟨Nat.zero_le _, hfits hlen, hroom.le⟩
    · refine ⟨{ s with get := .choose kind buf }, .silent, ?_, .silent rfl (hset _ rfl ?_)⟩
      · rw [getStep, hget]
        exact if_neg hlen
      · rintro _ _ _ _ ⟨⟩
  | choose kind buf =>
    rw [hget] at hfits
    refine ⟨{ s with get := .copy kind buf (s.context.in_ - s.context.out).toUInt32 0 },
      .silent, by rw [getStep, hget], .silent rfl (hset _ rfl ?_)⟩
    rintro _ _ _ _ ⟨⟩
    have hlen : (s.context.in_ - s.context.out).toUInt32.toNat = s.context.used := by
      rw [UInt64.toNat_toUInt32]
      exact Nat.mod_eq_of_lt (by rw [← FifoContext.used]; omega)
    rw [hlen]
    exact ⟨Nat.zero_le _, hfits, le_rfl⟩
  | copy kind buf len done =>
    by_cases hdone : done < len.toNat
    · obtain ⟨buf', hs, hkept⟩ := h.get_byte hget hdone
      exact ⟨_, _, hs, hkept⟩
    · cases kind with
      | get =>
        refine ⟨_, _, ?_, h.get_publish hget hdone (.loadUseCnt len) rfl ?_⟩
        · rw [getStep, hget]
          exact if_neg hdone
        · rintro _ _ _ _ ⟨⟩
      | updateOut =>
        refine ⟨_, _, ?_, h.get_publish hget hdone .idle rfl ?_⟩
        · rw [getStep, hget]
          exact if_neg hdone
        · rintro _ _ _ _ ⟨⟩
      | peek =>
        refine ⟨{ s with get := .idle }, .peeked (buf.take len.toNat), ?_, rfl, ?_, ?_⟩
        · rw [getStep, hget]
          exact if_neg hdone
        · rwa [show accepted [.peeked (buf.take len.toNat)] = [] from rfl,
            show taken [.peeked (buf.take len.toNat)] = [] from rfl, List.append_nil,
            List.append_nil]
        · rintro _ ⟨⟩
          exact h.copied hget hdone
  | loadUseCnt len =>
    refine ⟨{ s with get := .storeUseCnt len s.context.useCnt }, .silent, by rw [getStep, hget],
      .silent rfl (hset _ rfl ?_)⟩
    rintro _ _ _ _ ⟨⟩
  | storeUseCnt len useCnt =>
    have hreturn := hidle.setUseCnt (useCnt - len.toUInt64)
    refine ⟨_, .returned len.toNat, ?_, .returned ?_ hreturn _⟩
    · rw [getStep, hget]
    · rfl

end Get

/-! ## Runs -/

/-- **One step** of either thread. -/
theorem Streams.step (h : Streams W R s) {op : SideOp} (hop : Ready s op) :
    ∃ s' out, sharedStep s op = some (s', out) ∧ Kept W R s s' out := by
  cases op with
  | callPut buf len =>
    have hidle : s.put = .idle := hop
    refine ⟨{ s with put := .compare buf len }, .silent, by rw [sharedStep, if_pos hidle],
      .silent rfl (h.setPut ?_ nofun)⟩
    rw [hidle]
    rfl
  | put => exact h.put_step hop.1 hop.2
  | callGet kind buf len =>
    have hidle : s.get = .idle := hop
    have hstart : (startGet kind buf len).fetched = [] ∧
        ∀ k b l d, startGet kind buf len ≠ .copy k b l d := by
      unfold startGet
      split_ifs
      · exact ⟨rfl, nofun⟩
      · cases kind <;> exact ⟨rfl, nofun⟩
    refine ⟨{ s with get := startGet kind buf len }, .silent, by rw [sharedStep, if_pos hidle],
      .silent rfl (h.setGet ?_ fun heq => absurd heq (hstart.2 _ _ _ _))⟩
    rw [hstart.1, List.append_nil]
    exact h.taken_prefix
  | get => exact h.get_step hop.1 hop.2
  | usedLen =>
    exact ⟨s, .usedLen s.context.useCnt, rfl,
      .of_no_bytes rfl h rfl rfl fun _ => StepOut.noConfusion⟩

theorem accepted_cons (out : StepOut) (outs : List StepOut) :
    accepted (out :: outs) = accepted [out] ++ accepted outs := by simp [accepted]

theorem taken_cons (out : StepOut) (outs : List StepOut) :
    taken (out :: outs) = taken [out] ++ taken outs := by simp [taken]

theorem Streams.keeps_run (h : Streams W R s) {ops : List SideOp}
    (hops : EachStep sharedStep Ready s ops) :
    ∃ s' outs, run sharedStep s ops = some (s', outs) ∧ s'.context.size = s.context.size ∧
      Streams (W ++ accepted outs) (R ++ taken outs) s' ∧
      ∀ pre bytes post, outs = pre ++ .peeked bytes :: post →
        R ++ taken pre ++ bytes <+: W ++ accepted pre := by
  induction ops generalizing W R s with
  | nil =>
    refine ⟨s, [], rfl, rfl, by simpa [accepted, taken] using h, fun pre bytes post heq => ?_⟩
    cases pre <;> cases heq
  | cons op ops ih =>
    obtain ⟨s₁, out, hs, hkept⟩ := h.step hops.1
    obtain ⟨s', outs, hrun, hsize, h', hpeeked⟩ := ih hkept.streams (hops.2 s₁ out hs)
    refine ⟨s', out :: outs, run_cons_eq_some.mpr ⟨s₁, out, outs, hs, hrun, rfl⟩,
      hsize.trans hkept.size, ?_, fun pre bytes post heq => ?_⟩
    · rwa [accepted_cons, taken_cons, ← List.append_assoc, ← List.append_assoc]
    · cases pre with
      | nil =>
        cases heq
        simpa [accepted, taken] using hkept.peeked bytes rfl
      | cons o pre =>
        obtain ⟨rfl, rfl⟩ := List.cons.inj heq
        rw [accepted_cons, taken_cons, ← List.append_assoc, ← List.append_assoc]
        exact hpeeked pre bytes post rfl

/-- A new fifo, with both threads outside the module. -/
def SharedFifo.start (context : FifoContext) : SharedFifo := ⟨context, .idle, .idle⟩

theorem start_streams {config : HyFifoConfig} {contextOk bufOk : Bool}
    (hcreate : hyFifoCreate config contextOk bufOk = some context) :
    Streams [] [] (.start context) ∧ context.size = createSize config.size := by
  obtain ⟨hwf, hsize, -, -, hin, hout⟩ := hyFifoCreate_wf hcreate
  have hused : context.used = 0 := used_of_eq (hin.trans hout.symm)
  refine ⟨⟨hwf, ?_, ?_, List.prefix_rfl, fun i _ hi => ?_, nofun, nofun⟩, hsize⟩
  · change context.out.toNat = _
    rw [hout]
    rfl
  · change 0 = 0 + context.used
    rw [hused]
  · exact absurd hi (Nat.not_lt_zero i)

/-- **The bytes of two threads are one stream**: in every order of the accesses of one thread that
puts and one that takes, as long as each length chosen fits the buffer of its caller, no access is
out of bounds, what came out is the first of what went in, what is looked at is what comes next,
and never more than the size of the fifo is in it. -/
theorem threads_share_stream {config : HyFifoConfig} {contextOk bufOk : Bool}
    (hcreate : hyFifoCreate config contextOk bufOk = some context) {ops : List SideOp}
    (hops : EachStep sharedStep Ready (.start context) ops) :
    ∃ s outs, run sharedStep (.start context) ops = some (s, outs) ∧
      taken outs <+: accepted outs ∧
      (accepted outs).length ≤ (taken outs).length + (createSize config.size).toNat ∧
      ∀ pre bytes post, outs = pre ++ .peeked bytes :: post →
        taken pre ++ bytes <+: accepted pre := by
  obtain ⟨hstart, hsize⟩ := start_streams hcreate
  obtain ⟨s, outs, hrun, hsame, h, hpeeked⟩ := hstart.keeps_run hops
  refine ⟨s, outs, hrun, h.taken_prefix, ?_, hpeeked⟩
  have hused := h.wf.used_le
  have hlength := h.length
  rw [List.nil_append, List.nil_append] at hlength
  rw [hlength, ← hsize]
  have heq : s.context.size = context.size := hsame
  rw [heq] at hused
  omega

/-- Three bytes are put while a call that asks for two looks for bytes, and one more byte while it
copies them. -/
def threadOps : List SideOp :=
  [.callPut [1, 2, 3] 3, .put, .put, .callGet .get [0, 0, 0] 2, .get, .put, .put, .put, .get, .put,
    .get, .put, .callPut [4, 5] 2, .put, .put, .get, .put, .get, .put, .get, .usedLen, .get, .put,
    .get, .put, .callGet .peek [0] 1, .get, .get, .get, .get]

theorem threads_share_stream_three_bytes :
    ∃ s outs, run sharedStep (.start ⟨[0, 0, 0, 0], 4, 0, 0, 0⟩) threadOps = some (s, outs) ∧
      taken outs <+: accepted outs ∧
      (accepted outs).length ≤ (taken outs).length + (createSize 4).toNat ∧
      ∀ pre bytes post, outs = pre ++ .peeked bytes :: post →
        taken pre ++ bytes <+: accepted pre :=
  threads_share_stream (show hyFifoCreate ⟨4⟩ true true = some _ from rfl) (by decide +kernel)

/-! ## Lengths that do not fit -/

section Overrun

variable {kind : GetKind} {buf : List UInt8}

/-- A copy of more bytes than the buffer has room for leaves it. -/
theorem get_overruns {len : UInt32} {done : ℕ} (hget : s.get = .copy kind buf len done)
    (hdone : done ≤ buf.length) (hlen : buf.length < len.toNat) :
    run sharedStep s (List.replicate (buf.length - done + 1) .get) = none := by
  -- by the room that is left
  obtain ⟨n, hn⟩ : ∃ n, buf.length - done = n := ⟨_, rfl⟩
  induction n generalizing s buf done with
  | zero =>
    obtain rfl : done = buf.length := by omega
    rw [hn, Nat.zero_add, List.replicate_one, run, sharedStep, getStep, hget]
    dsimp only
    rw [if_pos hlen]
    cases hload : load s.context.buf _ 1 with
    | none => rfl
    | some byte =>
      have hbyte := length_of_load hload
      rw [Option.bind_eq_bind, Option.bind_some, store_eq_none (by omega)]
      rfl
  | succ n ih =>
    have hlt : done < buf.length := by omega
    rw [hn, List.replicate_succ, run, sharedStep, getStep, hget]
    dsimp only
    rw [if_pos (hlt.trans hlen)]
    cases hload : load s.context.buf _ 1 with
    | none => rfl
    | some byte =>
      obtain ⟨b, rfl⟩ := List.length_eq_one_iff.mp (length_of_load hload)
      rw [Option.bind_eq_bind, Option.bind_some, store_one hlt]
      have hrest : run sharedStep
          { s with get := .copy kind (buf.set done b) len (done + 1) }
          (List.replicate ((buf.set done b).length - (done + 1) + 1) .get) = none :=
        ih rfl (by rw [List.length_set]; omega) (by rwa [List.length_set])
          (by rw [List.length_set]; omega)
      rw [List.length_set, show buf.length - (done + 1) + 1 = n + 1 by omega] at hrest
      exact congrArg (Option.map _) hrest

/-- A copy of bytes there is room for ends. -/
theorem Streams.get_copies {len : UInt32} {done : ℕ} (h : Streams W R s)
    (hget : s.get = .copy kind buf len done) :
    (run sharedStep s (List.replicate (len.toNat - done + 1) .get)).isSome := by
  obtain ⟨n, hn⟩ : ∃ n, len.toNat - done = n := ⟨_, rfl⟩
  induction n generalizing s buf done W R with
  | zero =>
    obtain ⟨s', out, hs, -⟩ := h.get_step (by rw [hget]; nofun) (by rw [hget]; trivial)
    have hstep : sharedStep s .get = some (s', out) := hs
    rw [hn, Nat.zero_add, List.replicate_one, run, hstep]
    rfl
  | succ n ih =>
    obtain ⟨buf', hs, hkept⟩ := h.get_byte hget (by omega)
    have hstep : sharedStep s .get =
      some ({ s with get := .copy kind buf' len (done + 1) }, .silent) := hs
    have hrest := ih hkept.streams rfl (by omega)
    rw [show len.toNat - (done + 1) + 1 = n + 1 by omega] at hrest
    rw [hn, List.replicate_succ, run, hstep]
    simpa using hrest

/-- **When the second reading goes wrong**: the copy of a taking thread leaves the buffer of its
caller exactly when more bytes are there at the second reading of `in` than the buffer has room
for, although at the first reading there were not more than were asked for. -/
theorem overruns_iff {config : HyFifoConfig} {contextOk bufOk : Bool}
    (hcreate : hyFifoCreate config contextOk bufOk = some context) {ops : List SideOp}
    {outs : List StepOut} (hops : EachStep sharedStep Ready (.start context) ops)
    (hrun : run sharedStep (.start context) ops = some (s, outs))
    (hget : s.get = .choose kind buf) :
    run sharedStep s (List.replicate (s.context.used + 2) .get) = none ↔
      buf.length < s.context.used := by
  obtain ⟨s', outs', hrun', -, h, -⟩ := (start_streams hcreate).1.keeps_run hops
  cases hrun.symm.trans hrun'
  have hused := h.wf.used_le
  have hsize := h.wf.size_le
  have hlen : (s.context.in_ - s.context.out).toUInt32.toNat = s.context.used := by
    rw [UInt64.toNat_toUInt32]
    exact Nat.mod_eq_of_lt (by rw [← FifoContext.used]; omega)
  have hchoose : sharedStep s .get =
      some ({ s with get := .copy kind buf (s.context.in_ - s.context.out).toUInt32 0 },
        .silent) := by
    rw [sharedStep, getStep, hget]
  have hstep : run sharedStep s (List.replicate (s.context.used + 2) .get) =
      (run sharedStep { s with
        get := .copy kind buf (s.context.in_ - s.context.out).toUInt32 0 }
        (List.replicate (s.context.used + 1) .get)).map fun r => (r.1, .silent :: r.2) := by
    rw [List.replicate_succ, run, hchoose]
  rw [hstep, Option.map_eq_none_iff]
  constructor
  · intro hnone
    by_contra hfit
    have hready : Ready s .get := by
      rw [Ready, hget]
      exact ⟨GetPos.noConfusion, Nat.le_of_not_lt hfit⟩
    obtain ⟨s₁, out, hs, hkept⟩ := h.step hready
    cases hchoose.symm.trans hs
    have hsome := hkept.streams.get_copies rfl
    rw [hlen, Nat.sub_zero, hnone] at hsome
    cases hsome
  · intro hover
    have hnone := get_overruns (s := { s with
      get := .copy kind buf (s.context.in_ - s.context.out).toUInt32 0 }) rfl (Nat.zero_le _)
      (by rwa [hlen])
    have hsplit : List.replicate (s.context.used + 1) SideOp.get =
        List.replicate (buf.length - 0 + 1) .get ++
          List.replicate (s.context.used - buf.length) .get := by
      rw [List.replicate_append_replicate]
      congr 1
      omega
    rw [hsplit, Option.eq_none_iff_forall_ne_some]
    rintro ⟨s', outs'⟩ hsome
    obtain ⟨u, outs₁, -, hfirst, -⟩ := run_append_eq_some.mp hsome
    cases hnone.symm.trans hfirst

/-- A record of eight bytes is put, and a second one between the two readings of a call that asks
for eight bytes. -/
def twoRecordOps : List SideOp :=
  .callPut (List.replicate 8 1) 8 :: List.replicate 12 .put ++
    [.callGet .get (List.replicate 8 0) 8, .get] ++
    .callPut (List.replicate 8 2) 8 :: List.replicate 12 .put

theorem overruns_iff_two_records :
    ∃ s outs, run sharedStep (.start ⟨List.replicate 64 0, 64, 0, 0, 0⟩) twoRecordOps =
        some (s, outs) ∧ s.get = .choose .get (List.replicate 8 0) ∧ s.context.used = 16 ∧
      (run sharedStep s (List.replicate (s.context.used + 2) .get) = none ↔
        (List.replicate 8 (0 : UInt8)).length < s.context.used) := by
  have hsome : (run sharedStep (.start ⟨List.replicate 64 0, 64, 0, 0, 0⟩) twoRecordOps).any
      (fun r => r.1.get = .choose .get (List.replicate 8 0) ∧ r.1.context.used = 16) = true := by
    decide +kernel
  obtain ⟨⟨s, outs⟩, hrun, hs⟩ := (Option.any_eq_true _ _).mp hsome
  obtain ⟨hget, hused⟩ := of_decide_eq_true hs
  exact ⟨s, outs, hrun, hget, hused, overruns_iff
    (show hyFifoCreate ⟨48⟩ true true = some _ from rfl) (by decide +kernel) hrun hget⟩

end Overrun

end HyUtils.Fifo
