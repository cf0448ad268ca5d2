import HyUtils.Fifo.Stream

/-!
# Two threads with care

What the two threads of a fifo may rely on: with buffers that have room for the whole fifo nothing
can go wrong with a length that is read twice, and when their updates of `use_cnt` do not overlap,
the used length is right between calls.

## Main definitions

* `Roomy`: the buffers have room for the whole fifo
* `Apart`: the updates of `use_cnt` do not overlap

## Main results

* `roomy_threads_share_stream`: with such buffers the bytes are one stream in every order
* `useCnt_exact`: with such updates the used length is the number of bytes that are there
-/

namespace HyUtils.Fifo

open Runs

variable {context : FifoContext} {s s' : SharedFifo} {out : StepOut} {n : ℕ}

/-! ## Buffers with room for the whole fifo -/

/-- The buffer of the call has room for `n` bytes. -/
def PutPos.HasRoom (n : ℕ) : PutPos → Prop
  | .compare buf _ | .choose buf => n ≤ buf.length
  | _ => True

def GetPos.HasRoom (n : ℕ) : GetPos → Prop
  | .compare _ buf _ | .choose _ buf => n ≤ buf.length
  | _ => True

/-- A thread calls a function when it is in none, with a buffer that has room for the whole fifo,
and goes on in one. -/
def Roomy (s : SharedFifo) : SideOp → Prop
  | .callPut buf _ => s.put = .idle ∧ s.context.size.toNat ≤ buf.length
  | .put => s.put ≠ .idle
  | .callGet kind buf _ =>
    s.get = .idle ∧ s.context.size.toNat ≤ if kind = .updateOut then 1024 else buf.length
  | .get => s.get ≠ .idle
  | .usedLen => True

instance Roomy.decidable (s : SharedFifo) : ∀ op, Decidable (Roomy s op)
  | .callPut .. => inferInstanceAs (Decidable (_ ∧ _))
  | .put => inferInstanceAs (Decidable (s.put ≠ .idle))
  | .callGet .. => inferInstanceAs (Decidable (_ ∧ _))
  | .get => inferInstanceAs (Decidable (s.get ≠ .idle))
  | .usedLen => inferInstanceAs (Decidable True)

theorem putStep_hasRoom (hroom : s.put.HasRoom n) (hs : putStep s = some (s', out)) :
    s'.put.HasRoom n ∧ s'.get = s.get := by
  rw [putStep] at hs
  cases hput : s.put with
  | idle =>
    rw [hput] at hs
    cases hs
  | compare buf len =>
    rw [hput] at hs hroom
    dsimp only at hs
    split_ifs at hs
    · cases hs
      exact ⟨trivial, rfl⟩
    · cases hs
      exact ⟨hroom, rfl⟩
  | choose buf =>
    rw [hput] at hs
    cases hs
    exact ⟨trivial, rfl⟩
  | copy buf len done =>
    rw [hput] at hs
    dsimp only at hs
    split_ifs at hs
    · obtain ⟨byte, -, hs⟩ := Option.bind_eq_some_iff.mp hs
      obtain ⟨ring, -, hs⟩ := Option.bind_eq_some_iff.mp hs
      cases hs
      exact ⟨trivial, rfl⟩
    · cases hs
      exact ⟨trivial, rfl⟩
  | loadUseCnt len =>
    rw [hput] at hs
    cases hs
    exact ⟨trivial, rfl⟩
  | storeUseCnt len useCnt =>
    rw [hput] at hs
    cases hs
    exact ⟨trivial, rfl⟩

theorem getStep_hasRoom (hroom : s.get.HasRoom n) (hs : getStep s = some (s', out)) :
    s'.get.HasRoom n ∧ s'.put = s.put := by
  rw [getStep] at hs
  cases hget : s.get with
  | idle =>
    rw [hget] at hs
    cases hs
  | compare kind buf len =>
    rw [hget] at hs hroom
    dsimp only at hs
    split_ifs at hs
    · cases hs
      exact ⟨trivial, rfl⟩
    · cases hs
      exact ⟨hroom, rfl⟩
  | choose kind buf =>
    rw [hget] at hs
    cases hs
    exact ⟨trivial, rfl⟩
  | copy kind buf len done =>
    rw [hget] at hs
    dsimp only at hs
    split_ifs at hs
    · obtain ⟨byte, -, hs⟩ := Option.bind_eq_some_iff.mp hs
      obtain ⟨buf', -, hs⟩ := Option.bind_eq_some_iff.mp hs
      cases hs
      exact ⟨trivial, rfl⟩
    · cases kind <;> cases hs <;> exact ⟨trivial, rfl⟩
  | loadUseCnt len =>
    rw [hget] at hs
    cases hs
    exact ⟨trivial, rfl⟩
  | storeUseCnt len useCnt =>
    rw [hget] at hs
    cases hs
    exact ⟨trivial, rfl⟩

theorem startGet_hasRoom {kind : GetKind} {buf : List UInt8} (len : UInt64)
    (h : n ≤ if kind = .updateOut then 1024 else buf.length) :
    (startGet kind buf len).HasRoom n := by
  unfold startGet
  split_ifs
  · trivial
  · cases kind with
    | get => simpa [GetPos.HasRoom] using h
    | peek => simpa [GetPos.HasRoom] using h
    | updateOut =>
      rw [if_pos rfl] at h
      change n ≤ (List.replicate 1024 0).length
      rwa [List.length_replicate]

/-- With room for the whole fifo every length fits. -/
theorem Roomy.ready (hwf : s.context.Wf) (hput : s.put.HasRoom s.context.size.toNat)
    (hget : s.get.HasRoom s.context.size.toNat) {op : SideOp} (hop : Roomy s op) :
    Ready s op := by
  have hu := hwf.used_le
  cases op with
  | callPut buf len => exact hop.1
  | callGet kind buf len => exact hop.1
  | usedLen => trivial
  | put =>
    refine ⟨hop, ?_⟩
    cases hpos : s.put with
    | compare buf len =>
      rw [hpos] at hput
      intro hlen
      have hlt := UInt64.lt_iff_toNat_lt.mp hlen
      rw [hwf.toNat_free] at hlt
      change s.context.size.toNat ≤ buf.length at hput
      omega
    | choose buf =>
      rw [hpos] at hput
      change (_ : ℕ) ≤ _
      rw [hwf.toNat_free]
      exact (Nat.sub_le _ _).trans hput
    | idle | copy | loadUseCnt | storeUseCnt => trivial
  | get =>
    refine ⟨hop, ?_⟩
    cases hpos : s.get with
    | compare kind buf len =>
      rw [hpos] at hget
      intro hlen
      have hlt := UInt64.lt_iff_toNat_lt.mp hlen
      rw [UInt32.toNat_toUInt64] at hlt
      exact (hlt.le.trans hu).trans hget
    | choose kind buf =>
      rw [hpos] at hget
      exact hu.trans hget
    | idle | copy | loadUseCnt | storeUseCnt => trivial

/-- What the steps of careful threads keep. -/
structure Careful (s : SharedFifo) : Prop where
  streams : ∃ W R, Streams W R s
  put : s.put.HasRoom s.context.size.toNat
  get : s.get.HasRoom s.context.size.toNat

theorem Careful.ready (h : Careful s) {op : SideOp} (hop : Roomy s op) : Ready s op := by
  obtain ⟨W, R, hstreams⟩ := h.streams
  exact Roomy.ready hstreams.wf h.put h.get hop

theorem Careful.step (h : Careful s) {op : SideOp} (hop : Roomy s op)
    (hs : sharedStep s op = some (s', out)) : Careful s' := by
  obtain ⟨W, R, hstreams⟩ := h.streams
  obtain ⟨s₁, out₁, hs₁, hkept⟩ := hstreams.step (h.ready hop)
  cases hs₁.symm.trans hs
  have hsize := hkept.size
  refine ⟨⟨_, _, hkept.streams⟩, ?_, ?_⟩
  · rw [hsize]
    cases op with
    | callPut buf len =>
      rw [sharedStep, if_pos hop.1] at hs
      cases hs
      exact hop.2
    | put => exact (putStep_hasRoom h.put hs).1
    | callGet kind buf len =>
      rw [sharedStep, if_pos hop.1] at hs
      cases hs
      exact h.put
    | get =>
      rw [(getStep_hasRoom h.get hs).2]
      exact h.put
    | usedLen =>
      cases hs
      exact h.put
  · rw [hsize]
    cases op with
    | callPut buf len =>
      rw [sharedStep, if_pos hop.1] at hs
      cases hs
      exact h.get
    | put =>
      rw [(putStep_hasRoom h.put hs).2]
      exact h.get
    | callGet kind buf len =>
      rw [sharedStep, if_pos hop.1] at hs
      cases hs
      exact startGet_hasRoom len hop.2
    | get => exact (getStep_hasRoom h.get hs).1
    | usedLen =>
      cases hs
      exact h.get

/-- **With buffers that have room for the whole fifo**, the bytes of two threads are one stream in
every order of their accesses, whatever they ask for. -/
theorem roomy_threads_share_stream {config : HyFifoConfig} {contextOk bufOk : Bool}
    (hcreate : hyFifoCreate config contextOk bufOk = some context) {ops : List SideOp}
    (hops : EachStep sharedStep Roomy (.start context) ops) :
    ∃ s outs, run sharedStep (.start context) ops = some (s, outs) ∧
      taken outs <+: accepted outs ∧
      (accepted outs).length ≤ (taken outs).length + (createSize config.size).toNat ∧
      ∀ pre bytes post, outs = pre ++ .peeked bytes :: post →
        taken pre ++ bytes <+: accepted pre := by
  have hstart : Careful (.start context) :=
    ⟨⟨[], [], (start_streams hcreate).1⟩, trivial, trivial⟩
  have hready : EachStep sharedStep Ready (.start context) ops :=
    eachStep_of_eachStep Careful (fun _ _ h hop => h.ready hop)
      (fun _ _ _ _ h hop hs => h.step hop hs) hstart hops
  exact threads_share_stream hcreate hready

theorem roomy_threads_share_stream_two :
    ∃ s outs, run sharedStep (.start ⟨[0, 0], 2, 0, 0, 0⟩)
        [.callGet .get [0, 0] 1, .get, .callPut [1, 2] 1, .put, .put, .put, .get, .get, .put] =
          some (s, outs) ∧
      taken outs <+: accepted outs ∧
      (accepted outs).length ≤ (taken outs).length + (createSize 2).toNat ∧
      ∀ pre bytes post, outs = pre ++ .peeked bytes :: post →
        taken pre ++ bytes <+: accepted pre :=
  roomy_threads_share_stream (show hyFifoCreate ⟨2⟩ true true = some _ from rfl)
    (by decide +kernel)

/-! ## The use count -/

/-- The bytes of a call that are in the fifo and not in `use_cnt` yet. -/
def PutPos.uncounted : PutPos → UInt64
  | .loadUseCnt len | .storeUseCnt len _ => len
  | _ => 0

/-- The bytes of a call that are out of the fifo and still in `use_cnt`. -/
def GetPos.uncounted : GetPos → UInt64
  | .loadUseCnt len | .storeUseCnt len _ => len.toUInt64
  | _ => 0

/-- The thread is about to read `use_cnt` to update it. -/
def PutPos.reads : PutPos → Bool
  | .loadUseCnt _ => true
  | _ => false

def GetPos.reads : GetPos → Bool
  | .loadUseCnt _ => true
  | _ => false

/-- The thread has read `use_cnt` and not written it yet. -/
def PutPos.updates : PutPos → Bool
  | .storeUseCnt .. => true
  | _ => false

def GetPos.updates : GetPos → Bool
  | .storeUseCnt .. => true
  | _ => false

/-- The call is one of `HyFifoUpdateOut`, which leaves `use_cnt` as it is. -/
def GetPos.Discards : GetPos → Prop
  | .compare kind .. | .choose kind _ | .copy kind .. => kind = .updateOut
  | _ => False

/-- No thread reads `use_cnt` to update it between the other's reading and writing, and nothing is
discarded. -/
def Apart (s : SharedFifo) : SideOp → Prop
  | .put => Ready s .put ∧ (s.put.reads = true → s.get.updates = false)
  | .get => Ready s .get ∧ (s.get.reads = true → s.put.updates = false)
  | .callGet kind buf len => Ready s (.callGet kind buf len) ∧ kind ≠ .updateOut
  | op => Ready s op

instance Apart.decidable (s : SharedFifo) : ∀ op, Decidable (Apart s op)
  | .put => inferInstanceAs (Decidable (_ ∧ (_ → _)))
  | .get => inferInstanceAs (Decidable (_ ∧ (_ → _)))
  | .callGet kind buf len => inferInstanceAs (Decidable (Ready s (.callGet kind buf len) ∧ _))
  | .callPut buf len => inferInstanceAs (Decidable (Ready s (.callPut buf len)))
  | .usedLen => inferInstanceAs (Decidable (Ready s .usedLen))

theorem Apart.ready {op : SideOp} (h : Apart s op) : Ready s op := by
  cases op with
  | put | get | callGet => exact h.1
  | callPut | usedLen => exact h

/-- `use_cnt` is right up to the bytes that are not counted yet. -/
structure Counted (s : SharedFifo) : Prop where
  useCnt : s.context.useCnt + s.put.uncounted =
    s.context.in_ - s.context.out + s.get.uncounted
  put : ∀ {len useCnt}, s.put = .storeUseCnt len useCnt →
    useCnt = s.context.useCnt ∧ s.get.updates = false
  get : ∀ {len useCnt}, s.get = .storeUseCnt len useCnt →
    useCnt = s.context.useCnt ∧ s.put.updates = false
  kept : ¬ s.get.Discards

/-- A step within a call of `HyFifoPut` that touches neither a cursor nor `use_cnt`. -/
theorem Counted.setPut (h : Counted s) {pos : PutPos} {ring : List UInt8}
    (hsame : pos.uncounted = s.put.uncounted) (hpos : pos.updates = false) :
    Counted { s with context := { s.context with buf := ring }, put := pos } where
  useCnt := by
    change s.context.useCnt + pos.uncounted = _
    rw [hsame]
    exact h.useCnt
  put heq := by
    change pos = _ at heq
    rw [heq] at hpos
    cases hpos
  get heq := ⟨(h.get heq).1, hpos⟩
  kept := h.kept

theorem Counted.setGet (h : Counted s) {pos : GetPos} (hsame : pos.uncounted = s.get.uncounted)
    (hpos : pos.updates = false) (hkept : ¬ pos.Discards) : Counted { s with get := pos } where
  useCnt := by
    change _ = _ + pos.uncounted
    rw [hsame]
    exact h.useCnt
  put heq := ⟨(h.put heq).1, hpos⟩
  get heq := by
    change pos = _ at heq
    rw [heq] at hpos
    cases hpos
  kept := hkept

theorem Counted.put_step (h : Counted s) (hapart : Apart s .put)
    (hs : putStep s = some (s', out)) : Counted s' := by
  have hcount := h.useCnt
  rw [putStep] at hs
  cases hput : s.put with
  | idle =>
    rw [hput] at hs
    cases hs
  | compare buf len =>
    rw [hput] at hs
    dsimp only at hs
    split_ifs at hs <;> cases hs <;> exact h.setPut (by rw [hput]; rfl) rfl
  | choose buf =>
    rw [hput] at hs
    cases hs
    exact h.setPut (by rw [hput]; rfl) rfl
  | copy buf len done =>
    rw [hput] at hs hcount
    dsimp only at hs
    split_ifs at hs
    · obtain ⟨byte, -, hs⟩ := Option.bind_eq_some_iff.mp hs
      obtain ⟨ring, -, hs⟩ := Option.bind_eq_some_iff.mp hs
      cases hs
      exact h.setPut (by rw [hput]; rfl) rfl
    · -- the bytes are in, and not counted
      cases hs
      refine ⟨?_, ?_, fun heq => ⟨(h.get heq).1, rfl⟩, h.kept⟩
      · simp only [PutPos.uncounted] at hcount ⊢
        grind
      · rintro _ _ ⟨⟩
  | loadUseCnt len =>
    rw [hput] at hs hcount
    cases hs
    have hother : s.get.updates = false := hapart.2 (by rw [hput]; rfl)
    refine ⟨hcount, ?_, fun heq => ?_, h.kept⟩
    · rintro _ _ ⟨⟩
      exact ⟨rfl, hother⟩
    · change s.get = _ at heq
      rw [heq] at hother
      cases hother
  | storeUseCnt len useCnt =>
    obtain ⟨rfl, hother⟩ := h.put hput
    rw [hput] at hs hcount
    cases hs
    refine ⟨?_, ?_, fun heq => ?_, h.kept⟩
    · simp only [PutPos.uncounted] at hcount ⊢
      grind
    · rintro _ _ ⟨⟩
    · change s.get = _ at heq
      rw [heq] at hother
      cases hother

theorem Counted.get_step (h : Counted s) (hapart : Apart s .get)
    (hs : getStep s = some (s', out)) : Counted s' := by
  have hcount := h.useCnt
  have hkept := h.kept
  rw [getStep] at hs
  cases hget : s.get with
  | idle =>
    rw [hget] at hs
    cases hs
  | compare kind buf len =>
    rw [hget] at hs hkept
    dsimp only at hs
    split_ifs at hs <;> cases hs <;> exact h.setGet (by rw [hget]; rfl) rfl hkept
  | choose kind buf =>
    rw [hget] at hs hkept
    cases hs
    exact h.setGet (by rw [hget]; rfl) rfl hkept
  | copy kind buf len done =>
    rw [hget] at hs hcount hkept
    dsimp only at hs
    split_ifs at hs
    · obtain ⟨byte, -, hs⟩ := Option.bind_eq_some_iff.mp hs
      obtain ⟨buf', -, hs⟩ := Option.bind_eq_some_iff.mp hs
      cases hs
      exact h.setGet (by rw [hget]; rfl) rfl hkept
    · cases kind with
      | get =>
        -- the bytes are out, and still counted
        cases hs
        refine ⟨?_, fun heq => ⟨(h.put heq).1, rfl⟩, ?_, id⟩
        · simp only [GetPos.uncounted] at hcount ⊢
          grind
        · rintro _ _ ⟨⟩
      | peek =>
        cases hs
        exact h.setGet (by rw [hget]; rfl) rfl id
      | updateOut => exact absurd rfl hkept
  | loadUseCnt len =>
    rw [hget] at hs hcount
    cases hs
    have hother : s.put.updates = false := hapart.2 (by rw [hget]; rfl)
    refine ⟨hcount, fun heq => ?_, ?_, id⟩
    · change s.put = _ at heq
      rw [heq] at hother
      cases hother
    · rintro _ _ ⟨⟩
      exact ⟨rfl, hother⟩
  | storeUseCnt len useCnt =>
    obtain ⟨rfl, hother⟩ := h.get hget
    rw [hget] at hs hcount
    cases hs
    refine ⟨?_, fun heq => ?_, ?_, id⟩
    · simp only [GetPos.uncounted] at hcount ⊢
      grind
    · change s.put = _ at heq
      rw [heq] at hother
      cases hother
    · rintro _ _ ⟨⟩

/-- **One step** of threads that are apart. -/
theorem Counted.step (h : Counted s) {op : SideOp} (hop : Apart s op)
    (hs : sharedStep s op = some (s', out)) : Counted s' := by
  cases op with
  | put => exact h.put_step hop hs
  | get => exact h.get_step hop hs
  | usedLen =>
    cases hs
    exact h
  | callPut buf len =>
    have hidle : s.put = .idle := hop
    rw [sharedStep, if_pos hidle] at hs
    cases hs
    exact h.setPut (by rw [hidle]; rfl) rfl
  | callGet kind buf len =>
    have hidle : s.get = .idle := hop.1
    have hstart : (startGet kind buf len).uncounted = 0 ∧
        (startGet kind buf len).updates = false ∧ ¬ (startGet kind buf len).Discards := by
      unfold startGet
      split_ifs
      · exact ⟨rfl, rfl, id⟩
      · cases kind with
        | get | peek => exact ⟨rfl, rfl, GetKind.noConfusion⟩
        | updateOut => exact absurd rfl hop.2
    rw [sharedStep, if_pos hidle] at hs
    cases hs
    exact h.setGet (by rw [hidle]; exact hstart.1) hstart.2.1 hstart.2.2

/-- **The used length is right between calls**: in every order of the accesses in which the updates
of `use_cnt` do not overlap, whenever no thread is in a call, `use_cnt` is the number of bytes that
went in and have not come out. -/
theorem useCnt_exact {config : HyFifoConfig} {contextOk bufOk : Bool}
    (hcreate : hyFifoCreate config contextOk bufOk = some context) {ops : List SideOp}
    (hops : EachStep sharedStep Apart (.start context) ops) :
    ∃ s outs, run sharedStep (.start context) ops = some (s, outs) ∧
      (s.put = .idle → s.get = .idle →
        s.context.useCnt.toNat + (taken outs).length = (accepted outs).length) := by
  obtain ⟨-, -, -, huse, hin, hout⟩ := hyFifoCreate_wf hcreate
  have hstart : Counted (.start context) := by
    refine ⟨?_, nofun, nofun, id⟩
    change context.useCnt + 0 = context.in_ - context.out + 0
    rw [huse, hin, hout]
    rfl
  have hready : EachStep sharedStep Ready (.start context) ops :=
    eachStep_of_eachStep (fun _ => True) (fun _ _ _ hop => hop.ready)
      (fun _ _ _ _ _ _ _ => trivial) trivial hops
  obtain ⟨s, outs, hrun, -, hstreams, -⟩ := (start_streams hcreate).1.keeps_run hready
  refine ⟨s, outs, hrun, fun hput hget => ?_⟩
  have hcounted : Counted s :=
    run_invariant_of_eachStep (fun _ _ _ _ h hop hs => h.step hop hs) hstart hops hrun
  -- between calls nothing is left to count
  have huseCnt := hcounted.useCnt
  rw [hput, hget] at huseCnt
  have hused : s.context.useCnt.toNat = s.context.used := by
    have hplain : s.context.useCnt = s.context.in_ - s.context.out := by
      simpa [PutPos.uncounted, GetPos.uncounted] using huseCnt
    rw [hplain, FifoContext.used]
  have hlength := hstreams.length
  rw [List.nil_append, List.nil_append] at hlength
  omega

/-- Two bytes are put and one of them is taken, with the accesses to the cells in turn and the
updates of `use_cnt` one after the other. -/
def apartOps : List SideOp :=
  [.callPut [1, 2] 2, .put, .put, .put, .put, .callGet .get [0] 1, .put, .get, .get, .put, .get,
    .get, .get, .usedLen]

theorem useCnt_exact_two_bytes :
    ∃ s outs, run sharedStep (.start ⟨[0, 0, 0, 0], 4, 0, 0, 0⟩) apartOps = some (s, outs) ∧
      (s.put = .idle → s.get = .idle →
        s.context.useCnt.toNat + (taken outs).length = (accepted outs).length) :=
  useCnt_exact (show hyFifoCreate ⟨4⟩ true true = some _ from rfl) (by decide +kernel)

/-- The putting thread reads `use_cnt` before the other thread has written it. -/
example : (run sharedStep ⟨⟨[1, 2], 2, 1, 2, 1⟩, .loadUseCnt 1, .storeUseCnt 1 1⟩
    [.put, .get, .put]).map (fun r => (r.1.context.useCnt, r.1.context.used)) = some (2, 1) := by
  decide +kernel

end HyUtils.Fifo
