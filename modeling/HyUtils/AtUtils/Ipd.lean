import HyUtils.AtUtils.Steps
import HyUtils.Foundation.Decimal

/-!
# IPD frames

What the framework makes of the bytes of one frame `+IPD,<n>:` with its payload: the header is
parsed, and the payload is copied as far as it has come.

## Main definitions

* `IpdPayload`: 1 to 999 bytes
* `header`, `encode`, `stream`: a header, a frame, and frames one after another

## Main results

* `getIpdDataLen_header`: a whole header is parsed
* `handleIpdData_whole`, `handleIpdData_part`: what is copied with the header
* `handleIpdData_inside`: what is copied of the rest of the payload
* `readPass_whole`, `readPass_part`, `readPass_more`, `readPass_last`: what a pass makes of them
-/

namespace HyUtils.AtUtils

open Runs AtUtilsContext Decimal

variable {config : AtConfig} {context context' : AtUtilsContext config}

/-- A payload of 1 to 999 bytes. -/
abbrev IpdPayload : Type := { payload : List UInt8 // 0 < payload.length ∧ payload.length ≤ 999 }

/-- `"+IPD,"`. -/
def ipdTag : List UInt8 := [43, 73, 80, 68, 44]

/-- `"+IPD,<n>:"`. -/
def header (n : ℕ) : List UInt8 := ipdTag ++ decimal n ++ [58]

/-- The frame of a payload. -/
def encode (payload : IpdPayload) : List UInt8 := header payload.1.length ++ payload.1

/-- Frames one after another. -/
def stream (payloads : List IpdPayload) : List UInt8 := payloads.flatMap encode

@[simp] theorem stream_nil : stream [] = [] := rfl

theorem stream_cons (payload : IpdPayload) (payloads : List IpdPayload) :
    stream (payload :: payloads) =
      header payload.1.length ++ (payload.1 ++ stream payloads) := by
  rw [stream, List.flatMap_cons, encode, List.append_assoc]
  rfl

theorem length_header (n : ℕ) : (header n).length = 6 + (decimal n).length := by
  simp only [header, ipdTag, List.length_append, List.length_cons, List.length_nil]
  omega

/-- A header has 7 to 9 bytes. -/
theorem length_header_bounds {n : ℕ} (hpos : 0 < n) (hle : n ≤ 999) :
    7 ≤ (header n).length ∧ (header n).length ≤ 9 := by
  have hlow : ¬(decimal n).length ≤ 0 := by
    rw [length_decimal_le_iff]
    omega
  have hhigh : (decimal n).length ≤ 3 := by
    rw [length_decimal_le_iff]
    omega
  rw [length_header]
  omega

/-- The colon ends the header. -/
theorem colon_notMem_header {n : ℕ} : 58 ∉ ipdTag ++ decimal n := by
  rw [List.mem_append, not_or]
  refine ⟨by decide, fun hmem => ?_⟩
  exact ne_of_mem_decimal hmem (by decide) rfl

theorem header_append (n : ℕ) (bytes : List UInt8) :
    header n ++ bytes = 43 :: 73 :: 80 :: 68 :: 44 :: (decimal n ++ 58 :: bytes) := by
  rw [header, List.append_assoc, List.append_assoc]
  rfl

theorem scanField_header (n : ℕ) (bytes : List UInt8) :
    scanField (header n ++ bytes) = .ok (decimal n) := by
  have hdigits : ∀ c ∈ decimal n, decide (c ≠ 58 ∧ c ≠ 0) = true := fun c hc =>
    decide_eq_true ⟨ne_of_mem_decimal hc (by decide), ne_of_mem_decimal hc (by decide)⟩
  have hdrop : (header n ++ bytes).dropWhile (fun c => c ≠ 44 ∧ c ≠ 0) =
      44 :: (decimal n ++ 58 :: bytes) := by
    rw [header_append]
    rfl
  have hcolon : ¬(decimal n ++ 58 :: bytes).all (fun c => c ≠ 58 ∧ c ≠ 0) = true := by
    simp
  have hhead : ¬((header n ++ bytes).head? = some 44 ∨ (44 : UInt8) = 0) := by
    rw [header_append, List.head?_cons]
    decide
  unfold scanField
  rw [hdrop]
  dsimp only
  rw [if_neg hhead, if_neg hcolon, List.takeWhile_append_of_pos hdigits]
  simp

/-- **The header is parsed**: its length, and the length of the payload. -/
theorem getIpdDataLen_header {n len : ℕ} (bytes : List UInt8) (hlt : n < 2 ^ 16)
    (hlen : 8 ≤ len) :
    getIpdDataLen (header n ++ bytes) len = .ok ((header n).length, n) := by
  -- five digits at most fit `sscanf_buf`
  have hshort : ¬sscanfBufLen ≤ (decimal n).length := by
    have hdigits : (decimal n).length ≤ 5 := by
      rw [length_decimal_le_iff]
      omega
    change ¬8 ≤ _
    omega
  have hdigits : ((decimal n).all fun c => 48 ≤ c ∧ c ≤ 57) = true := by
    rw [List.all_eq_true]
    exact fun c hc => decide_eq_true (decimal_bounds hc)
  have hatoi : atoi (decimal n) % 2 ^ 16 = n := by
    rw [show atoi (decimal n) = n from value_decimal n]
    exact Nat.mod_eq_of_lt hlt
  rw [getIpdDataLen, if_pos hlen, scanField_header]
  change (if sscanfBufLen ≤ (decimal n).length then _ else _) = _
  rw [if_neg hshort, if_pos hdigits, hatoi, length_header]

theorem getIpdDataLen_padded {n len : ℕ} {data : List UInt8} (hlt : n < 2 ^ 16)
    (hlen : 8 ≤ len) :
    getIpdDataLen (padded (header n ++ data)) len = .ok ((header n).length, n) := by
  rw [padded, List.append_assoc]
  exact getIpdDataLen_header _ hlt hlen

/-- A copy from the buffer of bytes that were peeked. -/
theorem memcpy_padded {dst xs ys zs : List UInt8} {doff : ℕ} :
    Region.memcpy dst doff (padded (xs ++ (ys ++ zs))) xs.length ys.length =
      Region.store dst doff ys := by
  have hfit : xs.length + ys.length ≤ (padded (xs ++ (ys ++ zs))).length := by
    rw [padded, List.length_append, List.length_append, List.length_append]
    omega
  rw [Region.memcpy_eq_store hfit, padded, List.append_assoc, List.drop_left, List.append_assoc,
    List.take_left]

/-- A header's own bounds let it pass for a header. -/
theorem header_fits {n : ℕ} (hpos : 0 < n) (hle : n ≤ 999) :
    ¬(frameIpdLenMax ≤ (header n).length ∨ 1024 < n ∨ n = 0) := by
  change ¬(10 ≤ _ ∨ _)
  have hbounds := length_header_bounds hpos hle
  omega

/-- A header whose payload has come is taken with it. -/
theorem handleIpdData_whole {payload bytes : List UInt8} (hunion : context.bufUnion = none)
    (hpos : 0 < payload.length) (hle : payload.length ≤ 999)
    (hlen : 8 ≤ (header payload.length ++ (payload ++ bytes)).length) :
    context.handleIpdData (padded (header payload.length ++ (payload ++ bytes)))
        (header payload.length ++ (payload ++ bytes)).length =
      .ok ({ context with
        bufUnion := some payload
        offsetLen := (header payload.length).length + payload.length }, true) := by
  have hwhole : payload.length + (header payload.length).length ≤
      (header payload.length ++ (payload ++ bytes)).length := by
    simp only [List.length_append]
    omega
  have hcopy : Region.memcpy (List.replicate payload.length 0) 0
      (padded (header payload.length ++ (payload ++ bytes))) (header payload.length).length
      payload.length = some payload := by
    rw [memcpy_padded, Region.store_start (by simp)]
    simp
  have hlt : payload.length < 2 ^ 16 := by omega
  simp only [handleIpdData, hunion, getIpdDataLen_padded hlt hlen]
  -- the header passes, and the payload lies within what was peeked
  change (if _ then _ else if _ then _ else _) = _
  rw [if_neg (header_fits hpos hle), if_pos hwhole, hcopy]
  rfl

/-- Of a payload that has come in part the rest is waited for. -/
theorem handleIpdData_part {n : ℕ} {data : List UInt8} (hunion : context.bufUnion = none)
    (hpos : 0 < n) (hle : n ≤ 999) (hlen : 8 ≤ (header n ++ data).length)
    (hpart : data.length < n) :
    context.handleIpdData (padded (header n ++ data)) (header n ++ data).length =
      .ok ({ context with
        bufUnion := some (data ++ List.replicate (n - data.length) 0)
        frameSum := context.frameSum + data.length
        offsetLen := (header n ++ data).length
        parsingFlag := true }, false) := by
  have hpartial : ¬n + (header n).length ≤ (header n ++ data).length := by
    rw [List.length_append]
    omega
  have hheader : ¬(header n ++ data).length < (header n).length := by
    rw [List.length_append]
    omega
  have hcnt : (header n ++ data).length - (header n).length = data.length := by
    rw [List.length_append, Nat.add_sub_cancel_left]
  have hcopy : Region.memcpy (List.replicate n 0) 0 (padded (header n ++ data)) (header n).length
      data.length = some (data ++ List.replicate (n - data.length) 0) := by
    have h := @memcpy_padded (List.replicate n 0) (header n) data [] 0
    rw [List.append_nil, Region.store_start (by simpa using hpart.le)] at h
    simpa using h
  have hlt : n < 2 ^ 16 := by omega
  simp only [handleIpdData, hunion, getIpdDataLen_padded hlt hlen]
  -- the header passes, and the payload does not lie within what was peeked
  change (if _ then _ else if _ then _ else if _ then _ else _) = _
  rw [if_neg (header_fits hpos hle), if_neg hpartial, if_neg hheader, hcnt, hcopy]
  rfl

/-- **More of a payload**: it is put after what has come before, and the frame is complete when
nothing lacks. -/
theorem handleIpdData_inside {xs ys junk : List UInt8}
    (hunion : context.bufUnion = some (xs ++ junk)) (hsum : context.frameSum = xs.length)
    (hparsing : context.parsingFlag = true) (hle : ys.length ≤ junk.length) :
    context.handleIpdData (padded ys) ys.length =
      .ok ({ context with
          bufUnion := some (xs ++ ys ++ junk.drop ys.length)
          frameSum := xs.length + ys.length
          offsetLen := ys.length },
        decide (ys.length = junk.length)) := by
  have hcopy : Region.memcpy (xs ++ junk) context.frameSum (padded ys) 0 ys.length =
      some (xs ++ ys ++ junk.drop ys.length) := by
    rw [hsum, ← Region.store_after rfl hle]
    have h := @memcpy_padded (xs ++ junk) [] ys [] xs.length
    rwa [List.append_nil] at h
  have hlength : xs.length + ys.length = (xs ++ ys ++ junk.drop ys.length).length ↔
      ys.length = junk.length := by
    simp only [List.length_append, List.length_drop]
    omega
  simp only [handleIpdData, hunion, hcopy]
  change (if _ then _ else _) = _
  rw [hsum]
  by_cases hlast : ys.length = junk.length
  · rw [if_pos (hlength.mpr hlast), decide_eq_true hlast]
  · rw [if_neg (fun h => hlast (hlength.mp h)), decide_eq_false hlast, ← hparsing]

/-! ## A pass over a frame -/

/-- The payload has come with its header: it is handed over. -/
theorem readPass_whole {payload bytes : List UInt8} (out : Report)
    (hstate : context.state = .readIpdData) (hparsing : context.parsingFlag = false)
    (hunion : context.bufUnion = none) (hpos : 0 < payload.length) (hle : payload.length ≤ 999)
    (hpeek : context.peek = header payload.length ++ (payload ++ bytes))
    (hlen : 8 ≤ (header payload.length ++ (payload ++ bytes)).length) :
    context.readPass out = .ok ({ context with
        fifo := context.fifo.get ((header payload.length).length + payload.length)
        bufUnion := none
        frameSum := 0
        offsetLen := 0
        state := .idle
        parsingFlag := false }, handleFrame config (.ipd payload) out) := by
  have hipd := @handleIpdData_whole _ context payload bytes hunion hpos hle hlen
  have hmoved : 0 < (header payload.length).length + payload.length := by omega
  rw [readPass, resume_of_not_parsing hparsing, hpeek]
  simp only [readSwitch, hstate, readIpd, hipd]
  change Except.ok (updateOut _ (decide (0 < _ + _)), _) = _
  rw [decide_eq_true hmoved]
  rfl

/-- The payload has come in part: what has come of it is taken. -/
theorem readPass_part {n : ℕ} {bytes : List UInt8} (out : Report)
    (hstate : context.state = .readIpdData) (hparsing : context.parsingFlag = false)
    (hunion : context.bufUnion = none) (hsum : context.frameSum = 0) (hle : n ≤ 999)
    (hpeek : context.peek = header n ++ bytes) (hlen : 8 ≤ (header n ++ bytes).length)
    (hpart : bytes.length < n) :
    context.readPass out = .ok ({ context with
        fifo := context.fifo.get (header n ++ bytes).length
        bufUnion := some (bytes ++ List.replicate (n - bytes.length) 0)
        frameSum := bytes.length
        offsetLen := 0
        state := .readIpdData
        parsingFlag := true }, out) := by
  have hipd := @handleIpdData_part _ context n bytes hunion (by omega) hle hlen hpart
  have hmoved : 0 < (header n ++ bytes).length := by omega
  rw [hsum, Nat.zero_add] at hipd
  rw [readPass, resume_of_not_parsing hparsing, hpeek]
  simp only [readSwitch, hstate, readIpd, hipd]
  change Except.ok (updateOut _ (decide (0 < (header n ++ bytes).length)), _) = _
  rw [decide_eq_true hmoved]
  rfl

section

variable {got bytes junk : List UInt8} (out : Report)
  (hunion : context.bufUnion = some (got ++ junk)) (hsum : context.frameSum = got.length)
  (hparsing : context.parsingFlag = true) (hpeek : context.peek = bytes) (hne : bytes ≠ [])

include hunion hsum hparsing hpeek hne

/-- The last part of a payload: it is handed over. -/
theorem readPass_last (hlast : bytes.length = junk.length) :
    context.readPass out = .ok ({ context with
        fifo := context.fifo.get bytes.length
        bufUnion := none
        frameSum := 0
        offsetLen := 0
        state := .idle
        parsingFlag := false }, handleFrame config (.ipd (got ++ bytes)) out) := by
  have hipd := @handleIpdData_inside _ { context with state := .readIpdData } got bytes junk hunion
    hsum hparsing hlast.le
  have hmoved : 0 < bytes.length := List.length_pos_iff.mpr hne
  rw [decide_eq_true hlast, List.drop_of_length_le hlast.ge, List.append_nil] at hipd
  rw [readPass, hpeek, resume_of_parsing hparsing]
  simp only [readSwitch, readIpd, hipd]
  change Except.ok (updateOut _ (decide (0 < bytes.length)), _) = _
  rw [decide_eq_true hmoved]
  rfl

/-- More of a payload, and not the last part of it. -/
theorem readPass_more (hmore : bytes.length < junk.length) :
    context.readPass out = .ok ({ context with
        fifo := context.fifo.get bytes.length
        bufUnion := some (got ++ bytes ++ junk.drop bytes.length)
        frameSum := got.length + bytes.length
        offsetLen := 0
        state := .readIpdData }, out) := by
  have hipd := @handleIpdData_inside _ { context with state := .readIpdData } got bytes junk hunion
    hsum hparsing hmore.le
  have hmoved : 0 < bytes.length := List.length_pos_iff.mpr hne
  rw [decide_eq_false hmore.ne] at hipd
  rw [readPass, hpeek, resume_of_parsing hparsing]
  simp only [readSwitch, readIpd, hipd]
  change Except.ok (updateOut _ (decide (0 < bytes.length)), _) = _
  rw [decide_eq_true hmoved]
  rfl

end

end HyUtils.AtUtils
