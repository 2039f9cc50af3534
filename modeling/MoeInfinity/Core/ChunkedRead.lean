import MoeInfinity.Core.DirectFileReader

/-! # Reads in chunks (`core/aio/reader.h`)

A read of the whole range is compared with one `pread` of it. The collector of `Read` stops at the
first short chunk, and leaves the requests behind it to the workers; the one of `ReadAsyncChunked`
never does, as nothing remains when it starts.

* `Good`: what has to hold of a call, so that its chunks are the range and none behind a short one
  is left.
* `Inv`: what holds in a run of such a call.
* `reads_correct_iff`: exactly when both functions do what one `pread` does;
  `readAsyncChunked_correct` says that one of them always does. -/

namespace MoeInfinity.Core.ChunkedRead

open MoeInfinity.Lib.Extents MoeInfinity.Lib.Runs MoeInfinity.Core.DirectFileReader

/-! ### Chunks -/

/-- The request for a chunk, where chunks have `B` bytes. -/
def chunk (B : ℕ) (call : Call) (i : ℕ) : Request where
  buffer := call.buffer + i * B
  offset := (call.offset + i * B) % 2 ^ 64
  size := min (call.size - i * B) B
  future := i

def chunks (B : ℕ) (call : Call) (k : ℕ) : List Request := (List.range k).map (chunk B call)

/-- How many requests a call submits. -/
def chunkCount (call : Call) : ℕ := if call.size ≤ kOptimalChunkSize then 1 else numChunks call.size

/-- How much of the range there is in the first chunks. -/
def totalRead (B : ℕ) (rd : Reader) (call : Call) (k : ℕ) : ℕ :=
  min (min (k * B) call.size) (rd.file.length - call.offset)

/-- The memory after one `pread` of the whole range. -/
def whole (rd : Reader) (call : Call) (before : ℕ → UInt8) : ℕ → UInt8 :=
  rd.fill before call.buffer call.offset call.size

/-- A call whose `n` chunks are its range; where `Read` collects them, those before the last are
full. -/
structure Good (B n : ℕ) (rd : Reader) (call : Call) : Prop where
  pos : 0 < B
  aligned : ∀ i < n,
    rd.AllAligned (chunk B call i).buffer (chunk B call i).size (chunk B call i).offset
  offset_lt : ∀ i < n, call.offset + i * B < 2 ^ 64
  le_size : ∀ i < n, i * B ≤ call.size
  all : min call.size (rd.file.length - call.offset) ≤ n * B
  size_le : 0 < n → call.size ≤ n * B
  full : call.fn = .read → ∀ i, i + 1 < n → call.offset + (i + 1) * B ≤ rd.file.length
  threads : 0 < n → 0 < rd.numThreads

section Chunks

variable {B n : ℕ} {rd : Reader} {call : Call} {before : ℕ → UInt8} {i k p : ℕ}

theorem chunk_buffer : (chunk B call i).buffer = call.buffer + i * B := rfl

theorem chunk_offset : (chunk B call i).offset = (call.offset + i * B) % 2 ^ 64 := rfl

theorem chunk_size : (chunk B call i).size = min (call.size - i * B) B := rfl

theorem length_bytes (rd : Reader) (offset size : ℕ) :
    (rd.bytes offset size).length = min size (rd.file.length - offset) := by
  unfold Reader.bytes
  rw [List.length_take, List.length_drop]

theorem getElem?_bytes {offset size q : ℕ} (hq : q < size) :
    (rd.bytes offset size)[q]? = rd.file[offset + q]? := by
  unfold Reader.bytes
  rw [List.getElem?_take_of_lt hq, List.getElem?_drop]

theorem Good.offset_chunk (h : Good B n rd call) (hi : i < n) :
    (chunk B call i).offset = call.offset + i * B :=
  Nat.mod_eq_of_lt (h.offset_lt i hi)

theorem Good.length_chunk (h : Good B n rd call) (hi : i < n) :
    (rd.bytes (chunk B call i).offset (chunk B call i).size).length =
      min (min (call.size - i * B) B) (rd.file.length - (call.offset + i * B)) := by
  rw [length_bytes, h.offset_chunk hi, chunk_size]

theorem Good.totalRead_succ (h : Good B n rd call) (hi : i < n) :
    totalRead B rd call (i + 1) =
      totalRead B rd call i + (rd.bytes (chunk B call i).offset (chunk B call i).size).length := by
  have hle := h.le_size i hi
  rw [h.length_chunk hi]
  unfold totalRead
  rw [Nat.succ_mul]
  omega

/-- **All chunks** are the range. -/
theorem Good.totalRead_all (h : Good B n rd call) :
    (totalRead B rd call n : ℤ) = rd.count call.offset call.size := by
  have hall := h.all
  unfold totalRead Reader.count
  rw [length_bytes]
  congr 1
  omega

theorem whole_of_covers (h : Covers call.buffer (rd.bytes call.offset call.size).length p) :
    rd.file[call.offset + (p - call.buffer)]? = some (whole rd call before p) := by
  have hq : p - call.buffer < (rd.bytes call.offset call.size).length := by
    have h1 := h.1
    have h2 := h.2
    omega
  have hlt : p - call.buffer < call.size := by
    rw [length_bytes] at hq
    omega
  unfold whole Reader.fill
  rw [writeAt_of_covers h, ← getElem?_bytes hlt, List.getElem?_eq_getElem hq]
  rfl

theorem whole_of_not_covers (h : ¬ Covers call.buffer (rd.bytes call.offset call.size).length p) :
    whole rd call before p = before p := writeAt_of_not_covers h

theorem mem_chunks {r : Request} : r ∈ chunks B call k ↔ ∃ i < k, chunk B call i = r := by
  simp [chunks]

theorem getElem?_chunks {j : ℕ} :
    (chunks B call k)[j]? = if j < k then some (chunk B call j) else none := by
  unfold chunks
  rw [List.getElem?_map]
  split
  · next h => rw [List.getElem?_range h]; rfl
  · next h => rw [List.getElem?_eq_none (by simpa using h)]; rfl

theorem chunks_succ : chunks B call (k + 1) = chunks B call k ++ [chunk B call k] := by
  simp [chunks, List.range_succ]

theorem length_chunks : (chunks B call k).length = k := by simp [chunks]

/-- **The chunks are parts** of the range. -/
theorem Good.parts (before : ℕ → UInt8) (h : Good B n rd call) (hk : k ≤ n) :
    Parts rd (whole rd call before) (chunks B call k) where
  future j r hj := by
    rw [getElem?_chunks] at hj
    split at hj
    · cases hj
      rfl
    · cases hj
  bytes r hr p hp := by
    obtain ⟨i, hi, rfl⟩ := mem_chunks.mp hr
    have hi : i < n := Nat.lt_of_lt_of_le hi hk
    have hle := h.le_size i hi
    have h1 := hp.1
    have h2 := hp.2
    rw [h.length_chunk hi] at h2
    rw [chunk_buffer] at h1 h2
    have hcov : Covers call.buffer (rd.bytes call.offset call.size).length p := by
      rw [length_bytes]
      exact ⟨by omega, by omega⟩
    rw [getElem?_bytes (by rw [chunk_buffer, chunk_size]; omega), h.offset_chunk hi, chunk_buffer,
      ← whole_of_covers hcov]
    congr 1
    omega

/-- Every byte that there is is in a chunk. -/
theorem Good.exists_chunk (h : Good B n rd call)
    (hp : Covers call.buffer (rd.bytes call.offset call.size).length p) :
    ∃ i < n,
      Covers (chunk B call i).buffer
        (rd.bytes (chunk B call i).offset (chunk B call i).size).length p := by
  have hall := h.all
  have h1 := hp.1
  have h2 := hp.2
  rw [length_bytes] at h2
  have hi : (p - call.buffer) / B < n := by
    rw [Nat.div_lt_iff_lt_mul h.pos]
    omega
  have hdiv := Nat.div_add_mod (p - call.buffer) B
  have hmod := Nat.mod_lt (p - call.buffer) h.pos
  have hle := h.le_size _ hi
  rw [Nat.mul_comm] at hdiv
  refine ⟨_, hi, ?_⟩
  rw [h.length_chunk hi, chunk_buffer]
  exact ⟨by omega, by omega⟩

end Chunks

/-! ### The invariant -/

/-- What holds in a run of a call with `n` chunks. -/
def Inv (B n : ℕ) (rd : Reader) (call : Call) (before : ℕ → UInt8)
    (s : State rd.numThreads) : Prop :=
  match s.caller with
  | .pread => call.fn = .read ∧ Serving rd before (whole rd call before) [] s
  | .single =>
    n = 1 ∧ call.size ≤ B ∧ call.offset < 2 ^ 64 ∧ Serving rd before (whole rd call before) [] s
  | .waiting => n = 1 ∧ Serving rd before (whole rd call before) (chunks B call n) s
  | .submitting i remaining currentOffset =>
    n = numChunks call.size ∧ i ≤ n ∧ remaining = call.size - i * B ∧
      (i < n → currentOffset = (call.offset + i * B) % 2 ^ 64) ∧
      Serving rd before (whole rd call before) (chunks B call i) s
  | .collecting i total remaining =>
    i ≤ n ∧ (0 < n → remaining = 0) ∧ total = totalRead B rd call i ∧
      (∀ j < i, s.futures[j]? ≠ some none) ∧
      Serving rd before (whole rd call before) (chunks B call n) s
  | .returned result =>
    result = rd.count call.offset call.size ∧ s.memory = whole rd call before ∧ s.Done

section Runs

variable {B n : ℕ} {rd : Reader} {call : Call} {before : ℕ → UInt8} {s s' : State rd.numThreads}

/-- A future that has a value keeps it. -/
theorem futures_of_setValue {w : Fin rd.numThreads} {j : ℕ} (h : s.setValue w = some s')
    (hj : s.futures[j]? ≠ some none) : s'.futures[j]? ≠ some none := by
  obtain ⟨r, result, -, rfl⟩ := setValue_eq_some h
  rw [setWorker_futures]
  by_cases hne : r.future = j
  · subst hne
    rw [List.getElem?_set_self']
    cases s.futures[r.future]? <;> simp
  · rwa [List.getElem?_set_ne hne]

/-- **The workers** keep what holds of the requests, and do not touch the caller. -/
theorem serving_worker {o : Step rd.numThreads} {requests : List Request} {memory : ℕ → UInt8}
    (ho : o ≠ .call) (hparts : Parts rd memory requests) (h : Serving rd before memory requests s)
    (hstep : step rd call s o = some s') :
    Serving rd before memory requests s' ∧ s'.caller = s.caller ∧
      ∀ j : ℕ, s.futures[j]? ≠ some none → s'.futures[j]? ≠ some none := by
  cases o with
  | call => exact absurd rfl ho
  | pop w =>
    refine ⟨h.pop hstep, ?_⟩
    obtain ⟨r, rest, -, -, rfl⟩ := pop_eq_some hstep
    exact ⟨rfl, fun _ hj => hj⟩
  | pread w =>
    refine ⟨h.serve hparts hstep, ?_⟩
    obtain ⟨r, -, rfl⟩ := serve_eq_some hstep
    exact ⟨rfl, fun _ hj => hj⟩
  | setValue w =>
    refine ⟨h.setValue hparts hstep, ?_, fun j hj => futures_of_setValue hstep hj⟩
    obtain ⟨r, result, -, rfl⟩ := setValue_eq_some hstep
    rfl

/-- When nothing is queued or being served, the workers wait. -/
theorem eq_call_of_done {o : Step rd.numThreads} (hdone : s.Done)
    (hstep : step rd call s o = some s') :
    o = .call := by
  cases o with
  | call => rfl
  | pop w =>
    obtain ⟨r, rest, -, hq, -⟩ := pop_eq_some hstep
    rw [hdone.1] at hq
    cases hq
  | pread w =>
    obtain ⟨r, hw, -⟩ := serve_eq_some hstep
    rw [hdone.2 w] at hw
    cases hw
  | setValue w =>
    obtain ⟨r, result, hw, -⟩ := setValue_eq_some hstep
    rw [hdone.2 w] at hw
    cases hw

theorem parts_nil {memory : ℕ → UInt8} : Parts rd memory [] where
  future j r h := by cases h
  bytes r h := by cases h

theorem inv_worker {o : Step rd.numThreads} (hgood : Good B n rd call) (ho : o ≠ .call)
    (h : Inv B n rd call before s) (hstep : step rd call s o = some s') :
    Inv B n rd call before s' := by
  unfold Inv at h ⊢
  cases hc : s.caller with
  | pread =>
    rw [hc] at h
    obtain ⟨hs', hcaller, -⟩ := serving_worker ho parts_nil h.2 hstep
    rw [hcaller, hc]
    exact ⟨h.1, hs'⟩
  | single =>
    rw [hc] at h
    obtain ⟨hn, hsize, hoffset, h⟩ := h
    obtain ⟨hs', hcaller, -⟩ := serving_worker ho parts_nil h hstep
    rw [hcaller, hc]
    exact ⟨hn, hsize, hoffset, hs'⟩
  | waiting =>
    rw [hc] at h
    obtain ⟨hs', hcaller, -⟩ := serving_worker ho (hgood.parts before (Nat.le_refl n)) h.2 hstep
    rw [hcaller, hc]
    exact ⟨h.1, hs'⟩
  | submitting i remaining currentOffset =>
    rw [hc] at h
    obtain ⟨hn, hi, hremaining, hoffset, h⟩ := h
    obtain ⟨hs', hcaller, -⟩ := serving_worker ho (hgood.parts before hi) h hstep
    rw [hcaller, hc]
    exact ⟨hn, hi, hremaining, hoffset, hs'⟩
  | collecting i total remaining =>
    rw [hc] at h
    obtain ⟨hi, hremaining, htotal, hvalues, h⟩ := h
    obtain ⟨hs', hcaller, hfutures⟩ :=
      serving_worker ho (hgood.parts before (Nat.le_refl n)) h hstep
    rw [hcaller, hc]
    exact ⟨hi, hremaining, htotal, fun j hj => hfutures j (hvalues j hj), hs'⟩
  | returned result =>
    rw [hc] at h
    exact absurd (eq_call_of_done h.2.2 hstep) ho

/-- **The end**: when all futures have values, the range has been read. -/
theorem Good.finish (hgood : Good B n rd call)
    (h : Serving rd before (whole rd call before) (chunks B call n) s)
    (hvalues : ∀ j < n, s.futures[j]? ≠ some none) : s.memory = whole rd call before ∧ s.Done := by
  have hall : ∀ j : ℕ, s.futures[j]? ≠ some none := by
    intro j
    by_cases hj : j < n
    · exact hvalues j hj
    · rw [List.getElem?_eq_none (by rw [h.length, length_chunks]; omega)]
      simp
  refine ⟨funext fun p => ?_, h.done hall⟩
  by_cases hp : Covers call.buffer (rd.bytes call.offset call.size).length p
  · obtain ⟨i, hi, hcov⟩ := hgood.exists_chunk hp
    refine h.read (chunk B call i) (mem_chunks.mpr ⟨i, hi, rfl⟩) (Or.inl ?_) p hcov
    have hlt : i < s.futures.length := by rw [h.length, length_chunks]; exact hi
    cases hf : s.futures[i] with
    | none => exact absurd (List.getElem?_eq_some_iff.mpr ⟨hlt, hf⟩) (hvalues i hi)
    | some result => exact ⟨result, List.getElem?_eq_some_iff.mpr ⟨hlt, hf⟩⟩
  · rcases h.unread p with hm | hm
    · rw [hm, whole_of_not_covers hp]
    · exact hm

theorem Good.chunk_zero (hsize : call.size ≤ B) (hoffset : call.offset < 2 ^ 64) :
    chunk B call 0 = ⟨call.buffer, call.offset, call.size, 0⟩ := by
  unfold chunk
  rw [Nat.zero_mul, Nat.add_zero, Nat.add_zero, Nat.sub_zero, Nat.mod_eq_of_lt hoffset,
    Nat.min_eq_left hsize]

/-- **A chunk is submitted.** -/
theorem Good.submit {i : ℕ} (hgood : Good B n rd call) (hi : i < n)
    (h : Serving rd before (whole rd call before) (chunks B call i) s) :
    Serving rd before (whole rd call before) (chunks B call (i + 1))
      (s.readAsync rd (chunk B call i).buffer (chunk B call i).offset (chunk B call i).size) := by
  have hparts := hgood.parts before hi
  rw [chunks_succ] at hparts ⊢
  have hchunk : chunk B call i =
      ⟨(chunk B call i).buffer, (chunk B call i).offset, (chunk B call i).size,
        (chunks B call i).length⟩ := by
    rw [length_chunks]
    rfl
  rw [hchunk] at hparts ⊢
  exact h.submit (hgood.aligned i hi) hparts

/-- The value of a chunk, when it has one. -/
theorem Good.value {i : ℕ} {result : ℤ} (hi : i < n)
    (h : Serving rd before (whole rd call before) (chunks B call n) s)
    (hf : s.futures[i]? = some (some result)) :
    result = rd.count (chunk B call i).offset (chunk B call i).size :=
  h.value i _ result (by rw [getElem?_chunks, if_pos hi]) hf

/-- **The test for the end**: it is met by the last chunk only. -/
theorem Good.last_of_atEnd {i remaining : ℕ} (hB : B = kOptimalChunkSize) (hgood : Good B n rd call)
    (hi : i < n) (hremaining : remaining = 0)
    (h : call.fn.AtEnd remaining (rd.count (chunk B call i).offset (chunk B call i).size)) :
    i + 1 = n := by
  by_contra hne
  have hlt : i + 1 < n := by omega
  subst hremaining
  cases hfn : call.fn with
  | read =>
    rw [hfn] at h
    have h : rd.count (chunk B call i).offset (chunk B call i).size < (kOptimalChunkSize : ℤ) := h
    have hfull := hgood.full hfn i hlt
    have hle := hgood.le_size (i + 1) hlt
    unfold Reader.count at h
    rw [hgood.length_chunk hi, ← hB] at h
    rw [Nat.succ_mul] at hfull hle
    omega
  | readAsyncChunked =>
    rw [hfn] at h
    have h : rd.count (chunk B call i).offset (chunk B call i).size <
        min (((0 : ℕ) : ℤ) + rd.count (chunk B call i).offset (chunk B call i).size)
          (kOptimalChunkSize : ℤ) := h
    rw [← hB] at h
    omega

theorem totalRead_zero : totalRead B rd call 0 = 0 := by
  unfold totalRead
  rw [Nat.zero_mul, Nat.zero_min, Nat.zero_min]

theorem Good.total_succ {i : ℕ} (hgood : Good B n rd call) (hi : i < n) :
    (totalRead B rd call (i + 1) : ℤ) =
      totalRead B rd call i + rd.count (chunk B call i).offset (chunk B call i).size := by
  rw [hgood.totalRead_succ hi, Nat.cast_add]
  rfl

/-- The caller reads the whole range itself. -/
theorem inv_pread (h : Serving rd before (whole rd call before) [] s) :
    Inv B n rd call before
      ({ s with memory := rd.fill s.memory call.buffer call.offset call.size }.setCaller
        (.returned (rd.count call.offset call.size))) := by
  refine ⟨rfl, funext fun p => ?_, h.done fun j => ?_⟩
  · by_cases hp : Covers call.buffer (rd.bytes call.offset call.size).length p
    · have hcell : ∀ memory : ℕ → UInt8, rd.fill memory call.buffer call.offset call.size p =
          ((rd.bytes call.offset call.size)[p - call.buffer]?).getD (memory p) :=
          fun memory => writeAt_of_covers hp
      have hlt : p - call.buffer < (rd.bytes call.offset call.size).length := by
        have h1 := hp.1
        have h2 := hp.2
        omega
      unfold whole
      rw [hcell before, List.getElem?_eq_getElem hlt]
      exact (hcell s.memory).trans (by rw [List.getElem?_eq_getElem hlt]; rfl)
    · have hm : s.memory p = whole rd call before p := by
        rcases h.unread p with hm | hm
        · rw [hm, whole_of_not_covers hp]
        · exact hm
      exact (writeAt_of_not_covers hp).trans hm
  · rw [List.getElem?_eq_none (by rw [h.length]; exact Nat.zero_le j)]
    simp

/-- The caller submits the chunks. -/
theorem inv_submitting {i remaining currentOffset : ℕ} (hB : B = kOptimalChunkSize)
    (hgood : Good B n rd call) (hc : s.caller = .submitting i remaining currentOffset)
    (h : Inv B n rd call before s) (hstep : s.callStep rd call = some s') :
    Inv B n rd call before s' := by
  unfold State.callStep at hstep
  unfold Inv at h
  rw [hc] at h hstep
  obtain ⟨hn, hi, hremaining, hoffset, h⟩ := h
  simp only at hstep
  rw [← hB, ← hn] at hstep
  by_cases hlt : i < n
  · rw [if_pos hlt] at hstep
    obtain rfl := Option.some.inj hstep
    have hsubmit := hgood.submit hlt h
    rw [chunk_buffer, chunk_size, chunk_offset, ← hremaining, ← hoffset hlt] at hsubmit
    refine ⟨hn, hlt, ?_, fun hlt' => ?_, hsubmit.setCaller _⟩
    · rw [Nat.succ_mul]
      omega
    · have hle := hgood.le_size (i + 1) hlt'
      rw [Nat.succ_mul] at hle ⊢
      have hfull : min remaining B = B := by omega
      rw [hfull, hoffset hlt, Nat.mod_add_mod, Nat.add_assoc]
  · rw [if_neg hlt] at hstep
    obtain rfl := Option.some.inj hstep
    obtain rfl : i = n := by omega
    refine ⟨Nat.zero_le _, fun hpos => ?_,
      by rw [totalRead_zero]; rfl, fun j hj => absurd hj (Nat.not_lt_zero j), h.setCaller _⟩
    have hle := hgood.size_le hpos
    omega

/-- The caller collects the results. -/
theorem inv_collecting {i remaining : ℕ} {total : ℤ} (hB : B = kOptimalChunkSize)
    (hgood : Good B n rd call) (hc : s.caller = .collecting i total remaining)
    (h : Inv B n rd call before s) (hstep : s.callStep rd call = some s') :
    Inv B n rd call before s' := by
  unfold State.callStep at hstep
  unfold Inv at h
  rw [hc] at h hstep
  obtain ⟨hi, hremaining, htotal, hvalues, h⟩ := h
  simp only at hstep
  have hlength : s.futures.length = n := by rw [h.length, length_chunks]
  rw [hlength] at hstep
  by_cases hlt : i < n
  · rw [if_pos hlt] at hstep
    split at hstep
    · next result hf =>
      have hresult := Good.value hlt h hf
      have hnext : ∀ j < i + 1, s.futures[j]? ≠ some none := fun j hj => by
        by_cases hji : j = i
        · rw [hji, hf]
          simp
        · exact hvalues j (by omega)
      have hsum : total + result = (totalRead B rd call (i + 1) : ℤ) := by
        rw [htotal, hresult, hgood.total_succ hlt]
      have hpos : ¬ result < 0 := by
        rw [hresult]
        exact Int.not_lt.mpr (Int.natCast_nonneg _)
      rw [if_neg hpos] at hstep
      split at hstep
      · next hend =>
        obtain rfl := Option.some.inj hstep
        rw [hresult] at hend
        have hlast := hgood.last_of_atEnd hB hlt (hremaining (by omega)) hend
        refine ⟨?_, hgood.finish (h.setCaller _) fun j hj => hnext j (by omega)⟩
        rw [hsum, hlast, hgood.totalRead_all]
      · obtain rfl := Option.some.inj hstep
        exact ⟨hlt, hremaining, hsum, hnext, h.setCaller _⟩
    · cases hstep
  · rw [if_neg hlt] at hstep
    obtain rfl := Option.some.inj hstep
    obtain rfl : i = n := by omega
    refine ⟨?_, hgood.finish (h.setCaller _) hvalues⟩
    rw [htotal, hgood.totalRead_all]

theorem inv_callStep (hB : B = kOptimalChunkSize) (hgood : Good B n rd call)
    (h : Inv B n rd call before s) (hstep : s.callStep rd call = some s') :
    Inv B n rd call before s' := by
  cases hc : s.caller with
  | pread =>
    unfold State.callStep at hstep
    unfold Inv at h
    rw [hc] at h hstep
    exact Option.some.inj hstep ▸ inv_pread h.2
  | single =>
    unfold State.callStep at hstep
    unfold Inv at h
    rw [hc] at h hstep
    obtain ⟨hn, hsize, hoffset, h⟩ := h
    obtain rfl := Option.some.inj hstep
    subst hn
    have hsubmit := hgood.submit Nat.one_pos h
    rw [Good.chunk_zero hsize hoffset] at hsubmit
    exact ⟨rfl, hsubmit.setCaller _⟩
  | waiting =>
    unfold State.callStep at hstep
    unfold Inv at h
    rw [hc] at h hstep
    obtain ⟨hn, h⟩ := h
    subst hn
    simp only at hstep
    split at hstep
    · next result hf =>
      obtain rfl := Option.some.inj hstep
      refine ⟨?_, hgood.finish (h.setCaller _) fun j hj => ?_⟩
      · rw [Good.value Nat.one_pos h hf, ← hgood.totalRead_all, hgood.total_succ Nat.one_pos,
          totalRead_zero]
        exact (Int.zero_add _).symm
      · rw [setCaller_futures, Nat.lt_one_iff.mp hj, hf]
        simp
    · cases hstep
  | submitting i remaining currentOffset => exact inv_submitting hB hgood hc h hstep
  | collecting i total remaining => exact inv_collecting hB hgood hc h hstep
  | returned result =>
    unfold State.callStep at hstep
    rw [hc] at hstep
    cases hstep

/-- **The invariant** is kept by every step. -/
theorem inv_step (hB : B = kOptimalChunkSize) (hgood : Good B n rd call) (s : State rd.numThreads)
    (o : Step rd.numThreads) (s' : State rd.numThreads) (h : Inv B n rd call before s)
    (hstep : step rd call s o = some s') : Inv B n rd call before s' := by
  by_cases ho : o = .call
  · subst ho
    exact inv_callStep hB hgood h hstep
  · exact inv_worker hgood ho h hstep

/-- **Progress**: until the call has returned, the caller or a worker can go on. -/
theorem exists_step (hgood : Good B n rd call) (h : Inv B n rd call before s)
    (hcaller : ∀ result, s.caller ≠ .returned result) : ∃ o s', step rd call s o = some s' := by
  have hcall : ∀ {s'}, s.callStep rd call = some s' → ∃ o s', step rd call s o = some s' :=
    fun {s'} hs' => ⟨.call, s', hs'⟩
  unfold Inv at h
  unfold State.callStep at hcall
  cases hc : s.caller with
  | pread =>
    rw [hc] at hcall
    exact hcall rfl
  | single =>
    rw [hc] at hcall
    exact hcall rfl
  | waiting =>
    rw [hc] at h hcall
    obtain ⟨hn, h⟩ := h
    have hlt : 0 < s.futures.length := by rw [h.length, length_chunks, hn]; exact Nat.one_pos
    cases hf : s.futures[0]? with
    | none => exact absurd hlt (Nat.not_lt.mpr (List.getElem?_eq_none_iff.mp hf))
    | some future =>
      cases future with
      | none => exact h.exists_step (hgood.threads (hn ▸ Nat.one_pos)) hf
      | some result =>
        simp only [hf] at hcall
        exact hcall rfl
  | submitting i remaining currentOffset =>
    rw [hc] at hcall
    simp only at hcall
    split at hcall
    · exact hcall rfl
    · exact hcall rfl
  | collecting i total remaining =>
    rw [hc] at h hcall
    simp only at hcall
    obtain ⟨-, -, -, -, h⟩ := h
    by_cases hi : i < s.futures.length
    · simp only [if_pos hi] at hcall
      cases hf : s.futures[i]? with
      | none => exact absurd hi (Nat.not_lt.mpr (List.getElem?_eq_none_iff.mp hf))
      | some future =>
        cases future with
        | none =>
          rw [h.length, length_chunks] at hi
          exact h.exists_step (hgood.threads (by omega)) hf
        | some result =>
          simp only [hf] at hcall
          split at hcall
          · exact hcall rfl
          · split at hcall
            · exact hcall rfl
            · exact hcall rfl
    · simp only [if_neg hi] at hcall
      exact hcall rfl
  | returned result => exact absurd hc (hcaller result)

theorem start_caller_pread (haligned : rd.AllAligned call.buffer call.size call.offset)
    (hsize : call.size ≤ kOptimalChunkSize) (hfn : call.fn = .read) :
    (State.start rd call before : State rd.numThreads).caller = .pread := by
  unfold State.start
  rw [if_pos haligned, if_pos hsize, hfn]

theorem start_caller_single (haligned : rd.AllAligned call.buffer call.size call.offset)
    (hsize : call.size ≤ kOptimalChunkSize) (hfn : call.fn = .readAsyncChunked) :
    (State.start rd call before : State rd.numThreads).caller = .single := by
  unfold State.start
  rw [if_pos haligned, if_pos hsize, hfn]

theorem start_caller_submitting (haligned : rd.AllAligned call.buffer call.size call.offset)
    (hsize : ¬ call.size ≤ kOptimalChunkSize) :
    (State.start rd call before : State rd.numThreads).caller =
    .submitting 0 call.size call.offset := by
  unfold State.start
  rw [if_pos haligned, if_neg hsize]

theorem inv_start (hB : B = kOptimalChunkSize)
    (haligned : rd.AllAligned call.buffer call.size call.offset) (hoffset : call.offset < 2 ^ 64) :
    Inv B (chunkCount call) rd call before (State.start rd call before) := by
  have hnil : Serving rd before (whole rd call before) []
      (State.start rd call before : State rd.numThreads) :=
    Serving.nil (s := State.start rd call before) (fun _ => rfl) rfl rfl
  unfold Inv chunkCount
  rw [← hB]
  by_cases hsize : call.size ≤ B
  · rw [if_pos hsize]
    cases hfn : call.fn with
    | read =>
      rw [start_caller_pread haligned (hB ▸ hsize) hfn]
      exact ⟨rfl, hnil⟩
    | readAsyncChunked =>
      rw [start_caller_single haligned (hB ▸ hsize) hfn]
      exact ⟨rfl, hsize, hoffset, hnil⟩
  · rw [if_neg hsize, start_caller_submitting haligned (hB ▸ hsize)]
    refine ⟨rfl, Nat.zero_le _, ?_, fun _ => ?_, hnil⟩
    · rw [Nat.zero_mul, Nat.sub_zero]
    · rw [Nat.zero_mul, Nat.add_zero, Nat.mod_eq_of_lt hoffset]

end Runs

/-! ### What a call has to do -/

/-- Every run of the call ends, and it does what one `pread` does; then nothing is queued or being
served. -/
structure Correct (rd : Reader) (call : Call) (before : ℕ → UInt8) : Prop where
  returned : ∀ os (s : State rd.numThreads) result,
    execEnabled (step rd call) (State.start rd call before) os = some s →
    s.caller = .returned result →
      result = rd.count call.offset call.size ∧
      s.memory = rd.fill before call.buffer call.offset call.size ∧ s.Done
  bounded : ∃ bound, ∀ os (s : State rd.numThreads),
    execEnabled (step rd call) (State.start rd call before) os = some s → os.length ≤ bound
  returns : ∀ os (s : State rd.numThreads),
    execEnabled (step rd call) (State.start rd call before) os = some s →
      (∀ o, step rd call s o = none) → ∃ result, s.caller = .returned result

section Good

variable {B n : ℕ} {rd : Reader} {call : Call} {before : ℕ → UInt8}

theorem correct_of_good (hgood : Good kOptimalChunkSize (chunkCount call) rd call)
    (haligned : rd.AllAligned call.buffer call.size call.offset) (hoffset : call.offset < 2 ^ 64) :
    Correct rd call before := by
  have hinv : ∀ {os : List (Step rd.numThreads)} {s : State rd.numThreads},
      execEnabled (step rd call) (State.start rd call before) os = some s →
        Inv kOptimalChunkSize (chunkCount call) rd call before s :=
    fun hrun => inv_execEnabled (inv_step rfl hgood) (inv_start rfl haligned hoffset) hrun
  refine ⟨fun os s result hrun hc => ?_,
    ⟨(State.start rd call before : State rd.numThreads).measure (numChunks call.size),
      fun os s hrun => ?_⟩,
    fun os s hrun hstuck => ?_⟩
  · have h := hinv hrun
    unfold Inv at h
    rw [hc] at h
    exact h
  · exact Nat.le_of_add_right_le (length_le_of_measure (fun _ _ _ hs => step_measure hs) hrun)
  · by_contra hne
    obtain ⟨o, s', hs'⟩ := exists_step hgood (hinv hrun) fun result hc => hne ⟨result, hc⟩
    rw [hstuck o] at hs'
    cases hs'

theorem lt_numChunks {size i : ℕ} (hB : B = kOptimalChunkSize) (hpos : 0 < B)
    (hsize : size + B ≤ 2 ^ 64) :
    i < numChunks size ↔ i * B < size := by
  unfold numChunks
  rw [← hB, Nat.mod_eq_of_lt (by omega), Nat.lt_iff_add_one_le, Nat.le_div_iff_mul_le hpos,
    Nat.succ_mul]
  omega

/-- The number of a chunk before the end of the range. -/
theorem lt_numChunks_iff {size i : ℕ} (hB : B = kOptimalChunkSize) (hpos : 0 < B)
    (hsize : size + B ≤ 2 ^ 64) (h0 : 0 < size) : i < numChunks size ↔ i ≤ (size - 1) / B := by
  rw [lt_numChunks hB hpos hsize, Nat.le_div_iff_mul_le hpos]
  omega

theorem allAligned_chunk {i : ℕ} (haligned : rd.AllAligned call.buffer call.size call.offset)
    (hdvd : rd.bufferAlignment ∣ B) (hword : rd.bufferAlignment ∣ 2 ^ 64) :
    rd.AllAligned (chunk B call i).buffer (chunk B call i).size (chunk B call i).offset := by
  obtain ⟨hbuffer, hsize, hoffset⟩ := haligned
  have hbuffer := Nat.dvd_of_mod_eq_zero hbuffer
  have hsize := Nat.dvd_of_mod_eq_zero hsize
  have hoffset := Nat.dvd_of_mod_eq_zero hoffset
  have hstart : rd.bufferAlignment ∣ i * B := Dvd.dvd.mul_left hdvd i
  refine ⟨Nat.mod_eq_zero_of_dvd (Nat.dvd_add hbuffer hstart), Nat.mod_eq_zero_of_dvd ?_,
    Nat.mod_eq_zero_of_dvd ((Nat.dvd_mod_iff hword).mpr (Nat.dvd_add hoffset hstart))⟩
  rw [chunk_size]
  rcases Nat.le_total (call.size - i * B) B with hle | hle
  · rw [Nat.min_eq_left hle]
    exact Nat.dvd_sub hsize hstart
  · rw [Nat.min_eq_right hle]
    exact hdvd

theorem good_of_le (haligned : rd.AllAligned call.buffer call.size call.offset)
    (hoffset : call.offset < 2 ^ 64) (hsize : call.size ≤ B) (hpos : 0 < B)
    (hthreads : 0 < rd.numThreads) : Good B 1 rd call where
  pos := hpos
  aligned i hi := by
    rw [Nat.lt_one_iff.mp hi, Good.chunk_zero hsize hoffset]
    exact haligned
  offset_lt i hi := by rwa [Nat.lt_one_iff.mp hi, Nat.zero_mul]
  le_size i hi := by
    rw [Nat.lt_one_iff.mp hi, Nat.zero_mul]
    exact Nat.zero_le _
  all := by omega
  size_le _ := by omega
  full _ i hi := by omega
  threads _ := hthreads

/-- The chunks of a large range that ends before the addresses do. -/
theorem good_of_lt (hB : B = kOptimalChunkSize)
    (haligned : rd.AllAligned call.buffer call.size call.offset) (hpos : 0 < B)
    (hlt : B < call.size) (hsize : call.size + B ≤ 2 ^ 64) (hdvd : rd.bufferAlignment ∣ B)
    (hword : rd.bufferAlignment ∣ 2 ^ 64) (hlast : call.offset + (call.size - 1) / B * B < 2 ^ 64)
    (hfull : call.fn = .read → call.offset + (call.size - 1) / B * B ≤ rd.file.length)
    (hthreads : 0 < rd.numThreads) : Good B (numChunks call.size) rd call := by
  have hindex : ∀ {i}, i < numChunks call.size → i * B ≤ (call.size - 1) / B * B := fun hi =>
    Nat.mul_le_mul_right B ((lt_numChunks_iff hB hpos hsize (by omega)).mp hi)
  have hcover : call.size ≤ numChunks call.size * B :=
    Nat.le_of_not_lt fun h => absurd ((lt_numChunks hB hpos hsize).mpr h) (Nat.lt_irrefl _)
  refine {
    pos := hpos, aligned := fun i _ => allAligned_chunk haligned hdvd hword
    offset_lt := fun i hi => Nat.lt_of_le_of_lt (Nat.add_le_add_left (hindex hi) _) hlast
    le_size := fun i hi => Nat.le_of_lt ((lt_numChunks hB hpos hsize).mp hi)
    all := Nat.le_trans (Nat.min_le_left _ _) hcover, size_le := fun _ => hcover,
    full := fun hfn i hi => ?_
    threads := fun _ => hthreads }
  exact Nat.le_trans (Nat.add_le_add_left (hindex hi) _) (hfull hfn)

/-- A size that is so large that the number of its chunks overflows. -/
theorem numChunks_eq_zero {size : ℕ} (hB : B = kOptimalChunkSize) (hpos : 0 < B) (hle : B ≤ 2 ^ 64)
    (hsize : size < 2 ^ 64) (hlt : 2 ^ 64 < size + B) : numChunks size = 0 := by
  unfold numChunks
  rw [← hB]
  refine Nat.div_eq_of_lt ?_
  rw [Nat.mod_eq_sub_mod (by omega), Nat.mod_eq_of_lt (by omega)]
  omega

theorem good_of_overflow (hpos : 0 < B) (hend : rd.file.length ≤ call.offset) :
    Good B 0 rd call where
  pos := hpos
  aligned i hi := absurd hi (Nat.not_lt_zero i)
  offset_lt i hi := absurd hi (Nat.not_lt_zero i)
  le_size i hi := absurd hi (Nat.not_lt_zero i)
  all := by omega
  size_le h := absurd h (Nat.lt_irrefl 0)
  full _ i hi := absurd hi (Nat.not_lt_zero _)
  threads h := absurd h (Nat.lt_irrefl 0)

end Good

/-! ### Runs that go wrong -/

section Wrong

variable {B n : ℕ} {rd : Reader} {call : Call} {before : ℕ → UInt8}

/-- The state of a call that has submitted its first `k` chunks, none of which a worker has
taken. -/
structure Submitted (B : ℕ) (rd : Reader) (call : Call) (k : ℕ)
    (s : State rd.numThreads) : Prop where
  workers : ∀ w, s.workers w = .idle
  futures : s.futures = (List.range k).map fun i =>
    if rd.AllAligned (chunk B call i).buffer (chunk B call i).size (chunk B call i).offset then
      none else some (-1)
  requestQueue :
    (∀ i < k, rd.AllAligned (chunk B call i).buffer (chunk B call i).size (chunk B call i).offset) →
    s.requestQueue = chunks B call k

/-- **The next chunk is submitted**, aligned or not. -/
theorem Submitted.succ {k : ℕ} {s : State rd.numThreads} (h : Submitted B rd call k s)
    (caller : Caller) :
    Submitted B rd call (k + 1) ((s.readAsync rd (chunk B call k).buffer (chunk B call k).offset
      (chunk B call k).size).setCaller caller) := by
  have hlength : s.futures.length = k := by simp [h.futures]
  by_cases hk : rd.AllAligned (chunk B call k).buffer (chunk B call k).size (chunk B call k).offset
  · rw [readAsync_of_aligned hk]
    refine ⟨h.workers, ?_, fun hall => ?_⟩
    · simp [h.futures, List.range_succ, hk]
    · rw [chunks_succ, ← h.requestQueue fun i hi => hall i (by omega)]
      simp only [setCaller_requestQueue, hlength]
      rfl
  · rw [readAsync_of_not_aligned hk]
    refine ⟨h.workers, ?_, fun hall => absurd (hall k (Nat.lt_succ_self k)) hk⟩
    simp [h.futures, List.range_succ, hk]

/-- A call submits all its chunks before it collects their results. -/
theorem exists_submitted (call : Call) (before : ℕ → UInt8) (hB : B = kOptimalChunkSize)
    (haligned : rd.AllAligned call.buffer call.size call.offset) (hoffset : call.offset < 2 ^ 64)
    (hpos : 0 < B) (hlt : B < call.size) (hle : ∀ i < numChunks call.size, i * B ≤ call.size) :
    ∃ os s remaining, execEnabled (step rd call) (State.start rd call before) os = some s ∧
      s.caller = .collecting 0 0 remaining ∧ Submitted B rd call (numChunks call.size) s := by
  -- the state after `k` chunks
  have hsubmit : ∀ k ≤ numChunks call.size, ∃ os s currentOffset,
      execEnabled (step rd call) (State.start rd call before) os = some s ∧
      s.caller = .submitting k (call.size - k * B) currentOffset ∧
      (k < numChunks call.size → currentOffset = (call.offset + k * B) % 2 ^ 64) ∧
      Submitted B rd call k s := by
    intro k
    induction k with
    | zero =>
      intro _
      refine ⟨[], State.start rd call before, call.offset, rfl, ?_, fun _ => ?_, fun _ => rfl,
        rfl, fun _ => rfl⟩
      · rw [Nat.zero_mul, Nat.sub_zero]
        exact start_caller_submitting haligned (by rw [← hB]; omega)
      · rw [Nat.zero_mul, Nat.add_zero, Nat.mod_eq_of_lt hoffset]
    | succ k ih =>
      intro hk
      obtain ⟨os, s, currentOffset, hrun, hc, hcurrent, hs⟩ := ih (by omega)
      have hstep : step rd call s .call =
          some ((s.readAsync rd (chunk B call k).buffer (chunk B call k).offset
            (chunk B call k).size).setCaller (.submitting (k + 1)
              (call.size - k * B - min (call.size - k * B) B)
                ((currentOffset + min (call.size - k * B) B) % 2 ^ 64))) := by
        rw [step_call]
        unfold State.callStep
        rw [hc]
        simp only
        rw [if_pos (Nat.lt_of_succ_le hk), ← hB, chunk_buffer, chunk_size, chunk_offset,
          ← hcurrent hk]
      refine ⟨os ++ [.call], _, (currentOffset + min (call.size - k * B) B) % 2 ^ 64,
        (execEnabled_append hrun [.call]).trans (execEnabled_cons hstep []), ?_,
        fun hk' => ?_, hs.succ _⟩
      · rw [setCaller_caller]
        congr 1
        rw [Nat.succ_mul]
        omega
      · have hle' := hle (k + 1) hk'
        rw [Nat.succ_mul] at hle' ⊢
        have hfull : min (call.size - k * B) B = B := by omega
        rw [hfull, hcurrent hk, Nat.mod_add_mod, Nat.add_assoc]
  obtain ⟨os, s, currentOffset, hrun, hc, -, hs⟩ := hsubmit _ (Nat.le_refl _)
  have hstep : step rd call s .call =
      some (s.setCaller (.collecting 0 0 (call.size - numChunks call.size * B))) := by
    rw [step_call]
    unfold State.callStep
    rw [hc]
    simp only
    rw [if_neg (Nat.lt_irrefl _)]
  exact ⟨os ++ [.call], s.setCaller (.collecting 0 0 (call.size - numChunks call.size * B)), _,
    (execEnabled_append hrun [.call]).trans (execEnabled_cons hstep []), rfl, hs.workers,
    hs.futures, hs.requestQueue⟩

/-- **Without workers** a call with a request never returns. -/
theorem stuck_of_no_threads {s : State rd.numThreads} (hn : rd.numThreads = 0)
    (hcall : s.callStep rd call = none) (o : Step rd.numThreads) : step rd call s o = none := by
  have hnone : ∀ w : Fin rd.numThreads, False := fun w => absurd w.isLt (by omega)
  cases o with
  | call => exact hcall
  | pop w => exact (hnone w).elim
  | pread w => exact (hnone w).elim
  | setValue w => exact (hnone w).elim

/-- **A worker serves the first request.** -/
theorem exists_served (call : Call) {s : State rd.numThreads} {w : Fin rd.numThreads} {r : Request}
    {rest : List Request} (hw : s.workers w = .idle) (hq : s.requestQueue = r :: rest) :
    ∃ s', execEnabled (step rd call) s [.pop w, .pread w, .setValue w] = some s' ∧
      s'.caller = s.caller ∧ s'.workers w = .idle ∧ s'.requestQueue = rest ∧
      s'.futures = s.futures.set r.future (some (rd.count r.offset r.size)) := by
  let s₁ := { s with requestQueue := rest }.setWorker w (.holding r)
  let s₂ := { s₁ with memory := rd.fill s₁.memory r.buffer r.offset r.size }.setWorker w
    (.served r (rd.count r.offset r.size))
  let s₃ :=
    { s₂ with futures := s₂.futures.set r.future (some (rd.count r.offset r.size)) }.setWorker
      w .idle
  have hpop : step rd call s (.pop w) = some s₁ := by simp only [step, State.pop, hw, hq, s₁]
  have hserve : step rd call s₁ (.pread w) = some s₂ := by
    simp only [step, State.serve, s₁, setWorker_workers_self, s₂]
  have hvalue : step rd call s₂ (.setValue w) = some s₃ := by
    simp only [step, State.setValue, s₂, setWorker_workers_self, s₃]
  refine ⟨s₃, ?_, rfl, setWorker_workers_self _, rfl, rfl⟩
  rw [execEnabled_cons hpop, execEnabled_cons hserve, execEnabled_cons hvalue]
  rfl

/-- The caller collects a result. -/
theorem step_collect (call : Call) {s : State rd.numThreads} {j remaining : ℕ} {total result : ℤ}
    (hc : s.caller = .collecting j total remaining) (hj : s.futures[j]? = some (some result))
    (hresult : ¬ result < 0) :
    step rd call s .call =
      some (s.setCaller (if call.fn.AtEnd remaining result then .returned (total + result)
        else .collecting (j + 1) (total + result) remaining)) := by
  rw [step_call]
  unfold State.callStep
  rw [hc]
  simp only
  rw [if_pos (List.getElem?_eq_some_iff.mp hj).1, hj]
  simp only
  rw [if_neg hresult]
  split <;> rfl

/-- A call whose first chunks are served by one worker and collected. -/
structure Collected (B n : ℕ) (rd : Reader) (call : Call) (w : Fin rd.numThreads) (j : ℕ)
    (s : State rd.numThreads) : Prop where
  caller : ∃ total remaining, s.caller = .collecting j total remaining
  worker : s.workers w = .idle
  requestQueue : s.requestQueue = (chunks B call n).drop j
  futures : s.futures.length = n

/-- **One round**: the next chunk is served, and the caller has its result. -/
theorem Collected.exists_round {w : Fin rd.numThreads} {j : ℕ} {s : State rd.numThreads}
    (h : Collected B n rd call w j s) (hj : j < n) :
    ∃ os s' total remaining, execEnabled (step rd call) s os = some s' ∧
      s'.workers w = .idle ∧ s'.requestQueue = (chunks B call n).drop (j + 1) ∧
      s'.futures.length = n ∧
      s'.caller =
        if call.fn.AtEnd remaining (rd.count (chunk B call j).offset (chunk B call j).size) then
        .returned (total + rd.count (chunk B call j).offset (chunk B call j).size)
      else .collecting (j + 1) (total + rd.count (chunk B call j).offset
        (chunk B call j).size) remaining := by
  obtain ⟨total, remaining, hc⟩ := h.caller
  have hdrop : (chunks B call n).drop j = chunk B call j :: (chunks B call n).drop (j + 1) := by
    have hget : (chunks B call n)[j]? = some (chunk B call j) := getElem?_chunks.trans (if_pos hj)
    obtain ⟨hlt, hget⟩ := List.getElem?_eq_some_iff.mp hget
    rw [List.drop_eq_getElem_cons hlt, hget]
  obtain ⟨s₁, hrun, hc₁, hw₁, hq₁, hf₁⟩ := exists_served call h.worker (h.requestQueue.trans hdrop)
  have hresult : s₁.futures[j]? =
      some (some (rd.count (chunk B call j).offset (chunk B call j).size)) := by
    rw [hf₁]
    exact List.getElem?_set_self (h.futures ▸ hj)
  have hstep := step_collect call (hc₁.trans hc) hresult (Int.not_lt.mpr (Int.natCast_nonneg _))
  have hrun' := (execEnabled_append hrun [.call]).trans (execEnabled_cons hstep [])
  exact ⟨_, _, total, remaining, hrun', hw₁, hq₁,
    by rw [setCaller_futures, hf₁, List.length_set, h.futures], setCaller_caller _⟩

/-- **An early return**: one worker serves the chunks up to the first short one, and `Read` returns
with the requests behind it still in the queue. -/
theorem exists_early {s : State rd.numThreads} {remaining i : ℕ} (hB : B = kOptimalChunkSize)
    (hfn : call.fn = .read) (hthreads : 0 < rd.numThreads)
    (hc : s.caller = .collecting 0 0 remaining) (hs : Submitted B rd call n s)
    (haligned : ∀ i < n,
      rd.AllAligned (chunk B call i).buffer (chunk B call i).size (chunk B call i).offset)
    (hi : i + 1 < n) (hshort : rd.count (chunk B call i).offset (chunk B call i).size < B)
    (hfull : ∀ j < i, ¬ rd.count (chunk B call j).offset (chunk B call j).size < B) :
    ∃ os s' result, execEnabled (step rd call) s os = some s' ∧ s'.caller = .returned result ∧
      s'.requestQueue ≠ [] := by
  have hatEnd : ∀ j remaining,
      call.fn.AtEnd remaining (rd.count (chunk B call j).offset (chunk B call j).size) ↔
      rd.count (chunk B call j).offset (chunk B call j).size < B := by
    intro j remaining
    rw [hfn, hB]
    exact Iff.rfl
  have hcollect : ∀ j ≤ i, ∃ os s', execEnabled (step rd call) s os = some s' ∧
      Collected B n rd call ⟨0, hthreads⟩ j s' := by
    intro j
    induction j with
    | zero =>
      intro _
      refine ⟨[], s, rfl, ⟨0, remaining, hc⟩, hs.workers _, hs.requestQueue haligned, ?_⟩
      rw [hs.futures, List.length_map, List.length_range]
    | succ j ih =>
      intro hj
      obtain ⟨os, s', hrun, hs'⟩ := ih (by omega)
      obtain ⟨os', s'', total, remaining', hrun', hw, hq, hf, hc'⟩ := hs'.exists_round (by omega)
      rw [if_neg (mt (hatEnd j remaining').mp (hfull j (by omega)))] at hc'
      exact ⟨os ++ os', s'', (execEnabled_append hrun os').trans hrun', ⟨_, _, hc'⟩, hw, hq, hf⟩
  obtain ⟨os, s', hrun, hs'⟩ := hcollect i (Nat.le_refl i)
  obtain ⟨os', s'', total, remaining', hrun', -, hq, -, hc'⟩ := hs'.exists_round (by omega)
  rw [if_pos ((hatEnd i remaining').mpr hshort)] at hc'
  refine ⟨os ++ os', s'', _, (execEnabled_append hrun os').trans hrun', hc', ?_⟩
  rw [hq, Ne, List.drop_eq_nil_iff, length_chunks]
  omega

/-- **Somewhere before the last chunk** there is a first short one, if the file ends before the last
chunk starts. -/
theorem exists_short (hpos : 0 < B) (hn : 0 < n) (hoffset : call.offset < 2 ^ 64)
    (hfile : rd.file.length + B ≤ 2 ^ 64) (hend : rd.file.length < call.offset + n * B) :
    ∃ i < n, rd.count (chunk B call i).offset (chunk B call i).size < B ∧
      ∀ j < i, ¬ rd.count (chunk B call j).offset (chunk B call j).size < B := by
  have hcount : ∀ i, rd.file.length < (call.offset + i * B) % 2 ^ 64 + B →
      rd.count (chunk B call i).offset (chunk B call i).size < B := fun i hi => by
    unfold Reader.count
    rw [length_bytes, chunk_offset]
    omega
  have hex : ∃ i, i < n ∧ rd.count (chunk B call i).offset (chunk B call i).size < B := by
    obtain ⟨m, rfl⟩ := Nat.exists_eq_succ_of_ne_zero (Nat.ne_of_gt hn)
    rw [Nat.succ_mul] at hend
    by_cases hwrap : call.offset + m * B < 2 ^ 64
    · refine ⟨m, Nat.lt_succ_self m, hcount m ?_⟩
      rw [Nat.mod_eq_of_lt hwrap]
      omega
    · -- the last chunk whose offset is an address
      have hdiv := Nat.div_add_mod (2 ^ 64 - 1 - call.offset) B
      have hmod := Nat.mod_lt (2 ^ 64 - 1 - call.offset) hpos
      rw [Nat.mul_comm] at hdiv
      have hlt : (2 ^ 64 - 1 - call.offset) / B < m := by
        rw [Nat.div_lt_iff_lt_mul hpos]
        omega
      refine ⟨(2 ^ 64 - 1 - call.offset) / B, Nat.lt_succ_of_lt hlt, hcount _ ?_⟩
      rw [Nat.mod_eq_of_lt (by omega)]
      omega
  classical
  obtain ⟨hlt, hshort⟩ := Nat.find_spec hex
  exact ⟨Nat.find hex, hlt, hshort,
    fun j hj hshort' => Nat.find_min hex hj ⟨Nat.lt_trans hj hlt, hshort'⟩⟩

/-- The futures of a call whose chunks are all submitted. -/
theorem Submitted.getElem?_futures {s : State rd.numThreads} {i : ℕ} (h : Submitted B rd call n s)
    (hi : i < n) :
    s.futures[i]? =
      some (if rd.AllAligned (chunk B call i).buffer (chunk B call i).size (chunk B call i).offset
        then none else some (-1)) := by
  rw [h.futures, List.getElem?_map, List.getElem?_range hi]
  rfl

/-- What a call has returned when its first chunk is not aligned. -/
theorem step_misaligned {s : State rd.numThreads} {remaining : ℕ}
    (hc : s.caller = .collecting 0 0 remaining) (hf : s.futures[0]? = some (some (-1))) :
    step rd call s .call = some (s.setCaller (.returned (-1))) := by
  rw [step_call]
  unfold State.callStep
  rw [hc]
  simp only
  rw [if_pos (List.getElem?_eq_some_iff.mp hf).1, hf]
  rfl

theorem callStep_eq_none {s : State rd.numThreads} {remaining : ℕ}
    (hc : s.caller = .collecting 0 0 remaining) (hf : s.futures[0]? = some none) :
    s.callStep rd call = none := by
  unfold State.callStep
  rw [hc]
  simp only
  rw [if_pos (List.getElem?_eq_some_iff.mp hf).1, hf]

theorem step_empty {s : State rd.numThreads} {remaining : ℕ}
    (hc : s.caller = .collecting 0 0 remaining) (hf : s.futures = []) :
    step rd call s .call = some (s.setCaller (.returned 0)) := by
  rw [step_call]
  unfold State.callStep
  rw [hc]
  simp only
  rw [if_neg (by rw [hf]; exact Nat.lt_irrefl 0)]

/-- **Threads**: a range that is submitted as it is needs a worker. -/
theorem threads_of_correct (hsize : call.size ≤ kOptimalChunkSize)
    (hfn : call.fn = .readAsyncChunked) (haligned : rd.AllAligned call.buffer call.size call.offset)
    (h : Correct rd call before) : 0 < rd.numThreads := by
  by_contra hn
  let s : State rd.numThreads :=
    ((State.start rd call before).readAsync rd call.buffer call.offset call.size).setCaller .waiting
  have hstep : step rd call (State.start rd call before) .call = some s := by
    rw [step_call]
    unfold State.callStep
    rw [start_caller_single haligned hsize hfn]
  have hstuck : s.callStep rd call = none := by
    have hfutures : s.futures[0]? = some none := by
      simp only [s]
      rw [readAsync_of_aligned haligned]
      rfl
    have hc : s.caller = .waiting := rfl
    unfold State.callStep
    rw [hc]
    simp only
    rw [hfutures]
  obtain ⟨result, hc⟩ :=
    h.returns [.call] s (execEnabled_cons hstep []) (stuck_of_no_threads (by omega) hstuck)
  cases hc

/-- **Alignment**: the chunks of a large range are read only if they are aligned. -/
theorem dvd_of_correct {s : State rd.numThreads} {os : List (Step rd.numThreads)} {remaining : ℕ}
    (h : Correct rd call before)
    (hrun : execEnabled (step rd call) (State.start rd call before) os = some s)
    (hc : s.caller = .collecting 0 0 remaining) (hs : Submitted B rd call n s) (hn : 0 < n)
    (hlt : B < call.size) :
    rd.bufferAlignment ∣ B := by
  by_contra hdvd
  have hmisaligned : ¬ rd.AllAligned (chunk B call 0).buffer (chunk B call 0).size
      (chunk B call 0).offset := by
    rintro ⟨-, hsize, -⟩
    rw [chunk_size, Nat.zero_mul, Nat.sub_zero, Nat.min_eq_right (Nat.le_of_lt hlt)] at hsize
    exact hdvd (Nat.dvd_of_mod_eq_zero hsize)
  have hf := hs.getElem?_futures hn
  rw [if_neg hmisaligned] at hf
  obtain ⟨hresult, -⟩ := h.returned _ _ (-1)
    ((execEnabled_append hrun [.call]).trans (execEnabled_cons (step_misaligned hc hf) [])) rfl
  have hcount : 0 ≤ rd.count call.offset call.size := Int.natCast_nonneg _
  omega

/-- **Threads**: a large range needs a worker as well. -/
theorem threads_of_correct_chunks {s : State rd.numThreads} {os : List (Step rd.numThreads)}
    {remaining : ℕ} (h : Correct rd call before)
    (hrun : execEnabled (step rd call) (State.start rd call before) os = some s)
    (hc : s.caller = .collecting 0 0 remaining) (hf : s.futures[0]? = some none) :
    0 < rd.numThreads := by
  by_contra hn
  obtain ⟨result, hc'⟩ :=
    h.returns os s hrun (stuck_of_no_threads (by omega) (callStep_eq_none hc hf))
  rw [hc] at hc'
  cases hc'

/-- **What a correct `Read` of a large range needs.** -/
theorem complete_of_correct (hB : B = kOptimalChunkSize) (hfn : call.fn = .read)
    (haligned : rd.AllAligned call.buffer call.size call.offset) (hoffset : call.offset < 2 ^ 64)
    (hpos : 0 < B) (hlarge : B < call.size) (hwrap : call.size + B ≤ 2 ^ 64) (hword : B ∣ 2 ^ 64)
    (hfile : rd.file.length + B ≤ 2 ^ 64) (h : Correct rd call before) :
    0 < rd.numThreads ∧ rd.bufferAlignment ∣ B ∧
    call.offset + (call.size - 1) / B * B ≤ rd.file.length := by
  obtain ⟨os, s, remaining, hrun, hc, hs⟩ :=
    exists_submitted call before hB haligned hoffset hpos hlarge fun i hi =>
      Nat.le_of_lt ((lt_numChunks hB hpos hwrap).mp hi)
  have hindex : ∀ {i}, i < numChunks call.size ↔ i ≤ (call.size - 1) / B :=
    lt_numChunks_iff hB hpos hwrap (by omega)
  have hdvd := dvd_of_correct h hrun hc hs (hindex.mpr (Nat.zero_le _)) hlarge
  have hchunks : ∀ i < numChunks call.size,
      rd.AllAligned (chunk B call i).buffer (chunk B call i).size (chunk B call i).offset :=
    fun i _ => allAligned_chunk haligned hdvd (Nat.dvd_trans hdvd hword)
  have hfirst := hs.getElem?_futures (hindex.mpr (Nat.zero_le _))
  rw [if_pos (hchunks 0 (hindex.mpr (Nat.zero_le _)))] at hfirst
  have hthreads := threads_of_correct_chunks h hrun hc hfirst
  refine ⟨hthreads, hdvd, ?_⟩
  by_contra hend
  have hlast : 0 < (call.size - 1) / B := (Nat.le_div_iff_mul_le hpos).mpr (by omega)
  obtain ⟨i, hi, hshort, hfull⟩ := exists_short hpos hlast hoffset hfile (Nat.lt_of_not_le hend)
  obtain ⟨os', s', result, hrun', hc', hqueue⟩ := exists_early hB hfn hthreads hc hs hchunks
    (hindex.mpr (Nat.succ_le_of_lt hi)) hshort hfull
  exact hqueue (h.returned _ s' result ((execEnabled_append hrun os').trans hrun') hc').2.2.1

end Wrong

/-! ### The result -/

/-- **Reads in chunks**: both functions do what one `pread` does, and leave no request behind,
exactly when there is a worker and the range is read at once, or its chunks are aligned and the last
one starts before the end of the file; or when the number of chunks overflows and there is nothing
to read. -/
theorem reads_correct_iff {rd : Reader} {buffer offset size : ℕ} (before : ℕ → UInt8)
    (haligned : rd.AllAligned buffer size offset) (hoffset : offset < 2 ^ 64)
    (hsize : size < 2 ^ 64) (hfile : rd.file.length < 2 ^ 63) :
    (∀ fn, Correct rd ⟨fn, buffer, offset, size⟩ before) ↔
      (0 < rd.numThreads ∧ (size ≤ kOptimalChunkSize ∨ rd.bufferAlignment ∣ kOptimalChunkSize ∧
        offset + (size - 1) / kOptimalChunkSize * kOptimalChunkSize ≤ rd.file.length)) ∨
      (2 ^ 64 < size + kOptimalChunkSize ∧ rd.file.length ≤ offset) := by
  have hpos : 0 < kOptimalChunkSize := by decide
  have hword : kOptimalChunkSize ∣ 2 ^ 64 := by decide
  have hsmall : kOptimalChunkSize ≤ 2 ^ 62 := by decide
  have hgood : ∀ fn,
      Good kOptimalChunkSize (chunkCount ⟨fn, buffer, offset, size⟩) rd ⟨fn, buffer, offset, size⟩ →
      Correct rd ⟨fn, buffer, offset, size⟩ before :=
        fun fn hgood => correct_of_good hgood haligned hoffset
  unfold chunkCount at hgood
  generalize hB : kOptimalChunkSize = B at *
  have hmod := Nat.div_add_mod (size - 1) B
  have hlt := Nat.mod_lt (size - 1) hpos
  rw [Nat.mul_comm] at hmod
  constructor
  · intro h
    by_cases hle : size ≤ B
    · exact Or.inl ⟨threads_of_correct (hB ▸ hle) rfl haligned (h .readAsyncChunked), Or.inl hle⟩
    · have hlarge : B < size := Nat.lt_of_not_le hle
      by_cases hwrap : size + B ≤ 2 ^ 64
      · obtain ⟨hthreads, hcomplete⟩ :=
          complete_of_correct hB.symm rfl haligned hoffset hpos hlarge hwrap hword
            (by omega) (h .read)
        exact Or.inl ⟨hthreads, Or.inr hcomplete⟩
      · have hzero := numChunks_eq_zero hB.symm hpos (by omega) hsize (by omega)
        obtain ⟨os, s, remaining, hrun, hc, hs⟩ :=
          exists_submitted ⟨.read, buffer, offset, size⟩ before hB.symm haligned hoffset hpos hlarge
            fun i hi => by
            rw [hzero] at hi
            exact absurd hi (Nat.not_lt_zero i)
        have hempty : s.futures = [] := by rw [hs.futures, hzero]; rfl
        obtain ⟨hresult, -⟩ := (h .read).returned _ _ 0
          ((execEnabled_append hrun [.call]).trans (execEnabled_cons (step_empty hc hempty) [])) rfl
        unfold Reader.count at hresult
        rw [length_bytes] at hresult
        refine Or.inr ⟨by omega, ?_⟩
        simp only at hresult
        omega
  · rintro (⟨hthreads, hcomplete⟩ | ⟨hwrap, hend⟩) fn
    · refine hgood fn ?_
      by_cases hle : size ≤ B
      · rw [if_pos hle]
        exact good_of_le haligned hoffset hle hpos hthreads
      · obtain ⟨hdvd, hlast⟩ := hcomplete.resolve_left hle
        have hwrap : size + B ≤ 2 ^ 64 := by omega
        rw [if_neg hle]
        exact good_of_lt hB.symm haligned hpos (Nat.lt_of_not_le hle) hwrap hdvd
          (Nat.dvd_trans hdvd hword) (Nat.lt_of_le_of_lt hlast (by omega)) (fun _ => hlast) hthreads
    · refine hgood fn ?_
      have hle : ¬ size ≤ B := by omega
      rw [if_neg hle, numChunks_eq_zero hB.symm hpos (by omega) hsize hwrap]
      exact good_of_overflow hpos hend

/-- A file of one byte, read by one worker. -/
def oneByte : Reader where
  numThreads := 1
  bufferAlignment := 4096
  file := [7]

theorem oneByte_correct : (Correct oneByte ⟨.readAsyncChunked, 4096, 0, 4096⟩ fun _ => 0) ∧
    Correct oneByte ⟨.read, 4096, 0, 4096⟩ fun _ => 0 := by
  have hboth : ∀ fn, Correct oneByte ⟨fn, 4096, 0, 4096⟩ fun _ => 0 :=
    (reads_correct_iff (fun _ => 0) (by decide) (by decide) (by decide) (by decide)).mpr
      (Or.inl ⟨by decide, Or.inl (by decide)⟩)
  exact ⟨hboth .readAsyncChunked, hboth .read⟩

def threeChunks : Call where
  fn := .read
  buffer := 4096
  offset := 0
  size := 3 * 4194304

/-- `Read` returns after the first chunk, with the other two in the queue. -/
theorem early_return : ¬ Correct oneByte threeChunks fun _ => 0 := by
  intro h
  have hrun : ∃ s : State 1,
      execEnabled (step oneByte threeChunks) (State.start oneByte threeChunks fun _ => 0)
        [.call, .call, .call, .call, .pop 0, .pread 0, .setValue 0, .call] = some s ∧
        s.caller = .returned 1 ∧
      s.requestQueue =
          [chunk kOptimalChunkSize threeChunks 1, chunk kOptimalChunkSize threeChunks 2] := by
    refine ⟨_, rfl, rfl, rfl⟩
  obtain ⟨s, hrun, hc, hqueue⟩ := hrun
  have hdone := (h.returned _ s 1 hrun hc).2.2.1
  rw [hqueue] at hdone
  cases hdone

/-- **`ReadAsyncChunked`** waits for all chunks, wherever the file ends. -/
theorem readAsyncChunked_correct {rd : Reader} {buffer offset size : ℕ} (before : ℕ → UInt8)
    (haligned : rd.AllAligned buffer size offset) (hthreads : 0 < rd.numThreads)
    (hdvd : rd.bufferAlignment ∣ kOptimalChunkSize) (hoffset : offset + size ≤ 2 ^ 64)
    (hlt : offset < 2 ^ 64) (hsize : size + kOptimalChunkSize ≤ 2 ^ 64) :
    Correct rd ⟨.readAsyncChunked, buffer, offset, size⟩ before := by
  have hpos : 0 < kOptimalChunkSize := by decide
  have hword : kOptimalChunkSize ∣ 2 ^ 64 := by decide
  have hread : Fn.readAsyncChunked ≠ .read := by decide
  have hgood : Good kOptimalChunkSize (chunkCount ⟨.readAsyncChunked, buffer, offset, size⟩) rd
      ⟨.readAsyncChunked, buffer, offset, size⟩ →
      Correct rd ⟨.readAsyncChunked, buffer, offset, size⟩ before :=
    fun hgood => correct_of_good hgood haligned hlt
  unfold chunkCount at hgood
  generalize hB : kOptimalChunkSize = B at *
  refine hgood ?_
  by_cases hle : size ≤ B
  · rw [if_pos hle]
    exact good_of_le haligned hlt hle hpos hthreads
  · have hmod := Nat.div_mul_le_self (size - 1) B
    rw [if_neg hle]
    exact good_of_lt hB.symm haligned hpos (Nat.lt_of_not_le hle) hsize hdvd
      (Nat.dvd_trans hdvd hword) (Nat.lt_of_le_of_lt (Nat.add_le_add_left hmod offset) (by omega))
      (fun hfn => absurd hfn hread) hthreads

end MoeInfinity.Core.ChunkedRead
