import MoeInfinity.Serving.KvCacheSpec
import MoeInfinity.Serving.Sequence

/-! # The life of one sequence

A sequence object together with its share of the cache goes through a small automaton: it is
admitted, preempted, brought back, grown, finished or cancelled. This module is about one such life,
without queues, block ids or the other sequences.

* `Ok`: a sequence has a table exactly while its status says so, and is marked as swapped out only
  while it is `SWAPPED` and has no blocks.
* `Aligned`: the table covers the prompt and the outputs, and a swapped-out sequence has a copy of
  as many blocks.
* `Kept`: the CPU copy of a swapped-out sequence is what `swap_out` saved.

The scheduler's operations change every sequence through these events only. -/

namespace MoeInfinity.Serving.Lifecycle

open MoeInfinity.Python MoeInfinity.Serving.Sequence MoeInfinity.Serving.KvCacheSpec

variable {β : Type}

/-- A sequence object and its share of the cache. -/
structure Life (β : Type) where
  data : SequenceData
  share : Share β

/-- The statuses in which a sequence is in the running batch. -/
def Active (st : SequenceStatus) : Prop := st = .prefill ∨ st = .decode

/-- The statuses in which a sequence has a block table. -/
def HasTable (st : SequenceStatus) : Prop := st = .prefill ∨ st = .decode ∨ st = .swapped

instance (st : SequenceStatus) : Decidable (Active st) := inferInstanceAs (Decidable (_ ∨ _))

instance (st : SequenceStatus) : Decidable (HasTable st) := inferInstanceAs (Decidable (_ ∨ _))

theorem Active.hasTable {st : SequenceStatus} (h : Active st) : HasTable st := by
  rcases h with h | h
  · exact Or.inl h
  · exact Or.inr (Or.inl h)

theorem HasTable.live {d : SequenceData} (h : HasTable d.status) : d.Live := by
  constructor
  · intro h0
    rw [h0] at h
    rcases h with h1 | h1 | h1 <;> cases h1
  · intro h0
    rw [h0] at h
    rcases h with h1 | h1 | h1 <;> cases h1

/-- All tokens of a sequence. -/
def numTokens (d : SequenceData) : ℕ := d.promptTokenIds.length + d.outputTokenIds.length

/-! ### Events -/

namespace Life

/-- The sequence gets a status. -/
def withStatus (st : SequenceStatus) (l : Life β) : Life β :=
  { l with data := { l.data with status := st } }

/-- Admission: blocks for the prompt. -/
def admitted (rows : List β) (l : Life β) : Life β :=
  { l.withStatus .prefill with
    share := { l.share with tokens := some l.data.promptLength, rows := rows } }

def preempted (l : Life β) : Life β :=
  { l.withStatus .swapped with share := l.share.preempted }

/-- A `swap_in` that returned; the status changes later. -/
def restored (l : Life β) : Life β := { l with share := l.share.restored }

/-- A `swap_in` that raised. -/
def lost (l : Life β) : Life β := { l with share := l.share.lost }

/-- A completed recovery. -/
def recovered (l : Life β) : Life β := l.restored.withStatus .decode

/-- One more token in the table, with the blocks `new`. -/
def grown (n : ℕ) (new : List β) (l : Life β) : Life β :=
  { l with share := { l.share with tokens := some (n + 1), rows := l.share.rows ++ new } }

/-- One more output. -/
def appended (t : ℕ) (l : Life β) : Life β :=
  { l with data := { l.data with
      outputTokenIds := l.data.outputTokenIds ++ [t]
      numComputedTokens := l.data.promptTokenIds.length + (l.data.outputTokenIds ++ [t]).length } }

/-- The sequence ends with the status `st` and gives everything back. -/
def ended (st : SequenceStatus) (l : Life β) : Life β :=
  { l.withStatus st with share := l.share.freed }

/-! ### The basic invariant -/

/-- Table, swap mark and CPU copy are there only when the status says so. -/
structure Ok (l : Life β) : Prop where
  table : l.share.tokens ≠ none ↔ HasTable l.data.status
  rows : l.share.tokens = none → l.share.rows = []
  mark : l.share.swappedOut = true → l.data.status = .swapped ∧ l.share.rows = []
  copy : l.share.swappedOut = false → l.share.buffer = none

variable {l : Life β}

theorem Ok.tokens_none (h : l.Ok) (hst : ¬ HasTable l.data.status) : l.share.tokens = none := by
  by_contra h0
  exact hst (h.table.mp h0)

theorem Ok.exists_tokens (h : l.Ok) (hst : HasTable l.data.status) : ∃ n, l.share.tokens = some n :=
  Option.ne_none_iff_exists'.mp (h.table.mpr hst)

theorem Ok.mark_false (h : l.Ok) (hst : l.data.status ≠ .swapped) : l.share.swappedOut = false := by
  by_contra h0
  exact hst (h.mark (by simpa using h0)).1

/-- The invariant does not look at the rest of the object. -/
theorem Ok.congr_data (h : l.Ok) {d : SequenceData} (hst : d.status = l.data.status) :
    Ok { l with data := d } :=
  ⟨by rw [hst]; exact h.table, h.rows, by rw [hst]; exact h.mark, h.copy⟩

theorem Ok.admitted (h : l.Ok) (hst : l.data.status = .waiting) (rows : List β) :
    (l.admitted rows).Ok := by
  have hmark : l.share.swappedOut = false := h.mark_false (by rw [hst]; decide)
  refine ⟨?_, fun h0 => ?_, fun h0 => ?_, fun _ => h.copy hmark⟩
  · simp [Life.admitted, withStatus, HasTable]
  · simp [Life.admitted] at h0
  · exact absurd (hmark.symm.trans h0) Bool.false_ne_true

theorem Ok.preempted (h : l.Ok) (hst : Active l.data.status) : l.preempted.Ok := by
  refine ⟨?_, fun _ => rfl, fun _ => ⟨rfl, rfl⟩, fun h0 => ?_⟩
  · have := h.table.mpr hst.hasTable
    simpa [Life.preempted, Share.preempted, withStatus, HasTable] using this
  · simp [Life.preempted, Share.preempted] at h0

theorem restored_tokens_ne_none (h : l.share.tokens ≠ none) : l.restored.share.tokens ≠ none := by
  unfold Life.restored Share.restored
  simp only
  split_ifs with h1
  · cases hb : l.share.buffer with
    | none => simpa [hb] using h
    | some buf => simp
  · exact h

theorem restored_swappedOut (l : Life β) : l.restored.share.swappedOut = false := by
  unfold Life.restored Share.restored
  simp only
  split_ifs with h1
  · cases hb : l.share.buffer with
    | none => rfl
    | some buf => rfl
  · simpa using h1

theorem Ok.restored (h : l.Ok) (hst : l.data.status = .swapped) : l.restored.Ok := by
  have htab : l.share.tokens ≠ none := h.table.mpr (Or.inr (Or.inr hst))
  have hmark := l.restored_swappedOut
  refine ⟨⟨fun _ => Or.inr (Or.inr hst), fun _ => restored_tokens_ne_none htab⟩,
    fun h0 => absurd h0 (restored_tokens_ne_none htab),
    fun h0 => absurd (hmark.symm.trans h0) Bool.false_ne_true, fun _ => ?_⟩
  unfold Life.restored Share.restored
  simp only
  split_ifs with h1
  · cases hb : l.share.buffer with
    | none => rfl
    | some buf => rfl
  · exact h.copy (by simpa using h1)

/-- A `swap_in` that returns takes the blocks it asks for. -/
theorem Ok.restored_length (h : l.Ok) :
    l.restored.share.rows.length = l.share.rows.length + l.share.demand := by
  unfold Life.restored Share.restored Share.demand
  simp only
  split_ifs with h1
  · rw [(h.mark h1).2]
    cases hb : l.share.buffer with
    | none => simp
    | some buf => simp
  · rfl

theorem Ok.lost (h : l.Ok) : l.lost.Ok := ⟨h.table, h.rows, h.mark, fun _ => rfl⟩

/-- A change between two statuses with a table, for a sequence that is not marked. -/
theorem Ok.withStatus (h : l.Ok) (hmark : l.share.swappedOut = false)
    (hst : HasTable l.data.status) {st : SequenceStatus} (hst' : HasTable st) :
    (l.withStatus st).Ok :=
  ⟨⟨fun _ => hst', fun _ => h.table.mpr hst⟩, h.rows,
    fun h0 => absurd (hmark.symm.trans h0) Bool.false_ne_true, h.copy⟩

theorem Ok.recovered (h : l.Ok) (hst : l.data.status = .swapped) : l.recovered.Ok :=
  (h.restored hst).withStatus l.restored_swappedOut (Or.inr (Or.inr hst)) (Or.inr (Or.inl rfl))

theorem Ok.grown (h : l.Ok) (hst : Active l.data.status) (n : ℕ) (new : List β) :
    (l.grown n new).Ok := by
  have hmark : l.share.swappedOut = false :=
    h.mark_false (by rcases hst with h0 | h0 <;> rw [h0] <;> decide)
  refine ⟨⟨fun _ => hst.hasTable, fun _ h0 => ?_⟩, fun h0 => ?_,
    fun h0 => absurd (hmark.symm.trans h0) Bool.false_ne_true, h.copy⟩
  · simp [Life.grown] at h0
  · simp [Life.grown] at h0

theorem Ok.ended (h : l.Ok) {st : SequenceStatus} (hst : ¬ HasTable st) : (l.ended st).Ok := by
  by_cases ht : l.share.tokens = none
  · have hnot : ¬ HasTable l.data.status := fun h0 => h.table.mpr h0 ht
    have hmark : l.share.swappedOut = false :=
      h.mark_false fun h0 => hnot (Or.inr (Or.inr h0))
    have hfreed : l.share.freed = l.share := by rw [Share.freed, if_pos ht]
    unfold Life.ended
    rw [hfreed]
    exact ⟨⟨fun h0 => absurd ht h0, fun h0 => absurd h0 hst⟩, h.rows,
      fun h0 => absurd (hmark.symm.trans h0) Bool.false_ne_true, h.copy⟩
  · have hfreed : l.share.freed = ⟨none, [], none, none, false, l.share.saved⟩ := by
      rw [Share.freed, if_neg ht]
    unfold Life.ended
    rw [hfreed]
    exact ⟨⟨fun h0 => absurd rfl h0, fun h0 => absurd h0 hst⟩, fun _ => rfl,
      fun h0 => absurd h0 Bool.false_ne_true, fun _ => rfl⟩

/-! ### Tables cover the tokens -/

/-- The blocks of a sequence, or of its CPU copy, are those its tokens need. -/
def Aligned (k : ℕ) (l : Life β) : Prop :=
  match l.data.status with
  | .waiting => l.data.outputTokenIds = []
  | .prefill => l.data.outputTokenIds = [] ∧ l.share.tokens = some (numTokens l.data) ∧
      l.share.rows.length = ceilDiv (numTokens l.data) k
  | .decode => l.share.tokens = some (numTokens l.data) ∧
      l.share.rows.length = ceilDiv (numTokens l.data) k
  | .swapped => l.share.swappedOut = true ∧ l.share.tokens = some (numTokens l.data) ∧
      l.share.savedTokens = some (numTokens l.data) ∧
      (l.share.buffer.getD []).length = ceilDiv (numTokens l.data) k
  | _ => True

theorem Aligned.of_ended {k : ℕ} {st : SequenceStatus} (h : st = .finished ∨ st = .cancelled) :
    Aligned k (l.ended st) := by
  rcases h with rfl | rfl
  · exact trivial
  · exact trivial

theorem Aligned.admitted {k : ℕ} (h : Aligned k l) (hst : l.data.status = .waiting) {rows : List β}
    (hrows : rows.length = ceilDiv l.data.promptLength k) : Aligned k (l.admitted rows) := by
  simp only [Aligned, hst] at h
  have hn : numTokens l.data = l.data.promptLength := by
    simp [numTokens, h, SequenceData.promptLength]
  refine ⟨h, ?_, ?_⟩
  · exact congrArg some hn.symm
  · exact hrows.trans (congrArg (ceilDiv · k) hn.symm)

/-- A running sequence has the blocks its tokens need. -/
theorem Aligned.active {k : ℕ} (h : Aligned k l) (hst : Active l.data.status) :
    l.share.tokens = some (numTokens l.data) ∧
      l.share.rows.length = ceilDiv (numTokens l.data) k := by
  rcases hst with hst | hst
  · simp only [Aligned, hst] at h
    exact h.2
  · simp only [Aligned, hst] at h
    exact h

theorem Aligned.preempted {k : ℕ} (h : Aligned k l) (hok : l.Ok) (hst : Active l.data.status) :
    Aligned k l.preempted := by
  obtain ⟨htok, hlen⟩ := h.active hst
  have hbuf : l.share.buffer = none :=
    hok.copy (hok.mark_false (by rcases hst with h0 | h0 <;> rw [h0] <;> decide))
  refine ⟨rfl, htok, htok, ?_⟩
  change ((if l.share.rows ≠ [] then some l.share.rows else l.share.buffer).getD []).length =
    ceilDiv (numTokens l.data) k
  by_cases hnil : l.share.rows = []
  · rw [if_neg (not_not.mpr hnil), hbuf, ← hlen, hnil]; rfl
  · rw [if_pos hnil]; exact hlen

theorem Aligned.recovered {k : ℕ} (h : Aligned k l) (hok : l.Ok) (hst : l.data.status = .swapped) :
    Aligned k l.recovered := by
  simp only [Aligned, hst] at h
  obtain ⟨hmark, htok, hsaved, hlen⟩ := h
  have hrows : l.share.rows = [] := (hok.mark hmark).2
  change l.share.restored.tokens = some (numTokens l.data) ∧
    l.share.restored.rows.length = ceilDiv (numTokens l.data) k
  unfold Share.restored
  rw [if_pos hmark]
  cases hb : l.share.buffer with
  | none =>
    rw [hb] at hlen
    exact ⟨htok, by simpa [hrows] using hlen⟩
  | some buf =>
    rw [hb] at hlen
    exact ⟨by simp [hsaved], hlen⟩

/-! ### The CPU copy is what was saved -/

/-- A swapped sequence is marked as swapped out and its CPU copy is what `swap_out` saved. -/
def Kept (l : Life β) : Prop :=
  l.data.status = .swapped →
    l.share.swappedOut = true ∧ l.share.saved = some (l.share.buffer.getD [])

theorem Kept.of_ne (h : l.data.status ≠ .swapped) : Kept l := fun h0 => absurd h0 h

theorem Kept.preempted (hok : l.Ok) (hst : Active l.data.status) : Kept l.preempted := by
  intro _
  have hbuf : l.share.buffer = none :=
    hok.copy (hok.mark_false (by rcases hst with h0 | h0 <;> rw [h0] <;> decide))
  refine ⟨rfl, ?_⟩
  change some l.share.rows =
    some ((if l.share.rows ≠ [] then some l.share.rows else l.share.buffer).getD [])
  by_cases hnil : l.share.rows = []
  · rw [if_neg (not_not.mpr hnil), hbuf, hnil]; rfl
  · rw [if_pos hnil]; rfl

/-- **Recovery** gives back as many blocks as were saved, with the saved contents. -/
theorem Kept.recovered (h : Kept l) (hok : l.Ok) (hst : l.data.status = .swapped) :
    l.recovered.share.saved = some l.recovered.share.rows := by
  obtain ⟨hmark, hsaved⟩ := h hst
  have hrows : l.share.rows = [] := (hok.mark hmark).2
  change l.share.restored.saved = some l.share.restored.rows
  unfold Share.restored
  rw [if_pos hmark]
  cases hb : l.share.buffer with
  | none =>
    rw [hb] at hsaved
    simpa [hrows] using hsaved
  | some buf =>
    rw [hb] at hsaved
    exact hsaved

end Life

end MoeInfinity.Serving.Lifecycle
