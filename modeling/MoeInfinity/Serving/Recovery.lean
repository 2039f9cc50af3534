import MoeInfinity.Lib.Runs
import MoeInfinity.Serving.ScheduleOps

/-! # Swapped sequences come back with their contents

Runs of the scheduler: requests are added and aborted, outputs are appended to the sequence objects,
the model writes to the KV tensor, and `schedule` and `update_after_step` are called, in any order
and with any arguments. A call that raises keeps the state it has reached.

`swap_in` pops the CPU copy of a sequence before it asks for blocks. If the free blocks do not
suffice, the copy is gone, and the next attempt brings the sequence back without its blocks
(`recovery_without_blocks`). As long as the copies fit whenever recovery tries them, every sequence
comes back with the blocks and contents it was swapped out with
(`recovered_contents_of_copiesFit`). -/

namespace MoeInfinity.Serving.Recovery

open MoeInfinity.Python MoeInfinity.Lib.Imperative MoeInfinity.Lib.Runs
open MoeInfinity.Serving.Sequence MoeInfinity.Serving.KvCache MoeInfinity.Serving.KvCacheSpec
open MoeInfinity.Serving.Schedule MoeInfinity.Serving.Schedule.Scheduler
open MoeInfinity.Serving.Lifecycle MoeInfinity.Serving.ScheduleSpec MoeInfinity.Serving.ScheduleInv
open MoeInfinity.Serving.ScheduleCall MoeInfinity.Serving.ScheduleOps

variable {β : Type}

/-! ### Runs -/

/-- The operations of a run. -/
inductive Op (β : Type) where
  | addRequest (requestId : String) (sequences : List SequenceData)
  | schedule (predict : Option (String → List ℕ → ℚ))
  | updateAfterStep (completed newDecode : List ℕ)
  | abortRequest (requestId : String)
  | appendOutputToken (seqId tokenId : ℕ)
  | writeKv (kv : ℕ → β)

/-- One operation; when it raises, the state it has reached is kept. -/
def step (s : Scheduler β) : Op β → Scheduler β
  | .addRequest rid seqs => (Scheduler.addRequest rid seqs).state s
  | .schedule predict => (Scheduler.schedule predict).state s
  | .updateAfterStep completed newDecode => (Scheduler.updateAfterStep completed newDecode).state s
  | .abortRequest rid => (Scheduler.abortRequest rid).state s
  | .appendOutputToken i t => (appendOutput i t).state s
  | .writeKv kv => { s with kvCache := { s.kvCache with kvCache := kv } }

/-- Every sequence that recovery moves from `SWAPPED` to `DECODE` has as many blocks as were saved
when it was swapped out, and their contents are the saved ones, in table order. -/
def RecoversSaved (s : Scheduler β) : Op β → Prop
  | .schedule _ =>
    let s' := (recoverSwappedGroups s.swapped).state s
    ∀ i, (s.store i).status = .swapped → (s'.store i).status = .decode →
      ∃ saved, s'.kvCache.savedAtSwapOut i = some saved ∧
        (owned s'.kvCache i).length = saved.length ∧
        gather s'.kvCache.kvCache (owned s'.kvCache i) = saved
  | _ => True

/-- At every call of `schedule` no block is free, or the CPU copies of the swapped sequences fit
into the free blocks. -/
def Roomy (s : Scheduler β) : Op β → Prop
  | .schedule _ => CopiesFit s
  | _ => True

instance (s : Scheduler β) : ∀ o : Op β, Decidable (Roomy s o)
  | .schedule _ => inferInstanceAs (Decidable (CopiesFit s))
  | .addRequest _ _ => isTrue trivial
  | .updateAfterStep _ _ => isTrue trivial
  | .abortRequest _ => isTrue trivial
  | .appendOutputToken _ _ => isTrue trivial
  | .writeKv _ => isTrue trivial

/-! ### The invariant -/

/-- The invariant of the scheduler, and the CPU copies are what was saved. -/
structure Safe (s : Scheduler β) : Prop where
  inv : Inv s
  kept : ∀ i, (life s i).Kept

theorem safe_new (cfg : SchedConfig) (kvCfg : KvConfig) (kv : ℕ → β) :
    Safe (Scheduler.new cfg (PagedKVCache.new kvCfg kv)) :=
  ⟨inv_new cfg kvCfg kv, fun _ => Life.Kept.of_ne (fun h0 => by cases h0)⟩

theorem Safe.of_keepsSwapped {s s' : Scheduler β} (h : Safe s) (hinv : Inv s')
    (hk : KeepsSwapped s s') : Safe s' := by
  refine ⟨hinv, fun i hi => ?_⟩
  have heq := hk i hi
  rw [heq] at hi ⊢
  exact h.kept i hi

theorem kept_of_event {k : ℕ} {l l' : Life β} (h : Event k l l') : l'.Kept := by
  cases h with
  | enter hok hst h =>
    obtain ⟨rows, -, rfl⟩ := h
    exact Life.Kept.of_ne fun h0 => by cases h0
  | preempt hok hst h =>
    subst h
    exact Life.Kept.preempted hok hst

theorem Safe.schedule {s : Scheduler β} (h : Safe s) (hfit : CopiesFit s)
    (predict : Option (String → List ℕ → ℚ)) : Safe ((Scheduler.schedule predict).state s) := by
  refine inv_of_wp (I := Safe) (wp_mono (wp_schedule predict h.inv) ?_ fun _ _ h => h.elim)
  intro out s' hs
  refine ⟨hs.inv, fun i => ?_⟩
  obtain ⟨l, hret, hev⟩ := hs.lives i
  have hl : l.Kept := by
    rcases hret with rfl | ⟨hst, rfl | ⟨hF, -⟩⟩
    · exact h.kept i
    · exact Life.Kept.of_ne fun h0 => by cases h0
    · exact absurd hfit hF
  rcases Relation.ReflTransGen.cases_tail hev with heq | ⟨l₁, -, hlast⟩
  · rw [heq]; exact hl
  · exact kept_of_event hlast

/-- What a write to the tensor does to a life. -/
theorem life_writeKv (s : Scheduler β) (kv : ℕ → β) (i : ℕ) :
    life { s with kvCache := { s.kvCache with kvCache := kv } } i =
      { life s i with share := { (life s i).share with rows := gather kv (owned s.kvCache i) } } :=
        rfl

theorem inv_writeKv {s : Scheduler β} (h : Inv s) (kv : ℕ → β) :
    Inv { s with kvCache := { s.kvCache with kvCache := kv } } := by
  refine ⟨h.wf.congr rfl rfl, h.seqId, fun i => ?_, h.registered, h.waiting, h.running, h.swapped,
    h.nodup, h.queued, h.requests, h.ids, h.member⟩
  have hok := h.ok i
  have hrows : (life s i).share.rows = [] → gather kv (owned s.kvCache i) = [] := by
    intro h0
    have h1 : gather s.kvCache.kvCache (owned s.kvCache i) = [] := h0
    simpa [gather] using h1
  rw [life_writeKv]
  exact ⟨hok.table, fun h0 => hrows (hok.rows h0),
    fun h0 => ⟨(hok.mark h0).1, hrows (hok.mark h0).2⟩, hok.copy⟩

theorem Safe.writeKv {s : Scheduler β} (h : Safe s) (kv : ℕ → β) :
    Safe { s with kvCache := { s.kvCache with kvCache := kv } } :=
  ⟨inv_writeKv h.inv kv, fun i hi => h.kept i hi⟩

theorem Safe.appendOutput {s : Scheduler β} (h : Safe s) (i t : ℕ) :
    Safe ((Scheduler.appendOutput i t).state s) := by
  refine inv_of_wp (I := Safe) (wp_mono (wp_appendOutput h.inv i t) ?_ ?_)
  · rintro _ s' ⟨hinv, hE⟩
    refine ⟨hinv, fun j => ?_⟩
    by_cases hj : j ∈ [i]
    · rw [hE.each j hj]; exact h.kept j
    · rw [hE.other j hj]; exact h.kept j
  · rintro e s' ⟨rfl, -⟩
    exact h

/-- **One operation** under the condition keeps the invariant. -/
theorem Safe.step {s : Scheduler β} (h : Safe s) {o : Op β} (hr : Roomy s o) :
    Safe (Recovery.step s o) := by
  cases o with
  | addRequest rid seqs =>
    refine inv_of_wp (I := Safe) (wp_mono (wp_addRequest rid seqs h.inv) ?_ ?_)
    · rintro _ s' ⟨hinv, t, hreg, rfl⟩
      exact h.of_keepsSwapped hinv fun i hi => hreg.keepsSwapped i hi
    · rintro e s' (⟨-, rfl⟩ | ⟨done, d, rest, -, hreg, -⟩)
      · exact h
      · exact h.of_keepsSwapped hreg.inv hreg.keepsSwapped
  | schedule predict => exact h.schedule hr predict
  | updateAfterStep completed newDecode =>
    obtain ⟨hinv, hk⟩ := inv_updateAfterStep completed newDecode h.inv
    exact h.of_keepsSwapped hinv hk
  | abortRequest rid =>
    exact inv_of_wp (I := Safe) (wp_mono (wp_abortRequest rid h.inv)
      (fun _ s' hs => h.of_keepsSwapped hs.1 (keepsSwapped_of_ended h.inv hs.2.2.2))
      fun _ _ h0 => h0.elim)
  | appendOutputToken i t => exact h.appendOutput i t
  | writeKv kv => exact h.writeKv kv

/-! ### Recovery -/

theorem Safe.recoversSaved {s : Scheduler β} (h : Safe s) {o : Op β} (hr : Roomy s o) :
    RecoversSaved s o := by
  cases o with
  | schedule predict =>
    intro i hst hst'
    set s' := (recoverSwappedGroups s.swapped).state s
    have hrec : (life s' i).data.status = .decode → life s' i = (life s i).recovered := by
      refine inv_of_wp (I := fun s' : Scheduler β => (life s' i).data.status = .decode →
        life s' i = (life s i).recovered) (wp_mono (wp_recoverSwappedGroups h.inv) ?_
        fun _ _ h0 => h0.elim)
      rintro _ t (⟨-, rfl⟩ | ⟨hpos, hrec⟩) hdec
      · have hdec : (t.store i).status = .decode := hdec
        rw [hst] at hdec; cases hdec
      · have hst : (life s i).data.status = .swapped := hst
        rcases hrec.lives i with hl | ⟨-, hl | ⟨hF, -⟩⟩
        · rw [hl, hst] at hdec; cases hdec
        · exact hl
        · exact absurd (hr.resolve_left hpos) (not_le.mpr hF)
    have hl := hrec hst'
    have hsaved := (h.kept i).recovered (h.inv.ok i) hst
    rw [← hl] at hsaved
    refine ⟨_, hsaved, ?_, rfl⟩
    exact (share_rows_length s'.kvCache i).symm
  | addRequest rid seqs => exact trivial
  | updateAfterStep completed newDecode => exact trivial
  | abortRequest rid => exact trivial
  | appendOutputToken i t => exact trivial
  | writeKv kv => exact trivial

/-- **Recovery restores what was saved** in every run in which the CPU copies fit at every call of
`schedule`. -/
theorem recovered_contents_of_copiesFit (cfg : SchedConfig) (kvCfg : KvConfig) (kv : ℕ → β)
    (ops : List (Op β)) (h : Along step Roomy (Scheduler.new cfg (PagedKVCache.new kvCfg kv)) ops) :
    Along step RecoversSaved (Scheduler.new cfg (PagedKVCache.new kvCfg kv)) ops :=
  along_of_inv (fun _ _ hs hr => hs.step hr) (fun _ _ hs hr => hs.recoversSaved hr) ops _
    (safe_new cfg kvCfg kv) h

/-! ### Both cases at a small pool -/

theorem four_slots : 0 < 4 := by decide

theorem eight_sequences : 0 < 8 := by decide

theorem sixtyFour_tokens : 0 < 64 := by decide

/-- A fresh sequence with the given prompt. -/
def sequence (seqId : ℕ) (prompt : List ℕ) : SequenceData := { SequenceData.blank seqId with
  promptTokenIds := prompt }

/-- Two blocks of four slots; block `b` of the tensor holds `b`. -/
def twoBlocks : Scheduler ℕ :=
  Scheduler.new ⟨8, 64, eight_sequences, sixtyFour_tokens⟩
    (PagedKVCache.new ⟨2, 4, Nat.two_pos, four_slots⟩ fun b => b)

/-- A request of two blocks is preempted by one of one block, and comes back after the other has
been aborted. -/
def preemptAndReturn : List (Op ℕ) :=
  [.addRequest "a" [sequence 0 [1, 2, 3, 4, 5]], .schedule none, .updateAfterStep [] [0],
    .addRequest "b" [sequence 1 [6]], .schedule none, .abortRequest "b", .schedule none]

theorem recovered_contents_preemptAndReturn :
    Along step Roomy twoBlocks preemptAndReturn ∧
      Along step RecoversSaved twoBlocks preemptAndReturn ∧
      ((exec step twoBlocks preemptAndReturn).store 0).status = .decode :=
  ⟨by decide, recovered_contents_of_copiesFit _ _ _ _ (by decide), by decide⟩

/-- The same requests, but `schedule` is called once more while only one block is free. -/
def retryTooEarly : List (Op ℕ) :=
  [.addRequest "a" [sequence 0 [1, 2, 3, 4, 5]], .schedule none, .updateAfterStep [] [0],
    .addRequest "b" [sequence 1 [6]], .schedule none, .schedule none, .abortRequest "b"]

/-- Two blocks were saved for sequence `0`, and it comes back to `DECODE` without any. -/
theorem recovery_without_blocks : ¬ ∀ (cfg : SchedConfig) (kvCfg : KvConfig) (kv : ℕ → ℕ)
    (ops : List (Op ℕ)),
    Along step RecoversSaved (Scheduler.new cfg (PagedKVCache.new kvCfg kv)) ops := by
  intro h
  have hrun := h ⟨8, 64, by decide, by decide⟩ ⟨2, 4, by decide, by decide⟩ (fun b => b)
    (retryTooEarly ++ [.schedule none])
  have hlast : RecoversSaved (exec step twoBlocks retryTooEarly) (.schedule none) :=
    hrun.2.2.2.2.2.2.2.1
  obtain ⟨saved, hsaved, hlen, -⟩ := hlast 0 (by decide) (by decide)
  have hsaved' : some [0, 1] = some saved := by rw [← hsaved]; decide
  have hnone : (owned ((recoverSwappedGroups (exec step twoBlocks retryTooEarly).swapped).state
      (exec step twoBlocks retryTooEarly)).kvCache 0).length = 0 := by decide
  rw [hnone, ← Option.some.inj hsaved'] at hlen
  cases hlen

end MoeInfinity.Serving.Recovery
