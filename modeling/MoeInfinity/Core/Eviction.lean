import Mathlib.Algebra.Order.Group.Int
import Mathlib.Data.List.Perm.Basic
import Mathlib.Data.List.Sort
import Mathlib.Logic.Relation
import MoeInfinity.Core.ExecState
import MoeInfinity.Lib.Shed

/-! # Making room for a sparse node (`ArcherTaskPool::RemoveCachedSparseNode`)

The function as a whole, with nothing else going on: it moves sparse nodes of a GPU to the host
until the new node fits under the limit. Candidates that did not overflow, nodes in the exec queue
and nodes that are not idle stay. The order of the nodes is what `std::sort` makes of them, so it is
not determined among equally visited nodes.

* `removeCachedSparseNode_alone`: a thread that runs the instructions of the function alone computes
  it.
* `removeCachedSparseNode_eq`: it moves the first of the nodes that it may move, as many as are
  needed.
* `room_made`: what its result says about the bytes on the device.
* `coldestFirst_iff`: when it leaves no colder node behind; the most visited go first. -/

namespace MoeInfinity.Core.Nodes

open MoeInfinity.Lib.Shed

variable {S : Setup}

/-! ### The function -/

/-- The loop over the nodes of the device; it returns the nodes and the bytes that are left. -/
def evictSparse (tasks : Tasks S) : Eviction S → NodeMap S → List ℕ → NodeMap S × ℤ
  | ev, nodes, [] => (nodes, ev.cacheSize)
  | ev, nodes, v :: victims =>
    if ev.skips nodes tasks v then evictSparse tasks ev nodes victims
    else if (nodes v).execState = .idle then
      let nodes := store (setDevice (store nodes v .fetching) v none) v .idle
      let ev := { ev with cacheSize := ev.cacheSize - S.byteSize v }
      if ev.cacheSize ≤ ev.cacheLimit then
        (nodes, ev.cacheSize) else evictSparse tasks ev nodes victims
    else if ev.cacheSize ≤ ev.cacheLimit then (nodes, ev.cacheSize)
    else evictSparse tasks ev nodes victims

/-- The device that is meant: the default device of the node is taken for `-1`. -/
def roomDevice (n : ℕ) (deviceId : Option (Fin S.gpus)) : Fin S.gpus :=
  deviceId.getD (S.defaultDevice n)

/-- The limit for the nodes that are there before the node `n`. -/
def roomLimit (nodes : NodeMap S) (n : ℕ) (g : Fin S.gpus) : ℤ :=
  getSparseCacheLimit nodes g - S.byteSize n

/-- `RemoveCachedSparseNode`, for the order `order` of the nodes on the device. -/
def removeCachedSparseNode (order : List ℕ) (nodes : NodeMap S) (tasks : Tasks S) (n : ℕ)
    (deviceId : Option (Fin S.gpus)) : NodeMap S × Bool :=
  if (nodes n).device.isSome then (nodes, true)
  else
    let g := roomDevice n deviceId
    let cacheLimit := roomLimit nodes n g
    let cacheSize := sizeOn nodes S.sparseNodes g
    if cacheSize ≤ cacheLimit then (nodes, true)
    else
      let r := evictSparse tasks ⟨.sparse n, tasks.execQueue, cacheLimit, cacheSize⟩ nodes order
      (r.1, r.2 ≤ cacheLimit)

/-- What `std::sort` makes of the nodes of a device: the more visited first. -/
structure Sorted (nodes : NodeMap S) (g : Fin S.gpus) (order : List ℕ) : Prop where
  perm : order.Perm (onDevice nodes S.sparseNodes g)
  visits : order.Pairwise fun n m => (nodes m).incacheVisitCount ≤ (nodes n).incacheVisitCount

/-! ### The instructions of the function -/

/-- One instruction of the pool, with no other thread in between. -/
def PoolStep (c : Choice) (x y : NodeMap S × Tasks S × List (PoolInstr S)) : Prop :=
  ∃ i rest code, x.2.2 = i :: rest ∧ i.run c x.1 x.2.1 = some (y.1, y.2.1, code) ∧
    y.2.2 = code ++ rest

theorem poolStep {c : Choice} {nodes nodes' : NodeMap S} {tasks tasks' : Tasks S} {i : PoolInstr S}
    {code rest : List (PoolInstr S)} (h : i.run c nodes tasks = some (nodes', tasks', code)) :
    PoolStep c (nodes, tasks, i :: rest) (nodes', tasks', code ++ rest) :=
  ⟨i, rest, code, rfl, h, rfl⟩

/-- The loop of the instructions is that of the function. -/
theorem evictSparse_alone (c : Choice) (tasks : Tasks S) (rest : List (PoolInstr S))
    (victims : List ℕ) :
    ∀ (ev : Eviction S) (nodes : NodeMap S),
      let r := evictSparse tasks ev nodes victims
      Relation.ReflTransGen (PoolStep c) (nodes, tasks, .nextVictim ev victims :: rest)
        (r.1, tasks, ev.room.done (r.2 ≤ ev.cacheLimit) ++ rest) := by
  induction victims with
  | nil => exact fun ev nodes => Relation.ReflTransGen.single (poolStep rfl)
  | cons v victims ih =>
    intro ev nodes
    unfold evictSparse
    by_cases hskip : ev.skips nodes tasks v
    · rw [if_pos hskip]
      have hnext : (PoolInstr.nextVictim ev (v :: victims)).run c nodes tasks =
          some (nodes, tasks, [.nextVictim ev victims]) := by
        rw [PoolInstr.run, if_pos hskip]
      exact Relation.ReflTransGen.head (poolStep hnext) (ih ev nodes)
    · rw [if_neg hskip]
      have htake : (PoolInstr.nextVictim ev (v :: victims)).run c nodes tasks =
          some (nodes, tasks, [.takeVictim ev v victims]) := by
        rw [PoolInstr.run, if_neg hskip]
      refine Relation.ReflTransGen.head (poolStep htake) ?_
      by_cases hidle : (nodes v).execState = .idle
      · rw [if_pos hidle]
        have hmove : (PoolInstr.takeVictim ev v victims).run c nodes tasks =
            some (store nodes v .fetching, tasks, [.moveVictim ev v victims]) := by
          rw [PoolInstr.run, if_pos hidle]
        refine Relation.ReflTransGen.head (poolStep hmove) ?_
        refine Relation.ReflTransGen.head (poolStep rfl)
          (Relation.ReflTransGen.head (poolStep rfl) ?_)
        unfold Eviction.goOn
        dsimp only
        split_ifs with hle
        · rw [decide_eq_true hle]
          exact Relation.ReflTransGen.refl
        · exact ih _ _
      · rw [if_neg hidle]
        have hgo : (PoolInstr.takeVictim ev v victims).run c nodes tasks =
            some (nodes, tasks, ev.goOn victims) := by
          rw [PoolInstr.run, if_neg hidle]
        refine Relation.ReflTransGen.head (poolStep hgo) ?_
        unfold Eviction.goOn
        split_ifs with hle
        · rw [decide_eq_true hle]
          exact Relation.ReflTransGen.refl
        · exact ih ev nodes

/-- **The function refines its instructions**: a thread that runs them alone, for the default device
of the node, ends with the nodes and the result of the function. -/
theorem removeCachedSparseNode_alone {c : Choice} {nodes : NodeMap S} (tasks : Tasks S) {n : ℕ}
    (horder : Sorted nodes (S.defaultDevice n) c.order) (rest : List (PoolInstr S)) :
    let r := removeCachedSparseNode c.order nodes tasks n none
    Relation.ReflTransGen (PoolStep c) (nodes, tasks, .removeCached (.sparse n) :: rest)
      (r.1, tasks, (Room.sparse n).done r.2 ++ rest) := by
  intro r
  by_cases hdevice : (nodes n).device.isSome
  · have hr : r = (nodes, true) := if_pos hdevice
    rw [hr]
    refine Relation.ReflTransGen.single (poolStep ?_)
    rw [PoolInstr.run, Room.node, if_pos hdevice]
  · have hsnap : (PoolInstr.removeCached (.sparse n)).run c nodes tasks =
        some (nodes, tasks, [.snapshotExec (.sparse n)]) := by
      rw [PoolInstr.run, Room.node, if_neg hdevice]
      rfl
    refine Relation.ReflTransGen.head (poolStep hsnap)
      (Relation.ReflTransGen.head (poolStep rfl) ?_)
    have hlimit : (Room.sparse n).cacheLimit nodes = roomLimit nodes n (roomDevice n none) := rfl
    have hsize : sizeOn nodes (Room.sparse n : Room S).nodes
        (S.defaultDevice (Room.sparse n : Room S).node) =
          sizeOn nodes S.sparseNodes (roomDevice n none) := rfl
    by_cases hle : sizeOn nodes S.sparseNodes (roomDevice n none) ≤
      roomLimit nodes n (roomDevice n none)
    · have hr : r = (nodes, true) := by
        show removeCachedSparseNode c.order nodes tasks n none = _
        unfold removeCachedSparseNode
        rw [if_neg hdevice, if_pos hle]
      rw [hr]
      refine Relation.ReflTransGen.single (poolStep ?_)
      rw [PoolInstr.run, hlimit, hsize, if_pos hle]
    · have hr : r = _ := (if_neg hdevice).trans (if_neg hle)
      rw [hr]
      have hmeasure : (PoolInstr.measure (.sparse n) tasks.execQueue).run c nodes tasks =
          some (nodes, tasks, [.nextVictim ⟨.sparse n, tasks.execQueue,
            roomLimit nodes n (roomDevice n none),
            sizeOn nodes S.sparseNodes (roomDevice n none)⟩ c.order]) := by
        rw [PoolInstr.run, hlimit, hsize, if_neg hle, if_pos]
        refine ⟨horder.perm, horder.visits.imp fun h => ?_⟩
        exact decide_eq_true h
      refine Relation.ReflTransGen.head (poolStep hmeasure) ?_
      exact evictSparse_alone c tasks rest c.order _ nodes

/-! ### Which nodes are moved -/

/-- The function may move the node: it is idle, not in the exec queue, and no candidate without the
overflow mark. -/
def Movable (nodes : NodeMap S) (tasks : Tasks S) (v : ℕ) : Prop :=
  (nodes v).execState = .idle ∧ v ∉ tasks.execQueue ∧
  ¬ (v ∈ tasks.candidates ∧ (nodes v).isOverflow = false)

instance (nodes : NodeMap S) (tasks : Tasks S) (v : ℕ) : Decidable (Movable nodes tasks v) :=
  inferInstanceAs (Decidable (_ ∧ _))

/-- The node is moved to the host, and its state word is given back. -/
def moved (nodes : NodeMap S) (v : ℕ) : NodeMap S :=
  store (setDevice (store nodes v .fetching) v none) v .idle

theorem moved_apply (nodes : NodeMap S) (v m : ℕ) :
    moved nodes v m = if m = v then { nodes v with device := none, execState := .idle }
      else nodes m := by
  unfold moved store setDevice modify
  by_cases hm : m = v
  · subst hm
    rw [if_pos rfl]
    simp only [Function.update_self]
    split_ifs with h
    · have hdevice : (nodes m).device = none := by simpa using h
      rw [hdevice]
    · rfl
  · simp only [Function.update_of_ne hm, if_neg hm]

theorem movable_moved {nodes : NodeMap S} {tasks : Tasks S} {v m : ℕ} (h : m ≠ v) :
    Movable (moved nodes v) tasks m ↔ Movable nodes tasks m := by
  unfold Movable
  rw [moved_apply, if_neg h]

/-- All nodes of a list, one after the other. -/
def movedAll (nodes : NodeMap S) (vs : List ℕ) : NodeMap S := vs.foldl moved nodes

theorem movedAll_apply (vs : List ℕ) (m : ℕ) : ∀ nodes : NodeMap S,
    movedAll nodes vs m = if m ∈ vs then { nodes m with device := none, execState := .idle }
      else nodes m := by
  induction vs with
  | nil => exact fun _ => rfl
  | cons v vs ih =>
    intro nodes
    show movedAll (moved nodes v) vs m = _
    rw [ih, moved_apply]
    by_cases hv : m = v
    · subst hv
      simp
    · simp [hv]

/-- **The loop of the function** moves the first of the nodes that it may move, until the limit is
met. -/
theorem evictSparse_eq (tasks : Tasks S) {n : ℕ} {cacheLimit : ℤ} (victims : List ℕ) :
    ∀ (nodes : NodeMap S) (cacheSize : ℤ), victims.Nodup → cacheLimit < cacheSize →
      let vs := shed S.byteSize cacheLimit cacheSize (victims.filter fun v => Movable nodes tasks v)
      evictSparse tasks ⟨.sparse n, tasks.execQueue, cacheLimit, cacheSize⟩ nodes victims =
        (movedAll nodes vs, cacheSize - (vs.map S.byteSize).sum) := by
  induction victims with
  | nil =>
    intro nodes cacheSize _ _
    simp [evictSparse, shed, movedAll]
  | cons v victims ih =>
    intro nodes cacheSize hnodup hsize
    obtain ⟨hv, hnodup⟩ := List.nodup_cons.mp hnodup
    have hskips : Eviction.skips ⟨.sparse n, tasks.execQueue, cacheLimit, cacheSize⟩ nodes
        tasks v = true ↔ (v ∈ tasks.candidates ∧ (nodes v).isOverflow = false) ∨
        v ∈ tasks.execQueue := by
      simp [Eviction.skips, Room.isDense]
    unfold evictSparse
    by_cases hmovable : Movable nodes tasks v
    · have hrest : (victims.filter fun m => Movable (moved nodes v) tasks m) =
          victims.filter fun m => Movable nodes tasks m := by
        refine List.filter_congr fun m hm => ?_
        have hne : m ≠ v := fun h => hv (h ▸ hm)
        simp only [movable_moved hne]
      have hfilter : ((v :: victims).filter fun m => Movable nodes tasks m) =
          v :: victims.filter fun m => Movable nodes tasks m :=
        List.filter_cons_of_pos (decide_eq_true hmovable)
      rw [if_neg fun h => (hskips.mp h).elim hmovable.2.2 hmovable.2.1, if_pos hmovable.1,
        hfilter, shed]
      dsimp only
      split_ifs with hle
      · simp [movedAll, moved]
      · have hloop := ih (moved nodes v) (cacheSize - S.byteSize v) hnodup (not_le.mp hle)
        rw [hrest] at hloop
        rw [List.map_cons, List.sum_cons, ← sub_sub]
        exact hloop
    · have hfilter : ((v :: victims).filter fun m => Movable nodes tasks m) =
          victims.filter fun m => Movable nodes tasks m :=
        List.filter_cons_of_neg (by simpa using hmovable)
      rw [hfilter]
      by_cases hskip : Eviction.skips ⟨.sparse n, tasks.execQueue, cacheLimit, cacheSize⟩ nodes
        tasks v = true
      · rw [if_pos hskip]
        exact ih nodes cacheSize hnodup hsize
      · have hbusy : (nodes v).execState ≠ .idle := fun hidle => hmovable
          ⟨hidle, fun h => hskip (hskips.mpr (Or.inr h)), fun h => hskip (hskips.mpr (Or.inl h))⟩
        rw [if_neg hskip, if_neg hbusy, if_neg (not_le.mpr hsize)]
        exact ih nodes cacheSize hnodup hsize

/-- The nodes that are moved, in the order in which they are. -/
def victims (order : List ℕ) (nodes : NodeMap S) (tasks : Tasks S) (n : ℕ) (g : Fin S.gpus) :
    List ℕ :=
  if sizeOn nodes S.sparseNodes g ≤ roomLimit nodes n g then []
  else shed S.byteSize (roomLimit nodes n g) (sizeOn nodes S.sparseNodes g)
    (order.filter fun v => Movable nodes tasks v)

/-- **The function**, for a node that is not on a GPU. -/
theorem removeCachedSparseNode_eq {order : List ℕ} {nodes : NodeMap S} (tasks : Tasks S) {n : ℕ}
    {deviceId : Option (Fin S.gpus)} (hn : (nodes n).device = none) (hnodup : order.Nodup) :
    let g := roomDevice n deviceId
    let vs := victims order nodes tasks n g
    removeCachedSparseNode order nodes tasks n deviceId = (movedAll nodes vs,
      decide (sizeOn nodes S.sparseNodes g - (vs.map S.byteSize).sum ≤ roomLimit nodes n g)) := by
  intro g vs
  unfold removeCachedSparseNode
  rw [if_neg (by rw [hn]; nofun)]
  show (if sizeOn nodes S.sparseNodes g ≤ roomLimit nodes n g then _ else _) = _
  by_cases hle : sizeOn nodes S.sparseNodes g ≤ roomLimit nodes n g
  · have hvs : vs = [] := if_pos hle
    rw [if_pos hle, hvs]
    simpa [movedAll] using hle
  · have hvs : vs = shed _ _ _ _ := if_neg hle
    have hloop := evictSparse_eq tasks (n := n) order nodes _ hnodup (not_le.mp hle)
    rw [if_neg hle, hvs]
    exact congrArg (fun r : NodeMap S × ℤ => (r.1, decide (r.2 ≤ roomLimit nodes n g))) hloop

/-! ### Bytes on the device -/

section Bytes

variable {order : List ℕ} {nodes : NodeMap S} {tasks : Tasks S} {n : ℕ} {g : Fin S.gpus}

theorem Sorted.nodup (h : Sorted nodes g order) (hnodup : S.sparseNodes.Nodup) : order.Nodup :=
  h.perm.nodup_iff.mpr (hnodup.filter _)

theorem victims_isPrefix (order : List ℕ) (nodes : NodeMap S) (tasks : Tasks S) (n : ℕ)
    (g : Fin S.gpus) :
    victims order nodes tasks n g <+: order.filter fun v => Movable nodes tasks v := by
  unfold victims
  split_ifs
  · exact List.nil_prefix
  · exact shed_isPrefix ..

/-- What is moved is on the device and may be moved. -/
theorem mem_victims (h : Sorted nodes g order) {v : ℕ} (hv : v ∈ victims order nodes tasks n g) :
    v ∈ onDevice nodes S.sparseNodes g ∧ Movable nodes tasks v := by
  have hfilter := (victims_isPrefix order nodes tasks n g).subset hv
  rw [List.mem_filter, decide_eq_true_eq] at hfilter
  exact ⟨h.perm.mem_iff.mp hfilter.1, hfilter.2⟩

theorem mem_onDevice {ns : List ℕ} {v : ℕ} :
    v ∈ onDevice nodes ns g ↔ v ∈ ns ∧ (nodes v).device = some g := by
  unfold onDevice
  rw [List.mem_filter, decide_eq_true_eq]

/-- The nodes that stay on the device. -/
theorem onDevice_movedAll (vs ns : List ℕ) :
    onDevice (movedAll nodes vs) ns g = (onDevice nodes ns g).filter fun v => v ∉ vs := by
  unfold onDevice
  rw [List.filter_filter]
  refine List.filter_congr fun v _ => ?_
  rw [movedAll_apply]
  by_cases hv : v ∈ vs
  · simp [hv]
  · simp [hv]

/-- A part of a list, and what is left of it. -/
theorem sum_filter_add (w : ℕ → ℤ) (p : ℕ → Bool) (l : List ℕ) :
    ((l.filter p).map w).sum + ((l.filter fun v => !p v).map w).sum = (l.map w).sum := by
  rw [← List.sum_append, ← List.map_append]
  exact ((List.filter_append_perm p l).map w).sum_eq

theorem sizeOn_movedAll {vs ns : List ℕ} (hns : ns.Nodup) (hvs : vs.Nodup)
    (hsub : ∀ v ∈ vs, v ∈ onDevice nodes ns g) :
    sizeOn (movedAll nodes vs) ns g = sizeOn nodes ns g - (vs.map S.byteSize).sum := by
  have hperm : ((onDevice nodes ns g).filter fun v => v ∈ vs).Perm vs := by
    refine (List.perm_ext_iff_of_nodup ((hns.filter _).filter _) hvs).mpr fun v => ?_
    rw [List.mem_filter, decide_eq_true_eq]
    exact ⟨fun h => h.2, fun h => ⟨hsub v h, h⟩⟩
  have hsum := sum_filter_add S.byteSize (fun v => decide (v ∈ vs)) (onDevice nodes ns g)
  rw [(hperm.map S.byteSize).sum_eq] at hsum
  unfold sizeOn
  rw [onDevice_movedAll]
  simp only [decide_not]
  omega

/-- Nodes that are in no list of moved ones stay where they are. -/
theorem sizeOn_movedAll_of_disjoint {vs ns : List ℕ} (h : ∀ v ∈ ns, v ∉ vs) :
    sizeOn (movedAll nodes vs) ns g = sizeOn nodes ns g := by
  unfold sizeOn
  rw [onDevice_movedAll, List.filter_eq_self.mpr]
  intro v hv
  simpa using h v (List.mem_of_mem_filter hv)

/-- The bytes of the nodes on the device that may not be moved. -/
def fixedSize (nodes : NodeMap S) (tasks : Tasks S) (g : Fin S.gpus) : ℤ :=
  (((onDevice nodes S.sparseNodes g).filter fun v => ¬ Movable nodes tasks v).map S.byteSize).sum

/-- If the limit is not met, then all nodes that may be moved are. -/
theorem victims_eq_or_le (order : List ℕ) (nodes : NodeMap S) (tasks : Tasks S) (n : ℕ)
    (g : Fin S.gpus) :
    victims order nodes tasks n g = (order.filter fun v => Movable nodes tasks v) ∨
      sizeOn nodes S.sparseNodes g - ((victims order nodes tasks n g).map S.byteSize).sum ≤
        roomLimit nodes n g := by
  unfold victims
  split_ifs with hle
  · refine Or.inr ?_
    rw [List.map_nil, List.sum_nil, sub_zero]
    exact hle
  · exact shed_eq_or_le ..

/-- **What the function promises**: `true` if the bytes that stay and the new node fit under the
limit of the device, `false` only if the nodes that it may not move are too many already; it moves
no others, and gives back the state word of each node. -/
structure RoomMade (nodes : NodeMap S) (tasks : Tasks S) (n : ℕ) (g : Fin S.gpus)
    (r : NodeMap S × Bool) :
    Prop where
  fits : r.2 = true → sizeOn r.1 S.sparseNodes g + S.byteSize n ≤ getSparseCacheLimit r.1 g
  full : r.2 = false → getSparseCacheLimit nodes g - S.byteSize n < fixedSize nodes tasks g
  limit : getSparseCacheLimit r.1 g = getSparseCacheLimit nodes g
  moves : ∀ m, (r.1 m).device ≠ (nodes m).device → m ∈ onDevice nodes S.sparseNodes g ∧
    (r.1 m).device = none ∧ Movable nodes tasks m
  execState : ∀ m, (r.1 m).execState = (nodes m).execState

/-- **Room is made**, for every order of the nodes, every node that is not on a GPU, and every
device. -/
theorem room_made (hstages : (S.sparseNodes ++ S.denseNodes).Nodup) (nodes : NodeMap S)
    (tasks : Tasks S) (n : ℕ) (deviceId : Option (Fin S.gpus)) (order : List ℕ)
    (hn : (nodes n).device = none) (h : Sorted nodes (roomDevice n deviceId) order) :
    RoomMade nodes tasks n (roomDevice n deviceId)
      (removeCachedSparseNode order nodes tasks n deviceId) := by
  obtain ⟨hsparse, -, hdisjoint⟩ := List.nodup_append'.mp hstages
  have horder := h.nodup hsparse
  rw [removeCachedSparseNode_eq tasks hn horder]
  set g := roomDevice n deviceId
  set vs := victims order nodes tasks n g with hvs
  have hmem : ∀ v ∈ vs, v ∈ onDevice nodes S.sparseNodes g ∧ Movable nodes tasks v :=
    fun v hv => mem_victims h hv
  have hnodup : vs.Nodup :=
    (horder.filter _).sublist (victims_isPrefix order nodes tasks n g).sublist
  have hsize := sizeOn_movedAll hsparse hnodup fun v hv => (hmem v hv).1
  have hlimit : getSparseCacheLimit (movedAll nodes vs) g = getSparseCacheLimit nodes g := by
    unfold getSparseCacheLimit
    rw [sizeOn_movedAll_of_disjoint fun v hv hvs => hdisjoint (mem_onDevice.mp (hmem v hvs).1).1 hv]
  refine ⟨fun hfits => ?_, fun hfull => ?_, hlimit, fun m hm => ?_, fun m => ?_⟩
  · have hle := of_decide_eq_true hfits
    unfold roomLimit at hle
    show sizeOn (movedAll nodes vs) _ g + _ ≤ getSparseCacheLimit (movedAll nodes vs) g
    rw [hlimit, hsize]
    omega
  · have hgt := not_le.mp (of_decide_eq_false hfull)
    have hall := (victims_eq_or_le order nodes tasks n g).resolve_right (not_le.mpr hgt)
    have hsum :=
      sum_filter_add S.byteSize (fun v => decide (Movable nodes tasks v))
        (onDevice nodes S.sparseNodes g)
    have hperm := ((h.perm.filter fun v => decide (Movable nodes tasks v)).map S.byteSize).sum_eq
    rw [← hall, ← hvs] at hperm
    unfold fixedSize
    simp only [decide_not]
    unfold roomLimit at hgt
    unfold sizeOn at hgt
    omega
  · show _ ∧ (movedAll nodes vs m).device = none ∧ _
    have hm' : (movedAll nodes vs m).device ≠ (nodes m).device := hm
    rw [movedAll_apply] at hm' ⊢
    by_cases hv : m ∈ vs
    · rw [if_pos hv]
      exact ⟨(hmem m hv).1, rfl, (hmem m hv).2⟩
    · rw [if_neg hv] at hm'
      exact absurd rfl hm'
  · show (movedAll nodes vs m).execState = _
    rw [movedAll_apply]
    split_ifs with hv
    · exact (hmem m hv).2.1.symm
    · rfl

end Bytes

/-! ### The order of the evictions -/

/-- No node is moved while one that could be moved and was visited less stays on the device. -/
def ColdestFirst (nodes nodes' : NodeMap S) (tasks : Tasks S) (g : Fin S.gpus) : Prop :=
  ∀ v ∈ onDevice nodes S.sparseNodes g, (nodes' v).device ≠ some g →
    ∀ m ∈ onDevice nodes S.sparseNodes g, Movable nodes tasks m → (nodes' m).device = some g →
      (nodes v).incacheVisitCount ≤ (nodes m).incacheVisitCount

/-- The nodes on the device that may be moved. -/
def movables (nodes : NodeMap S) (tasks : Tasks S) (g : Fin S.gpus) : List ℕ :=
  (onDevice nodes S.sparseNodes g).filter fun v => Movable nodes tasks v

/-- A least visited one of them. -/
def Coldest (nodes : NodeMap S) (tasks : Tasks S) (g : Fin S.gpus) (v : ℕ) : Prop :=
  v ∈ movables nodes tasks g ∧
    ∀ m ∈ movables nodes tasks g, (nodes v).incacheVisitCount ≤ (nodes m).incacheVisitCount

/-- The limit asks for all nodes that may be moved: without the bytes of all but a least visited
one, it is still exceeded. -/
def NeedsAll (nodes : NodeMap S) (tasks : Tasks S) (n : ℕ) (g : Fin S.gpus) : Prop :=
  ∀ v, Coldest nodes tasks g v → roomLimit nodes n g <
    sizeOn nodes S.sparseNodes g - (((movables nodes tasks g).filter (· ≠ v)).map S.byteSize).sum

/-- All nodes that may be moved were visited equally often. -/
def EquallyVisited (nodes : NodeMap S) (tasks : Tasks S) (g : Fin S.gpus) : Prop :=
  ∀ v ∈ movables nodes tasks g, ∀ m ∈ movables nodes tasks g,
    (nodes v).incacheVisitCount = (nodes m).incacheVisitCount

section Order

variable {order : List ℕ} {nodes : NodeMap S} {tasks : Tasks S} {n : ℕ} {g : Fin S.gpus}

theorem Sorted.perm_movables (h : Sorted nodes g order) :
    (order.filter fun v => Movable nodes tasks v).Perm (movables nodes tasks g) := h.perm.filter _

theorem Sorted.visits_movables (h : Sorted nodes g order) :
    (order.filter fun v => Movable nodes tasks v).Pairwise fun n m =>
      (nodes m).incacheVisitCount ≤ (nodes n).incacheVisitCount := h.visits.filter _

/-- Whether a node of the device stays there. -/
theorem device_removeCachedSparseNode {deviceId : Option (Fin S.gpus)}
    (hn : (nodes n).device = none) (hnodup : order.Nodup) {m : ℕ}
    (hm : m ∈ onDevice nodes S.sparseNodes (roomDevice n deviceId)) :
    ((removeCachedSparseNode order nodes tasks n deviceId).1 m).device =
    some (roomDevice n deviceId) ↔
      m ∉ victims order nodes tasks n (roomDevice n deviceId) := by
  rw [removeCachedSparseNode_eq tasks hn hnodup]
  show (movedAll nodes _ m).device = _ ↔ _
  rw [movedAll_apply]
  by_cases hv : m ∈ victims order nodes tasks n (roomDevice n deviceId)
  · simp [hv]
  · rw [if_neg hv]
    exact ⟨fun _ => hv, fun _ => (mem_onDevice.mp hm).2⟩

theorem coldestFirst_victims {deviceId : Option (Fin S.gpus)} (hn : (nodes n).device = none)
    (hnodup : order.Nodup) (h : Sorted nodes (roomDevice n deviceId) order) :
    ColdestFirst nodes (removeCachedSparseNode order nodes tasks n deviceId).1 tasks
      (roomDevice n deviceId) ↔
      ∀ v ∈ victims order nodes tasks n (roomDevice n deviceId),
        ∀ m ∈ movables nodes tasks (roomDevice n deviceId),
          m ∉ victims order nodes tasks n (roomDevice n deviceId) →
          (nodes v).incacheVisitCount ≤ (nodes m).incacheVisitCount := by
  unfold ColdestFirst movables
  constructor
  · intro hcold v hv m hm hstays
    rw [List.mem_filter, decide_eq_true_eq] at hm
    have hdevice := (mem_victims h hv).1
    refine hcold v hdevice ?_ m hm.1 hm.2
      ((device_removeCachedSparseNode hn hnodup hm.1).mpr hstays)
    exact fun heq => (device_removeCachedSparseNode hn hnodup hdevice).mp heq hv
  · intro hcold v hv hmoved m hm hmovable hstays
    refine hcold v ?_ m (List.mem_filter.mpr ⟨hm, decide_eq_true hmovable⟩)
      ((device_removeCachedSparseNode hn hnodup hm).mp hstays)
    exact not_not.mp fun hv' => hmoved ((device_removeCachedSparseNode hn hnodup hv).mpr hv')

/-- The last of the nodes that may be moved is a least visited one, and the others are those before
it. -/
theorem Sorted.coldest (h : Sorted nodes g order) (hnodup : order.Nodup) {l : List ℕ} {e : ℕ}
    (hes : (order.filter fun v => Movable nodes tasks v) = l ++ [e]) :
    Coldest nodes tasks g e ∧
      (((movables nodes tasks g).filter (· ≠ e)).map S.byteSize).sum = (l.map S.byteSize).sum := by
  have hperm : (movables nodes tasks g).Perm (l ++ [e]) := hes ▸ h.perm_movables.symm
  have hvisits : (l ++ [e]).Pairwise fun n m => (nodes m).incacheVisitCount ≤
      (nodes n).incacheVisitCount :=
    hes ▸ h.visits_movables
  have hlast : e ∉ l := by
    have hfilter : (l ++ [e]).Nodup := hes ▸ hnodup.filter _
    exact fun hmem => (List.nodup_append.mp hfilter).2.2 e hmem e List.mem_cons_self rfl
  refine ⟨⟨hperm.mem_iff.mpr (by simp), fun m hm => ?_⟩, ?_⟩
  · rcases List.mem_append.mp (hperm.mem_iff.mp hm) with hm | hm
    · exact (List.pairwise_append.mp hvisits).2.2 m hm e List.mem_cons_self
    · rw [List.mem_singleton.mp hm]
  · have hothers : (l ++ [e]).filter (· ≠ e) = l := by
      rw [List.filter_append, List.filter_eq_self.mpr, List.filter_eq_nil_iff.mpr, List.append_nil]
      · simp
      · intro m hm
        simpa using fun heq : m = e => hlast (heq ▸ hm)
    rw [((hperm.filter _).map S.byteSize).sum_eq, hothers]

/-- **Colder nodes stay behind** unless nothing is moved, everything is, or there is no
difference. -/
theorem coldestFirst_of (hsize : ∀ m, 0 ≤ S.byteSize m) (hnodup : order.Nodup)
    (h : Sorted nodes g order)
    (hcond : sizeOn nodes S.sparseNodes g ≤ roomLimit nodes n g ∨ EquallyVisited nodes tasks g ∨
      NeedsAll nodes tasks n g) :
    ∀ v ∈ victims order nodes tasks n g, ∀ m ∈ movables nodes tasks g,
    m ∉ victims order nodes tasks n g →
      (nodes v).incacheVisitCount ≤ (nodes m).incacheVisitCount := by
  intro v hv m hm hstays
  have hmem : v ∈ movables nodes tasks g :=
    h.perm_movables.mem_iff.mp ((victims_isPrefix order nodes tasks n g).subset hv)
  rcases hcond with hle | hequal | hneeds
  · rw [victims, if_pos hle] at hv
    cases hv
  · exact (hequal v hmem m hm).le
  · -- `m` stays, so the limit is met before the last of the nodes, which is a least visited one
    exfalso
    have hm' := h.perm_movables.mem_iff.mpr hm
    obtain ⟨l, e, hes⟩ := (List.eq_nil_or_concat _).resolve_left (List.ne_nil_of_mem hm')
    rw [List.concat_eq_append] at hes
    obtain ⟨hcoldest, hothers⟩ := h.coldest hnodup hes
    have hneed := hneeds e hcoldest
    rw [hothers] at hneed
    have hne : victims order nodes tasks n g ≠ l ++ [e] := by
      intro hall
      rw [hall, ← hes] at hstays
      exact hstays hm'
    have hprefix := victims_isPrefix order nodes tasks n g
    rw [hes] at hprefix
    have hbefore := (List.prefix_concat_iff.mp hprefix).resolve_left hne
    have hsum := sum_le_of_isPrefix hsize hbefore
    have hle := (victims_eq_or_le order nodes tasks n g).resolve_left (hes ▸ hne)
    omega

/-- An order in which a least visited node comes last among those that may be moved. -/
theorem exists_order (hnodup : S.sparseNodes.Nodup) {v : ℕ} (hv : Coldest nodes tasks g v) :
    ∃ order l, Sorted nodes g order ∧ (order.filter fun v => Movable nodes tasks v) = l ++ [v] := by
  let le : ℕ → ℕ → Bool := fun a b => (nodes b).incacheVisitCount < (nodes a).incacheVisitCount ∨
    ((nodes a).incacheVisitCount = (nodes b).incacheVisitCount ∧ (b = v ∨ a ≠ v))
  have htrans : ∀ a b c, le a b = true → le b c = true → le a c = true := by
    intro a b c hab hbc
    simp only [le, decide_eq_true_eq] at hab hbc ⊢
    omega
  have htotal : ∀ a b, (le a b || le b a) = true := by
    intro a b
    simp only [le, Bool.or_eq_true, decide_eq_true_eq]
    omega
  set order := (onDevice nodes S.sparseNodes g).mergeSort le with horder
  have hperm : order.Perm (onDevice nodes S.sparseNodes g) := List.mergeSort_perm _ _
  have hpair : order.Pairwise fun a b => le a b = true := List.pairwise_mergeSort htrans htotal _
  have hsorted : Sorted nodes g order := by
    refine ⟨hperm, hpair.imp fun {a b} hab => ?_⟩
    simp only [le, decide_eq_true_eq] at hab
    omega
  have hmem : v ∈ order := hperm.mem_iff.mpr (List.mem_filter.mp hv.1).1
  obtain ⟨l₁, l₂, hsplit⟩ := List.append_of_mem hmem
  have hbehind : ∀ m ∈ l₂, ¬ Movable nodes tasks m := by
    intro m hm hmovable
    rw [hsplit] at hpair
    have hle := (List.pairwise_cons.mp (List.pairwise_append.mp hpair).2.1).1 m hm
    have hne : m ≠ v := by
      have hnodup' := hsorted.nodup hnodup
      rw [hsplit] at hnodup'
      exact fun heq => (List.nodup_cons.mp (List.nodup_append.mp hnodup').2.1).1 (heq ▸ hm)
    have hcold :=
      hv.2 m (List.mem_filter.mpr ⟨hperm.mem_iff.mp (by simp [hsplit, hm]),
        decide_eq_true hmovable⟩)
    simp only [le, decide_eq_true_eq] at hle
    omega
  refine ⟨order, l₁.filter fun v => Movable nodes tasks v, hsorted, ?_⟩
  have hmovable : Movable nodes tasks v := of_decide_eq_true (List.mem_filter.mp hv.1).2
  have hlast : ((v :: l₂).filter fun v => Movable nodes tasks v) = [v] := by
    rw [List.filter_cons, if_pos (decide_eq_true hmovable), List.filter_eq_nil_iff.mpr]
    intro m hm
    simpa using hbehind m hm
  rw [hsplit, List.filter_append, hlast]

/-- **Only equally visited nodes** leave no colder one behind in every order, if something is moved
but not everything is needed: some order moves a most visited node first and keeps a least visited
one. -/
theorem equallyVisited_of (hnodup : S.sparseNodes.Nodup)
    (hgt : ¬ sizeOn nodes S.sparseNodes g ≤ roomLimit nodes n g)
    (hneeds : ¬ NeedsAll nodes tasks n g) (hcold : ∀ order, Sorted nodes g order →
      ∀ v ∈ victims order nodes tasks n g, ∀ m ∈ movables nodes tasks g,
        m ∉ victims order nodes tasks n g →
        (nodes v).incacheVisitCount ≤ (nodes m).incacheVisitCount) :
    EquallyVisited nodes tasks g := by
  obtain ⟨v, hv, hmet⟩ : ∃ v, Coldest nodes tasks g v ∧ ¬ roomLimit nodes n g <
      sizeOn nodes S.sparseNodes g -
        (((movables nodes tasks g).filter (· ≠ v)).map S.byteSize).sum := by
    unfold NeedsAll at hneeds
    simpa only [not_forall, exists_prop] using hneeds
  obtain ⟨order, l, horder, hes⟩ := exists_order hnodup hv
  have hon := horder.nodup hnodup
  have hstays := hcold order horder
  rw [(horder.coldest hon hes).2, not_lt] at hmet
  have hvisits : (order.filter fun v => Movable nodes tasks v).Pairwise _ := horder.visits_movables
  have hmovables : (order.filter fun v => Movable nodes tasks v).Perm _ := horder.perm_movables
  have hvs : victims order nodes tasks n g =
      shed S.byteSize (roomLimit nodes n g) (sizeOn nodes S.sparseNodes g) (l ++ [v]) := by
    rw [victims, if_neg hgt, hes]
  rw [hes] at hvisits hmovables
  cases l with
  | nil =>
    -- there is no other node to compare it with
    intro a ha b hb
    rw [List.mem_singleton.mp (hmovables.mem_iff.mpr ha),
      List.mem_singleton.mp (hmovables.mem_iff.mpr hb)]
  | cons x l =>
    have hx : x ∈ victims order nodes tasks n g := by
      rw [hvs, List.cons_append, shed]
      exact List.mem_cons_self
    have hnotv : v ∉ victims order nodes tasks n g := by
      intro hmem
      have hmem' := (shed_append_isPrefix (List.cons_ne_nil x l) [v] _ hmet).subset (hvs ▸ hmem)
      have hnodup' : (x :: l ++ [v]).Nodup := hes ▸ hon.filter _
      exact (List.nodup_append.mp hnodup').2.2 v hmem' v List.mem_cons_self rfl
    have hxv := hstays x hx v (hmovables.mem_iff.mp (by simp)) hnotv
    -- the first of the nodes is a most visited one
    have hmost : ∀ m ∈ movables nodes tasks g, (nodes m).incacheVisitCount ≤
        (nodes x).incacheVisitCount := by
      intro m hm
      rcases List.mem_cons.mp (hmovables.mem_iff.mpr hm) with rfl | hm
      · exact Nat.le_refl _
      · exact (List.pairwise_cons.mp hvisits).1 m hm
    intro a ha b hb
    have := hmost a ha
    have := hmost b hb
    have := hv.2 a ha
    have := hv.2 b hb
    omega

/-- **Coldest first**: in every order that `std::sort` may produce, exactly if the new node is on a
GPU already or fits, or all nodes that may be moved were visited equally often, or all of them are
needed. -/
theorem coldestFirst_iff (hnodup : S.sparseNodes.Nodup) (hsize : ∀ m, 0 ≤ S.byteSize m)
    (nodes : NodeMap S) (tasks : Tasks S) (n : ℕ) (deviceId : Option (Fin S.gpus)) :
    (∀ order, Sorted nodes (roomDevice n deviceId) order →
      ColdestFirst nodes (removeCachedSparseNode order nodes tasks n deviceId).1 tasks
        (roomDevice n deviceId)) ↔
    (nodes n).device.isSome ∨
      sizeOn nodes S.sparseNodes (roomDevice n deviceId) ≤
        roomLimit nodes n (roomDevice n deviceId) ∨
        EquallyVisited nodes tasks (roomDevice n deviceId) ∨
        NeedsAll nodes tasks n (roomDevice n deviceId) := by
  by_cases hdevice : (nodes n).device.isSome
  · refine ⟨fun _ => Or.inl hdevice, fun _ order _ v hv hmoved => absurd (mem_onDevice.mp hv).2 ?_⟩
    rw [removeCachedSparseNode, if_pos hdevice] at hmoved
    exact hmoved
  have hn : (nodes n).device = none := by simpa using hdevice
  constructor
  · intro hcold
    by_contra hcond
    simp only [not_or] at hcond
    obtain ⟨-, hgt, hunequal, hneeds⟩ := hcond
    exact hunequal (equallyVisited_of hnodup hgt hneeds fun order horder =>
      (coldestFirst_victims hn (horder.nodup hnodup) horder).mp (hcold order horder))
  · intro hcond order horder
    exact (coldestFirst_victims hn (horder.nodup hnodup) horder).mpr
      (coldestFirst_of hsize (horder.nodup hnodup) horder (hcond.resolve_left hdevice))

end Order

/-! ### A small GPU -/

/-- Three experts of one byte each, on a GPU with room for two. -/
def threeExperts : Setup :=
  { oneGpu with sparseNodes := [1, 3, 5], denseNodes := [0, 2], memoryCapacity := fun _ => 2 }

/-- The experts `1` and `3` are on the GPU; `1` was visited often. -/
def visited : NodeMap threeExperts := fun n =>
  if n = 1 then { device := some ⟨0, Nat.one_pos⟩, incacheVisitCount := 9 }
  else if n = 3 then { device := some ⟨0, Nat.one_pos⟩, incacheVisitCount := 1 }
  else {}

theorem sorted_visited : Sorted visited (0 : Fin 1) [1, 3] := ⟨by decide, by decide⟩

theorem room_made_visited :
    RoomMade visited {} 5 (0 : Fin 1) (removeCachedSparseNode [1, 3] visited {} 5 none) :=
  room_made (by decide) visited {} 5 none [1, 3] rfl sorted_visited

/-- Two experts that were visited equally often. -/
def evenlyVisited : NodeMap threeExperts :=
  fun n => if n = 1 ∨ n = 3 then { device := some ⟨0, Nat.one_pos⟩ } else {}

theorem coldestFirst_evenlyVisited :
    ColdestFirst evenlyVisited (removeCachedSparseNode [1, 3] evenlyVisited {} 5 none).1 {}
      (0 : Fin 1) :=
  (coldestFirst_iff (by decide) (fun _ => Int.one_nonneg) evenlyVisited {} 5 none).mpr
    (Or.inr (Or.inr (Or.inl (by unfold EquallyVisited; decide)))) [1, 3] ⟨by decide, by decide⟩

/-- The expert that was visited nine times makes room, and the one that was visited once stays. -/
theorem hottest_evicted : ¬ ∀ (S : Setup) (nodes : NodeMap S) (tasks : Tasks S) (n : ℕ)
    (deviceId : Option (Fin S.gpus)) (order : List ℕ), S.sparseNodes.Nodup →
    (∀ m, 0 ≤ S.byteSize m) →
    Sorted nodes (roomDevice n deviceId) order →
    ColdestFirst nodes (removeCachedSparseNode order nodes tasks n deviceId).1 tasks
      (roomDevice n deviceId) := by
  intro h
  have hcold :=
    h threeExperts visited {} 5 none [1, 3] (by decide) (fun _ => Int.one_nonneg) sorted_visited
  have hle := hcold 1 (by decide) (by decide) 3 (by decide) (by decide) (by decide)
  exact absurd hle (by decide)

end MoeInfinity.Core.Nodes
