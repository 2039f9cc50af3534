import Mathlib.Algebra.BigOperators.Fin
import Mathlib.Algebra.Order.BigOperators.Group.Finset
import MoeInfinity.Lib.Runs

/-! # Memory pools and the places of nodes (`core/memory/memory_pool.cpp`,
`core/model/model_topology.cpp`)

A node is on disk, on the host, or on a GPU with a copy on the host. `Node::SetDevice` moves it and
takes its buffers from the pools, which count the memory that is left. The device pools are debited
by an allocation and credited by its end; the host pool is only credited.

The allocators themselves are not part of the model: an allocation that fails ends the process, and
what they return otherwise is an argument of the move. -/

namespace MoeInfinity.Core.MemoryPool

open MoeInfinity.Lib.Runs

abbrev Address := ℕ

/-! ### Pools -/

/-- The host pool, or the part of the device pool that belongs to one GPU. -/
structure Pool where
  allocatedId : ℕ → Option Address
  freeMemory : ℤ
  memoryCapacity : ℤ

def Pool.new (capacity : ℤ) : Pool := ⟨fun _ => none, capacity, capacity⟩

/-- `HostMemoryPool::AllocateMemory`; `fresh` is what the allocator returns. -/
def Pool.allocateHost (key : ℕ) (fresh : Address) (pool : Pool) : Address × Pool :=
  match pool.allocatedId key with
  | some data => (data, pool)
  | none => (fresh, { pool with allocatedId := Function.update pool.allocatedId key (some fresh) })

/-- `DeviceMemoryPool::AllocateMemory` on one GPU. -/
def Pool.allocateDevice (key size : ℕ) (fresh : Address) (pool : Pool) : Address × Pool :=
  match pool.allocatedId key with
  | some data => (data, pool)
  | none => (fresh, { pool with
      freeMemory := pool.freeMemory - size
      allocatedId := Function.update pool.allocatedId key (some fresh) })

/-- `FreeMemory`, the same in both pools. -/
def Pool.free (key size : ℕ) (pool : Pool) : Pool :=
  match pool.allocatedId key with
  | none => pool
  | some _ => { pool with
      allocatedId := Function.update pool.allocatedId key none
      freeMemory := pool.freeMemory + size }

/-- `kHostMemoryPool` and `kDeviceMemoryPool`, with `n` GPUs. -/
structure Memory (n : ℕ) where
  host : Pool
  device : Fin n → Pool

/-! ### Nodes -/

inductive Device (n : ℕ) where
  | disk
  | cpu
  | cuda (index : Fin n)
deriving DecidableEq, Repr

inductive DeviceType where
  | disk
  | cpu
  | cuda
deriving DecidableEq, Repr

def Device.type {n : ℕ} : Device n → DeviceType
  | .disk => .disk
  | .cpu => .cpu
  | .cuda _ => .cuda

structure Node (n : ℕ) where
  id : ℕ
  byteSize : ℕ
  device : Device n
  hostMemoryPtr : Option Address
  deviceMemoryPtr : Option Address
deriving DecidableEq, Repr

/-- What the allocators return to a move. -/
structure Fresh where
  host : Address
  device : Address

namespace Node

variable {n : ℕ}

def acquireHost (fresh : Fresh) (v : Node n) (mem : Memory n) : Node n × Memory n :=
  let (ptr, pool) := mem.host.allocateHost v.id fresh.host
  ({ v with hostMemoryPtr := some ptr }, { mem with host := pool })

def acquireDevice (fresh : Fresh) (index : Fin n) (v : Node n) (mem : Memory n) :
    Node n × Memory n :=
  let (ptr, pool) := (mem.device index).allocateDevice v.id v.byteSize fresh.device
  ({ v with deviceMemoryPtr := some ptr },
    { mem with device := Function.update mem.device index pool })

def releaseHost (v : Node n) (mem : Memory n) : Node n × Memory n :=
  ({ v with hostMemoryPtr := none }, { mem with host := mem.host.free v.id v.byteSize })

/-- The pool is that of the device on which the node is. -/
def releaseDevice (v : Node n) (mem : Memory n) : Node n × Memory n :=
  match v.device with
  | .cuda index => ({ v with deviceMemoryPtr := none },
      { mem with
        device := Function.update mem.device index ((mem.device index).free v.id v.byteSize) })
  | _ => ({ v with deviceMemoryPtr := none }, mem)

/-- `Node::SetDevice`, as far as pointers and pools are concerned. -/
def setDevice (target : Device n) (fresh : Fresh) (v : Node n) (mem : Memory n) :
    Node n × Memory n :=
  if v.device = target then (v, mem)
  else if v.device.type = target.type then (v, mem)
  else
    let fromDisk := v.hostMemoryPtr = none ∧ v.deviceMemoryPtr = none
    let (v, mem) :=
      match target with
      | .disk =>
        let (v, mem) := if v.hostMemoryPtr ≠ none then v.releaseHost mem else (v, mem)
        if v.deviceMemoryPtr ≠ none then v.releaseDevice mem else (v, mem)
      | .cpu =>
        let (v, mem) := if fromDisk then v.acquireHost fresh mem else (v, mem)
        if v.device.type = DeviceType.cuda then v.releaseDevice mem else (v, mem)
      | .cuda index =>
        let (v, mem) := if fromDisk then v.acquireHost fresh mem else (v, mem)
        v.acquireDevice fresh index mem
    ({ v with device := target }, mem)

end Node

/-! ### Runs -/

/-- `m` nodes and the pools of a process with `n` GPUs. -/
structure State (n m : ℕ) where
  nodes : Fin m → Node n
  mem : Memory n

/-- A transition of one node. -/
structure Op (n m : ℕ) where
  node : Fin m
  target : Device n
  fresh : Fresh

variable {n m : ℕ}

def State.runOp (s : State n m) (op : Op n m) : State n m :=
  let (v, mem) := (s.nodes op.node).setDevice op.target op.fresh s.mem
  ⟨Function.update s.nodes op.node v, mem⟩

/-- All nodes are on disk, with the ids that `InitializeTopology` gives them. -/
def State.start (hostCapacity : ℤ) (deviceCapacity : Fin n → ℤ) (byteSize : Fin m → ℕ) :
    State n m where
  nodes := fun k => ⟨k, byteSize k, .disk, none, none⟩
  mem := ⟨.new hostCapacity, fun i => .new (deviceCapacity i)⟩

/-! ### The property and the condition -/

/-- A node on disk has no buffer, one on the host has a host buffer, one on a GPU has both. -/
structure Node.Placed (v : Node n) : Prop where
  host : v.hostMemoryPtr.isSome ↔ v.device ≠ .disk
  device : v.deviceMemoryPtr.isSome ↔ v.device.type = .cuda

def Node.hostBytes (v : Node n) : ℤ := if v.hostMemoryPtr.isSome then v.byteSize else 0

def Node.deviceBytes (i : Fin n) (v : Node n) : ℤ :=
  if v.device = .cuda i ∧ v.deviceMemoryPtr.isSome then v.byteSize else 0

/-- The counters of all pools are right, and the devices of the nodes tell their buffers. -/
structure Accounted (s : State n m) : Prop where
  host : s.mem.host.freeMemory = s.mem.host.memoryCapacity - ∑ k, (s.nodes k).hostBytes
  device : ∀ i, (s.mem.device i).freeMemory =
    (s.mem.device i).memoryCapacity - ∑ k, (s.nodes k).deviceBytes i
  placed : ∀ k, (s.nodes k).Placed

/-- The transition does not take a node with bytes from the disk. -/
def Stays (s : State n m) (op : Op n m) : Prop :=
  (s.nodes op.node).device = .disk → op.target ≠ .disk → (s.nodes op.node).byteSize = 0

instance (s : State n m) (op : Op n m) : Decidable (Stays s op) :=
  inferInstanceAs (Decidable (_ → _ → _))

/-! ### One transition -/

section Transition

variable {v v' : Node n} {mem mem' : Memory n}

/-- The pools have the buffers of the node. -/
structure Node.Known (v : Node n) (mem : Memory n) : Prop where
  host : mem.host.allocatedId v.id = v.hostMemoryPtr
  device : ∀ i, (mem.device i).allocatedId v.id = if v.device = .cuda i
    then v.deviceMemoryPtr else none

/-- What a transition does to the host pool: it is credited when the node goes to disk. -/
structure HostMoved (v v' : Node n) (pool pool' : Pool) : Prop where
  known : pool'.allocatedId v.id = v'.hostMemoryPtr
  others : ∀ key ≠ v.id, pool'.allocatedId key = pool.allocatedId key
  capacity : pool'.memoryCapacity = pool.memoryCapacity
  free : pool'.freeMemory = pool.freeMemory +
    if v.device ≠ .disk ∧ v'.device = .disk then (v.byteSize : ℤ) else 0

/-- What a transition does to the pool of a GPU: the counter follows the node's bytes there. -/
structure DeviceMoved (i : Fin n) (v v' : Node n) (pool pool' : Pool) : Prop where
  known : pool'.allocatedId v.id = if v'.device = .cuda i then v'.deviceMemoryPtr else none
  others : ∀ key ≠ v.id, pool'.allocatedId key = pool.allocatedId key
  capacity : pool'.memoryCapacity = pool.memoryCapacity
  free : pool'.freeMemory + v'.deviceBytes i = pool.freeMemory + v.deviceBytes i

structure Moved (v v' : Node n) (mem mem' : Memory n) : Prop where
  id : v'.id = v.id
  byteSize : v'.byteSize = v.byteSize
  placed : v'.Placed
  host : HostMoved v v' mem.host mem'.host
  device : ∀ i, DeviceMoved i v v' (mem.device i) (mem'.device i)

/-! ### One pool -/

section OnePool

variable {pool : Pool} {fresh : Address} {i : Fin n}

theorem HostMoved.keep (hk : pool.allocatedId v.id = v'.hostMemoryPtr)
    (hstay : ¬ (v.device ≠ .disk ∧ v'.device = .disk)) : HostMoved v v' pool pool where
  known := hk
  others := fun _ _ => rfl
  capacity := rfl
  free := by rw [if_neg hstay, add_zero]

theorem HostMoved.allocate (hk : pool.allocatedId v.id = none) (hdisk : v.device = .disk)
    (hv' : v'.hostMemoryPtr = some fresh) :
    HostMoved v v' pool (pool.allocateHost v.id fresh).2 := by
  unfold Pool.allocateHost
  rw [hk]
  refine ⟨?_, fun key hkey => Function.update_of_ne hkey _ _, rfl, ?_⟩
  · rw [hv']
    exact Function.update_self _ _ _
  · rw [if_neg fun h => h.1 hdisk, add_zero]

theorem HostMoved.release {a : Address} (hk : pool.allocatedId v.id = some a)
    (hdisk : v.device ≠ .disk) (hdisk' : v'.device = .disk) (hv' : v'.hostMemoryPtr = none) :
    HostMoved v v' pool (pool.free v.id v.byteSize) := by
  unfold Pool.free
  rw [hk]
  refine ⟨?_, fun key hkey => Function.update_of_ne hkey _ _, rfl, ?_⟩
  · rw [hv']
    exact Function.update_self _ _ _
  · rw [if_pos ⟨hdisk, hdisk'⟩]

theorem DeviceMoved.keep (hk : pool.allocatedId v.id = none) (hv : v.device ≠ .cuda i)
    (hv' : v'.device ≠ .cuda i) : DeviceMoved i v v' pool pool where
  known := by rw [if_neg hv', hk]
  others := fun _ _ => rfl
  capacity := rfl
  free := by
    unfold Node.deviceBytes
    rw [if_neg fun h => hv' h.1, if_neg fun h => hv h.1]

theorem DeviceMoved.allocate (hk : pool.allocatedId v.id = none) (hv : v.device ≠ .cuda i)
    (hv' : v'.device = .cuda i) (hptr : v'.deviceMemoryPtr = some fresh)
    (hsize : v'.byteSize = v.byteSize) :
    DeviceMoved i v v' pool (pool.allocateDevice v.id v.byteSize fresh).2 := by
  unfold Pool.allocateDevice
  rw [hk]
  refine ⟨?_, fun key hkey => Function.update_of_ne hkey _ _, rfl, ?_⟩
  · rw [if_pos hv', hptr]
    exact Function.update_self _ _ _
  · unfold Node.deviceBytes
    rw [if_pos ⟨hv', by rw [hptr]; rfl⟩, if_neg fun h => hv h.1, hsize, add_zero]
    exact Int.sub_add_cancel _ _

theorem DeviceMoved.release {a : Address} (hk : pool.allocatedId v.id = some a)
    (hv : v.device = .cuda i) (hptr : v.deviceMemoryPtr = some a) (hv' : v'.device ≠ .cuda i) :
    DeviceMoved i v v' pool (pool.free v.id v.byteSize) := by
  unfold Pool.free
  rw [hk]
  refine ⟨?_, fun key hkey => Function.update_of_ne hkey _ _, rfl, ?_⟩
  · rw [if_neg hv']
    exact Function.update_self _ _ _
  · unfold Node.deviceBytes
    rw [if_neg fun h => hv' h.1, if_pos ⟨hv, by rw [hptr]; rfl⟩, add_zero]

/-- Only the pool of one GPU changes. -/
theorem deviceMoved_update (hi : DeviceMoved i v v' (mem.device i) pool)
    (hother : ∀ j, j ≠ i → DeviceMoved j v v' (mem.device j) (mem.device j)) (j : Fin n) :
    DeviceMoved j v v' (mem.device j) (Function.update mem.device i pool j) := by
  by_cases hj : j = i
  · rw [hj, Function.update_self]
    exact hi
  · rw [Function.update_of_ne hj]
    exact hother j hj

end OnePool

/-! ### The transitions -/

theorem Node.Placed.disk (hp : v.Placed) (h : v.device = .disk) :
    v = ⟨v.id, v.byteSize, .disk, none, none⟩ := by
  obtain ⟨id, size, device, host, dev⟩ := v
  obtain ⟨hhost, hdev⟩ := hp
  subst h
  have h1 : host = none := by simpa using hhost
  have h2 : dev = none := by simpa [Device.type] using hdev
  rw [h1, h2]

theorem Node.Placed.cpu (hp : v.Placed) (h : v.device = .cpu) :
    ∃ a, v = ⟨v.id, v.byteSize, .cpu, some a, none⟩ := by
  obtain ⟨id, size, device, host, dev⟩ := v
  obtain ⟨hhost, hdev⟩ := hp
  subst h
  obtain ⟨a, h1⟩ := Option.isSome_iff_exists.mp (hhost.mpr (by simp))
  have h2 : dev = none := by simpa [Device.type] using hdev
  have h1 : host = some a := h1
  exact ⟨a, by rw [h1, h2]⟩

theorem Node.Placed.cuda {i : Fin n} (hp : v.Placed) (h : v.device = .cuda i) :
    ∃ a b, v = ⟨v.id, v.byteSize, .cuda i, some a, some b⟩ := by
  obtain ⟨id, size, device, host, dev⟩ := v
  obtain ⟨hhost, hdev⟩ := hp
  subst h
  obtain ⟨a, h1⟩ := Option.isSome_iff_exists.mp (hhost.mpr (by simp))
  obtain ⟨b, h2⟩ := Option.isSome_iff_exists.mp (hdev.mpr rfl)
  have h1 : host = some a := h1
  have h2 : dev = some b := h2
  exact ⟨a, b, by rw [h1, h2]⟩

theorem Moved.refl (hp : v.Placed) (hk : v.Known mem) : Moved v v mem mem where
  id := rfl
  byteSize := rfl
  placed := hp
  host := .keep hk.host fun h => h.1 h.2
  device := fun i => ⟨hk.device i, fun _ _ => rfl, rfl, rfl⟩

theorem cuda_ne {i j : Fin n} (h : j ≠ i) : (Device.cuda i : Device n) ≠ .cuda j :=
  fun h0 => h (Device.cuda.inj h0).symm

/-- From the disk: a host buffer, and for a GPU a device buffer too. -/
theorem setDevice_of_disk {id size : ℕ} (hk : Node.Known ⟨id, size, .disk, none, none⟩ mem)
    (target : Device n) (fresh : Fresh) :
    Moved ⟨id, size, .disk, none, none⟩
      (Node.setDevice target fresh ⟨id, size, .disk, none, none⟩ mem).1 mem
      (Node.setDevice target fresh ⟨id, size, .disk, none, none⟩ mem).2 := by
  have hhost : mem.host.allocatedId id = none := hk.host
  have hdevice : ∀ i, (mem.device i).allocatedId id = none := fun i => by
    have h := hk.device i
    rwa [if_neg nofun] at h
  have hfresh : (mem.host.allocateHost id fresh.host).1 = fresh.host := by
    unfold Pool.allocateHost
    rw [hhost]
  cases target with
  | disk => exact .refl ⟨iff_of_false nofun fun h => h rfl, iff_of_false nofun nofun⟩ hk
  | cpu =>
    exact ⟨rfl, rfl, ⟨iff_of_true rfl nofun, iff_of_false nofun nofun⟩,
      .allocate hhost rfl (congrArg some hfresh), fun i => .keep (hdevice i) nofun nofun⟩
  | cuda i =>
    have hfresh' : ((mem.device i).allocateDevice id size fresh.device).1 = fresh.device := by
      unfold Pool.allocateDevice
      rw [hdevice i]
    exact ⟨rfl, rfl, ⟨iff_of_true rfl nofun, iff_of_true rfl rfl⟩,
      .allocate hhost rfl (congrArg some hfresh),
      deviceMoved_update (.allocate (hdevice i) nofun rfl (congrArg some hfresh') rfl)
        fun j hj => .keep (hdevice j) nofun (cuda_ne hj)⟩

/-- From the host: to the disk without buffers, or to a GPU with a device buffer. -/
theorem setDevice_of_cpu {id size : ℕ} {a : Address}
    (hk : Node.Known ⟨id, size, .cpu, some a, none⟩ mem) (target : Device n) (fresh : Fresh) :
    Moved ⟨id, size, .cpu, some a, none⟩
      (Node.setDevice target fresh ⟨id, size, .cpu, some a, none⟩ mem).1 mem
      (Node.setDevice target fresh ⟨id, size, .cpu, some a, none⟩ mem).2 := by
  have hhost : mem.host.allocatedId id = some a := hk.host
  have hdevice : ∀ i, (mem.device i).allocatedId id = none := fun i => by
    have h := hk.device i
    rwa [if_neg nofun] at h
  cases target with
  | disk =>
    exact ⟨rfl, rfl, ⟨iff_of_false nofun fun h => h rfl, iff_of_false nofun nofun⟩,
      .release hhost nofun rfl rfl, fun i => .keep (hdevice i) nofun nofun⟩
  | cpu => exact .refl ⟨iff_of_true rfl nofun, iff_of_false nofun nofun⟩ hk
  | cuda i =>
    have hfresh : ((mem.device i).allocateDevice id size fresh.device).1 = fresh.device := by
      unfold Pool.allocateDevice
      rw [hdevice i]
    exact ⟨rfl, rfl, ⟨iff_of_true rfl nofun, iff_of_true rfl rfl⟩, .keep hhost nofun,
      deviceMoved_update (.allocate (hdevice i) nofun rfl (congrArg some hfresh) rfl)
        fun j hj => .keep (hdevice j) nofun (cuda_ne hj)⟩

/-- From a GPU: the device buffer goes, and for the disk the host buffer too. -/
theorem setDevice_of_cuda {id size : ℕ} {i : Fin n} {a b : Address}
    (hk : Node.Known ⟨id, size, .cuda i, some a, some b⟩ mem) (target : Device n) (fresh : Fresh) :
    Moved ⟨id, size, .cuda i, some a, some b⟩
      (Node.setDevice target fresh ⟨id, size, .cuda i, some a, some b⟩ mem).1
      mem (Node.setDevice target fresh ⟨id, size, .cuda i, some a, some b⟩ mem).2 := by
  have hhost : mem.host.allocatedId id = some a := hk.host
  have hdevice : (mem.device i).allocatedId id = some b := by
    have h := hk.device i
    rwa [if_pos rfl] at h
  have hothers : ∀ j, j ≠ i → (mem.device j).allocatedId id = none := fun j hj => by
    have h := hk.device j
    rwa [if_neg (cuda_ne hj)] at h
  cases target with
  | disk =>
    exact ⟨rfl, rfl, ⟨iff_of_false nofun fun h => h rfl, iff_of_false nofun nofun⟩,
      .release hhost nofun rfl rfl, deviceMoved_update (.release hdevice rfl rfl nofun)
        fun j hj => .keep (hothers j hj) (cuda_ne hj) nofun⟩
  | cpu =>
    exact ⟨rfl, rfl, ⟨iff_of_true rfl nofun, iff_of_false nofun nofun⟩, .keep hhost nofun,
      deviceMoved_update (.release hdevice rfl rfl nofun)
        fun j hj => .keep (hothers j hj) (cuda_ne hj) nofun⟩
  | cuda j =>
    have hstay : Node.setDevice (.cuda j) fresh ⟨id, size, .cuda i, some a, some b⟩ mem =
        (⟨id, size, .cuda i, some a, some b⟩, mem) := by
      unfold Node.setDevice
      by_cases h : (Device.cuda i : Device n) = .cuda j
      · rw [if_pos h]
      · rw [if_neg h]
        exact if_pos rfl
    rw [hstay]
    exact .refl ⟨iff_of_true rfl nofun, iff_of_true rfl rfl⟩ hk

/-- **One transition**. -/
theorem setDevice_moved (hp : v.Placed) (hk : v.Known mem) (target : Device n) (fresh : Fresh) :
    Moved v (v.setDevice target fresh mem).1 mem (v.setDevice target fresh mem).2 := by
  cases hv : v.device with
  | disk =>
    rw [hp.disk hv] at hk ⊢
    exact setDevice_of_disk hk target fresh
  | cpu =>
    obtain ⟨a, h⟩ := hp.cpu hv
    rw [h] at hk ⊢
    exact setDevice_of_cpu hk target fresh
  | cuda i =>
    obtain ⟨a, b, h⟩ := hp.cuda hv
    rw [h] at hk ⊢
    exact setDevice_of_cuda hk target fresh

end Transition

/-! ### The invariant -/

section Runs

variable {s : State n m} {op : Op n m} {v v' : Node n} {mem mem' : Memory n}

/-- What holds in every state: the counters of the GPUs and the places of the nodes. -/
structure Inv (s : State n m) : Prop where
  id : ∀ k, (s.nodes k).id = k
  placed : ∀ k, (s.nodes k).Placed
  known : ∀ k, (s.nodes k).Known s.mem
  device : ∀ i, (s.mem.device i).freeMemory =
    (s.mem.device i).memoryCapacity - ∑ k, (s.nodes k).deviceBytes i

/-- How much the host pool has not been debited for: the claims of allocations and what has been
credited for buffers that are gone. -/
def State.undebited (s : State n m) : ℤ :=
  s.mem.host.freeMemory + ∑ k, (s.nodes k).hostBytes - s.mem.host.memoryCapacity

/-- What an allocation of the transition is not debited for. -/
def State.taken (s : State n m) (op : Op n m) : ℤ :=
  if (s.nodes op.node).device = .disk ∧ op.target ≠ .disk then (s.nodes op.node).byteSize else 0

theorem sum_update (f : Node n → ℤ) (nodes : Fin m → Node n) (k : Fin m) (v : Node n) :
    ∑ j, f (Function.update nodes k v j) + f (nodes k) = ∑ j, f (nodes j) + f v := by
  have hold := Finset.add_sum_erase Finset.univ (fun j => f (nodes j)) (Finset.mem_univ k)
  have hnew := Finset.add_sum_erase Finset.univ (fun j => f (Function.update nodes k v j))
    (Finset.mem_univ k)
  have hsame : ∑ j ∈ Finset.univ.erase k, f (Function.update nodes k v j) =
      ∑ j ∈ Finset.univ.erase k, f (nodes j) :=
    Finset.sum_congr rfl fun j hj => by rw [Function.update_of_ne (Finset.ne_of_mem_erase hj)]
  simp only [Function.update_self] at hnew
  omega

theorem Inv.moved (h : Inv s) (op : Op n m) :
    Moved (s.nodes op.node) ((s.runOp op).nodes op.node) s.mem (s.runOp op).mem := by
  have hmoved := setDevice_moved (h.placed op.node) (h.known op.node) op.target op.fresh
  unfold State.runOp
  simp only [Function.update_self]
  exact hmoved

theorem runOp_nodes (s : State n m) (op : Op n m) :
    (s.runOp op).nodes = Function.update s.nodes op.node ((s.runOp op).nodes op.node) := by
  unfold State.runOp
  simp only [Function.update_self]

theorem Inv.runOp (h : Inv s) (op : Op n m) : Inv (s.runOp op) := by
  have hmoved := h.moved op
  have hnode : ∀ k, k ≠ op.node → (s.runOp op).nodes k = s.nodes k := fun k hk => by
    rw [runOp_nodes, Function.update_of_ne hk]
  have hkey : ∀ k : Fin m, k ≠ op.node → (k : ℕ) ≠ (s.nodes op.node).id := fun k hk h0 => by
    rw [h.id op.node] at h0
    exact hk (Fin.ext h0)
  refine ⟨fun k => ?_, fun k => ?_, fun k => ?_, fun i => ?_⟩
  · by_cases hk : k = op.node
    · rw [hk, hmoved.id, h.id]
    · rw [hnode k hk, h.id]
  · by_cases hk : k = op.node
    · rw [hk]
      exact hmoved.placed
    · rw [hnode k hk]
      exact h.placed k
  · by_cases hk : k = op.node
    · rw [hk]
      exact ⟨by rw [hmoved.id, hmoved.host.known], fun i => by rw [hmoved.id,
        (hmoved.device i).known]⟩
    · have hid := hkey k hk
      rw [← h.id k] at hid
      rw [hnode k hk]
      exact ⟨by rw [hmoved.host.others _ hid, (h.known k).host], fun i => by
        rw [(hmoved.device i).others _ hid, (h.known k).device i]⟩
  · have hsum := sum_update (Node.deviceBytes i) s.nodes op.node ((s.runOp op).nodes op.node)
    rw [← runOp_nodes] at hsum
    have hfree := (hmoved.device i).free
    have hold := h.device i
    rw [(hmoved.device i).capacity]
    omega

/-- The node is where it was sent, if it comes from the disk. -/
theorem setDevice_device (hp : v.Placed) (hv : v.device = .disk) (target : Device n)
    (fresh : Fresh) :
    (v.setDevice target fresh mem).1.device = target := by
  rw [hp.disk hv]
  cases target <;> rfl

theorem Node.Placed.hostBytes_eq (hp : v.Placed) :
    v.hostBytes = if v.device = .disk then 0 else (v.byteSize : ℤ) := by
  unfold Node.hostBytes
  have h := hp.host
  by_cases hdisk : v.device = .disk
  · rw [if_pos hdisk, if_neg fun h0 => h.mp h0 hdisk]
  · rw [if_neg hdisk, if_pos (h.mpr hdisk)]

/-- Only a node on disk gets a new host buffer. -/
theorem Inv.undebited_runOp (h : Inv s) (op : Op n m) :
    (s.runOp op).undebited = s.undebited + s.taken op := by
  have hmoved := h.moved op
  have hsum := sum_update Node.hostBytes s.nodes op.node ((s.runOp op).nodes op.node)
  have hfree := hmoved.host.free
  have htarget : (s.nodes op.node).device = .disk →
      ((s.runOp op).nodes op.node).device = op.target :=
    fun hdisk => by
      have h0 : (Node.setDevice op.target op.fresh (s.nodes op.node) s.mem).1.device = op.target :=
        setDevice_device (h.placed op.node) hdisk op.target op.fresh
      unfold State.runOp
      simp only [Function.update_self]
      exact h0
  rw [← runOp_nodes, (h.placed op.node).hostBytes_eq, hmoved.placed.hostBytes_eq, hmoved.byteSize]
    at hsum
  unfold State.undebited State.taken
  rw [hmoved.host.capacity]
  by_cases hdisk : (s.nodes op.node).device = .disk
  · rw [htarget hdisk] at hsum hfree
    rw [if_neg fun h0 => h0.1 hdisk] at hfree
    rw [if_pos hdisk] at hsum
    by_cases htgt : op.target = .disk
    · rw [if_pos htgt] at hsum
      rw [if_neg fun h0 => h0.2 htgt]
      omega
    · rw [if_neg htgt] at hsum
      rw [if_pos ⟨hdisk, htgt⟩]
      omega
  · rw [if_neg fun h0 => hdisk h0.1]
    rw [if_neg hdisk] at hsum
    split_ifs at hsum hfree with h1 h2 h2
    · omega
    · exact absurd ⟨hdisk, h1⟩ h2
    · exact absurd h2.2 h1
    · omega

theorem State.taken_nonneg (s : State n m) (op : Op n m) : 0 ≤ s.taken op := by
  unfold State.taken
  split_ifs <;> omega

theorem taken_eq_zero (s : State n m) (op : Op n m) : s.taken op = 0 ↔ Stays s op := by
  unfold State.taken Stays
  split_ifs with h
  · simp [h.1, h.2]
  · refine iff_of_true rfl fun h1 h2 => absurd ⟨h1, h2⟩ h

/-- The pool is never debited afterwards. -/
theorem Inv.undebited_exec (h : Inv s) (ops : List (Op n m)) :
    Inv (exec State.runOp s ops) ∧ s.undebited ≤ (exec State.runOp s ops).undebited ∧
      ((exec State.runOp s ops).undebited = s.undebited ↔ Along State.runOp Stays s ops) := by
  induction ops generalizing s with
  | nil => exact ⟨h, le_refl _, iff_of_true rfl trivial⟩
  | cons op ops ih =>
    obtain ⟨hinv, hle, hiff⟩ := ih (h.runOp op)
    have hstep := h.undebited_runOp op
    have hpos := s.taken_nonneg op
    rw [exec_cons, along_cons, ← hiff, ← taken_eq_zero]
    refine ⟨hinv, by omega, ⟨fun heq => ⟨by omega, by omega⟩, fun heq => ?_⟩⟩
    rw [heq.2, hstep, heq.1, add_zero]

theorem inv_start (hostCapacity : ℤ) (deviceCapacity : Fin n → ℤ) (byteSize : Fin m → ℕ) :
    Inv (State.start hostCapacity deviceCapacity byteSize) where
  id := fun _ => rfl
  placed := fun _ => ⟨iff_of_false nofun fun h => h rfl, iff_of_false nofun nofun⟩
  known := fun _ => ⟨rfl, fun _ => rfl⟩
  device := fun i => by
    unfold Node.deviceBytes State.start
    simp [Pool.new]

theorem undebited_start (hostCapacity : ℤ) (deviceCapacity : Fin n → ℤ) (byteSize : Fin m → ℕ) :
    (State.start hostCapacity deviceCapacity byteSize).undebited = 0 := by
  unfold State.undebited Node.hostBytes State.start
  simp [Pool.new]

/-- **The accounts are right after a run exactly if no node with bytes has left the disk**: the
places of the nodes and the counters of the GPUs are always right, the counter of the host pool only
so long. -/
theorem accounted_iff_stays (hostCapacity : ℤ) (deviceCapacity : Fin n → ℤ) (byteSize : Fin m → ℕ)
    (ops : List (Op n m)) :
    Accounted (exec State.runOp (.start hostCapacity deviceCapacity byteSize) ops) ↔
      Along State.runOp Stays (.start hostCapacity deviceCapacity byteSize) ops := by
  obtain ⟨hinv, -, hiff⟩ := (inv_start hostCapacity deviceCapacity byteSize).undebited_exec ops
  rw [← hiff, undebited_start]
  unfold State.undebited
  constructor
  · intro h
    have := h.host
    omega
  · intro h
    exact ⟨by omega, hinv.device, hinv.placed⟩

/-- The host counter does not fall when a node comes to the host. -/
theorem undebited_host : ¬ ∀ (n m : ℕ) (hostCapacity : ℤ) (deviceCapacity : Fin n → ℤ)
    (byteSize : Fin m → ℕ) (ops : List (Op n m)),
    Accounted (exec State.runOp (.start hostCapacity deviceCapacity byteSize) ops) := by
  intro h
  have hhost := (h 1 1 8192 (fun _ => 8192) (fun _ => 4096) [⟨0, .cpu, ⟨1, 2⟩⟩]).host
  revert hhost
  decide

end Runs

end MoeInfinity.Core.MemoryPool
