import Mathlib.Data.List.Nodup
import MoeInfinity.Lib.Grouping
import MoeInfinity.Runtime.Topology

/-! # The topology is a partition (`runtime/model_offload.py`)

`get_topology` puts the ids of all mapped parameters and buffers into nodes. The names of the routed
experts are those with a number before their only `experts`; the other names have `expert` in
`shared_experts` at most. Then each id is in one node, and the ids of an expert are a node of their
own.

* `keyed`: the ids with the keys of their names, as they are listed.
* `getTopology_eq`: the stages are the containers, and their nodes the keys, in the order of the
  listing.
* `getTopology_partition`: what this says about names. -/

namespace MoeInfinity.Runtime.TopologyPartition

open MoeInfinity.Lib.Dict MoeInfinity.Lib.Grouping
open MoeInfinity.Utils.HfConfig MoeInfinity.Runtime.Topology

/-! ### Names -/

/-- The name of a tensor of the routed expert `expert` in the container behind `pre`. -/
def Routed (pre expert name : Name) : Prop :=
  ∃ projection tensor, name = paramOf pre expert projection tensor ∧ (∃ c ∈ pre, c.isDigit) ∧
    '\n' ∉ pre ∧ '.' ∉ expert ∧ '.' ∉ projection ∧ '.' ∉ tensor ∧
      ∀ u v, name = u ++ ("experts".toList ++ v) → u = pre ++ ".".toList

/-- `expert` is only inside `shared_experts`. -/
def Unrouted (name : Name) : Prop :=
  ∀ u v, name = u ++ ("expert".toList ++ v) → "shared_".toList <:+ u ∧ "s".toList <+: v

/-- The names of a model, and its `name_id_map`. -/
structure Names (nameIdMap : List (Name × ℕ)) (params buffers : List Name) : Prop where
  distinct : (params ++ buffers).Nodup
  injective : ∀ name name' id, nameIdMap.lookup name = some id → nameIdMap.lookup name' = some id →
    name = name'
  named : ∀ name ∈ params ++ buffers, (∃ pre expert, Routed pre expert name) ∨ Unrouted name

/-- The ids in the order in which the names are listed. -/
def listing (nameIdMap : List (Name × ℕ)) (params buffers : List Name) : List ℕ :=
  (params ++ buffers).filterMap fun name => nameIdMap.lookup name

/-- What a topology has to be. -/
structure Partitions (nameIdMap : List (Name × ℕ)) (params buffers : List Name)
    (topo : List (Name × List (List ℕ))) : Prop where
  /-- Every mapped id occurs once, and no other does. -/
  perm : (topo.flatMap Prod.snd).flatten.Perm (listing nameIdMap params buffers)
  nodup : (topo.flatMap Prod.snd).flatten.Nodup
  nonempty : ∀ node ∈ topo.flatMap Prod.snd, node ≠ []
  /-- A node has the ids of one expert, and all of them. -/
  same : ∀ pre pre' expert expert' name name' id id', name ∈ params ++ buffers →
  name' ∈ params ++ buffers →
    Routed pre expert name → Routed pre' expert' name' →
    nameIdMap.lookup name = some id → nameIdMap.lookup name' = some id' →
      ((∃ node ∈ topo.flatMap Prod.snd, id ∈ node ∧ id' ∈ node) ↔ pre = pre' ∧ expert = expert')
  unmixed : ∀ pre expert name name' id id', name ∈ params ++ buffers → name' ∈ params ++ buffers →
    Routed pre expert name → Unrouted name' →
    nameIdMap.lookup name = some id → nameIdMap.lookup name' = some id' →
      ¬ ∃ node ∈ topo.flatMap Prod.snd, id ∈ node ∧ id' ∈ node
  /-- A node of a stage is listed before any id of the later ones. -/
  order : ∀ stage ∈ topo, stage.2.Pairwise fun node node' => ∃ id ∈ node, ∀ id' ∈ node',
    (listing nameIdMap params buffers).idxOf id < (listing nameIdMap params buffers).idxOf id'

/-! ### The keys of names -/

/-- The key of a container of experts has a number and ends in `experts`. -/
def IsContainer (key : Name) : Prop := "experts".toList <:+ key ∧ ∃ c ∈ key, c.isDigit

/-- The stage of a key. -/
def container : Key → Name
  | .plain storedName => storedName
  | .expert storedName _ => storedName

/-- Only experts are in containers. -/
def Sound : Key → Prop
  | .plain storedName => ¬ IsContainer storedName
  | .expert storedName _ => IsContainer storedName

section Keys

variable {pre pre' expert expert' name key : Name}

theorem Routed.expertName (h : Routed pre expert name) :
    ∃ projection tensor, name = paramOf pre expert projection tensor ∧
      ExpertName pre expert projection tensor := by
  obtain ⟨projection, tensor, rfl, hnumbered, hline, hexpert, hprojection, htensor, honce⟩ := h
  refine ⟨projection, tensor, rfl, hnumbered, hline, hexpert, hprojection, htensor,
    fun h => ?_, fun h => ?_⟩
  · -- another `experts` behind the first letter of the only one
    obtain ⟨s, t, hst⟩ := h
    have hname : paramOf pre expert projection tensor = (pre ++ (".e".toList ++ s)) ++
      ("experts".toList ++ t) := by
      have hsplit : paramOf pre expert projection tensor = pre ++
          (".e".toList ++
            ("xperts".toList ++
              (".".toList ++
                (expert ++ (".".toList ++ (projection ++ (".".toList ++ tensor))))))) := by
        unfold paramOf
        simp
      rw [hsplit, ← hst]
      simp only [List.append_assoc]
    have hlen := congrArg List.length (honce _ _ hname)
    simp only [List.length_append, String.reduceToList, List.length_cons, List.length_nil] at hlen
    omega
  · obtain ⟨s, t, hst⟩ := h
    have hword : "shared_experts".toList = "shared_".toList ++ "experts".toList := by decide
    have hname : paramOf pre expert projection tensor = (s ++ "shared_".toList) ++
      ("experts".toList ++ t) := by
      rw [← hst, hword]
      simp only [List.append_assoc]
    have hlast := congrArg List.getLast? (honce _ _ hname)
    simp at hlast

theorem Routed.paramKey (h : Routed pre expert name) :
    paramKey name = .ok (.expert (pre ++ ".experts".toList) expert) := by
  obtain ⟨projection, tensor, rfl, hname⟩ := h.expertName
  exact hname.paramKey

theorem Routed.bufferKey (h : Routed pre expert name) :
    bufferKey name = .ok (.expert (pre ++ ".experts".toList) expert) := by
  obtain ⟨projection, tensor, rfl, hname⟩ := h.expertName
  exact hname.bufferKey

theorem Routed.isContainer (h : Routed pre expert name) :
    IsContainer (pre ++ ".experts".toList) := by
  obtain ⟨-, -, -, ⟨c, hc, hdigit⟩, -⟩ := h
  have hsuffix : "experts".toList <:+ ".experts".toList := by decide
  exact ⟨hsuffix.trans (List.suffix_append _ _), c, List.mem_append_left _ hc, hdigit⟩

theorem Unrouted.not_isExpert (h : Unrouted name) : ¬ IsExpert name := by
  rintro ⟨⟨u, v, huv⟩, hshared⟩
  rw [List.append_assoc] at huv
  obtain ⟨⟨u', rfl⟩, ⟨v', rfl⟩⟩ := h u v huv.symm
  refine hshared ⟨u', v', ?_⟩
  have hword : "shared_experts".toList = "shared_".toList ++ ("expert".toList ++ "s".toList) :=
    by decide
  rw [hword, ← huv]
  simp only [List.append_assoc]

/-- A key that ends in a digit is none of a container. -/
theorem EndsInDigit.not_isContainer (h : EndsInDigit key) : ¬ IsContainer key := by
  rintro ⟨⟨u, rfl⟩, -⟩
  have hs : 's' ∈ (u ++ "experts".toList).getLast? := by simp
  exact absurd (h 's' hs) (by decide)

theorem not_isContainer_of_no_digit (hdigit : ¬ hasDigit name) :
    ¬ IsContainer (beforeLastDot name) := by
  rintro ⟨-, c, hc, hc'⟩
  exact hdigit (List.any_eq_true.mpr ⟨c, (isPrefix_beforeLastDot name).subset hc, hc'⟩)

/-- **The key of another name** is no container's. -/
theorem Unrouted.paramKey (h : Unrouted name) : ∃ key, paramKey name = .ok (.plain key) ∧
    ¬ IsContainer key := by
  unfold Topology.paramKey
  split_ifs with hdigit hexpert
  · exact absurd hexpert h.not_isExpert
  · cases hfound : numberedPattern.matchStart name with
    | some found => exact ⟨_, rfl, EndsInDigit.not_isContainer (numbered_spec hfound).2⟩
    | none => exact ⟨_, rfl, EndsInDigit.not_isContainer (upToLastDigit_ends name)⟩
  · exact ⟨_, rfl, not_isContainer_of_no_digit hdigit⟩

theorem Unrouted.bufferKey (h : Unrouted name) : ∃ key, bufferKey name = .ok (.plain key) ∧
    ¬ IsContainer key := by
  unfold Topology.bufferKey
  split_ifs with hdigit hexpert
  · exact absurd hexpert h.not_isExpert
  · exact ⟨_, rfl, EndsInDigit.not_isContainer (upToLastDigit_ends name)⟩
  · exact ⟨_, rfl, not_isContainer_of_no_digit hdigit⟩

end Keys

/-! ### Stages -/

/-- The ids of names with their keys. -/
def keyedBy (keyOf : Name → Except ConfigError Key) (nameIdMap : List (Name × ℕ))
    (names : List Name) :
    List (Key × ℕ) :=
  names.filterMap fun name =>
    match keyOf name, nameIdMap.lookup name with
    | .ok key, some id => some (key, id)
    | _, _ => none

def keyed (nameIdMap : List (Name × ℕ)) (params buffers : List Name) : List (Key × ℕ) :=
  keyedBy paramKey nameIdMap params ++ keyedBy bufferKey nameIdMap buffers

def expertOf : Key → Name
  | .plain _ => []
  | .expert _ expertName => expertName

/-- An id in its stage; the stage is new if it has nothing in it. -/
def addTo (e : Key × ℕ) (stage : Stage) : Stage :=
  match e.1, stage with
  | .plain _, .plain ids => .plain (ids ++ [e.2])
  | .plain _, .experts nodes => .experts nodes
  | .expert _ expertName, .plain _ => .experts [(expertName, [e.2])]
  | .expert _ expertName, .experts nodes => .experts (update expertName (· ++ [e.2]) [] nodes)

/-- The stages of containers are those of experts. -/
def Kinds (topo : RetDict) : Prop :=
  ∀ e ∈ topo, match e.2 with
    | .experts _ => IsContainer e.1
    | .plain _ => ¬ IsContainer e.1

section Stages

variable {topo : RetDict} {key : Key} {k name : Name} {id : ℕ} {es : List (Key × ℕ)}
  {keyOf : Name → Except ConfigError Key} {nameIdMap : List (Name × ℕ)} {names : List Name}

theorem Kinds.plain {stage : Stage} (h : Kinds topo) (hk : ¬ IsContainer k)
    (hstage : topo.lookup k = some stage) :
    ∃ ids, stage = .plain ids := by
  have hkind := h _ (mem_of_lookup hstage)
  cases stage with
  | plain ids => exact ⟨ids, rfl⟩
  | experts nodes => exact absurd hkind hk

theorem Kinds.experts {stage : Stage} (h : Kinds topo) (hk : IsContainer k)
    (hstage : topo.lookup k = some stage) :
    ∃ nodes, stage = .experts nodes := by
  have hkind := h _ (mem_of_lookup hstage)
  cases stage with
  | plain ids => exact absurd hk hkind
  | experts nodes => exact ⟨nodes, rfl⟩

theorem Kinds.put_plain (h : Kinds topo) (hk : ¬ IsContainer k) (ids : List ℕ) :
    Kinds (put k (.plain ids) topo) := by
  intro e he
  rcases mem_of_mem_put he with rfl | he
  · exact hk
  · exact h e he

theorem Kinds.put_experts (h : Kinds topo) (hk : IsContainer k) (nodes : List (Name × List ℕ)) :
    Kinds (put k (.experts nodes) topo) := by
  intro e he
  rcases mem_of_mem_put he with rfl | he
  · exact hk
  · exact h e he

/-- **One id** goes to the stage of its key. -/
theorem addId_eq (id : ℕ) (h : Kinds topo) (hkey : Sound key) :
    addId topo key id = .ok (update (container key) (addTo (key, id)) (.plain []) topo) ∧
      Kinds (update (container key) (addTo (key, id)) (.plain []) topo) := by
  unfold update addId
  cases key with
  | plain storedName =>
    simp only [container]
    cases hlookup : topo.lookup storedName with
    | none => exact ⟨rfl, h.put_plain hkey _⟩
    | some stage =>
      obtain ⟨ids, rfl⟩ := h.plain hkey hlookup
      exact ⟨rfl, h.put_plain hkey _⟩
  | expert storedName expertName =>
    simp only [container]
    cases hlookup : topo.lookup storedName with
    | none => exact ⟨rfl, h.put_experts hkey _⟩
    | some stage =>
      obtain ⟨nodes, rfl⟩ := h.experts hkey hlookup
      refine ⟨?_, h.put_experts hkey _⟩
      simp only [Option.getD_some, addTo, update]
      cases nodes.lookup expertName <;> rfl

/-- **All names**. -/
theorem foldlM_addName_eq (nameIdMap : List (Name × ℕ)) (h : Kinds topo)
    (hnames : ∀ name ∈ names, ∃ key, keyOf name = .ok key ∧ Sound key) :
    names.foldlM (addName keyOf nameIdMap) topo = .ok ((keyedBy keyOf nameIdMap names).foldl
        (fun d e => update (container e.1) (addTo e) (.plain []) d) topo) ∧
      Kinds ((keyedBy keyOf nameIdMap names).foldl
        (fun d e => update (container e.1) (addTo e) (.plain []) d) topo) := by
  induction names generalizing topo with
  | nil => exact ⟨rfl, h⟩
  | cons name names ih =>
    obtain ⟨key, hkey, hsound⟩ := hnames name List.mem_cons_self
    have hrest := fun n hn => hnames n (List.mem_cons_of_mem name hn)
    rw [List.foldlM_cons]
    unfold addName keyedBy
    rw [List.filterMap_cons, hkey]
    cases nameIdMap.lookup name with
    | none => exact ih h hrest
    | some id =>
      obtain ⟨hadd, hkinds⟩ := addId_eq id h hsound
      simp only [bind, Except.bind, hadd, List.foldl_cons]
      exact ih hkinds hrest

/-! ### One stage -/

theorem foldl_addTo_plain (h : ∀ e ∈ es, e.1 = .plain k) (ids : List ℕ) :
    es.foldl (fun stage e => addTo e stage) (.plain ids) = .plain (ids ++ es.map Prod.snd) := by
  induction es generalizing ids with
  | nil => simp
  | cons e es ih =>
    have he := h e List.mem_cons_self
    have hadd : addTo e (.plain ids) = .plain (ids ++ [e.2]) := by
      unfold addTo
      rw [he]
    rw [List.foldl_cons, hadd, ih fun e' he' => h e' (List.mem_cons_of_mem e he')]
    simp

theorem foldl_addTo_experts (h : ∀ e ∈ es, e.1 = .expert k (expertOf e.1))
    (nodes : List (Name × List ℕ)) :
    es.foldl (fun stage e => addTo e stage) (.experts nodes) =
      .experts (es.foldl (fun d e => update (expertOf e.1) (· ++ [e.2]) [] d) nodes) := by
  induction es generalizing nodes with
  | nil => rfl
  | cons e es ih =>
    have he := h e List.mem_cons_self
    have hadd : addTo e (.experts nodes) =
        .experts (update (expertOf e.1) (· ++ [e.2]) [] nodes) := by
      unfold addTo
      rw [he]
      rfl
    rw [List.foldl_cons, List.foldl_cons, hadd, ih fun e' he' => h e' (List.mem_cons_of_mem e he')]

theorem foldl_concat {α : Type*} (l : List α) : l.foldl (fun a b => a ++ [b]) [] = l := by
  induction l using List.reverseRecOn with
  | nil => rfl
  | append_singleton l a ih => rw [List.foldl_append, ih, List.foldl_cons, List.foldl_nil]

/-- **The nodes of a stage** are the keys in it, in the order in which they are first listed. -/
theorem nodes_foldl_addTo (hne : es ≠ []) (hsound : ∀ e ∈ es, Sound e.1)
    (hk : ∀ e ∈ es, container e.1 = k) :
    (es.foldl (fun stage e => addTo e stage) (.plain [])).nodes =
      (es.map Prod.fst).eraseDups.map fun key => valuesOf key es := by
  by_cases hcontainer : IsContainer k
  · have hexpert : ∀ e ∈ es, e.1 = .expert k (expertOf e.1) := fun e he => by
      have h1 := hsound e he
      have h2 := hk e he
      cases hkey : e.1 with
      | plain storedName =>
        rw [hkey] at h1 h2
        obtain rfl : storedName = k := h2
        exact absurd hcontainer h1
      | expert storedName expertName =>
        rw [hkey] at h2
        rw [← h2]
        rfl
    have hstage : es.foldl (fun stage e => addTo e stage) (.plain []) =
        .experts (es.foldl (fun d e => update (expertOf e.1) (· ++ [e.2]) [] d) []) := by
      obtain ⟨e, es, rfl⟩ := List.exists_cons_of_ne_nil hne
      have hadd : addTo e (.plain []) = .experts (update (expertOf e.1) (· ++ [e.2]) [] []) := by
        unfold addTo
        rw [hexpert e List.mem_cons_self]
        rfl
      rw [List.foldl_cons, List.foldl_cons, hadd,
        foldl_addTo_experts fun e' he' => hexpert e' (List.mem_cons_of_mem e he')]
    have hgroups :=
      foldl_update_eq (fun id ids => ids ++ [id]) ([] : List ℕ)
        (es.map fun e => (expertOf e.1, e.2))
    rw [List.foldl_map] at hgroups
    dsimp only at hgroups
    rw [hstage, hgroups, Stage.nodes, List.map_map, List.map_map]
    have hnames : es.map (Prod.fst ∘ fun e => (expertOf e.1, e.2)) =
        (es.map Prod.fst).map expertOf := by
      rw [List.map_map]
      rfl
    have hinj : ∀ a ∈ es.map Prod.fst, ∀ b ∈ es.map Prod.fst, expertOf a = expertOf b → a = b := by
      intro a ha b hb hab
      obtain ⟨e, he, rfl⟩ := List.mem_map.mp ha
      obtain ⟨e', he', rfl⟩ := List.mem_map.mp hb
      rw [hexpert e he, hexpert e' he', hab]
    rw [hnames, eraseDups_map hinj, List.map_map]
    refine List.map_congr_left fun key hkey => ?_
    simp only [Function.comp_apply, foldl_concat]
    unfold valuesOf
    rw [List.filter_map, List.map_map]
    refine congrArg (List.map Prod.snd) (List.filter_congr fun e he => ?_)
    rw [Function.comp_apply, Bool.eq_iff_iff, beq_iff_eq, beq_iff_eq]
    exact ⟨hinj _ (List.mem_map_of_mem he) _ (List.mem_eraseDups.mp hkey), congrArg expertOf⟩
  · have hplain : ∀ e ∈ es, e.1 = .plain k := fun e he => by
      have h1 := hsound e he
      have h2 := hk e he
      cases hkey : e.1 with
      | plain storedName =>
        rw [hkey] at h2
        rw [← h2]
        rfl
      | expert storedName expertName =>
        rw [hkey] at h1 h2
        obtain rfl : storedName = k := h2
        exact absurd h1 hcontainer
    have hkeys : (es.map Prod.fst).eraseDups = [.plain k] := by
      obtain ⟨e, es, rfl⟩ := List.exists_cons_of_ne_nil hne
      have hrest : ((es.map Prod.fst).filter fun key => !key == Key.plain k) = [] := by
        refine List.filter_eq_nil_iff.mpr fun key hkey => ?_
        obtain ⟨e', he', rfl⟩ := List.mem_map.mp hkey
        rw [hplain e' (List.mem_cons_of_mem e he')]
        simp
      rw [List.map_cons, List.eraseDups_cons, hplain e List.mem_cons_self, hrest,
        List.eraseDups_nil]
    have hids : valuesOf (.plain k) es = es.map Prod.snd := by
      unfold valuesOf
      exact congrArg (List.map Prod.snd)
        (List.filter_eq_self.mpr fun e he => beq_iff_eq.mpr (hplain e he))
    rw [foldl_addTo_plain hplain, hkeys, List.map_singleton, hids, List.nil_append]
    rfl

end Stages

/-! ### The whole topology -/

section Whole

variable {nameIdMap : List (Name × ℕ)} {params buffers : List Name}

/-- The keys in the order in which they are first listed. -/
def keys (nameIdMap : List (Name × ℕ)) (params buffers : List Name) : List Key :=
  ((keyed nameIdMap params buffers).map Prod.fst).eraseDups

def containers (nameIdMap : List (Name × ℕ)) (params buffers : List Name) : List Name :=
  ((keyed nameIdMap params buffers).map fun e => container e.1).eraseDups

/-- **The topology** groups the keys by their containers, and the ids by their keys. -/
theorem getTopology_eq (hparams : ∀ name ∈ params, ∃ key, paramKey name = .ok key ∧ Sound key)
    (hbuffers : ∀ name ∈ buffers, ∃ key, bufferKey name = .ok key ∧ Sound key)
    (hsound : ∀ e ∈ keyed nameIdMap params buffers, Sound e.1) :
    getTopology nameIdMap params buffers = .ok ((containers nameIdMap params buffers).map fun k =>
      (k, ((keys nameIdMap params buffers).filter (container · == k)).map fun key =>
        valuesOf key (keyed nameIdMap params buffers))) := by
  have hnil : Kinds [] := fun _ h => absurd h List.not_mem_nil
  obtain ⟨h1, hkinds⟩ := foldlM_addName_eq nameIdMap hnil hparams
  obtain ⟨h2, -⟩ := foldlM_addName_eq nameIdMap hkinds hbuffers
  unfold getTopology
  rw [h1]
  simp only [bind, Except.bind]
  rw [h2, ← List.foldl_append]
  have hgroups := foldl_update_eq addTo (.plain [])
    ((keyed nameIdMap params buffers).map fun e => (container e.1, e))
  rw [List.foldl_map] at hgroups
  have hcollect : (keyedBy paramKey nameIdMap params ++ keyedBy bufferKey nameIdMap buffers).foldl
      (fun d e => update (container e.1) (addTo e) (.plain []) d) [] = _ := hgroups
  rw [hcollect]
  refine congrArg Except.ok ?_
  have hstages : (containers nameIdMap params buffers) =
      (((keyed nameIdMap params buffers).map fun e => (container e.1, e)).map
        Prod.fst).eraseDups := by
    rw [List.map_map]
    rfl
  rw [hstages, List.map_map]
  refine List.map_congr_left fun k hk => ?_
  have hvalues : valuesOf k ((keyed nameIdMap params buffers).map fun e => (container e.1, e)) =
      (keyed nameIdMap params buffers).filter fun e => container e.1 == k := by
    unfold valuesOf
    rw [List.filter_map, List.map_map]
    exact List.map_id _
  have hne : ((keyed nameIdMap params buffers).filter fun e => container e.1 == k) ≠ [] := by
    rw [← hstages] at hk
    obtain ⟨e, he, hek⟩ := List.mem_map.mp (List.mem_eraseDups.mp hk)
    exact List.ne_nil_of_mem (List.mem_filter.mpr ⟨he, beq_iff_eq.mpr hek⟩)
  simp only [Function.comp_apply, Prod.mk.injEq, true_and]
  rw [hvalues, nodes_foldl_addTo hne (fun e he => hsound e (List.mem_of_mem_filter he))
    fun e he => beq_iff_eq.mp (List.mem_filter.mp he).2]
  have hkeys : ((keyed nameIdMap params buffers).filter fun e => container e.1 == k).map Prod.fst =
      ((keyed nameIdMap params buffers).map Prod.fst).filter (container · == k) := by
    rw [List.filter_map]
    rfl
  unfold keys
  rw [hkeys, eraseDups_filter]
  refine List.map_congr_left fun key hkey => ?_
  unfold valuesOf
  rw [List.filter_filter]
  refine congrArg (List.map Prod.snd) (List.filter_congr fun e _ => ?_)
  have hcontainer := List.of_mem_filter hkey
  rw [Bool.eq_iff_iff, Bool.and_eq_true, beq_iff_eq]
  exact ⟨And.left, fun h => ⟨h, h ▸ hcontainer⟩⟩

/-! ### Ids and keys -/

/-- The key of a name, as a parameter or as a buffer. -/
def KeyOf (params buffers : List Name) (name : Name) (key : Key) : Prop :=
  name ∈ params ∧ paramKey name = .ok key ∨ name ∈ buffers ∧ bufferKey name = .ok key

variable {name name' : Name} {key key' : Key} {id id' : ℕ}

theorem mem_keyedBy {keyOf : Name → Except ConfigError Key} {names : List Name} :
    (key, id) ∈ keyedBy keyOf nameIdMap names ↔
      ∃ name ∈ names, keyOf name = .ok key ∧ nameIdMap.lookup name = some id := by
  unfold keyedBy
  rw [List.mem_filterMap]
  refine exists_congr fun name => and_congr_right fun _ => ?_
  cases keyOf name with
  | error e => simp
  | ok key' =>
    cases nameIdMap.lookup name with
    | none => simp
    | some id' => simp

theorem mem_keyed : (key, id) ∈ keyed nameIdMap params buffers ↔
    ∃ name, KeyOf params buffers name key ∧ nameIdMap.lookup name = some id := by
  unfold keyed KeyOf
  rw [List.mem_append, mem_keyedBy, mem_keyedBy]
  constructor
  · rintro (⟨name, h1, h2, h3⟩ | ⟨name, h1, h2, h3⟩)
    · exact ⟨name, Or.inl ⟨h1, h2⟩, h3⟩
    · exact ⟨name, Or.inr ⟨h1, h2⟩, h3⟩
  · rintro ⟨name, ⟨h1, h2⟩ | ⟨h1, h2⟩, h3⟩
    · exact Or.inl ⟨name, h1, h2, h3⟩
    · exact Or.inr ⟨name, h1, h2, h3⟩

theorem map_snd_keyedBy {keyOf : Name → Except ConfigError Key} {names : List Name}
    (h : ∀ name ∈ names, ∃ key, keyOf name = .ok key ∧ Sound key) :
    (keyedBy keyOf nameIdMap names).map Prod.snd = names.filterMap fun name =>
    nameIdMap.lookup name := by
  unfold keyedBy
  rw [List.map_filterMap]
  refine List.filterMap_congr fun name hname => ?_
  obtain ⟨key, hkey, -⟩ := h name hname
  rw [hkey]
  cases nameIdMap.lookup name <;> rfl

end Whole

/-! ### The names of a model -/

section Models

variable {nameIdMap : List (Name × ℕ)} {params buffers : List Name}
  {pre pre' expert expert' name name' : Name} {key key' : Key} {id id' : ℕ}

theorem Names.paramKey (h : Names nameIdMap params buffers) :
    ∀ name ∈ params, ∃ key, paramKey name = .ok key ∧ Sound key := by
  intro name hname
  rcases h.named name (List.mem_append_left _ hname) with ⟨pre, expert, hrouted⟩ | hunrouted
  · exact ⟨_, hrouted.paramKey, hrouted.isContainer⟩
  · obtain ⟨key, hkey, hsound⟩ := hunrouted.paramKey
    exact ⟨_, hkey, hsound⟩

theorem Names.bufferKey (h : Names nameIdMap params buffers) :
    ∀ name ∈ buffers, ∃ key, bufferKey name = .ok key ∧ Sound key := by
  intro name hname
  rcases h.named name (List.mem_append_right _ hname) with ⟨pre, expert, hrouted⟩ | hunrouted
  · exact ⟨_, hrouted.bufferKey, hrouted.isContainer⟩
  · obtain ⟨key, hkey, hsound⟩ := hunrouted.bufferKey
    exact ⟨_, hkey, hsound⟩

theorem Names.sound (h : Names nameIdMap params buffers) :
    ∀ e ∈ keyed nameIdMap params buffers, Sound e.1 := by
  intro e he
  obtain ⟨name, ⟨hname, hkey⟩ | ⟨hname, hkey⟩, -⟩ := mem_keyed.mp he
  · obtain ⟨key, hkey', hsound⟩ := h.paramKey name hname
    rw [hkey] at hkey'
    exact Except.ok.inj hkey' ▸ hsound
  · obtain ⟨key, hkey', hsound⟩ := h.bufferKey name hname
    rw [hkey] at hkey'
    exact Except.ok.inj hkey' ▸ hsound

theorem Names.map_snd (h : Names nameIdMap params buffers) :
    (keyed nameIdMap params buffers).map Prod.snd = listing nameIdMap params buffers := by
  unfold keyed listing
  rw [List.map_append, map_snd_keyedBy h.paramKey, map_snd_keyedBy h.bufferKey,
    List.filterMap_append]

theorem Names.nodup (h : Names nameIdMap params buffers) :
    (listing nameIdMap params buffers).Nodup :=
  h.distinct.filterMap fun name name' id hid hid' => h.injective name name' id hid hid'

/-- An id has one key. -/
theorem Names.key_unique (h : Names nameIdMap params buffers)
    (he : (key, id) ∈ keyed nameIdMap params buffers)
    (he' : (key', id) ∈ keyed nameIdMap params buffers) : key = key' := by
  have hnd := h.nodup
  rw [← h.map_snd] at hnd
  exact congrArg Prod.fst (List.inj_on_of_nodup_map hnd he he' rfl)

/-- The key of a routed expert's tensor. -/
theorem Routed.keyed (h : Routed pre expert name) (hname : name ∈ params ++ buffers)
    (hid : nameIdMap.lookup name = some id) :
    (.expert (pre ++ ".experts".toList) expert, id) ∈
    TopologyPartition.keyed nameIdMap params buffers := by
  refine mem_keyed.mpr ⟨name, ?_, hid⟩
  rcases List.mem_append.mp hname with hname | hname
  · exact Or.inl ⟨hname, h.paramKey⟩
  · exact Or.inr ⟨hname, h.bufferKey⟩

theorem Unrouted.keyed (h : Unrouted name) (hname : name ∈ params ++ buffers)
    (hid : nameIdMap.lookup name = some id) :
    ∃ key, (.plain key, id) ∈ TopologyPartition.keyed nameIdMap params buffers := by
  rcases List.mem_append.mp hname with hname | hname
  · obtain ⟨key, hkey, -⟩ := h.paramKey
    exact ⟨key, mem_keyed.mpr ⟨name, Or.inl ⟨hname, hkey⟩, hid⟩⟩
  · obtain ⟨key, hkey, -⟩ := h.bufferKey
    exact ⟨key, mem_keyed.mpr ⟨name, Or.inr ⟨hname, hkey⟩, hid⟩⟩

/-! ### Nodes -/

/-- The keys in the order of the nodes. -/
def orderedKeys (nameIdMap : List (Name × ℕ)) (params buffers : List Name) : List Key :=
  (containers nameIdMap params buffers).flatMap fun k =>
  (keys nameIdMap params buffers).filter (container · == k)

theorem mem_orderedKeys : key ∈ orderedKeys nameIdMap params buffers ↔
    key ∈ (TopologyPartition.keyed nameIdMap params buffers).map Prod.fst := by
  unfold orderedKeys
  rw [List.mem_flatMap]
  constructor
  · rintro ⟨k, -, hkey⟩
    exact List.mem_eraseDups.mp (List.mem_of_mem_filter hkey)
  · intro hkey
    obtain ⟨e, he, rfl⟩ := List.mem_map.mp hkey
    exact ⟨container e.1, List.mem_eraseDups.mpr (List.mem_map.mpr ⟨e, he, rfl⟩),
      List.mem_filter.mpr ⟨List.mem_eraseDups.mpr hkey, beq_self_eq_true _⟩⟩

theorem nodup_orderedKeys : (orderedKeys nameIdMap params buffers).Nodup := by
  have hnd : (containers nameIdMap params buffers).Nodup := nodup_eraseDups
  refine List.nodup_flatMap.mpr ⟨fun k _ => nodup_eraseDups.filter _, hnd.imp fun {k k'} hne => ?_⟩
  intro key hkey hkey'
  exact hne
    ((beq_iff_eq.mp (List.mem_filter.mp hkey).2).symm.trans
      (beq_iff_eq.mp (List.mem_filter.mp hkey').2))

/-- **No id twice**. -/
theorem Names.nodup_nodes (h : Names nameIdMap params buffers) :
    ((orderedKeys nameIdMap params buffers).flatMap fun key =>
      valuesOf key (TopologyPartition.keyed nameIdMap params buffers)).Nodup := by
  have hnd := h.nodup
  rw [← h.map_snd] at hnd
  refine List.nodup_flatMap.mpr ⟨fun key _ => hnd.sublist (List.filter_sublist.map _), ?_⟩
  refine List.Pairwise.imp (fun {key key'} hne => ?_) nodup_orderedKeys
  intro id hid hid'
  exact hne (h.key_unique (mem_valuesOf.mp hid) (mem_valuesOf.mp hid'))

/-- **The order** of the keys is that of the listing of their ids. -/
theorem Names.pairwise_keys (h : Names nameIdMap params buffers) :
    (keys nameIdMap params buffers).Pairwise fun key key' =>
    ∃ id ∈ valuesOf key (TopologyPartition.keyed nameIdMap params buffers),
      ∀ id' ∈ valuesOf key' (TopologyPartition.keyed nameIdMap params buffers),
        (listing nameIdMap params buffers).idxOf id <
        (listing nameIdMap params buffers).idxOf id' := by
  have hnd := h.nodup
  rw [← h.map_snd] at hnd ⊢
  refine List.Pairwise.imp (fun {key key'} hkeys => ?_) (nodup_eraseDups.and pairwise_eraseDups)
  obtain ⟨hne, l₁, l₂, hsplit, hnew⟩ := hkeys
  obtain ⟨es, es', hes, rfl, hes'⟩ := List.map_eq_append_iff.mp hsplit
  obtain ⟨e, rest, rfl, rfl, -⟩ := List.map_eq_cons_iff.mp hes'
  rw [hes] at hnd ⊢
  rw [List.map_append, List.map_cons] at hnd ⊢
  obtain ⟨-, hnd', hdisjoint⟩ := List.nodup_append.mp hnd
  have hfirst : e.2 ∉ es.map Prod.snd := fun hmem => hdisjoint _ hmem _ List.mem_cons_self rfl
  refine ⟨e.2, mem_valuesOf.mpr (List.mem_append_right _ List.mem_cons_self), fun id' hid' => ?_⟩
  have hid' : (key', id') ∈ rest := by
    rcases List.mem_append.mp (mem_valuesOf.mp hid') with hmem | hmem
    · exact absurd (List.mem_map_of_mem hmem) hnew
    · exact (List.mem_cons.mp hmem).resolve_left fun h0 => hne (congrArg Prod.fst h0).symm
  have hmem' : id' ∈ rest.map Prod.snd := List.mem_map_of_mem hid'
  have hlater : id' ∉ es.map Prod.snd := fun hmem =>
    hdisjoint _ hmem _ (List.mem_cons_of_mem _ hmem') rfl
  have hother : e.2 ≠ id' := fun h0 => (List.nodup_cons.mp hnd').1 (h0 ▸ hmem')
  rw [List.idxOf_append_of_notMem hfirst, List.idxOf_append_of_notMem hlater, List.idxOf_cons_self,
    List.idxOf_cons_ne _ hother]
  exact Nat.add_lt_add_left (Nat.succ_pos _) _

end Models

/-- **`get_topology`** partitions the ids. -/
theorem getTopology_partition (nameIdMap : List (Name × ℕ)) (params buffers : List Name)
    (h : Names nameIdMap params buffers) :
    ∃ topo, getTopology nameIdMap params buffers = .ok topo ∧
      Partitions nameIdMap params buffers topo := by
  refine ⟨_, getTopology_eq h.paramKey h.bufferKey h.sound, ?_⟩
  set stages := (containers nameIdMap params buffers).map fun k =>
    (k, ((keys nameIdMap params buffers).filter (container · == k)).map fun key =>
      valuesOf key (keyed nameIdMap params buffers)) with hstages
  have hnodes : stages.flatMap Prod.snd =
      (orderedKeys nameIdMap params buffers).map fun key =>
        valuesOf key (keyed nameIdMap params buffers) := by
    unfold orderedKeys
    rw [hstages, List.flatMap_map, List.map_flatMap]
  have hmem : ∀ id id', (∃ node ∈ stages.flatMap Prod.snd, id ∈ node ∧ id' ∈ node) ↔
      ∃ key, (key, id) ∈ keyed nameIdMap params buffers ∧
        (key, id') ∈ keyed nameIdMap params buffers := by
    intro id id'
    rw [hnodes]
    constructor
    · rintro ⟨node, hnode, hid, hid'⟩
      obtain ⟨key, -, rfl⟩ := List.mem_map.mp hnode
      exact ⟨key, mem_valuesOf.mp hid, mem_valuesOf.mp hid'⟩
    · rintro ⟨key, hid, hid'⟩
      exact ⟨_, List.mem_map_of_mem (mem_orderedKeys.mpr (List.mem_map_of_mem hid)),
        mem_valuesOf.mpr hid, mem_valuesOf.mpr hid'⟩
  have hflat : (stages.flatMap Prod.snd).flatten = (orderedKeys nameIdMap params buffers).flatMap
      fun key => valuesOf key (keyed nameIdMap params buffers) := by
    rw [hnodes, List.flatMap_def]
  refine ⟨?_, ?_, ?_, ?_, ?_, ?_⟩
  · rw [hflat]
    refine (List.perm_ext_iff_of_nodup h.nodup_nodes h.nodup).mpr fun id => ?_
    rw [← h.map_snd, List.mem_flatMap, List.mem_map]
    constructor
    · rintro ⟨key, -, hid⟩
      exact ⟨_, mem_valuesOf.mp hid, rfl⟩
    · rintro ⟨e, he, rfl⟩
      exact ⟨e.1, mem_orderedKeys.mpr (List.mem_map_of_mem he), mem_valuesOf.mpr he⟩
  · rw [hflat]
    exact h.nodup_nodes
  · intro node hnode
    rw [hnodes] at hnode
    obtain ⟨key, hkey, rfl⟩ := List.mem_map.mp hnode
    obtain ⟨e, he, rfl⟩ := List.mem_map.mp (mem_orderedKeys.mp hkey)
    exact List.ne_nil_of_mem (mem_valuesOf.mpr he)
  · intro pre pre' expert expert' name name' id id' hname hname' hrouted hrouted' hid hid'
    have hkey := hrouted.keyed hname hid
    have hkey' := hrouted'.keyed hname' hid'
    rw [hmem]
    constructor
    · rintro ⟨key, h1, h2⟩
      have heq := (h.key_unique hkey h1).trans (h.key_unique h2 hkey')
      injection heq with hpre hexpert
      exact ⟨List.append_cancel_right hpre, hexpert⟩
    · rintro ⟨rfl, rfl⟩
      exact ⟨_, hkey, hkey'⟩
  · intro pre expert name name' id id' hname hname' hrouted hunrouted hid hid' hnode
    obtain ⟨key, h1, h2⟩ := (hmem id id').mp hnode
    obtain ⟨plainKey, hplain⟩ := hunrouted.keyed hname' hid'
    have heq := (h.key_unique (hrouted.keyed hname hid) h1).trans (h.key_unique h2 hplain)
    cases heq
  · intro stage hstage
    obtain ⟨k, -, rfl⟩ := List.mem_map.mp hstage
    exact List.pairwise_map.mpr (h.pairwise_keys.sublist List.filter_sublist)

/-! ### Examples -/

section Positions

variable {pre expert projection tensor name : Name}

/-- The only `experts` is the one at the end of the container. -/
theorem routed_of_positions (hnumbered : ∃ c ∈ pre, c.isDigit) (hline : '\n' ∉ pre)
    (hexpert : '.' ∉ expert) (hprojection : '.' ∉ projection) (htensor : '.' ∉ tensor)
    (h : ∀ i ≤ (paramOf pre expert projection tensor).length,
      "experts".toList <+: (paramOf pre expert projection tensor).drop i →
        (paramOf pre expert projection tensor).take i = pre ++ ".".toList) :
    Routed pre expert (paramOf pre expert projection tensor) := by
  refine ⟨projection, tensor, rfl, hnumbered, hline, hexpert, hprojection, htensor,
    fun u v huv => ?_⟩
  have hlen : u.length ≤ (paramOf pre expert projection tensor).length := by
    rw [huv, List.length_append]
    exact Nat.le_add_right _ _
  have htake := h u.length hlen
  rw [huv, List.drop_left, List.take_left] at htake
  exact htake (List.prefix_append _ _)

theorem unrouted_of_positions (h : ∀ i ≤ name.length, "expert".toList <+: name.drop i →
    "shared_".toList <:+ name.take i ∧ "s".toList <+: name.drop (i + 6)) : Unrouted name := by
  intro u v huv
  have hlen : u.length ≤ name.length := by
    rw [huv, List.length_append]
    exact Nat.le_add_right _ _
  have hparts := h u.length hlen
  rw [huv, List.drop_left, List.take_left, ← List.drop_drop, List.drop_left] at hparts
  exact hparts (List.prefix_append _ _)

end Positions

def weight (expert : String) : Name :=
  paramOf "layers.0".toList expert.toList "w1".toList "weight".toList

def scale (expert : String) : Name :=
  paramOf "layers.0".toList expert.toList "w1".toList "scale".toList

def shared : Name := "layers.0.shared_experts.w1.weight".toList

theorem routed_weight_zero : Routed "layers.0".toList "0".toList (weight "0") :=
  routed_of_positions ⟨'0', by decide⟩ (by decide) (by decide) (by decide) (by decide) (by decide)

theorem routed_weight_one : Routed "layers.0".toList "1".toList (weight "1") :=
  routed_of_positions ⟨'0', by decide⟩ (by decide) (by decide) (by decide) (by decide) (by decide)

theorem routed_scale_zero : Routed "layers.0".toList "0".toList (scale "0") :=
  routed_of_positions ⟨'0', by decide⟩ (by decide) (by decide) (by decide) (by decide) (by decide)

theorem unrouted_shared : Unrouted shared := unrouted_of_positions (by decide)

/-- The parameters of two experts and a shared one, of which the first is not mapped but for its
scale. -/
def someIds : List (Name × ℕ) := [(weight "1", 0), (scale "0", 1), (shared, 2)]

theorem names_someIds : Names someIds [weight "0", weight "1", shared] [scale "0"] where
  distinct := by decide
  injective := by
    intro name name' id h h'
    have hids : ∀ e ∈ someIds, ∀ e' ∈ someIds, e.2 = e'.2 → e.1 = e'.1 := by decide
    exact hids _ (mem_of_lookup h) _ (mem_of_lookup h') rfl
  named := by
    intro name hname
    simp only [List.cons_append, List.nil_append, List.mem_cons, List.not_mem_nil, or_false]
      at hname
    rcases hname with rfl | rfl | rfl | rfl
    · exact Or.inl ⟨_, _, routed_weight_zero⟩
    · exact Or.inl ⟨_, _, routed_weight_one⟩
    · exact Or.inr unrouted_shared
    · exact Or.inl ⟨_, _, routed_scale_zero⟩

theorem someIds_partition :
    ∃ topo, getTopology someIds [weight "0", weight "1", shared] [scale "0"] = .ok topo ∧
      Partitions someIds [weight "0", weight "1", shared] [scale "0"] topo :=
  getTopology_partition _ _ _ names_someIds

/-- The nodes of a stage are in the order in which the parameters first list their experts. -/
def InParamOrder (nameIdMap : List (Name × ℕ)) (params : List Name)
    (topo : List (Name × List (List ℕ))) : Prop :=
  ∀ stage ∈ topo, stage.2.Pairwise fun node node' => ∀ pre expert expert' name name' id id',
    id ∈ node → id' ∈ node' → nameIdMap.lookup name = some id → nameIdMap.lookup name' = some id' →
    Routed pre expert name → Routed pre expert' name' → (∃ n ∈ params, Routed pre expert' n) →
      ∃ l₁ n l₂, params = l₁ ++ n :: l₂ ∧ Routed pre expert n ∧ ∀ m ∈ l₁, ¬ Routed pre expert' m

/-- The first expert is listed first, and its node is the second one; a line break in a name is an
error. -/
theorem listed_first_collected_later :
    (∃ topo, getTopology someIds [weight "0", weight "1", shared] [scale "0"] = .ok topo ∧
      ¬ InParamOrder someIds [weight "0", weight "1", shared] topo) ∧
    getTopology [(paramOf "layers.0\n".toList "0".toList "w1".toList "weight".toList, 0)]
      [paramOf "layers.0\n".toList "0".toList "w1".toList "weight".toList] [] =
      .error .incorrectExpertName := by
  refine ⟨⟨[("layers.0.experts".toList, [[0], [1]]), ("layers.0".toList, [[2]])],
    by decide, fun horder => ?_⟩, by decide⟩
  have hpair := horder _ List.mem_cons_self
  obtain ⟨l₁, n, l₂, hsplit, hn, hl₁⟩ := (List.pairwise_cons.mp hpair).1 [1] List.mem_cons_self
    "layers.0".toList "1".toList "0".toList (weight "1") (scale "0") 0 1 List.mem_cons_self
      List.mem_cons_self
    (by decide) (by decide) routed_weight_one routed_scale_zero
      ⟨_, List.mem_cons_self, routed_weight_zero⟩
  cases l₁ with
  | nil =>
    obtain ⟨rfl, -⟩ := List.cons.inj hsplit
    have hkey := hn.paramKey.symm.trans routed_weight_zero.paramKey
    have hne : "1".toList ≠ "0".toList := by decide
    injection hkey with hkey
    injection hkey with _ hexpert
    exact hne hexpert
  | cons m l₁ =>
    obtain ⟨rfl, -⟩ := List.cons.inj hsplit
    exact hl₁ _ List.mem_cons_self routed_weight_zero

end MoeInfinity.Runtime.TopologyPartition
