import MoeInfinity.Lib.Dict
import MoeInfinity.Utils.HfConfig

/-! # The topology of a model (`runtime/model_offload.py`)

`get_topology` groups the parameters and buffers of a model into stages. The parameters of the
experts of a layer are one stage, with a node for each expert; the other names are cut behind the
number of their layer, and what is cut equally is one stage with one node. A stage is either a list
or a dictionary: an operation of the one kind on the other kind is an error.

The last number in a name is found by a slightly other rule in buffers than in parameters. -/

namespace MoeInfinity.Runtime.Topology

open MoeInfinity.Lib.Backtrack MoeInfinity.Lib.Backtrack.Pattern MoeInfinity.Lib.Dict
open MoeInfinity.Utils.HfConfig

/-- A value of `ret_dict`. -/
inductive Stage where
  | plain (ids : List ℕ)
  | experts (nodes : List (Name × List ℕ))
deriving DecidableEq, Repr

/-- The lists of a stage. -/
def Stage.nodes : Stage → List (List ℕ)
  | .plain ids => [ids]
  | .experts nodes => nodes.map Prod.snd

/-- `ret_dict`, whose keys are `name_lst`. -/
abbrev RetDict := List (Name × Stage)

/-! ### Cutting names -/

/-- Where a name belongs. -/
inductive Key where
  | plain (storedName : Name)
  | expert (storedName expertName : Name)
deriving DecidableEq, Repr

/-- `re.search(r"\d+", name)`. -/
def hasDigit (name : Name) : Bool := name.any Char.isDigit

def IsExpert (name : Name) : Prop := Contains "expert" name ∧ ¬ Contains "shared_experts" name

instance (name : Name) : Decidable (IsExpert name) := inferInstanceAs (Decidable (_ ∧ _))

/-- `(.*experts)`. -/
def expertsPattern : Pattern Name := do
  let w ← many (· ≠ '\n')
  lit "experts"
  return w ++ "experts".toList

/-- `(.*\.\d+\.)`. -/
def numberedPattern : Pattern Name := do
  let w ← many (· ≠ '\n')
  lit "."
  let n ← many1 Char.isDigit
  lit "."
  return w ++ '.' :: (n ++ ['.'])

/-- `name[: last_number_position + 1]` for the position of the last digit. -/
def upToLastDigit (name : Name) : Name := (name.reverse.dropWhile fun c => !c.isDigit).reverse

/-- `name.rsplit(".", 1)[0]`. -/
def beforeLastDot (name : Name) : Name :=
  if '.' ∈ name then ((name.reverse.dropWhile (· ≠ '.')).drop 1).reverse else name

/-- `name.split(".")[-3]`. -/
def thirdLast (name : Name) : Option Name := (name.splitOn '.').reverse[2]?

def expertKey (name : Name) : Except ConfigError Key :=
  match expertsPattern.matchStart name, thirdLast name with
  | some storedName, some expertName => .ok (.expert storedName expertName)
  | _, _ => .error .incorrectExpertName

def paramKey (name : Name) : Except ConfigError Key :=
  if hasDigit name then
    if IsExpert name then expertKey name
    else
      match numberedPattern.matchStart name with
      | some found => .ok (.plain (name.take (found.length - 1)))
      | none => .ok (.plain (upToLastDigit name))
  else .ok (.plain (beforeLastDot name))

def bufferKey (name : Name) : Except ConfigError Key :=
  if hasDigit name then
    if IsExpert name then expertKey name else .ok (.plain (upToLastDigit name))
  else .ok (.plain (beforeLastDot name))

/-! ### Collecting -/

def addId (topo : RetDict) (key : Key) (id : ℕ) : Except ConfigError RetDict :=
  match key with
  | .plain storedName =>
    match topo.lookup storedName with
    | none => .ok (put storedName (.plain [id]) topo)
    | some (.plain ids) => .ok (put storedName (.plain (ids ++ [id])) topo)
    | some (.experts _) => .error .mixedStage
  | .expert storedName expertName =>
    match topo.lookup storedName with
    | none => .ok (put storedName (.experts [(expertName, [id])]) topo)
    | some (.experts nodes) =>
      match nodes.lookup expertName with
      | none => .ok (put storedName (.experts (put expertName [id] nodes)) topo)
      | some ids => .ok (put storedName (.experts (put expertName (ids ++ [id]) nodes)) topo)
    | some (.plain _) => .error .mixedStage

/-- One name of the model; names without an id are skipped. -/
def addName (keyOf : Name → Except ConfigError Key) (nameIdMap : List (Name × ℕ)) (topo : RetDict)
    (name : Name) : Except ConfigError RetDict :=
  match nameIdMap.lookup name with
  | none => .ok topo
  | some id => do
    let key ← keyOf name
    addId topo key id

def getTopology (nameIdMap : List (Name × ℕ)) (params buffers : List Name) :
    Except ConfigError (List (Name × List (List ℕ))) := do
  let topo ← params.foldlM (addName paramKey nameIdMap) []
  let topo ← buffers.foldlM (addName bufferKey nameIdMap) topo
  return topo.map fun e => (e.1, e.2.nodes)

/-! ### Names of experts -/

/-- The name of a parameter of an expert. -/
def paramOf (pre expert projection tensor : Name) : Name :=
  pre ++ (".experts".toList ++
    (".".toList ++ (expert ++ (".".toList ++ (projection ++ (".".toList ++ tensor))))))

/-- What `get_topology` takes for granted in such names. -/
structure ExpertName (pre expert projection tensor : Name) : Prop where
  numbered : ∃ c ∈ pre, c.isDigit
  line : '\n' ∉ pre
  expertDot : '.' ∉ expert
  projectionDot : '.' ∉ projection
  tensorDot : '.' ∉ tensor
  once : ¬ "experts".toList <:+: "xperts".toList ++ (".".toList ++ (expert ++ (".".toList ++
    (projection ++ (".".toList ++ tensor)))))
  notShared : ¬ Contains "shared_experts" (paramOf pre expert projection tensor)

section ExpertNames

variable {pre expert projection tensor : Name}

/-- The longest prefix with `experts` at its end ends at the container. -/
theorem ExpertName.storedName (h : ExpertName pre expert projection tensor) :
    expertsPattern.matchStart (paramOf pre expert projection tensor) =
      some (pre ++ ".experts".toList) := by
  have hsplit : ".experts".toList = ".".toList ++ "experts".toList := by decide
  refine First.matchStart
    (t := ".".toList ++ (expert ++ (".".toList ++ (projection ++ (".".toList ++ tensor))))) ?_
  unfold paramOf expertsPattern
  rw [hsplit, List.append_assoc, ← List.append_assoc pre, ← List.append_assoc pre]
  refine first_many_bind (fun c hc => ?_) ((first_lit "experts" _).bind (first_pure _ _))
    fun u v huv hu => fails_bind_left (fails_lit.mpr fun hv => h.once ?_)
  · rcases List.mem_append.mp hc with hc | hc
    · simpa using fun h0 : c = '\n' => h.line (h0 ▸ hc)
    · have hdot : c = '.' := by simpa using hc
      rw [hdot]
      decide
  · -- a later occurrence lies behind the first letter of this one
    obtain ⟨d, u, rfl⟩ := List.exists_cons_of_ne_nil hu
    have htail := congrArg List.tail huv
    rw [List.cons_append, List.tail_cons] at htail
    refine hv.isInfix.trans ?_
    have hrest : "xperts".toList ++
        (".".toList ++ (expert ++ (".".toList ++ (projection ++ (".".toList ++ tensor))))) =
          u ++ v := by
      rw [← htail]
      simp
    rw [hrest]
    exact (List.suffix_append u v).isInfix

theorem ExpertName.expertName (h : ExpertName pre expert projection tensor) :
    thirdLast (paramOf pre expert projection tensor) = some expert := by
  unfold thirdLast paramOf
  have hdot : ∀ s : Name, ".".toList ++ s = '.' :: s := fun s => by simp
  simp only [hdot]
  rw [← List.append_assoc, List.splitOn_append_cons_self, List.splitOn_append_cons_self,
    List.splitOn_append_cons_self, List.splitOn_eq_singleton h.expertDot,
    List.splitOn_eq_singleton h.projectionDot, List.splitOn_eq_singleton h.tensorDot]
  simp

/-- **The key of an expert's name**: its container and the expert. -/
theorem ExpertName.expertKey (h : ExpertName pre expert projection tensor) :
    expertKey (paramOf pre expert projection tensor) =
      .ok (.expert (pre ++ ".experts".toList) expert) := by
  unfold Topology.expertKey
  rw [h.storedName, h.expertName]

theorem ExpertName.hasDigit (h : ExpertName pre expert projection tensor) :
    hasDigit (paramOf pre expert projection tensor) = true := by
  obtain ⟨c, hc, hdigit⟩ := h.numbered
  exact List.any_eq_true.mpr ⟨c, List.mem_append_left _ hc, hdigit⟩

theorem ExpertName.isExpert (h : ExpertName pre expert projection tensor) :
    IsExpert (paramOf pre expert projection tensor) := by
  refine ⟨?_, h.notShared⟩
  unfold Contains paramOf
  have hword : "expert".toList <:+: ".experts".toList := by decide
  exact hword.trans ((List.prefix_append _ _).isInfix.trans (List.suffix_append pre _).isInfix)

theorem ExpertName.paramKey (h : ExpertName pre expert projection tensor) :
    paramKey (paramOf pre expert projection tensor) =
      .ok (.expert (pre ++ ".experts".toList) expert) := by
  unfold Topology.paramKey
  rw [if_pos h.hasDigit, if_pos h.isExpert, h.expertKey]

theorem ExpertName.bufferKey (h : ExpertName pre expert projection tensor) :
    bufferKey (paramOf pre expert projection tensor) =
      .ok (.expert (pre ++ ".experts".toList) expert) := by
  unfold Topology.bufferKey
  rw [if_pos h.hasDigit, if_pos h.isExpert, h.expertKey]

end ExpertNames

/-! ### Other names -/

/-- A name without `expert`, or of a shared expert, with no number behind that of the layer. -/
def Plain (name : Name) : Prop :=
  ¬ Contains "expert" name ∨ Contains "shared_experts" name ∧ ∃ front back, name = front ++ back ∧
    (∃ c ∈ front, c.isDigit) ∧ ¬ Contains "expert" front ∧ ∀ c ∈ back, ¬ c.isDigit

section OtherNames

variable {name key : Name}

/-- The last character is a digit, if there is one. -/
def EndsInDigit (key : Name) : Prop := ∀ c ∈ key.getLast?, c.isDigit

theorem isPrefix_upToLastDigit (name : Name) : upToLastDigit name <+: name := by
  have h := List.dropWhile_suffix (l := name.reverse) fun c => !c.isDigit
  unfold upToLastDigit
  rw [← List.reverse_suffix, List.reverse_reverse]
  exact h

theorem upToLastDigit_ends (name : Name) : EndsInDigit (upToLastDigit name) := by
  intro c hc
  unfold upToLastDigit at hc
  rw [List.getLast?_reverse] at hc
  have h := List.head?_dropWhile_not (fun c : Char => !c.isDigit) name.reverse
  rw [hc] at h
  simpa using h

theorem isPrefix_beforeLastDot (name : Name) : beforeLastDot name <+: name := by
  unfold beforeLastDot
  split_ifs with h
  · have h1 := List.dropWhile_suffix (l := name.reverse) fun c => c ≠ '.'
    have h2 := List.drop_suffix 1 (name.reverse.dropWhile fun c => c ≠ '.')
    rw [← List.reverse_suffix, List.reverse_reverse]
    exact h2.trans h1
  · exact List.prefix_refl name

/-- What the pattern of numbers finds, without the last dot. -/
theorem numbered_spec {found : Name} (h : numberedPattern.matchStart name = some found) :
    name.take (found.length - 1) <+: name ∧ EndsInDigit (name.take (found.length - 1)) := by
  have htake : name.take (found.length - 1) <+: name := List.take_prefix _ _
  refine ⟨htake, ?_⟩
  obtain ⟨t, ht⟩ := matchStart_eq_some h
  obtain ⟨⟨w, s1⟩, hw, ht⟩ := mem_bind.mp ht
  obtain ⟨⟨_, s2⟩, h1, ht⟩ := mem_bind.mp ht
  obtain ⟨⟨n, s3⟩, hn, ht⟩ := mem_bind.mp ht
  obtain ⟨⟨_, s4⟩, h2, ht⟩ := mem_bind.mp ht
  obtain ⟨rfl, rfl⟩ := Prod.mk.inj (mem_pure.mp ht)
  obtain ⟨hs1, -⟩ := mem_manyRun hw
  obtain ⟨hs3, hne, hdigits⟩ := mem_many1 hn
  have hname : name = (w ++ (".".toList ++ n)) ++ (".".toList ++ t) := by
    have h1 := mem_lit h1
    have h2 := mem_lit h2
    simp only at hs1 hs3 h1 h2
    rw [hs1, h1, hs3, h2]
    simp
  have hlen : (w ++ '.' :: (n ++ ['.'])).length - 1 = (w ++ (".".toList ++ n)).length := by
    simp only [List.length_append, List.length_cons, List.length_nil, String.reduceToList]
    omega
  intro c hc
  rw [hlen, hname, List.take_left, ← List.append_assoc, List.getLast?_append_of_ne_nil _ hne] at hc
  exact hdigits c (List.mem_of_mem_getLast? hc)

theorem Plain.not_isExpert (h : Plain name) : ¬ IsExpert name := by
  rintro ⟨h1, h2⟩
  rcases h with h | h
  · exact h h1
  · exact h2 h.1

theorem not_contains_of_isPrefix {part : String} (h : key <+: name) (hname : ¬ Contains part name) :
    ¬ Contains part key := fun hkey => hname (hkey.trans h.isInfix)

/-- A key that ends in a digit ends before the words behind the last number. -/
theorem Plain.not_contains (h : Plain name) (hkey : key <+: name) (hdigit : EndsInDigit key) :
    ¬ Contains "expert" key := by
  rcases h with h | ⟨-, front, back, rfl, -, hfront, hback⟩
  · exact not_contains_of_isPrefix hkey h
  · rcases Nat.le_total key.length front.length with hle | hle
    · have hp := List.prefix_of_prefix_length_le hkey (List.prefix_append front back) hle
      exact not_contains_of_isPrefix hp hfront
    · obtain ⟨t, rfl⟩ := List.prefix_of_prefix_length_le (List.prefix_append front back) hkey hle
      have ht : t <+: back := (List.prefix_append_right_inj front).mp hkey
      cases hlast : t.getLast? with
      | none =>
        rw [List.getLast?_eq_none_iff.mp hlast, List.append_nil]
        exact hfront
      | some c =>
        have hc : c ∈ (front ++ t).getLast? := by
          rw [List.getLast?_append, hlast]
          rfl
        exact absurd (hdigit c hc) (hback c (ht.subset (List.mem_of_mem_getLast? hlast)))

theorem Plain.not_contains_of_no_digit (h : Plain name) (hdigit : ¬ hasDigit name) :
    ¬ Contains "expert" (beforeLastDot name) := by
  rcases h with h | ⟨-, front, back, rfl, ⟨c, hc, hc'⟩, -⟩
  · exact not_contains_of_isPrefix (isPrefix_beforeLastDot name) h
  · exact absurd (List.any_eq_true.mpr ⟨c, List.mem_append_left _ hc, hc'⟩) hdigit

/-- **The key of another name** has no `expert` in it. -/
theorem Plain.paramKey (h : Plain name) :
    ∃ key, paramKey name = .ok (.plain key) ∧ ¬ Contains "expert" key := by
  unfold Topology.paramKey
  split_ifs with hdigit hexpert
  · exact absurd hexpert h.not_isExpert
  · cases hfound : numberedPattern.matchStart name with
    | some found =>
      obtain ⟨h1, h2⟩ := numbered_spec hfound
      exact ⟨_, rfl, h.not_contains h1 h2⟩
    | none => exact ⟨_, rfl, h.not_contains (isPrefix_upToLastDigit name) (upToLastDigit_ends name)⟩
  · exact ⟨_, rfl, h.not_contains_of_no_digit hdigit⟩

theorem Plain.bufferKey (h : Plain name) :
    ∃ key, bufferKey name = .ok (.plain key) ∧ ¬ Contains "expert" key := by
  unfold Topology.bufferKey
  split_ifs with hdigit hexpert
  · exact absurd hexpert h.not_isExpert
  · exact ⟨_, rfl, h.not_contains (isPrefix_upToLastDigit name) (upToLastDigit_ends name)⟩
  · exact ⟨_, rfl, h.not_contains_of_no_digit hdigit⟩

end OtherNames

/-! ### Collecting other names -/

/-- The stages of experts, in the order of the dictionary. -/
def expertStages (topo : RetDict) : List (Name × List (Name × List ℕ)) :=
  topo.filterMap fun e =>
    match e.2 with
    | .experts nodes => some (e.1, nodes)
    | .plain _ => none

/-- The keys with `expert` are those of the stages of experts. -/
def Sorted (topo : RetDict) : Prop :=
  ∀ e ∈ topo, match e.2 with
    | .experts _ => Contains "expert" e.1
    | .plain _ => ¬ Contains "expert" e.1

section Collecting

variable {topo topo' : RetDict} {name key : Name} {keyOf : Name → Except ConfigError Key}
  {nameIdMap : List (Name × ℕ)}

theorem sorted_nil : Sorted [] := fun _ h => absurd h List.not_mem_nil

theorem Sorted.append (h : Sorted topo) (h' : Sorted topo') : Sorted (topo ++ topo') := fun e he =>
  (List.mem_append.mp he).elim (h e) (h' e)

/-- Ids that go to a list leave the stages of experts alone. -/
theorem put_plain (h : Sorted topo) (hkey : ¬ Contains "expert" key) (ids : List ℕ) :
    Sorted (put key (.plain ids) topo) ∧ expertStages (put key (.plain ids) topo) =
      expertStages topo := by
  induction topo with
  | nil => exact ⟨fun e he => by rw [List.mem_singleton.mp he]; exact hkey, rfl⟩
  | cons e topo ih =>
    have htail : Sorted topo := fun d hd => h d (List.mem_cons_of_mem e hd)
    obtain ⟨ih1, ih2⟩ := ih htail
    obtain ⟨k, stage⟩ := e
    by_cases he : k = key
    · subst he
      rw [put_cons_self]
      refine ⟨fun d hd => ?_, ?_⟩
      · rcases List.mem_cons.mp hd with rfl | hd
        · exact hkey
        · exact htail d hd
      · cases stage with
        | plain _ => rfl
        | experts nodes => exact absurd (h _ List.mem_cons_self) hkey
    · rw [put_cons_of_ne he]
      refine ⟨fun d hd => ?_, ?_⟩
      · rcases List.mem_cons.mp hd with rfl | hd
        · exact h _ List.mem_cons_self
        · exact ih1 d hd
      · unfold expertStages at ih2 ⊢
        rw [List.filterMap_cons, List.filterMap_cons, ih2]

/-- **Another name** leaves the stages of experts alone. -/
theorem addName_plain (h : Sorted topo)
    (hname : ∃ key, keyOf name = .ok (.plain key) ∧ ¬ Contains "expert" key) :
    ∃ topo', addName keyOf nameIdMap topo name = .ok topo' ∧ Sorted topo' ∧
      expertStages topo' = expertStages topo := by
  obtain ⟨key, hkey, hcontains⟩ := hname
  unfold addName
  cases nameIdMap.lookup name with
  | none => exact ⟨topo, rfl, h, rfl⟩
  | some id =>
    simp only [hkey, bind, Except.bind, addId]
    cases hlookup : topo.lookup key with
    | none => exact ⟨_, rfl, put_plain h hcontains _⟩
    | some stage =>
      cases stage with
      | plain ids => exact ⟨_, rfl, put_plain h hcontains _⟩
      | experts nodes =>
        have hcontains' : Contains "expert" key := h _ (mem_of_lookup hlookup)
        exact absurd hcontains' hcontains

/-- A key with `expert` is looked up among the stages of experts. -/
theorem lookup_of_sorted (h : Sorted topo) (hkey : Contains "expert" key) :
    topo.lookup key = ((expertStages topo).lookup key).map .experts := by
  induction topo with
  | nil => rfl
  | cons e topo ih =>
    have ih := ih fun d hd => h d (List.mem_cons_of_mem e hd)
    obtain ⟨k, stage⟩ := e
    have hk := h _ List.mem_cons_self
    cases stage with
    | plain ids =>
      have hne : (key == k) = false := beq_eq_false_iff_ne.mpr fun h0 => hk (h0 ▸ hkey)
      rw [List.lookup_cons, hne]
      exact ih
    | experts nodes =>
      have hcons : expertStages ((k, .experts nodes) :: topo) = (k, nodes) ::
        expertStages topo := rfl
      rw [hcons, List.lookup_cons, List.lookup_cons]
      cases hbeq : key == k with
      | true => rfl
      | false => exact ih

/-- Nodes that go to a dictionary leave the lists alone. -/
theorem put_experts (h : Sorted topo) (hkey : Contains "expert" key)
    (nodes : List (Name × List ℕ)) :
    Sorted (put key (.experts nodes) topo) ∧
      expertStages (put key (.experts nodes) topo) = put key nodes (expertStages topo) := by
  induction topo with
  | nil => exact ⟨fun e he => by rw [List.mem_singleton.mp he]; exact hkey, rfl⟩
  | cons e topo ih =>
    have htail : Sorted topo := fun d hd => h d (List.mem_cons_of_mem e hd)
    obtain ⟨ih1, ih2⟩ := ih htail
    obtain ⟨k, stage⟩ := e
    have hk := h _ List.mem_cons_self
    by_cases he : k = key
    · subst he
      rw [put_cons_self]
      refine ⟨fun d hd => ?_, ?_⟩
      · rcases List.mem_cons.mp hd with rfl | hd
        · exact hkey
        · exact htail d hd
      · cases stage with
        | plain _ => exact absurd hkey hk
        | experts _ => exact put_cons_self.symm
    · rw [put_cons_of_ne he]
      refine ⟨fun d hd => ?_, ?_⟩
      · rcases List.mem_cons.mp hd with rfl | hd
        · exact hk
        · exact ih1 d hd
      · cases stage with
        | plain _ => exact ih2
        | experts nodes' =>
          have hcons : ∀ d, expertStages ((k, .experts nodes') :: d) = (k, nodes') ::
              expertStages d :=
            fun _ => rfl
          rw [hcons, hcons, put_cons_of_ne he, ih2]

/-- An id in the node of an expert, whose stage and node are started where they are missing. -/
def addExpert (stages : List (Name × List (Name × List ℕ))) (entry : Name × Name × ℕ) :
    List (Name × List (Name × List ℕ)) :=
  update entry.1 (fun nodes => update entry.2.1 (· ++ [entry.2.2]) [] nodes) [] stages

theorem addId_expert {expert : Name} {id : ℕ} (h : Sorted topo) (hkey : Contains "expert" key) :
    ∃ topo', addId topo (.expert key expert) id = .ok topo' ∧ Sorted topo' ∧
      expertStages topo' = addExpert (expertStages topo) (key, expert, id) := by
  have hput := fun nodes => put_experts h hkey nodes
  unfold addExpert update addId
  simp only [lookup_of_sorted h hkey]
  cases (expertStages topo).lookup key with
  | none => exact ⟨_, rfl, hput _⟩
  | some nodes =>
    simp only [Option.map_some, Option.getD_some]
    cases nodes.lookup expert with
    | none => exact ⟨_, rfl, hput _⟩
    | some ids => exact ⟨_, rfl, hput _⟩

/-- What a name adds to the stages of experts. -/
def entriesOf (keyOf : Name → Except ConfigError Key) (nameIdMap : List (Name × ℕ)) (name : Name) :
    List (Name × Name × ℕ) :=
  match keyOf name, nameIdMap.lookup name with
  | .ok (.expert storedName expertName), some id => [(storedName, expertName, id)]
  | _, _ => []

/-- The key of a name is of the kind of its stage. -/
def Known (keyOf : Name → Except ConfigError Key) (name : Name) : Prop :=
  (∃ storedName, keyOf name = .ok (.plain storedName) ∧ ¬ Contains "expert" storedName) ∨
    ∃ storedName expertName, keyOf name = .ok (.expert storedName expertName) ∧
      Contains "expert" storedName

variable (nameIdMap) in
theorem addName_known (h : Sorted topo) (hname : Known keyOf name) :
    ∃ topo', addName keyOf nameIdMap topo name = .ok topo' ∧ Sorted topo' ∧
      expertStages topo' =
        (entriesOf keyOf nameIdMap name).foldl addExpert (expertStages topo) := by
  rcases hname with ⟨storedName, hkey, hcontains⟩ | ⟨storedName, expertName, hkey, hcontains⟩
  · have hnone : entriesOf keyOf nameIdMap name = [] := by
      unfold entriesOf
      rw [hkey]
    rw [hnone]
    exact addName_plain h ⟨storedName, hkey, hcontains⟩
  · unfold addName entriesOf
    rw [hkey]
    cases nameIdMap.lookup name with
    | none => exact ⟨topo, rfl, h, rfl⟩
    | some id => exact addId_expert h hcontains

variable (nameIdMap) in
/-- **A run over names** collects the ids of the experts and nothing else in the stages of
experts. -/
theorem foldlM_addName {names : List Name} (h : Sorted topo)
    (hnames : ∀ name ∈ names, Known keyOf name) :
    ∃ topo', names.foldlM (addName keyOf nameIdMap) topo = .ok topo' ∧ Sorted topo' ∧
      expertStages topo' = (names.flatMap (entriesOf keyOf nameIdMap)).foldl addExpert
        (expertStages topo) := by
  induction names generalizing topo with
  | nil => exact ⟨topo, rfl, h, rfl⟩
  | cons name names ih =>
    obtain ⟨topo₁, h1, hsorted, hstages⟩ :=
      addName_known nameIdMap h (hnames name List.mem_cons_self)
    obtain ⟨topo₂, h2, hsorted₂, hstages₂⟩ :=
      ih hsorted fun n hn => hnames n (List.mem_cons_of_mem name hn)
    refine ⟨topo₂, ?_, hsorted₂, ?_⟩
    · rw [List.foldlM_cons, h1]
      exact h2
    · rw [List.flatMap_cons, List.foldl_append, ← hstages, hstages₂]

/-- The stages of experts in the topology. -/
theorem getTopology_known {params buffers : List Name}
    (hparams : ∀ name ∈ params, Known paramKey name)
    (hbuffers : ∀ name ∈ buffers, Known bufferKey name) :
    ∃ topo : RetDict, getTopology nameIdMap params buffers =
      .ok (topo.map fun e => (e.1, e.2.nodes)) ∧ Sorted topo ∧ expertStages topo =
        (params.flatMap (entriesOf paramKey nameIdMap) ++
          buffers.flatMap (entriesOf bufferKey nameIdMap)).foldl addExpert [] := by
  obtain ⟨topo₁, h1, hsorted, hstages⟩ := foldlM_addName nameIdMap sorted_nil hparams
  obtain ⟨topo₂, h2, hsorted₂, hstages₂⟩ := foldlM_addName nameIdMap hsorted hbuffers
  refine ⟨topo₂, ?_, hsorted₂, ?_⟩
  · unfold getTopology
    rw [h1]
    simp only [bind, Except.bind]
    rw [h2]
    rfl
  · rw [List.foldl_append, hstages₂, hstages]
    rfl

end Collecting

end MoeInfinity.Runtime.Topology
