import MoeInfinity.Lib.Dict

/-! # Grouping

Entries that are collected under their keys, one after the other, come to a dictionary with the keys
in the order in which they are first listed, and the values of a key are folded in the order of the
entries. -/

namespace MoeInfinity.Lib.Grouping

open MoeInfinity.Lib.Dict

variable {κ κ' α β : Type*} [BEq κ] [LawfulBEq κ] [BEq κ'] [LawfulBEq κ']

/-! ### First occurrences -/

section First

variable {l : List κ} {c : κ} {g : κ → κ'} {p : κ → Bool}

theorem eraseDups_concat :
    (l ++ [c]).eraseDups = if c ∈ l then l.eraseDups else l.eraseDups ++ [c] := by
  rw [List.eraseDups_append]
  split_ifs with h
  · simp [List.removeAll, h]
  · simp [List.removeAll, h, List.eraseDups_cons]

theorem nodup_eraseDups : l.eraseDups.Nodup := by
  induction l using List.reverseRecOn with
  | nil => exact List.nodup_nil
  | append_singleton l c ih =>
    rw [eraseDups_concat]
    split_ifs with h
    · exact ih
    · refine List.nodup_append.mpr ⟨ih, List.pairwise_singleton _ c, fun a ha b hb => ?_⟩
      rw [List.mem_singleton.mp hb]
      exact fun h0 => h (h0 ▸ List.mem_eraseDups.mp ha)

/-- Each element is listed before any occurrence of the later ones. -/
theorem pairwise_eraseDups :
    l.eraseDups.Pairwise fun a b => ∃ l₁ l₂, l = l₁ ++ a :: l₂ ∧ b ∉ l₁ := by
  induction l using List.reverseRecOn with
  | nil => exact List.Pairwise.nil
  | append_singleton l c ih =>
    have hold : l.eraseDups.Pairwise fun a b => ∃ l₁ l₂, l ++ [c] = l₁ ++ a :: l₂ ∧ b ∉ l₁ := by
      refine ih.imp fun {a b} h => ?_
      obtain ⟨l₁, l₂, hl, hb⟩ := h
      exact ⟨l₁, l₂ ++ [c], by rw [hl, List.append_assoc, List.cons_append], hb⟩
    rw [eraseDups_concat]
    split_ifs with h
    · exact hold
    · refine List.pairwise_append.mpr ⟨hold, List.pairwise_singleton _ c, fun a ha b hb => ?_⟩
      obtain ⟨l₁, l₂, hl⟩ := List.append_of_mem (List.mem_eraseDups.mp ha)
      rw [List.mem_singleton.mp hb]
      refine ⟨l₁, l₂ ++ [c], by rw [hl, List.append_assoc, List.cons_append], fun hc => h ?_⟩
      rw [hl]
      exact List.mem_append_left _ hc

theorem eraseDups_filter : (l.filter p).eraseDups = l.eraseDups.filter p := by
  induction l using List.reverseRecOn with
  | nil => rfl
  | append_singleton l c ih =>
    rw [List.filter_append, eraseDups_concat]
    by_cases hc : p c
    · rw [List.filter_cons_of_pos hc, List.filter_nil, eraseDups_concat, ih]
      by_cases h : c ∈ l
      · rw [if_pos h, if_pos (List.mem_filter.mpr ⟨h, hc⟩)]
      · rw [if_neg h, if_neg fun h0 => h (List.mem_of_mem_filter h0), List.filter_append,
          List.filter_cons_of_pos hc, List.filter_nil]
    · rw [List.filter_cons_of_neg hc, List.filter_nil, List.append_nil, ih]
      split_ifs with h
      · rfl
      · rw [List.filter_append, List.filter_cons_of_neg hc, List.filter_nil, List.append_nil]

theorem eraseDups_map (hg : ∀ a ∈ l, ∀ b ∈ l, g a = g b → a = b) :
    (l.map g).eraseDups = l.eraseDups.map g := by
  induction l using List.reverseRecOn with
  | nil => rfl
  | append_singleton l c ih =>
    have hl := ih fun a ha b hb => hg a (List.mem_append_left _ ha) b (List.mem_append_left _ hb)
    have hc : g c ∈ l.map g ↔ c ∈ l := by
      refine ⟨fun h => ?_, List.mem_map_of_mem⟩
      obtain ⟨a, ha, hac⟩ := List.mem_map.mp h
      rwa [← hg a (List.mem_append_left _ ha) c (List.mem_append_right _ List.mem_cons_self) hac]
    rw [List.map_append, List.map_singleton, eraseDups_concat, eraseDups_concat, hl]
    by_cases h : c ∈ l
    · rw [if_pos h, if_pos (hc.mpr h)]
    · rw [if_neg h, if_neg (mt hc.mp h), List.map_append, List.map_singleton]

end First

/-! ### Entries by their keys -/

/-- The values of a key, in the order of the entries. -/
def valuesOf (k : κ) (es : List (κ × β)) : List β := (es.filter (·.1 == k)).map Prod.snd

section Values

variable {k k' : κ} {v : α} {b : β} {es : List (κ × β)} {ks : List κ} {F : κ → α}

theorem mem_valuesOf : b ∈ valuesOf k es ↔ (k, b) ∈ es := by
  unfold valuesOf
  rw [List.mem_map]
  constructor
  · rintro ⟨e, he, rfl⟩
    obtain ⟨he, hk⟩ := List.mem_filter.mp he
    rwa [← eq_of_beq hk]
  · exact fun h => ⟨_, List.mem_filter.mpr ⟨h, beq_self_eq_true k⟩, rfl⟩

theorem valuesOf_concat_self : valuesOf k (es ++ [(k, b)]) = valuesOf k es ++ [b] := by
  unfold valuesOf
  rw [List.filter_append, List.map_append]
  simp

theorem valuesOf_concat_of_ne (h : k' ≠ k) : valuesOf k' (es ++ [(k, b)]) = valuesOf k' es := by
  unfold valuesOf
  rw [List.filter_append, List.map_append]
  simp [Ne.symm h]

theorem valuesOf_of_not_mem (h : k ∉ es.map Prod.fst) : valuesOf k es = [] := by
  refine List.eq_nil_iff_forall_not_mem.mpr fun b hb => h ?_
  exact List.mem_map_of_mem (mem_valuesOf.mp hb)

theorem lookup_map (h : k ∈ ks) : (ks.map fun k => (k, F k)).lookup k = some (F k) := by
  induction ks with
  | nil => exact absurd h List.not_mem_nil
  | cons k₀ ks ih =>
    rw [List.map_cons, List.lookup_cons]
    by_cases hk : k = k₀
    · subst hk
      simp
    · rw [beq_eq_false_iff_ne.mpr hk]
      exact ih ((List.mem_cons.mp h).resolve_left hk)

theorem put_map (h : k ∈ ks) (hnd : ks.Nodup) :
    put k v (ks.map fun k => (k, F k)) = ks.map fun k' => (k', if k' == k then v else F k') := by
  induction ks with
  | nil => exact absurd h List.not_mem_nil
  | cons k₀ ks ih =>
    obtain ⟨hk₀, hnd⟩ := List.nodup_cons.mp hnd
    rw [List.map_cons, List.map_cons]
    by_cases hk : k₀ = k
    · subst hk
      rw [put_cons_self, if_pos (beq_self_eq_true k₀)]
      congr 1
      refine List.map_congr_left fun k' hk' => ?_
      have hne : k' ≠ k₀ := fun h0 => hk₀ (h0 ▸ hk')
      rw [if_neg (by simpa using hne)]
    · rw [put_cons_of_ne hk, if_neg (by simpa using hk),
        ih ((List.mem_cons.mp h).resolve_left (Ne.symm hk)) hnd]

/-- **Collecting** is grouping. -/
theorem foldl_update_eq (f : β → α → α) (a₀ : α) (es : List (κ × β)) :
    es.foldl (fun d e => update e.1 (f e.2) a₀ d) [] =
      (es.map Prod.fst).eraseDups.map fun k =>
      (k, (valuesOf k es).foldl (fun a b => f b a) a₀) := by
  induction es using List.reverseRecOn with
  | nil => rfl
  | append_singleton es e ih =>
    obtain ⟨k, b⟩ := e
    rw [List.foldl_append, ih, List.map_append, List.map_singleton, eraseDups_concat,
      List.foldl_cons, List.foldl_nil]
    have hkey : (valuesOf k (es ++ [(k, b)])).foldl (fun a b => f b a) a₀ =
        f b ((valuesOf k es).foldl (fun a b => f b a) a₀) := by
      rw [valuesOf_concat_self, List.foldl_append, List.foldl_cons, List.foldl_nil]
    unfold update
    by_cases h : k ∈ es.map Prod.fst
    · rw [if_pos h, lookup_map (List.mem_eraseDups.mpr h),
        put_map (List.mem_eraseDups.mpr h) nodup_eraseDups]
      refine List.map_congr_left fun k' _ => ?_
      by_cases hk : k' = k
      · subst hk
        rw [if_pos (beq_self_eq_true k'), hkey]
        rfl
      · rw [if_neg (by simpa using hk), valuesOf_concat_of_ne hk]
    · have hnew : k ∉ ((es.map Prod.fst).eraseDups.map fun k =>
          (k, (valuesOf k es).foldl (fun a b => f b a) a₀)).map Prod.fst := by
        simpa using h
      rw [if_neg h, lookup_eq_none.mpr hnew, put_of_not_mem hnew, List.map_append,
        List.map_singleton, hkey, valuesOf_of_not_mem h]
      congr 1
      refine List.map_congr_left fun k' hk' => ?_
      have hk : k' ≠ k := fun h0 => h (h0 ▸ List.mem_eraseDups.mp hk')
      rw [valuesOf_concat_of_ne hk]

end Values

end MoeInfinity.Lib.Grouping
