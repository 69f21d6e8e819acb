import Mathlib.Data.List.AList
import Mathlib.Data.List.Induction
import Mathlib.Data.List.Perm.Basic

namespace Spangap.FiniteMaps

open List Option

variable {κ ν : Type} [DecidableEq κ]

/-- A finite map holds exactly the pairs of a list, which has no key twice. -/
structure Represents (t : AList fun _ : κ => ν) (l : List (κ × ν)) : Prop where
  lookup : ∀ k v, t.lookup k = some v ↔ (k, v) ∈ l
  nodup : (l.map Prod.fst).Nodup

variable {t : AList fun _ : κ => ν} {l A B : List (κ × ν)} {k : κ} {v w : ν}

theorem represents_empty : Represents (∅ : AList fun _ : κ => ν) [] :=
  ⟨by simp, nodup_nil⟩

theorem Represents.lookup_isSome (h : Represents t l) (k : κ) :
    (t.lookup k).isSome ↔ k ∈ l.map Prod.fst := by
  rw [Option.isSome_iff_exists, List.mem_map]
  constructor
  · rintro ⟨v, hv⟩
    exact ⟨(k, v), (h.lookup k v).mp hv, rfl⟩
  · rintro ⟨⟨k', v⟩, hv, rfl⟩
    exact ⟨v, (h.lookup k' v).mpr hv⟩

theorem Represents.notMem (h : Represents t l) (hk : t.lookup k = none) : k ∉ l.map Prod.fst := by
  rw [← h.lookup_isSome, hk]
  simp

theorem Represents.insert_fresh (h : Represents t l) (hk : k ∉ l.map Prod.fst) (v : ν) :
    Represents (t.insert k v) (l ++ [(k, v)]) := by
  refine ⟨fun k' v' => ?_, ?_⟩
  · rw [mem_append, mem_singleton, Prod.mk.injEq]
    by_cases hkk : k' = k
    · subst hkk
      rw [AList.lookup_insert]
      constructor
      · intro hv
        exact .inr ⟨rfl, (some_inj.mp hv).symm⟩
      · rintro (hv | ⟨_, rfl⟩)
        · exact absurd (List.mem_map.mpr ⟨_, hv, rfl⟩) hk
        · rfl
    · rw [AList.lookup_insert_ne hkk, h.lookup]
      simp [hkk]
  · rw [map_append, map_singleton, nodup_append]
    refine ⟨h.nodup, nodup_singleton _, ?_⟩
    rintro a ha b hb rfl
    rw [mem_singleton.mp hb] at ha
    exact hk ha

theorem exists_represents (h : (l.map Prod.fst).Nodup) : ∃ t : AList fun _ : κ => ν, Represents t l := by
  induction l using List.reverseRecOn with
  | nil => exact ⟨∅, represents_empty⟩
  | append_singleton l p ih =>
    rw [map_append, nodup_append] at h
    obtain ⟨t, ht⟩ := ih h.1
    refine ⟨t.insert p.1 p.2, ht.insert_fresh ?_ p.2⟩
    intro hp
    exact h.2.2 p.1 hp p.1 (by simp) rfl

omit [DecidableEq κ] in
theorem notMem_of_nodup_middle (h : ((A ++ (k, v) :: B).map Prod.fst).Nodup) :
    k ∉ (A ++ B).map Prod.fst := by
  rw [map_append, map_cons, nodup_middle] at h
  rw [map_append]
  exact (nodup_cons.mp h).1

theorem Represents.erase (h : Represents t (A ++ (k, v) :: B)) : Represents (t.erase k) (A ++ B) := by
  have hk := notMem_of_nodup_middle h.nodup
  refine ⟨fun k' v' => ?_, ?_⟩
  · by_cases hkk : k' = k
    · subst hkk
      rw [AList.lookup_erase]
      refine ⟨nofun, fun hv => ?_⟩
      exact absurd (List.mem_map.mpr ⟨_, hv, rfl⟩) hk
    · rw [AList.lookup_erase_ne hkk, h.lookup]
      simp [hkk]
  · exact h.nodup.sublist (((sublist_cons_self _ B).append_left A).map Prod.fst)

theorem Represents.insert_replace (h : Represents t (A ++ (k, v) :: B)) (w : ν) :
    Represents (t.insert k w) (A ++ (k, w) :: B) := by
  have hk := notMem_of_nodup_middle h.nodup
  refine ⟨fun k' v' => ?_, by simpa using h.nodup⟩
  by_cases hkk : k' = k
  · subst hkk
    have hAB : (k', v') ∉ A ++ B := fun hv => hk (List.mem_map.mpr ⟨_, hv, rfl⟩)
    simp only [mem_append, not_or] at hAB
    simp [hAB, eq_comm]
  · rw [AList.lookup_insert_ne hkk, h.lookup]
    simp [hkk]

theorem Represents.of_perm (h : Represents t l) (hp : l.Perm A) : Represents t A :=
  ⟨fun k v => (h.lookup k v).trans hp.mem_iff, (hp.map Prod.fst).nodup_iff.mp h.nodup⟩

theorem Represents.perm (h : Represents t l) : (t.entries.map fun e => (e.1, e.2)).Perm l := by
  have hkeys : (t.entries.map fun e => (e.1, e.2)).map Prod.fst = t.keys := by
    rw [List.map_map]
    rfl
  have hnodup : (t.entries.map fun e => (e.1, e.2)).Nodup :=
    List.Nodup.of_map Prod.fst (hkeys ▸ t.keys_nodup)
  refine (perm_ext_iff_of_nodup hnodup (List.Nodup.of_map Prod.fst h.nodup)).mpr ?_
  rintro ⟨k, v⟩
  rw [← h.lookup, ← Option.mem_def, AList.mem_lookup_iff, List.mem_map]
  constructor
  · rintro ⟨⟨k', v'⟩, he, hkv⟩
    cases hkv
    exact he
  · intro he
    exact ⟨⟨k, v⟩, he, rfl⟩

theorem Represents.length_keys (h : Represents t l) : t.keys.length = l.length := by
  rw [← h.perm.length_eq, length_map, AList.keys, List.keys, length_map]

end Spangap.FiniteMaps
