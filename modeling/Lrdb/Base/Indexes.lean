import Mathlib.Data.List.AList
import Mathlib.Data.List.Perm.Subperm

namespace Indexes
variable {α κ ι : Type*} [DecidableEq κ] [DecidableEq ι]

def Keyed (key : α → κ) (index : AList fun _ : κ => α) : Prop := ∀ k, ∀ a ∈ index.lookup k, key a = k

structure Inverse (key : α → κ) (name : α → ι) (byKey : AList fun _ : κ => α)
    (byName : AList fun _ : ι => α) : Prop where
  keyed : Keyed key byKey
  named : Keyed name byName
  same : ∀ a, a ∈ byKey.lookup (key a) ↔ a ∈ byName.lookup (name a)

variable {key : α → κ} {name : α → ι} {byKey : AList fun _ : κ => α} {byName : AList fun _ : ι => α}
  {a b : α} {k : κ}

theorem keyed_empty : Keyed key ∅ := by
  intro k a found
  cases found

theorem mem_insert (fresh : byKey.lookup (key a) = none) :
    b ∈ (byKey.insert (key a) a).lookup (key b) ↔ b = a ∨ b ∈ byKey.lookup (key b) := by
  by_cases same : key b = key a
  · rw [same, AList.lookup_insert, fresh, Option.mem_some_iff]
    simp [eq_comm]
  · rw [AList.lookup_insert_ne same]
    apply (or_iff_right _).symm
    intro equal
    exact same (congrArg key equal)

theorem Keyed.insert (keyed : Keyed key byKey) (a : α) : Keyed key (byKey.insert (key a) a) := by
  intro k b found
  by_cases same : k = key a
  · rw [same, AList.lookup_insert] at found
    rw [same, Option.mem_some_iff.mp found]
  · rw [AList.lookup_insert_ne same] at found
    exact keyed k b found

theorem Keyed.erase (keyed : Keyed key byKey) (k : κ) : Keyed key (byKey.erase k) := by
  intro l b found
  by_cases same : l = k
  · rw [same, AList.lookup_erase] at found
    cases found
  · rw [AList.lookup_erase_ne same] at found
    exact keyed l b found

theorem mem_erase (found : a ∈ byKey.lookup (key a)) :
    b ∈ (byKey.erase (key a)).lookup (key b) ↔ b ≠ a ∧ b ∈ byKey.lookup (key b) := by
  by_cases same : key b = key a
  · rw [same, AList.lookup_erase, Option.mem_def.mp found, Option.mem_some_iff]
    simp [eq_comm]
  · rw [AList.lookup_erase_ne same]
    apply (and_iff_right _).symm
    intro equal
    exact same (congrArg key equal)

theorem Inverse.insert (inverse : Inverse key name byKey byName) (free : byKey.lookup (key a) = none)
    (unknown : byName.lookup (name a) = none) :
    Inverse key name (byKey.insert (key a) a) (byName.insert (name a) a) where
  keyed := inverse.keyed.insert a
  named := inverse.named.insert a
  same b := by
    rw [mem_insert free, mem_insert unknown, inverse.same b]

theorem Inverse.erase (inverse : Inverse key name byKey byName) (found : a ∈ byKey.lookup (key a)) :
    Inverse key name (byKey.erase (key a)) (byName.erase (name a)) where
  keyed := inverse.keyed.erase (key a)
  named := inverse.named.erase (name a)
  same b := by rw [mem_erase found, mem_erase ((inverse.same a).mp found), inverse.same b]

def objects (index : AList fun _ : κ => α) : List α := index.entries.map Sigma.snd

theorem mem_objects (keyed : Keyed key byKey) : a ∈ objects byKey ↔ a ∈ byKey.lookup (key a) := by
  rw [objects, List.mem_map, AList.mem_lookup_iff]
  constructor
  · rintro ⟨⟨k, b⟩, member, rfl⟩
    rw [keyed k b (AList.mem_lookup_iff.mpr member)]
    exact member
  · intro member
    exact ⟨⟨key a, a⟩, member, rfl⟩

theorem map_objects (keyed : Keyed key byKey) : (objects byKey).map key = byKey.keys := by
  rw [objects, List.map_map, AList.keys, List.keys]
  apply List.map_congr_left
  intro entry member
  exact keyed entry.1 entry.2 (AList.mem_lookup_iff.mpr member)

theorem nodup_objects (keyed : Keyed key byKey) : (objects byKey).Nodup := by
  have keys := byKey.keys_nodup
  rw [← map_objects keyed] at keys
  exact keys.of_map key

theorem Inverse.of_length (keyed : Keyed key byKey) (named : Keyed name byName)
    (length : byKey.entries.length = byName.entries.length)
    (found : ∀ a, a ∈ byName.lookup (name a) → a ∈ byKey.lookup (key a)) :
    Inverse key name byKey byName where
  keyed := keyed
  named := named
  same a := by
    have subset : objects byName ⊆ objects byKey := by
      intro b member
      exact (mem_objects keyed).mpr (found b ((mem_objects named).mp member))
    have sizes : (objects byKey).length ≤ (objects byName).length := by
      rw [objects, objects, List.length_map, List.length_map, length]
    have perm := (List.subperm_of_subset (nodup_objects named) subset).perm_of_length_le sizes
    rw [← mem_objects keyed, ← mem_objects named, perm.mem_iff]

end Indexes
