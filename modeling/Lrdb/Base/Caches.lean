import Mathlib.Data.List.Nodup
import Mathlib.Data.Finset.Basic

/-!
# A bounded cache in front of a loader

A slot keeps what the loader gave for a key, and a mark for the policy that picks the slot to give
up. Whatever the policy, a cache that agrees with its loader answers as the loader does.
-/

namespace Caches
variable {K V M : Type*}

structure Slot (K V M : Type*) where
  key : K
  payload : V
  mark : M

structure Coherent (load : K → Option V) (slots : List (Slot K V M)) : Prop where
  loaded : ∀ slot ∈ slots, load slot.key = some slot.payload
  distinct : (slots.map Slot.key).Nodup

structure Policy (evict : List (Slot K V M) → List (Slot K V M)) (slots : List (Slot K V M)) : Prop where
  sublist : (evict slots).Sublist slots
  shorter : slots ≠ [] → (evict slots).length < slots.length

variable {load other : K → Option V} {slots rest : List (Slot K V M)}

theorem coherent_nil : Coherent load ([] : List (Slot K V M)) := ⟨by simp, List.nodup_nil⟩

theorem Coherent.sublist (coherent : Coherent load slots) (sub : rest.Sublist slots) :
    Coherent load rest :=
  ⟨fun slot member => coherent.loaded slot (sub.subset member),
    coherent.distinct.sublist (sub.map Slot.key)⟩

theorem Coherent.perm (coherent : Coherent load slots) (perm : rest.Perm slots) : Coherent load rest :=
  ⟨fun slot member => coherent.loaded slot (perm.mem_iff.mp member),
    (perm.map Slot.key).nodup_iff.mpr coherent.distinct⟩

theorem Coherent.change (coherent : Coherent load slots)
    (same : ∀ slot ∈ slots, other slot.key = load slot.key) : Coherent other slots :=
  ⟨fun slot member => (same slot member).trans (coherent.loaded slot member), coherent.distinct⟩

variable [DecidableEq K]

def find (slots : List (Slot K V M)) (key : K) : Option (Slot K V M) :=
  slots.find? fun slot => slot.key = key

def erase (slots : List (Slot K V M)) (key : K) : List (Slot K V M) :=
  slots.filter fun slot => slot.key ≠ key

section Fetch
variable (evict : List (Slot K V M) → List (Slot K V M)) (capacity : Nat) (touch : M → M) (fresh : M)
  (load : K → Option V)

def fetch (slots : List (Slot K V M)) (key : K) : Option V × List (Slot K V M) :=
  match find slots key with
  | some slot =>
      (some slot.payload,
        slots.map fun slot => if slot.key = key then { slot with mark := touch slot.mark } else slot)
  | none =>
      match load key with
      | none => (none, slots)
      | some payload =>
          (some payload, ⟨key, payload, fresh⟩ :: if capacity ≤ slots.length then evict slots else slots)

end Fetch

variable {evict : List (Slot K V M) → List (Slot K V M)} {capacity : Nat} {touch : M → M} {fresh : M}
  {key : K}

theorem find_eq_some {slot : Slot K V M} (found : find slots key = some slot) :
    slot ∈ slots ∧ slot.key = key :=
  ⟨List.mem_of_find?_eq_some found, by simpa using List.find?_some found⟩

theorem find_of_mem (distinct : (slots.map Slot.key).Nodup) {slot : Slot K V M}
    (member : slot ∈ slots) : find slots slot.key = some slot := by
  obtain ⟨found, located⟩ : ∃ found, find slots slot.key = some found :=
    Option.isSome_iff_exists.mp (List.find?_isSome.mpr ⟨slot, member, by simp⟩)
  obtain ⟨inside, same⟩ := find_eq_some located
  rw [located, List.inj_on_of_nodup_map distinct inside member same]

theorem perm_reorder (distinct : (slots.map Slot.key).Nodup) {order : List K}
    (perm : order.Perm (slots.map Slot.key)) : (order.filterMap (find slots)).Perm slots := by
  have all : (slots.map Slot.key).filterMap (find slots) = slots := by
    rw [List.filterMap_map]
    calc slots.filterMap (find slots ∘ Slot.key) = slots.filterMap some :=
          List.filterMap_congr fun slot member => find_of_mem distinct member
      _ = slots := List.filterMap_some
  exact (perm.filterMap (find slots)).trans (.of_eq all)

theorem Coherent.fetch_answer (coherent : Coherent load slots) (key : K) :
    (fetch evict capacity touch fresh load slots key).1 = load key := by
  unfold fetch
  split
  · rename_i slot found
    obtain ⟨member, rfl⟩ := find_eq_some found
    exact (coherent.loaded slot member).symm
  · split
    · rename_i missing
      exact missing.symm
    · rename_i loaded
      exact loaded.symm

theorem Coherent.fetch (coherent : Coherent load slots) (policy : Policy evict slots) (key : K) :
    Coherent load (Caches.fetch evict capacity touch fresh load slots key).2 := by
  unfold Caches.fetch
  split
  · refine ⟨fun slot member => ?_, ?_⟩
    · obtain ⟨old, inside, rfl⟩ := List.mem_map.mp member
      split <;> exact coherent.loaded old inside
    · have keys : (slots.map fun slot : Slot K V M =>
          if slot.key = key then { slot with mark := touch slot.mark } else slot).map Slot.key =
            slots.map Slot.key := by
        rw [List.map_map]
        refine List.map_congr_left fun slot _ => ?_
        dsimp only [Function.comp]
        split <;> rfl
      exact keys ▸ coherent.distinct
  · rename_i absent
    have new : ∀ slot ∈ slots, slot.key ≠ key := by simpa [find] using absent
    split
    · exact coherent
    · rename_i payload loaded
      have kept : (if capacity ≤ slots.length then evict slots else slots).Sublist slots := by
        split
        · exact policy.sublist
        · exact List.Sublist.refl slots
      refine ⟨?_, List.nodup_cons.mpr ⟨fun member => ?_, (coherent.sublist kept).distinct⟩⟩
      · intro slot member
        rcases List.mem_cons.mp member with rfl | old
        · exact loaded
        · exact (coherent.sublist kept).loaded slot old
      · obtain ⟨slot, old, same⟩ := List.mem_map.mp member
        exact new slot (kept.subset old) same

theorem length_fetch_le (policy : Policy evict slots) (bound : slots.length ≤ max 1 capacity) (key : K) :
    (fetch evict capacity touch fresh load slots key).2.length ≤ max 1 capacity := by
  unfold fetch
  split
  · simpa using bound
  · split
    · exact bound
    · rw [List.length_cons]
      split
      · rename_i full
        by_cases empty : slots = []
        · have nothing : evict slots = [] := by
            have := policy.sublist
            rw [empty] at this ⊢
            exact List.sublist_nil.mp this
          rw [nothing]
          exact Nat.le_max_left 1 capacity
        · have := policy.shorter empty
          omega
      · omega

end Caches
