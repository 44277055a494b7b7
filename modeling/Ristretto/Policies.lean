import Ristretto.Cache

/-! Two small policies over a list of keys, oldest first, that keep the contract `Policy.Tracks`.
`fifo` admits every key and evicts the oldest once `capacity` keys are held; `evictThenReject`
frees the oldest slot for a new key and then turns the key away, as a sampling policy does when
the newcomer loses to the next sample. -/

namespace Ristretto
namespace Policies

theorem toFinset_filter_ne (l : List String) (v : String) :
    (l.filter (· ≠ v)).toFinset = l.toFinset.erase v := by
  ext x; simp [and_comm]

def fifo (capacity : ℕ) : Policy (List String) where
  new _ _ := []
  add p k _ :=
    if k ∈ p then ([],true,p)
    else if p.length < capacity then ([],true,p ++ [k])
    else match p with
      | [] => ([],true,[k])
      | v :: rest => ([v],true,rest.filter (· ≠ v) ++ [k])
  del p k := p.filter (· ≠ k)
  res p := p
  keys p := p.toFinset

theorem fifo_tracks (capacity : ℕ) : (fifo capacity).Tracks where
  new _ _ := rfl
  add {p k c vs added p'} h := by
    simp only [fifo] at h ⊢
    split_ifs at h with hk hl
    · cases h; simp [hk]
    · cases h; simp [List.toFinset_append,Finset.insert_eq,Finset.union_comm]
    · split at h <;> cases h
      · simp
      · ext x; simp [List.toFinset_append]; tauto
  del p k := toFinset_filter_ne p k
  res _ := rfl

theorem fifo_rejectsCleanly (capacity : ℕ) : (fifo capacity).RejectsCleanly := by
  intro p k c vs p' h
  simp only [fifo] at h
  split_ifs at h <;> [cases h; cases h; (split at h <;> cases h)]

theorem fifo_victimsHeld (capacity : ℕ) : (fifo capacity).VictimsHeld := by
  intro p k c vs added p' h
  simp only [fifo] at h
  split_ifs at h <;> [cases h; cases h; (split at h <;> cases h)] <;> simp [fifo]

def evictThenReject : Policy (List String) where
  new _ _ := []
  add p k _ := match p with
    | [] => ([],true,[k])
    | v :: rest => if k ∈ v :: rest then ([],true,v :: rest) else ([v],false,rest.filter (· ≠ v))
  del p k := p.filter (· ≠ k)
  res p := p
  keys p := p.toFinset

theorem evictThenReject_tracks : evictThenReject.Tracks where
  new _ _ := rfl
  add {p k c vs added p'} h := by
    simp only [evictThenReject] at h ⊢
    split at h
    · cases h; simp
    · split_ifs at h with hk <;> cases h
      · simp only [List.toFinset_nil,Finset.sdiff_empty,if_true]
        exact (Finset.insert_eq_of_mem (by simpa using hk)).symm
      · ext x; simp; tauto
  del p k := toFinset_filter_ne p k
  res _ := rfl

end Policies
end Ristretto
