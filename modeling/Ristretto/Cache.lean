import Mathlib.Data.Finmap

/-! `Cache` of `cache.go`: the hash map `data`, the admission policy and the counter `used` that
decides when the policy's counters are reset. `Set`, `Del` and `Get` are as the code runs them when
no other call overlaps; `Ristretto.Concurrent` splits them into their component calls.

The policy's implementation is not in the repository. A `Policy` is the methods the cache calls, over
the policy's own state, with `keys` the set of keys it tracks; `Policy.Tracks` is what the cache
assumes of that set. -/

namespace Ristretto

/-- The methods of the `Policy` interface the cache calls, and `newPolicy`. -/
structure Policy (P : Type) where
  new : UInt64 → UInt64 → P
  add : P → String → UInt64 → List String × Bool × P
  del : P → String → P
  res : P → P
  keys : P → Finset String

variable {P V : Type}

/-- `Add` takes the victims it returns out of the key set and puts the key in exactly when it
reports `added`; `Del` takes the key out; `Res` keeps the set, and a new policy tracks nothing. -/
structure Policy.Tracks (pol : Policy P) : Prop where
  new : ∀ n m, pol.keys (pol.new n m) = ∅
  add : ∀ {p k c vs added p'}, pol.add p k c = (vs,added,p') →
    pol.keys p' = if added then insert k (pol.keys p \ vs.toFinset) else pol.keys p \ vs.toFinset
  del : ∀ p k, pol.keys (pol.del p k) = (pol.keys p).erase k
  res : ∀ p, pol.keys (pol.res p) = pol.keys p

def Policy.RejectsCleanly (pol : Policy P) : Prop :=
  ∀ {p k c vs p'}, pol.add p k c = (vs,false,p') → vs = []

def Policy.VictimsHeld (pol : Policy P) : Prop :=
  ∀ {p k c vs added p'}, pol.add p k c = (vs,added,p') → vs.Nodup ∧ ∀ v ∈ vs, v ∈ pol.keys p

/-- The fields of `Config` that `NewCache` reads for the cache itself. -/
structure Config where
  numCounters : UInt64
  maxCost : UInt64

structure Cache (P V : Type) where
  data : Finmap fun _ : String => V
  policy : P
  used : UInt64
  size : UInt64

def newCache (pol : Policy P) (config : Config) : Cache P V :=
  let maxCost := if config.maxCost = 0 ∧ config.numCounters ≠ 0 then config.numCounters
    else config.maxCost
  { data := ∅,policy := pol.new config.numCounters maxCost,used := 0,size := config.numCounters }

namespace Cache

/-- `Get`: the value from `data`; the key it pushes to the ring buffer reaches the policy only as
a frequency count. -/
def get (c : Cache P V) (key : String) : Option V := c.data.lookup key

/-- One victim of `Set`: `data.Del(victim)`, then `atomic.AddUint64(&c.used, ^uint64(0))`, which
subtracts one modulo `2^64`. -/
def evictOne (c : Cache P V) (victim : String) : Cache P V :=
  { c with data := c.data.erase victim,used := c.used - 1 }

def finishSet (pol : Policy P) (c : Cache P V) (key : String) (val : V) : Cache P V :=
  let c := { c with data := c.data.insert key val,used := c.used + 1 }
  if c.used = c.size then { c with used := c.size / 2,policy := pol.res c.policy } else c

/-- `Set`, returning its victims and whether the key was added. `notify` sees each victim and
changes nothing here. -/
def set (pol : Policy P) (c : Cache P V) (key : String) (val : V) (cost : UInt64) :
    (List String × Bool) × Cache P V :=
  match pol.add c.policy key cost with
  | (victims,added,policy) =>
    if !added then (([],false),{ c with policy := policy })
    else ((victims,true),finishSet pol (victims.foldl evictOne { c with policy := policy }) key val)

def del (pol : Policy P) (c : Cache P V) (key : String) : Cache P V :=
  { c with policy := pol.del c.policy key,data := c.data.erase key }

@[simp] theorem keys_insert (m : Finmap fun _ : String => V) (k : String) (v : V) :
    (m.insert k v).keys = insert k m.keys := by
  ext x; simp [Finmap.mem_keys,Finmap.mem_insert]

theorem finishSet_data (pol : Policy P) (c : Cache P V) (key : String) (val : V) :
    (finishSet pol c key val).data = c.data.insert key val := by
  unfold finishSet; dsimp only; split_ifs <;> rfl

theorem lookup_foldl_evictOne (c : Cache P V) (vs : List String) (k : String) :
    (vs.foldl evictOne c).data.lookup k = if k ∈ vs then none else c.data.lookup k := by
  induction vs generalizing c with
  | nil => simp
  | cons v vs ih =>
    rw [List.foldl_cons,ih]
    by_cases hk : k = v
    · subst hk; simp [evictOne]
    · simp [hk,evictOne,Finmap.lookup_erase_ne hk]

/-- `Set` reports the key added exactly when `policy.Add` admits it; after `Set`, `Get` returns the
new value of the key when it was added, nothing for the other victims, and the old value of every
other key; a rejected `Set` changes no value. -/
theorem get_set (pol : Policy P) (c : Cache P V) (key : String) (val : V) (cost : UInt64)
    (k : String) :
    (c.set pol key val cost).1.2 = (pol.add c.policy key cost).2.1 ∧
      (c.set pol key val cost).2.get k =
        if (c.set pol key val cost).1.2 then
          if k = key then some val else if k ∈ (c.set pol key val cost).1.1 then none else c.get k
        else c.get k := by
  unfold set
  rcases pol.add c.policy key cost with ⟨victims,_ | _,policy⟩
  · exact ⟨rfl,rfl⟩
  · refine ⟨rfl,?_⟩
    by_cases hk : k = key
    · subst hk; simp [get,finishSet_data]
    · show (finishSet pol _ key val).data.lookup k = _
      rw [finishSet_data,Finmap.lookup_insert_of_ne _ hk,lookup_foldl_evictOne]
      simp [hk,get]

@[simp] theorem foldl_evictOne_policy (c : Cache P V) (vs : List String) :
    (vs.foldl evictOne c).policy = c.policy := by
  induction vs generalizing c with
  | nil => rfl
  | cons v vs ih => exact ih _

theorem keys_foldl_evictOne (c : Cache P V) (vs : List String) :
    (vs.foldl evictOne c).data.keys = c.data.keys \ vs.toFinset := by
  ext k
  rw [Finset.mem_sdiff,List.mem_toFinset,Finmap.mem_keys,Finmap.mem_keys,← Finmap.lookup_isSome,
    ← Finmap.lookup_isSome,lookup_foldl_evictOne]
  split_ifs with h <;> simp [h]

theorem keys_finishSet_policy {pol : Policy P} (ht : pol.Tracks) (c : Cache P V) (key : String)
    (val : V) : pol.keys (finishSet pol c key val).policy = pol.keys c.policy := by
  unfold finishSet; dsimp only; split_ifs <;> simp [ht.res]

section
variable {pol : Policy P} (ht : pol.Tracks)
include ht

theorem policy_subset_set {c : Cache P V} (h : pol.keys c.policy ⊆ c.data.keys) (key : String)
    (val : V) (cost : UInt64) :
    pol.keys (c.set pol key val cost).2.policy ⊆ (c.set pol key val cost).2.data.keys := by
  unfold set
  rcases hA : pol.add c.policy key cost with ⟨vs,_ | _,p'⟩
  · show pol.keys p' ⊆ c.data.keys
    rw [ht.add hA,if_neg Bool.false_ne_true]
    exact Finset.sdiff_subset.trans h
  · show pol.keys (finishSet pol _ key val).policy ⊆ (finishSet pol _ key val).data.keys
    rw [keys_finishSet_policy ht,finishSet_data,foldl_evictOne_policy,keys_insert,
      keys_foldl_evictOne,ht.add hA,if_pos rfl]
    exact Finset.insert_subset_insert _ (Finset.sdiff_subset_sdiff h le_rfl)

theorem policy_subset_del {c : Cache P V} (h : pol.keys c.policy ⊆ c.data.keys) (key : String) :
    pol.keys (c.del pol key).policy ⊆ (c.del pol key).data.keys := by
  simp only [del,ht.del,Finmap.keys_erase]
  exact Finset.erase_subset_erase _ h

end

def KeysAgree (pol : Policy P) (c : Cache P V) : Prop := c.data.keys = pol.keys c.policy

instance (pol : Policy P) (c : Cache P V) : Decidable (KeysAgree pol c) :=
  inferInstanceAs (Decidable (c.data.keys = pol.keys c.policy))

end Cache

end Ristretto
