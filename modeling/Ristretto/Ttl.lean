import Mathlib.Data.Finmap

/-! `expirationMap` of `ttl.go`: buckets of `(key, conflict)` pairs keyed by expiration time, and
`CleanUp`, which detaches the bucket one behind the clock and deletes its keys from the store.
The operations take the bucket function as a parameter; the source keys by `timeToBucket`, the
second within the minute divided by `bucketSizeSecs`. A `time.Time` is its instant, an integer count
of nanoseconds since January 1 of year 1, 00:00:00 UTC, the zero `Time`. The callback `onEvict` is
outside the model: `CleanUp` takes whether it is set and returns the calls it makes. -/

namespace Ristretto
namespace Ttl

def isZero (t : ℤ) : Bool := t = 0

/-- `Time.Second` in UTC: the second within the minute. -/
def second (t : ℤ) : ℤ := t / 1000000000 % 60

def bucketSizeSecs : ℤ := 5

def timeToBucket (t : ℤ) : ℤ := second t / bucketSizeSecs

abbrev Bucket := Finmap fun _ : UInt64 => UInt64

/-- `expirationMap`. A bucket number the Go map lacks reads as the empty bucket, as a nil map. -/
structure ExpirationMap where
  buckets : ℤ → Bucket

def newExpirationMap : ExpirationMap := ⟨fun _ => ∅⟩

/-- Modelled from the spec: an item of the store `CleanUp` is handed. `CleanUp` calls
`store.Del(key, 0)` with two arguments and two results; the `store` of `store.go` has `Del(key)`
with neither and keeps no conflict, so this store is not the one in the source. -/
structure StoreItem (V : Type) where
  conflict : UInt64
  value : V

abbrev Store (V : Type) := Finmap fun _ : UInt64 => StoreItem V

variable {V P : Type}

/-- Modelled from the spec: `store.Del(key, conflict)` deletes when `conflict` is 0 or the stored
one, and returns the stored conflict and value, otherwise `(0, nil)`. -/
def Store.del (st : Store V) (key conflict : UInt64) : (UInt64 × Option V) × Store V :=
  match st.lookup key with
  | none => ((0,none),st)
  | some item =>
    if conflict = 0 ∨ conflict = item.conflict then ((item.conflict,some item.value),st.erase key)
    else ((0,none),st)

theorem erase_of_not_mem {β : UInt64 → Type} {m : Finmap β} {key : UInt64} (h : key ∉ m) :
    m.erase key = m :=
  Finmap.ext_lookup fun x => by
    by_cases hx : x = key
    · subst hx; rw [Finmap.lookup_erase,Finmap.lookup_eq_none.2 h]
    · exact Finmap.lookup_erase_ne hx

theorem Store.del_zero (st : Store V) (key : UInt64) : (st.del key 0).2 = st.erase key := by
  unfold Store.del
  split
  · rename_i h; exact (erase_of_not_mem (Finmap.lookup_eq_none.1 h)).symm
  · simp

/-- The policy as `CleanUp` sees it: `Cost`, which only reads, and the keys the policy tracks. -/
structure CostPolicy (P : Type) where
  cost : P → UInt64 → ℤ
  keys : P → Finset UInt64

/-- A call `onEvict(key, conflict, value, cost)`. -/
structure Eviction (V : Type) where
  key : UInt64
  conflict : UInt64
  value : Option V
  cost : ℤ

section
variable (toBucket : ℤ → ℤ)

namespace ExpirationMap

def add (m : ExpirationMap) (key conflict : UInt64) (expiration : ℤ) : ExpirationMap :=
  if isZero expiration then m
  else
    let bucketNum := toBucket expiration
    ⟨Function.update m.buckets bucketNum ((m.buckets bucketNum).insert key conflict)⟩

def delete (m : ExpirationMap) (key : UInt64) (expiration : ℤ) : ExpirationMap :=
  let bucketNum := toBucket expiration
  ⟨Function.update m.buckets bucketNum ((m.buckets bucketNum).erase key)⟩

/-- `CleanUp` at the clock reading `now`, `onEvict` telling whether the callback is set: detach the
bucket one behind `now`, then for each of its entries `store.Del(key, 0)`, `policy.Cost(key)` and,
when `onEvict != nil`, `onEvict`. The deletes of distinct keys commute, so the store after the loop
is the same in every order of the range, and the calls of `onEvict` form a multiset. -/
def cleanUp (m : ExpirationMap) (st : Store V) (pol : CostPolicy P) (p : P) (onEvict : Bool)
    (now : ℤ) : ExpirationMap × Store V × Multiset (Eviction V) :=
  let bucketNum := toBucket now - 1
  let keys := m.buckets bucketNum
  (⟨Function.update m.buckets bucketNum ∅⟩,
    keys.foldl (fun st key _ => (st.del key 0).2)
      (fun st _ _ _ _ => by simp only [Store.del_zero]; exact Finmap.erase_erase) st,
    if onEvict then keys.entries.map fun e => ⟨e.1,e.2,(st.del e.1 0).1.2,pol.cost p e.1⟩ else 0)

@[simp] theorem add_buckets (m : ExpirationMap) (key conflict : UInt64) (expiration : ℤ) :
    (m.add toBucket key conflict expiration).buckets = if isZero expiration then m.buckets else
      Function.update m.buckets (toBucket expiration)
        ((m.buckets (toBucket expiration)).insert key conflict) := by
  unfold add; split_ifs <;> rfl

@[simp] theorem delete_buckets (m : ExpirationMap) (key : UInt64) (expiration : ℤ) :
    (m.delete toBucket key expiration).buckets = Function.update m.buckets (toBucket expiration)
      ((m.buckets (toBucket expiration)).erase key) := rfl

@[simp] theorem cleanUp_buckets (m : ExpirationMap) (st : Store V) (pol : CostPolicy P) (p : P)
    (onEvict : Bool) (now : ℤ) : (m.cleanUp toBucket st pol p onEvict now).1.buckets =
      Function.update m.buckets (toBucket now - 1) ∅ := rfl

theorem mem_foldl_del (s : Multiset (Σ _ : UInt64,UInt64)) (st : Store V) (k : UInt64)
    [RightCommutative fun (d : Store V) (e : Σ _ : UInt64,UInt64) => (d.del e.1 0).2] :
    k ∈ s.foldl (fun d e => (d.del e.1 0).2) st ↔ k ∈ st ∧ ∀ e ∈ s, e.1 ≠ k := by
  induction s using Multiset.induction_on generalizing st with
  | empty => simp
  | cons a s ih =>
    rw [Multiset.foldl_cons,ih,Store.del_zero,Finmap.mem_erase]
    simp only [Multiset.mem_cons,forall_eq_or_imp]
    tauto

theorem mem_cleanUp_store (m : ExpirationMap) (st : Store V) (pol : CostPolicy P) (p : P)
    (onEvict : Bool) (now : ℤ) (k : UInt64) :
    k ∈ (m.cleanUp toBucket st pol p onEvict now).2.1 ↔ k ∈ st ∧ k ∉ m.buckets (toBucket now - 1) := by
  simp only [cleanUp,Finmap.foldl]
  rw [mem_foldl_del,Finmap.mem_def (s := m.buckets _),Multiset.keys,Multiset.mem_map]
  simp only [not_exists,not_and]

theorem mem_cleanUp_evictions (m : ExpirationMap) (st : Store V) (pol : CostPolicy P) (p : P)
    (onEvict : Bool) (now : ℤ) (k c : UInt64) :
    (∃ ev ∈ (m.cleanUp toBucket st pol p onEvict now).2.2, ev.key = k ∧ ev.conflict = c) ↔
      onEvict = true ∧ (m.buckets (toBucket now - 1)).lookup k = some c := by
  cases onEvict
  · simp [cleanUp]
  · simp only [cleanUp,if_true,Multiset.mem_map,Finmap.lookup_eq_some_iff,true_and]
    constructor
    · rintro ⟨_,⟨e,he,rfl⟩,rfl,rfl⟩; exact he
    · exact fun h => ⟨_,⟨⟨k,c⟩,h,rfl⟩,rfl,rfl⟩

/-- From a store and a policy that agree, `CleanUp` leaves them agreeing exactly when no key of the
store is in the detached bucket: it deletes those keys from the store and calls only `Cost` on the
policy. -/
theorem cleanUp_keys_agree_iff (m : ExpirationMap) (st : Store V) (pol : CostPolicy P) (p : P)
    (onEvict : Bool) (now : ℤ) (h : st.keys = pol.keys p) :
    (m.cleanUp toBucket st pol p onEvict now).2.1.keys = pol.keys p ↔
      ∀ k ∈ st, k ∉ m.buckets (toBucket now - 1) := by
  rw [← h]
  constructor
  · intro hk k hst
    have : k ∈ (m.cleanUp toBucket st pol p onEvict now).2.1 := by
      rw [← Finmap.mem_keys,hk,Finmap.mem_keys]; exact hst
    exact ((mem_cleanUp_store toBucket m st pol p onEvict now k).1 this).2
  · intro hk
    ext k
    simp only [Finmap.mem_keys,mem_cleanUp_store]
    exact ⟨And.left,fun hst => ⟨hst,hk k hst⟩⟩

end ExpirationMap

end

theorem cleanUp_keeps_policy_key :
    ¬((newExpirationMap.add timeToBucket 1 7 2000000000).cleanUp timeToBucket
      (Finmap.singleton 1 ⟨7,0⟩ : Store ℕ) ⟨fun _ _ => 1,id⟩ {1} true 6000000000).2.1.keys =
        ({1} : Finset UInt64) := fun hk =>
  (ExpirationMap.cleanUp_keys_agree_iff timeToBucket _ _ ⟨fun _ _ => 1,id⟩ {1} _ _ (by decide)).1
    hk 1
    (by decide) (by decide)

section
variable (toBucket : ℤ → ℤ)

inductive Event
  | add (key conflict : UInt64) (expiration : ℤ)
  | delete (key : UInt64) (expiration : ℤ)
  | cleanUp
deriving DecidableEq

structure State (V : Type) where
  map : ExpirationMap
  store : Store V

variable (pol : CostPolicy P) (p : P) (onEvict : Bool)

/-- One call at the clock reading `now`, with the calls of `onEvict` it makes. `CleanUp` reads the
policy and changes nothing in it. -/
def step (s : State V) (now : ℤ) : Event → State V × Multiset (Eviction V)
  | .add key conflict expiration => (⟨s.map.add toBucket key conflict expiration,s.store⟩,0)
  | .delete key expiration => (⟨s.map.delete toBucket key expiration,s.store⟩,0)
  | .cleanUp =>
    let r := s.map.cleanUp toBucket s.store pol p onEvict now
    (⟨r.1,r.2.1⟩,r.2.2)

def run (s : State V) : List (ℤ × Event) → State V
  | [] => s
  | (now,ev) :: evs => run (step toBucket pol p onEvict s now ev).1 evs

def evictions (s : State V) : List (ℤ × Event) → Multiset (Eviction V)
  | [] => 0
  | (now,ev) :: evs =>
    (step toBucket pol p onEvict s now ev).2 + evictions (step toBucket pol p onEvict s now ev).1 evs

@[simp] theorem step_cleanUp_buckets (s : State V) (now : ℤ) :
    (step toBucket pol p onEvict s now .cleanUp).1.map.buckets =
      Function.update s.map.buckets (toBucket now - 1) ∅ := rfl

@[simp] theorem run_nil (s : State V) : run toBucket pol p onEvict s [] = s := rfl

@[simp] theorem run_cons (s : State V) (now : ℤ) (ev : Event) (evs : List (ℤ × Event)) :
    run toBucket pol p onEvict s ((now,ev) :: evs) =
      run toBucket pol p onEvict (step toBucket pol p onEvict s now ev).1 evs :=
  rfl

theorem run_append (s : State V) (evs evs' : List (ℤ × Event)) :
    run toBucket pol p onEvict s (evs ++ evs') =
      run toBucket pol p onEvict (run toBucket pol p onEvict s evs) evs' := by
  induction evs generalizing s with
  | nil => rfl
  | cons e evs ih => exact ih _

theorem step_onEvict (s : State V) (now : ℤ) (ev : Event) :
    (step toBucket pol p onEvict s now ev).1 = (step toBucket pol p true s now ev).1 := by
  cases ev <;> rfl

theorem run_onEvict (s : State V) (evs : List (ℤ × Event)) :
    run toBucket pol p onEvict s evs = run toBucket pol p true s evs := by
  induction evs generalizing s with
  | nil => rfl
  | cons x evs ih =>
    obtain ⟨now,ev⟩ := x
    rw [run_cons,run_cons,step_onEvict toBucket pol p onEvict,ih]

theorem mem_step_store (s : State V) (now : ℤ) (ev : Event) (k : UInt64) :
    k ∈ (step toBucket pol p true s now ev).1.store ↔
      k ∈ s.store ∧ ∀ e ∈ (step toBucket pol p true s now ev).2, e.key ≠ k := by
  cases ev with
  | add => simp [step]
  | delete => simp [step]
  | cleanUp =>
    have hb : k ∈ s.map.buckets (toBucket now - 1) ↔
        ∃ e ∈ (s.map.cleanUp toBucket s.store pol p true now).2.2, e.key = k := by
      rw [← Finmap.lookup_isSome,Option.isSome_iff_exists]
      constructor
      · rintro ⟨c,hc⟩
        obtain ⟨e,he,hk,-⟩ := (ExpirationMap.mem_cleanUp_evictions toBucket s.map s.store pol p true
          now k c).2 ⟨rfl,hc⟩
        exact ⟨e,he,hk⟩
      · rintro ⟨e,he,hk⟩
        exact ⟨e.conflict,((ExpirationMap.mem_cleanUp_evictions toBucket s.map s.store pol p true
          now k e.conflict).1 ⟨e,he,hk,rfl⟩).2⟩
    simp [step,ExpirationMap.mem_cleanUp_store,hb]

/-- Whether `onEvict` is set or nil, a run leaves the map and the store as the same run with it set;
and with it set, a key leaves the store exactly when `onEvict` is called with it: `CleanUp`
deletes nothing from the store without reporting it to a callback that is set. -/
theorem mem_run_store (s : State V) (evs : List (ℤ × Event)) (k : UInt64) :
    run toBucket pol p onEvict s evs = run toBucket pol p true s evs ∧
      (k ∈ (run toBucket pol p true s evs).store ↔
        k ∈ s.store ∧ ∀ e ∈ evictions toBucket pol p true s evs, e.key ≠ k) := by
  refine ⟨run_onEvict toBucket pol p onEvict s evs,?_⟩
  induction evs generalizing s with
  | nil => simp [evictions]
  | cons x evs ih =>
    obtain ⟨now,ev⟩ := x
    rw [run_cons,ih,mem_step_store,evictions]
    simp only [Multiset.mem_add,or_imp,forall_and,and_assoc]

theorem step_buckets (s : State V) (now : ℤ) (b : ℤ) : ∀ ev,
    ((step toBucket pol p onEvict s now ev).1.map.buckets b = s.map.buckets b) ∨
      (∃ k c e, ev = .add k c e ∧ e ≠ 0 ∧ toBucket e = b ∧
        (step toBucket pol p onEvict s now ev).1.map.buckets b = (s.map.buckets b).insert k c) ∨
      (∃ k e, ev = .delete k e ∧
        (step toBucket pol p onEvict s now ev).1.map.buckets b = (s.map.buckets b).erase k) ∨
      (ev = .cleanUp ∧ toBucket now - 1 = b ∧ (step toBucket pol p onEvict s now ev).1.map.buckets b = ∅)
  | .add k c e => by
    by_cases he : e = 0
    · simp [step,isZero,he]
    by_cases hb : toBucket e = b
    · subst hb; exact .inr (.inl ⟨k,c,e,rfl,he,rfl,by simp [step,isZero,he]⟩)
    · simp [step,isZero,he,Function.update_noteq (Ne.symm hb)]
  | .delete k e => by
    by_cases hb : toBucket e = b
    · subst hb; simp [step]
    · simp [step,Function.update_noteq (Ne.symm hb)]
  | .cleanUp => by
    by_cases hb : toBucket now - 1 = b
    · subst hb; simp [step]
    · simp [step,Function.update_noteq (Ne.symm hb)]

/-- Every entry of every bucket was put there by an `Add` of `evs`, with that key and conflict and
a nonzero expiration of that bucket. -/
def Placed (evs : List (ℤ × Event)) (m : ExpirationMap) : Prop :=
  ∀ b k c, (m.buckets b).lookup k = some c →
    ∃ t e, (t,Event.add k c e) ∈ evs ∧ e ≠ 0 ∧ toBucket e = b

theorem Placed.step {evs : List (ℤ × Event)} {s : State V} (h : Placed toBucket evs s.map)
    (now : ℤ) (ev : Event) :
    Placed toBucket (evs ++ [(now,ev)]) (step toBucket pol p onEvict s now ev).1.map := by
  intro b k c hk
  have keep : (s.map.buckets b).lookup k = some c →
      ∃ t e, (t,Event.add k c e) ∈ evs ++ [(now,ev)] ∧ e ≠ 0 ∧ toBucket e = b :=
    fun hk => let ⟨t,e,hm,he⟩ := h b k c hk; ⟨t,e,List.mem_append_left _ hm,he⟩
  rcases step_buckets toBucket pol p onEvict s now b ev with hb | ⟨k',c',e,rfl,he,heb,hb⟩ | ⟨k',e,-,hb⟩ |
    ⟨-,-,hb⟩ <;> rw [hb] at hk
  · exact keep hk
  · by_cases hkk : k = k'
    · subst hkk; rw [Finmap.lookup_insert] at hk; cases hk
      exact ⟨now,e,by simp,he,heb⟩
    · exact keep (by rwa [Finmap.lookup_insert_of_ne _ hkk] at hk)
  · by_cases hkk : k = k'
    · subst hkk; simp at hk
    · exact keep (by rwa [Finmap.lookup_erase_ne hkk] at hk)
  · simp at hk

/-- What a call at the clock reading `now` does to key `k` of bucket `b`: files it under a conflict,
takes it out, or leaves it alone (`none`). -/
def effect (b : ℤ) (k : UInt64) (now : ℤ) : Event → Option (Option UInt64)
  | .add k' c e => if k' = k ∧ e ≠ 0 ∧ toBucket e = b then some (some c) else none
  | .delete k' e => if k' = k ∧ toBucket e = b then some none else none
  | .cleanUp => if toBucket now - 1 = b then some none else none

theorem lookup_step (s : State V) (now : ℤ) (ev : Event) (b : ℤ) (k : UInt64) :
    ((step toBucket pol p onEvict s now ev).1.map.buckets b).lookup k =
      (effect toBucket b k now ev).getD ((s.map.buckets b).lookup k) := by
  cases ev with
  | add k' c e =>
    by_cases hz : e = 0
    · simp [step,effect,isZero,hz]
    by_cases hb : toBucket e = b
    · subst hb
      by_cases hk : k' = k
      · subst hk; simp [step,effect,isZero,hz]
      · simp [step,effect,isZero,hz,hk,Finmap.lookup_insert_of_ne _ (Ne.symm hk)]
    · simp [step,effect,isZero,hz,hb,Function.update_noteq (Ne.symm hb)]
  | delete k' e =>
    by_cases hb : toBucket e = b
    · subst hb
      by_cases hk : k' = k
      · subst hk; simp [step,effect]
      · simp [step,effect,hk,Finmap.lookup_erase_ne (Ne.symm hk)]
    · simp [step,effect,hb,Function.update_noteq (Ne.symm hb)]
  | cleanUp =>
    by_cases hb : toBucket now - 1 = b
    · subst hb; simp [effect]
    · simp [effect,hb,Function.update_noteq (Ne.symm hb)]

theorem effect_eq_some_some {b : ℤ} {k c : UInt64} {now : ℤ} {ev : Event} :
    effect toBucket b k now ev = some (some c) ↔ ∃ e, ev = .add k c e ∧ e ≠ 0 ∧ toBucket e = b := by
  cases ev with
  | add k' c' e =>
    simp only [effect]
    split_ifs with h
    · obtain ⟨rfl,he,hb⟩ := h
      constructor
      · intro hc; cases hc; exact ⟨e,rfl,he,hb⟩
      · rintro ⟨_,⟨⟩,-,-⟩; rfl
    · constructor
      · intro hc; cases hc
      · rintro ⟨e',⟨⟩,he,hb⟩; exact absurd ⟨rfl,he,hb⟩ h
  | delete k' e => simp only [effect]; split_ifs <;> simp
  | cleanUp => simp only [effect]; split_ifs <;> simp

theorem lookup_run_of_effect_none (s : State V) (evs : List (ℤ × Event)) (b : ℤ) (k : UInt64)
    (h : ∀ x ∈ evs, effect toBucket b k x.1 x.2 = none) :
    ((run toBucket pol p onEvict s evs).map.buckets b).lookup k = (s.map.buckets b).lookup k := by
  induction evs generalizing s with
  | nil => rfl
  | cons x evs ih =>
    obtain ⟨now,ev⟩ := x
    rw [run_cons,ih _ fun y hy => h y (.tail _ hy),lookup_step,h _ (.head _)]
    rfl

theorem exists_last_add_of_lookup (st : Store V) (evs : List (ℤ × Event)) (b : ℤ) (k c : UInt64)
    (h : ((run toBucket pol p onEvict ⟨newExpirationMap,st⟩ evs).map.buckets b).lookup k = some c) :
    ∃ pre t e post, evs = pre ++ (t,.add k c e) :: post ∧ e ≠ 0 ∧ toBucket e = b ∧
      ∀ x ∈ post, effect toBucket b k x.1 x.2 = none := by
  induction evs using List.reverseRecOn with
  | nil => simp [newExpirationMap] at h
  | append_singleton evs x ih =>
    obtain ⟨now,ev⟩ := x
    rw [run_append,run_cons,run_nil,lookup_step] at h
    cases hx : effect toBucket b k now ev with
    | none =>
      rw [hx] at h
      obtain ⟨pre,t,e,post,rfl,he,heb,hpost⟩ := ih h
      refine ⟨pre,t,e,post ++ [(now,ev)],by simp,he,heb,?_⟩
      simp only [List.mem_append,List.mem_singleton]
      rintro y (hy | rfl)
      exacts [hpost y hy,hx]
    | some o =>
      rw [hx] at h
      cases h
      obtain ⟨e,rfl,he,heb⟩ := (effect_eq_some_some toBucket).1 hx
      exact ⟨evs,now,e,[],by simp,he,heb,by simp⟩

/-- After any run from a new map, bucket `b` files `k` under conflict `c` exactly when an `Add` of
`k` with conflict `c` and a nonzero expiration in `b` is followed by no call that touches `k` in
`b`: no other `Add` or `Delete` of `k` with an expiration in `b`, and no `CleanUp` one bucket
after `b`. -/
theorem lookup_run_iff (st : Store V) (evs : List (ℤ × Event)) (b : ℤ) (k c : UInt64) :
    ((run toBucket pol p onEvict ⟨newExpirationMap,st⟩ evs).map.buckets b).lookup k = some c ↔
      ∃ pre t e post, evs = pre ++ (t,.add k c e) :: post ∧ e ≠ 0 ∧ toBucket e = b ∧
        ∀ x ∈ post, effect toBucket b k x.1 x.2 = none := by
  refine ⟨exists_last_add_of_lookup toBucket pol p onEvict st evs b k c,?_⟩
  rintro ⟨pre,t,e,post,rfl,he,heb,hpost⟩
  rw [run_append,run_cons,lookup_run_of_effect_none _ _ _ _ _ _ _ _ hpost,lookup_step]
  simp [effect,he,heb]

/-- A `CleanUp` that detaches the same bucket as an earlier `CleanUp` reports only entries an `Add`
filed after the earlier one: no entry is reported twice. -/
theorem cleanUp_reports_after_previous (st : Store V) (pre mid : List (ℤ × Event)) (t₁ t₂ : ℤ)
    (hb : toBucket t₁ = toBucket t₂) (k c : UInt64)
    (h : ∃ ev ∈ (step toBucket pol p onEvict (run toBucket pol p onEvict ⟨newExpirationMap,st⟩
      (pre ++ (t₁,.cleanUp) :: mid)) t₂ .cleanUp).2, ev.key = k ∧ ev.conflict = c) :
    ∃ t e, (t,Event.add k c e) ∈ mid ∧ e ≠ 0 ∧ toBucket e = toBucket t₂ - 1 := by
  rw [step,ExpirationMap.mem_cleanUp_evictions] at h
  obtain ⟨pre',t,e,post,heq,he,heb,hpost⟩ :=
    exists_last_add_of_lookup toBucket pol p onEvict st _ _ k c h.2
  -- the earlier `CleanUp` touches `k` in the bucket, so the last `Add` comes after it
  rcases List.append_eq_append_iff.1 heq with ⟨_ | ⟨_,a⟩,rfl,hm⟩ | ⟨_ | ⟨_,c'⟩,rfl,hp⟩
  · simp at hm
  · obtain ⟨-,rfl⟩ := List.cons_eq_cons.1 hm
    exact ⟨t,e,List.mem_append_right _ (.head _),he,heb⟩
  · simp at hp
  · obtain ⟨-,rfl⟩ := List.cons_eq_cons.1 hp
    simpa [effect,hb] using hpost _ (List.mem_append_right _ (.head _))

end

theorem cleanUp_reports_after_previous_62 :
    ∃ t e, (t,Event.add 1 7 e) ∈ [((7000000000 : ℤ),Event.add 1 7 62000000000)] ∧ e ≠ 0 ∧
      timeToBucket e = timeToBucket 66000000000 - 1 :=
  cleanUp_reports_after_previous timeToBucket ⟨fun _ _ => 0,fun _ => ∅⟩ () true (∅ : Store ℕ)
    [(0,.add 1 7 2000000000)] _ 6000000000 66000000000 (by decide) 1 7
    (by rw [step,ExpirationMap.mem_cleanUp_evictions]; decide)

end Ttl
end Ristretto
