import Ristretto.Policies

/-! The calls of `Cache.Set` and `Cache.Del` split into the component calls they make, each atomic,
so that calls from concurrent clients interleave. `Runs` shows that one call run alone is the
sequential `Cache.Set` or `Cache.Del`; `Reachable` is every state of any interleaving, or of the
runs where a call only starts once the previous one has returned. Without overlap the states with no
call in flight are exactly those of the sequential cache (`idle_reachable_iff_seqRun`). Over every
interleaving, a key that is in neither `data` nor the policy stays out until a client sets it. -/

namespace Ristretto
namespace Concurrent

open Cache

variable {P V : Type}

/-- A call of `Set` or `Del` in flight, named by the component call it makes next: `set` is
`policy.Add`; `evict` the `data.Del` of the next victim, or `data.Set` with the increment of `used`
when none is left; `uncount` the decrement of `used` for the victim just deleted, modulo `2^64`;
`halve` is `atomic.StoreUint64(&c.used, c.size/2)` and `reset` `policy.Res`; `del` is `policy.Del`
and `delData` the `data.Del` of `Del`. -/
inductive Call (V : Type)
  | set (key : String) (val : V) (cost : UInt64)
  | evict (key : String) (val : V) (victims : List String)
  | uncount (key : String) (val : V) (victims : List String)
  | halve
  | reset
  | del (key : String)
  | delData (key : String)

/-- One component call: the cache after it, and what the call does next, if anything. -/
def Call.step (pol : Policy P) (c : Cache P V) : Call V → Cache P V × Option (Call V)
  | .set key val cost =>
    match pol.add c.policy key cost with
    | (victims,added,policy) =>
      ({ c with policy := policy },if added then some (.evict key val victims) else none)
  | .evict key val [] =>
    let c := { c with data := c.data.insert key val,used := c.used + 1 }
    (c,if c.used = c.size then some .halve else none)
  | .evict key val (v :: vs) => ({ c with data := c.data.erase v },some (.uncount key val vs))
  | .uncount key val vs => ({ c with used := c.used - 1 },some (.evict key val vs))
  | .halve => ({ c with used := c.size / 2 },some .reset)
  | .reset => ({ c with policy := pol.res c.policy },none)
  | .del key => ({ c with policy := pol.del c.policy key },some (.delData key))
  | .delData key => ({ c with data := c.data.erase key },none)

/-- A call run alone from `c` returns in the state `e`. -/
inductive Runs (pol : Policy P) : Cache P V → Call V → Cache P V → Prop
  | done {c e call} : call.step pol c = (e,none) → Runs pol c call e
  | next {c d e call k} : call.step pol c = (d,some k) → Runs pol d k e → Runs pol c call e

theorem runs_evict (pol : Policy P) (key : String) (val : V) (victims : List String)
    (c : Cache P V) :
    Runs pol c (.evict key val victims) (finishSet pol (victims.foldl evictOne c) key val) := by
  induction victims generalizing c with
  | nil =>
    by_cases h : c.used + 1 = c.size
    · exact .next (d := { c with data := c.data.insert key val,used := c.used + 1 }) (k := .halve)
        (by simp [Call.step,h]) (.next rfl (.done (by simp [Call.step,finishSet,h])))
    · exact .done (by simp [Call.step,finishSet,h])
  | cons v vs ih => exact .next rfl (.next rfl (ih _))

theorem runs_set (pol : Policy P) (c : Cache P V) (key : String) (val : V) (cost : UInt64) :
    Runs pol c (.set key val cost) (c.set pol key val cost).2 := by
  rcases h : pol.add c.policy key cost with ⟨victims,added,policy⟩
  cases added
  · exact .done (by simp [Call.step,Cache.set,h])
  · have hr := runs_evict pol key val victims { c with policy := policy }
    exact .next (d := { c with policy := policy }) (k := .evict key val victims)
      (by simp [Call.step,h]) (by simpa [Cache.set,h] using hr)

theorem runs_del (pol : Policy P) (c : Cache P V) (key : String) :
    Runs pol c (.del key) (c.del pol key) :=
  .next rfl (.done rfl)

inductive Op (V : Type)
  | set (key : String) (val : V) (cost : UInt64)
  | del (key : String)

def Op.call : Op V → Call V
  | .set key val cost => .set key val cost
  | .del key => .del key

structure System (P V : Type) where
  cache : Cache P V
  calls : List (Call V)

namespace System

def invoke (s : System P V) (op : Op V) : System P V := { s with calls := s.calls ++ [op.call] }

def advance (pol : Policy P) (s : System P V) (i : ℕ) : System P V :=
  match s.calls[i]? with
  | none => s
  | some call =>
    match call.step pol s.cache with
    | (c,some k) => ⟨c,s.calls.set i k⟩
    | (c,none) => ⟨c,s.calls.eraseIdx i⟩

end System

/-- The states of the runs from a new cache: of every interleaving when `overlap`, otherwise of
the runs in which a call starts only when no other is in flight. -/
inductive Reachable (pol : Policy P) (config : Config) (overlap : Bool) : System P V → Prop
  | init : Reachable pol config overlap ⟨newCache pol config,[]⟩
  | invoke {s} (op : Op V) : Reachable pol config overlap s → (overlap = true ∨ s.calls = []) →
      Reachable pol config overlap (s.invoke op)
  | advance {s} (i : ℕ) : Reachable pol config overlap s →
      Reachable pol config overlap (s.advance pol i)

inductive Action (V : Type)
  | invoke (op : Op V)
  | advance (i : ℕ)

/-- A schedule run from `s`; `none` when it starts a call that would overlap and `overlap` is off. -/
def runSchedule (pol : Policy P) (overlap : Bool) :
    System P V → List (Action V) → Option (System P V)
  | s,[] => some s
  | s,.invoke op :: acts =>
    if overlap || s.calls.isEmpty then runSchedule pol overlap (s.invoke op) acts else none
  | s,.advance i :: acts => runSchedule pol overlap (s.advance pol i) acts

theorem Reachable.runSchedule {pol : Policy P} {config : Config} {overlap : Bool}
    {s s' : System P V} (h : Reachable pol config overlap s) (acts : List (Action V))
    (hr : Concurrent.runSchedule pol overlap s acts = some s') : Reachable pol config overlap s' := by
  induction acts generalizing s with
  | nil => cases hr; exact h
  | cons a acts ih =>
    cases a with
    | invoke op =>
      simp only [Concurrent.runSchedule] at hr
      split_ifs at hr with ho
      exact ih (h.invoke op (by simpa [List.isEmpty_iff] using ho)) hr
    | advance i => exact ih (h.advance i) hr

def Op.apply (pol : Policy P) (c : Cache P V) : Op V → Cache P V
  | .set key val cost => (c.set pol key val cost).2
  | .del key => c.del pol key

def seqRun (pol : Policy P) (config : Config) (ops : List (Op V)) : Cache P V :=
  ops.foldl (Op.apply pol) (newCache pol config)

theorem runs_op (pol : Policy P) (c : Cache P V) : ∀ op : Op V, Runs pol c op.call (op.apply pol c)
  | .set key val cost => runs_set pol c key val cost
  | .del key => runs_del pol c key

section
variable {pol : Policy P} {config : Config}

theorem Runs.of_step_some {c d e : Cache P V} {call k : Call V} (h : Runs pol c call e)
    (hs : call.step pol c = (d,some k)) : Runs pol d k e := by
  cases h with
  | done h => rw [hs] at h; cases h
  | next h hr => rw [hs] at h; cases h; exact hr

theorem Runs.eq_of_step_none {c d e : Cache P V} {call : Call V} (h : Runs pol c call e)
    (hs : call.step pol c = (d,none)) : d = e := by
  cases h with
  | done h => rw [hs] at h; cases h; rfl
  | next h _ => rw [hs] at h; cases h

/-- Without overlap: no call in flight and the cache of a sequential run, or one call in flight that,
run on alone, ends in the cache of a sequential run. -/
def Refines (pol : Policy P) (config : Config) (s : System P V) : Prop :=
  ∃ ops, match s.calls with
    | [] => s.cache = seqRun pol config ops
    | [call] => Runs pol s.cache call (seqRun pol config ops)
    | _ :: _ :: _ => False

theorem Reachable.refines {s : System P V} (h : Reachable pol config false s) :
    Refines pol config s := by
  induction h with
  | init => exact ⟨[],rfl⟩
  | @invoke s op _ hq ih =>
    obtain ⟨ops,hops⟩ := ih
    simp only [Bool.false_eq_true,false_or] at hq
    rcases s with ⟨c,calls⟩
    subst hq
    refine ⟨ops ++ [op],?_⟩
    show Runs pol c op.call (seqRun pol config (ops ++ [op]))
    rw [seqRun,List.foldl_append,← seqRun,← show c = seqRun pol config ops from hops]
    exact runs_op pol c op
  | @advance s i _ ih =>
    obtain ⟨ops,hops⟩ := ih
    rcases s with ⟨c,_ | ⟨call,_ | ⟨_,_⟩⟩⟩
    · exact ⟨ops,hops⟩
    · cases i with
      | zero =>
        simp only [System.advance,List.getElem?_cons_zero]
        rcases hstep : call.step pol c with ⟨d,_ | k⟩
        · exact ⟨ops,hops.eq_of_step_none hstep⟩
        · exact ⟨ops,hops.of_step_some hstep⟩
      | succ i => exact ⟨ops,hops⟩
    · exact hops.elim

theorem Runs.reachable {c e : Cache P V} {call : Call V} (h : Runs pol c call e)
    (hs : Reachable pol config false ⟨c,[call]⟩) : Reachable pol config false (⟨e,[]⟩ : System P V) := by
  induction h with
  | done h => simpa only [System.advance,List.getElem?_cons_zero,h,List.eraseIdx_cons_zero]
      using hs.advance 0
  | next h _ ih => exact ih (by simpa only [System.advance,List.getElem?_cons_zero,h,
      List.set_cons_zero] using hs.advance 0)

theorem reachable_foldl (ops : List (Op V)) {s : System P V} (hs : Reachable pol config false s)
    (hq : s.calls = []) :
    Reachable pol config false (⟨ops.foldl (Op.apply pol) s.cache,[]⟩ : System P V) := by
  rcases s with ⟨c,calls⟩
  subst hq
  induction ops generalizing c with
  | nil => exact hs
  | cons op ops ih =>
    exact ih _ ((runs_op pol c op).reachable (by simpa [System.invoke] using hs.invoke op (.inr rfl)))

/-- Without overlap, the states with no call in flight are exactly the caches of the sequential runs
of `Cache.Set` and `Cache.Del` from `NewCache`. -/
theorem idle_reachable_iff_seqRun (c : Cache P V) :
    (∃ s, Reachable pol config false s ∧ s.calls = [] ∧ s.cache = c) ↔
      ∃ ops : List (Op V), c = seqRun pol config ops := by
  constructor
  · rintro ⟨⟨c,calls⟩,h,hq,rfl⟩
    obtain ⟨ops,hops⟩ := h.refines
    subst hq
    exact ⟨ops,hops⟩
  · rintro ⟨ops,rfl⟩
    exact ⟨_,reachable_foldl ops Reachable.init rfl,rfl,rfl⟩

theorem policy_subset_foldl (ht : pol.Tracks) (ops : List (Op V)) {c : Cache P V}
    (h : pol.keys c.policy ⊆ c.data.keys) :
    pol.keys (ops.foldl (Op.apply pol) c).policy ⊆ (ops.foldl (Op.apply pol) c).data.keys := by
  induction ops generalizing c with
  | nil => exact h
  | cons op ops ih =>
    refine ih ?_
    cases op with
    | set key val cost => exact policy_subset_set ht h key val cost
    | del key => exact policy_subset_del ht h key

/-- In every sequential run of `Set` and `Del` from `NewCache`, every key the policy tracks is in
`data`, also for policies whose rejecting `Add` returns victims: that slip leaves keys in `data`
that the policy dropped, never a tracked key missing from `data`. -/
theorem policy_keys_subset_seqRun (ht : pol.Tracks) (ops : List (Op V)) :
    pol.keys (seqRun pol config ops).policy ⊆ (seqRun pol config ops).data.keys :=
  policy_subset_foldl ht ops (by simp [newCache,ht.new])

theorem lookup_apply_eq_some {c : Cache P V} {op : Op V} {k : String} {v : V}
    (h : (op.apply pol c).data.lookup k = some v) :
    (∃ cost, op = .set k v cost) ∨ (op ≠ .del k ∧ c.data.lookup k = some v) := by
  cases op with
  | set key val cost =>
    have hne : Op.set key val cost ≠ .del k := fun h' => nomatch h'
    revert h
    show (c.set pol key val cost).2.data.lookup k = some v → _
    unfold Cache.set
    rcases pol.add c.policy key cost with ⟨vs,_ | _,p'⟩
    · exact fun h => .inr ⟨hne,h⟩
    · intro h
      have h' : (finishSet pol (vs.foldl evictOne { c with policy := p' }) key val).data.lookup k =
          some v := h
      rw [finishSet_data] at h'
      by_cases hk : k = key
      · subst hk; rw [Finmap.lookup_insert] at h'; cases h'; exact .inl ⟨cost,rfl⟩
      · rw [Finmap.lookup_insert_of_ne _ hk,lookup_foldl_evictOne] at h'
        split_ifs at h'
        exact .inr ⟨hne,h'⟩
  | del key =>
    have hk : k ≠ key := by rintro rfl; simp [Op.apply,Cache.del] at h
    exact .inr ⟨fun h' => hk (Op.del.inj h').symm,
      by simpa [Op.apply,Cache.del,Finmap.lookup_erase_ne hk] using h⟩

theorem lookup_foldl_apply_eq_some (ops : List (Op V)) {c : Cache P V} {k : String} {v : V}
    (h : (ops.foldl (Op.apply pol) c).data.lookup k = some v) :
    (∃ pre cost post, ops = pre ++ .set k v cost :: post ∧ .del k ∉ post) ∨
      (c.data.lookup k = some v ∧ .del k ∉ ops) := by
  induction ops generalizing c with
  | nil => exact .inr ⟨h,List.not_mem_nil _⟩
  | cons op ops ih =>
    rcases ih h with ⟨pre,cost,post,rfl,hpost⟩ | ⟨hc,hops⟩
    · exact .inl ⟨op :: pre,cost,post,rfl,hpost⟩
    · rcases lookup_apply_eq_some hc with ⟨cost,rfl⟩ | ⟨hop,hc⟩
      · exact .inl ⟨[],cost,ops,rfl,hops⟩
      · exact .inr ⟨hc,List.not_mem_cons_of_ne_of_not_mem (Ne.symm hop) hops⟩

/-- For every policy, `Get` after a sequential run returns a value only when a `Set` of the key
passed it and no `Del` of the key came after that `Set`: the cache neither invents values nor
brings back a deleted one. -/
theorem get_seqRun_eq_some (config : Config) (ops : List (Op V)) (k : String) (v : V)
    (h : (seqRun pol config ops).get k = some v) :
    ∃ pre cost post, ops = pre ++ .set k v cost :: post ∧ .del k ∉ post :=
  (lookup_foldl_apply_eq_some ops h).resolve_right fun ⟨h0,_⟩ => by simp [newCache] at h0

end

theorem policy_keys_subset_seqRun_evictThenReject :
    Policies.evictThenReject.keys
        (seqRun Policies.evictThenReject ⟨2,0⟩ [.set "a" (1 : ℕ) 1,.set "b" 2 1]).policy ⊆
      (seqRun Policies.evictThenReject ⟨2,0⟩ [.set "a" (1 : ℕ) 1,.set "b" 2 1]).data.keys :=
  policy_keys_subset_seqRun Policies.evictThenReject_tracks _

theorem get_seqRun_eq_some_fifo :
    ∃ pre cost post, [Op.set "a" (1 : ℕ) 1,.del "b"] = pre ++ Op.set "a" 1 cost :: post ∧
      Op.del "a" ∉ post :=
  @get_seqRun_eq_some _ _ (Policies.fifo 2) ⟨2,0⟩ _ "a" 1 (by decide)

/-- The keys while a call is in flight alone: the policy is ahead of `data` by what the call has
still to do to `data`. -/
def Pending (pol : Policy P) (c : Cache P V) : Call V → Prop
  | .evict key _ vs | .uncount key _ vs => pol.keys c.policy = insert key (c.data.keys \ vs.toFinset)
  | .delData key => pol.keys c.policy = c.data.keys.erase key
  | _ => KeysAgree pol c

def After (pol : Policy P) (c : Cache P V) : Option (Call V) → Prop
  | none => KeysAgree pol c
  | some k => Pending pol c k

section
variable {pol : Policy P} (ht : pol.Tracks) (hr : pol.RejectsCleanly)
include ht hr

theorem pending_step {c : Cache P V} {call : Call V} (h : Pending pol c call) :
    After pol (call.step pol c).1 (call.step pol c).2 := by
  cases call with
  | set key val cost =>
    rcases hA : pol.add c.policy key cost with ⟨vs,added,p'⟩
    have hk := ht.add hA
    cases added
    · simp only [Call.step,hA,After,KeysAgree]
      simp [hk,hr hA,← h.symm]
    · simp only [Call.step,hA,After,Pending,if_true] at h ⊢
      rw [hk,if_pos rfl,h]
  | evict key val vs =>
    cases vs with
    | nil =>
      simp only [Pending,List.toFinset_nil,Finset.sdiff_empty] at h
      simp only [Call.step]; split_ifs <;> simp [After,Pending,KeysAgree,h]
    | cons v vs =>
      simp only [Pending,List.toFinset_cons] at h
      show pol.keys c.policy = insert key ((c.data.erase v).keys \ vs.toFinset)
      rw [Finmap.keys_erase,h,Finset.sdiff_insert,Finset.erase_sdiff_comm]
  | uncount key val vs => simpa only [Call.step,After,Pending] using h
  | halve => exact h
  | reset => simp only [Call.step,After,KeysAgree,ht.res]; exact h
  | del key =>
    simp only [Call.step,After,Pending,ht.del]; rw [← h]
  | delData key => simp only [Call.step,After,KeysAgree,Finmap.keys_erase]; exact h.symm

def SeqInv (pol : Policy P) (s : System P V) : Prop :=
  match s.calls with
  | [] => KeysAgree pol s.cache
  | [call] => Pending pol s.cache call
  | _ :: _ :: _ => False

theorem seqInv_advance {s : System P V} (h : SeqInv pol s) (i : ℕ) :
    SeqInv pol (s.advance pol i) := by
  rcases s with ⟨c,_ | ⟨call,_ | ⟨_,_⟩⟩⟩
  · exact h
  · cases i with
    | zero =>
      have hs := pending_step ht hr h
      simp only [System.advance,List.getElem?_cons_zero]
      rcases hstep : call.step pol c with ⟨c',_ | k⟩ <;> rw [hstep] at hs <;> exact hs
    | succ i => exact h
  · exact h.elim

theorem Reachable.seqInv {config : Config} {s : System P V} (h : Reachable pol config false s) :
    SeqInv pol s := by
  induction h with
  | init => simp [SeqInv,KeysAgree,newCache,ht.new]
  | invoke op _ hq ih =>
    simp only [Bool.false_eq_true,false_or] at hq
    simp only [SeqInv,System.invoke,hq] at ih ⊢
    cases op <;> exact ih
  | advance i _ ih => exact seqInv_advance ht hr ih i

/-- When calls do not overlap and rejected `Add`s return no victims, `data` holds exactly the keys
the policy tracks whenever no call is in flight. -/
theorem keysAgree_of_sequential {config : Config} {s : System P V}
    (h : Reachable pol config false s) (hq : s.calls = []) : KeysAgree pol s.cache := by
  have hi := h.seqInv ht hr
  rw [SeqInv,hq] at hi
  exact hi

end

theorem keysAgree_of_sequential_fifo :
    ∃ s : System (List String) ℕ, Reachable (Policies.fifo 2) ⟨2,0⟩ false s ∧ s.calls = [] ∧
      s.cache.data.keys = {"c"} ∧ KeysAgree (Policies.fifo 2) s.cache :=
  have h := Reachable.init.runSchedule _ (Option.eq_some_of_isSome (show (runSchedule
      (Policies.fifo 2) false (⟨newCache (Policies.fifo 2) ⟨2,0⟩,[]⟩ : System (List String) ℕ)
      [.invoke (.set "a" 1 1),.advance 0,.advance 0,
        .invoke (.set "b" 2 1),.advance 0,.advance 0,.advance 0,.advance 0,
        .invoke (.set "c" 3 1),.advance 0,.advance 0,.advance 0,.advance 0,
        .invoke (.del "b"),.advance 0,.advance 0]).isSome by decide))
  have hq := List.isEmpty_iff.1 (by decide)
  ⟨_,h,hq,by decide,keysAgree_of_sequential (Policies.fifo_tracks 2) (Policies.fifo_rejectsCleanly 2)
    h hq⟩

/-- A `Del` of `"k"` that runs between the `policy.Add` and the `data.Set` of a `Set` of `"k"`
leaves `"k"` in `data` and out of the policy; and a policy that evicts before it rejects leaves
its victim in `data` even when calls do not overlap. -/
theorem keysAgree_counterexample :
    ((Policies.fifo 2).Tracks ∧ (Policies.fifo 2).RejectsCleanly ∧
      ∃ s : System (List String) ℕ, Reachable (Policies.fifo 2) ⟨2,0⟩ true s ∧ s.calls = [] ∧
        ¬KeysAgree (Policies.fifo 2) s.cache) ∧
    (Policies.evictThenReject.Tracks ∧
      ∃ s : System (List String) ℕ, Reachable Policies.evictThenReject ⟨2,0⟩ false s ∧
        s.calls = [] ∧ ¬KeysAgree Policies.evictThenReject s.cache) :=
  ⟨⟨Policies.fifo_tracks 2,Policies.fifo_rejectsCleanly 2,_,
      Reachable.init.runSchedule [.invoke (.set "k" 1 1),.advance 0,.invoke (.del "k"),.advance 1,
        .advance 1,.advance 0] rfl,rfl,by decide⟩,
    ⟨Policies.evictThenReject_tracks,_,
      Reachable.init.runSchedule [.invoke (.set "a" 1 1),.advance 0,.advance 0,
        .invoke (.set "b" 2 1),.advance 0] rfl,rfl,by decide⟩⟩

/-- With `NumCounters = 1` and a one-slot policy, the first `Set` brings `used` to `size`, the reset
halves it to `1/2 = 0`, and the second `Set` evicts the first key while `used` is 0: the
decrement wraps `used` to `2^64 - 1`. -/
theorem used_wraps_on_second_set :
    (Policies.fifo 1).Tracks ∧ (Policies.fifo 1).VictimsHeld ∧
    ∃ s : System (List String) ℕ, Reachable (Policies.fifo 1) ⟨1,0⟩ false s ∧
      s.calls = [.uncount "b" 2 []] ∧ s.cache.used = 0 ∧
      (s.advance (Policies.fifo 1) 0).cache.used = 18446744073709551615 :=
  ⟨Policies.fifo_tracks 1,Policies.fifo_victimsHeld 1,_,
    Reachable.init.runSchedule [.invoke (.set "a" 1 1),.advance 0,.advance 0,.advance 0,.advance 0,
      .invoke (.set "b" 2 1),.advance 0,.advance 0] rfl,rfl,rfl,rfl⟩

def Call.writes : Call V → Option String
  | .set key _ _ | .evict key _ _ | .uncount key _ _ => some key
  | _ => none

/-- `k` is in neither `data` nor the policy, and no call in flight will write it. -/
def Absent (pol : Policy P) (k : String) (s : System P V) : Prop :=
  k ∉ s.cache.data ∧ k ∉ pol.keys s.cache.policy ∧ ∀ call ∈ s.calls, call.writes ≠ some k

section
variable {pol : Policy P} (ht : pol.Tracks) {k : String}
include ht

theorem absent_step {c : Cache P V} {call : Call V} (hd : k ∉ c.data)
    (hp : k ∉ pol.keys c.policy) (hw : call.writes ≠ some k) :
    k ∉ (call.step pol c).1.data ∧ k ∉ pol.keys (call.step pol c).1.policy ∧
      ∀ n, (call.step pol c).2 = some n → n.writes ≠ some k := by
  cases call with
  | set key val cost =>
    have hk : key ≠ k := fun h => hw (congrArg some h)
    rcases hA : pol.add c.policy key cost with ⟨vs,added,p'⟩
    simp only [Call.step,hA]
    refine ⟨hd,?_,fun n hn => ?_⟩
    · rw [ht.add hA]; split_ifs <;> simp [hp,Ne.symm hk]
    · split_ifs at hn; cases hn; exact hw
  | evict key val vs =>
    cases vs with
    | nil =>
      have hk : key ≠ k := fun h => hw (congrArg some h)
      simp only [Call.step]
      refine ⟨by simp [Finmap.mem_insert,Ne.symm hk,hd],hp,fun n hn => ?_⟩
      split_ifs at hn; cases hn; simp [Call.writes]
    | cons v vs =>
      exact ⟨fun h => hd (Finmap.mem_erase.1 h).2,hp,fun n hn => by cases hn; exact hw⟩
  | uncount key val vs => exact ⟨hd,hp,fun n hn => by cases hn; exact hw⟩
  | halve => exact ⟨hd,hp,fun n hn => by cases hn; simp [Call.writes]⟩
  | reset => exact ⟨hd,by simpa [Call.step,ht.res] using hp,fun n hn => by cases hn⟩
  | del key =>
    refine ⟨hd,by simp [Call.step,ht.del,hp],fun n hn => ?_⟩
    cases hn; simp [Call.writes]
  | delData key => exact ⟨fun h => hd (Finmap.mem_erase.1 h).2,hp,fun n hn => by cases hn⟩

theorem absent_advance {s : System P V} (h : Absent pol k s) (i : ℕ) :
    Absent pol k (s.advance pol i) := by
  obtain ⟨hd,hp,hw⟩ := h
  unfold System.advance
  cases hi : s.calls[i]? with
  | none => exact ⟨hd,hp,hw⟩
  | some call =>
    obtain ⟨hd',hp',hn⟩ := absent_step ht hd hp (hw call (List.mem_iff_getElem?.2 ⟨i,hi⟩))
    dsimp only
    rcases hs : call.step pol s.cache with ⟨c',_ | n⟩ <;> rw [hs] at hd' hp' hn
    · exact ⟨hd',hp',fun x hx => hw x (List.mem_of_mem_eraseIdx hx)⟩
    · refine ⟨hd',hp',fun x hx => ?_⟩
      rcases List.mem_or_eq_of_mem_set hx with hx | rfl
      exacts [hw x hx,hn _ rfl]

/-- Over every schedule, overlapping calls included, that starts no `Set` of `k`: a key in neither
`data` nor the policy, with no call in flight that will write it, stays so. A completed `Del` is
never undone but by a later `Set` of the key. -/
theorem absent_runSchedule (overlap : Bool) {s s' : System P V} (acts : List (Action V))
    (hacts : ∀ v c, Action.invoke (.set k v c) ∉ acts)
    (hr : runSchedule pol overlap s acts = some s') (h : Absent pol k s) : Absent pol k s' := by
  induction acts generalizing s with
  | nil => cases hr; exact h
  | cons a acts ih =>
    have hrest : ∀ v c, Action.invoke (.set k v c) ∉ acts := fun v c hm => hacts v c (.tail _ hm)
    cases a with
    | invoke op =>
      simp only [runSchedule] at hr
      split_ifs at hr
      refine ih hrest hr ⟨h.1,h.2.1,fun call hc => ?_⟩
      rcases List.mem_append.1 hc with hc | hc
      · exact h.2.2 call hc
      · rw [List.mem_singleton.1 hc]
        cases op with
        | set key val cost =>
          rintro ⟨⟩; exact hacts val cost (.head _)
        | del key => simp [Op.call,Call.writes]
    | advance i => exact ih hrest hr (absent_advance ht h i)

end

theorem absent_runSchedule_fifo :
    ∃ s', runSchedule (Policies.fifo 2) true (⟨newCache (Policies.fifo 2) ⟨2,0⟩,[]⟩ : System _ ℕ)
        [.invoke (.set "a" 1 1),.invoke (.del "b"),.advance 0,.advance 1,.advance 0,.advance 0] =
        some s' ∧ Absent (Policies.fifo 2) "b" s' :=
  ⟨_,rfl,absent_runSchedule (s := ⟨newCache (Policies.fifo 2) ⟨2,0⟩,[]⟩) (Policies.fifo_tracks 2) true
    [.invoke (.set "a" 1 1),.invoke (.del "b"),.advance 0,.advance 1,.advance 0,.advance 0]
    (by simp) rfl ⟨Finmap.not_mem_empty,by simp [newCache,(Policies.fifo_tracks 2).new],by simp⟩⟩

end Concurrent
end Ristretto
