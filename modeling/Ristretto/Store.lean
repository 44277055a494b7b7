import Mathlib.Data.Finmap

/-! `store.go`: the `store` interface and its implementations `syncMap`, over a `sync.Map`, and
`lockedMap`, a Go map behind a `sync.RWMutex`. Both keep one value for each `uint64` key and update
it atomically, so `Get`, `Set` and `Del` are the operations of a `Finmap`. `Run` ranges over the
entries in an order the map chooses, which is a parameter here, calls `f` on each and returns after
the first call that answers false. The interface promises that no key is visited twice and that,
while `f` answers true, every key is visited once. -/

namespace Ristretto
namespace Store

variable {V : Type}

abbrev Map (V : Type) := Finmap fun _ : UInt64 => V

def get (m : Map V) (key : UInt64) : Option V := m.lookup key

def set (m : Map V) (key : UInt64) (value : V) : Map V := m.insert key value

def del (m : Map V) (key : UInt64) : Map V := m.erase key

/-- `entries` is an order in which a range over `m` may visit its entries. -/
def IsRangeOrder (m : Map V) (entries : List (UInt64 × V)) : Prop :=
  (entries.map Prod.fst).Nodup ∧ ∀ k v, (k,v) ∈ entries ↔ m.lookup k = some v

/-- `Run`, `for k, v := range m.data { if !f(k, v) { return } }` of `lockedMap` and the `Range` of
`syncMap`, over the entries in the order `entries` the range visits them: the calls of `f` it
makes. -/
def run (f : UInt64 → V → Bool) : List (UInt64 × V) → List (UInt64 × V)
  | [] => []
  | (k,v) :: kvs => (k,v) :: if f k v then run f kvs else []

variable (f : UInt64 → V → Bool)

theorem run_prefix (entries : List (UInt64 × V)) : run f entries <+: entries := by
  induction entries with
  | nil => exact List.nil_prefix
  | cons kv kvs ih =>
    obtain ⟨k,v⟩ := kv
    rw [run]
    split_ifs
    · exact (List.prefix_cons_inj _).2 ih
    · exact (List.prefix_cons_inj _).2 List.nil_prefix

theorem run_dropLast (entries : List (UInt64 × V)) :
    ∀ kv ∈ (run f entries).dropLast, f kv.1 kv.2 = true := by
  induction entries with
  | nil => simp [run]
  | cons kv kvs ih =>
    obtain ⟨k,v⟩ := kv
    rw [run]
    split_ifs with hf
    · cases hr : run f kvs with
      | nil => simp
      | cons kv' kvs' =>
        rw [hr] at ih
        rw [List.dropLast_cons₂]
        rintro x (_ | ⟨_,hx⟩)
        · exact hf
        · exact ih x hx
    · simp

theorem run_eq_of_forall (entries : List (UInt64 × V))
    (h : ∀ kv ∈ run f entries, f kv.1 kv.2 = true) : run f entries = entries := by
  induction entries with
  | nil => rfl
  | cons kv kvs ih =>
    obtain ⟨k,v⟩ := kv
    have hf : f k v = true := h (k,v) (by rw [run]; exact .head _)
    rw [run,if_pos hf] at h ⊢
    exact congrArg _ (ih fun kv hkv => h kv (.tail _ hkv))

/-- For every map and every order a range may take over it, `Run` calls `f` on entries of the map
only, on no key twice, and stops only after a call that answers false: if every call answers
true, every key of the map was visited. -/
theorem run_contract (m : Map V) (entries : List (UInt64 × V)) (h : IsRangeOrder m entries) :
    ((run f entries).map Prod.fst).Nodup ∧
      (∀ k v, (k,v) ∈ run f entries → m.lookup k = some v) ∧
      (∀ kv ∈ (run f entries).dropLast, f kv.1 kv.2 = true) ∧
      ((∀ kv ∈ run f entries, f kv.1 kv.2 = true) → ∀ k ∈ m, ∃ v, (k,v) ∈ run f entries) := by
  have hpre := run_prefix f entries
  refine ⟨h.1.sublist (hpre.sublist.map _),fun k v hkv => (h.2 k v).1 (hpre.subset hkv),
    run_dropLast f entries,fun hall k hk => ?_⟩
  obtain ⟨v,hv⟩ := Option.isSome_iff_exists.1 (Finmap.lookup_isSome.2 hk)
  exact ⟨v,by rw [run_eq_of_forall f entries hall]; exact (h.2 k v).2 hv⟩

theorem run_contract_stop :
    ((run (fun _ v => v != 10) [((1 : UInt64),(10 : ℕ)),(2,20)]).map Prod.fst).Nodup ∧
      (∀ k v, (k,v) ∈ run (fun _ v => v != 10) [((1 : UInt64),(10 : ℕ)),(2,20)] →
        (set (set ∅ 1 10) 2 20).lookup k = some v) ∧
      (∀ kv ∈ (run (fun _ v => v != 10) [((1 : UInt64),(10 : ℕ)),(2,20)]).dropLast,
        (fun _ v => v != 10) kv.1 kv.2 = true) ∧
      ((∀ kv ∈ run (fun _ v => v != 10) [((1 : UInt64),(10 : ℕ)),(2,20)],
        (fun _ v => v != 10) kv.1 kv.2 = true) →
        ∀ k ∈ set (set ∅ 1 10) 2 20, ∃ v, (k,v) ∈ run (fun _ v => v != 10) [(1,10),(2,20)]) :=
  run_contract _ _ _ ⟨by decide,fun k v => by
    by_cases h2 : k = 2
    · subst h2; simp [set,eq_comm]
    · by_cases h1 : k = 1
      · subst h1; simp [set,Finmap.lookup_insert_of_ne,eq_comm]
      · simp [set,Finmap.lookup_insert_of_ne _ h1,Finmap.lookup_insert_of_ne _ h2,h1,h2]⟩

end Store
end Ristretto
